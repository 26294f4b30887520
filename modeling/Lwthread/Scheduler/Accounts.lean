import Lwthread.Scheduler.Handover
import Lwthread.Scheduler.WaitRecords

/-!
# Where every coroutine is

In the default build, when user code calls neither `sched_suspend` nor `sched_schedule`, every
coroutine is in one place (`State.At`): a thread executes it, has dequeued it as the next to run or
has it on its run list; its maker or its waker has it and is about to enqueue it; or it is asleep,
and one timer, one event or one event loop is to wake it. The one exception is a coroutine in
`sched_resched`, which is on the run list of its thread while it executes, from its enqueue to the
switch.
-/

namespace Lwthread.Scheduler

open Lwthread.Util Lwthread.Platform Custody

variable {s s' : SeqState} {t u : Tid} {l : LocalSched Unit} {c d x : Cid} {i : Input} {a : Act}

/-! ## Places -/

/-- Where a coroutine may be. -/
inductive Place where
  | executing (t : Tid)
  /-- dequeued, in `sched_suspend`, `sched_resched` or `free_coro`, and not switched to yet -/
  | successor (t : Tid)
  | listed (t : Tid)
  /-- made by `c` in `sched_new_coroutine` -/
  | made (c : Cid)
  /-- about to be enqueued by `c`, which has set its word to `RUNNABLE` -/
  | woken (c : Cid)
  | asleep

/-- What is to wake a coroutine: a timer in the heap, a registered event, or an event loop that has
taken the timer or the event and has not come to the exchange of `sched_schedule`. -/
inductive Waker where
  | timer (w : TimerWait)
  | event (key : Cid)
  | loop (c : Cid)

def State.Wakes (s : SeqState) (x : Cid) : Waker → Prop
  | .timer w => w ∈ s.timerHeap.bag ∧ w.coro = x
  | .event key => (∃ w, s.eventWait key = some w ∧ w.coro = some x) ∧ ∃ r ∈ s.poller, r.key = key
  | .loop c => ∃ ret, (s.context c).pc = .scheduleXchg x ret ∧ (x ∈ ret.due x ∨ x ∈ ret.taken x)

/-- The coroutine that a thread has dequeued. -/
@[simp] def Seat.successor : Seat → Option Cid
  | .handing _ x => some x
  | .parking _ x => some x
  | .taken x => some x
  | _ => none

/-- The coroutine `x` is in a place. -/
def State.At (s : SeqState) (x : Cid) : Place → Prop
  | .executing t => ∃ l, s.sched t = some l ∧ l.Runs x
  | .successor t => (s.seat t).successor = some x
  | .listed t => x ∈ s.queues.list t
  | .made c => x ∈ (s.context c).pc.fresh
  | .woken c => x ∈ (s.context c).pc.woken
  | .asleep => (s.word x).map Prod.fst = some STATE_BLOCKED ∧ ∃! w, s.Wakes x w

/-- The coroutine is in `sched_resched`, past its enqueue. -/
def Pc.yields : Pc Unit Unit → Bool
  | .resched (.dequeue _) _ => true
  | .resched (.switch _) _ => true
  | _ => false

/-- Every coroutine is accounted for once. -/
structure Accounted (s : SeqState) : Prop where
  /-- the assertion of `sched_enqueue_locked` holds -/
  asserts : s.failure ≠ some .enqueue
  /-- a live coroutine is in some place -/
  place : s.failure = none → ∀ {x}, s.coro x ≠ none → ∃ p, s.At x p
  /-- and in no other, but for the run list of its thread while it yields -/
  once : s.failure = none → ∀ {x p q}, s.At x p → s.At x q → p = q ∨
    (s.context x).pc.yields = true ∧ ∃ t, p = .executing t ∧ q = .listed t ∨
      p = .listed t ∧ q = .executing t
  /-- a run list has a coroutine once -/
  lists : s.failure = none → ∀ t, (s.queues.list t).Nodup
  /-- the timer heap has one timer of a coroutine -/
  timers : s.failure = none → (s.timerHeap.bag.map (·.coro)).Nodup

/-! ## Runs without `sched_suspend` and `sched_schedule` -/

/-- User code calls neither `sched_suspend` nor `sched_schedule`. -/
def Act.Plain (a : Act) : Prop :=
  ∀ t, a ≠ .tick t (.op .suspend) ∧ ∀ x, a ≠ .tick t (.op (.schedule x))

@[simp] def SuspendRet.Direct : SuspendRet → Prop
  | .user => True
  | _ => False

@[simp] def ScheduleRet.Direct : ScheduleRet → Prop
  | .user => True
  | _ => False

/-- A point of a call of `sched_suspend` or `sched_schedule` by user code. -/
@[simp] def Pc.Direct : Pc Unit Unit → Prop
  | .suspendBlock ret => ret.Direct
  | .suspendDequeue _ _ ret => ret.Direct
  | .suspendCmpxchg _ _ ret => ret.Direct
  | .suspendEnqueue _ _ ret => ret.Direct
  | .suspendUnblock ret => ret.Direct
  | .scheduleXchg _ ret => ret.Direct
  | .scheduleEnqueue _ _ ret => ret.Direct
  | _ => False

theorem afterTimers_direct (u : Tid) (v : Int) : ¬(afterTimers u v : Pc Unit Unit).Direct := by
  unfold afterTimers
  split <;> exact id

variable {preemption : Bool}

/-- A coroutine comes to such a point only by the call. -/
theorem Stride.direct (hst : Stride seqOps preemption s t l c i (s.context c).pc s')
    (h : (s'.context c).pc.Direct) :
    (s.context c).pc.Direct ∨ i = .op .suspend ∨ ∃ x, i = .op (.schedule x) := by
  generalize hpc : (s.context c).pc = pc at hst
  have hgo : ∀ {s₀ : SeqState} {pc' : Pc Unit Unit}, ((s₀.goto c pc').context c).pc.Direct →
      pc'.Direct := by
    intro s₀ pc' h
    rw [State.goto_pc] at h
    exact h
  cases hst with
  | @resched r ret s₁ r' hy =>
    have h := hgo h
    cases r' with
    | none => cases ret <;> exact h.elim
    | some r' => exact h.elim
  | flow hf =>
    have h := hgo h
    cases hf with
    | suspend hi => exact .inr (.inl hi)
    | schedule hi => exact .inr (.inr ⟨_, hi⟩)
    | suspendAssert => exact .inl h
    | scheduleAssert => exact .inl h
    | timersNone => exact absurd h (afterTimers_direct _ _)
    | _ => exact h.elim
  | @trampoline k start =>
    have h := hgo h
    cases start <;> exact h.elim
  | setErrno => simp [State.modSched, hpc] at h
  | ret => simp [State.modSched, hpc] at h
  | suspendBlock => have h := hgo h; exact .inl h
  | suspendPop => have h := hgo h; exact .inl h
  | suspendTake => have h := hgo h; exact .inl h
  | park =>
    refine .inl ?_
    simpa [State.modSched, State.goto] using h
  | abort => have h := hgo h; exact .inl h
  | suspendPush => have h := hgo h; exact .inl h
  | suspendPushed => have h := hgo h; exact .inl h
  | @suspendUnblock ret =>
    have h := hgo h
    cases ret <;> exact h.elim
  | @rouse x ret =>
    have h := hgo h
    cases ret <;> exact h.elim
  | wake => have h := hgo h; exact .inl h
  | schedulePush => have h := hgo h; exact .inl h
  | @schedulePushed x p ret =>
    have h := hgo h
    cases ret <;> exact h.elim
  | fetchAdd =>
    have h := hgo h
    split at h <;> exact h.elim
  | eintr => rw [hpc] at h; exact h.elim
  | timersMin =>
    have h := hgo h
    split at h <;> exact h.elim
  | @timersUnlock u v again =>
    have h := hgo h
    cases again
    · exact absurd h (afterTimers_direct u v)
    · exact h.elim
  | _ => exact (hgo h).elim

theorem Moves.direct (hl : s.sched t = some l) (ha : a.Plain) (hD : ∀ c, ¬(s.context c).pc.Direct)
    (hm : Moves seqOps preemption s t l a s') (c : Cid) : ¬(s'.context c).pc.Direct := by
  rcases hm.stride_or_apart hl with ⟨d, k, i, rfl, he, -, hsig, hst⟩ | hA
  · by_cases hcd : c = d
    · subst hcd
      intro h
      rcases hst.direct h with h | rfl | ⟨x, rfl⟩
      · exact hD c h
      · exact (ha t).1 rfl
      · exact (ha t).2 x rfl
    · rcases hst.context_ne hcd with h | ⟨-, -, h | ⟨u, h⟩⟩
      · rw [h]; exact hD c
      · rw [h]; exact id
      · rw [h]; exact id
  · rw [hA.pc]; exact hD c

theorem running_pc {pc : Pc Unit Unit} (h : s.running t = some (c, pc)) : (s.context c).pc = pc := by
  unfold State.running at h
  split at h
  · cases h
  · split at h
    · split at h
      · cases h; rfl
      · cases h
    · cases h

section

variable {localSize : Nat} {garbage : Nat → TimerWait} {state errno threadErrno : Int}

/-- Runs without such calls disturb no wait. -/
theorem Reach.undisturbed {ok : SeqState → Act → Prop} (hok : ∀ {s a}, ok s a → a.Plain)
    (h : Reach seqOps preemption ok (seqInit localSize garbage state errno threadErrno) s) :
    Reach seqOps preemption (fun s a => Undisturbed s a ∧ ok s a)
        (seqInit localSize garbage state errno threadErrno) s ∧
      (s.failure = none → ∀ c, ¬(s.context c).pc.Direct) := by
  induction h with
  | init =>
    refine ⟨.init, fun _ c => ?_⟩
    rw [seqInit_context]
    split <;> exact id
  | @next s s' a h ha hs ih =>
    have hf : s.failure = none := step_failure seqOps hs
    refine ⟨ih.1.next ⟨⟨?_, ?_⟩, ha⟩ hs, fun hf' => ?_⟩
    · intro t x hax
      exact absurd hax ((hok ha t).2 x)
    · rintro ⟨t, i, c, x, -, hrun, -⟩
      refine ih.2 hf c ?_
      rw [running_pc hrun]
      trivial
    · obtain ⟨-, t, l, hl, -, hm⟩ := step_moves seqOps hs hf'
      exact hm.direct hl (hok ha) (ih.2 hf)

/-- Runs of the default build without such calls disturb no wait, and are safe. -/
theorem Reach.plain
    (h : Reach seqOps false (fun _ a => a.Plain)
      (seqInit localSize garbage state errno threadErrno) s) :
    Reach seqOps false (fun s a => Undisturbed s a ∧ Safe s a)
        (seqInit localSize garbage state errno threadErrno) s ∧
      (s.failure = none → ∀ c, ¬(s.context c).pc.Direct) := by
  obtain ⟨hreach, hdirect⟩ := h.undisturbed id
  exact ⟨hreach.mono fun hs hok => ⟨hok.1, default_safe hs⟩, hdirect⟩

end

/-! ## The wakers of a coroutine -/

theorem Pc.due_iff {pc : Pc Unit Unit} : x ∈ pc.due ↔ ∃ ret, pc = .scheduleXchg x ret ∧ x ∈ ret.due x := by
  constructor
  · intro h
    cases pc with
    | scheduleXchg y ret =>
      cases ret with
      | handleTimers u v =>
        obtain rfl : x = y := Multiset.mem_singleton.1 h
        exact ⟨_, rfl, h⟩
      | _ => cases h
    | _ => cases h
  · rintro ⟨ret, rfl, h⟩
    exact h

theorem Pc.taken_iff {pc : Pc Unit Unit} :
    x ∈ pc.taken ↔ ∃ ret, pc = .scheduleXchg x ret ∧ x ∈ ret.taken x := by
  constructor
  · intro h
    cases pc with
    | scheduleXchg y ret =>
      cases ret with
      | pollEvent u v rest full =>
        obtain rfl : x = y := Multiset.mem_singleton.1 h
        exact ⟨_, rfl, h⟩
      | _ => cases h
    | _ => cases h
  · rintro ⟨ret, rfl, h⟩
    exact h

section

variable (hW : Waking preemption s)

include hW

/-- A coroutine whose event has not come to its record is registered, and its record names it. -/
theorem Waking.event_of_unread (hu : s.wake.Unread x) : s.Wakes x (.event x) := by
  obtain ⟨src, hsrc, hm⟩ : ∃ src, (src = .poller ∨ ∃ c, src = .batch c) ∧ x ∈ s.wake.held src := by
    rcases hu with hu | ⟨c, hu⟩
    · exact ⟨_, .inl rfl, hu⟩
    · exact ⟨_, .inr ⟨c, rfl⟩, hu⟩
  obtain ⟨k, hof, hphase⟩ := hW.sound.token hm
  obtain ⟨fd, hreg⟩ : ∃ fd, (s.wake.phase x).registered = some fd := by
    cases k with
    | timer => rcases hsrc with rfl | ⟨c, rfl⟩ <;> exact hof.elim
    | event fd => rcases hphase with ⟨hp, -⟩ | ⟨hp, -⟩ <;> exact ⟨fd, by rw [hp]; rfl⟩
  obtain ⟨w, hw, -⟩ := (hW.sound.recorded x).registered hreg
  obtain ⟨armed, hr⟩ := hW.sound.regd hreg
  exact ⟨⟨w, hw, hW.sound.record_of_unread hu hw⟩, _, hr, rfl⟩

/-- The source of the duty to wake `x`. -/
theorem Waking.source {w : Waker} (hw : s.Wakes x w) :
    (∃ v, w = .timer v ∧ x ∈ s.wake.held .heap) ∨
      w = .event x ∧ (x ∈ s.wake.held .poller ∨ ∃ c, x ∈ s.wake.held (.batch c)) ∨
      ∃ c, w = .loop c ∧ (x ∈ s.wake.held (.due c) ∨ x ∈ s.wake.held (.taken c)) := by
  cases w with
  | timer v => exact .inl ⟨v, rfl, Multiset.mem_map.2 ⟨v, hw.1, hw.2⟩⟩
  | event key =>
    obtain ⟨⟨w, hrec, hco⟩, r, hr, rfl⟩ := hw
    obtain ⟨w', hw', -, ⟨hself, hu⟩ | ⟨hnone, -⟩⟩ :=
      (hW.sound.recorded r.key).registered (hW.sound.reg hr)
    · obtain rfl : w' = w := Option.some.inj (hw'.symm.trans hrec)
      obtain rfl : r.key = x := Option.some.inj (hself.symm.trans hco)
      exact .inr (.inl ⟨rfl, hu⟩)
    · obtain rfl : w' = w := Option.some.inj (hw'.symm.trans hrec)
      rw [hnone] at hco
      cases hco
  | loop c =>
    obtain ⟨ret, hpc, h | h⟩ := hw
    · exact .inr (.inr ⟨c, rfl, .inl (Pc.due_iff.2 ⟨ret, hpc, h⟩)⟩)
    · exact .inr (.inr ⟨c, rfl, .inr (Pc.taken_iff.2 ⟨ret, hpc, h⟩)⟩)

theorem Waking.waker_unique {w w' : Waker} (hw : s.Wakes x w) (hw' : s.Wakes x w') : w = w' := by
  have hinj : ∀ {src src'}, x ∈ s.wake.held src → x ∈ s.wake.held src' → src = src' := fun h h' =>
    hW.sound.excl.inj h h'
  rcases hW.source hw with ⟨v, rfl, h⟩ | ⟨rfl, h⟩ | ⟨c, rfl, h⟩ <;>
    rcases hW.source hw' with ⟨v', rfl, h'⟩ | ⟨rfl, h'⟩ | ⟨c', rfl, h'⟩
  · have hnd : (s.timerHeap.bag.map (·.coro)).Nodup := hW.sound.excl.nodup .heap
    rw [Multiset.inj_on_of_nodup_map hnd v hw.1 v' hw'.1 (hw.2.trans hw'.2.symm)]
  · rcases h' with h' | ⟨c, h'⟩ <;> cases hinj h h'
  · rcases h' with h' | h' <;> cases hinj h h'
  · rcases h with h | ⟨c, h⟩ <;> cases hinj h h'
  · rfl
  · rcases h with h | ⟨c, h⟩ <;> rcases h' with h' | h' <;> cases hinj h h'
  · rcases h with h | h <;> cases hinj h h'
  · rcases h with h | h <;> rcases h' with h' | ⟨c, h'⟩ <;> cases hinj h h'
  · rcases h with h | h <;> rcases h' with h' | h' <;> cases hinj h h' <;> rfl

/-- A coroutine that waits and has not been woken has a waker. -/
theorem Waking.waker {k : WaitKind} (hk : s.wake.phase x = .parked k)
    (hb : s.wake.word x = some STATE_BLOCKED) : ∃! w, s.Wakes x w := by
  have hex : ∃ w, s.Wakes x w := by
    rcases (hW.sound.accounts x).at hk with ⟨-, src, -, hx⟩ | ⟨hr, -⟩
    · cases src with
      | heap =>
        have hx : x ∈ s.timerHeap.bag.map (·.coro) := hx
        obtain ⟨w, hw, hwx⟩ := Multiset.mem_map.1 hx
        exact ⟨.timer w, hw, hwx⟩
      | poller => exact ⟨.event x, hW.event_of_unread (.inl hx)⟩
      | batch c => exact ⟨.event x, hW.event_of_unread (.inr ⟨c, hx⟩)⟩
      | due c =>
        obtain ⟨ret, hpc, h⟩ := Pc.due_iff.1 hx
        exact ⟨.loop c, ret, hpc, .inl h⟩
      | taken c =>
        obtain ⟨ret, hpc, h⟩ := Pc.taken_iff.1 hx
        exact ⟨.loop c, ret, hpc, .inr h⟩
    · rw [hb] at hr
      cases hr
  obtain ⟨w, hw⟩ := hex
  exact ⟨w, hw, fun w' hw' => hW.waker_unique hw' hw⟩

end

/-! ## Places and custody -/

theorem State.Wakes.handled {w : Waker} (h : s.Wakes x w) : s.Handled x := by
  cases w with
  | timer w => exact .timer h.1 h.2
  | event key =>
    obtain ⟨⟨w, hw, hx⟩, -⟩ := h
    exact .event hw hx
  | loop c =>
    obtain ⟨ret, hpc, h⟩ := h
    refine .point (c := c) ?_
    rw [hpc]
    cases ret with
    | newCoroutine => rcases h with h | h <;> cases h
    | _ => exact List.mem_singleton.2 rfl

/-- Who keeps a coroutine that is in a place. -/
def Place.holder : Place → Option Holder
  | .executing t => some (.thread t)
  | .successor t => some (.thread t)
  | .listed t => some (.thread t)
  | .made c => some (.fresh c)
  | .woken c => some (.woken c)
  | .asleep => none

theorem Seat.successor_mem {st : Seat} (h : st.successor = some x) : x ∈ st.tokens := by
  cases st with
  | handing c y => cases h; exact Multiset.mem_singleton_self x
  | parking c y => cases h; simp
  | taken y => cases h; exact Multiset.mem_singleton_self x
  | _ => cases h

section

variable (hI : Inv preemption s)

include hI

/-- The holder of a place keeps the coroutine. -/
theorem Inv.own_of_at {p : Place} {h : Holder} (hp : s.At x p) (hh : p.holder = some h) :
    x ∈ own s h := by
  cases p with
  | executing t =>
    cases hh
    obtain ⟨l, hl, hr⟩ := hp
    exact hI.own_of_runs hl hr
  | successor t => cases hh; exact Multiset.mem_add.2 (.inl (Seat.successor_mem hp))
  | listed t => cases hh; exact Multiset.mem_add.2 (.inr hp)
  | made c => cases hh; exact hp
  | woken c => cases hh; exact hp
  | asleep => cases hh

/-- A coroutine that somebody keeps is not asleep. -/
theorem Inv.not_asleep {h : Holder} (hx : x ∈ own s h) : ¬s.At x .asleep := by
  rintro ⟨hb, w, hw, -⟩
  obtain ⟨wd, hwd, hb⟩ := Option.map_eq_some_iff.1 hb
  obtain ⟨p, rfl⟩ := hI.kept.awake (.inr hw.handled) hwd hb hx
  exact hI.kept.new hx hw.handled

omit hI in
/-- What a context keeps off the run list is its own coroutine or the one it has dequeued. -/
theorem ReschedPc.token_cases (r : ReschedPc Unit Unit) (hx : x ∈ (r.seat c).tokens) :
    x = c ∨ (r.seat c).successor = some x := by
  cases r with
  | dequeue p => cases hx
  | switch y =>
    rw [ReschedPc.tokens_switch] at hx
    obtain rfl := Multiset.mem_singleton.1 hx
    by_cases hxc : x = c
    · exact .inl hxc
    · exact .inr (by simp [hxc])
  | _ => exact .inl (Multiset.mem_singleton.1 hx)

omit hI in
theorem Context.token_cases (y : Context Unit Unit) (hx : x ∈ (y.seat c).tokens) :
    x = c ∨ (y.seat c).successor = some x := by
  have hpark : ∀ {z}, x ∈ (Seat.parking c z).tokens → x = c ∨ (Seat.parking c z).successor = some x := by
    intro z hx
    have hx : x ∈ c ::ₘ {z} := hx
    rcases Multiset.mem_cons.1 hx with rfl | hx
    · exact .inl rfl
    · exact .inr (by rw [Multiset.mem_singleton.1 hx]; rfl)
  unfold Context.seat at hx ⊢
  split at hx
  · exact ReschedPc.token_cases _ hx
  · cases hpc : y.pc with
    | resched r ret => rw [hpc] at hx; exact r.token_cases hx
    | suspendCmpxchg d z ret => rw [hpc] at hx; exact hpark hx
    | suspendEnqueue z p ret => rw [hpc] at hx; exact hpark hx
    | _ => rw [hpc] at hx; exact .inl (Multiset.mem_singleton.1 hx)

omit hI in
/-- A thread executes a coroutine that it keeps off its run list, or has dequeued it. -/
theorem at_of_token (hx : x ∈ (s.seat t).tokens) :
    s.At x (.executing t) ∨ s.At x (.successor t) := by
  rcases hl : s.sched t with _ | l
  · simp only [State.seat, hl] at hx
    cases hx
  · rcases he : l.exec with c | _ | p | y
    · rw [seat_of_exec hl he] at hx
      rcases (s.context c).token_cases hx with rfl | hsucc
      · exact .inl ⟨l, hl, .inl he⟩
      · exact .inr (by rw [State.At, seat_of_exec hl he]; exact hsucc)
    · simp only [State.seat, hl, he] at hx
      exact .inl ⟨l, hl, .inr ⟨he, (Multiset.mem_singleton.1 hx).symm⟩⟩
    · simp only [State.seat, hl, he] at hx
      cases hx
    · simp only [State.seat, hl, he] at hx
      refine .inr ?_
      simp only [State.At, State.seat, hl, he]
      exact congrArg some (Multiset.mem_singleton.1 hx).symm

/-- A thread has not dequeued the coroutine that it executes. -/
theorem Inv.not_successor (hl : s.sched t = some l) (hr : l.Runs x) :
    (s.seat t).successor ≠ some x := by
  have hnd : ((s.seat t).tokens).Nodup :=
    Multiset.nodup_of_le (Multiset.le_add_right _ _) (hI.kept.excl.nodup (.thread t))
  rcases hr with he | ⟨he, rfl⟩
  · rw [seat_of_exec hl he] at hnd ⊢
    intro hs
    have hresched : ∀ r : ReschedPc Unit Unit, (r.seat x).successor ≠ some x := by
      intro r hs
      cases r with
      | switch y =>
        by_cases hyx : y = x
        · simp [hyx] at hs
        · simp [hyx] at hs
      | _ => cases hs
    have hpark : ∀ {y}, (Seat.parking x y).tokens.Nodup → (Seat.parking x y).successor ≠ some x := by
      rintro y hnd ⟨⟩
      have hnd : (x ::ₘ {x}).Nodup := hnd
      exact (Multiset.nodup_cons.1 hnd).1 (Multiset.mem_singleton_self _)
    unfold Context.seat at hs hnd
    split at hs
    · exact hresched _ hs
    · next hsig =>
      simp only [hsig] at hnd
      cases hpc : (s.context x).pc with
      | resched r ret => rw [hpc] at hs; exact hresched r hs
      | suspendCmpxchg d z ret => rw [hpc] at hs hnd; exact hpark hnd hs
      | suspendEnqueue z p ret => rw [hpc] at hs hnd; exact hpark hnd hs
      | _ => rw [hpc] at hs; cases hs
  · simp only [State.seat, hl, he]
    rintro ⟨⟩

/-- A coroutine that executes and is on the run list of its thread yields. -/
theorem Inv.yields_of_listed (hsig : (s.context x).sig = []) (hl : s.sched t = some l)
    (hr : l.Runs x) (hlist : x ∈ s.queues.list t) : (s.context x).pc.yields = true := by
  have hnot : x ∉ (s.seat t).tokens := fun htok =>
    Multiset.disjoint_left.1 (Multiset.nodup_add.1 (hI.kept.excl.nodup (.thread t))).2.2 htok hlist
  rcases hr with he | ⟨he, rfl⟩
  · rw [seat_of_exec hl he] at hnot
    have hentry := ((s.context x).seat_cases x).resolve_left hnot
    unfold Context.seat at hentry
    simp only [hsig] at hentry
    cases hpc : (s.context x).pc with
    | resched r ret =>
      rw [hpc] at hentry
      cases r with
      | dequeue p => rfl
      | switch y => rfl
      | _ => cases hentry
    | _ => rw [hpc] at hentry; cases hentry
  · refine absurd ?_ hnot
    simp only [State.seat, hl, he]
    exact Multiset.mem_singleton_self _

/-- Two places of one coroutine are the same, but for the run list of a thread on which it yields. -/
theorem Inv.at_once (hquiet : ∀ c, (s.context c).sig = []) {p q : Place} (hp : s.At x p)
    (hq : s.At x q) : p = q ∨ (s.context x).pc.yields = true ∧ ∃ t, p = .executing t ∧ q = .listed t ∨
      p = .listed t ∧ q = .executing t := by
  have hyield : ∀ {t}, s.At x (.executing t) → s.At x (.listed t) →
      (s.context x).pc.yields = true := fun ⟨l, hl, hr⟩ hlist =>
    hI.yields_of_listed (hquiet x) hl hr hlist
  have hdis : ∀ {t}, s.At x (.successor t) → ¬s.At x (.listed t) := fun hsucc hlist =>
    Multiset.disjoint_left.1 (Multiset.nodup_add.1 (hI.kept.excl.nodup (.thread _))).2.2
      (Seat.successor_mem hsucc) hlist
  have hexec : ∀ {t}, s.At x (.executing t) → ¬s.At x (.successor t) := fun ⟨l, hl, hr⟩ =>
    hI.not_successor hl hr
  rcases hhp : p.holder with _ | hp'
  · obtain rfl : p = .asleep := by cases p <;> first | rfl | cases hhp
    rcases hhq : q.holder with _ | hq'
    · left
      cases q <;> first | rfl | cases hhq
    · exact absurd hp (hI.not_asleep (hI.own_of_at hq hhq))
  · rcases hhq : q.holder with _ | hq'
    · obtain rfl : q = .asleep := by cases q <;> first | rfl | cases hhq
      exact absurd hq (hI.not_asleep (hI.own_of_at hp hhp))
    · -- both holders keep the coroutine, so they are one
      obtain rfl := hI.kept.excl.inj (hI.own_of_at hp hhp) (hI.own_of_at hq hhq)
      cases p with
      | executing t =>
        cases hhp
        cases q with
        | executing u => cases hhq; exact .inl rfl
        | successor u => cases hhq; exact absurd hq (hexec hp)
        | listed u => cases hhq; exact .inr ⟨hyield hp hq, _, .inl ⟨rfl, rfl⟩⟩
        | _ => cases hhq
      | successor t =>
        cases hhp
        cases q with
        | executing u => cases hhq; exact absurd hp (hexec hq)
        | successor u => cases hhq; exact .inl rfl
        | listed u => cases hhq; exact absurd hq (hdis hp)
        | _ => cases hhq
      | listed t =>
        cases hhp
        cases q with
        | executing u => cases hhq; exact .inr ⟨hyield hq hp, _, .inr ⟨rfl, rfl⟩⟩
        | successor u => cases hhq; exact absurd hp (hdis hq)
        | listed u => cases hhq; exact .inl rfl
        | _ => cases hhq
      | made d =>
        cases hhp
        cases q with
        | made e => cases hhq; exact .inl rfl
        | _ => cases hhq
      | woken d =>
        cases hhp
        cases q with
        | woken e => cases hhq; exact .inl rfl
        | _ => cases hhq
      | asleep => cases hhp

end

/-! ## The theorem -/

/-- A coroutine that nobody keeps is asleep, if it did not call `sched_suspend` itself. -/
theorem Waking.asleep (hW : Waking preemption s) (hD : Dozing s)
    (hdirect : ∀ c, ¬(s.context c).pc.Direct) (hx : s.coro x ≠ none) (hnot : ¬Held (own s) x) :
    s.At x .asleep := by
  obtain ⟨ret, hctx⟩ := hD hx hnot
  obtain ⟨k, hk⟩ : ∃ k, s.wake.phase x = .parked k := by
    have hphase : s.wake.phase x = ret.phase .parked := by simp only [State.wake, hctx]; rfl
    rcases ret.cases with rfl | ⟨k, hk⟩
    · exact absurd (by rw [hctx]; trivial) (hdirect x)
    · exact ⟨k, hphase.trans (hk _)⟩
  obtain ⟨kx, hkx⟩ := Option.ne_none_iff_exists'.1 hx
  have hword := State.word_of_coro s hkx
  have hb := hW.inv.kept.off hword hnot
  have hword' : (s.word x).map Prod.fst = some STATE_BLOCKED := by
    rw [hword]
    exact congrArg some hb
  exact ⟨hword', hW.waker hk hword'⟩

section

variable {localSize : Nat} {garbage : Nat → TimerWait} {state errno threadErrno : Int}

/-- **Every coroutine is accounted for once**, in every reachable state of the default build when
user code calls neither `sched_suspend` nor `sched_schedule`: in one place, but for a coroutine in
`sched_resched`, which is on the run list of its thread from its enqueue to the switch. -/
theorem coroutines_accounted
    (h : Reach seqOps false (fun _ a => a.Plain)
      (seqInit localSize garbage state errno threadErrno) s) : Accounted s := by
  obtain ⟨hR, hdirect⟩ := h.plain
  have hproper : Reach seqOps false (fun s a => Proper s a ∧ Safe s a)
      (seqInit localSize garbage state errno threadErrno) s := hR.mono fun _ hok => ⟨hok.1.1, hok.2⟩
  refine ⟨hproper.sound.1, fun hf {x} hx => ?_, fun hf {x p q} hp hq => ?_, fun hf t => ?_, fun hf => ?_⟩
  · have hW := hR.waking hf
    by_cases hheld : Held (own s) x
    · obtain ⟨h, hx⟩ := hheld
      cases h with
      | thread t =>
        rcases Multiset.mem_add.1 hx with hx | hx
        · rcases at_of_token hx with hp | hp
          · exact ⟨_, hp⟩
          · exact ⟨_, hp⟩
        · exact ⟨.listed t, hx⟩
      | fresh c => exact ⟨.made c, hx⟩
      | woken c => exact ⟨.woken c, hx⟩
    · exact ⟨.asleep, hW.asleep (hproper.dozing hf) (hdirect hf) hx hheld⟩
  · have hI := (hR.waking hf).inv
    exact hI.at_once (hI.control.quiet rfl) hp hq
  · have hnd := Multiset.nodup_of_le (Multiset.le_add_left _ _)
      ((hR.waking hf).inv.kept.excl.nodup (.thread t))
    exact Multiset.coe_nodup.1 hnd
  · exact (hR.waking hf).sound.excl.nodup .heap

end

/-- A check on actions for `Act.Plain`. -/
def Act.plain : Act → Bool
  | .tick _ (.op .suspend) => false
  | .tick _ (.op (.schedule _)) => false
  | _ => true

theorem Act.plain.sound (_ : SeqState) (a : Act) (h : a.plain = true) : a.Plain := by
  refine fun t => ⟨?_, fun x => ?_⟩ <;>
    · rintro rfl
      cases h

/-- The main coroutine waits until second 5, and goes to sleep. -/
def mainSleeps : List Act := .tick 0 (.op (.wait ⟨5, 0⟩)) :: List.replicate 6 (.tick 0 .step)

theorem coroutines_accounted_asleep :
    ∃ s, run seqOps false (fun _ => Act.plain) seqStart mainSleeps = some s ∧ s.failure = none ∧
      s.word 0 = some (STATE_BLOCKED, none) ∧ s.Wakes 0 (.timer ⟨⟨5, 0⟩, 0⟩) ∧ Accounted s := by
  obtain ⟨s, hr, hf, hw, hbag⟩ :
      ∃ s, run seqOps false (fun _ => Act.plain) seqStart mainSleeps = some s ∧ s.failure = none ∧
        s.word 0 = some (STATE_BLOCKED, none) ∧ s.timerHeap.bag = {⟨⟨5, 0⟩, 0⟩} :=
    ⟨_, rfl, rfl, rfl, rfl⟩
  refine ⟨s, hr, hf, hw, ⟨?_, rfl⟩, coroutines_accounted (Reach.run hr Act.plain.sound .init)⟩
  rw [hbag]
  exact Multiset.mem_singleton_self _

/-- A run of the default build in which user code calls neither `sched_suspend` nor
`sched_schedule`. -/
def PlainReach (s : SeqState) : Prop := Reach seqOps false (fun _ a => a.Plain) seqStart s

theorem PlainReach.only {p : Place} (h : PlainReach s) (hf : s.failure = none)
    (hy : (s.context x).pc.yields = false) (hp : s.At x p) : ∀ q, s.At x q → q = p := by
  intro q hq
  have hI := (h.plain.1.waking hf).inv
  rcases hI.at_once (hI.control.quiet rfl) hq hp with rfl | ⟨hy', -⟩
  · rfl
  · rw [hy] at hy'
    cases hy'

/-- The main coroutine makes a coroutine and yields; the event loop runs once; the new coroutine
returns from its start function. -/
def otherDies : List Act :=
  let steps (n : Nat) : List Act := List.replicate n (.tick 0 .step)
  .tick 0 (.op .newCoroutine) :: steps 4 ++ [.tick 0 (.op .resched)] ++ steps 7 ++
    [.tick 0 (.epoll (.ready []))] ++ steps 8 ++ [.tick 0 (.op .ret)] ++ steps 2

/-- **A coroutine may be elsewhere than executing, dequeued in `sched_suspend`, on one run list or
asleep**: the main coroutine yields, and is executing and on the run list; the event loop has been
dequeued in `sched_resched`; a new coroutine is with its maker, before and after it has been woken;
the main coroutine has been dequeued in `free_coro`. -/
theorem coroutines_elsewhere :
    (∃ s, PlainReach s ∧ s.failure = none ∧ s.At 0 (.executing 0) ∧ s.At 0 (.listed 0)) ∧
    (∃ s, PlainReach s ∧ s.failure = none ∧ s.seat 0 = .handing 0 1 ∧
      ∀ p, s.At 1 p → p = .successor 0) ∧
    (∃ s, PlainReach s ∧ s.failure = none ∧ s.coro 2 ≠ none ∧ s.At 2 (.made 0) ∧
      ∀ p, s.At 2 p → p = .made 0) ∧
    (∃ s, PlainReach s ∧ s.failure = none ∧ s.coro 2 ≠ none ∧ s.At 2 (.woken 0) ∧
      ∀ p, s.At 2 p → p = .woken 0) ∧
    ∃ s, PlainReach s ∧ s.failure = none ∧ s.seat 0 = .taken 0 ∧ ∀ p, s.At 0 p → p = .successor 0 := by
  have hreach : ∀ {as s}, run seqOps false (fun _ => Act.plain) seqStart as = some s → PlainReach s :=
    fun hr => Reach.run hr Act.plain.sound .init
  refine ⟨?_, ?_, ?_, ?_, ?_⟩
  · obtain ⟨s, l, hr, hf, hl, he, hq⟩ : ∃ s l, run seqOps false (fun _ => Act.plain) seqStart
        (.tick 0 (.op .resched) :: List.replicate 3 (.tick 0 .step)) = some s ∧ s.failure = none ∧
        s.sched 0 = some l ∧ l.exec = .on 0 ∧ s.queues.list 0 = [1, 0] :=
      ⟨_, _, rfl, rfl, rfl, rfl, rfl⟩
    exact ⟨s, hreach hr, hf, ⟨l, hl, .inl he⟩, by rw [State.At, hq]; simp⟩
  · obtain ⟨s, hr, hf, hseat, hpc⟩ : ∃ s, run seqOps false (fun _ => Act.plain) seqStart
        (.tick 0 (.op .resched) :: List.replicate 4 (.tick 0 .step)) = some s ∧ s.failure = none ∧
        s.seat 0 = .handing 0 1 ∧ (s.context 1).pc.yields = false := ⟨_, rfl, rfl, rfl, rfl⟩
    exact ⟨s, hreach hr, hf, hseat, (hreach hr).only hf hpc (by rw [State.At, hseat]; rfl)⟩
  · obtain ⟨s, hr, hf, hc, hfresh, hpc⟩ : ∃ s, run seqOps false (fun _ => Act.plain) seqStart
        [.tick 0 (.op .newCoroutine)] = some s ∧ s.failure = none ∧ s.coro 2 ≠ none ∧
        (s.context 0).pc.fresh = {2} ∧ (s.context 2).pc.yields = false :=
      ⟨_, rfl, rfl, nofun, rfl, rfl⟩
    have hat : s.At 2 (.made 0) := by rw [State.At, hfresh]; exact Multiset.mem_singleton_self 2
    exact ⟨s, hreach hr, hf, hc, hat, (hreach hr).only hf hpc hat⟩
  · obtain ⟨s, hr, hf, hc, hwoken, hpc⟩ : ∃ s, run seqOps false (fun _ => Act.plain) seqStart
        (.tick 0 (.op .newCoroutine) :: List.replicate 2 (.tick 0 .step)) = some s ∧
        s.failure = none ∧ s.coro 2 ≠ none ∧ (s.context 0).pc.woken = {2} ∧
        (s.context 2).pc.yields = false := ⟨_, rfl, rfl, nofun, rfl, rfl⟩
    have hat : s.At 2 (.woken 0) := by rw [State.At, hwoken]; exact Multiset.mem_singleton_self 2
    exact ⟨s, hreach hr, hf, hc, hat, (hreach hr).only hf hpc hat⟩
  · obtain ⟨s, hr, hf, hseat, hpc⟩ : ∃ s, run seqOps false (fun _ => Act.plain) seqStart otherDies =
        some s ∧ s.failure = none ∧ s.seat 0 = .taken 0 ∧ (s.context 0).pc.yields = false :=
      ⟨_, rfl, rfl, rfl, rfl⟩
    exact ⟨s, hreach hr, hf, hseat, (hreach hr).only hf hpc (by rw [State.At, hseat]; rfl)⟩

end Lwthread.Scheduler
