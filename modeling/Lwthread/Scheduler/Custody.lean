import Lwthread.Lib.Custody
import Lwthread.Scheduler.Cases

/-!
# Custody of coroutines

Who keeps which coroutine. A thread keeps what it executes, the successor it has dequeued, and its
run list; a coroutine in `sched_new_coroutine` or `sched_schedule` keeps the coroutine it has made or
woken and not enqueued yet. A coroutine that nobody keeps is asleep. `own` computes this from the
state, and `Kept` says that custody is exclusive and agrees with the state words and the list nodes.

A coroutine in `sched_resched` that has enqueued itself is kept by its thread once, as an entry of
the run list, although it still executes (`Seat.linked`, `Seat.handing`).
-/

namespace Lwthread.Scheduler

open Lwthread.Util Custody

variable {Q ι δ : Type}

/-! ## What a thread executes -/

/-- What a thread is doing, as far as custody goes. -/
inductive Seat where
  | vacant
  | on (c : Cid)
  /-- `c` has enqueued itself in `sched_resched` -/
  | linked (c : Cid)
  /-- `c` has enqueued itself, and dequeued another coroutine `x` -/
  | handing (c x : Cid)
  /-- `c` has dequeued `x` in `sched_suspend` -/
  | parking (c x : Cid)
  | dying (c : Cid)
  | dead
  /-- `free_coro` has dequeued `x` -/
  | taken (x : Cid)

/-- The coroutines kept by a thread off its run list. -/
@[simp] def Seat.tokens : Seat → Multiset Cid
  | .vacant => 0
  | .on c => {c}
  | .linked _ => 0
  | .handing _ x => {x}
  | .parking c x => {c, x}
  | .dying c => {c}
  | .dead => 0
  | .taken x => {x}

@[simp] def ReschedPc.seat (c : Cid) : ReschedPc ι δ → Seat
  | .dequeue _ => .linked c
  | .switch x => if x = c then .on c else .handing c x
  | _ => .on c

/-- `sched_resched` keeps its successor off the run list, be it its caller or another coroutine. -/
theorem ReschedPc.tokens_switch (c x : Cid) : ((.switch x : ReschedPc ι δ).seat c).tokens = {x} := by
  by_cases hx : x = c
  · simp [hx]
  · simp [hx]

theorem ReschedPc.mem_tokens_switch (c x : Cid) :
    x ∈ ((.switch x : ReschedPc ι δ).seat c).tokens := by
  rw [ReschedPc.tokens_switch]
  exact Multiset.mem_singleton_self x

@[simp] def Pc.seat (c : Cid) : Pc ι δ → Seat
  | .resched r _ => r.seat c
  | .suspendCmpxchg _ x _ => .parking c x
  | .suspendEnqueue x _ _ => .parking c x
  | _ => .on c

/-- The seat of a thread that executes `c`. -/
def Context.seat (c : Cid) (x : Context ι δ) : Seat :=
  match x.sig with
  | r :: _ => r.seat c
  | [] => x.pc.seat c

def State.seat (s : State Q ι δ) (t : Tid) : Seat :=
  match s.sched t with
  | none => .vacant
  | some l =>
    match l.exec with
    | .on c => (s.context c).seat c
    | .free => .dying l.currentCoro
    | .dequeue _ => .dead
    | .restore x => .taken x

/-! ## Custody -/

@[simp] def ScheduleRet.fresh (x : Cid) : ScheduleRet → Multiset Cid
  | .newCoroutine => {x}
  | _ => 0

/-- The coroutine that `sched_new_coroutine` has made, in state `BLOCKED`. -/
@[simp] def Pc.fresh : Pc ι δ → Multiset Cid
  | .newLoad x => {x}
  | .newFetchAdd x => {x}
  | .newLocal x _ => {x}
  | .scheduleXchg x ret => ret.fresh x
  | _ => 0

/-- The coroutine that is about to be enqueued, in state `RUNNABLE`. -/
@[simp] def Pc.woken : Pc ι δ → Multiset Cid
  | .scheduleEnqueue x _ _ => {x}
  | .newEnqueue x _ _ => {x}
  | _ => 0

/-- Who keeps coroutines. -/
inductive Holder where
  | thread (t : Tid)
  | fresh (c : Cid)
  | woken (c : Cid)
  deriving DecidableEq

/-- The coroutines that a holder keeps. -/
def own (s : SeqState) : Holder → Multiset Cid
  | .thread t => (s.seat t).tokens + (s.queues.list t : Multiset Cid)
  | .fresh c => (s.context c).pc.fresh
  | .woken c => (s.context c).pc.woken

/-! ## The event loop of a thread -/

@[simp] def ReschedRet.loopOf : ReschedRet → Option Tid
  | .user => none
  | .loop u => some u

@[simp] def ScheduleRet.loopOf : ScheduleRet → Option Tid
  | .user => none
  | .newCoroutine => none
  | .pollEvent u _ _ _ => some u
  | .handleTimers u _ => some u

/-- The thread whose event loop a point belongs to. -/
@[simp] def Pc.loop : Pc ι δ → Option Tid
  | .resched _ ret => ret.loopOf
  | .scheduleXchg _ ret => ret.loopOf
  | .scheduleEnqueue _ _ ret => ret.loopOf
  | .loopTop u => some u
  | .loopMin u => some u
  | .loopExpire u _ => some u
  | .pollWait u _ => some u
  | .pollEvents u _ _ _ => some u
  | .timersEmpty u _ => some u
  | .timersLock u _ => some u
  | .timersMin u _ => some u
  | .timersExpire u _ _ => some u
  | .timersPop u _ _ => some u
  | .timersUnlock u _ _ => some u
  | _ => none

/-- The state word of a coroutine, and its start function. -/
def State.word (s : State Q ι δ) (x : Cid) : Option (Int × Option Start) :=
  (s.coro x).map fun k => (k.state, k.start)

/-- The thread whose event loop `c` runs. -/
def State.loopOf (s : State Q ι δ) (c : Cid) : Option Tid :=
  match (s.context c).pc with
  | .trampoline =>
    match (s.word c).bind Prod.snd with
    | some (.loop u) => some u
    | _ => none
  | pc => pc.loop

/-! ## Wakers -/

@[simp] def ScheduleRet.handles (x : Cid) : ScheduleRet → List Cid
  | .newCoroutine => []
  | _ => [x]

/-- The coroutines that a point is to wake, or to register for a wake. -/
@[simp] def Pc.handles : Pc ι δ → List Cid
  | .waitLock w => [w.coro]
  | .waitPush w => [w.coro]
  | .timersExpire _ _ w => [w.coro]
  | .timersPop _ _ w => [w.coro]
  | .scheduleXchg x ret => ret.handles x
  | _ => []

/-- Something has a pointer to `x` to wake it: a timer, an event, or a coroutine about to do so. -/
inductive State.Handled (s : State Q ι δ) (x : Cid) : Prop
  | timer {w} (hw : w ∈ s.timerHeap.bag) (hx : w.coro = x)
  | event {key w} (hw : s.eventWait key = some w) (hx : w.coro = some x)
  | point {c} (hx : x ∈ (s.context c).pc.handles)

/-- `sched_new_coroutine` made `x`. -/
def State.User (s : State Q ι δ) (x : Cid) : Prop := ∃ w, s.word x = some (w, some .user)

/-- `sched_new_coroutine` made `x`, and has passed it on. -/
def State.Returned (s : State Q ι δ) (x : Cid) : Prop :=
  s.User x ∧ ∀ c, x ∉ (s.context c).pc.fresh

/-! ## The invariant -/

/-- Custody is exclusive, and agrees with the state words, the event loops and the list nodes. -/
structure Kept (s : SeqState) : Prop where
  excl : Exclusive (own s)
  live : ∀ {x}, Held (own s) x → s.word x ≠ none
  /-- a coroutine that nobody keeps is asleep -/
  off : ∀ {x w}, s.word x = some w → ¬Held (own s) x → w.1 = STATE_BLOCKED
  /-- a coroutine that may be woken and that somebody keeps is `BLOCKED` only if it is new -/
  awake : ∀ {x w h}, s.User x ∨ s.Handled x → s.word x = some w → w.1 = STATE_BLOCKED →
    x ∈ own s h → ∃ p, h = .fresh p
  made : ∀ {x p}, x ∈ own s (.fresh p) → s.word x = some (STATE_BLOCKED, some .user)
  /-- only its maker knows a new coroutine -/
  new : ∀ {x p}, x ∈ own s (.fresh p) → ¬s.Handled x
  known : ∀ {x}, s.Handled x ∨ s.word x ≠ none → x < s.coros
  home : ∀ {c u}, s.loopOf c = some u → c ∈ own s (.thread u)
  nodes : ∀ c, s.queues.linked c = true ↔ ∃ t, c ∈ s.queues.list t

theorem State.word_ne_none {s : State Q ι δ} {x : Cid} {w : Int × Option Start}
    (h : s.word x = some w) : s.word x ≠ none := by rw [h]; exact Option.some_ne_none w

/-! ## Hand-offs

The ways in which a step may change custody. `hs` says where a pointer to wake a coroutine may come
from, `hn` that the list nodes still agree with the run lists. -/

namespace Kept

variable {s s' : SeqState} {c x : Cid} {w : Int × Option Start} {v : Int}

theorem fresh_not_returned {p : Cid} (hx : x ∈ own s (.fresh p)) : ¬s.Returned x :=
  fun h => h.2 p hx

variable (hK : Kept s)
  (hn : ∀ c, s'.queues.linked c = true ↔ ∃ t, c ∈ s'.queues.list t)

section

variable (hc : s'.coros = s.coros) (hl : s'.loopOf = s.loopOf)

include hK hn hc hl

/-- Custody and the state words are as before. -/
theorem same (ho : own s' = own s) (hw : s'.word = s.word)
    (hs : ∀ {y}, s'.Handled y → s.Handled y ∨ s.Returned y) : Kept s' where
  excl := ho ▸ hK.excl
  live := by rw [ho, hw]; exact hK.live
  off := by rw [ho, hw]; exact hK.off
  awake {y wy h} hy := by
    rw [ho, hw]
    refine hK.awake ?_
    rcases hy with ⟨wu, hu⟩ | hy
    · exact .inl ⟨wu, hw ▸ hu⟩
    · exact (hs hy).elim .inr fun h => .inl h.1
  made := by rw [ho, hw]; exact hK.made
  new {y p} hy := by
    rw [ho] at hy
    exact fun hh => (hs hh).elim (hK.new hy) (fresh_not_returned hy)
  known {y} hy := by
    rw [hw] at hy
    rw [hc]
    rcases hy with hy | hy
    · rcases hs hy with hy | ⟨⟨wu, hu⟩, -⟩
      · exact hK.known (.inl hy)
      · exact hK.known (.inr (State.word_ne_none hu))
    · exact hK.known (.inr hy)
  home := by rw [ho, hl]; exact hK.home
  nodes := hn

/-- The word of `x` is set, not to `BLOCKED`. Custody is as before, or `x` has passed from a holder
to another or from nobody to one, and is not new any more. -/
theorem setWord (hx : s.word x = some w)
    (hw : s'.word = Function.update s.word x (some (v, w.2))) (hv : v ≠ STATE_BLOCKED)
    (hex : Exclusive (own s')) (hh : Held (own s') x) (hf : ∀ p, x ∉ own s' (.fresh p))
    (ho : ∀ y h, y ≠ x → (y ∈ own s' h ↔ y ∈ own s h))
    (hhome : ∀ {u}, s.loopOf x = some u → x ∈ own s' (.thread u))
    (hs : ∀ {y}, s'.Handled y → s.Handled y ∨ s.Returned y ∨ y = x) : Kept s' where
  excl := hex
  live {y} hy := by
    rw [hw]
    by_cases hyx : y = x
    · subst hyx; simp
    · obtain ⟨h, hm⟩ := hy
      rw [Function.update_of_ne hyx]
      exact hK.live ⟨h, (ho y h hyx).1 hm⟩
  off {y wy} hy hoff := by
    have hyx : y ≠ x := fun h => hoff (h ▸ hh)
    rw [hw, Function.update_of_ne hyx] at hy
    exact hK.off hy fun ⟨h, hm⟩ => hoff ⟨h, (ho y h hyx).2 hm⟩
  awake {y wy h} hty hy hb hmem := by
    rw [hw] at hy
    by_cases hyx : y = x
    · subst hyx
      rw [Function.update_self, Option.some.injEq] at hy
      subst hy
      exact absurd hb hv
    · rw [Function.update_of_ne hyx] at hy
      refine hK.awake ?_ hy hb ((ho y h hyx).1 hmem)
      rcases hty with ⟨wu, hu⟩ | hty
      · exact .inl ⟨wu, by rwa [hw, Function.update_of_ne hyx] at hu⟩
      · rcases hs hty with h | h | h
        · exact .inr h
        · exact .inl h.1
        · exact absurd h hyx
  made {y p} hy := by
    have hyx : y ≠ x := fun h => hf p (h ▸ hy)
    rw [hw, Function.update_of_ne hyx]
    exact hK.made ((ho y _ hyx).1 hy)
  new {y p} hy := by
    have hyx : y ≠ x := fun h => hf p (h ▸ hy)
    have hy' := (ho y _ hyx).1 hy
    intro hh
    rcases hs hh with h | h | h
    · exact hK.new hy' h
    · exact fresh_not_returned hy' h
    · exact hyx h
  known {y} hy := by
    rw [hc]
    by_cases hyx : y = x
    · exact hyx ▸ hK.known (.inr (State.word_ne_none hx))
    · rw [hw, Function.update_of_ne hyx] at hy
      rcases hy with hy | hy
      · rcases hs hy with hy | ⟨⟨wu, hu⟩, -⟩ | hy
        · exact hK.known (.inl hy)
        · exact hK.known (.inr (State.word_ne_none hu))
        · exact absurd hy hyx
      · exact hK.known (.inr hy)
  home {d u} hd := by
    rw [hl] at hd
    by_cases hdx : d = x
    · subst hdx; exact hhome hd
    · exact (ho d _ hdx).2 (hK.home hd)
  nodes := hn

/-- A thread gives `x` up, which has gone to sleep or is freed. -/
theorem leave {t : Tid} (hx : own s (.thread t) = x ::ₘ own s' (.thread t))
    (ho : ∀ h, h ≠ .thread t → own s' h = own s h)
    (hw : ∀ y, y ≠ x → s'.word y = s.word y)
    (hwx : ∀ {wx}, s'.word x = some wx → wx.1 = STATE_BLOCKED) (hloop : s.loopOf x = none)
    (hs : ∀ {y}, s'.Handled y → s.Handled y ∨ s.Returned y) : Kept s' := by
  have hle : ∀ h, own s' h ≤ own s h := by
    intro h
    by_cases ht : h = .thread t
    · subst ht; rw [hx]; exact Multiset.le_cons_self _ _
    · rw [ho h ht]
  have hnot : ¬Held (own s') x := by
    rintro ⟨h, hm⟩
    by_cases ht : h = .thread t
    · subst ht
      have hnd := hK.excl.nodup (.thread t)
      rw [hx] at hnd
      exact (Multiset.nodup_cons.1 hnd).1 hm
    · refine ht (hK.excl.inj (Multiset.mem_of_le (hle h) hm) (x := x) ?_)
      rw [hx]; exact Multiset.mem_cons_self _ _
  have hmem : ∀ {y h}, y ∈ own s h → y ≠ x → y ∈ own s' h := by
    intro y h hy hyx
    by_cases ht : h = .thread t
    · subst ht
      rw [hx] at hy
      exact (Multiset.mem_cons.1 hy).resolve_left hyx
    · rw [ho h ht]; exact hy
  have hne : ∀ {y h}, y ∈ own s' h → y ≠ x := fun hy h => hnot ⟨_, h ▸ hy⟩
  refine ⟨hK.excl.of_le hle, ?_, ?_, ?_, ?_, ?_, ?_, ?_, hn⟩
  · rintro y ⟨h, hy⟩
    rw [hw y (hne hy)]
    exact hK.live ⟨h, Multiset.mem_of_le (hle h) hy⟩
  · intro y wy hy hoff
    by_cases hyx : y = x
    · subst hyx; exact hwx hy
    · rw [hw y hyx] at hy
      exact hK.off hy fun ⟨h, hm⟩ => hoff ⟨h, hmem hm hyx⟩
  · intro y wy h hty hy hb hm
    have hyx := hne hm
    rw [hw y hyx] at hy
    refine hK.awake ?_ hy hb (Multiset.mem_of_le (hle h) hm)
    rcases hty with ⟨wu, hu⟩ | hty
    · exact .inl ⟨wu, hw y hyx ▸ hu⟩
    · exact (hs hty).elim .inr fun h => .inl h.1
  · intro y p hy
    rw [hw y (hne hy)]
    exact hK.made (Multiset.mem_of_le (hle _) hy)
  · intro y p hy hh
    have hy' := Multiset.mem_of_le (hle _) hy
    exact (hs hh).elim (hK.new hy') (fresh_not_returned hy')
  · intro y hy
    rw [hc]
    rcases hy with hy | hy
    · rcases hs hy with hy | ⟨⟨wu, hu⟩, -⟩
      · exact hK.known (.inl hy)
      · exact hK.known (.inr (State.word_ne_none hu))
    · by_cases hyx : y = x
      · subst hyx
        refine hK.known (.inr (hK.live ⟨.thread t, ?_⟩))
        rw [hx]; exact Multiset.mem_cons_self _ _
      · exact hK.known (.inr (hw y hyx ▸ hy))
  · intro d u hd
    rw [hl] at hd
    refine hmem (hK.home hd) fun h => ?_
    rw [h, hloop] at hd
    cases hd

/-- What `c` has woken goes to a run list. -/
theorem settle {u : Tid} (hsum : own s' (.woken c) + own s' (.thread u) =
      own s (.woken c) + own s (.thread u))
    (hle : own s (.thread u) ≤ own s' (.thread u))
    (ho : ∀ h, h ≠ .woken c → h ≠ .thread u → own s' h = own s h) (hw : s'.word = s.word)
    (hs : ∀ {y}, s'.Handled y → s.Handled y ∨ s.Returned y) : Kept s' := by
  have hex : Exclusive (own s') := hK.excl.pass (by simp) hsum ho
  have hmem : ∀ {y h}, y ∈ own s' h → y ∈ own s h ∨
      (h = .woken c ∨ h = .thread u) ∧ (y ∈ own s (.woken c) ∨ y ∈ own s (.thread u)) := by
    intro y h hy
    by_cases h1 : h = .woken c
    · refine .inr ⟨.inl h1, Multiset.mem_add.1 ?_⟩
      rw [← hsum]; exact Multiset.mem_add.2 (.inl (h1 ▸ hy))
    · by_cases h2 : h = .thread u
      · refine .inr ⟨.inr h2, Multiset.mem_add.1 ?_⟩
        rw [← hsum]; exact Multiset.mem_add.2 (.inr (h2 ▸ hy))
      · exact .inl (ho h h1 h2 ▸ hy)
  have hheld : ∀ {y}, Held (own s') y ↔ Held (own s) y := by
    intro y
    constructor
    · rintro ⟨h, hy⟩
      rcases hmem hy with hy | ⟨-, hy | hy⟩
      · exact ⟨_, hy⟩
      · exact ⟨_, hy⟩
      · exact ⟨_, hy⟩
    · rintro ⟨h, hy⟩
      by_cases h12 : h = .woken c ∨ h = .thread u
      · have : y ∈ own s (.woken c) + own s (.thread u) := by
          rcases h12 with rfl | rfl
          · exact Multiset.mem_add.2 (.inl hy)
          · exact Multiset.mem_add.2 (.inr hy)
        rw [← hsum] at this
        exact (Multiset.mem_add.1 this).elim (⟨_, ·⟩) (⟨_, ·⟩)
      · rw [not_or] at h12
        exact ⟨h, by rw [ho h h12.1 h12.2]; exact hy⟩
  have hfresh : ∀ {p}, own s' (.fresh p) = own s (.fresh p) := fun {p} => ho _ (by simp) (by simp)
  refine ⟨hex, ?_, ?_, ?_, ?_, ?_, ?_, ?_, hn⟩
  · intro y hy; rw [hw]; exact hK.live (hheld.1 hy)
  · intro y wy hy hoff; rw [hw] at hy; exact hK.off hy (hheld.not.1 hoff)
  · intro y wy h hty hy hb hm
    rw [hw] at hy
    have hty' : s.User y ∨ s.Handled y := by
      rcases hty with ⟨wu, hu⟩ | hty
      · exact .inl ⟨wu, hw ▸ hu⟩
      · exact (hs hty).elim .inr fun h => .inl h.1
    rcases hmem hm with hm | ⟨-, hm | hm⟩
    · exact hK.awake hty' hy hb hm
    · obtain ⟨p, hp⟩ := hK.awake hty' hy hb hm; cases hp
    · obtain ⟨p, hp⟩ := hK.awake hty' hy hb hm; cases hp
  · intro y p hy; rw [hw]; exact hK.made (hfresh ▸ hy)
  · intro y p hy hh
    rw [hfresh] at hy
    exact (hs hh).elim (hK.new hy) (fresh_not_returned hy)
  · intro y hy
    rw [hc]
    rw [hw] at hy
    rcases hy with hy | hy
    · rcases hs hy with hy | ⟨⟨wu, hu⟩, -⟩
      · exact hK.known (.inl hy)
      · exact hK.known (.inr (State.word_ne_none hu))
    · exact hK.known (.inr hy)
  · intro d v hd
    rw [hl] at hd
    have hd' := hK.home hd
    by_cases hvu : v = u
    · subst hvu; exact Multiset.mem_of_le hle hd'
    · rw [ho _ (by simp) (by simpa using hvu)]; exact hd'

end

include hK hn

/-- A new coroutine is made: by `sched_make_coro`, and nobody keeps it yet, or as the coroutine of a
new thread. -/
theorem create (hc : s'.coros = s.coros + 1)
    (hw : s'.word = Function.update s.word s.coros (some w))
    (hl : ∀ y, y ≠ s.coros → s'.loopOf y = s.loopOf y)
    (ho : own s' = own s ∧ w = (STATE_BLOCKED, some .user) ∧ s'.loopOf s.coros = none ∨
      ∃ u, own s' = Function.update (own s) (.thread u) (s.coros ::ₘ own s (.thread u)) ∧
        w.2 = none ∧ s'.loopOf s.coros = some u)
    (hs : ∀ {y}, s'.Handled y → s.Handled y) : Kept s' := by
  have hnew : s.word s.coros = none := by
    by_contra h
    exact lt_irrefl _ (hK.known (.inr h))
  have hnh : ¬s'.Handled s.coros := fun h => lt_irrefl _ (hK.known (.inl (hs h)))
  have hnot : ¬Held (own s) s.coros := fun h => hK.live h hnew
  have hold : ∀ {y h}, y ∈ own s h → y ≠ s.coros := fun hy h => hnot ⟨_, h ▸ hy⟩
  have hwy : ∀ {y}, y ≠ s.coros → s'.word y = s.word y := fun h => by
    rw [hw, Function.update_of_ne h]
  have hwc : s'.word s.coros = some w := by rw [hw, Function.update_self]
  have hmem : ∀ {y h}, y ∈ own s' h → y ∈ own s h ∨ (∃ u, h = .thread u) ∧ y = s.coros ∧ w.2 = none := by
    intro y h hy
    rcases ho with ⟨ho, -, -⟩ | ⟨u, ho, hst, -⟩
    · exact .inl (ho ▸ hy)
    · rw [ho] at hy
      by_cases hh : h = .thread u
      · rw [hh, Function.update_self] at hy
        exact (Multiset.mem_cons.1 hy).elim (fun h => .inr ⟨⟨u, hh⟩, h, hst⟩) fun h => .inl (hh ▸ h)
      · rw [Function.update_of_ne hh] at hy
        exact .inl hy
  have hge : ∀ {y h}, y ∈ own s h → y ∈ own s' h := by
    intro y h hy
    rcases ho with ⟨ho, -, -⟩ | ⟨u, ho, -, -⟩
    · exact ho ▸ hy
    · rw [ho]
      by_cases hh : h = .thread u
      · rw [hh, Function.update_self]; exact Multiset.mem_cons_of_mem (hh ▸ hy)
      · rw [Function.update_of_ne hh]; exact hy
  refine ⟨?_, ?_, ?_, ?_, ?_, ?_, ?_, ?_, hn⟩
  · rcases ho with ⟨ho, -, -⟩ | ⟨u, ho, -, -⟩
    · exact ho ▸ hK.excl
    · rw [ho]
      exact hK.excl.add hnot (Function.update_self _ _ _) fun h hh => Function.update_of_ne hh _ _
  · rintro y ⟨h, hy⟩
    rcases hmem hy with hy | ⟨-, rfl, -⟩
    · rw [hwy (hold hy)]; exact hK.live ⟨_, hy⟩
    · exact State.word_ne_none hwc
  · intro y wy hy hoff
    by_cases hyx : y = s.coros
    · subst hyx
      rw [hwc, Option.some.injEq] at hy
      subst hy
      rcases ho with ⟨-, rfl, -⟩ | ⟨u, ho, -, -⟩
      · rfl
      · exact absurd ⟨.thread u, by rw [ho, Function.update_self]; exact Multiset.mem_cons_self _ _⟩
          hoff
    · rw [hwy hyx] at hy
      exact hK.off hy fun ⟨h, hm⟩ => hoff ⟨h, hge hm⟩
  · intro y wy h hty hy hb hm
    rcases hmem hm with hm | ⟨-, rfl, hst⟩
    · have hyx := hold hm
      rw [hwy hyx] at hy
      refine hK.awake ?_ hy hb hm
      rcases hty with ⟨wu, hu⟩ | hty
      · exact .inl ⟨wu, hwy hyx ▸ hu⟩
      · exact .inr (hs hty)
    · rcases hty with ⟨wu, hu⟩ | hty
      · rw [hwc, Option.some.injEq] at hu
        rw [hu] at hst
        cases hst
      · exact absurd hty hnh
  · intro y p hy
    rcases hmem hy with hy | ⟨⟨u, hu⟩, -, -⟩
    · rw [hwy (hold hy)]; exact hK.made hy
    · cases hu
  · intro y p hy hh
    rcases hmem hy with hy | ⟨⟨u, hu⟩, -, -⟩
    · exact hK.new hy (hs hh)
    · cases hu
  · intro y hy
    rw [hc]
    by_cases hyx : y = s.coros
    · exact hyx ▸ Nat.lt_succ_self _
    · rw [hwy hyx] at hy
      exact Nat.lt_succ_of_lt (hK.known (hy.imp_left hs))
  · intro d u hd
    by_cases hdx : d = s.coros
    · subst hdx
      rcases ho with ⟨-, -, hlx⟩ | ⟨v, ho, -, hlx⟩
      · rw [hlx] at hd; cases hd
      · rw [hlx] at hd
        cases hd
        rw [ho, Function.update_self]
        exact Multiset.mem_cons_self _ _
    · rw [hl d hdx] at hd
      exact hge (hK.home hd)

/-- `c` takes the coroutine that it has made. -/
theorem adopt (hc : s'.coros = s.coros) (hl : s'.loopOf = s.loopOf) (hw : s'.word = s.word)
    (hx : ¬Held (own s) x) (hwx : s.word x = some (STATE_BLOCKED, some .user)) (hnh : ¬s.Handled x)
    (ho : own s' = Function.update (own s) (.fresh c) (x ::ₘ own s (.fresh c)))
    (hs : ∀ {y}, s'.Handled y → s.Handled y) : Kept s' := by
  have hmem : ∀ {y h}, y ∈ own s' h → y ∈ own s h ∨ h = .fresh c ∧ y = x := by
    intro y h hy
    rw [ho] at hy
    by_cases hh : h = .fresh c
    · rw [hh, Function.update_self] at hy
      exact (Multiset.mem_cons.1 hy).elim (fun h => .inr ⟨hh, h⟩) fun h => .inl (hh ▸ h)
    · rw [Function.update_of_ne hh] at hy
      exact .inl hy
  have hge : ∀ {y h}, y ∈ own s h → y ∈ own s' h := by
    intro y h hy
    rw [ho]
    by_cases hh : h = .fresh c
    · rw [hh, Function.update_self]; exact Multiset.mem_cons_of_mem (hh ▸ hy)
    · rw [Function.update_of_ne hh]; exact hy
  refine ⟨?_, ?_, ?_, ?_, ?_, ?_, ?_, ?_, hn⟩
  · rw [ho]
    exact hK.excl.add hx (Function.update_self _ _ _) fun h hh => Function.update_of_ne hh _ _
  · rintro y ⟨h, hy⟩
    rw [hw]
    rcases hmem hy with hy | ⟨-, rfl⟩
    · exact hK.live ⟨_, hy⟩
    · exact State.word_ne_none hwx
  · intro y wy hy hoff
    rw [hw] at hy
    exact hK.off hy fun ⟨h, hm⟩ => hoff ⟨h, hge hm⟩
  · intro y wy h hty hy hb hm
    rw [hw] at hy
    rcases hmem hm with hm | ⟨hh, -⟩
    · refine hK.awake ?_ hy hb hm
      rcases hty with ⟨wu, hu⟩ | hty
      · exact .inl ⟨wu, hw ▸ hu⟩
      · exact .inr (hs hty)
    · exact ⟨c, hh⟩
  · intro y p hy
    rw [hw]
    rcases hmem hy with hy | ⟨-, rfl⟩
    · exact hK.made hy
    · exact hwx
  · intro y p hy hh
    rcases hmem hy with hy | ⟨-, rfl⟩
    · exact hK.new hy (hs hh)
    · exact hnh (hs hh)
  · intro y hy
    rw [hc]
    rw [hw] at hy
    exact hK.known (hy.imp_left hs)
  · intro d u hd
    rw [hl] at hd
    exact hge (hK.home hd)

end Kept

end Lwthread.Scheduler
