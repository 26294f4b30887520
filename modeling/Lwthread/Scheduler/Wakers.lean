import Lwthread.Scheduler.Doomed
import Lwthread.Scheduler.Lock
import Lwthread.Scheduler.Wakeup

/-!
# The scheduler follows the wake-up protocol

`State.wake` reads the state of the wake-up protocol off the state of the program: the phase of a
coroutine is given by its control point, and so is what an event loop has taken from the timer heap
or got from the poller. Every step of the program is a step of the protocol (`Moves.wakes`), as long
as user code does not call `sched_schedule` on a coroutine that waits (`Meddles`). So the invariant of
the protocol holds in every reachable state (`Reach.waking`).

The event loop pops the timer that it has looked at, because it has held `gsched->lock` since
(`Rooted`).
-/

namespace Lwthread.Scheduler

open Lwthread.Util Lwthread.Platform Custody

variable {preemption : Bool} {s s' : SeqState} {t : Tid} {l : LocalSched Unit} {c d x : Cid}
  {i : Input} {a : Act} {pc pc' : Pc Unit Unit}

/-! ## The protocol in the program -/

/-- The phase of a call that has come to `sched_suspend`. -/
@[simp] def SuspendRet.phase (p : WaitKind → WaitPhase) : SuspendRet → WaitPhase
  | .user => .idle
  | .wait => p .timer
  | .eventWait fd => p (.event fd)

/-- The phase of a coroutine at a point. -/
@[simp] def Pc.wait : Pc Unit Unit → WaitPhase
  | .waitLock _ => .prepared .timer
  | .waitPush _ => .prepared .timer
  | .waitUnlock => .published .timer
  | .eventRegister fd _ => .prepared (.event fd)
  | .suspendBlock ret => ret.phase .published
  | .suspendDequeue _ _ ret => ret.phase .published
  | .suspendCmpxchg _ _ ret => ret.phase .published
  | .suspendEnqueue _ _ ret => ret.phase .woken
  | .suspendUnblock ret => ret.phase .parked
  | .eventUnregister fd => .woken (.event fd)
  | _ => .idle

@[simp] def ScheduleRet.due (x : Cid) : ScheduleRet → Multiset Cid
  | .handleTimers _ _ => {x}
  | _ => 0

@[simp] def ScheduleRet.taken (x : Cid) : ScheduleRet → Multiset Cid
  | .pollEvent _ _ _ _ => {x}
  | _ => 0

@[simp] def ScheduleRet.batch : ScheduleRet → List (Cid × Nat)
  | .pollEvent _ _ rest _ => rest
  | _ => []

/-- The coroutine of the timer that an event loop has taken from the heap. -/
@[simp] def Pc.due : Pc Unit Unit → Multiset Cid
  | .scheduleXchg x ret => ret.due x
  | _ => 0

/-- The events that an event loop has got and not passed to `sched_poll_event`. -/
@[simp] def Pc.batch : Pc Unit Unit → List (Cid × Nat)
  | .pollEvents _ _ batch _ => batch
  | .scheduleXchg _ ret => ret.batch
  | .scheduleEnqueue _ _ ret => ret.batch
  | _ => []

/-- The coroutine that `sched_poll_event` has taken out of a record. -/
@[simp] def Pc.taken : Pc Unit Unit → Multiset Cid
  | .scheduleXchg x ret => ret.taken x
  | _ => 0

/-- The state of the wake-up protocol. -/
def State.wake (s : SeqState) : Wake where
  phase c := (s.context c).pc.wait
  word c := (s.word c).map Prod.fst
  timers := s.timerHeap.bag.map (·.coro)
  due c := (s.context c).pc.due
  batch c := (s.context c).pc.batch
  taken c := (s.context c).pc.taken
  regs := s.poller
  record := s.eventWait

/-- User code is about to change the word of a coroutine in `sched_schedule`. -/
def Meddles (s : SeqState) (a : Act) : Prop :=
  ∃ t i c x, a = .tick t i ∧ s.running t = some (c, .scheduleXchg x .user) ∧
    (s.word x).map Prod.fst ≠ some STATE_RUNNABLE

theorem Meddles.overlay {ds : Cid → List (ReschedPc Unit Unit)} (hfree : Free s ds a)
    (h : Meddles s a) : Meddles (s.overlay ds) a := by
  obtain ⟨t, i, c, x, rfl, hrun, hword⟩ := h
  exact ⟨t, i, c, x, rfl, (running_overlay hfree).trans hrun, hword⟩

/-- Two points are the same to the protocol. -/
structure Pc.Alike (pc pc' : Pc Unit Unit) : Prop where
  wait : pc'.wait = pc.wait
  due : pc'.due = pc.due
  batch : pc'.batch = pc.batch
  taken : pc'.taken = pc.taken

theorem Pc.Alike.refl (pc : Pc Unit Unit) : pc.Alike pc := ⟨rfl, rfl, rfl, rfl⟩

/-! ## The view of a step -/

section

variable {s₀ : SeqState} (hctx : ∀ d, (s.context d).pc.Alike (s₀.context d).pc)

include hctx

theorem wake_goto : (s₀.goto c pc').wake =
    { phase := Function.update s.wake.phase c pc'.wait
      word := fun d => (s₀.word d).map Prod.fst
      timers := s₀.timerHeap.bag.map (·.coro)
      due := Function.update s.wake.due c pc'.due
      batch := Function.update s.wake.batch c pc'.batch
      taken := Function.update s.wake.taken c pc'.taken
      regs := s₀.poller
      record := s₀.eventWait } := by
  have hpc : ∀ {β : Type} (f : Pc Unit Unit → β), (∀ d, f (s₀.context d).pc = f (s.context d).pc) →
      (fun d => f ((s₀.goto c pc').context d).pc) =
        Function.update (fun d => f (s.context d).pc) c (f pc') := by
    intro β f hf
    funext d
    by_cases hd : d = c
    · subst hd; rw [Function.update_self, State.goto_pc]
    · rw [Function.update_of_ne hd, State.goto_ne _ _ hd, hf]
  simp only [State.wake, Wake.mk.injEq]
  refine ⟨hpc _ fun d => (hctx d).wait, rfl, rfl, hpc _ fun d => (hctx d).due,
    hpc _ fun d => (hctx d).batch, hpc _ fun d => (hctx d).taken, rfl, rfl⟩

end

/-- A step that only sets words, of coroutines that do not wait. -/
theorem wake_aside (hpc : ∀ d, (s.context d).pc.Alike (s'.context d).pc)
    (hword : ∀ d, (s.context d).pc.wait ≠ .idle →
      (s'.word d).map Prod.fst = (s.word d).map Prod.fst)
    (htimers : s'.timerHeap.bag = s.timerHeap.bag) (hregs : s'.poller = s.poller)
    (hrecord : s'.eventWait = s.eventWait) : s.wake.Step s'.wake := by
  have heq : s'.wake = { s.wake with word := fun d => (s'.word d).map Prod.fst } := by
    simp only [State.wake, Wake.mk.injEq, htimers, hregs, hrecord, and_true, true_and]
    exact ⟨funext fun d => (hpc d).wait, funext fun d => (hpc d).due,
      funext fun d => (hpc d).batch, funext fun d => (hpc d).taken⟩
  rw [heq]
  exact .quiet hword

/-- The same, for a step that moves `c` to a point that is the same to the protocol. -/
theorem wake_quiet {s₀ : SeqState} (hctx : ∀ d, (s.context d).pc.Alike (s₀.context d).pc)
    (hlike : (s.context c).pc.Alike pc')
    (hword : ∀ d, (s.context d).pc.wait ≠ .idle →
      (s₀.word d).map Prod.fst = (s.word d).map Prod.fst)
    (htimers : s₀.timerHeap.bag = s.timerHeap.bag) (hregs : s₀.poller = s.poller)
    (hrecord : s₀.eventWait = s.eventWait) : s.wake.Step (s₀.goto c pc').wake := by
  refine wake_aside (fun d => ?_) hword htimers hregs hrecord
  by_cases hd : d = c
  · subst hd; rw [State.goto_pc]; exact hlike
  · rw [State.goto_ne _ _ hd]; exact hctx d

/-! ## The timer that an event loop looks at -/

/-- The timer that a point between `heap_min` and `heap_pop_min` looks at. -/
@[simp] def Pc.looks : Pc Unit Unit → Option TimerWait
  | .timersExpire _ _ w => some w
  | .timersPop _ _ w => some w
  | _ => none

/-- Between `heap_min` and `heap_pop_min` the minimum of the heap stays what it is. -/
def Rooted (s : SeqState) : Prop :=
  ∀ c w, (s.context c).pc.looks = some w → (heapMin s.timerHeap).1 = some w

theorem heapMin_heapMin (h : Heap TimerWait) : (heapMin (heapMin h).2).1 = (heapMin h).1 := by
  unfold heapMin
  split <;> rfl

theorem Pc.locked_of_looks {w : TimerWait} (h : pc.looks = some w) : pc.Locked := by
  cases pc <;> first | exact trivial | cases h

theorem afterTimers_looks (u : Tid) (v : Int) : (afterTimers u v : Pc Unit Unit).looks = none := by
  unfold afterTimers
  split <;> rfl

/-- What a step of the code of `c` does to the timer that it looks at. -/
theorem Stride.looks (hst : Stride seqOps preemption s t l c i (s.context c).pc s') :
    (s'.context c).pc.looks = none ∨
      s'.timerHeap = s.timerHeap ∧ (s'.context c).pc.looks = (s.context c).pc.looks ∨
      s'.timerHeap = (heapMin s.timerHeap).2 ∧
        (s'.context c).pc.looks = (heapMin s.timerHeap).1 := by
  generalize hpc : (s.context c).pc = pc at hst
  have hout : ∀ {s₀ : SeqState} {pc' : Pc Unit Unit}, pc'.looks = none →
      ((s₀.goto c pc').context c).pc.looks = none := by
    intro s₀ pc' h
    rw [State.goto_pc, h]
  cases hst with
  | @resched r ret s₁ r' hy =>
    cases r' with
    | none => cases ret <;> exact .inl (hout rfl)
    | some r' => exact .inl (hout rfl)
  | flow hf =>
    cases hf with
    | timersNone => exact .inl (hout (afterTimers_looks _ _))
    | timersDue => exact .inr (.inl ⟨rfl, by rw [State.goto_pc]; rfl⟩)
    | _ => exact .inl (hout rfl)
  | @trampoline k start => cases start <;> exact .inl (hout rfl)
  | setErrno => exact .inl (by simp [State.modSched, hpc])
  | ret => exact .inl (by simp [State.modSched, hpc])
  | park => exact .inl (by simp [State.modSched, State.goto])
  | @suspendUnblock ret => cases ret <;> exact .inl (hout rfl)
  | @rouse x ret => cases ret <;> exact .inl (hout rfl)
  | @schedulePushed x p ret => cases ret <;> exact .inl (hout rfl)
  | fetchAdd => refine .inl (hout ?_); split <;> rfl
  | eintr => exact .inl (by rw [hpc]; rfl)
  | timersMin =>
    refine .inr (.inr ⟨rfl, ?_⟩)
    rw [State.goto_pc]
    split <;> next h => rw [h]; rfl
  | @timersUnlock u v again =>
    refine .inl (hout ?_)
    cases again
    · exact afterTimers_looks u v
    · rfl
  | _ => exact .inl (hout rfl)

theorem Rooted.stride (hH : Holding s) (hR : Rooted s)
    (hst : Stride seqOps preemption s t l c i (s.context c).pc s') : Rooted s' := by
  intro d w hd
  by_cases hdc : d = c
  · subst hdc
    rcases hst.looks with h | ⟨hheap, h⟩ | ⟨hheap, h⟩
    · rw [h] at hd; cases hd
    · rw [hheap]; exact hR d w (h ▸ hd)
    · rw [hheap, heapMin_heapMin]; exact h ▸ hd
  · -- the lock keeps the others from changing the heap
    have hd : (s.context d).pc.looks = some w := by
      rcases hst.context_ne hdc with h | ⟨-, -, h | ⟨u, h⟩⟩
      · rw [← h]; exact hd
      · rw [h] at hd; cases hd
      · rw [h] at hd; cases hd
    have hfree : ¬(s.context c).pc.Locked := fun hc => hdc <| Option.some.inj <|
      ((hH.holder d).1 (Pc.locked_of_looks hd)).symm.trans ((hH.holder c).1 hc)
    have hstep := hst.heapStep
    generalize (s.context c).pc = pc at hstep hfree
    cases hstep with
    | same h => rw [h]; exact hR d w hd
    | min h => rw [h, heapMin_heapMin]; exact hR d w hd
    | push => exact absurd trivial hfree
    | pop => exact absurd trivial hfree

theorem Rooted.moves (hH : Holding s) (hR : Rooted s) (hl : s.sched t = some l)
    (hm : Moves seqOps preemption s t l a s') : Rooted s' := by
  rcases hm.stride_or_apart hl with ⟨c, k, i, -, -, -, -, hst⟩ | hA
  · exact hR.stride hH hst
  · intro c w hc
    rw [hA.pc] at hc
    rw [hA.timerHeap]
    exact hR c w hc

/-! ## Waits and custody -/

section

variable (hS : s.wake.Sound)

include hS

/-- Who is to wake `x` has a pointer to it. -/
theorem handled_of_token {src : Source} (hx : x ∈ s.wake.held src) : s.Handled x := by
  have hevent : s.wake.Unread x → s.Handled x := by
    intro hu
    obtain ⟨fd, w, hw⟩ : ∃ fd w, (s.wake.phase x).registered = some fd ∧ s.eventWait x = some w := by
      obtain ⟨k, hk, hphase⟩ := hS.token hx
      cases k with
      | timer =>
        rcases hu with hu | ⟨p, hu⟩
        · cases hS.excl.inj hx hu; exact hk.elim
        · cases hS.excl.inj hx hu; exact hk.elim
      | event fd =>
        have hreg : (s.wake.phase x).registered = some fd := by
          rcases hphase with ⟨hp, -⟩ | ⟨hp, -⟩ <;> rw [hp] <;> rfl
        obtain ⟨w, hw, -⟩ := (hS.recorded x).registered hreg
        exact ⟨fd, w, hreg, hw⟩
    exact .event hw.2 (hS.record_of_unread hu hw.2)
  cases src with
  | heap =>
    have hx : x ∈ s.timerHeap.bag.map (·.coro) := hx
    obtain ⟨w, hw, rfl⟩ := Multiset.mem_map.1 hx
    exact .timer hw rfl
  | poller => exact hevent (.inl hx)
  | batch p => exact hevent (.inr ⟨p, hx⟩)
  | due p =>
    refine .point (c := p) ?_
    have hx : x ∈ (s.context p).pc.due := hx
    generalize (s.context p).pc = pc at hx
    cases pc with
    | scheduleXchg y ret =>
      cases ret with
      | handleTimers => rw [Multiset.mem_singleton.1 hx]; simp
      | _ => cases hx
    | _ => cases hx
  | taken p =>
    refine .point (c := p) ?_
    have hx : x ∈ (s.context p).pc.taken := hx
    generalize (s.context p).pc = pc at hx
    cases pc with
    | scheduleXchg y ret =>
      cases ret with
      | pollEvent => rw [Multiset.mem_singleton.1 hx]; simp
      | _ => cases hx
    | _ => cases hx

/-- A new coroutine does not wait. -/
theorem idle_of_fresh (hI : Inv preemption s) {p : Cid} (hx : x ∈ own s (.fresh p)) :
    (s.context x).pc.wait = .idle := by
  have hword : s.wake.word x = some STATE_BLOCKED := by
    simp only [State.wake, hI.kept.made hx, Option.map_some]
  have hv : ∀ {v : Int}, s.wake.word x = some v → v = STATE_BLOCKED := fun h =>
    Option.some.inj (h.symm.trans hword)
  have hacc := hS.accounts x
  cases hphase : s.wake.phase x with
  | idle => exact hphase
  | prepared k => exact absurd (hv (hacc.at hphase).1) (by decide)
  | published k =>
    rcases hacc.at hphase with ⟨hw, -⟩ | ⟨hw, -⟩
    · exact absurd (hv hw) (by decide)
    · exact absurd (hv hw) (by decide)
  | parked k =>
    rcases hacc.at hphase with ⟨-, src, -, hm⟩ | ⟨hw, -⟩
    · exact absurd (handled_of_token hS hm) (hI.kept.new hx)
    · exact absurd (hv hw) (by decide)
  | woken k => exact absurd (hv (hacc.at hphase).1) (by decide)

/-- A coroutine that executes past `context_cmpxchg_restore` has been woken. -/
theorem runnable_of_exec (hI : Inv preemption s) (hl : s.sched t = some l) (he : l.exec = .on c)
    {k : WaitKind} (hc : s.wake.phase c = .parked k) : s.wake.word c = some STATE_RUNNABLE := by
  rcases (hS.accounts c).at hc with ⟨hw, src, -, hm⟩ | ⟨hw, -⟩
  · obtain ⟨w, hword, hv⟩ := Option.map_eq_some_iff.1 hw
    obtain ⟨p, hp⟩ := hI.kept.awake (.inr (handled_of_token hS hm)) hword hv
      (hI.own_of_runs hl (.inl he))
    cases hp
  · exact hw

end

/-! ## Steps of the program are steps of the protocol -/

theorem eq_update_of_eq {β : Type} {f : Cid → β} {v : β} (h : v = f c) : f = Function.update f c v :=
  (Function.update_eq_self_iff.2 h).symm

/-- A step of the protocol by the coroutine `c`, which goes on at `pc'`. -/
theorem wake_step {b : Wake} (hb : s.wake.Step b) {s₀ : SeqState} (hctx : s₀.context = s.context)
    (hphase : b.phase = Function.update s.wake.phase c pc'.wait)
    (hword : b.word = fun d => (s₀.word d).map Prod.fst)
    (htimers : b.timers = s₀.timerHeap.bag.map (·.coro))
    (hdue : b.due = Function.update s.wake.due c pc'.due)
    (hbatch : b.batch = Function.update s.wake.batch c pc'.batch)
    (htaken : b.taken = Function.update s.wake.taken c pc'.taken)
    (hregs : b.regs = s₀.poller) (hrecord : b.record = s₀.eventWait) :
    s.wake.Step (s₀.goto c pc').wake := by
  have heq : (s₀.goto c pc').wake = b := by
    rw [wake_goto (s := s) fun d => by rw [hctx]; exact Pc.Alike.refl _]
    obtain ⟨phase, word, timers, due, batch, taken, regs, record⟩ := b
    simp only [Wake.mk.injEq]
    exact ⟨hphase.symm, hword.symm, htimers.symm, hdue.symm, hbatch.symm, htaken.symm, hregs.symm,
      hrecord.symm⟩
  rw [heq]
  exact hb

/-- A step of a wait: what an event loop has taken is not concerned. -/
theorem wake_wait {b : Wake} (hb : s.wake.Step b) {s₀ : SeqState} (hctx : s₀.context = s.context)
    (hpc : (s.context c).pc.due = 0 ∧ (s.context c).pc.batch = [] ∧ (s.context c).pc.taken = 0)
    (hpc' : pc'.due = 0 ∧ pc'.batch = [] ∧ pc'.taken = 0)
    (hphase : b.phase = Function.update s.wake.phase c pc'.wait)
    (hword : b.word = fun d => (s₀.word d).map Prod.fst)
    (htimers : b.timers = s₀.timerHeap.bag.map (·.coro)) (hdue : b.due = s.wake.due)
    (hbatch : b.batch = s.wake.batch) (htaken : b.taken = s.wake.taken)
    (hregs : b.regs = s₀.poller) (hrecord : b.record = s₀.eventWait) :
    s.wake.Step (s₀.goto c pc').wake := by
  refine wake_step hb hctx hphase hword htimers ?_ ?_ ?_ hregs hrecord
  · exact hdue.trans (eq_update_of_eq (hpc'.1.trans hpc.1.symm))
  · exact hbatch.trans (eq_update_of_eq (hpc'.2.1.trans hpc.2.1.symm))
  · exact htaken.trans (eq_update_of_eq (hpc'.2.2.trans hpc.2.2.symm))

theorem word_modState_fst (s₀ : SeqState) {k : Coroutine} (hk : s₀.coro x = some k) (v : Int) :
    Function.update (fun d => (s₀.word d).map Prod.fst) x (some v) =
      fun d => ((s₀.modCoro x ({ · with state := v })).word d).map Prod.fst := by
  funext d
  rw [State.word_modState s₀ hk v]
  by_cases hd : d = x
  · rw [hd, Function.update_self, Function.update_self]; rfl
  · rw [Function.update_of_ne hd, Function.update_of_ne hd]

/-- A step that leaves all that the protocol reads as it is. -/
theorem wake_plain {s₀ : SeqState} (hctx : s₀.context = s.context)
    (hlike : (s.context c).pc.Alike pc') (hword : s₀.word = s.word)
    (htimers : s₀.timerHeap.bag = s.timerHeap.bag) (hregs : s₀.poller = s.poller)
    (hrecord : s₀.eventWait = s.eventWait) : s.wake.Step (s₀.goto c pc').wake := by
  refine wake_quiet (fun d => ?_) hlike (fun d _ => ?_) htimers hregs hrecord
  · rw [hctx]; exact Pc.Alike.refl _
  · rw [hword]

theorem ReschedRet.next_alike (r : ReschedPc Unit Unit) (ret : ReschedRet)
    (r' : Option (ReschedPc Unit Unit)) : Pc.Alike (.resched r ret) (ret.next r') := by
  cases r' with
  | none => cases ret <;> exact ⟨rfl, rfl, rfl, rfl⟩
  | some => exact ⟨rfl, rfl, rfl, rfl⟩

theorem afterTimers_alike (u : Tid) (v : Int) : Pc.Alike .user (afterTimers u v) := by
  unfold afterTimers
  split <;> exact ⟨rfl, rfl, rfl, rfl⟩

section

variable (hI : Inv preemption s) (hS : s.wake.Sound) (hl : s.sched t = some l) (he : l.exec = .on c)

include hS in
/-- A key that `epoll_wait` has delivered is that of a wait that is not woken yet, so its record has
not been read before. -/
theorem coro_of_batch {key : Cid} {revents : Nat} {rest : List (Cid × Nat)} {w : EventWait}
    (hb : (s.context c).pc.batch = (key, revents) :: rest) (hw : s.eventWait key = some w) :
    w.coro = some key := by
  refine hS.record_of_unread (.inr ⟨c, ?_⟩) hw
  have hbatch : s.wake.batch c = (key, revents) :: rest := hb
  simp [Wake.held, hbatch]

include hS in
/-- A step that only moves the control point. -/
theorem Flow.wakes (h : Flow seqOps s i (s.context c).pc pc') :
    s.wake.Step (s.goto c pc').wake := by
  have hplain : (s.context c).pc.Alike pc' → s.wake.Step (s.goto c pc').wake := fun hlike =>
    wake_plain rfl hlike rfl rfl rfl rfl
  generalize hpc : (s.context c).pc = pc at h hplain
  cases h with
  | pollTaken hw hn =>
    have hcoro := coro_of_batch hS (by rw [hpc]; rfl) hw
    rw [hn] at hcoro
    cases hcoro
  | timersNone =>
    obtain ⟨h1, h2, h3, h4⟩ := afterTimers_alike _ _
    exact hplain ⟨h1, h2, h3, h4⟩
  | _ => exact hplain ⟨rfl, rfl, rfl, rfl⟩

end

/-! ### Waiting -/

/-- A call of `sched_suspend` is one of user code, or comes from a wait. -/
theorem SuspendRet.cases (ret : SuspendRet) : ret = .user ∨ ∃ k, ∀ p, ret.phase p = p k := by
  cases ret with
  | user => exact .inl rfl
  | wait => exact .inr ⟨.timer, fun _ => rfl⟩
  | eventWait fd => exact .inr ⟨.event fd, fun _ => rfl⟩

section

variable {ret : SuspendRet} {k : Coroutine}

theorem word_fst (hk : s.coro c = some k) : s.wake.word c = some k.state := by
  simp only [State.wake, State.word_of_coro s hk, Option.map_some]

/-- The call of `sched_wait`. -/
theorem wait_wakes {time : Timespec} (hpc : (s.context c).pc = .user) (hk : s.coro c = some k) :
    s.wake.Step ((s.modCoro c ({ · with state := STATE_BLOCKING })).goto c
      (.waitLock ⟨time, c⟩)).wake := by
  have hphase : s.wake.phase c = .idle := by simp only [State.wake, hpc]; rfl
  exact wake_wait (.enterTimer hphase) rfl (by rw [hpc]; exact ⟨rfl, rfl, rfl⟩) ⟨rfl, rfl, rfl⟩ rfl
    (word_modState_fst s hk _) rfl rfl rfl rfl rfl rfl

/-- The call of `sched_event_wait`. -/
theorem eventWait_wakes {fd events : Nat} (hpc : (s.context c).pc = .user) (hk : s.coro c = some k) :
    s.wake.Step ((State.modCoro
      { s with eventWait := Function.update s.eventWait c (some ⟨fd, 0, some c⟩) } c
      ({ · with state := STATE_BLOCKING })).goto c (.eventRegister fd events)).wake := by
  have hphase : s.wake.phase c = .idle := by simp only [State.wake, hpc]; rfl
  exact wake_wait (.enterEvent hphase) rfl (by rw [hpc]; exact ⟨rfl, rfl, rfl⟩) ⟨rfl, rfl, rfl⟩ rfl
    (word_modState_fst
      { s with eventWait := Function.update s.eventWait c (some ⟨fd, 0, some c⟩) } hk _) rfl rfl rfl rfl rfl
    rfl

theorem waitPush_wakes {w : TimerWait} (hpc : (s.context c).pc = .waitPush w) (hw : w.coro = c) :
    s.wake.Step (State.goto { s with timerHeap := (heapPush .block s.timerHeap w).2 } c
      .waitUnlock).wake := by
  have hphase : s.wake.phase c = .prepared .timer := by simp only [State.wake, hpc]; rfl
  refine wake_wait (.publishTimer hphase) rfl (by rw [hpc]; exact ⟨rfl, rfl, rfl⟩) ⟨rfl, rfl, rfl⟩
    rfl rfl ?_ rfl rfl rfl rfl rfl
  simp only [State.wake, heapPush_bag, Multiset.map_cons, hw]

theorem eventRegister_wakes {fd events : Nat} (hpc : (s.context c).pc = .eventRegister fd events)
    (hr : s.poller.any (·.fd == fd) = false) :
    s.wake.Step (State.goto { s with poller := s.poller ++ [(⟨fd, c, true⟩ : Registration)] } c
      (.suspendBlock (.eventWait fd))).wake := by
  have hphase : s.wake.phase c = .prepared (.event fd) := by simp only [State.wake, hpc]; rfl
  have hfd : ∀ r ∈ s.wake.regs, r.fd ≠ fd := by
    intro r hmem heq
    have hany : s.poller.any (·.fd == fd) = true :=
      List.any_eq_true.2 ⟨r, hmem, by rw [heq]; exact beq_self_eq_true fd⟩
    rw [hr] at hany
    cases hany
  exact wake_wait (.publishEvent hphase hfd) rfl (by rw [hpc]; exact ⟨rfl, rfl, rfl⟩)
    ⟨rfl, rfl, rfl⟩ rfl rfl rfl rfl rfl rfl rfl rfl

theorem eventUnregister_wakes {fd : Nat} (hpc : (s.context c).pc = .eventUnregister fd) :
    s.wake.Step (State.goto { s with
      poller := s.poller.filter (·.fd != fd)
      eventWait := Function.update s.eventWait c none } c .user).wake := by
  have hphase : s.wake.phase c = .woken (.event fd) := by simp only [State.wake, hpc]; rfl
  exact wake_wait (.unregister hphase) rfl (by rw [hpc]; exact ⟨rfl, rfl, rfl⟩)
    ⟨rfl, rfl, rfl⟩ rfl rfl rfl rfl rfl rfl rfl rfl

theorem park_wakes (hpc : (s.context c).pc = .suspendCmpxchg c x ret) (hk : s.coro c = some k)
    (hb : k.state = STATE_BLOCKING) :
    s.wake.Step
      ((s.modCoro c ({ · with state := STATE_BLOCKED })).goto c (.suspendUnblock ret)).wake := by
  rcases ret.cases with rfl | ⟨kind, hret⟩
  · refine wake_quiet (fun d => Pc.Alike.refl _) (by rw [hpc]; exact ⟨rfl, rfl, rfl, rfl⟩) ?_ rfl rfl
      rfl
    intro d hd
    have hdc : d ≠ c := by
      rintro rfl
      rw [hpc] at hd
      exact hd rfl
    rw [State.word_modState s hk, Function.update_of_ne hdc]
  · have hphase : s.wake.phase c = .published kind := by
      simp only [State.wake, hpc, Pc.wait, hret]
    refine wake_wait (.park hphase ((word_fst hk).trans (by rw [hb]))) rfl
      (by rw [hpc]; exact ⟨rfl, rfl, rfl⟩) ⟨rfl, rfl, rfl⟩ ?_ (word_modState_fst s hk _) rfl rfl rfl rfl
      rfl rfl
    rw [Pc.wait, hret]

theorem abort_wakes {s₀ : SeqState} (hpc : (s.context c).pc = .suspendCmpxchg c x ret)
    (hk : s.coro c = some k) (hb : k.state ≠ STATE_BLOCKING) (hctx : s₀.context = s.context)
    (hword : s₀.word = s.word) (hheap : s₀.timerHeap = s.timerHeap) (hregs : s₀.poller = s.poller)
    (hrecord : s₀.eventWait = s.eventWait) :
    s.wake.Step (s₀.goto c (.suspendEnqueue x .assert ret)).wake := by
  rcases ret.cases with rfl | ⟨kind, hret⟩
  · exact wake_plain hctx (by rw [hpc]; exact ⟨rfl, rfl, rfl, rfl⟩) hword (by rw [hheap]) hregs hrecord
  · have hphase : s.wake.phase c = .published kind := by
      simp only [State.wake, hpc, Pc.wait, hret]
    refine wake_wait (.abort hphase ?_) hctx (by rw [hpc]; exact ⟨rfl, rfl, rfl⟩) ⟨rfl, rfl, rfl⟩ ?_
      (by rw [hword]; rfl) (by rw [hheap]; rfl) rfl rfl rfl (by rw [hregs]; rfl)
      (by rw [hrecord]; rfl)
    · rw [word_fst hk]
      exact fun h => hb (Option.some.inj h)
    · rw [Pc.wait, hret]

theorem requeue_wakes {p : Unit} (hpc : (s.context c).pc = .suspendEnqueue x (.push p) ret) (q : Seq) :
    s.wake.Step (State.goto { s with queues := q } c (.suspendUnblock ret)).wake := by
  rcases ret.cases with rfl | ⟨kind, hret⟩
  · exact wake_plain rfl (by rw [hpc]; exact ⟨rfl, rfl, rfl, rfl⟩) rfl rfl rfl rfl
  · have hphase : s.wake.phase c = .woken kind := by
      simp only [State.wake, hpc, Pc.wait, hret]
    refine wake_wait (.requeue hphase) rfl (by rw [hpc]; exact ⟨rfl, rfl, rfl⟩) ⟨rfl, rfl, rfl⟩ ?_
      rfl rfl rfl rfl rfl rfl rfl
    rw [Pc.wait, hret]

/-- The return from `sched_suspend`. -/
theorem resume_wakes {s₀ : SeqState} (hI : Inv preemption s) (hS : s.wake.Sound)
    (hl : s.sched t = some l) (he : l.exec = .on c) (hpc : (s.context c).pc = .suspendUnblock ret)
    (hs₀ : ∃ sched, s₀ = { s with sched := sched }) : s.wake.Step (s₀.goto c ret.pc).wake := by
  obtain ⟨sched, rfl⟩ := hs₀
  have hwoken : ∀ {kind}, s.wake.phase c = .parked kind → s.wake.word c = some STATE_RUNNABLE :=
    runnable_of_exec hS hI hl he
  have hctx : (s.context c).pc.due = 0 ∧ (s.context c).pc.batch = [] ∧ (s.context c).pc.taken = 0 := by
    rw [hpc]
    exact ⟨rfl, rfl, rfl⟩
  cases ret with
  | user => exact wake_plain rfl (by rw [hpc]; exact ⟨rfl, rfl, rfl, rfl⟩) rfl rfl rfl rfl
  | wait =>
    have hphase : s.wake.phase c = .parked .timer := by simp only [State.wake, hpc]; rfl
    exact wake_wait (.leave hphase (hwoken hphase)) rfl hctx ⟨rfl, rfl, rfl⟩ rfl rfl rfl rfl rfl rfl
      rfl rfl
  | eventWait fd =>
    have hphase : s.wake.phase c = .parked (.event fd) := by simp only [State.wake, hpc]; rfl
    exact wake_wait (.resume hphase (hwoken hphase)) rfl hctx ⟨rfl, rfl, rfl⟩ rfl rfl rfl rfl rfl rfl
      rfl rfl

end

/-! ### Waking -/

section

variable {k : Coroutine}

/-- The exchange in `sched_schedule`, and the step to `pc'` after it. -/
theorem xchg_wakes {ret : ScheduleRet} (hI : Inv preemption s) (hS : s.wake.Sound)
    (hpc : (s.context c).pc = .scheduleXchg x ret) (hk : s.coro x = some k)
    (huser : ret = .user → k.state = STATE_RUNNABLE)
    (hwait : pc'.wait = .idle) (hdue : pc'.due = 0) (hbatch : pc'.batch = ret.batch)
    (htaken : pc'.taken = 0) :
    s.wake.Step ((s.modCoro x ({ · with state := STATE_RUNNABLE })).goto c pc').wake := by
  have hword := word_modState_fst s hk STATE_RUNNABLE
  have hphase : s.wake.phase = Function.update s.wake.phase c pc'.wait :=
    eq_update_of_eq (by rw [hwait]; simp only [State.wake, hpc]; rfl)
  have hbatches : s.wake.batch = Function.update s.wake.batch c pc'.batch :=
    eq_update_of_eq (by rw [hbatch]; simp only [State.wake, hpc]; rfl)
  -- the two wakes of the library
  have hown : ∀ {b : Wake}, s.wake.Step b → b.phase = s.wake.phase →
      b.word = Function.update s.wake.word x (some STATE_RUNNABLE) → b.timers = s.wake.timers →
      b.due = Function.update s.wake.due c 0 → b.batch = s.wake.batch →
      b.taken = Function.update s.wake.taken c 0 → b.regs = s.wake.regs →
      b.record = s.wake.record →
      s.wake.Step ((s.modCoro x ({ · with state := STATE_RUNNABLE })).goto c pc').wake := by
    intro b hb h1 h2 h3 h4 h5 h6 h7 h8
    exact wake_step hb rfl (h1.trans hphase) (h2.trans hword) h3 (by rw [h4, hdue]) (h5.trans hbatches)
      (by rw [h6, htaken]) h7 h8
  -- a wake of a coroutine that does not wait
  have haside : ret.due x = 0 → ret.taken x = 0 → (∀ d, (s.context d).pc.wait ≠ .idle → d = x →
      k.state = STATE_RUNNABLE) →
      s.wake.Step ((s.modCoro x ({ · with state := STATE_RUNNABLE })).goto c pc').wake := by
    intro hd0 ht0 hidle
    refine wake_quiet (fun d => Pc.Alike.refl _) ?_ (fun d hd => ?_) rfl rfl rfl
    · rw [hpc]
      exact ⟨hwait, by rw [hdue, Pc.due, hd0], hbatch, by rw [htaken, Pc.taken, ht0]⟩
    · rw [State.word_modState s hk]
      by_cases hdx : d = x
      · subst hdx
        rw [Function.update_self, State.word_of_coro s hk, ← hidle d hd rfl]
      · rw [Function.update_of_ne hdx]
  cases ret with
  | user => exact haside rfl rfl fun _ _ _ => huser rfl
  | newCoroutine =>
    refine haside rfl rfl fun d hd hdx => absurd ?_ hd
    rw [hdx]
    refine idle_of_fresh hS hI (p := c) ?_
    rw [own, hpc]
    exact Multiset.mem_singleton_self x
  | pollEvent =>
    have hc : s.wake.taken c = {x} := by simp only [State.wake, hpc]; rfl
    refine hown (.wakeTaken hc) rfl rfl rfl (eq_update_of_eq ?_) rfl rfl rfl rfl
    simp only [State.wake, hpc]; rfl
  | handleTimers =>
    have hc : s.wake.due c = {x} := by simp only [State.wake, hpc]; rfl
    refine hown (.wakeDue hc) rfl rfl rfl rfl rfl (eq_update_of_eq ?_) rfl rfl
    simp only [State.wake, hpc]; rfl

theorem ScheduleRet.pc_idle (ret : ScheduleRet) : (ret.pc : Pc Unit Unit).wait = .idle ∧
    (ret.pc : Pc Unit Unit).due = 0 ∧ (ret.pc : Pc Unit Unit).batch = ret.batch ∧
    (ret.pc : Pc Unit Unit).taken = 0 := by
  cases ret <;> exact ⟨rfl, rfl, rfl, rfl⟩

/-- `heap_pop_min` in `sched_handle_timers`. -/
theorem pop_wakes {u : Tid} {v : Int} {w : TimerWait} (hI : Inv preemption s) (hR : Rooted s)
    (hpc : (s.context c).pc = .timersPop u v w) :
    s.wake.Step (State.goto { s with timerHeap := (heapPopMin .block s.timerHeap).2 } c
      (.scheduleXchg w.coro (.handleTimers u v))).wake := by
  have hmin := hR c w (by rw [hpc]; rfl)
  have hi : s.timerHeap.items ≠ 0 := by
    intro h0
    simp [heapMin, h0] at hmin
  obtain rfl : s.timerHeap.heap.cell 1 = w := by
    rw [heapMin, if_neg hi] at hmin
    exact Option.some.inj hmin
  have htimers : s.wake.timers = (s.timerHeap.heap.cell 1).coro ::ₘ
      (heapPopMin .block s.timerHeap).2.bag.map (·.coro) := by
    simp only [State.wake, ← hI.heaped.bag_popMin hi, Multiset.map_cons]
  have hdue : s.wake.due c = 0 := by simp only [State.wake, hpc]; rfl
  refine wake_step (.pop hdue htimers) rfl (eq_update_of_eq ?_) rfl rfl rfl (eq_update_of_eq ?_)
    (eq_update_of_eq ?_) rfl rfl
  · simp only [State.wake, hpc]; rfl
  · simp only [State.wake, hpc]; rfl
  · simp only [State.wake, hpc]; rfl

/-- The return of `epoll_wait`. -/
theorem ready_wakes {u : Tid} {v : Int} {events : List (Nat × Nat)} {full : Bool}
    {d : List (Cid × Nat) × List Registration} (hpc : (s.context c).pc = .pollWait u v)
    (hd : deliver s.poller events = some d) :
    s.wake.Step (State.goto { s with poller := d.2 } c (.pollEvents u v d.1 full)).wake := by
  have hb : s.wake.batch c = [] := by simp only [State.wake, hpc]; rfl
  refine wake_step (.deliver hb hd) rfl (eq_update_of_eq ?_) rfl rfl (eq_update_of_eq ?_) rfl
    (eq_update_of_eq ?_) rfl rfl
  · simp only [State.wake, hpc]; rfl
  · simp only [State.wake, hpc]; rfl
  · simp only [State.wake, hpc]; rfl

/-- `sched_poll_event` takes the coroutine out of the record. -/
theorem pollEvent_wakes {u : Tid} {v : Int} {key : Cid} {revents : Nat} {rest : List (Cid × Nat)}
    {full : Bool} {w : EventWait}
    (hpc : (s.context c).pc = .pollEvents u v ((key, revents) :: rest) full)
    (hw : s.eventWait key = some w) (hx : w.coro = some x) :
    s.wake.Step (State.goto { s with
      eventWait := Function.update s.eventWait key
        (some { w with coro := none, events := revents }) } c
      (.scheduleXchg x (.pollEvent u v rest full))).wake := by
  have hb : s.wake.batch c = (key, revents) :: rest := by simp only [State.wake, hpc]; rfl
  have ht : s.wake.taken c = 0 := by simp only [State.wake, hpc]; rfl
  refine wake_step (.take hb ht hw hx) rfl (eq_update_of_eq ?_) rfl rfl (eq_update_of_eq ?_) rfl rfl
    rfl rfl
  · simp only [State.wake, hpc]; rfl
  · simp only [State.wake, hpc]; rfl

/-! ### Coroutines made -/

/-- A coroutine is made: its context has been that of code which does not wait. -/
theorem alike_of_new {s₀ : SeqState} {x' : Context Unit Unit} (hI : Inv preemption s)
    (hctx : s₀.context = Function.update s.context s.coros x') (hx' : Pc.Alike .user x'.pc) (d : Cid) :
    (s.context d).pc.Alike (s₀.context d).pc := by
  rw [hctx]
  by_cases hd : d = s.coros
  · rw [hd, Function.update_self, hI.control.blank le_rfl]
    exact hx'
  · rw [Function.update_of_ne hd]
    exact Pc.Alike.refl _

theorem ne_new_of_waits (hI : Inv preemption s) (hd : (s.context d).pc.wait ≠ .idle) :
    d ≠ s.coros := by
  rintro rfl
  rw [hI.control.blank le_rfl] at hd
  exact hd rfl

theorem newCoroutine_wakes (hI : Inv preemption s) (hpc : (s.context c).pc = .user) :
    s.wake.Step ((schedMakeCoro seqOps s .user).goto c (.newLoad s.coros)).wake := by
  refine wake_quiet (alike_of_new hI rfl ⟨rfl, rfl, rfl, rfl⟩)
    (by rw [hpc]; exact ⟨rfl, rfl, rfl, rfl⟩) (fun d hd => ?_) rfl rfl rfl
  have hne := ne_new_of_waits hI hd
  simp only [State.word, schedMakeCoro, Function.update_of_ne hne]

theorem newLocal_wakes {slot : Nat} {state errno : Int} (hI : Inv preemption s) (hS : s.wake.Sound)
    (hpc : (s.context c).pc = .newLocal x slot) :
    s.wake.Step ((State.modCoro
      { schedNewLocal seqOps s state errno .loopTop with
        localSchedulers := Function.update s.localSchedulers slot (some s.locals) } x
      ({ · with state := STATE_RUNNABLE })).goto c (.newEnqueue x s.locals .assert)).wake := by
  refine wake_quiet (alike_of_new hI rfl ⟨rfl, rfl, rfl, rfl⟩)
    (by rw [hpc]; exact ⟨rfl, rfl, rfl, rfl⟩) (fun d hd => ?_) rfl rfl rfl
  have hne := ne_new_of_waits hI hd
  have hdx : d ≠ x := by
    rintro rfl
    refine hd (idle_of_fresh hS hI (p := c) ?_)
    rw [own, hpc]
    exact Multiset.mem_singleton_self d
  simp only [State.word, State.modCoro, schedNewLocal, Function.update_of_ne hne,
    Function.update_of_ne hdx]

end

/-! ### Any step -/

section

variable (hI : Inv preemption s) (hR : Rooted s) (hS : s.wake.Sound) (hl : s.sched t = some l)

include hI hR hS hl

/-- **A step of a coroutine's code is a step of the wake-up protocol.** -/
theorem Stride.wakes (he : l.exec = .on c) (hsig : (s.context c).sig = [])
    (hok : ∀ x, (s.context c).pc = .scheduleXchg x .user →
      (s.word x).map Prod.fst = some STATE_RUNNABLE)
    (hst : Stride seqOps preemption s t l c i (s.context c).pc s') : s.wake.Step s'.wake := by
  have hsit := hI.control.sits hl
  simp only [Sits, he] at hsit
  have hcur := hsit.2.1
  have hnamed := (hI.control.named c).1
  have hplain : ∀ {s₀ : SeqState} {pc' : Pc Unit Unit}, s₀.context = s.context →
      (s.context c).pc.Alike pc' → s₀.word = s.word → s₀.timerHeap.bag = s.timerHeap.bag →
      s₀.poller = s.poller → s₀.eventWait = s.eventWait → s.wake.Step (s₀.goto c pc').wake :=
    fun h1 h2 h3 h4 h5 h6 => wake_plain h1 h2 h3 h4 h5 h6
  have hself : s.wake.Step s.wake :=
    wake_aside (fun _ => Pc.Alike.refl _) (fun _ _ => rfl) rfl rfl rfl
  have hlive := hsit.1
  have hcoro : ∃ k, s.coro c = some k := by
    unfold State.word at hlive
    rcases hk : s.coro c with _ | k
    · simp [hk] at hlive
    · exact ⟨k, rfl⟩
  obtain ⟨k, hk⟩ := hcoro
  generalize hpc : (s.context c).pc = pc at hst hplain hnamed
  have hctx : s.context c = ⟨pc, []⟩ := by rw [← hpc, ← hsig]
  rw [hctx] at hcur
  have huser : ∀ {x ret kx}, s.coro x = some kx → pc = .scheduleXchg x ret → ret = .user →
      kx.state = STATE_RUNNABLE := by
    rintro x ret kx hkx rfl rfl
    have := hok x hpc
    rw [State.word_of_coro s hkx] at this
    exact Option.some.inj this
  cases hst with
  | resched hy =>
    obtain ⟨hword, -, hregs, hrecord⟩ := hy.rest
    exact hplain hy.context_eq (ReschedRet.next_alike _ _ _) hword (by rw [hy.timerHeap]) hregs hrecord
  | flow hf => exact Flow.wakes hS (hpc.symm ▸ hf)
  | @trampoline k start =>
    rw [State.setPreempt_eq s t _ hl]
    refine hplain rfl ?_ rfl rfl rfl rfl
    cases start <;> exact ⟨rfl, rfl, rfl, rfl⟩
  | setErrno => exact hself
  | newCoroutine => exact newCoroutine_wakes hI hpc
  | wait =>
    have hcur : l.currentCoro = c := hcur
    rw [schedPrepareToSuspend, hcur]
    exact wait_wakes hpc hk
  | eventWait =>
    have hcur : l.currentCoro = c := hcur
    rw [schedPrepareToSuspend, hcur]
    exact eventWait_wakes hpc hk
  | ret => rw [State.setPreempt_eq s t _ hl]; exact hself
  | waitLock => exact hplain rfl ⟨rfl, rfl, rfl, rfl⟩ rfl rfl rfl rfl
  | waitPush => exact waitPush_wakes hpc hnamed
  | waitUnlock => exact hplain rfl ⟨rfl, rfl, rfl, rfl⟩ rfl rfl rfl rfl
  | eventRegister hr => exact eventRegister_wakes hpc hr
  | eventUnregister => exact eventUnregister_wakes hpc
  | suspendBlock =>
    rw [State.setPreempt_eq s t _ hl]
    exact hplain rfl ⟨rfl, rfl, rfl, rfl⟩ rfl rfl rfl rfl
  | suspendPop => exact hplain rfl ⟨rfl, rfl, rfl, rfl⟩ rfl rfl rfl rfl
  | suspendTake => exact hplain rfl ⟨rfl, rfl, rfl, rfl⟩ (State.word_modErrno _ _ _) rfl rfl rfl
  | park hkc hb =>
    obtain rfl := hnamed
    exact park_wakes hpc hkc hb
  | abort hkc hb =>
    obtain rfl := hnamed
    exact abort_wakes hpc hkc hb rfl rfl rfl rfl rfl
  | suspendPush => exact hplain rfl ⟨rfl, rfl, rfl, rfl⟩ rfl rfl rfl rfl
  | suspendPushed => exact requeue_wakes hpc _
  | suspendUnblock =>
    exact resume_wakes hI hS hl he hpc ⟨_, State.setPreempt_eq s t _ hl⟩
  | @rouse x ret kx hkx hb =>
    obtain ⟨h1, h2, h3, h4⟩ := ret.pc_idle
    exact xchg_wakes hI hS hpc hkx (huser hkx rfl) h1 h2 h3 h4
  | @wake x ret kx hkx hb => exact xchg_wakes hI hS hpc hkx (huser hkx rfl) rfl rfl rfl rfl
  | schedulePush => exact hplain rfl ⟨rfl, rfl, rfl, rfl⟩ rfl rfl rfl rfl
  | @schedulePushed x p ret =>
    obtain ⟨h1, h2, h3, h4⟩ := ret.pc_idle
    exact hplain rfl ⟨h1, h2, h3, h4⟩ rfl rfl rfl rfl
  | fetchAdd =>
    refine hplain rfl ?_ rfl rfl rfl rfl
    split <;> exact ⟨rfl, rfl, rfl, rfl⟩
  | newLocal => exact newLocal_wakes hI hS hpc
  | newPush => exact hplain rfl ⟨rfl, rfl, rfl, rfl⟩ rfl rfl rfl rfl
  | newPushed => exact hplain rfl ⟨rfl, rfl, rfl, rfl⟩ rfl rfl rfl rfl
  | newStart => exact hplain rfl ⟨rfl, rfl, rfl, rfl⟩ rfl rfl rfl rfl
  | loopNone => exact hplain rfl ⟨rfl, rfl, rfl, rfl⟩ rfl (heapMin_bag _) rfl rfl
  | loopMin => exact hplain rfl ⟨rfl, rfl, rfl, rfl⟩ rfl (heapMin_bag _) rfl rfl
  | eintr => exact hself
  | ready _ _ hd => exact ready_wakes hpc hd
  | pollEvent hw hx => exact pollEvent_wakes hpc hw hx
  | timersLock => exact hplain rfl ⟨rfl, rfl, rfl, rfl⟩ rfl rfl rfl rfl
  | timersMin =>
    refine hplain rfl ?_ rfl (heapMin_bag _) rfl rfl
    split <;> exact ⟨rfl, rfl, rfl, rfl⟩
  | timersPop => exact pop_wakes hI hR hpc
  | @timersUnlock u v again =>
    refine hplain rfl ?_ rfl rfl rfl rfl
    cases again
    · obtain ⟨h1, h2, h3, h4⟩ := afterTimers_alike u v
      exact ⟨h1, h2, h3, h4⟩
    · exact ⟨rfl, rfl, rfl, rfl⟩

/-- **An action is a step of the wake-up protocol**, unless user code wakes a coroutine that
waits. -/
theorem Moves.wakes (hok : ¬Meddles s a) (hm : Moves seqOps preemption s t l a s') :
    s.wake.Step s'.wake := by
  rcases hm.stride_or_apart hl with ⟨c, k, i, rfl, he, -, hsig, hst⟩ | hA
  · refine hst.wakes hI hR hS hl he hsig fun x hx => ?_
    by_contra hne
    refine hok ⟨t, i, c, x, rfl, ?_, hne⟩
    simp only [State.running, hl, he, hsig, hx, List.isEmpty_nil, if_true]
  · refine wake_aside (fun d => ?_) (fun d hd => ?_) (by rw [hA.timerHeap]) hA.poller hA.eventWait
    · rw [hA.pc]; exact Pc.Alike.refl _
    · rcases hA.word d with h | ⟨he, rfl⟩
      · rw [h]
      · -- a coroutine that dies has returned from its start function
        have hsit := hI.control.sits hl
        simp only [Sits, he] at hsit
        rw [hsit.2.1] at hd
        exact absurd rfl hd

end

/-! ## Runs -/

/-- The wake-up protocol is sound in the state, with what the proof that it stays so needs. -/
structure Waking (preemption : Bool) (s : SeqState) : Prop where
  inv : Inv preemption s
  holding : Holding s
  rooted : Rooted s
  sound : s.wake.Sound

/-- User code wakes only coroutines that `sched_new_coroutine` has returned, and none that waits. -/
def Undisturbed (s : SeqState) (a : Act) : Prop := Proper s a ∧ ¬Meddles s a

theorem Undisturbed.overlay {ds : Cid → List (ReschedPc Unit Unit)} (hfree : Free s ds a)
    (h : Undisturbed (s.overlay ds) a) : Undisturbed s a :=
  ⟨h.1, fun hm => h.2 (hm.overlay hfree)⟩

theorem Waking.step (h : Waking preemption s) (hok : Undisturbed s a) (hsafe : Safe s a)
    (hs : step seqOps preemption s a = some s') (hf : s'.failure = none) : Waking preemption s' := by
  obtain ⟨-, t, l, hl, -, hm⟩ := step_moves seqOps hs hf
  exact ⟨h.inv.step hok.1 hsafe hs hf, h.holding.moves hm, h.rooted.moves h.holding hl hm,
    h.sound.step (hm.wakes h.inv h.rooted h.sound hl hok.2)⟩

theorem Waking.init (localSize : Nat) (garbage : Nat → TimerWait) (state errno threadErrno : Int) :
    Waking preemption (seqInit localSize garbage state errno threadErrno) := by
  have hctx := seqInit_context localSize garbage state errno threadErrno
  refine ⟨Inv.init .., schedInit_holding, fun c w hw => ?_, Wake.Sound.idle (fun x => ?_) ?_ ?_ ?_ ?_ rfl⟩
  · rw [hctx] at hw
    revert hw
    split <;> exact nofun
  · simp only [State.wake, hctx]
    split <;> rfl
  · have hbag : (seqInit localSize garbage state errno threadErrno).timerHeap.bag = 0 :=
      Multiset.card_eq_zero.1 (Heap.card_bag _)
    simp only [State.wake, hbag, Multiset.map_zero]
  · funext x
    simp only [State.wake, hctx]
    split <;> rfl
  · funext x
    simp only [State.wake, hctx]
    split <;> rfl
  · funext x
    simp only [State.wake, hctx]
    split <;> rfl

/-- **The wake-up protocol is sound in every reachable state**, until the program stops. -/
theorem Reach.waking {localSize : Nat} {garbage : Nat → TimerWait} {state errno threadErrno : Int}
    (h : Reach seqOps preemption (fun s a => Undisturbed s a ∧ Safe s a)
      (seqInit localSize garbage state errno threadErrno) s)
    (hf : s.failure = none) : Waking preemption s := by
  refine h.invariant (P := fun s => s.failure = none → Waking preemption s)
    (fun _ => Waking.init ..) ?_ hf
  intro s s' a hW hok hs hf
  exact (hW (step_moves seqOps hs hf).1).step hok.1 hok.2 hs hf

end Lwthread.Scheduler
