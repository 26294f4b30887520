import Lwthread.Scheduler.Coverage
import Lwthread.Scheduler.WaitTimes
import Lwthread.Util.HeapBounds

/-!
# The memory of the timers

The record of a timed wait is on the stack of `sched_wait`, and the timer heap has a pointer to it in a
block that grows and shrinks with the heap. Two places of the source go wrong about this memory.
`heap_pop_min` may shrink the block and goes on as if it had not (`State.Shrinks`); the machine goes on
with it, over an array without an end, and the log of the block's accesses shows the accesses past its
end. `sched_poll_timeout` takes the minimum of the heap and reads its record without the lock, and in
between another thread may take it out of the heap (`State.Evicts`) and wake the coroutine that waits;
the machine goes on with the deadline that the record had.

In a run in which neither happens and user code wakes nobody that waits, the heap stays within its
block, and every record that the scheduler reads is that of a call that has not returned
(`TimersSound`).
-/

namespace Lwthread.Scheduler

open Lwthread.Util Lwthread.Platform Custody

section

variable {Q ι δ : Type}

/-- The record that a point is about to read: `timer_expiration` does for its deadline, and
`sched_handle_timers` after its `heap_pop_min` for its coroutine. -/
def Pc.readsTimer : Pc ι δ → Option TimerWait
  | .loopExpire _ w => some w
  | .timersExpire _ _ w => some w
  | .timersPop _ _ w => some w
  | _ => none

/-- The record that an action reads. -/
def State.readsTimer (s : State Q ι δ) : Act → Option TimerWait
  | .signal _ => none
  | .tick t _ => (s.running t).bind fun r => r.2.readsTimer

/-- A `heap_pop_min` that shrinks the block of the timer heap. -/
def State.Shrinks (s : State Q ι δ) (a : Act) : Prop :=
  ∃ t i c u v w, a = .tick t i ∧ s.running t = some (c, .timersPop u v w) ∧ PopShrinks s.timerHeap

/-- A `heap_pop_min` that takes out a timer which the event loop `e` has found in `sched_poll_timeout`
and not yet read. -/
def State.Evicts (s : State Q ι δ) (a : Act) : Prop :=
  ∃ t i c u v w, a = .tick t i ∧ s.running t = some (c, .timersPop u v w) ∧
    ∃ e < s.coros, ∃ u' w', (s.context e).pc = .loopExpire u' w' ∧
      (heapPopMin .block s.timerHeap).1 = some w'

/-- The timer heap has accessed its block within its bounds, every record in it is that of a call of
`sched_wait` that has not returned, and so is any record that the next action reads. -/
structure TimersSound (s : State Q ι δ) (n : Cid → Option TimerWait) : Prop where
  inBounds : InBounds s.timerHeap
  records : RecordsLive s n
  reads : ∀ a w, s.readsTimer a = some w → n w.coro = some w

/-- A check on actions, for both. -/
def State.keepsTimers (s : State Q ι δ) (a : Act) : Bool :=
  match s.running a.thread with
  | some (_, .timersPop _ _ _) => !decide (PopShrinks s.timerHeap) &&
    (List.range s.coros).all fun e =>
      match (s.context e).pc with
      | .loopExpire _ w => (heapPopMin .block s.timerHeap).1 ≠ some w
      | _ => true
  | _ => true

theorem State.keepsTimers.sound {s : State Q ι δ} {a : Act} (h : s.keepsTimers a = true) :
    ¬s.Shrinks a ∧ ¬s.Evicts a := by
  refine ⟨?_, ?_⟩
  · rintro ⟨t, i, c, u, v, w, rfl, hrun, hshrinks⟩
    simp [keepsTimers, Act.thread, hrun, hshrinks] at h
  · rintro ⟨t, i, c, u, v, w, rfl, hrun, e, he, u', w', hpc, hpop⟩
    simp only [keepsTimers, Act.thread, hrun, Bool.and_eq_true, List.all_eq_true, List.mem_range] at h
    have hother := h.2 e he
    simp [hpc, hpop] at hother

end

variable {preemption : Bool} {s s' : SeqState} {t : Tid} {l : LocalSched Unit} {c : Cid} {a : Act}
  {w : TimerWait} {n : Cid → Option TimerWait}

/-- User code wakes nobody that waits, and no `heap_pop_min` does one or the other. -/
structure Contained (s : SeqState) (a : Act) : Prop where
  undisturbed : Undisturbed s a
  keeps : ¬s.Shrinks a
  leaves : ¬s.Evicts a

/-! ## Handlers that do nothing -/

section

variable {ds : Cid → List (ReschedPc Unit Unit)}

theorem State.Shrinks.overlay (hfree : Free s ds a) (h : s.Shrinks a) : (s.overlay ds).Shrinks a := by
  obtain ⟨t, i, c, u, v, w, rfl, hrun, hshrinks⟩ := h
  exact ⟨t, i, c, u, v, w, rfl, (running_overlay hfree).trans hrun, hshrinks⟩

theorem State.Evicts.overlay (hfree : Free s ds a) (h : s.Evicts a) : (s.overlay ds).Evicts a := by
  obtain ⟨t, i, c, u, v, w, rfl, hrun, hother⟩ := h
  exact ⟨t, i, c, u, v, w, rfl, (running_overlay hfree).trans hrun, hother⟩

theorem Contained.overlay (hfree : Free s ds a) (h : Contained (s.overlay ds) a) : Contained s a :=
  ⟨Undisturbed.overlay hfree h.undisturbed, fun hs => h.keeps (hs.overlay hfree),
    fun he => h.leaves (he.overlay hfree)⟩

/-- A thread that executes the code of a coroutine is not in such a handler. -/
theorem Free.of_running {r : Cid × Pc Unit Unit} (h : (s.overlay ds).running a.thread = some r) :
    Free s ds a := by
  intro l c hl he
  have hl' : (s.overlay ds).sched a.thread = some l := hl
  unfold State.running at h
  simp only [hl', he] at h
  split at h
  · next hsig =>
    change (ds c ++ (s.context c).sig).isEmpty = true at hsig
    exact (List.append_eq_nil_iff.1 (List.isEmpty_iff.1 hsig)).1
  · cases h

theorem TimersSound.overlay (h : TimersSound s n) : TimersSound (s.overlay ds) n := by
  refine ⟨h.inBounds, ⟨h.records.live, h.records.once⟩, fun a w hr => ?_⟩
  cases a with
  | signal => cases hr
  | tick t i =>
    obtain ⟨r, hrun, hw⟩ := Option.bind_eq_some_iff.1 hr
    have hfree : Free s ds (.tick t i) := Free.of_running hrun
    exact h.reads (.tick t i) w
      (Option.bind_eq_some_iff.2 ⟨r, (running_overlay hfree).symm.trans hrun, hw⟩)

end

/-! ## The timer found by `sched_poll_timeout` -/

/-- A timer that `sched_poll_timeout` has found and not yet read is in the heap. -/
def FoundKept (s : SeqState) : Prop :=
  ∀ e w, (s.context e).pc.expires = some w → w ∈ s.timerHeap.bag

theorem Heaped.mem_popMin_of_ne (hH : Heaped s) (hw : w ∈ s.timerHeap.bag)
    (hne : (heapPopMin .block s.timerHeap).1 ≠ some w) :
    w ∈ (heapPopMin .block s.timerHeap).2.bag := by
  have hi : s.timerHeap.items ≠ 0 := by
    intro hi
    have hcard := Multiset.card_pos_iff_exists_mem.2 ⟨w, hw⟩
    rw [Heap.card_bag, hi] at hcard
    exact absurd hcard (lt_irrefl 0)
  rw [← hH.bag_popMin hi] at hw
  refine (Multiset.mem_cons.1 hw).resolve_left fun hcell => hne ?_
  rw [heapPopMin_fst hi, hcell]

theorem afterTimers_expires (u : Tid) (v : Int) : (afterTimers u v : Pc Unit Unit).expires = none := by
  unfold afterTimers
  split <;> rfl

/-- `sched_poll_timeout` finds its timer in the heap. -/
theorem Stride.found {i : Input} (hst : Stride seqOps preemption s t l c i (s.context c).pc s')
    (h : (s'.context c).pc.expires = some w) : w ∈ s'.timerHeap.bag := by
  generalize hpc : (s.context c).pc = pc at hst
  have hout : ∀ {s₀ : SeqState} {pc' : Pc Unit Unit}, s' = s₀.goto c pc' → pc'.expires = none →
      w ∈ s'.timerHeap.bag := by
    rintro s₀ pc' rfl hpc'
    rw [State.goto_pc, hpc'] at h
    cases h
  cases hst with
  | @resched r ret s₁ r' hy =>
    cases r' with
    | none => cases ret <;> exact hout rfl rfl
    | some r' => exact hout rfl rfl
  | flow hf =>
    cases hf with
    | timersNone => exact hout rfl (afterTimers_expires _ _)
    | _ => exact hout rfl rfl
  | @trampoline k start => cases start <;> exact hout rfl rfl
  | setErrno => simp [State.modSched, hpc] at h
  | ret => simp [State.modSched, hpc] at h
  | park => simp [State.modSched, State.goto] at h
  | @suspendUnblock ret => cases ret <;> exact hout rfl rfl
  | @rouse x ret => cases ret <;> exact hout rfl rfl
  | @schedulePushed x p ret => cases ret <;> exact hout rfl rfl
  | fetchAdd => refine hout rfl ?_; split <;> rfl
  | @loopMin u m hm =>
    rw [State.goto_pc] at h
    obtain rfl := Option.some.inj h
    exact (heapMin_bag s.timerHeap).symm ▸ mem_bag_of_heapMin hm
  | eintr => rw [hpc] at h; cases h
  | timersMin => refine hout rfl ?_; split <;> rfl
  | @timersUnlock u v again =>
    refine hout rfl ?_
    cases again
    · exact afterTimers_expires u v
    · rfl
  | _ => exact hout rfl rfl

/-- Nothing else than an eviction takes such a timer out of the heap. -/
theorem FoundKept.stride {i : Input} (hI : Inv preemption s) (hK : FoundKept s)
    (hno : ∀ u v w, (s.context c).pc = .timersPop u v w → ∀ e w', (s.context e).pc.expires = some w' →
      (heapPopMin .block s.timerHeap).1 ≠ some w')
    (hst : Stride seqOps preemption s t l c i (s.context c).pc s') : FoundKept s' := by
  intro d w hd
  by_cases hdc : d = c
  · subst hdc
    exact hst.found hd
  · have hd : (s.context d).pc.expires = some w := by
      rcases hst.context_ne hdc with h | ⟨-, -, h | ⟨u, h⟩⟩
      · rw [← h]; exact hd
      · rw [h] at hd; cases hd
      · rw [h] at hd; cases hd
    have hw := hK d w hd
    have hstep := hst.heapStep
    generalize (s.context c).pc = pc at hstep hno
    cases hstep with
    | same h => rwa [h]
    | min h => rwa [h, heapMin_bag]
    | push _ h =>
      rw [h, heapPush_bag]
      exact Multiset.mem_cons_of_mem hw
    | pop h =>
      rw [h]
      exact hI.heaped.mem_popMin_of_ne hw (hno _ _ _ rfl d w hd)

/-! ## Runs -/

section

variable {localSize : Nat} {garbage : Nat → TimerWait} {state errno threadErrno : Int}

end

/-- On two processors the main coroutine waits. The event loop of the other thread takes the minimum of
the heap, and before it reads it, the event loop of the main thread finds the timer due and wakes the
main coroutine, which returns from `sched_wait`. -/
def returnsBeforeRead : List Act :=
  let steps (t : Tid) (n : Nat) : List Act := List.replicate n (.tick t .step)
  .tick 0 (.op .newCoroutine) :: steps 0 2 ++ [.tick 0 (.garbage 0 0)] ++ steps 0 3 ++ steps 1 1 ++
    [.tick 1 (.epoll (.ready []))] ++ steps 1 8 ++ [.tick 1 (.op .ret)] ++ steps 1 5 ++
    [.tick 0 (.op (.wait ⟨5, 0⟩))] ++ steps 0 9 ++ steps 1 1 ++
    [.tick 0 (.clock ⟨5, 0⟩), .tick 0 (.epoll (.ready []))] ++ steps 0 4 ++ [.tick 0 (.clock ⟨5, 0⟩)] ++
    steps 0 12

/-- **`sched_poll_timeout` may read a record after its call has returned**: the condition on the runs of
`Noted.timersSound` is one that the source does not see to. -/
theorem poll_timeout_reads_returned :
    ∃ s n, Noted seqOps false Undisturbed noteWaits (seqInit 2 (fun _ => ⟨⟨0, 0⟩, 0⟩) 0 0 0)
        (fun _ => none) s n ∧ s.failure = none ∧ (s.context 0).pc = .user ∧ n 0 = none ∧
      ∀ now, s.readsTimer (.tick 1 (.clock now)) = some ⟨⟨5, 0⟩, 0⟩ := by
  obtain ⟨s, n, hr, hf, hpc, hn, hrun⟩ :
      ∃ s n, noteRun seqOps false undisturbed noteWaits (seqInit 2 (fun _ => ⟨⟨0, 0⟩, 0⟩) 0 0 0)
          (fun _ => none) returnsBeforeRead = some (s, n) ∧ s.failure = none ∧
        (s.context 0).pc = .user ∧ n 0 = none ∧ s.running 1 = some (3, .loopExpire 1 ⟨⟨5, 0⟩, 0⟩) :=
    ⟨_, _, rfl, rfl, rfl, rfl, rfl⟩
  refine ⟨s, n, Noted.run hr undisturbed.sound .init, hf, hpc, hn, fun now => ?_⟩
  simp only [State.readsTimer, hrun]
  rfl

end Lwthread.Scheduler
