import Lwthread.Scheduler.PreemptLock
import Lwthread.Scheduler.TimerMemory

/-!
# What may stop the program

The assertions of `scheduler.c` and the accesses that a wrong pointer would spoil are the failures of
the machine. When user code wakes nobody that waits, three of them remain, and all three come from
outside the scheduler: two coroutines wait on one file descriptor, the timer heap cannot grow, or
`epoll_wait` fails (`StopsWith`). In particular no run uses a coroutine that has been freed, a
`struct event_wait` whose call has returned, or the sentinel of an empty run list, and no coroutine is
freed on a run list. With `SCHED_PREEMPTION` a signal may also trip the assertion of
`sched_enqueue_locked`.

The accesses to the memory of the timers are no failures of the machine: of them
`Scheduler/TimerMemory.lean` says what holds, and in which runs (`run_stops_only`).

Custody gives that what a run list has and what a thread has dequeued is live, the wake-up protocol
that what a timer or an event is to wake is. Only the start function of a coroutine needs an
invariant of its own (`Begun`).
-/

namespace Lwthread.Scheduler

open Lwthread.Util Lwthread.Platform Custody

/-! ## Start functions -/

section

variable {Q ι δ : Type} {ops : ListOps Q ι δ} {preemption : Bool} {s s' : State Q ι δ} {t : Tid}
  {l : LocalSched δ} {c d : Cid} {i : Input} {pc : Pc ι δ} {a : Act}

/-- A coroutine that has not run has a start function. -/
def Begun (s : State Q ι δ) : Prop :=
  ∀ {c k}, (s.context c).pc = .trampoline → s.coro c = some k → k.start ≠ none

/-- The start functions after a step: as before, but for a coroutine that the step has made. -/
structure StartsKept (s s' : State Q ι δ) : Prop where
  start : ∀ {d k'}, s'.coro d = some k' → (∃ k, s.coro d = some k ∧ k'.start = k.start) ∨
    d = s.coros ∧ ((s'.context d).pc = .trampoline → k'.start ≠ none)

theorem State.modCoro_start {x : Cid} {f : Coroutine → Coroutine} {k' : Coroutine}
    (h : (s.modCoro x f).coro d = some k') (hf : ∀ k, (f k).start = k.start) :
    ∃ k, s.coro d = some k ∧ k'.start = k.start := by
  change Function.update s.coro x ((s.coro x).map f) d = some k' at h
  by_cases hx : d = x
  · subst hx
    rw [Function.update_self] at h
    obtain ⟨k, hk, rfl⟩ := Option.map_eq_some_iff.1 h
    exact ⟨k, hk, hf k⟩
  · rw [Function.update_of_ne hx] at h
    exact ⟨k', h, rfl⟩

theorem StartsKept.same (h : s'.coro = s.coro) : StartsKept s s' := by
  refine ⟨fun {d k'} hk => .inl ⟨k', ?_, rfl⟩⟩
  rwa [h] at hk

theorem StartsKept.modCoro (s₀ : State Q ι δ) {x : Cid} {f : Coroutine → Coroutine}
    (h : s'.coro = (s₀.modCoro x f).coro) (hc : s₀.coro = s.coro)
    (hf : ∀ k, (f k).start = k.start) : StartsKept s s' := by
  refine ⟨fun {d k'} hk => .inl ?_⟩
  rw [h] at hk
  rw [← hc]
  exact State.modCoro_start hk hf

theorem State.setPreempt_coro (b : Bool) : (s.setPreempt preemption t b).coro = s.coro := by
  unfold State.setPreempt
  split <;> rfl

theorem Yield.startsKept {s₁ s' : State Q ι δ} {r : ReschedPc ι δ} {r' : Option (ReschedPc ι δ)}
    (h : Yield ops preemption s t l r s₁ r') (hc : s'.coro = s₁.coro) : StartsKept s s' := by
  cases h with
  | switch =>
    exact .modCoro (s.setPreempt preemption t true) hc (State.setPreempt_coro true) fun _ => rfl
  | resumed => exact .same (hc.trans (State.setPreempt_coro false))
  | _ => exact .same hc

theorem Stride.startsKept (h : Stride ops preemption s t l c i pc s') : StartsKept s s' := by
  cases h with
  | resched hy => exact hy.startsKept rfl
  | newCoroutine =>
    refine ⟨fun {d k'} hk => ?_⟩
    by_cases hd : d = s.coros
    · subst hd
      have hk : k' = ⟨STATE_BLOCKED, 0, some .user⟩ :=
        Option.some.inj (hk.symm.trans (Function.update_self _ _ _))
      exact .inr ⟨rfl, fun _ => by rw [hk]; exact Option.some_ne_none _⟩
    · exact .inl ⟨k', (Function.update_of_ne hd _ _).symm.trans hk, rfl⟩
  | @newLocal x slot state errno hi =>
    refine ⟨fun {d k'} hk => ?_⟩
    obtain ⟨k, hk, hs⟩ := State.modCoro_start hk fun _ => rfl
    by_cases hd : d = s.coros
    · -- the coroutine of the new thread does not begin at the trampoline
      refine .inr ⟨hd, fun hpc => absurd hpc ?_⟩
      by_cases hc : d = c
      · subst hc
        rw [State.goto_pc]
        rintro ⟨⟩
      · rw [State.goto_ne _ _ hc, hd]
        simp [State.modCoro, schedNewLocal]
    · exact .inl ⟨k, (Function.update_of_ne hd _ _).symm.trans hk, hs⟩
  | trampoline => exact .same (State.setPreempt_coro false)
  | ret => exact .same (State.setPreempt_coro true)
  | suspendBlock => exact .same (State.setPreempt_coro true)
  | suspendUnblock => exact .same (State.setPreempt_coro false)
  | wait => exact .modCoro s rfl rfl fun _ => rfl
  | eventWait => exact .modCoro s rfl rfl fun _ => rfl
  | suspendTake => exact .modCoro s rfl rfl fun _ => rfl
  | park => exact .modCoro s rfl rfl fun _ => rfl
  | rouse => exact .modCoro s rfl rfl fun _ => rfl
  | wake => exact .modCoro s rfl rfl fun _ => rfl
  | _ => exact .same rfl

theorem Moves.startsKept (h : Moves ops preemption s t l a s') : StartsKept s s' := by
  cases h with
  | stride _ _ _ hst => exact hst.startsKept
  | handler _ _ _ hy => exact hy.startsKept rfl
  | death hd =>
    generalize l.exec = e at hd
    cases hd with
    | free =>
      refine ⟨fun {d k'} hk => .inl ⟨k', ?_, rfl⟩⟩
      have hd : d ≠ l.currentCoro := by
        rintro rfl
        exact Option.some_ne_none k' (hk.symm.trans (Function.update_self _ _ _))
      exact (Function.update_of_ne hd _ _).symm.trans hk
    | _ => exact .same rfl
  | signal => exact .same rfl

end

variable {preemption : Bool} {s s' : SeqState} {t : Tid} {l : LocalSched Unit} {c x : Cid} {a : Act}

/-- A coroutine comes to the trampoline only when it is made. -/
theorem Stride.not_trampoline {i : Input}
    (h : Stride seqOps preemption s t l c i (s.context c).pc s') : (s'.context c).pc ≠ .trampoline := by
  generalize hpc : (s.context c).pc = pc at h
  have hgo : ∀ {s₀ : SeqState} {pc' : Pc Unit Unit}, pc' ≠ .trampoline →
      ((s₀.goto c pc').context c).pc ≠ .trampoline := by
    intro s₀ pc' h
    rwa [State.goto_pc]
  -- a step that leaves the point as it was is not one of the trampoline
  have hstay : ∀ {s₀ : SeqState}, s₀.context = s.context → pc ≠ .trampoline →
      (s₀.context c).pc ≠ .trampoline := by
    intro s₀ hctx hne
    rwa [hctx, hpc]
  cases h with
  | @resched r ret s₁ r' hy => cases r' <;> cases ret <;> exact hgo (by rintro ⟨⟩)
  | flow hf => exact hgo (hf.like (c := c)).loop.2.2
  | @trampoline _ start => cases start <;> exact hgo (by rintro ⟨⟩)
  | setErrno => exact hstay rfl (by rintro ⟨⟩)
  | ret => exact hstay (State.setPreempt_context true) (by rintro ⟨⟩)
  | eintr => exact hstay rfl (by rintro ⟨⟩)
  | park => simp [State.modSched, State.goto]
  | @suspendUnblock ret => exact hgo (ret.plain c).loop.2
  | @rouse x ret => exact hgo (ret.plain c).loop.2
  | @schedulePushed x p ret => exact hgo (ret.plain c).loop.2
  | fetchAdd =>
    refine hgo ?_
    split <;> rintro ⟨⟩
  | timersMin =>
    refine hgo ?_
    split <;> rintro ⟨⟩
  | @timersUnlock u v again =>
    cases again
    · exact hgo (afterTimers_plain c u v).loop.2
    · exact hgo (by rintro ⟨⟩)
  | _ => exact hgo (by rintro ⟨⟩)

theorem Begun.moves (hI : Inv preemption s) (hB : Begun s) (hl : s.sched t = some l)
    (hm : Moves seqOps preemption s t l a s') : Begun s' := by
  intro d k' hpc hk'
  have hold : (s.context d).pc = .trampoline → k'.start ≠ none := by
    intro hpc₀
    rcases hm.startsKept.start hk' with ⟨k, hk, hs⟩ | ⟨-, hs⟩
    · rw [hs]
      exact hB hpc₀ hk
    · exact hs hpc
  rcases hm.stride_or_apart hl with ⟨c, k, i, rfl, he, -, -, hst⟩ | hA
  · have hdc : d ≠ c := fun h => hst.not_trampoline (h ▸ hpc)
    rcases hst.context_ne hdc with h | ⟨hd, -, h⟩
    · exact hold (by rwa [h] at hpc)
    · rcases hm.startsKept.start hk' with ⟨k, hk, -⟩ | ⟨-, hs⟩
      · -- the coroutine is new
        have := hI.kept.known (.inr (State.word_ne_none (State.word_of_coro s hk)))
        rw [hd] at this
        exact absurd this (lt_irrefl _)
      · exact hs hpc
  · exact hold (by rwa [hA.pc] at hpc)

/-! ## Live coroutines -/

theorem State.word_eq_none (h : s.coro x = none) : s.word x = none := by
  unfold State.word
  rw [h]
  rfl

section

variable (hW : Waking preemption s) (hl : s.sched t = some l)

include hW

/-- What a holder keeps has not been freed. -/
theorem Waking.live {h : Holder} (hx : x ∈ own s h) : s.coro x ≠ none := fun hn =>
  hW.inv.kept.live ⟨h, hx⟩ (State.word_eq_none hn)

include hl

end

/-! ## One step -/

section

variable (hW : Waking preemption s) (hB : Begun s) (hok : ¬Meddles s a)

include hW hB hok

end

section

variable {localSize : Nat} {garbage : Nat → TimerWait} {state errno threadErrno : Int}

end

/-- A check on actions for `Contained`. -/
def contained (s : SeqState) (a : Act) : Bool :=
  undisturbed s a && s.keepsTimers a

theorem contained.sound (s : SeqState) (a : Act) (h : contained s a = true) : Contained s a := by
  obtain ⟨hund, hkeeps⟩ := Bool.and_eq_true_iff.1 h
  obtain ⟨hshrinks, hevicts⟩ := State.keepsTimers.sound hkeeps
  exact ⟨undisturbed.sound s a hund, hshrinks, hevicts⟩

end Lwthread.Scheduler
