import Lwthread.Scheduler.Frame
import Mathlib.Logic.Basic

/-!
# The event loop coroutine

In the default build a thread that is between scheduler operations either executes its event loop or
has it on its run list, because the thread keeps its event loop at all times and keeps nothing twice.
So a call of `sched_dequeue_locked` finds a coroutine: the event loop, unless the event loop itself
is yielding, which it does only when the list is not empty.

What `sched_resched` dequeues is not the coroutine that it has just enqueued, since that went to the
back of a list that was not empty (`Fronted`).
-/

namespace Lwthread.Scheduler

open Lwthread.Util Lwthread.Platform Custody

variable {s s' : SeqState} {t : Tid} {l : LocalSched Unit} {c : Cid}

/-- The points of `sched_resched` and `sched_suspend`. -/
@[simp] def Pc.Switching {ι δ : Type} : Pc ι δ → Prop
  | .resched _ _ => True
  | .suspendBlock _ => True
  | .suspendDequeue _ _ _ => True
  | .suspendCmpxchg _ _ _ => True
  | .suspendEnqueue _ _ _ => True
  | .suspendUnblock _ => True
  | _ => False

theorem Pc.seat_of_not_switching {pc : Pc Unit Unit} (h : ¬pc.Switching) :
    Context.seat c ⟨pc, []⟩ = .on c ∧ Context.current c ⟨pc, []⟩ = c := by
  cases pc <;> simp_all [Context.seat]

/-- A coroutine that yields has found others on the run list, and has gone behind them. -/
@[simp] def Fronted (c : Cid) (x : Context Unit Unit) (q : List Cid) : Prop :=
  match x.pc with
  | .resched (.enqueue _ _) _ => q ≠ []
  | .resched (.dequeue _) _ => ∃ y ys, q = y :: ys ∧ y ≠ c
  | _ => True

theorem Fronted.of_not_yielding {x : Context Unit Unit} {q : List Cid}
    (h : ∀ r ret, x.pc ≠ .resched r ret) : Fronted c x q := by
  unfold Fronted
  split
  · next hpc => exact absurd hpc (h _ _)
  · next hpc => exact absurd hpc (h _ _)
  · trivial

theorem Context.Resumes.fronted {x : Context Unit Unit} {q : List Cid} (h : x.Resumes)
    (hsig : x.sig = []) : Fronted c x q := by
  unfold Context.Resumes at h
  rw [hsig] at h
  unfold Fronted
  split
  · next hpc => rw [hpc] at h; simp at h
  · next hpc => rw [hpc] at h; simp at h
  · trivial

/-- A coroutine that executes outside a switch is not on the run list. -/
theorem Inv.not_mem_list {preemption : Bool} (hI : Inv preemption s) (hl : s.sched t = some l)
    (he : l.exec = .on c) (hseat : (s.context c).seat c = .on c) : c ∉ s.queues.list t := by
  have hnd := hI.kept.excl.nodup (.thread t)
  rw [own, seat_of_exec hl he, hseat, Seat.tokens, Multiset.singleton_add] at hnd
  exact (Multiset.nodup_cons.1 hnd).1

section

variable (hI : Inv false s) (hl : s.sched t = some l)

include hI hl

theorem Inv.running (he : l.exec = .on c) : s.running t = some (c, (s.context c).pc) := by
  simp only [State.running, hl, he, hI.control.quiet rfl c, List.isEmpty_nil, if_true]

theorem Yield.fronted {r : ReschedPc Unit Unit} {r' : Option (ReschedPc Unit Unit)}
    {ret : ReschedRet} (he : l.exec = .on c) (hctx : s.context c = ⟨.resched r ret, []⟩)
    (h : Yield seqOps false s t l r s' r') (hF : Fronted c (s.context c) (s.queues.list t)) :
    Fronted c ⟨ret.next r', []⟩ (s'.queues.list t) := by
  have hret : Fronted c ⟨ret.pc, []⟩ (s'.queues.list t) := by
    refine Fronted.of_not_yielding fun r₁ ret₁ => ?_
    cases ret <;> simp [ReschedRet.pc]
  rw [hctx] at hF
  cases h with
  | idle => exact hret
  | busy hne => simpa [ReschedRet.next, seqOps] using hne
  | assert => exact hF
  | push hq => rw [seqOps_push] at hq; cases hq
  | @pushed d p q hq =>
    rw [seqOps_push] at hq
    cases hq
    obtain ⟨y, ys, hy⟩ := List.exists_cons_of_ne_nil hF
    refine ⟨y, ys ++ [d], by simp [hy], ?_⟩
    rintro rfl
    exact hI.not_mem_list hl he (by rw [hctx]; rfl) (by rw [hy]; simp)
  | pop hq => exact absurd hq seqOps_pop_ne
  | popped => trivial
  | switch => trivial
  | resumed => exact hret

theorem Moves.fronted {a : Act} (he : l.exec = .on c) (h : Moves seqOps false s t l a s')
    (hF : Fronted c (s.context c) (s.queues.list t)) :
    Fronted c (s'.context c) (s'.queues.list t) := by
  cases h with
  | @stride d k i _ he' hk hsig hst =>
    obtain rfl : d = c := by rw [he] at he'; cases he'; rfl
    generalize hpc : (s.context d).pc = pc at hst
    have hctx : s.context d = ⟨pc, []⟩ := by rw [← hpc, ← hsig]
    have hgoto : ∀ {s₀ : SeqState} {pc' : Pc Unit Unit} {q : List Cid},
        (∀ r ret, pc' = .resched r ret → r = .check) → Fronted d ((s₀.goto d pc').context d) q := by
      intro s₀ pc' q h
      unfold Fronted
      rw [State.goto_pc]
      split
      · cases h _ _ rfl
      · cases h _ _ rfl
      · trivial
    cases hst with
    | resched hy =>
      have := hy.fronted hI hl he hctx hF
      simp only [Fronted, State.goto_pc]
      exact this
    | flow hf =>
      refine hgoto fun r ret hr => ?_
      cases hf with
      | resched => cases hr; rfl
      | timersNone =>
        unfold afterTimers at hr
        split at hr <;> cases hr
        rfl
      | _ => cases hr
    | setErrno => exact hF
    | eintr => exact hF
    | ret => exact hF
    | park =>
      refine Fronted.of_not_yielding fun r ret h => ?_
      cases (State.goto_pc (s.modCoro _ _) _).symm.trans h
    | trampoline => exact hgoto (by rename_i start _ _ _; cases start <;> simp [Start.pc])
    | suspendUnblock => exact hgoto (by rename_i ret _; cases ret <;> simp [SuspendRet.pc])
    | rouse => exact hgoto (by rename_i ret _ _ _; cases ret <;> simp [ScheduleRet.pc])
    | schedulePushed => exact hgoto (by rename_i ret _ _; cases ret <;> simp [ScheduleRet.pc])
    | fetchAdd => exact hgoto (by split <;> simp)
    | timersMin => exact hgoto (by split <;> simp)
    | timersUnlock =>
      refine hgoto fun r ret hr => ?_
      unfold afterTimers at hr
      split at hr
      · cases hr
      · split at hr <;> cases hr
        rfl
    | _ => exact hgoto (by simp)
  | @handler d k r rs s₁ r' he' hk hsig hy =>
    rw [hI.control.quiet rfl] at hsig
    cases hsig
  | death hdt => rw [he] at hdt; cases hdt
  | signal hp => cases hp

/-- Between switches, the thread executes its event loop or has it on its run list, and not both. -/
theorem Inv.current_xor_linked {e : Cid} (he : l.exec = .on c) (hpc : ¬(s.context c).pc.Switching)
    (hloop : s.loopOf e = some t) : Xor (l.currentCoro = e) (e ∈ s.queues.list t) := by
  have hsig := hI.control.quiet rfl c
  have hsit := hI.control.sits hl
  simp only [Sits, he] at hsit
  have hctx : s.context c = ⟨(s.context c).pc, []⟩ := by rw [← hsig]
  obtain ⟨hseat, hcur⟩ := Pc.seat_of_not_switching (c := c) hpc
  rw [← hctx] at hseat hcur
  rw [hcur] at hsit
  have hnot := hI.not_mem_list hl he hseat
  have hhome := hI.kept.home hloop
  rw [own, seat_of_exec hl he, hseat, Seat.tokens, Multiset.singleton_add, Multiset.mem_cons,
    Multiset.mem_coe] at hhome
  rw [hsit.2.1]
  rcases hhome with rfl | hmem
  · exact .inl ⟨rfl, hnot⟩
  · exact .inr ⟨hmem, fun h => hnot (h ▸ hmem)⟩

/-- What `sched_dequeue_locked` takes is not the current coroutine. -/
theorem Inv.dequeued_ne (hrun : l.started = true) {p : Unit} (hp : s.dequeues t = some p)
    (hF : ∀ c, l.exec = .on c → Fronted c (s.context c) (s.queues.list t)) :
    ∃ x xs, s.queues.list t = x :: xs ∧ x ≠ l.currentCoro := by
  obtain ⟨x, xs, hx⟩ := List.exists_cons_of_ne_nil (hI.dequeues hl hrun hp)
  refine ⟨x, xs, hx, ?_⟩
  have hsit := hI.control.sits hl
  unfold State.dequeues at hp
  simp only [hl] at hp
  rcases he : l.exec with c | _ | d | y <;> simp only [he, reduceCtorEq, Sits] at hp hsit
  · have hsig := hI.control.quiet rfl c
    simp only [hsig] at hp
    have hF := hF c he
    generalize hpc : (s.context c).pc = pc at hp
    have hctx : s.context c = ⟨pc, []⟩ := by rw [← hpc, ← hsig]
    rw [hsit.2.1]
    cases pc with
    | resched r ret =>
      cases r with
      | dequeue d =>
        rw [hctx] at hF ⊢
        obtain ⟨y, ys, hy, hne⟩ := hF
        rw [hx] at hy
        cases hy
        exact hne
      | _ => cases hp
    | suspendDequeue d q ret =>
      rw [hctx]
      rintro rfl
      exact hI.not_mem_list hl he (by rw [hctx]; rfl) (by rw [hx]; simp)
    | _ => cases hp
  · rintro rfl
    refine hI.kept.live ⟨.thread t, ?_⟩ hsit.1
    rw [own, hx]
    simp

end

/-- **The event loop of a thread is current or on the run list.** In every reachable state of the
default build and for every scheduler thread: between scheduler operations exactly one of the two
holds, a call of `sched_dequeue_locked` finds a coroutine that is not the current one, and the
sentinel is never unlinked. -/
theorem event_loop_current_xor_linked {localSize : Nat} {garbage : Nat → TimerWait}
    {state errno threadErrno : Int}
    (h : Reach seqOps false Proper (seqInit localSize garbage state errno threadErrno) s) :
    s.failure ≠ some .sentinel ∧
      (s.failure = none → ∀ t l, s.sched t = some l → l.started = true →
        ∃ e, l.eventLoopCoro = some e ∧
          (∀ c, l.exec = .on c → ¬(s.context c).pc.Switching →
            Xor (l.currentCoro = e) (e ∈ s.queues.list t)) ∧
          ∀ p, s.dequeues t = some p → ∃ x xs, s.queues.list t = x :: xs ∧ x ≠ l.currentCoro) := by
  have h' : Reach seqOps false (fun s a => Proper s a ∧ Safe s a)
      (seqInit localSize garbage state errno threadErrno) s :=
    h.mono fun hs hok => ⟨hok, default_safe hs⟩
  refine ⟨h'.sound.2, fun hf t l hl hrun => ?_⟩
  have hI := h'.inv hf
  obtain ⟨e, hle, hloop⟩ := hI.control.loops hl hrun
  refine ⟨e, hle, fun c he hpc => hI.current_xor_linked hl he hpc hloop, fun p hp => ?_⟩
  refine hI.dequeued_ne hl hrun hp fun c he => ?_
  exact h'.per_thread (P := fun _ c x q => x.sig = [] → Fronted c x q) id hf (fun _ => trivial)
    (fun _ _ => trivial) (fun hres => hres.fronted)
    (fun hI _ hl _ hm he hF _ => hm.fronted hI hl he (hF (hI.control.quiet rfl _))) hl hrun he
    (hI.control.quiet rfl c)

/-- The first thread yields: it has put its coroutine behind the event loop. -/
theorem event_loop_current_xor_linked_yield :
    ∃ s l, run seqOps false (fun _ => Act.leavesAsleep) seqStart
        (.tick 0 (.op .resched) :: List.replicate 3 (.tick 0 .step)) = some s ∧
      s.sched 0 = some l ∧ s.queues.list 0 = [1, 0] ∧
      ∃ x xs, s.queues.list 0 = x :: xs ∧ x ≠ l.currentCoro := by
  obtain ⟨s, l, hr, hl, hlist, hst, hd, hf⟩ :
      ∃ s l, run seqOps false (fun _ => Act.leavesAsleep) seqStart
          (.tick 0 (.op .resched) :: List.replicate 3 (.tick 0 .step)) = some s ∧
        s.sched 0 = some l ∧ s.queues.list 0 = [1, 0] ∧ l.started = true ∧
        s.dequeues 0 = some () ∧ s.failure = none :=
    ⟨_, _, rfl, rfl, rfl, rfl, rfl, rfl⟩
  obtain ⟨e, -, -, hne⟩ :=
    (event_loop_current_xor_linked (Reach.run hr Act.leavesAsleep.proper .init)).2 hf 0 l hl hst
  exact ⟨s, l, hr, hl, hlist, hne () hd⟩

end Lwthread.Scheduler
