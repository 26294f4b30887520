import Lwthread.Scheduler.Pointers

/-!
# Operations on run lists under way

A step of the machine over nodes performs at most one statement of an operation on a run list: of the
list of its own thread, or of that of a thread that it is about to start. `Turn` says how such a
statement takes an operation further, and `Stride.forget`, `Yield.forget` and `Death.forget` that the
step does nothing over sequences, or is a step of the same kind there.
-/

namespace Lwthread.Scheduler

open Lwthread.Util Lwthread.Platform Rings

/-- An operation on a run list that has read it: `list_push_back` of the node of `x`, or
`list_pop_front`. -/
inductive Edit where
  | push (x : Cid) (p : PushPc Node)
  | pop (p : PopPc Node)

@[simp] def pushEdit (x : Cid) : PushPc Node → Option Edit
  | .back => none
  | p => some (.push x p)

@[simp] def popEdit : PopPc Node → Option Edit
  | .front => none
  | p => some (.pop p)

@[simp] def EnqPc.edit (x : Cid) : EnqPc (PushPc Node) → Option Edit
  | .assert => none
  | .push p => pushEdit x p

@[simp] def ReschedPc.edit : ReschedPc (PushPc Node) (PopPc Node) → Option Edit
  | .enqueue current p => p.edit current
  | .dequeue p => popEdit p
  | _ => none

/-- The operation on the run list of the thread that executes the coroutine. -/
@[simp] def Pc.edit : Pc (PushPc Node) (PopPc Node) → Option Edit
  | .resched r _ => r.edit
  | .suspendDequeue _ p _ => popEdit p
  | .suspendEnqueue coro p _ => p.edit coro
  | .scheduleEnqueue coro p _ => p.edit coro
  | _ => none

/-- The operation on the run list of a thread that the coroutine is about to start. -/
@[simp] def Pc.fills : Pc (PushPc Node) (PopPc Node) → Option (Tid × Edit)
  | .newEnqueue coro sched p => (p.edit coro).map (sched, ·)
  | _ => none

/-! ## One statement -/

/-- What a statement does to the memory `m`, the sequences `q` and the operation on the list of `u`. -/
inductive Turn (m : Mem Node) (q : Seq) (u : Tid) :
    Option Edit → Mem Node → Seq → Option Edit → Prop
  | keep : Turn m q u none m q none
  | push {x p m' p'} (hq : ptrOps.push m u x p = (m', some p')) :
      Turn m q u (pushEdit x p) m' q (pushEdit x p')
  | pushed {x p m'} (hq : ptrOps.push m u x p = (m', none)) :
      Turn m q u (pushEdit x p) m' (seqOps.push q u x ()).1 none
  | pop {p m' p'} (hq : ptrOps.pop m u p = (m', .inl p')) (hne : q.list u ≠ []) :
      Turn m q u (popEdit p) m' q (popEdit p')
  | popped {p m' x xs} (hq : ptrOps.pop m u p = (m', .inr (some x))) (hx : q.list u = x :: xs) :
      Turn m q u (popEdit p) m' (seqOps.pop q u ()).1 none

/-- What a step of the code of a coroutine that goes from `pc` to `pc'` on the thread `t` does to the
lists. -/
inductive Shift (s : PtrState) (q : Seq) (t : Tid) (pc pc' : Pc (PushPc Node) (PopPc Node))
    (s' : PtrState) (q' : Seq) : Prop
  | own (hT : Turn s.queues q t pc.edit s'.queues q' pc'.edit) (hf : pc.fills = none)
      (hf' : pc'.fills = none) (hcoros : s'.coros = s.coros) (hlocals : s'.locals = s.locals)
  | fill {x u p e'} (hpc : pc = .newEnqueue x u (.push p))
      (hT : Turn s.queues q u (pushEdit x p) s'.queues q' e') (he' : pc'.edit = none)
      (hf' : pc'.fills = e'.map (u, ·)) (hcoros : s'.coros = s.coros)
      (hlocals : s'.locals = s.locals)
  | coroutine (hpc : pc = .user) (hpc' : pc' = .newLoad s.coros)
      (hm : s'.queues = ptrOps.listNodeInit s.queues s.coros)
      (hq : q' = seqOps.listNodeInit q s.coros) (hcoros : s'.coros = s.coros + 1)
      (hlocals : s'.locals = s.locals)
  | thread {x slot} (hpc : pc = .newLocal x slot) (hpc' : pc' = .newEnqueue x s.locals .assert)
      (hm : s'.queues = ptrOps.listNodeInit (ptrOps.listInit s.queues s.locals) s.coros)
      (hq : q' = seqOps.listNodeInit (seqOps.listInit q s.locals) s.coros)
      (hcoros : s'.coros = s.coros + 1) (hlocals : s'.locals = s.locals + 1)

section

variable {preemption : Bool} {s s' s₁ : PtrState} {q : Seq} {t : Tid} {l : LocalSched (PopPc Node)}
  {c : Cid} {i : Input} {r : ReschedPc (PushPc Node) (PopPc Node)}
  {r' : Option (ReschedPc (PushPc Node) (PopPc Node))} {pc pc' : Pc (PushPc Node) (PopPc Node)}

theorem seqOps_pop_cons {x : Cid} {xs : List Cid} (h : q.list t = x :: xs) (p : Unit) :
    seqOps.pop q t p = ((seqOps.pop q t ()).1, .inr (some x)) := by
  simp only [seqOps, h]

/-! ## `sched_resched` -/

/-- A step of `sched_resched`, if what it reads of the lists is as in the sequences. -/
theorem Yield.forget (h : Yield ptrOps preemption s t l r s₁ r')
    (hempty : r = .check → ptrOps.listEmpty s.queues t = (q.list t).isEmpty)
    (hassert : ∀ {x}, r.asserts = some x → q.linked x = false)
    (hne : ∀ {p}, r = .dequeue p → q.list t ≠ [])
    (hpop : ∀ {p m x}, r = .dequeue p → ptrOps.pop s.queues t p = (m, .inr (some x)) →
      ∃ xs, q.list t = x :: xs) :
    ∃ q', Turn s.queues q t r.edit s₁.queues q' (r'.bind ReschedPc.edit) ∧
      (s₁.forget q' = s.forget q ∧ r'.map ReschedPc.forget = some r.forget ∨
        Yield seqOps preemption (s.forget q) t l.forget r.forget (s₁.forget q')
          (r'.map ReschedPc.forget)) := by
  cases h with
  | idle he => exact ⟨q, .keep, .inr (.idle ((hempty rfl).symm.trans he))⟩
  | busy he => exact ⟨q, .keep, .inr (.busy ((hempty rfl).symm.trans he))⟩
  | assert => exact ⟨q, .keep, .inr (.assert (hassert rfl))⟩
  | push hq => exact ⟨q, .push hq, .inl ⟨rfl, rfl⟩⟩
  | pushed hq => exact ⟨_, .pushed hq, .inr (.pushed rfl)⟩
  | pop hq => exact ⟨q, .pop hq (hne rfl), .inl ⟨rfl, rfl⟩⟩
  | popped hq =>
    obtain ⟨xs, hx⟩ := hpop rfl hq
    exact ⟨_, .popped hq hx, .inr (.popped (seqOps_pop_cons hx ()))⟩
  | @switch x k hp hk =>
    refine ⟨q, ?_, .inr ?_⟩
    · unfold State.setPreempt
      split <;> exact .keep
    · have hs : Yield seqOps preemption (s.forget q) t l.forget (.switch x) _ (some .resumed) :=
        .switch hp hk
      rw [← forget_setPreempt] at hs
      rw [forget_modSched _ _ _
        (g := ({ · with currentCoro := x, errno := k.privateErrno, exec := .on x })) fun _ => rfl]
      exact hs
  | resumed hp =>
    refine ⟨q, ?_, .inr ?_⟩
    · unfold State.setPreempt
      split <;> exact .keep
    · rw [forget_setPreempt]
      exact .resumed hp

/-! ## The code of a coroutine -/

theorem Flow.forget (h : Flow ptrOps s i pc pc')
    (hempty : ∀ {u}, pc = .loopTop u → ptrOps.listEmpty s.queues u = (q.list u).isEmpty)
    (hassert : ∀ {x}, pc.asserts = some x → q.linked x = false) :
    Flow seqOps (s.forget q) i pc.forget pc'.forget ∧ pc.edit = none ∧ pc'.edit = none ∧
      pc.fills = none ∧ pc'.fills = none := by
  cases h with
  | resched hi => exact ⟨.resched hi, rfl, rfl, rfl, rfl⟩
  | suspend hi => exact ⟨.suspend hi, rfl, rfl, rfl, rfl⟩
  | schedule hi => exact ⟨.schedule hi, rfl, rfl, rfl, rfl⟩
  | suspendAssert => exact ⟨.suspendAssert (hassert rfl), rfl, rfl, rfl, rfl⟩
  | scheduleAssert => exact ⟨.scheduleAssert (hassert rfl), rfl, rfl, rfl, rfl⟩
  | newAssert => exact ⟨.newAssert (hassert rfl), rfl, rfl, rfl, rfl⟩
  | newFull hc => exact ⟨.newFull hc, rfl, rfl, rfl, rfl⟩
  | newRoom hc => exact ⟨.newRoom hc, rfl, rfl, rfl, rfl⟩
  | loopEmpty he => exact ⟨.loopEmpty ((hempty rfl).symm.trans he), rfl, rfl, rfl, rfl⟩
  | loopBusy he => exact ⟨.loopBusy ((hempty rfl).symm.trans he), rfl, rfl, rfl, rfl⟩
  | loopExpire hi => exact ⟨.loopExpire hi, rfl, rfl, rfl, rfl⟩
  | pollAgain => exact ⟨.pollAgain, rfl, rfl, rfl, rfl⟩
  | pollDone => exact ⟨.pollDone, rfl, rfl, rfl, rfl⟩
  | pollTaken hw hn => exact ⟨.pollTaken hw hn, rfl, rfl, rfl, rfl⟩
  | timersNone he =>
    refine ⟨?_, rfl, ?_, rfl, ?_⟩
    · rw [afterTimers_forget]
      exact .timersNone he
    · unfold afterTimers
      split <;> rfl
    · unfold afterTimers
      split <;> rfl
  | timersSome he => exact ⟨.timersSome he, rfl, rfl, rfl, rfl⟩
  | timersDue hi hd => exact ⟨.timersDue hi hd, rfl, rfl, rfl, rfl⟩
  | timersLater hi hd => exact ⟨.timersLater hi hd, rfl, rfl, rfl, rfl⟩

theorem setPreempt_queues (b : Bool) : (s.setPreempt preemption t b).queues = s.queues := by
  unfold State.setPreempt
  split <;> rfl

theorem setPreempt_counts (b : Bool) :
    (s.setPreempt preemption t b).coros = s.coros ∧ (s.setPreempt preemption t b).locals = s.locals := by
  unfold State.setPreempt
  split <;> exact ⟨rfl, rfl⟩

/-- A step of the code of a coroutine, if what it reads of the lists is as in the sequences. -/
theorem Stride.forget (h : Stride ptrOps preemption s t l c i pc s') (hc : (s.context c).pc = pc)
    (hcheck : pc.edit = none → ptrOps.listEmpty s.queues t = (q.list t).isEmpty)
    (hempty : ∀ {u}, pc = .loopTop u → ptrOps.listEmpty s.queues u = (q.list u).isEmpty)
    (hassert : ∀ {x}, pc.asserts = some x → q.linked x = false)
    (hne : ∀ {p}, pc.dequeues = some p → q.list t ≠ [])
    (hpop : ∀ {p m x}, pc.dequeues = some p → ptrOps.pop s.queues t p = (m, .inr (some x)) →
      ∃ xs, q.list t = x :: xs) :
    ∃ q', Shift s q t pc (s'.context c).pc s' q' ∧
      (s'.forget q' = s.forget q ∨
        Stride seqOps preemption (s.forget q) t l.forget c i pc.forget (s'.forget q')) := by
  -- a step that leaves the lists alone
  have hgo : ∀ {s₀ : PtrState} {pc' : Pc (PushPc Node) (PopPc Node)}, s' = s₀.goto c pc' →
      s₀.queues = s.queues → s₀.coros = s.coros → s₀.locals = s.locals →
      pc.edit = none → pc.fills = none → pc'.edit = none → pc'.fills = none →
      Stride seqOps preemption (s.forget q) t l.forget c i pc.forget
        ((s₀.forget q).goto c pc'.forget) →
      ∃ q', Shift s q t pc (s'.context c).pc s' q' ∧
        (s'.forget q' = s.forget q ∨
          Stride seqOps preemption (s.forget q) t l.forget c i pc.forget (s'.forget q')) := by
    rintro s₀ pc' rfl hq hcoros hlocals he hf he' hf' hst
    rw [State.goto_pc]
    refine ⟨q, .own ?_ hf hf' hcoros hlocals, .inr ?_⟩
    · rw [he, he', show (s₀.goto c pc').queues = s.queues from hq]
      exact .keep
    · rw [forget_goto]
      exact hst
  cases h with
  | flow hf =>
    obtain ⟨hf, he, he', hfills, hfills'⟩ := hf.forget hempty hassert
    exact hgo rfl rfl rfl rfl he hfills he' hfills' (.flow hf)
  | waitLock hl => exact hgo rfl rfl rfl rfl rfl rfl rfl rfl (.waitLock hl)
  | waitPush hf => exact hgo rfl rfl rfl rfl rfl rfl rfl rfl (.waitPush hf)
  | waitUnlock => exact hgo rfl rfl rfl rfl rfl rfl rfl rfl .waitUnlock
  | eventRegister hr => exact hgo rfl rfl rfl rfl rfl rfl rfl rfl (.eventRegister hr)
  | eventUnregister hr hw he => exact hgo rfl rfl rfl rfl rfl rfl rfl rfl (.eventUnregister hr hw he)
  | wait hi => exact hgo rfl rfl rfl rfl rfl rfl rfl rfl (.wait hi)
  | eventWait hi => exact hgo rfl rfl rfl rfl rfl rfl rfl rfl (.eventWait hi)
  | wake hk hb => exact hgo rfl rfl rfl rfl rfl rfl rfl rfl (.wake hk hb)
  | loopNone hm => exact hgo rfl rfl rfl rfl rfl rfl rfl rfl (.loopNone hm)
  | loopMin hm => exact hgo rfl rfl rfl rfl rfl rfl rfl rfl (.loopMin hm)
  | ready hi hl hd => exact hgo rfl rfl rfl rfl rfl rfl rfl rfl (.ready hi hl hd)
  | pollEvent hw hx => exact hgo rfl rfl rfl rfl rfl rfl rfl rfl (.pollEvent hw hx)
  | timersLock hl => exact hgo rfl rfl rfl rfl rfl rfl rfl rfl (.timersLock hl)
  | timersPop => exact hgo rfl rfl rfl rfl rfl rfl rfl rfl .timersPop
  | @resched r ret s₁ r' hy =>
    obtain ⟨q', hT, hor⟩ := hy.forget (fun hr => hcheck (by rw [hr]; rfl)) hassert
      (fun hr => hne (by rw [hr]; rfl)) fun hr hq => hpop (by rw [hr]; rfl) hq
    have hnext : (ret.next r').edit = r'.bind ReschedPc.edit ∧ (ret.next r').fills = none := by
      cases r' with
      | none => cases ret <;> exact ⟨rfl, rfl⟩
      | some => exact ⟨rfl, rfl⟩
    obtain ⟨hcoros, hlocals⟩ : s₁.coros = s.coros ∧ s₁.locals = s.locals := by
      cases hy with
      | switch => unfold State.setPreempt; split <;> exact ⟨rfl, rfl⟩
      | resumed => unfold State.setPreempt; split <;> exact ⟨rfl, rfl⟩
      | _ => exact ⟨rfl, rfl⟩
    refine ⟨q', ?_, ?_⟩
    · rw [State.goto_pc]
      refine .own ?_ rfl hnext.2 hcoros hlocals
      rw [hnext.1]
      exact hT
    · rw [forget_goto, ReschedRet.forget_next]
      rcases hor with ⟨hs, hr⟩ | hy'
      · rw [hs, hr]
        refine .inl (State.goto_eq_self _ _ ?_)
        simp only [State.forget, Context.forget, hc]
        rfl
      · exact .inr (.resched hy')
  | @trampoline k start hp hk hs =>
    have hset := forget_setPreempt s q t preemption false
    refine hgo rfl (setPreempt_queues _) (setPreempt_counts _).1 (setPreempt_counts _).2 rfl rfl ?_ ?_ ?_
    · cases start <;> rfl
    · cases start <;> rfl
    · rw [hset, Start.forget_pc]
      exact .trampoline hp hk hs
  | suspendBlock hp =>
    refine hgo rfl (setPreempt_queues _) (setPreempt_counts _).1 (setPreempt_counts _).2 rfl rfl rfl rfl ?_
    rw [forget_setPreempt]
    exact .suspendBlock hp
  | @suspendUnblock ret hp =>
    refine hgo rfl (setPreempt_queues _) (setPreempt_counts _).1 (setPreempt_counts _).2 rfl rfl ?_ ?_ ?_
    · cases ret <;> rfl
    · cases ret <;> rfl
    · rw [forget_setPreempt, SuspendRet.forget_pc]
      exact .suspendUnblock hp
  | @rouse x ret k hk hb =>
    refine hgo rfl rfl rfl rfl rfl rfl ?_ ?_ ?_
    · cases ret <;> rfl
    · cases ret <;> rfl
    · rw [ScheduleRet.forget_pc]
      exact .rouse hk hb
  | @abort current x ret k hk hb =>
    refine hgo rfl rfl rfl rfl rfl rfl rfl rfl ?_
    rw [forget_modSched _ _ _ (g := ({ · with currentCoro := current, errno := k.privateErrno }))
      fun _ => rfl]
    exact .abort hk hb
  | @newStart u =>
    refine hgo rfl rfl rfl rfl rfl rfl rfl rfl ?_
    rw [forget_modSched _ _ _ (g := fun l => { l with eventLoopCoro := some l.currentCoro, started := true })
      fun _ => rfl]
    exact .newStart
  | fetchAdd =>
    refine hgo rfl rfl rfl rfl rfl rfl ?_ ?_ ?_
    · split <;> rfl
    · split <;> rfl
    · rw [apply_ite Pc.forget]
      exact .fetchAdd
  | @timersMin u v =>
    refine hgo rfl rfl rfl rfl rfl rfl ?_ ?_ ?_
    · split <;> rfl
    · split <;> rfl
    · have hst : Stride seqOps preemption (s.forget q) t l.forget c i (.timersMin u v) _ := .timersMin
      have hheap : (s.forget q).timerHeap = s.timerHeap := rfl
      rw [hheap] at hst
      rcases hmin : (heapMin s.timerHeap).1 with _ | w
      · rw [hmin] at hst
        exact hst
      · rw [hmin] at hst
        exact hst
  | timersUnlock =>
    refine hgo rfl rfl rfl rfl rfl rfl ?_ ?_ ?_
    · split
      · rfl
      · unfold afterTimers; split <;> rfl
    · split
      · rfl
      · unfold afterTimers; split <;> rfl
    · rw [apply_ite Pc.forget, afterTimers_forget]
      exact .timersUnlock
  | @setErrno e hi =>
    refine ⟨q, by rw [State.modSched_context, hc]; exact .own .keep rfl rfl rfl rfl, .inr ?_⟩
    rw [forget_modSched _ _ _ (g := ({ · with errno := e })) fun _ => rfl]
    exact .setErrno hi
  | ret hi hk hs hp =>
    refine ⟨q, ?_, .inr ?_⟩
    · rw [State.modSched_context, State.setPreempt_context, hc]
      refine .own ?_ rfl rfl (setPreempt_counts _).1 (setPreempt_counts _).2
      rw [show (State.modSched _ t _).queues = s.queues from setPreempt_queues _]
      exact .keep
    · rw [forget_modSched _ _ _ (g := ({ · with exec := .free })) fun _ => rfl, forget_setPreempt]
      exact .ret hi hk hs hp
  | eintr hi => exact ⟨q, by rw [hc]; exact .own .keep rfl rfl rfl rfl, .inr (.eintr hi)⟩
  | @park current x ret k hk hb =>
    refine ⟨q, by rw [State.modSched_context, State.goto_pc]; exact .own .keep rfl rfl rfl rfl, .inr ?_⟩
    rw [forget_modSched _ _ _ (g := ({ · with exec := .on x })) fun _ => rfl, forget_goto]
    exact .park hk hb
  | @suspendPop current p ret m p' hq =>
    refine ⟨q, by rw [State.goto_pc]; exact .own (.pop hq (hne rfl)) rfl rfl rfl rfl, .inl ?_⟩
    rw [forget_goto]
    refine State.goto_eq_self _ _ ?_
    simp only [State.forget, Context.forget, hc]
    rfl
  | @suspendTake current p ret m x k hq hk =>
    obtain ⟨xs, hx⟩ := hpop rfl hq
    refine ⟨_, by rw [State.goto_pc]; exact .own (.popped hq hx) rfl rfl rfl rfl, .inr ?_⟩
    rw [forget_goto, forget_modSched _ _ _
      (g := ({ · with currentCoro := x, errno := k.privateErrno })) fun _ => rfl]
    exact .suspendTake (seqOps_pop_cons hx ()) hk
  | @suspendPush x p ret m p' hq =>
    refine ⟨q, by rw [State.goto_pc]; exact .own (.push hq) rfl rfl rfl rfl, .inl ?_⟩
    rw [forget_goto]
    refine State.goto_eq_self _ _ ?_
    simp only [State.forget, Context.forget, hc]
    rfl
  | @suspendPushed x p ret m hq =>
    refine ⟨_, by rw [State.goto_pc]; exact .own (.pushed hq) rfl rfl rfl rfl, .inr ?_⟩
    rw [forget_goto]
    exact .suspendPushed rfl
  | @schedulePush x p ret m p' hq =>
    refine ⟨q, by rw [State.goto_pc]; exact .own (.push hq) rfl rfl rfl rfl, .inl ?_⟩
    rw [forget_goto]
    refine State.goto_eq_self _ _ ?_
    simp only [State.forget, Context.forget, hc]
    rfl
  | @schedulePushed x p ret m hq =>
    refine ⟨(seqOps.push q t x ()).1, ?_, .inr ?_⟩
    · rw [State.goto_pc]
      refine .own ?_ rfl ?_ rfl rfl
      · rw [show (ret.pc : Pc (PushPc Node) (PopPc Node)).edit = none by cases ret <;> rfl]
        exact .pushed hq
      · cases ret <;> rfl
    · rw [forget_goto, ScheduleRet.forget_pc]
      exact .schedulePushed rfl
  | @newPush x u p m p' hq =>
    refine ⟨q, by rw [State.goto_pc]; exact .fill rfl (.push hq) rfl rfl rfl rfl, .inl ?_⟩
    rw [forget_goto]
    refine State.goto_eq_self _ _ ?_
    simp only [State.forget, Context.forget, hc]
    rfl
  | @newPushed x u p m hq =>
    refine ⟨_, by rw [State.goto_pc]; exact .fill rfl (.pushed hq) rfl rfl rfl rfl, .inr ?_⟩
    rw [forget_goto]
    exact .newPushed rfl
  | newCoroutine hi =>
    refine ⟨_, by rw [State.goto_pc]; exact .coroutine rfl rfl rfl rfl rfl rfl, .inr ?_⟩
    rw [forget_goto, forget_makeCoro]
    exact .newCoroutine hi
  | @newLocal x slot state errno hi =>
    refine ⟨_, by rw [State.goto_pc]; exact .thread rfl rfl rfl rfl rfl rfl, .inr ?_⟩
    have hst : Stride seqOps preemption (s.forget q) t l.forget c i (.newLocal x slot) _ := .newLocal hi
    rw [← forget_newLocal s q ptrOps] at hst
    rw [forget_goto]
    exact hst

/-! ## `free_coro` -/

def Exec.edit : Exec (PopPc Node) → Option Edit
  | .dequeue p => popEdit p
  | _ => none

theorem Death.forget {e : Exec (PopPc Node)} (h : Death ptrOps s t l e s')
    (hfree : e = .free → q.linked l.currentCoro = false) (hl : s.sched t = some l) (he : l.exec = e)
    (hne : ∀ {p}, e = .dequeue p → q.list t ≠ [])
    (hpop : ∀ {p m x}, e = .dequeue p → ptrOps.pop s.queues t p = (m, .inr (some x)) →
      ∃ xs, q.list t = x :: xs) :
    ∃ q' l', s'.sched t = some l' ∧ Turn s.queues q t e.edit s'.queues q' l'.exec.edit ∧
      (s'.forget q' = s.forget q ∨
        Death seqOps (s.forget q) t l.forget e.forget (s'.forget q')) := by
  have hsched : ∀ {s₀ : PtrState} {f : LocalSched (PopPc Node) → LocalSched (PopPc Node)},
      s₀.sched t = s.sched t → (s₀.modSched t f).sched t = some (f l) := by
    intro s₀ f h
    rw [State.modSched_self, h, hl]
    rfl
  cases h with
  | free =>
    refine ⟨q, _, hsched rfl, .keep, .inr ?_⟩
    rw [forget_modSched _ _ _ (g := ({ · with exec := .dequeue () })) fun _ => rfl]
    exact .free (hfree rfl)
  | @pop p m p' hq =>
    refine ⟨q, _, hsched rfl, .pop hq (hne rfl), .inl ?_⟩
    rw [forget_modSched _ _ _ (g := ({ · with exec := .dequeue () })) fun _ => rfl]
    unfold State.modSched
    rw [Function.update_eq_self_iff.2 ?_]
    · rfl
    · simp only [State.forget, hl, Option.map_some, LocalSched.forget, he, Exec.forget]
  | @popped p m x hq =>
    obtain ⟨xs, hx⟩ := hpop rfl hq
    refine ⟨_, _, hsched rfl, .popped hq hx, .inr ?_⟩
    rw [forget_modSched _ _ _ (g := ({ · with exec := .restore x })) fun _ => rfl]
    exact .popped (seqOps_pop_cons hx ())
  | @restore x =>
    refine ⟨q, _, hsched rfl, .keep, .inr ?_⟩
    rw [forget_modSched _ _ _ (g := ({ · with currentCoro := x, exec := .on x })) fun _ => rfl]
    exact .restore

end

end Lwthread.Scheduler
