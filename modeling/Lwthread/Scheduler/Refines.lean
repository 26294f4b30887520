import Lwthread.Scheduler.Signals
import Lwthread.Scheduler.Stops

/-!
# The machine over nodes refines the machine over sequences

Most of what is proved about runs is proved over sequences, where `list_push_back` and `list_pop_front`
are one step each. It holds of the machine over nodes too, where each of their statements is a step and
the threads interleave between them: without the memory and the points inside a list operation, every
state that it reaches is one that the machine over sequences reaches (`pointers_refine`). The actions
are the same, but for those that take a list operation one statement further, which do nothing there.

`Moves` says what an action can do and leaves open for what input; `Pc.Takes` has the inputs that a point
takes, and with it `Moves` gives the step back (`Moves.step`).
-/

namespace Lwthread.Scheduler

open Lwthread.Util Lwthread.Platform Rings Custody

/-! ## Steps from their cases -/

section

variable {Q ι δ : Type} {ops : ListOps Q ι δ} {preemption : Bool} {s s' s₁ : State Q ι δ} {t : Tid}
  {l : LocalSched δ} {c : Cid} {k : Coroutine} {i : Input} {a : Act}

/-- The inputs that a point takes, as far as its step does not say it: a step in which the environment
has nothing to choose takes `step`. -/
def Pc.Takes (i : Input) : Pc ι δ → Prop
  | .user => True
  | .newLocal _ _ => True
  | .timersExpire _ _ _ => True
  | .pollWait _ _ => True
  | .loopExpire _ _ => True
  | _ => i = .step

theorem pcStep_takes (h : pcStep ops preemption s t c k l i = some s') :
    (s.context c).pc.Takes i := by
  unfold pcStep at h
  generalize (s.context c).pc = pc at h ⊢
  cases pc with
  | user => trivial
  | newLocal => trivial
  | timersExpire => trivial
  | pollWait => trivial
  | loopExpire => trivial
  | pollEvents u v batch full =>
    cases batch <;>
    · cases i with
      | step => rfl
      | _ => cases h
  | _ =>
    cases i with
    | step => rfl
    | _ => cases h

theorem schedBlockPreempt_eq (hp : preemption = true → l.preemptLock = false)
    (f : State Q ι δ → State Q ι δ) :
    schedBlockPreempt preemption s t l f = f (s.setPreempt preemption t true) := by
  unfold schedBlockPreempt State.setPreempt
  cases preemption with
  | true => rw [if_pos rfl, if_pos rfl, if_neg (by rw [hp rfl]; decide)]
  | false => rfl

theorem schedUnblockPreempt_eq (hp : preemption = true → l.preemptLock = true)
    (f : State Q ι δ → State Q ι δ) :
    schedUnblockPreempt preemption s t l f = f (s.setPreempt preemption t false) := by
  unfold schedUnblockPreempt State.setPreempt
  cases preemption with
  | true => rw [if_pos rfl, if_pos rfl, if_pos (hp rfl)]
  | false => rfl

theorem Yield.schedResched {r : ReschedPc ι δ} {r' : Option (ReschedPc ι δ)}
    (h : Yield ops preemption s t l r s₁ r') (f : State Q ι δ → Option (ReschedPc ι δ) → State Q ι δ) :
    schedResched ops preemption s t l r f = f s₁ r' := by
  cases h with
  | idle he => exact if_pos he
  | busy he => exact if_neg (by rw [he]; decide)
  | assert hn => exact if_neg (by rw [hn]; decide)
  | push hq => simp only [Scheduler.schedResched, schedEnqueueLocked, hq, Option.map_some]
  | pushed hq => simp only [Scheduler.schedResched, schedEnqueueLocked, hq, Option.map_none]
  | pop hq => simp only [Scheduler.schedResched, schedDequeueLocked, hq]
  | popped hq => simp only [Scheduler.schedResched, schedDequeueLocked, hq]
  | @switch x kx hp hk =>
    have hcoro : ((s.setPreempt preemption t true).modCoro l.currentCoro
        ({ · with privateErrno := l.errno })).coro x = some kx := by
      unfold State.modCoro at hk ⊢
      rw [State.setPreempt_coro]
      exact hk
    simp only [Scheduler.schedResched, schedSwitchContext, schedBlockPreempt_eq hp, hcoro]
  | resumed hp => exact schedUnblockPreempt_eq hp fun s => f s none

theorem Flow.pcStep {pc : Pc ι δ} (h : Flow ops s i (s.context c).pc pc)
    (hin : (s.context c).pc.Takes i) :
    pcStep ops preemption s t c k l i = some (s.goto c pc) := by
  unfold Scheduler.pcStep
  generalize (s.context c).pc = pc₀ at h hin ⊢
  cases h with
  | resched hi => subst hi; rfl
  | suspend hi => subst hi; rfl
  | schedule hi => subst hi; rfl
  | suspendAssert hn => subst hin; exact congrArg some (if_neg (by rw [hn]; decide))
  | scheduleAssert hn => subst hin; exact congrArg some (if_neg (by rw [hn]; decide))
  | newAssert hn => subst hin; exact congrArg some (if_neg (by rw [hn]; decide))
  | newFull hc => subst hin; exact congrArg (fun pc => some (s.goto c pc)) (if_pos hc)
  | newRoom hc => subst hin; exact congrArg (fun pc => some (s.goto c pc)) (if_neg (not_le.2 hc))
  | loopEmpty he => subst hin; exact congrArg (fun pc => some (s.goto c pc)) (if_pos he)
  | loopBusy he =>
    subst hin
    exact congrArg (fun pc => some (s.goto c pc)) (if_neg (by rw [he]; decide))
  | loopExpire hi => subst hi; rfl
  | pollAgain => subst hin; rfl
  | pollDone => subst hin; rfl
  | pollTaken hw hn => subst hin; simp only [schedPollEvent, hw, hn]
  | timersNone he => subst hin; exact congrArg (fun pc => some (s.goto c pc)) (if_pos he)
  | timersSome he =>
    subst hin
    exact congrArg (fun pc => some (s.goto c pc)) (if_neg (by rw [he]; decide))
  | timersDue hi hd => subst hi; exact congrArg (fun pc => some (s.goto c pc)) (if_pos hd)
  | timersLater hi hd => subst hi; exact congrArg (fun pc => some (s.goto c pc)) (if_neg hd)

/-- A step of the code of a coroutine, for an input that its point takes. -/
theorem Stride.pcStep (h : Stride ops preemption s t l c i (s.context c).pc s') (hk : s.coro c = some k)
    (hin : (s.context c).pc.Takes i) : pcStep ops preemption s t c k l i = some s' := by
  by_cases hflow : ∃ pc, Flow ops s i (s.context c).pc pc ∧ s' = s.goto c pc
  · obtain ⟨pc, hf, rfl⟩ := hflow
    exact hf.pcStep hin
  unfold Scheduler.pcStep
  generalize (s.context c).pc = pc at h hin hflow ⊢
  cases h with
  | flow hf => exact absurd ⟨_, hf, rfl⟩ hflow
  | resched hy =>
    subst hin
    exact congrArg some (hy.schedResched _)
  | @trampoline kc start hp hkc hs =>
    subst hin
    refine congrArg some ((schedUnblockPreempt_eq hp _).trans ?_)
    rw [State.setPreempt_coro, hkc, Option.bind_some, hs]
    cases start <;> rfl
  | setErrno hi => subst hi; rfl
  | newCoroutine hi => subst hi; rfl
  | wait hi => subst hi; rfl
  | eventWait hi => subst hi; rfl
  | ret hi hk' hs hp =>
    subst hi
    obtain rfl := Option.some.inj (hk.symm.trans hk')
    exact (if_pos hs).trans (congrArg some (schedBlockPreempt_eq hp _))
  | waitLock hl => subst hin; exact if_pos hl
  | waitPush hf => subst hin; exact if_pos hf
  | waitUnlock => subst hin; rfl
  | eventRegister hr => subst hin; exact if_neg (by rw [hr]; decide)
  | eventUnregister hr hw he =>
    subst hin
    dsimp only
    rw [if_pos hr, hw]
    exact if_neg he
  | suspendBlock hp => subst hin; exact congrArg some (schedBlockPreempt_eq hp _)
  | suspendPop hq => subst hin; simp only [schedDequeueLocked, hq]
  | @suspendTake current p ret q x kx hq hkx =>
    subst hin
    have hcoro : (State.modCoro { s with queues := q } current
        ({ · with privateErrno := l.errno })).coro x = some kx := hkx
    simp only [schedDequeueLocked, hq, Scheduler.suspendTake, hcoro]
  | park hk hb => subst hin; simp only [suspendCmpxchg, hk, if_pos hb]
  | abort hk hb => subst hin; simp only [suspendCmpxchg, hk, if_neg hb]
  | suspendPush hq => subst hin; simp only [schedEnqueueLocked, hq, Option.map_some]
  | suspendPushed hq => subst hin; simp only [schedEnqueueLocked, hq, Option.map_none]
  | suspendUnblock hp => subst hin; exact congrArg some (schedUnblockPreempt_eq hp _)
  | rouse hk hb => subst hin; simp only [scheduleXchg, hk, if_pos hb]
  | wake hk hb => subst hin; simp only [scheduleXchg, hk, if_neg (not_not.2 hb)]
  | schedulePush hq => subst hin; simp only [schedEnqueueLocked, hq, Option.map_some]
  | schedulePushed hq => subst hin; simp only [schedEnqueueLocked, hq, Option.map_none]
  | fetchAdd => subst hin; rfl
  | newLocal hi => subst hi; rfl
  | newPush hq => subst hin; simp only [schedEnqueueLocked, hq, Option.map_some]
  | newPushed hq => subst hin; simp only [schedEnqueueLocked, hq, Option.map_none]
  | newStart => subst hin; rfl
  | loopNone hm => subst hin; simp only [hm]
  | loopMin hm => subst hin; simp only [hm]
  | eintr hi => subst hi; rfl
  | ready hi hl hd =>
    subst hi
    simp only [pollReturn, if_pos hl, hd, Option.map_some]
  | pollEvent hw hx => subst hin; simp only [schedPollEvent, hw, hx]
  | timersLock hl => subst hin; exact if_pos hl
  | timersMin => subst hin; rfl
  | timersPop => subst hin; rfl
  | timersUnlock => subst hin; rfl

theorem Death.deathStep (h : Death ops s t l l.exec s') : deathStep ops s t l = some s' := by
  unfold Scheduler.deathStep
  generalize l.exec = e at h ⊢
  cases h with
  | free hn => exact if_neg (by rw [hn]; decide)
  | pop hq => simp only [schedDequeueLocked, hq]
  | popped hq => simp only [schedDequeueLocked, hq]
  | restore => rfl

/-- The input of an action is one that its point takes. -/
def Takes (s : State Q ι δ) (a : Act) : Prop :=
  ∀ t i c pc, a = .tick t i → s.running t = some (c, pc) → pc.Takes i

theorem step_takes (h : step ops preemption s a = some s') : Takes s a := by
  rintro t i c pc rfl hrunning
  have hf := step_failure ops h
  unfold step at h
  rw [if_neg (by rw [hf]; decide)] at h
  unfold threadStep at h
  unfold State.running at hrunning
  rcases hl : s.sched t with _ | l <;> simp only [hl] at h hrunning
  · cases h
  · split at h
    · rcases he : l.exec with d | _ | p | x <;> simp only [he] at h hrunning
      · rcases hk : s.coro d with _ | k <;> simp only [hk] at h
        · cases h
        · rcases hsig : (s.context d).sig with _ | ⟨r, rs⟩ <;> simp only [hsig] at h hrunning
          · obtain ⟨rfl, rfl⟩ := Prod.mk.inj (Option.some.inj hrunning)
            exact pcStep_takes h
          · cases hrunning
      all_goals cases hrunning
    · cases h

/-- **A case of a step is a step**, for an input that its point takes. -/
theorem Moves.step (h : Moves ops preemption s t l a s') (hf : s.failure = none)
    (hl : s.sched t = some l) (hrun : l.started = true) (hin : Takes s a) :
    step ops preemption s a = some s' := by
  have hstop : ¬s.failure.isSome = true := by rw [hf]; decide
  unfold Scheduler.step
  rw [if_neg hstop]
  cases h with
  | @stride c k i s' he hk hsig h =>
    have hrunning : s.running t = some (c, (s.context c).pc) := by
      simp only [State.running, hl, he, hsig, List.isEmpty_nil, if_true]
    simp only [threadStep, hl, hrun, he, hk, hsig, if_true]
    exact h.pcStep hk (hin t i c _ rfl hrunning)
  | handler he hk hsig h =>
    simp only [threadStep, hl, hrun, he, hk, hsig, if_true]
    exact congrArg some (h.schedResched _)
  | death h =>
    have hdeath := h.deathStep
    simp only [threadStep, hl, hrun, if_true]
    rcases he : l.exec with d | _ | p | x
    · rw [he] at h
      cases h
    all_goals exact hdeath
  | signal hp hlock he =>
    simp only [hp, signalStep, hl, hrun, hlock, he, and_self, if_true]

end

/-! ## Steps that stop the program -/

section

variable {preemption : Bool} {s s' : PtrState} {q : Seq} {t : Tid} {l : LocalSched (PopPc Node)}
  {c : Cid} {k : Coroutine} {i : Input} {f : Failure} {a : Act}

theorem schedBlockPreempt_forget {g : PtrState → PtrState} {g' : SeqState → SeqState}
    (hg : ∀ s, (g s).forget q = g' (s.forget q)) :
    (schedBlockPreempt preemption s t l g).forget q =
      schedBlockPreempt preemption (s.forget q) t l.forget g' := by
  unfold schedBlockPreempt
  rw [apply_ite (State.forget · q), apply_ite (State.forget · q), hg, hg,
    forget_modSched _ _ _ (g := ({ · with preemptLock := true })) fun _ => rfl]
  rfl

theorem schedUnblockPreempt_forget {g : PtrState → PtrState} {g' : SeqState → SeqState}
    (hg : ∀ s, (g s).forget q = g' (s.forget q)) :
    (schedUnblockPreempt preemption s t l g).forget q =
      schedUnblockPreempt preemption (s.forget q) t l.forget g' := by
  unfold schedUnblockPreempt
  rw [apply_ite (State.forget · q), apply_ite (State.forget · q), hg, hg,
    forget_modSched _ _ _ (g := ({ · with preemptLock := false })) fun _ => rfl]
  rfl

theorem schedSwitchContext_forget {x : Cid} {g : PtrState → PtrState} {g' : SeqState → SeqState}
    (hg : ∀ s, (g s).forget q = g' (s.forget q)) :
    (schedSwitchContext preemption s t l x g).forget q =
      schedSwitchContext preemption (s.forget q) t l.forget x g' := by
  refine schedBlockPreempt_forget fun s => ?_
  have hcoro : ∀ f, ((s.forget q).modCoro l.currentCoro f).coro x = (s.modCoro l.currentCoro f).coro x :=
    fun _ => rfl
  dsimp only [LocalSched.forget]
  rw [hcoro]
  rcases (s.modCoro l.currentCoro ({ · with privateErrno := l.errno })).coro x with _ | kx
  · rfl
  · dsimp only
    rw [hg, forget_modSched _ _ _
      (g := ({ · with currentCoro := x, errno := kx.privateErrno, exec := .on x })) fun _ => rfl]
    rfl

/-- A step of `sched_resched` that stops the program. -/
theorem schedResched_forget {r : ReschedPc (PushPc Node) (PopPc Node)}
    {g : PtrState → Option (ReschedPc (PushPc Node) (PopPc Node)) → PtrState}
    {g' : SeqState → Option (ReschedPc Unit Unit) → SeqState}
    (hg : ∀ s r, (g s r).forget q = g' (s.forget q) (r.map ReschedPc.forget))
    (h : Stumble ptrOps preemption s t l r f) (hne : f ≠ .enqueue) (hns : f ≠ .sentinel) :
    (schedResched ptrOps preemption s t l r g).forget q =
      schedResched seqOps preemption (s.forget q) t l.forget r.forget g' := by
  cases h with
  | enqueue => exact absurd rfl hne
  | sentinel => exact absurd rfl hns
  | block =>
    simp only [schedResched, ReschedPc.forget]
    exact schedSwitchContext_forget fun s => hg s (some .resumed)
  | dangling =>
    simp only [schedResched, ReschedPc.forget]
    exact schedSwitchContext_forget fun s => hg s (some .resumed)
  | unblock =>
    simp only [schedResched, ReschedPc.forget]
    exact schedUnblockPreempt_forget fun s => hg s none

/-- Points whose step has nothing to do with the run lists and may stop the program. -/
def Pc.Apart : Pc (PushPc Node) (PopPc Node) → Prop
  | .trampoline => True
  | .waitPush _ => True
  | .eventRegister _ _ => True
  | .eventUnregister _ => True
  | .suspendBlock _ => True
  | .suspendCmpxchg _ _ _ => True
  | .suspendUnblock _ => True
  | .scheduleXchg _ _ => True
  | .pollWait _ _ => True
  | .pollEvents _ _ _ _ => True
  | _ => False

theorem pcStep_apart (hpc : (s.context c).pc.Apart) :
    pcStep seqOps preemption (s.forget q) t c k l.forget i =
      (pcStep ptrOps preemption s t c k l i).map (·.forget q) := by
  have hctx : ((s.forget q).context c).pc = (s.context c).pc.forget := rfl
  unfold pcStep
  rw [hctx]
  generalize (s.context c).pc = pc at hpc ⊢
  cases pc with
  | trampoline =>
    cases i with
    | step =>
      refine congrArg some (Eq.symm (schedUnblockPreempt_forget fun s => ?_))
      have hcoro : (s.forget q).coro = s.coro := rfl
      dsimp only [LocalSched.forget]
      rw [hcoro]
      rcases (s.coro l.currentCoro).bind (·.start) with _ | _ | u
      · rfl
      · exact forget_goto s q c .user
      · exact forget_goto s q c (.loopTop u)
    | _ => rfl
  | waitPush w =>
    cases i with
    | step =>
      dsimp only [Pc.forget]
      rw [apply_ite (Option.map (State.forget · q))]
      refine if_congr Iff.rfl (congrArg some ?_) rfl
      dsimp only
      rw [forget_goto]
      rfl
    | _ => rfl
  | eventRegister fd events =>
    cases i with
    | step =>
      dsimp only [Pc.forget]
      rw [apply_ite (Option.map (State.forget · q))]
      refine if_congr Iff.rfl rfl (congrArg some ?_)
      dsimp only
      rw [forget_goto]
      rfl
    | _ => rfl
  | eventUnregister fd =>
    cases i with
    | step =>
      dsimp only [Pc.forget]
      rw [apply_ite (Option.map (State.forget · q))]
      refine if_congr Iff.rfl ?_ rfl
      have hwait : (s.forget q).eventWait c = s.eventWait c := rfl
      rw [hwait]
      rcases s.eventWait c with _ | w
      · rfl
      · dsimp only
        rw [apply_ite (Option.map (State.forget · q))]
        refine if_congr Iff.rfl rfl (congrArg some ?_)
        dsimp only
        rw [forget_goto]
        rfl
    | _ => rfl
  | suspendBlock ret =>
    cases i with
    | step =>
      refine congrArg some (Eq.symm (schedBlockPreempt_forget fun s => ?_))
      rw [forget_goto]
      rfl
    | _ => rfl
  | suspendCmpxchg current x ret =>
    cases i with
    | step =>
      refine congrArg some ?_
      unfold suspendCmpxchg
      have hcoro : (s.forget q).coro current = s.coro current := rfl
      rw [hcoro]
      rcases s.coro current with _ | kc
      · rfl
      · dsimp only
        rw [apply_ite (State.forget · q),
          forget_modSched _ _ _ (g := ({ · with exec := .on x })) fun _ => rfl, forget_goto, forget_goto,
          forget_modSched _ _ _
            (g := ({ · with currentCoro := current, errno := kc.privateErrno })) fun _ => rfl]
        rfl
    | _ => rfl
  | suspendUnblock ret =>
    cases i with
    | step =>
      refine congrArg some (Eq.symm (schedUnblockPreempt_forget fun s => ?_))
      rw [forget_goto, SuspendRet.forget_pc]
    | _ => rfl
  | scheduleXchg x ret =>
    cases i with
    | step =>
      refine congrArg some ?_
      unfold scheduleXchg
      have hcoro : (s.forget q).coro x = s.coro x := rfl
      rw [hcoro]
      rcases s.coro x with _ | kx
      · rfl
      · dsimp only
        rw [apply_ite (State.forget · q), forget_goto, forget_goto, ScheduleRet.forget_pc]
        rfl
    | _ => rfl
  | pollWait u v =>
    cases i with
    | epoll o =>
      cases o with
      | eintr => rfl
      | error => rfl
      | ready events =>
        dsimp only [Pc.forget, pollReturn]
        rw [apply_ite (Option.map (State.forget · q)), Option.map_map]
        refine if_congr Iff.rfl (congrArg (Option.map · _) ?_) rfl
        funext d
        dsimp only [Function.comp_apply]
        rw [forget_goto]
        rfl
    | _ => rfl
  | pollEvents u v batch full =>
    cases batch with
    | nil =>
      cases i with
      | step =>
        refine congrArg some ?_
        dsimp only
        rw [forget_goto, apply_ite Pc.forget]
        rfl
      | _ => rfl
    | cons e rest =>
      cases i with
      | step =>
        refine congrArg some ?_
        unfold schedPollEvent
        have hwait : (s.forget q).eventWait e.1 = s.eventWait e.1 := rfl
        rw [hwait]
        rcases s.eventWait e.1 with _ | w
        · rfl
        · dsimp only
          rcases w.coro with _ | x
          · dsimp only
            rw [forget_goto]
            rfl
          · dsimp only
            rw [forget_goto]
            rfl
      | _ => rfl
  | _ => exact hpc.elim

theorem suspendTake_forget {current x : Cid} {ret : SuspendRet} :
    (suspendTake s t c l current x ret).forget q =
      suspendTake (s.forget q) t c l.forget current x ret := by
  have hcoro : ∀ g, ((s.forget q).modCoro current g).coro x = (s.modCoro current g).coro x := fun _ => rfl
  unfold suspendTake
  dsimp only [LocalSched.forget]
  rw [hcoro]
  rcases (s.modCoro current ({ · with privateErrno := l.errno })).coro x with _ | kx
  · rfl
  · dsimp only
    rw [forget_goto, forget_modSched _ _ _
      (g := ({ · with currentCoro := x, errno := kx.privateErrno })) fun _ => rfl]
    rfl

/-- A call of user code that stops the program does so over sequences. -/
theorem userStep_forget_fails {o : Op} (h : userStep ptrOps preemption s t c k l o = some s')
    (hf : s.failure = none) (hs : s'.failure = some f) :
    userStep seqOps preemption (s.forget q) t c k l.forget o = some (s'.forget q) := by
  have hno : s'.failure ≠ s.failure := by
    rw [hs, hf]
    exact Option.some_ne_none f
  cases o with
  | ret =>
    simp only [userStep] at h ⊢
    split at h
    · rename_i hstart
      obtain rfl := Option.some.inj h
      rw [if_pos hstart]
      refine congrArg some (Eq.symm (schedBlockPreempt_forget fun s => ?_))
      exact forget_modSched _ _ _ fun _ => rfl
    · cases h
  | _ =>
    obtain rfl := Option.some.inj h
    exact absurd rfl hno

/-- A step of the code of a coroutine that stops the program does so over sequences. -/
theorem pcStep_forget_fails (h : pcStep ptrOps preemption s t c k l i = some s')
    (hf : s.failure = none) (hs : s'.failure = some f) (hne : f ≠ .enqueue) (hns : f ≠ .sentinel)
    (hpop : ∀ {p m x}, (s.context c).pc.dequeues = some p →
      ptrOps.pop s.queues t p = (m, .inr (some x)) → ∃ xs, q.list t = x :: xs) :
    ∃ q', pcStep seqOps preemption (s.forget q) t c k l.forget i = some (s'.forget q') := by
  by_cases hapart : (s.context c).pc.Apart
  · refine ⟨q, ?_⟩
    rw [pcStep_apart hapart, h]
    rfl
  have hin := pcStep_takes h
  have hfault := pcStep_fails ptrOps h hf hs
  have hctx : ((s.forget q).context c).pc = (s.context c).pc.forget := rfl
  unfold pcStep at h ⊢
  rw [hctx]
  generalize (s.context c).pc = pc at h hin hfault hpop hapart ⊢
  cases hfault with
  | resched hst =>
    obtain rfl : i = .step := hin
    obtain rfl := Option.some.inj h
    refine ⟨q, congrArg some (Eq.symm (schedResched_forget (fun s r => ?_) hst hne hns))⟩
    rw [forget_goto, ReschedRet.forget_next]
  | ret hp hlock =>
    cases i with
    | op o => exact ⟨q, userStep_forget_fails h hf hs⟩
    | _ => cases h
  | @suspendTake current p ret x _ =>
    obtain rfl : i = .step := hin
    obtain rfl := Option.some.inj h
    -- the dequeue itself has not failed, and what it has dequeued is the first of the list
    have hno : State.failure s ≠ some .dangling := by
      rw [hf]
      rintro ⟨⟩
    rcases hq : ptrOps.pop s.queues t p with ⟨m, p' | _ | x⟩
    · simp only [schedDequeueLocked, hq] at hs
      exact absurd hs hno
    · simp only [schedDequeueLocked, hq] at hs
      cases hs
    · obtain ⟨xs, hx⟩ := hpop rfl hq
      have hpopped : seqOps.pop (s.forget q).queues t () = _ := seqOps_pop_cons hx ()
      refine ⟨(seqOps.pop q t ()).1, ?_⟩
      simp only [Pc.forget, schedDequeueLocked, hq]
      rw [hpopped, suspendTake_forget]
      rfl
  | suspendSentinel => exact absurd rfl hns
  | suspendEnqueue => exact absurd rfl hne
  | scheduleEnqueue => exact absurd rfl hne
  | newEnqueue => exact absurd rfl hne
  | _ => exact absurd trivial hapart

/-- A coroutine that is being freed is not on a list, and nobody puts it on one. -/
theorem Stored.free_unlinked (hI : Inv preemption (s.forget q)) (hS : Stored s q)
    (hl : s.sched t = some l) (hrun : l.started = true) (he : l.exec = .free) :
    ptrOps.listInList s.queues l.currentCoro = false := by
  have htok : l.currentCoro ∈ (s.seat t).tokens := by
    simp only [State.seat, hl, he]
    exact Multiset.mem_singleton_self _
  have hpusher : Pusher s t l.currentCoro (.thread t) := .thread htok
  have hlinked := hpusher.not_linked hI
  have halone : ∀ u p, ¬s.Edits u (.push l.currentCoro p) := by
    intro u p hedit
    obtain ⟨h, hp⟩ := hedit.pusher hI
    obtain rfl := hp.inj hI hpusher
    cases hedit with
    | thread hedit =>
      simp only [State.edit, hl, he] at hedit
      cases hedit
    | maker hedit => exact hI.no_maker hl hrun _ _ hedit
  obtain ⟨hnext, hprev⟩ := hS.free (hI.lt_coros hpusher.own) hlinked halone
  show ((s.queues.next (.item _)).isSome || (s.queues.prev (.item _)).isSome) = false
  rw [hnext, hprev]
  rfl

/-- **A step over nodes that stops the program** does so over sequences. -/
theorem Stored.stops (hI : Inv preemption (s.forget q)) (hU : Unstarted (s.forget q)) (hS : Stored s q)
    (h : step ptrOps preemption s a = some s') (hs : s'.failure = some f) :
    ∃ q', step seqOps preemption (s.forget q) a = some (s'.forget q') := by
  obtain ⟨hf₀, t, l, hl, hrun, hfails⟩ := step_fails ptrOps h hs
  have hsound := hS.step_sound hI hU h
  have hne : f ≠ .enqueue := by
    rintro rfl
    exact hsound.1 hs
  have hns : f ≠ .sentinel := by
    rintro rfl
    exact hsound.2 hs
  clear hsound
  have hl' := s.forget_sched q t hl
  have hrun' : l.forget.started = true := hrun
  have hstop : ¬s.failure.isSome = true := by rw [hf₀]; decide
  have hstop' : ¬(s.forget q).failure.isSome = true := hstop
  unfold Scheduler.step at h ⊢
  rw [if_neg hstop] at h
  rw [if_neg hstop']
  cases hfails with
  | @stride c k i f he hk hsig hfault =>
    have hk' : (s.forget q).coro c = some k := hk
    have hsig' : ((s.forget q).context c).sig = [] := by
      show (s.context c).sig.map ReschedPc.forget = []
      rw [hsig]
      rfl
    simp only [threadStep, hl, hrun, he, hk, hsig, if_true] at h
    simp only [threadStep, hl', hrun', LocalSched.forget_on he, hk', hsig', if_true]
    refine pcStep_forget_fails h hf₀ hs hne hns fun {p m x} hd hq => hS.popped hI hl hrun ?_ hq
    simp only [State.dequeues, hl, he, hsig]
    exact hd
  | @handler c k r rs f he hk hsig hst =>
    have hk' : (s.forget q).coro c = some k := hk
    have hsig' : ((s.forget q).context c).sig = r.forget :: rs.map ReschedPc.forget := by
      show (s.context c).sig.map ReschedPc.forget = _
      rw [hsig]
      rfl
    simp only [threadStep, hl, hrun, he, hk, hsig, if_true, Option.some.injEq] at h
    simp only [threadStep, hl', hrun', LocalSched.forget_on he, hk', hsig', if_true]
    subst h
    refine ⟨q, congrArg some (Eq.symm (schedResched_forget (fun s r => ?_) hst hne hns))⟩
    rw [forget_setSig, List.map_append]
    cases r <;> rfl
  | freeLinked he hn =>
    rw [hS.free_unlinked hI hl hrun he] at hn
    cases hn
  | sentinel => exact absurd rfl hns

end

/-! ## The simulation -/

section

variable {preemption : Bool} {s s' : PtrState} {q : Seq} {t : Tid} {a : Act}
  {ok : PtrState → Act → Prop} {okSeq : SeqState → Act → Prop} {m : Mem Node} {localSize : Nat}
  {garbage : Nat → TimerWait} {state errno threadErrno : Int}

theorem Pc.Takes.forget {i : Input} {pc : Pc (PushPc Node) (PopPc Node)} (h : pc.Takes i) :
    pc.forget.Takes i := by
  cases pc <;> exact h

theorem State.running_forget :
    (s.forget q).running t = (s.running t).map fun r => (r.1, r.2.forget) := by
  unfold State.running
  rcases hl : s.sched t with _ | l
  · simp only [State.forget, hl, Option.map_none]
  · simp only [State.forget_sched s q t hl]
    rcases he : l.exec with c | _ | p | x
    · simp only [LocalSched.forget_on he]
      have hctx : (s.forget q).context c = (s.context c).forget := rfl
      rw [hctx]
      unfold Context.forget
      dsimp only
      rw [List.isEmpty_map]
      split <;> rfl
    all_goals simp only [LocalSched.forget, he, Exec.forget, Option.map_none]

theorem Takes.forget (h : Takes s a) : Takes (s.forget q) a := by
  rintro t i c pc rfl hrunning
  rw [State.running_forget] at hrunning
  obtain ⟨⟨d, pc'⟩, hr, heq⟩ := Option.map_eq_some_iff.1 hrunning
  obtain ⟨rfl, rfl⟩ := Prod.mk.inj heq
  exact (h t i d pc' rfl hr).forget

theorem seqInit_unstarted : Unstarted (seqInit localSize garbage state errno threadErrno) := by
  intro u l hl hst
  rw [seqInit_sched] at hl
  split at hl
  · cases hl
    cases hst
  · cases hl

section

variable {N : Type} {note : PtrState → Act → N → N} {noteSeq : SeqState → Act → N → N} {n₀ n : N}

/-- **Runs over nodes are runs over sequences**, when what the actions meet over nodes gives what they
are to meet over sequences. Until the program stops, what is noted over nodes is noted over sequences,
when nothing is noted of an action that does nothing over sequences, and the same of the others. -/
theorem Noted.refines (hok : ∀ {s a}, ok s a → Proper s a ∧ Permitted s a)
    (hseq : ∀ {s q a}, ok s a → okSeq (s.forget q) a)
    (hstay : ∀ {s s' q q' t l a n}, Moves ptrOps preemption s t l a s' →
      s.sched t = some l → s'.forget q' = s.forget q → note s a n = n)
    (hstep : ∀ {s s' q q' t l a n}, Moves ptrOps preemption s t l a s' → s.sched t = some l →
      Moves seqOps preemption (s.forget q) t l.forget a (s'.forget q') →
        noteSeq (s.forget q) a n = note s a n)
    (h : Noted ptrOps preemption ok note (ptrInit m localSize garbage state errno threadErrno) n₀ s n) :
    ∃ q n', Noted seqOps preemption okSeq noteSeq (seqInit localSize garbage state errno threadErrno) n₀
        (s.forget q) n' ∧
      (s.failure = none →
        n' = n ∧ Inv preemption (s.forget q) ∧ Unstarted (s.forget q) ∧ Stored s q) := by
  induction h with
  | init =>
    refine ⟨_, n₀, ?_, fun _ => ⟨rfl, ?_, ?_, .init m localSize garbage state errno threadErrno⟩⟩
    · rw [ptrInit_forget]
      exact .init
    · rw [ptrInit_forget]
      exact Inv.init ..
    · rw [ptrInit_forget]
      exact seqInit_unstarted
  | @next s s' a n h hoka hs ih =>
    have hf₀ := step_failure ptrOps hs
    obtain ⟨q, n', hN, hinv⟩ := ih
    obtain ⟨rfl, hI, hU, hS⟩ := hinv hf₀
    rcases hf : s'.failure with _ | f
    · obtain ⟨-, t, l, hl, hrun, hm⟩ := step_moves ptrOps hs hf
      obtain ⟨hproper, hperm⟩ := hok hoka
      obtain ⟨q', hsim, hinv'⟩ := hS.simulates hI hU hl hrun hproper hperm hm
      obtain hforget | hmoves := hsim
      · refine ⟨q', n', ?_, fun _ => ⟨(hstay hm hl hforget).symm, hinv'⟩⟩
        rw [hforget]
        exact hN
      · refine ⟨q', _, hN.next (hseq hoka) (hmoves.step hf₀ (s.forget_sched q t hl) hrun ?_),
          fun _ => ⟨hstep hm hl hmoves, hinv'⟩⟩
        exact (step_takes hs).forget
    · obtain ⟨q', hstep⟩ := hS.stops hI hU hs hf
      exact ⟨q', _, hN.next (hseq hoka) hstep, by rintro ⟨⟩⟩

end

/-- The same, with nothing noted. -/
theorem Reach.refines (hok : ∀ {s a}, ok s a → Proper s a ∧ Permitted s a)
    (hseq : ∀ {s q a}, ok s a → okSeq (s.forget q) a)
    (h : Reach ptrOps preemption ok (ptrInit m localSize garbage state errno threadErrno) s) :
    ∃ q, Reach seqOps preemption okSeq (seqInit localSize garbage state errno threadErrno) (s.forget q) ∧
      (s.failure = none →
        Inv preemption (s.forget q) ∧ Unstarted (s.forget q) ∧ Stored s q) := by
  have hN : Noted ptrOps preemption ok (fun _ _ n => n)
      (ptrInit m localSize garbage state errno threadErrno) () s () := by
    induction h with
    | init => exact .init
    | next _ hok hs ih => exact ih.next hok hs
  obtain ⟨q, n', hN', hinv⟩ :
      ∃ q n', Noted seqOps preemption okSeq (fun _ _ n => n)
        (seqInit localSize garbage state errno threadErrno) () (s.forget q) n' ∧ _ :=
    hN.refines hok hseq (fun _ _ _ => rfl) fun _ _ _ => rfl
  exact ⟨q, hN'.reach, fun hf => (hinv hf).2⟩

/-- **The run lists in memory refine the sequences.** Take any run of the machine over nodes, in which
every statement of a list operation is a step, with any number of threads and coroutines, in either
build, with signals that come neither inside an operation on the run list of their thread nor between
the enqueue and the switch of `sched_resched`. Without the memory, the state it reaches is one that a
run of the machine over sequences reaches, stopped for the same reason if it has stopped; and otherwise
the memory holds the run lists of that state. -/
theorem pointers_refine (preemption : Bool) (m : Mem Node) (localSize : Nat)
    (garbage : Nat → TimerWait) (state errno threadErrno : Int) {s : PtrState}
    (h : Reach ptrOps preemption (fun s a => Proper s a ∧ Permitted s a)
      (ptrInit m localSize garbage state errno threadErrno) s) :
    ∃ q, Reach seqOps preemption (fun s a => Proper s a ∧ Safe s a)
        (seqInit localSize garbage state errno threadErrno) (s.forget q) ∧
      (s.failure = none → ListsSound s q) := by
  have hok {s : PtrState} {q : Seq} {a : Act} (h : Proper s a ∧ Permitted s a) :
      Proper (s.forget q) a ∧ Safe (s.forget q) a := ⟨h.1.forget, h.2.safe⟩
  obtain ⟨q, hR, hinv⟩ : ∃ q, Reach seqOps preemption (fun s a => Proper s a ∧ Safe s a)
      (seqInit localSize garbage state errno threadErrno) (s.forget q) ∧ _ := h.refines id hok
  refine ⟨q, hR, fun hf => ?_⟩
  obtain ⟨hI, -, hS⟩ := hinv hf
  exact hS.sound hI

/-- User code is about to change the word of a coroutine that waits. -/
def State.Meddled (s : PtrState) (a : Act) : Prop :=
  ∃ t i c x, a = .tick t i ∧ s.running t = some (c, .scheduleXchg x .user) ∧
    (s.word x).map Prod.fst ≠ some STATE_RUNNABLE

theorem Meddles.of_forget (h : Meddles (s.forget q) a) : s.Meddled a := by
  obtain ⟨t, i, c, x, rfl, hrunning, hword⟩ := h
  rw [State.running_forget] at hrunning
  obtain ⟨⟨d, pc⟩, hr, heq⟩ := Option.map_eq_some_iff.1 hrunning
  obtain ⟨rfl, hpc⟩ := Prod.mk.inj heq
  refine ⟨t, i, d, x, rfl, ?_, hword⟩
  rw [hr]
  cases pc <;> cases hpc
  rfl

/-! ## The timers -/

section

variable {n : Cid → Option TimerWait}

theorem State.Shrinks.of_forget (h : (s.forget q).Shrinks a) : s.Shrinks a := by
  obtain ⟨t, i, c, u, v, w, rfl, hrunning, hshrinks⟩ := h
  rw [State.running_forget] at hrunning
  obtain ⟨⟨d, pc⟩, hr, heq⟩ := Option.map_eq_some_iff.1 hrunning
  obtain ⟨rfl, hpc⟩ := Prod.mk.inj heq
  refine ⟨t, i, d, u, v, w, rfl, ?_, hshrinks⟩
  rw [hr]
  cases pc <;> cases hpc
  rfl

theorem State.Evicts.of_forget (h : (s.forget q).Evicts a) : s.Evicts a := by
  obtain ⟨t, i, c, u, v, w, rfl, hrunning, e, he, u', w', hpce, hpop⟩ := h
  rw [State.running_forget] at hrunning
  obtain ⟨⟨d, pc⟩, hr, heq⟩ := Option.map_eq_some_iff.1 hrunning
  obtain ⟨rfl, hpc⟩ := Prod.mk.inj heq
  refine ⟨t, i, d, u, v, w, rfl, ?_, e, he, u', w', ?_, hpop⟩
  · rw [hr]
    cases pc <;> cases hpc
    rfl
  · change (s.context e).pc.forget = _ at hpce
    cases hpc' : (s.context e).pc <;> rw [hpc'] at hpce <;> cases hpce
    rfl

theorem State.readsTimer_forget : (s.forget q).readsTimer a = s.readsTimer a := by
  cases a with
  | signal => rfl
  | tick t i =>
    simp only [State.readsTimer, State.running_forget]
    rcases s.running t with _ | ⟨c, pc⟩
    · rfl
    · cases pc <;> rfl

theorem TimersSound.of_forget (h : TimersSound (s.forget q) n) : TimersSound s n :=
  ⟨h.inBounds, ⟨h.records.live, h.records.once⟩, fun a w hr =>
    h.reads a w (State.readsTimer_forget.trans hr)⟩

/-- `Contained`, over nodes, with signals that come neither inside an operation on the run list of
their thread nor between the enqueue and the switch of `sched_resched`. -/
structure Confined (s : PtrState) (a : Act) : Prop where
  proper : Proper s a
  unmeddled : ¬s.Meddled a
  permitted : Permitted s a
  keeps : ¬s.Shrinks a
  leaves : ¬s.Evicts a

theorem Confined.contained (h : Confined s a) : Contained (s.forget q) a :=
  ⟨⟨h.proper.forget, fun hm => h.unmeddled hm.of_forget⟩, fun hs => h.keeps hs.of_forget,
    fun he => h.leaves he.of_forget⟩

end

end

/-- The run of `signalInSchedule` over sequences. -/
theorem pointers_refine_signal :
    ∃ s q, run ptrOps true permits ptrStart signalInSchedule = some s ∧
      Reach seqOps true (fun s a => Proper s a ∧ Safe s a) seqStart (s.forget q) ∧ ListsSound s q := by
  obtain ⟨s, hr, hf⟩ : ∃ s, run ptrOps true permits ptrStart signalInSchedule = some s ∧
      s.failure = none := ⟨_, rfl, rfl⟩
  obtain ⟨q, hR, hq⟩ := pointers_refine true _ 1 _ 0 0 0 (Reach.run hr permits.sound .init)
  exact ⟨s, q, hr, hR, hq hf⟩

/-- A check on actions for `Confined`. -/
def confined (s : PtrState) (a : Act) : Bool :=
  permits s a &&
    (s.keepsTimers a &&
      match s.running a.thread with
      | some (_, .scheduleXchg _ .user) => false
      | _ => true)

theorem confined.sound (s : PtrState) (a : Act) (h : confined s a = true) : Confined s a := by
  obtain ⟨hpermits, hrest⟩ := Bool.and_eq_true_iff.1 h
  obtain ⟨hkeeps, hrun⟩ := Bool.and_eq_true_iff.1 hrest
  obtain ⟨hproper, hpermitted⟩ := permits.sound s a hpermits
  obtain ⟨hshrinks, hevicts⟩ := State.keepsTimers.sound hkeeps
  refine ⟨hproper, ?_, hpermitted, hshrinks, hevicts⟩
  rintro ⟨t, i, c, x, rfl, hrunning, -⟩
  simp [Act.thread, hrunning] at hrun

end Lwthread.Scheduler
