import Lwthread.Scheduler.Cases

/-!
# Why a step may stop the program

The other half of the inversion: every way in which an action can stop the program, by the point it is
one of. `Stumble` is a step of `sched_resched`, `Fault` a step of a coroutine's own code, `Fails` an
action of the machine (`step_fails`).
-/

namespace Lwthread.Scheduler

open Lwthread.Util Lwthread.Platform

variable {Q ι δ : Type}

/-! ## The points that may fail -/

/-- The coroutine that `sched_enqueue_locked` is about to check. -/
@[simp] def ReschedPc.asserts : ReschedPc ι δ → Option Cid
  | .enqueue x .assert => some x
  | _ => none

@[simp] def Pc.asserts : Pc ι δ → Option Cid
  | .resched r _ => r.asserts
  | .suspendEnqueue x .assert _ => some x
  | .scheduleEnqueue x .assert _ => some x
  | .newEnqueue x _ .assert => some x
  | _ => none

/-- The point of `sched_dequeue_locked`. -/
@[simp] def ReschedPc.dequeues : ReschedPc ι δ → Option δ
  | .dequeue p => some p
  | _ => none

@[simp] def Pc.dequeues : Pc ι δ → Option δ
  | .resched r _ => r.dequeues
  | .suspendDequeue _ p _ => some p
  | _ => none

def State.asserts (s : State Q ι δ) (t : Tid) : Option Cid :=
  match s.sched t with
  | none => none
  | some l =>
    match l.exec with
    | .on c => match (s.context c).sig with
      | r :: _ => r.asserts
      | [] => (s.context c).pc.asserts
    | _ => none

def State.dequeues (s : State Q ι δ) (t : Tid) : Option δ :=
  match s.sched t with
  | none => none
  | some l =>
    match l.exec with
    | .on c => match (s.context c).sig with
      | r :: _ => r.dequeues
      | [] => (s.context c).pc.dequeues
    | .dequeue p => some p
    | _ => none

/-! ## Faults -/

section

variable (ops : ListOps Q ι δ) (preemption : Bool) (s : State Q ι δ) (t : Tid) (l : LocalSched δ)

/-- Why a step of `sched_resched` at a point may stop the program. -/
inductive Stumble : ReschedPc ι δ → Failure → Prop
  | enqueue {x} (hn : ops.listInList s.queues x = true) : Stumble (.enqueue x .assert) .enqueue
  | sentinel {p q} (hq : ops.pop s.queues t p = (q, .inr none)) : Stumble (.dequeue p) .sentinel
  | block {x} (hp : preemption = true) (hl : l.preemptLock = true) : Stumble (.switch x) .block
  | dangling {x} (hk : (s.modCoro l.currentCoro ({ · with privateErrno := l.errno })).coro x = none) :
      Stumble (.switch x) .dangling
  | unblock (hp : preemption = true) (hl : l.preemptLock = false) : Stumble .resumed .unblock

/-- Why a step of the code of the coroutine `c` at a point may stop the program. -/
inductive Fault (c : Cid) : Pc ι δ → Failure → Prop
  | resched {r ret f} (h : Stumble ops preemption s t l r f) : Fault c (.resched r ret) f
  | start (hp : preemption = true) (hl : l.preemptLock = false) : Fault c .trampoline .unblock
  | noStart (hk : (s.coro l.currentCoro).bind (·.start) = none) : Fault c .trampoline .dangling
  | ret (hp : preemption = true) (hl : l.preemptLock = true) : Fault c .user .block
  | noMemory {w} (hf : heapPushFits s.timerHeap = false) : Fault c (.waitPush w) .noMemory
  | register {fd events} (hr : s.poller.any (·.fd == fd) = true) :
      Fault c (.eventRegister fd events) .register
  | unregister {fd} (hr : s.poller.any (·.fd == fd) = false) : Fault c (.eventUnregister fd) .unregister
  | noRecord {fd} (hw : s.eventWait c = none) : Fault c (.eventUnregister fd) .dangling
  | noEvents {fd w} (hw : s.eventWait c = some w) (he : w.events = 0) :
      Fault c (.eventUnregister fd) .noEvents
  | suspendBlock {ret} (hp : preemption = true) (hl : l.preemptLock = true) :
      Fault c (.suspendBlock ret) .block
  | suspendSentinel {current p ret q} (hq : ops.pop s.queues t p = (q, .inr none)) :
      Fault c (.suspendDequeue current p ret) .sentinel
  | suspendTake {current p ret x}
      (hk : (s.modCoro current ({ · with privateErrno := l.errno })).coro x = none) :
      Fault c (.suspendDequeue current p ret) .dangling
  | cmpxchg {current x ret} (hk : s.coro current = none) :
      Fault c (.suspendCmpxchg current x ret) .dangling
  | suspendEnqueue {x ret} (hn : ops.listInList s.queues x = true) :
      Fault c (.suspendEnqueue x .assert ret) .enqueue
  | suspendUnblock {ret} (hp : preemption = true) (hl : l.preemptLock = false) :
      Fault c (.suspendUnblock ret) .unblock
  | xchg {x ret} (hk : s.coro x = none) : Fault c (.scheduleXchg x ret) .dangling
  | scheduleEnqueue {x ret} (hn : ops.listInList s.queues x = true) :
      Fault c (.scheduleEnqueue x .assert ret) .enqueue
  | newEnqueue {x u} (hn : ops.listInList s.queues x = true) :
      Fault c (.newEnqueue x u .assert) .enqueue
  | pollError {u v} : Fault c (.pollWait u v) .pollError
  | pollEvent {u v key revents rest full} (hw : s.eventWait key = none) :
      Fault c (.pollEvents u v ((key, revents) :: rest) full) .dangling

/-- Why an action of a started thread may stop the program. -/
inductive Fails : Act → Failure → Prop
  | stride {c k i f} (he : l.exec = .on c) (hk : s.coro c = some k) (hsig : (s.context c).sig = [])
      (h : Fault ops preemption s t l c (s.context c).pc f) : Fails (.tick t i) f
  | handler {c k r rs f} (he : l.exec = .on c) (hk : s.coro c = some k)
      (hsig : (s.context c).sig = r :: rs) (h : Stumble ops preemption s t l r f) :
      Fails (.tick t .step) f
  | freeLinked (he : l.exec = .free) (hn : ops.listInList s.queues l.currentCoro = true) :
      Fails (.tick t .step) .freeLinked
  | sentinel {p q} (he : l.exec = .dequeue p) (hq : ops.pop s.queues t p = (q, .inr none)) :
      Fails (.tick t .step) .sentinel

variable {preemption s t l} {s' : State Q ι δ} {f : Failure}

/-! ## The inversion

A step fails in an operation of its own, or where it goes on. -/

theorem schedBlockPreempt_fails {k : State Q ι δ → State Q ι δ} (hf : s.failure = none)
    (h : (schedBlockPreempt preemption s t l k).failure = some f) :
    f = .block ∧ preemption = true ∧ l.preemptLock = true ∨
      (s.setPreempt preemption t true).failure = none ∧
        (k (s.setPreempt preemption t true)).failure = some f := by
  unfold schedBlockPreempt at h
  unfold State.setPreempt
  split at h
  · next hp =>
    split at h
    · next hl => cases h; exact .inl ⟨rfl, hp, hl⟩
    · rw [if_pos hp]; exact .inr ⟨hf, h⟩
  · next hp => rw [if_neg hp]; exact .inr ⟨hf, h⟩

theorem schedUnblockPreempt_fails {k : State Q ι δ → State Q ι δ} (hf : s.failure = none)
    (h : (schedUnblockPreempt preemption s t l k).failure = some f) :
    f = .unblock ∧ preemption = true ∧ l.preemptLock = false ∨
      (s.setPreempt preemption t false).failure = none ∧
        (k (s.setPreempt preemption t false)).failure = some f := by
  unfold schedUnblockPreempt at h
  unfold State.setPreempt
  split at h
  · next hp =>
    split at h
    · rw [if_pos hp]; exact .inr ⟨hf, h⟩
    · next hl => cases h; exact .inl ⟨rfl, hp, by simpa using hl⟩
  · next hp => rw [if_neg hp]; exact .inr ⟨hf, h⟩

/-- `sched_enqueue_locked` fails at its assertion only. -/
theorem schedEnqueueLocked_fails {u : Tid} {x : Cid} {e : EnqPc ι}
    {k : State Q ι δ → Option (EnqPc ι) → State Q ι δ}
    (hk : ∀ s₁ e', s₁.failure = none → (k s₁ e').failure = none) (hf : s.failure = none)
    (h : (schedEnqueueLocked ops s u x e k).failure = some f) :
    e = .assert ∧ f = .enqueue ∧ ops.listInList s.queues x = true := by
  cases e with
  | assert =>
    simp only [schedEnqueueLocked] at h
    split at h
    · next hn => cases h; exact ⟨rfl, rfl, hn⟩
    · rw [hk _ _ hf] at h; cases h
  | push e =>
    simp only [schedEnqueueLocked] at h
    rw [hk _ _ (by exact hf)] at h
    cases h

/-- `sched_dequeue_locked` fails if it unlinks the sentinel only. -/
theorem schedDequeueLocked_fails {p : δ} {k : State Q ι δ → δ ⊕ Cid → State Q ι δ}
    (hf : s.failure = none) (h : (schedDequeueLocked ops s t p k).failure = some f) :
    f = .sentinel ∧ (∃ q, ops.pop s.queues t p = (q, .inr none)) ∨
      ∃ q r, State.failure { s with queues := q } = none ∧
        (k { s with queues := q } r).failure = some f := by
  simp only [schedDequeueLocked] at h
  rcases hq : ops.pop s.queues t p with ⟨q, d' | _ | y⟩ <;> rw [hq] at h
  · exact .inr ⟨q, .inl d', hf, h⟩
  · cases h; exact .inl ⟨rfl, q, rfl⟩
  · exact .inr ⟨q, .inr y, hf, h⟩

theorem schedResched_fails {r : ReschedPc ι δ}
    {k : State Q ι δ → Option (ReschedPc ι δ) → State Q ι δ}
    (hk : ∀ s₁ r', s₁.failure = none → (k s₁ r').failure = none) (hf : s.failure = none)
    (h : (schedResched ops preemption s t l r k).failure = some f) :
    Stumble ops preemption s t l r f := by
  have hno : ∀ {s₁ r'}, s₁.failure = none → (k s₁ r').failure ≠ some f := by
    intro s₁ r' h₁ h
    rw [hk _ _ h₁] at h
    cases h
  cases r with
  | check =>
    simp only [schedResched] at h
    split at h <;> exact absurd h (hno hf)
  | enqueue x e =>
    obtain ⟨rfl, rfl, hn⟩ := schedEnqueueLocked_fails ops (fun s₁ e' h₁ => hk _ _ h₁) hf h
    exact .enqueue hn
  | dequeue p =>
    rcases schedDequeueLocked_fails ops hf h with ⟨rfl, q, hq⟩ | ⟨q, r, h₁, h⟩
    · exact .sentinel hq
    · exact absurd h (hno h₁)
  | switch x =>
    simp only [schedResched, schedSwitchContext] at h
    rcases schedBlockPreempt_fails hf h with ⟨rfl, hp, hl⟩ | ⟨h₁, h⟩
    · exact .block hp hl
    · have hcoro : ((s.setPreempt preemption t true).modCoro l.currentCoro
          ({ · with privateErrno := l.errno })).coro =
          (s.modCoro l.currentCoro ({ · with privateErrno := l.errno })).coro := by
        unfold State.setPreempt; split <;> rfl
      rw [hcoro] at h
      split at h
      · next hn => cases h; exact .dangling hn
      · exact absurd h (hno h₁)
  | resumed =>
    rcases schedUnblockPreempt_fails hf h with ⟨rfl, hp, hl⟩ | ⟨h₁, h⟩
    · exact .unblock hp hl
    · exact absurd h (hno h₁)

variable {c : Cid} {k : Coroutine} {i : Input}

theorem pcStep_fails (h : pcStep ops preemption s t c k l i = some s') (hf : s.failure = none)
    (hs : s'.failure = some f) : Fault ops preemption s t l c (s.context c).pc f := by
  have hno : ∀ {s₁ : State Q ι δ}, s₁.failure = none → s₁.failure ≠ some f := by
    intro s₁ h₁ h
    cases h₁.symm.trans h
  unfold pcStep at h
  generalize (s.context c).pc = pc at h ⊢
  cases pc with
  | trampoline =>
    cases i <;> simp only [reduceCtorEq, Option.some.injEq] at h
    subst h
    rcases schedUnblockPreempt_fails hf hs with ⟨rfl, hp, hl⟩ | ⟨h₁, h⟩
    · exact .start hp hl
    · have hcoro : (s.setPreempt preemption t false).coro = s.coro := by
        unfold State.setPreempt; split <;> rfl
      rw [hcoro] at h
      split at h
      · next hn => cases h; exact .noStart hn
      · exact absurd h (hno h₁)
      · exact absurd h (hno h₁)
  | user =>
    cases i <;> simp only [reduceCtorEq] at h
    next o =>
    cases o <;> simp only [userStep, Option.some.injEq] at h
    case ret =>
      split at h
      · cases h
        rcases schedBlockPreempt_fails hf hs with ⟨rfl, hp, hl⟩ | ⟨h₁, h⟩
        · exact .ret hp hl
        · exact absurd h (hno h₁)
      · cases h
    all_goals subst h; exact absurd hs (hno hf)
  | resched r ret =>
    cases i <;> simp only [reduceCtorEq, Option.some.injEq] at h
    subst h
    exact .resched (schedResched_fails ops (by exact fun _ _ h₁ => h₁) hf hs)
  | waitLock w =>
    cases i <;> simp only [reduceCtorEq] at h
    split at h
    · cases h; exact absurd hs (hno hf)
    · cases h
  | waitPush w =>
    cases i <;> simp only [reduceCtorEq] at h
    split at h
    · cases h; exact absurd hs (hno hf)
    · next hfit => cases h; cases hs; exact .noMemory (by simpa using hfit)
  | eventRegister fd events =>
    cases i <;> simp only [reduceCtorEq] at h
    split at h
    · next hr => cases h; cases hs; exact .register hr
    · cases h; exact absurd hs (hno hf)
  | eventUnregister fd =>
    cases i <;> simp only [reduceCtorEq] at h
    split at h
    · rcases hw : s.eventWait c with _ | w <;> simp only [hw] at h
      · cases h; cases hs; exact .noRecord hw
      · split at h
        · next he => cases h; cases hs; exact .noEvents hw he
        · cases h; exact absurd hs (hno hf)
    · next hr => cases h; cases hs; exact .unregister (by simpa using hr)
  | suspendBlock ret =>
    cases i <;> simp only [reduceCtorEq, Option.some.injEq] at h
    subst h
    rcases schedBlockPreempt_fails hf hs with ⟨rfl, hp, hl⟩ | ⟨h₁, h⟩
    · exact .suspendBlock hp hl
    · exact absurd h (hno h₁)
  | suspendDequeue current p ret =>
    cases i <;> simp only [reduceCtorEq, Option.some.injEq] at h
    subst h
    rcases schedDequeueLocked_fails ops hf hs with ⟨rfl, q, hq⟩ | ⟨q, r, h₁, h⟩
    · exact .suspendSentinel hq
    · cases r with
      | inl p => exact absurd h (hno h₁)
      | inr x =>
        simp only [suspendTake] at h
        split at h
        · next hn => cases h; exact .suspendTake hn
        · exact absurd h (hno h₁)
  | suspendCmpxchg current x ret =>
    cases i <;> simp only [reduceCtorEq, Option.some.injEq] at h
    subst h
    unfold suspendCmpxchg at hs
    split at hs
    · next hn => cases hs; exact .cmpxchg hn
    · split at hs <;> exact absurd hs (hno hf)
  | suspendEnqueue x e ret =>
    cases i <;> simp only [reduceCtorEq, Option.some.injEq] at h
    subst h
    obtain ⟨rfl, rfl, hn⟩ := schedEnqueueLocked_fails ops (by exact fun _ _ h₁ => h₁) hf hs
    exact .suspendEnqueue hn
  | suspendUnblock ret =>
    cases i <;> simp only [reduceCtorEq, Option.some.injEq] at h
    subst h
    rcases schedUnblockPreempt_fails hf hs with ⟨rfl, hp, hl⟩ | ⟨h₁, h⟩
    · exact .suspendUnblock hp hl
    · exact absurd h (hno h₁)
  | scheduleXchg x ret =>
    cases i <;> simp only [reduceCtorEq, Option.some.injEq] at h
    subst h
    unfold scheduleXchg at hs
    split at hs
    · next hn => cases hs; exact .xchg hn
    · split at hs <;> exact absurd hs (hno hf)
  | scheduleEnqueue x e ret =>
    cases i <;> simp only [reduceCtorEq, Option.some.injEq] at h
    subst h
    obtain ⟨rfl, rfl, hn⟩ := schedEnqueueLocked_fails ops (by exact fun _ _ h₁ => h₁) hf hs
    exact .scheduleEnqueue hn
  | newEnqueue x u e =>
    cases i <;> simp only [reduceCtorEq, Option.some.injEq] at h
    subst h
    obtain ⟨rfl, rfl, hn⟩ := schedEnqueueLocked_fails ops (by exact fun _ _ h₁ => h₁) hf hs
    exact .newEnqueue hn
  | pollWait u v =>
    cases i <;> simp only [reduceCtorEq] at h
    next o =>
    cases o <;> simp only [pollReturn] at h
    · cases h; exact absurd hs (hno hf)
    · cases h; cases hs; exact .pollError
    · split at h
      · obtain ⟨d, -, rfl⟩ := Option.map_eq_some_iff.1 h
        exact absurd hs (hno hf)
      · cases h
  | pollEvents u v batch full =>
    cases batch <;> cases i <;> simp only [reduceCtorEq, Option.some.injEq] at h <;> subst h
    · exact absurd hs (hno hf)
    · unfold schedPollEvent at hs
      split at hs
      · next hn => cases hs; exact .pollEvent hn
      · split at hs <;> exact absurd hs (hno hf)
  | timersLock u v =>
    cases i <;> simp only [reduceCtorEq] at h
    split at h
    · cases h; exact absurd hs (hno hf)
    · cases h
  | _ =>
    -- the other points do not fail
    cases i <;> simp only [reduceCtorEq, Option.some.injEq] at h
    subst h
    exact absurd hs (hno hf)

/-- **Why an action may stop the program**: it is one of a started thread. -/
theorem step_fails {a : Act} (h : step ops preemption s a = some s') (hs : s'.failure = some f) :
    s.failure = none ∧
      ∃ t l, s.sched t = some l ∧ l.started = true ∧ Fails ops preemption s t l a f := by
  unfold step at h
  split at h
  · cases h
  · next hrun =>
    have hf : s.failure = none := by simpa using hrun
    refine ⟨hf, ?_⟩
    cases a with
    | tick t i =>
      simp only [threadStep] at h
      rcases hl : s.sched t with _ | l <;> simp only [hl] at h
      · cases h
      · split at h
        · next hst =>
          refine ⟨t, l, hl, hst, ?_⟩
          rcases he : l.exec with c | _ | d | x <;> simp only [he] at h
          · rcases hk : s.coro c with _ | k <;> simp only [hk] at h
            · cases h
            · rcases hsig : (s.context c).sig with _ | ⟨r, rs⟩ <;> simp only [hsig] at h
              · exact .stride he hk hsig (pcStep_fails ops h hf hs)
              · cases i <;> simp only [reduceCtorEq, Option.some.injEq] at h
                subst h
                exact .handler he hk hsig (schedResched_fails ops (by exact fun _ _ h₁ => h₁) hf hs)
          all_goals
            cases i <;> simp only [reduceCtorEq, deathStep, he, Option.some.injEq] at h
          · split at h
            · next hn => cases h; cases hs; exact .freeLinked he hn
            · cases h; cases hf.symm.trans hs
          · subst h
            rcases schedDequeueLocked_fails ops hf hs with ⟨rfl, q, hq⟩ | ⟨q, r, h₁, h⟩
            · exact .sentinel he hq
            · cases h₁.symm.trans h
          · subst h; cases hf.symm.trans hs
        · cases h
    | signal t =>
      simp only at h
      split at h
      · simp only [signalStep] at h
        rcases hl : s.sched t with _ | l <;> simp only [hl] at h
        · cases h
        · split at h
          · rcases he : l.exec with c | _ | d | x <;>
              simp only [he, reduceCtorEq, Option.some.injEq] at h
            subst h
            cases hf.symm.trans hs
          · cases h
      · cases h

/-! ## Enqueueing and dequeueing -/

variable {ops}

/-- The assertion of `sched_enqueue_locked` fails at a point before it, if it finds the node linked. -/
theorem Fails.asserts {a : Act} (hl : s.sched t = some l) (h : Fails ops preemption s t l a .enqueue) :
    ∃ x, s.asserts t = some x ∧ ops.listInList s.queues x = true := by
  unfold State.asserts
  simp only [hl]
  cases h with
  | @stride c k i f he hk hsig h =>
    simp only [he, hsig]
    generalize (s.context c).pc = pc at h
    cases h with
    | resched h => cases h with | enqueue hn => exact ⟨_, rfl, hn⟩
    | suspendEnqueue hn => exact ⟨_, rfl, hn⟩
    | scheduleEnqueue hn => exact ⟨_, rfl, hn⟩
    | newEnqueue hn => exact ⟨_, rfl, hn⟩
  | handler he hk hsig h =>
    simp only [he, hsig]
    cases h with | enqueue hn => exact ⟨_, rfl, hn⟩

/-- A sentinel is unlinked at a point of `sched_dequeue_locked`, if `list_pop_front` does so. -/
theorem Fails.dequeues {a : Act} (hl : s.sched t = some l) (h : Fails ops preemption s t l a .sentinel) :
    ∃ p q, s.dequeues t = some p ∧ ops.pop s.queues t p = (q, .inr none) := by
  unfold State.dequeues
  simp only [hl]
  cases h with
  | @stride c k i f he hk hsig h =>
    simp only [he, hsig]
    generalize (s.context c).pc = pc at h
    cases h with
    | resched h => cases h with | sentinel hq => exact ⟨_, _, rfl, hq⟩
    | suspendSentinel hq => exact ⟨_, _, rfl, hq⟩
  | handler he hk hsig h =>
    simp only [he, hsig]
    cases h with | sentinel hq => exact ⟨_, _, rfl, hq⟩
  | sentinel he hq =>
    simp only [he]
    exact ⟨_, _, rfl, hq⟩

end

end Lwthread.Scheduler
