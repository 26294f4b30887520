import Lwthread.Scheduler.Run

/-!
# What a step can do

The step functions, inverted: every way in which a step can succeed without stopping the program,
with its guards and the state it leads to. `Yield` is one step of `sched_resched`, `Flow` a step that
only moves the control point, `Stride` any step of a coroutine's own code, `Death` a step of
`free_coro`, `Moves` an action of the machine (`step_moves`). The proofs about runs go by cases on
these relations and do not unfold the step functions.
-/

namespace Lwthread.Scheduler

open Lwthread.Util Lwthread.Platform

variable {Q ι δ : Type}

/-- `sched_block_preempt` or `sched_unblock_preempt` has set `preempt_lock`. -/
def State.setPreempt (s : State Q ι δ) (preemption : Bool) (t : Tid) (lock : Bool) : State Q ι δ :=
  if preemption then s.modSched t ({ · with preemptLock := lock }) else s

/-- The point where a start function begins. -/
def Start.pc : Start → Pc ι δ
  | .user => .user
  | .loop sched => .loopTop sched

section

variable (ops : ListOps Q ι δ) (preemption : Bool) (s : State Q ι δ) (t : Tid) (l : LocalSched δ)

/-- A step of `sched_resched` at a point, the state after it and the next point, none at the
return. -/
inductive Yield : ReschedPc ι δ → State Q ι δ → Option (ReschedPc ι δ) → Prop
  | idle (he : ops.listEmpty s.queues t = true) : Yield .check s none
  | busy (he : ops.listEmpty s.queues t = false) :
      Yield .check s (some (.enqueue l.currentCoro .assert))
  | assert {c} (hn : ops.listInList s.queues c = false) :
      Yield (.enqueue c .assert) s (some (.enqueue c (.push ops.pushStart)))
  | push {c p q p'} (hq : ops.push s.queues t c p = (q, some p')) :
      Yield (.enqueue c (.push p)) { s with queues := q } (some (.enqueue c (.push p')))
  | pushed {c p q} (hq : ops.push s.queues t c p = (q, none)) :
      Yield (.enqueue c (.push p)) { s with queues := q } (some (.dequeue ops.popStart))
  | pop {p q p'} (hq : ops.pop s.queues t p = (q, .inl p')) :
      Yield (.dequeue p) { s with queues := q } (some (.dequeue p'))
  | popped {p q x} (hq : ops.pop s.queues t p = (q, .inr (some x))) :
      Yield (.dequeue p) { s with queues := q } (some (.switch x))
  | switch {x k} (hp : preemption = true → l.preemptLock = false)
      (hk : (s.modCoro l.currentCoro ({ · with privateErrno := l.errno })).coro x = some k) :
      Yield (.switch x)
        (((s.setPreempt preemption t true).modCoro l.currentCoro
          ({ · with privateErrno := l.errno })).modSched t
          ({ · with currentCoro := x, errno := k.privateErrno, exec := .on x })) (some .resumed)
  | resumed (hp : preemption = true → l.preemptLock = true) :
      Yield .resumed (s.setPreempt preemption t false) none

/-- A step of a coroutine that only moves it to another point. -/
inductive Flow (i : Input) : Pc ι δ → Pc ι δ → Prop
  | resched (hi : i = .op .resched) : Flow i .user (.resched .check .user)
  | suspend (hi : i = .op .suspend) : Flow i .user (.suspendBlock .user)
  | schedule {x} (hi : i = .op (.schedule x)) : Flow i .user (.scheduleXchg x .user)
  | suspendAssert {x ret} (hn : ops.listInList s.queues x = false) :
      Flow i (.suspendEnqueue x .assert ret) (.suspendEnqueue x (.push ops.pushStart) ret)
  | scheduleAssert {x ret} (hn : ops.listInList s.queues x = false) :
      Flow i (.scheduleEnqueue x .assert ret) (.scheduleEnqueue x (.push ops.pushStart) ret)
  | newAssert {x u} (hn : ops.listInList s.queues x = false) :
      Flow i (.newEnqueue x u .assert) (.newEnqueue x u (.push ops.pushStart))
  | newFull {x} (hc : s.localSize ≤ s.localCount) : Flow i (.newLoad x) (.scheduleXchg x .newCoroutine)
  | newRoom {x} (hc : s.localCount < s.localSize) : Flow i (.newLoad x) (.newFetchAdd x)
  | loopEmpty {u} (he : ops.listEmpty s.queues u = true) : Flow i (.loopTop u) (.loopMin u)
  | loopExpire {u w now} (hi : i = .clock now) :
      Flow i (.loopExpire u w)
        (.pollWait u (if timerExpiration w now < 0 then 0 else timerExpiration w now))
  | loopBusy {u} (he : ops.listEmpty s.queues u = false) : Flow i (.loopTop u) (.pollWait u 0)
  | pollAgain {u v} : Flow i (.pollEvents u v [] true) (.pollWait u v)
  | pollDone {u v} : Flow i (.pollEvents u v [] false) (.timersEmpty u v)
  | pollTaken {u v key revents rest full w} (hw : s.eventWait key = some w) (hn : w.coro = none) :
      Flow i (.pollEvents u v ((key, revents) :: rest) full) (.pollEvents u v rest full)
  | timersNone {u v} (he : heapEmpty s.timerHeap = true) : Flow i (.timersEmpty u v) (afterTimers u v)
  | timersSome {u v} (he : heapEmpty s.timerHeap = false) :
      Flow i (.timersEmpty u v) (.timersLock u v)
  | timersDue {u v w now} (hi : i = .clock now) (hd : timerExpiration w now ≤ 0) :
      Flow i (.timersExpire u v w) (.timersPop u v w)
  | timersLater {u v w now} (hi : i = .clock now) (hd : ¬timerExpiration w now ≤ 0) :
      Flow i (.timersExpire u v w) (.timersUnlock u v false)

/-- A step of the code of the coroutine `c` on thread `t`, outside a signal handler, by the point it
is at. -/
inductive Stride (c : Cid) (i : Input) : Pc ι δ → State Q ι δ → Prop
  | resched {r ret s₁ r'} (h : Yield ops preemption s t l r s₁ r') :
      Stride c i (.resched r ret) (s₁.goto c (ret.next r'))
  | flow {pc pc'} (h : Flow ops s i pc pc') : Stride c i pc (s.goto c pc')
  | trampoline {k start} (hp : preemption = true → l.preemptLock = true)
      (hk : s.coro l.currentCoro = some k) (hs : k.start = some start) :
      Stride c i .trampoline ((s.setPreempt preemption t false).goto c start.pc)
  | setErrno {e} (hi : i = .op (.setErrno e)) :
      Stride c i .user (s.modSched t ({ · with errno := e }))
  | newCoroutine (hi : i = .op .newCoroutine) :
      Stride c i .user ((schedMakeCoro ops s .user).goto c (.newLoad s.coros))
  | wait {time} (hi : i = .op (.wait time)) :
      Stride c i .user ((schedPrepareToSuspend s l).goto c (.waitLock ⟨time, l.currentCoro⟩))
  | eventWait {fd events} (hi : i = .op (.eventWait fd events)) :
      Stride c i .user
        ((schedPrepareToSuspend
          { s with eventWait := Function.update s.eventWait c (some ⟨fd, 0, some l.currentCoro⟩) }
          l).goto c (.eventRegister fd events))
  | ret {k} (hi : i = .op .ret) (hk : s.coro c = some k) (hs : k.start = some .user)
      (hp : preemption = true → l.preemptLock = false) :
      Stride c i .user ((s.setPreempt preemption t true).modSched t ({ · with exec := .free }))
  | waitLock {w} (hl : s.lock = none) :
      Stride c i (.waitLock w) ({ s with lock := some c }.goto c (.waitPush w))
  | waitPush {w} (hf : heapPushFits s.timerHeap = true) :
      Stride c i (.waitPush w)
        ({ s with timerHeap := (heapPush .block s.timerHeap w).2 }.goto c .waitUnlock)
  | waitUnlock : Stride c i .waitUnlock ({ s with lock := none }.goto c (.suspendBlock .wait))
  | eventRegister {fd events} (hr : s.poller.any (·.fd == fd) = false) :
      Stride c i (.eventRegister fd events)
        ({ s with poller := s.poller ++ [(⟨fd, c, true⟩ : Registration)] }.goto c
          (.suspendBlock (.eventWait fd)))
  | eventUnregister {fd w} (hr : s.poller.any (·.fd == fd) = true) (hw : s.eventWait c = some w)
      (he : w.events ≠ 0) :
      Stride c i (.eventUnregister fd)
        ({ s with
           poller := s.poller.filter (·.fd != fd)
           eventWait := Function.update s.eventWait c none }.goto c .user)
  | suspendBlock {ret} (hp : preemption = true → l.preemptLock = false) :
      Stride c i (.suspendBlock ret)
        ((s.setPreempt preemption t true).goto c (.suspendDequeue l.currentCoro ops.popStart ret))
  | suspendPop {current p ret q p'} (hq : ops.pop s.queues t p = (q, .inl p')) :
      Stride c i (.suspendDequeue current p ret)
        ({ s with queues := q }.goto c (.suspendDequeue current p' ret))
  | suspendTake {current p ret q x k} (hq : ops.pop s.queues t p = (q, .inr (some x)))
      (hk : (s.modCoro current ({ · with privateErrno := l.errno })).coro x = some k) :
      Stride c i (.suspendDequeue current p ret)
        ((({ s with queues := q }.modCoro current ({ · with privateErrno := l.errno })).modSched t
          ({ · with currentCoro := x, errno := k.privateErrno })).goto c
          (.suspendCmpxchg current x ret))
  | park {current x ret k} (hk : s.coro current = some k) (hb : k.state = STATE_BLOCKING) :
      Stride c i (.suspendCmpxchg current x ret)
        (((s.modCoro current ({ · with state := STATE_BLOCKED })).goto c
          (.suspendUnblock ret)).modSched t ({ · with exec := .on x }))
  | abort {current x ret k} (hk : s.coro current = some k) (hb : k.state ≠ STATE_BLOCKING) :
      Stride c i (.suspendCmpxchg current x ret)
        ((s.modSched t ({ · with currentCoro := current, errno := k.privateErrno })).goto c
          (.suspendEnqueue x .assert ret))
  | suspendPush {x p ret q p'} (hq : ops.push s.queues t x p = (q, some p')) :
      Stride c i (.suspendEnqueue x (.push p) ret)
        ({ s with queues := q }.goto c (.suspendEnqueue x (.push p') ret))
  | suspendPushed {x p ret q} (hq : ops.push s.queues t x p = (q, none)) :
      Stride c i (.suspendEnqueue x (.push p) ret)
        ({ s with queues := q }.goto c (.suspendUnblock ret))
  | suspendUnblock {ret} (hp : preemption = true → l.preemptLock = true) :
      Stride c i (.suspendUnblock ret) ((s.setPreempt preemption t false).goto c ret.pc)
  | rouse {x ret k} (hk : s.coro x = some k) (hb : k.state ≠ STATE_BLOCKED) :
      Stride c i (.scheduleXchg x ret)
        ((s.modCoro x ({ · with state := STATE_RUNNABLE })).goto c ret.pc)
  | wake {x ret k} (hk : s.coro x = some k) (hb : k.state = STATE_BLOCKED) :
      Stride c i (.scheduleXchg x ret)
        ((s.modCoro x ({ · with state := STATE_RUNNABLE })).goto c (.scheduleEnqueue x .assert ret))
  | schedulePush {x p ret q p'} (hq : ops.push s.queues t x p = (q, some p')) :
      Stride c i (.scheduleEnqueue x (.push p) ret)
        ({ s with queues := q }.goto c (.scheduleEnqueue x (.push p') ret))
  | schedulePushed {x p ret q} (hq : ops.push s.queues t x p = (q, none)) :
      Stride c i (.scheduleEnqueue x (.push p) ret) ({ s with queues := q }.goto c ret.pc)
  | fetchAdd {x} :
      Stride c i (.newFetchAdd x)
        ({ s with localCount := (s.localCount + 1) % 2 ^ 32 }.goto c
          (if s.localCount ≥ s.localSize then .scheduleXchg x .newCoroutine
            else .newLocal x s.localCount))
  | newLocal {x slot state errno} (hi : i = .garbage state errno) :
      Stride c i (.newLocal x slot)
        ((State.modCoro
          { schedNewLocal ops s state errno .loopTop with
            localSchedulers := Function.update s.localSchedulers slot (some s.locals) } x
          ({ · with state := STATE_RUNNABLE })).goto c (.newEnqueue x s.locals .assert))
  | newPush {x u p q p'} (hq : ops.push s.queues u x p = (q, some p')) :
      Stride c i (.newEnqueue x u (.push p))
        ({ s with queues := q }.goto c (.newEnqueue x u (.push p')))
  | newPushed {x u p q} (hq : ops.push s.queues u x p = (q, none)) :
      Stride c i (.newEnqueue x u (.push p)) ({ s with queues := q }.goto c (.newStart u))
  | newStart {u} :
      Stride c i (.newStart u)
        ((s.modSched u fun l =>
          { l with eventLoopCoro := some l.currentCoro, started := true }).goto c .user)
  | loopNone {u} (hm : (heapMin s.timerHeap).1 = none) :
      Stride c i (.loopMin u)
        ({ s with timerHeap := (heapMin s.timerHeap).2 }.goto c (.pollWait u (-1)))
  | loopMin {u w} (hm : (heapMin s.timerHeap).1 = some w) :
      Stride c i (.loopMin u)
        ({ s with timerHeap := (heapMin s.timerHeap).2 }.goto c (.loopExpire u w))
  | eintr {u v} (hi : i = .epoll .eintr) : Stride c i (.pollWait u v) s
  | ready {u v events d} (hi : i = .epoll (.ready events)) (hl : events.length ≤ MAX_EVENTS)
      (hd : deliver s.poller events = some d) :
      Stride c i (.pollWait u v)
        ({ s with poller := d.2 }.goto c
          (.pollEvents u v d.1 (Outcome.ready events).restarts))
  | pollEvent {u v key revents rest full w x} (hw : s.eventWait key = some w) (hx : w.coro = some x) :
      Stride c i (.pollEvents u v ((key, revents) :: rest) full)
        ({ s with
           eventWait := Function.update s.eventWait key
             (some { w with coro := none, events := revents }) }.goto c
          (.scheduleXchg x (.pollEvent u v rest full)))
  | timersLock {u v} (hl : s.lock = none) :
      Stride c i (.timersLock u v) ({ s with lock := some c }.goto c (.timersMin u v))
  | timersMin {u v} :
      Stride c i (.timersMin u v)
        ({ s with timerHeap := (heapMin s.timerHeap).2 }.goto c
          (match (heapMin s.timerHeap).1 with
            | none => .timersUnlock u v false
            | some w => .timersExpire u v w))
  | timersPop {u v w} :
      Stride c i (.timersPop u v w)
        ({ s with timerHeap := (heapPopMin .block s.timerHeap).2 }.goto c
          (.scheduleXchg w.coro (.handleTimers u v)))
  | timersUnlock {u v again} :
      Stride c i (.timersUnlock u v again)
        ({ s with lock := none }.goto c (if again then .timersEmpty u v else afterTimers u v))

/-- A step of `free_coro` on thread `t`. -/
inductive Death : Exec δ → State Q ι δ → Prop
  | free (hn : ops.listInList s.queues l.currentCoro = false) :
      Death .free
        ({ s with coro := Function.update s.coro l.currentCoro none }.modSched t
          ({ · with exec := .dequeue ops.popStart }))
  | pop {p q p'} (hq : ops.pop s.queues t p = (q, .inl p')) :
      Death (.dequeue p) ({ s with queues := q }.modSched t ({ · with exec := .dequeue p' }))
  | popped {p q x} (hq : ops.pop s.queues t p = (q, .inr (some x))) :
      Death (.dequeue p) ({ s with queues := q }.modSched t ({ · with exec := .restore x }))
  | restore {x} : Death (.restore x) (s.modSched t ({ · with currentCoro := x, exec := .on x }))

/-- An action of a started thread. -/
inductive Moves : Act → State Q ι δ → Prop
  | stride {c k i s'} (he : l.exec = .on c) (hk : s.coro c = some k)
      (hsig : (s.context c).sig = [])
      (h : Stride ops preemption s t l c i (s.context c).pc s') : Moves (.tick t i) s'
  | handler {c k r rs s₁ r'} (he : l.exec = .on c) (hk : s.coro c = some k)
      (hsig : (s.context c).sig = r :: rs) (h : Yield ops preemption s t l r s₁ r') :
      Moves (.tick t .step) (s₁.setSig c (r'.toList ++ rs))
  | death {s'} (h : Death ops s t l l.exec s') : Moves (.tick t .step) s'
  | signal {c} (hp : preemption = true) (hl : l.preemptLock = false) (he : l.exec = .on c) :
      Moves (.signal t) (s.setSig c (.check :: (s.context c).sig))

/-! ## The inversion -/

variable {preemption s t l} {s' : State Q ι δ}

theorem schedBlockPreempt_ok {k : State Q ι δ → State Q ι δ}
    (h : schedBlockPreempt preemption s t l k = s') (hf : s'.failure = none) :
    (preemption = true → l.preemptLock = false) ∧ s' = k (s.setPreempt preemption t true) := by
  unfold schedBlockPreempt at h
  unfold State.setPreempt
  split at h
  · next hp =>
    split at h
    · subst h; cases hf
    · next hl => exact ⟨fun _ => by simpa using hl, by rw [if_pos hp, h]⟩
  · next hp => exact ⟨fun h => absurd h hp, by rw [if_neg hp, h]⟩

theorem schedUnblockPreempt_ok {k : State Q ι δ → State Q ι δ}
    (h : schedUnblockPreempt preemption s t l k = s') (hf : s'.failure = none) :
    (preemption = true → l.preemptLock = true) ∧ s' = k (s.setPreempt preemption t false) := by
  unfold schedUnblockPreempt at h
  unfold State.setPreempt
  split at h
  · next hp =>
    split at h
    · next hl => exact ⟨fun _ => hl, by rw [if_pos hp, h]⟩
    · subst h; cases hf
  · next hp => exact ⟨fun h => absurd h hp, by rw [if_neg hp, h]⟩

/-- A step of `sched_enqueue_locked` that succeeds. -/
theorem schedEnqueueLocked_ok {c : Cid} {p : EnqPc ι}
    {k : State Q ι δ → Option (EnqPc ι) → State Q ι δ}
    (h : schedEnqueueLocked ops s t c p k = s') (hf : s'.failure = none) :
    (p = .assert ∧ ops.listInList s.queues c = false ∧ s' = k s (some (.push ops.pushStart))) ∨
    (∃ p₀ q p', p = .push p₀ ∧ ops.push s.queues t c p₀ = (q, some p') ∧
      s' = k { s with queues := q } (some (.push p'))) ∨
    ∃ p₀ q, p = .push p₀ ∧ ops.push s.queues t c p₀ = (q, none) ∧
      s' = k { s with queues := q } none := by
  cases p with
  | assert =>
    simp only [schedEnqueueLocked] at h
    split at h
    · subst h; cases hf
    · next hn => exact .inl ⟨rfl, by simpa using hn, h.symm⟩
  | push p =>
    simp only [schedEnqueueLocked] at h
    rcases hq : ops.push s.queues t c p with ⟨q, _ | p'⟩ <;> rw [hq] at h
    · exact .inr (.inr ⟨p, q, rfl, hq, h.symm⟩)
    · exact .inr (.inl ⟨p, q, p', rfl, hq, h.symm⟩)

/-- A step of `sched_dequeue_locked` that succeeds. -/
theorem schedDequeueLocked_ok {p : δ} {k : State Q ι δ → δ ⊕ Cid → State Q ι δ}
    (h : schedDequeueLocked ops s t p k = s') (hf : s'.failure = none) :
    (∃ q p', ops.pop s.queues t p = (q, .inl p') ∧ s' = k { s with queues := q } (.inl p')) ∨
    ∃ q x, ops.pop s.queues t p = (q, .inr (some x)) ∧ s' = k { s with queues := q } (.inr x) := by
  simp only [schedDequeueLocked] at h
  rcases hq : ops.pop s.queues t p with ⟨q, p' | _ | x⟩ <;> rw [hq] at h
  · exact .inl ⟨q, p', rfl, h.symm⟩
  · subst h; cases hf
  · exact .inr ⟨q, x, rfl, h.symm⟩

/-- A step of `sched_resched` that succeeds. -/
theorem schedResched_ok {r : ReschedPc ι δ}
    {k : State Q ι δ → Option (ReschedPc ι δ) → State Q ι δ}
    (h : schedResched ops preemption s t l r k = s') (hf : s'.failure = none) :
    ∃ s₁ r', Yield ops preemption s t l r s₁ r' ∧ s' = k s₁ r' := by
  cases r with
  | check =>
    simp only [schedResched] at h
    split at h
    · next he => exact ⟨s, _, .idle he, h.symm⟩
    · next he => exact ⟨s, _, .busy (by simpa using he), h.symm⟩
  | enqueue c p =>
    simp only [schedResched] at h
    rcases schedEnqueueLocked_ok ops h hf with
      ⟨rfl, hn, rfl⟩ | ⟨p, q, p', rfl, hq, rfl⟩ | ⟨p, q, rfl, hq, rfl⟩
    · exact ⟨_, _, .assert hn, rfl⟩
    · exact ⟨_, _, .push hq, rfl⟩
    · exact ⟨_, _, .pushed hq, rfl⟩
  | dequeue p =>
    simp only [schedResched] at h
    rcases schedDequeueLocked_ok ops h hf with ⟨q, p', hq, rfl⟩ | ⟨q, x, hq, rfl⟩
    · exact ⟨_, _, .pop hq, rfl⟩
    · exact ⟨_, _, .popped hq, rfl⟩
  | switch x =>
    simp only [schedResched, schedSwitchContext] at h
    obtain ⟨hp, rfl⟩ := schedBlockPreempt_ok h hf
    have hcoro : ((s.setPreempt preemption t true).modCoro l.currentCoro
        ({ · with privateErrno := l.errno })).coro =
        (s.modCoro l.currentCoro ({ · with privateErrno := l.errno })).coro := by
      unfold State.setPreempt; split <;> rfl
    revert hf
    rw [hcoro]
    split
    · next hk => intro hf; cases hf
    · next k hk => exact fun _ => ⟨_, _, .switch hp hk, rfl⟩
  | resumed =>
    simp only [schedResched] at h
    obtain ⟨hp, rfl⟩ := schedUnblockPreempt_ok h hf
    exact ⟨_, _, .resumed hp, rfl⟩

variable {c : Cid} {k : Coroutine} {i : Input}

theorem userStep_stride {o : Op} (h : userStep ops preemption s t c k l o = some s')
    (hf : s'.failure = none) (hk : s.coro c = some k) :
    Stride ops preemption s t l c (.op o) .user s' := by
  cases o with
  | setErrno e => cases h; exact .setErrno rfl
  | newCoroutine => cases h; exact .newCoroutine rfl
  | resched => cases h; exact .flow (.resched rfl)
  | wait time => cases h; exact .wait rfl
  | eventWait fd events => cases h; exact .eventWait rfl
  | suspend => cases h; exact .flow (.suspend rfl)
  | schedule x => cases h; exact .flow (.schedule rfl)
  | ret =>
    simp only [userStep] at h
    split at h
    · next hs =>
      obtain ⟨hp, rfl⟩ := schedBlockPreempt_ok (Option.some.inj h) hf
      exact .ret rfl hk hs hp
    · cases h

/-- A step of a coroutine's own code that succeeds. -/
theorem pcStep_stride (h : pcStep ops preemption s t c k l i = some s') (hf : s'.failure = none)
    (hk : s.coro c = some k) : Stride ops preemption s t l c i (s.context c).pc s' := by
  unfold pcStep at h
  generalize (s.context c).pc = pc at h ⊢
  cases pc with
  | trampoline =>
    cases i <;> simp only [reduceCtorEq, Option.some.injEq] at h
    obtain ⟨hp, rfl⟩ := schedUnblockPreempt_ok h hf
    have hcoro : (s.setPreempt preemption t false).coro = s.coro := by
      unfold State.setPreempt; split <;> rfl
    revert hf
    rw [hcoro]
    rcases hcur : s.coro l.currentCoro with _ | k
    · intro hf; cases hf
    · rcases hs : k.start with _ | _ | u
      · intro hf; simp [hs, State.fail] at hf
      · simp only [Option.bind_some, hs]
        exact fun _ => .trampoline hp hcur hs
      · simp only [Option.bind_some, hs]
        exact fun _ => .trampoline hp hcur hs
  | user =>
    cases i <;> simp only [reduceCtorEq] at h
    exact userStep_stride ops h hf hk
  | resched r ret =>
    cases i <;> simp only [reduceCtorEq, Option.some.injEq] at h
    obtain ⟨s₁, r', hy, rfl⟩ := schedResched_ok ops h hf
    exact .resched hy
  | waitLock w =>
    cases i <;> simp only [reduceCtorEq] at h
    split at h
    · next hl => cases h; exact .waitLock hl
    · cases h
  | waitPush w =>
    cases i <;> simp only [reduceCtorEq] at h
    split at h
    · next hl => cases h; exact .waitPush hl
    · cases h; cases hf
  | waitUnlock =>
    cases i <;> simp only [reduceCtorEq] at h
    cases h; exact .waitUnlock
  | eventRegister fd events =>
    cases i <;> simp only [reduceCtorEq] at h
    split at h
    · cases h; cases hf
    · next hr => cases h; exact .eventRegister (by simpa using hr)
  | eventUnregister fd =>
    cases i <;> simp only [reduceCtorEq] at h
    split at h
    · next hr =>
      rcases hw : s.eventWait c with _ | w <;> simp only [hw] at h
      · cases h; cases hf
      · split at h
        · cases h; cases hf
        · next he => cases h; exact .eventUnregister hr hw he
    · cases h; cases hf
  | suspendBlock ret =>
    cases i <;> simp only [reduceCtorEq, Option.some.injEq] at h
    obtain ⟨hp, rfl⟩ := schedBlockPreempt_ok h hf
    exact .suspendBlock hp
  | suspendDequeue current p ret =>
    cases i <;> simp only [reduceCtorEq, Option.some.injEq] at h
    rcases schedDequeueLocked_ok ops h hf with ⟨q, p', hq, rfl⟩ | ⟨q, x, hq, rfl⟩
    · exact .suspendPop hq
    · revert hf
      simp only [suspendTake]
      split
      · intro hf; cases hf
      · next kx hkx => exact fun _ => .suspendTake hq hkx
  | suspendCmpxchg current x ret =>
    cases i <;> simp only [reduceCtorEq, Option.some.injEq] at h
    unfold suspendCmpxchg at h
    split at h
    · subst h; cases hf
    · next kc hkc =>
      split at h
      · next hb => subst h; exact .park hkc hb
      · next hb => subst h; exact .abort hkc hb
  | suspendEnqueue x p ret =>
    cases i <;> simp only [reduceCtorEq, Option.some.injEq] at h
    rcases schedEnqueueLocked_ok ops h hf with
      ⟨rfl, hn, rfl⟩ | ⟨p, q, p', rfl, hq, rfl⟩ | ⟨p, q, rfl, hq, rfl⟩
    · exact .flow (.suspendAssert hn)
    · exact .suspendPush hq
    · exact .suspendPushed hq
  | suspendUnblock ret =>
    cases i <;> simp only [reduceCtorEq, Option.some.injEq] at h
    obtain ⟨hp, rfl⟩ := schedUnblockPreempt_ok h hf
    exact .suspendUnblock hp
  | scheduleXchg x ret =>
    cases i <;> simp only [reduceCtorEq, Option.some.injEq] at h
    unfold scheduleXchg at h
    split at h
    · subst h; cases hf
    · next kx hkx =>
      split at h
      · next hb => subst h; exact .rouse hkx hb
      · next hb => subst h; exact .wake hkx (not_not.1 hb)
  | scheduleEnqueue x p ret =>
    cases i <;> simp only [reduceCtorEq, Option.some.injEq] at h
    rcases schedEnqueueLocked_ok ops h hf with
      ⟨rfl, hn, rfl⟩ | ⟨p, q, p', rfl, hq, rfl⟩ | ⟨p, q, rfl, hq, rfl⟩
    · exact .flow (.scheduleAssert hn)
    · exact .schedulePush hq
    · exact .schedulePushed hq
  | newLoad x =>
    cases i <;> simp only [reduceCtorEq, Option.some.injEq] at h
    split at h
    · next hc => subst h; exact .flow (.newFull hc)
    · next hc => subst h; exact .flow (.newRoom (not_le.1 hc))
  | newFetchAdd x =>
    cases i <;> simp only [reduceCtorEq, Option.some.injEq] at h
    subst h; exact .fetchAdd
  | newLocal x slot =>
    cases i <;> simp only [reduceCtorEq, Option.some.injEq] at h
    subst h; exact .newLocal rfl
  | newEnqueue x u p =>
    cases i <;> simp only [reduceCtorEq, Option.some.injEq] at h
    rcases schedEnqueueLocked_ok ops h hf with
      ⟨rfl, hn, rfl⟩ | ⟨p, q, p', rfl, hq, rfl⟩ | ⟨p, q, rfl, hq, rfl⟩
    · exact .flow (.newAssert hn)
    · exact .newPush hq
    · exact .newPushed hq
  | newStart u =>
    cases i <;> simp only [reduceCtorEq, Option.some.injEq] at h
    subst h; exact .newStart
  | loopTop u =>
    cases i <;> simp only [reduceCtorEq, Option.some.injEq] at h
    split at h
    · next he => subst h; exact .flow (.loopEmpty he)
    · next he => subst h; exact .flow (.loopBusy (by simpa using he))
  | loopMin u =>
    cases i <;> simp only [reduceCtorEq, Option.some.injEq] at h
    rcases hm : (heapMin s.timerHeap).1 with _ | w <;> rw [hm] at h <;> subst h
    · exact .loopNone hm
    · exact .loopMin hm
  | loopExpire u w =>
    cases i <;> simp only [reduceCtorEq, Option.some.injEq] at h
    subst h; exact .flow (.loopExpire rfl)
  | pollWait u v =>
    cases i <;> simp only [reduceCtorEq] at h
    next o =>
    cases o with
    | eintr => cases h; exact .eintr rfl
    | error => cases h; cases hf
    | ready events =>
      simp only [pollReturn] at h
      split at h
      · next hl =>
        obtain ⟨d, hd, rfl⟩ := Option.map_eq_some_iff.1 h
        exact .ready rfl hl hd
      · cases h
  | pollEvents u v batch full =>
    cases batch with
    | nil =>
      cases i <;> simp only [reduceCtorEq, Option.some.injEq] at h
      cases full
      · subst h; exact .flow .pollDone
      · subst h; exact .flow .pollAgain
    | cons e rest =>
      cases i <;> simp only [reduceCtorEq, Option.some.injEq] at h
      unfold schedPollEvent at h
      rcases hw : s.eventWait e.1 with _ | w <;> simp only [hw] at h
      · subst h; cases hf
      · rcases hx : w.coro with _ | x <;> simp only [hx] at h
        · subst h; exact .flow (.pollTaken hw hx)
        · subst h; exact .pollEvent hw hx
  | timersEmpty u v =>
    cases i <;> simp only [reduceCtorEq, Option.some.injEq] at h
    split at h
    · next he => subst h; exact .flow (.timersNone he)
    · next he => subst h; exact .flow (.timersSome (by simpa using he))
  | timersLock u v =>
    cases i <;> simp only [reduceCtorEq] at h
    split at h
    · next hl => cases h; exact .timersLock hl
    · cases h
  | timersMin u v =>
    cases i <;> simp only [reduceCtorEq, Option.some.injEq] at h
    subst h; exact .timersMin
  | timersExpire u v w =>
    cases i <;> simp only [reduceCtorEq, Option.some.injEq] at h
    split at h
    · next hd => subst h; exact .flow (.timersDue rfl hd)
    · next hd => subst h; exact .flow (.timersLater rfl hd)
  | timersPop u v w =>
    cases i <;> simp only [reduceCtorEq, Option.some.injEq] at h
    subst h; exact .timersPop
  | timersUnlock u v again =>
    cases i <;> simp only [reduceCtorEq, Option.some.injEq] at h
    subst h; exact .timersUnlock

/-- A step of `free_coro` that succeeds. -/
theorem deathStep_death (h : deathStep ops s t l = some s') (hf : s'.failure = none) :
    Death ops s t l l.exec s' := by
  unfold deathStep at h
  generalize l.exec = e at h ⊢
  cases e with
  | on c => cases h
  | free =>
    simp only at h
    split at h
    · cases h; cases hf
    · next hn => cases h; exact .free (by simpa using hn)
  | dequeue p =>
    simp only [Option.some.injEq] at h
    rcases schedDequeueLocked_ok ops h hf with ⟨q, p', hq, rfl⟩ | ⟨q, x, hq, rfl⟩
    · exact .pop hq
    · exact .popped hq
  | restore x => cases h; exact .restore

/-- A program that has stopped does nothing. -/
theorem step_failure {a : Act} (h : step ops preemption s a = some s') : s.failure = none := by
  unfold step at h
  split at h
  · cases h
  · next hf => simpa using hf

/-- **What an action does**: it is one of a started thread, in a program that has not stopped. -/
theorem step_moves {a : Act} (h : step ops preemption s a = some s') (hf : s'.failure = none) :
    s.failure = none ∧
      ∃ t l, s.sched t = some l ∧ l.started = true ∧ Moves ops preemption s t l a s' := by
  unfold step at h
  split at h
  · cases h
  · next hrun =>
    refine ⟨by simpa using hrun, ?_⟩
    cases a with
    | tick t i =>
      simp only [threadStep] at h
      rcases hl : s.sched t with _ | l <;> simp only [hl] at h
      · cases h
      · split at h
        · next hst =>
          refine ⟨t, l, hl, hst, ?_⟩
          rcases he : l.exec with c | _ | p | x <;> simp only [he] at h
          · rcases hk : s.coro c with _ | k <;> simp only [hk] at h
            · cases h
            · rcases hsig : (s.context c).sig with _ | ⟨r, rs⟩ <;> simp only [hsig] at h
              · exact .stride he hk hsig (pcStep_stride ops h hf hk)
              · cases i <;> simp only [reduceCtorEq, Option.some.injEq] at h
                obtain ⟨s₁, r', hy, rfl⟩ := schedResched_ok ops h hf
                exact .handler he hk hsig hy
          all_goals
            cases i <;> simp only [reduceCtorEq] at h
            exact .death (deathStep_death ops h hf)
        · cases h
    | signal t =>
      simp only at h
      split at h
      · next hp =>
        simp only [signalStep] at h
        rcases hl : s.sched t with _ | l <;> simp only [hl] at h
        · cases h
        · split at h
          · next hst =>
            refine ⟨t, l, hl, hst.1, ?_⟩
            rcases he : l.exec with c | _ | p | x <;>
              simp only [he, reduceCtorEq, Option.some.injEq] at h
            subst h
            exact .signal hp hst.2 he
          · cases h
      · cases h

end

end Lwthread.Scheduler
