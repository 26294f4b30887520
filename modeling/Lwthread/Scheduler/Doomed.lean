import Lwthread.Scheduler.Frame

/-!
# Signals between the enqueue and the switch of `sched_resched`

A handler that interrupts `sched_resched` after it has enqueued its coroutine finds that coroutine on
the run list, so it does not come past the assertion of `sched_enqueue_locked`, and until then it
changes nothing. A run with such signals is therefore a run without them, with these handlers on top
of the stacks (`overlay`), until the program stops: `Noted.shadow`. What is known of runs without such
signals carries over.
-/

namespace Lwthread.Scheduler

open Lwthread.Util Lwthread.Platform Custody

/-! ## Handlers on top of the stacks -/

section

variable {Q ι δ : Type}

/-- The handlers `ds` on top of the stacks. -/
def State.overlay (s : State Q ι δ) (ds : Cid → List (ReschedPc ι δ)) : State Q ι δ :=
  { s with context := fun c => ⟨(s.context c).pc, ds c ++ (s.context c).sig⟩ }

variable (ops : ListOps Q ι δ) (preemption : Bool) (s : State Q ι δ) (t : Tid) (c : Cid)
  (ds : Cid → List (ReschedPc ι δ)) (l : LocalSched δ)

theorem overlay_goto (pc : Pc ι δ) : (s.overlay ds).goto c pc = (s.goto c pc).overlay ds := by
  unfold State.overlay State.goto
  congr 1
  funext d
  by_cases hd : d = c
  · subst hd; simp
  · simp [hd]

/-! Every operation that goes on as `k` commutes with `overlay`, if `k` does. -/

section

variable {k : State Q ι δ → State Q ι δ} (hk : ∀ s, k (s.overlay ds) = (k s).overlay ds)

include hk

theorem overlay_block : schedBlockPreempt preemption (s.overlay ds) t l k =
    (schedBlockPreempt preemption s t l k).overlay ds := by
  unfold schedBlockPreempt
  split
  · split
    · rfl
    · exact hk (s.modSched t _)
  · exact hk s

theorem overlay_unblock : schedUnblockPreempt preemption (s.overlay ds) t l k =
    (schedUnblockPreempt preemption s t l k).overlay ds := by
  unfold schedUnblockPreempt
  split
  · split
    · exact hk (s.modSched t _)
    · rfl
  · exact hk s

theorem overlay_switch (x : Cid) : schedSwitchContext preemption (s.overlay ds) t l x k =
    (schedSwitchContext preemption s t l x k).overlay ds := by
  unfold schedSwitchContext
  refine overlay_block preemption s t ds l fun s => ?_
  have hcoro : ((s.overlay ds).modCoro l.currentCoro ({ · with privateErrno := l.errno })).coro x =
      (s.modCoro l.currentCoro ({ · with privateErrno := l.errno })).coro x := rfl
  simp only [hcoro]
  rcases (s.modCoro l.currentCoro ({ · with privateErrno := l.errno })).coro x with _ | kx
  · rfl
  · exact hk ((s.modCoro l.currentCoro ({ · with privateErrno := l.errno })).modSched t
      ({ · with currentCoro := x, errno := kx.privateErrno, exec := .on x }))

end

theorem overlay_enqueue (x : Cid) (p : EnqPc ι)
    {k : State Q ι δ → Option (EnqPc ι) → State Q ι δ}
    (hk : ∀ s p, k (s.overlay ds) p = (k s p).overlay ds) :
    schedEnqueueLocked ops (s.overlay ds) t x p k = (schedEnqueueLocked ops s t x p k).overlay ds := by
  cases p with
  | assert =>
    have hq : (s.overlay ds).queues = s.queues := rfl
    simp only [schedEnqueueLocked, hq]
    by_cases hin : ops.listInList s.queues x = true
    · rw [if_pos hin, if_pos hin]; rfl
    · rw [if_neg hin, if_neg hin]; exact hk s _
  | push p => exact hk { s with queues := (ops.push s.queues t x p).1 } _

theorem overlay_dequeue (p : δ) {k : State Q ι δ → δ ⊕ Cid → State Q ι δ}
    (hk : ∀ s p, k (s.overlay ds) p = (k s p).overlay ds) :
    schedDequeueLocked ops (s.overlay ds) t p k = (schedDequeueLocked ops s t p k).overlay ds := by
  have hq : (s.overlay ds).queues = s.queues := rfl
  simp only [schedDequeueLocked, hq]
  rcases ops.pop s.queues t p with ⟨q, p' | _ | x⟩
  · exact hk { s with queues := q } _
  · rfl
  · exact hk { s with queues := q } _

theorem overlay_resched (r : ReschedPc ι δ)
    {k : State Q ι δ → Option (ReschedPc ι δ) → State Q ι δ}
    (hk : ∀ s r, k (s.overlay ds) r = (k s r).overlay ds) :
    schedResched ops preemption (s.overlay ds) t l r k =
      (schedResched ops preemption s t l r k).overlay ds := by
  cases r with
  | check =>
    have hq : (s.overlay ds).queues = s.queues := rfl
    simp only [schedResched, hq]
    by_cases hemp : ops.listEmpty s.queues t = true
    · rw [if_pos hemp, if_pos hemp]; exact hk s _
    · rw [if_neg hemp, if_neg hemp]; exact hk s _
  | enqueue current p =>
    simp only [schedResched]
    exact overlay_enqueue ops s t ds current p fun s p => hk s _
  | dequeue p =>
    simp only [schedResched]
    exact overlay_dequeue ops s t ds p fun s p => hk s _
  | switch x =>
    simp only [schedResched]
    exact overlay_switch preemption s t ds l (fun s => hk s _) x
  | resumed =>
    simp only [schedResched]
    exact overlay_unblock preemption s t ds l fun s => hk s _

theorem overlay_makeCoro (start : Start) (hnew : ds s.coros = []) :
    schedMakeCoro ops (s.overlay ds) start = (schedMakeCoro ops s start).overlay ds := by
  unfold schedMakeCoro State.overlay
  congr 1
  funext d
  by_cases hd : d = s.coros
  · subst hd; simp [hnew]
  · simp [hd]

theorem overlay_newLocal (state errno : Int) (pc : Tid → Pc ι δ) (hnew : ds s.coros = []) :
    schedNewLocal ops (s.overlay ds) state errno pc =
      (schedNewLocal ops s state errno pc).overlay ds := by
  unfold schedNewLocal State.overlay
  congr 1
  funext d
  by_cases hd : d = s.coros
  · subst hd; simp [hnew]
  · simp [hd]

theorem overlay_suspendTake (current x : Cid) (ret : SuspendRet) :
    suspendTake (s.overlay ds) t c l current x ret =
      (suspendTake s t c l current x ret).overlay ds := by
  have hcoro : ((s.overlay ds).modCoro current ({ · with privateErrno := l.errno })).coro x =
      (s.modCoro current ({ · with privateErrno := l.errno })).coro x := rfl
  simp only [suspendTake, hcoro]
  rcases (s.modCoro current ({ · with privateErrno := l.errno })).coro x with _ | k
  · rfl
  · exact overlay_goto ((s.modCoro current ({ · with privateErrno := l.errno })).modSched t
      ({ · with currentCoro := x, errno := k.privateErrno })) c ds _

theorem overlay_suspendCmpxchg (current x : Cid) (ret : SuspendRet) :
    suspendCmpxchg (s.overlay ds) t c current x ret =
      (suspendCmpxchg s t c current x ret).overlay ds := by
  have hcoro : (s.overlay ds).coro current = s.coro current := rfl
  simp only [suspendCmpxchg, hcoro]
  rcases s.coro current with _ | k
  · rfl
  · dsimp only
    by_cases hb : k.state = STATE_BLOCKING
    · rw [if_pos hb, if_pos hb]
      exact congrArg (State.modSched · t ({ · with exec := .on x }))
        (overlay_goto (s.modCoro current ({ · with state := STATE_BLOCKED })) c ds _)
    · rw [if_neg hb, if_neg hb]
      exact overlay_goto (s.modSched t
        ({ · with currentCoro := current, errno := k.privateErrno })) c ds _

theorem overlay_scheduleXchg (x : Cid) (ret : ScheduleRet) :
    scheduleXchg (s.overlay ds) c x ret = (scheduleXchg s c x ret).overlay ds := by
  have hcoro : (s.overlay ds).coro x = s.coro x := rfl
  simp only [scheduleXchg, hcoro]
  rcases s.coro x with _ | k
  · rfl
  · dsimp only
    by_cases hb : k.state ≠ STATE_BLOCKED
    · rw [if_pos hb, if_pos hb]
      exact overlay_goto (s.modCoro x ({ · with state := STATE_RUNNABLE })) c ds _
    · rw [if_neg hb, if_neg hb]
      exact overlay_goto (s.modCoro x ({ · with state := STATE_RUNNABLE })) c ds _

theorem overlay_pollReturn (u : Tid) (v : Int) (o : Outcome Nat) :
    pollReturn (s.overlay ds) c u v o = (pollReturn s c u v o).map (·.overlay ds) := by
  cases o with
  | ready events =>
    have hpoller : (s.overlay ds).poller = s.poller := rfl
    simp only [pollReturn, hpoller]
    by_cases hlen : events.length ≤ MAX_EVENTS
    · rw [if_pos hlen, if_pos hlen]
      rcases deliver s.poller events with _ | d
      · rfl
      · exact congrArg some (overlay_goto { s with poller := d.2 } c ds _)
    · rw [if_neg hlen, if_neg hlen]; rfl
  | _ => rfl

theorem overlay_pollEvent (u : Tid) (v : Int) (key : Cid) (revents : Nat) (rest : List (Cid × Nat))
    (full : Bool) : schedPollEvent (s.overlay ds) c u v key revents rest full =
      (schedPollEvent s c u v key revents rest full).overlay ds := by
  have hrecord : (s.overlay ds).eventWait = s.eventWait := rfl
  simp only [schedPollEvent, hrecord]
  rcases s.eventWait key with _ | w
  · rfl
  · dsimp only
    rcases w.coro with _ | x
    · exact overlay_goto s c ds _
    · exact overlay_goto { s with
        eventWait := Function.update s.eventWait key
          (some { w with coro := none, events := revents }) } c ds _

theorem overlay_userStep (k : Coroutine) (o : Op) (hnew : ds s.coros = []) :
    userStep ops preemption (s.overlay ds) t c k l o =
      (userStep ops preemption s t c k l o).map (·.overlay ds) := by
  have hgoto : ∀ (s : State Q ι δ) (pc : Pc ι δ),
      some ((s.overlay ds).goto c pc) = (some (s.goto c pc)).map (·.overlay ds) := fun s pc => by
    rw [overlay_goto, Option.map_some]
  cases o with
  | setErrno => rfl
  | newCoroutine =>
    unfold userStep
    rw [overlay_makeCoro ops s ds _ hnew]
    exact hgoto (schedMakeCoro ops s .user) _
  | resched => exact hgoto s _
  | wait => exact hgoto (schedPrepareToSuspend s l) _
  | eventWait fd events =>
    exact hgoto (schedPrepareToSuspend
      { s with eventWait := Function.update s.eventWait c (some ⟨fd, 0, some l.currentCoro⟩) } l) _
  | suspend => exact hgoto s _
  | schedule => exact hgoto s _
  | ret =>
    unfold userStep
    by_cases hstart : k.start = some .user
    · rw [if_pos hstart, if_pos hstart, overlay_block preemption s t ds l fun _ => rfl]
      rfl
    · rw [if_neg hstart, if_neg hstart]
      rfl

theorem overlay_pcStep (k : Coroutine) (i : Input) (hnew : ds s.coros = []) :
    pcStep ops preemption (s.overlay ds) t c k l i =
      (pcStep ops preemption s t c k l i).map (·.overlay ds) := by
  have hgoto : ∀ (s : State Q ι δ) (pc : Pc ι δ),
      some ((s.overlay ds).goto c pc) = (some (s.goto c pc)).map (·.overlay ds) := fun s pc => by
    rw [overlay_goto, Option.map_some]
  have hpc : ((s.overlay ds).context c).pc = (s.context c).pc := rfl
  have hlock : (s.overlay ds).lock = s.lock := rfl
  have hheap : (s.overlay ds).timerHeap = s.timerHeap := rfl
  have hpoller : (s.overlay ds).poller = s.poller := rfl
  have hrecord : (s.overlay ds).eventWait = s.eventWait := rfl
  unfold pcStep
  rw [hpc]
  generalize (s.context c).pc = pc
  cases pc with
  | user =>
    cases i with
    | op o => exact overlay_userStep ops preemption s t c ds l k o hnew
    | _ => rfl
  | resched r ret =>
    cases i with
    | step =>
      dsimp only
      rw [overlay_resched ops preemption s t ds l r fun s r => overlay_goto s c ds _]
      rfl
    | _ => rfl
  | trampoline =>
    cases i with
    | step =>
      dsimp only
      rw [overlay_unblock preemption s t ds l fun s => ?_]
      · rfl
      · have hcoro : (s.overlay ds).coro = s.coro := rfl
        simp only [hcoro]
        rcases (s.coro l.currentCoro).bind (·.start) with _ | _ | u
        · rfl
        · exact overlay_goto s c ds _
        · exact overlay_goto s c ds _
    | _ => rfl
  | waitLock w =>
    cases i with
    | step =>
      dsimp only
      rw [hlock]
      by_cases hfree : s.lock = none
      · rw [if_pos hfree, if_pos hfree]; exact hgoto { s with lock := some c } _
      · rw [if_neg hfree, if_neg hfree]; rfl
    | _ => rfl
  | waitPush w =>
    cases i with
    | step =>
      dsimp only
      rw [hheap]
      by_cases hfits : heapPushFits s.timerHeap = true
      · rw [if_pos hfits, if_pos hfits]
        exact hgoto { s with timerHeap := (heapPush .block s.timerHeap w).2 } _
      · rw [if_neg hfits, if_neg hfits]; rfl
    | _ => rfl
  | waitUnlock =>
    cases i with
    | step =>
      exact hgoto { s with lock := none } _
    | _ => rfl
  | eventRegister fd events =>
    cases i with
    | step =>
      dsimp only
      rw [hpoller]
      by_cases hr : s.poller.any (·.fd == fd) = true
      · rw [if_pos hr, if_pos hr]; rfl
      · rw [if_neg hr, if_neg hr]; exact hgoto { s with poller := s.poller ++ [⟨fd, c, true⟩] } _
    | _ => rfl
  | eventUnregister fd =>
    cases i with
    | step =>
      dsimp only
      rw [hpoller, hrecord]
      by_cases hr : s.poller.any (·.fd == fd) = true
      · rw [if_pos hr, if_pos hr]
        rcases s.eventWait c with _ | w
        · rfl
        · dsimp only
          by_cases hw : w.events = 0
          · rw [if_pos hw, if_pos hw]; rfl
          · rw [if_neg hw, if_neg hw]
            exact hgoto { s with
              poller := s.poller.filter (·.fd != fd)
              eventWait := Function.update s.eventWait c none } _
      · rw [if_neg hr, if_neg hr]; rfl
    | _ => rfl
  | suspendBlock ret =>
    cases i with
    | step =>
      dsimp only
      rw [overlay_block preemption s t ds l fun s => overlay_goto s c ds _]
      rfl
    | _ => rfl
  | suspendDequeue current p ret =>
    cases i with
    | step =>
      dsimp only
      rw [overlay_dequeue ops s t ds p fun s r => ?_]
      · rfl
      · cases r with
        | inl p => exact overlay_goto s c ds _
        | inr x => exact overlay_suspendTake s t c ds l current x ret
    | _ => rfl
  | suspendCmpxchg current x ret =>
    cases i with
    | step =>
      exact congrArg some (overlay_suspendCmpxchg s t c ds current x ret)
    | _ => rfl
  | suspendEnqueue x p ret =>
    cases i with
    | step =>
      dsimp only
      rw [overlay_enqueue ops s t ds x p fun s p => overlay_goto s c ds _]
      rfl
    | _ => rfl
  | suspendUnblock ret =>
    cases i with
    | step =>
      dsimp only
      rw [overlay_unblock preemption s t ds l fun s => overlay_goto s c ds _]
      rfl
    | _ => rfl
  | scheduleXchg x ret =>
    cases i with
    | step =>
      exact congrArg some (overlay_scheduleXchg s c ds x ret)
    | _ => rfl
  | scheduleEnqueue x p ret =>
    cases i with
    | step =>
      dsimp only
      rw [overlay_enqueue ops s t ds x p fun s p => overlay_goto s c ds _]
      rfl
    | _ => rfl
  | newLoad x =>
    cases i with
    | step =>
      exact hgoto s _
    | _ => rfl
  | newFetchAdd x =>
    cases i with
    | step =>
      exact hgoto { s with localCount := (s.localCount + 1) % 2 ^ 32 } _
    | _ => rfl
  | newLocal x slot =>
    cases i with
    | garbage state errno =>
      dsimp only
      rw [overlay_newLocal ops s ds state errno .loopTop hnew]
      exact hgoto (State.modCoro { schedNewLocal ops s state errno .loopTop with
        localSchedulers := Function.update (schedNewLocal ops s state errno .loopTop).localSchedulers
          slot (some s.locals) } x ({ · with state := STATE_RUNNABLE })) _
    | _ => rfl
  | newEnqueue x u p =>
    cases i with
    | step =>
      dsimp only
      rw [overlay_enqueue ops s u ds x p fun s p => overlay_goto s c ds _]
      rfl
    | _ => rfl
  | newStart u =>
    cases i with
    | step =>
      exact hgoto (s.modSched u fun l =>
        { l with eventLoopCoro := some l.currentCoro, started := true }) _
    | _ => rfl
  | loopTop u =>
    cases i with
    | step =>
      exact hgoto s _
    | _ => rfl
  | loopMin u =>
    cases i with
    | step =>
      exact hgoto { s with timerHeap := (heapMin s.timerHeap).2 } _
    | _ => rfl
  | loopExpire u w =>
    cases i with
    | clock now =>
      exact hgoto s _
    | _ => rfl
  | pollWait u v =>
    cases i with
    | epoll o =>
      exact overlay_pollReturn s c ds u v o
    | _ => rfl
  | pollEvents u v batch full =>
    cases i with
    | step =>
      cases batch with
      | nil => exact hgoto s _
      | cons e rest => exact congrArg some (overlay_pollEvent s c ds u v e.1 e.2 rest full)
    | _ => cases batch <;> rfl
  | timersEmpty u v =>
    cases i with
    | step =>
      exact hgoto s _
    | _ => rfl
  | timersLock u v =>
    cases i with
    | step =>
      dsimp only
      rw [hlock]
      by_cases hfree : s.lock = none
      · rw [if_pos hfree, if_pos hfree]; exact hgoto { s with lock := some c } _
      · rw [if_neg hfree, if_neg hfree]; rfl
    | _ => rfl
  | timersMin u v =>
    cases i with
    | step =>
      exact hgoto { s with timerHeap := (heapMin s.timerHeap).2 } _
    | _ => rfl
  | timersExpire u v w =>
    cases i with
    | clock now =>
      exact hgoto s _
    | _ => rfl
  | timersPop u v w =>
    cases i with
    | step =>
      exact hgoto { s with timerHeap := (heapPopMin .block s.timerHeap).2 } _
    | _ => rfl
  | timersUnlock u v again =>
    cases i with
    | step =>
      exact hgoto { s with lock := none } _
    | _ => rfl

theorem overlay_deathStep : deathStep ops (s.overlay ds) t l =
    (deathStep ops s t l).map (·.overlay ds) := by
  unfold deathStep
  rcases l.exec with _ | _ | p | x
  · rfl
  · have hq : (s.overlay ds).queues = s.queues := rfl
    dsimp only
    rw [hq]
    by_cases hin : ops.listInList s.queues l.currentCoro = true
    · rw [if_pos hin, if_pos hin]; rfl
    · rw [if_neg hin, if_neg hin]; rfl
  · dsimp only
    rw [overlay_dequeue ops s t ds p fun _ _ => rfl]
    rfl
  · rfl

variable {ds}

theorem overlay_setSig (hc : ds c = []) (sig : List (ReschedPc ι δ)) :
    (s.overlay ds).setSig c sig = (s.setSig c sig).overlay ds := by
  unfold State.overlay State.setSig
  congr 1
  funext d
  by_cases hd : d = c
  · subst hd; simp [hc]
  · simp [hd]

/-- A thread that executes no coroutine with such handlers does what it would do without them. -/
theorem overlay_threadStep (i : Input) (hnew : ds s.coros = [])
    (hfree : ∀ {l c}, s.sched t = some l → l.exec = .on c → ds c = []) :
    threadStep ops preemption (s.overlay ds) t i =
      (threadStep ops preemption s t i).map (·.overlay ds) := by
  have hsched : (s.overlay ds).sched t = s.sched t := rfl
  unfold threadStep
  rw [hsched]
  rcases hl : s.sched t with _ | l
  · rfl
  · dsimp only
    by_cases hst : l.started = true
    · rw [if_pos hst, if_pos hst]
      rcases he : l.exec with c | _ | p | x
      · have hc := hfree hl he
        have hcoro : (s.overlay ds).coro c = s.coro c := rfl
        have hsig : ((s.overlay ds).context c).sig = (s.context c).sig :=
          (congrArg (· ++ (s.context c).sig) hc).trans (List.nil_append _)
        dsimp only
        rw [hcoro, hsig]
        rcases s.coro c with _ | k
        · rfl
        · rcases (s.context c).sig with _ | ⟨r, rs⟩
          · exact overlay_pcStep ops preemption s t c ds l k i hnew
          · cases i with
            | step =>
              exact congrArg some (overlay_resched ops preemption s t ds l r fun s r =>
                overlay_setSig s c hc _)
            | _ => rfl
      all_goals
        cases i with
        | step => exact overlay_deathStep ops s t ds l
        | _ => rfl
    · rw [if_neg hst, if_neg hst]
      rfl

/-- An action of a thread that executes no coroutine with such handlers, other than a signal. -/
theorem overlay_step (i : Input) (hnew : ds s.coros = [])
    (hfree : ∀ {l c}, s.sched t = some l → l.exec = .on c → ds c = []) :
    step ops preemption (s.overlay ds) (.tick t i) =
      (step ops preemption s (.tick t i)).map (·.overlay ds) := by
  have hfail : (s.overlay ds).failure = s.failure := rfl
  unfold step
  rw [hfail]
  by_cases hf : s.failure.isSome = true
  · rw [if_pos hf, if_pos hf]; rfl
  · rw [if_neg hf, if_neg hf]
    exact overlay_threadStep ops preemption s t i hnew hfree

end

/-! ## Handlers that do not come past the assertion -/

/-- The handlers `ds` have interrupted `sched_resched` between its enqueue and its switch, and are at
most at the assertion of `sched_enqueue_locked`. -/
structure Doomed (s : SeqState) (ds : Cid → List (ReschedPc Unit Unit)) : Prop where
  runs : ∀ {c}, ds c ≠ [] → ∃ t l, s.sched t = some l ∧ l.started = true ∧ l.exec = .on c ∧
    ((s.context c).seat c).Yields
  stuck : ∀ {c r}, r ∈ ds c → r = .check ∨ r = .enqueue c .assert

/-- The thread of an action is not in such a handler. -/
def Free (s : SeqState) (ds : Cid → List (ReschedPc Unit Unit)) (a : Act) : Prop :=
  ∀ {l c}, s.sched a.thread = some l → l.exec = .on c → ds c = []

/-- An action of the code of no coroutine: of a handler or of `free_coro`, or a signal. -/
def Aside (s : SeqState) (a : Act) : Prop := ∀ t i, a = .tick t i → s.running t = none

section

variable {preemption : Bool} {s s' : SeqState} {t : Tid} {l : LocalSched Unit} {c : Cid} {a : Act}
  {ds : Cid → List (ReschedPc Unit Unit)}

theorem Doomed.none : Doomed s fun _ => [] :=
  ⟨fun h => absurd rfl h, fun hr => absurd hr List.not_mem_nil⟩

theorem ReschedPc.entry_of_yields {r : ReschedPc Unit Unit} (h : (r.seat c).Yields) :
    (r.seat c).entry = some c := by
  cases r with
  | dequeue => rfl
  | switch x =>
    by_cases hx : x = c
    · simp [hx, Seat.Yields] at h
    · simp [hx]
  | _ => exact h.elim

theorem Context.entry_of_yields {x : Context Unit Unit} (h : (x.seat c).Yields) :
    (x.seat c).entry = some c ∧ x.current c = c := by
  obtain ⟨pc, sig⟩ := x
  cases sig with
  | cons r rs => exact ⟨ReschedPc.entry_of_yields h, rfl⟩
  | nil =>
    cases pc with
    | resched r ret => exact ⟨ReschedPc.entry_of_yields h, rfl⟩
    | _ => exact h.elim

section

variable (hI : Inv preemption s)

include hI

/-- A coroutine that has enqueued itself in `sched_resched` is on the run list. -/
theorem Inv.mem_of_yields (hl : s.sched t = some l) (he : l.exec = .on c)
    (hy : ((s.context c).seat c).Yields) : l.currentCoro = c ∧ c ∈ s.queues.list t := by
  have hsit := hI.control.sits hl
  simp only [Sits, he] at hsit
  obtain ⟨hentry, hcur⟩ := Context.entry_of_yields hy
  exact ⟨hsit.2.1.trans hcur, hsit.2.2.1 hentry⟩

omit hI in
theorem overlay_setSig_top (r : ReschedPc Unit Unit) (rs : List (ReschedPc Unit Unit)) :
    (s.overlay ds).setSig c (r :: rs ++ (s.context c).sig) =
      s.overlay (Function.update ds c (r :: rs)) := by
  unfold State.overlay State.setSig
  congr 1
  funext d
  by_cases hd : d = c
  · subst hd; simp
  · simp [hd]

omit hI in
/-- Another such handler on top, or the innermost one at another point. -/
theorem Doomed.top {r : ReschedPc Unit Unit} {rs : List (ReschedPc Unit Unit)} (hD : Doomed s ds)
    (hl : s.sched t = some l) (hst : l.started = true) (he : l.exec = .on c)
    (hy : ((s.context c).seat c).Yields) (hr : r = .check ∨ r = .enqueue c .assert)
    (hrs : ∀ r' ∈ rs, r' ∈ ds c) : Doomed s (Function.update ds c (r :: rs)) := by
  refine ⟨fun {d} hd => ?_, fun {d r'} hr' => ?_⟩
  · by_cases hdc : d = c
    · subst hdc; exact ⟨t, l, hl, hst, he, hy⟩
    · rw [Function.update_of_ne hdc] at hd
      exact hD.runs hd
  · by_cases hdc : d = c
    · subst hdc
      rw [Function.update_self] at hr'
      rcases List.mem_cons.1 hr' with rfl | hr'
      · exact hr
      · exact hD.stuck (hrs r' hr')
    · rw [Function.update_of_ne hdc] at hr'
      exact hD.stuck hr'

/-- A step of such a handler: it stays what it is, or trips the assertion. -/
theorem Doomed.handler_step {i : Input} (hD : Doomed s ds) (hl : s.sched t = some l)
    (he : l.exec = .on c) (hc : ds c ≠ [])
    (h : threadStep seqOps preemption (s.overlay ds) t i = some s') :
    (∃ ds', Doomed s ds' ∧ s' = s.overlay ds') ∨ s'.failure = some .enqueue := by
  obtain ⟨t', l', hl', hst, he', hy⟩ := hD.runs hc
  obtain rfl := hI.exec_inj hl (.inl he) hl' (.inl he')
  cases Option.some.inj (hl.symm.trans hl')
  obtain ⟨hcur, hmem⟩ := hI.mem_of_yields hl he hy
  obtain ⟨r, rs, hrs⟩ := List.exists_cons_of_ne_nil hc
  have hsched : (s.overlay ds).sched t = some l := hl
  have hsig : ((s.overlay ds).context c).sig = r :: (rs ++ (s.context c).sig) := by
    change ds c ++ (s.context c).sig = _
    rw [hrs]
    rfl
  simp only [threadStep, hsched, hst, if_true, he] at h
  rcases hk : (s.overlay ds).coro c with _ | k
  · simp only [hk, reduceCtorEq] at h
  · simp only [hk, hsig] at h
    cases i with
    | step =>
      cases Option.some.inj h
      rcases hD.stuck (c := c) (r := r) (by rw [hrs]; simp) with rfl | rfl
      · have hne : seqOps.listEmpty (s.overlay ds).queues t = false := by
          have : s.queues.list t ≠ [] := List.ne_nil_of_mem hmem
          simpa [seqOps, State.overlay] using this
        refine .inl ⟨Function.update ds c (.enqueue c .assert :: rs),
          hD.top hl hst he hy (.inr rfl) (fun r' hr' => by rw [hrs]; simp [hr']), ?_⟩
        simp only [schedResched, hne, Bool.false_eq_true, if_false, hcur]
        exact overlay_setSig_top _ _
      · have hin : seqOps.listInList (s.overlay ds).queues c = true := (hI.kept.nodes c).2 ⟨t, hmem⟩
        refine .inr ?_
        simp only [schedResched, schedEnqueueLocked, hin, if_true]
        rfl
    | _ => cases h

/-- **What an action does under such handlers**: what it would do without them, or nothing but to
them, or it trips the assertion. -/
theorem Doomed.step_cases (hD : Doomed s ds) (h : step seqOps preemption (s.overlay ds) a = some s') :
    (Free s ds a ∧ Safe s a ∧
      ∃ s₁, step seqOps preemption s a = some s₁ ∧ s' = s₁.overlay ds) ∨
    Aside (s.overlay ds) a ∧ ((∃ ds', Doomed s ds' ∧ s' = s.overlay ds') ∨
      s'.failure = some .enqueue) := by
  have hnew : ds s.coros = [] := by
    by_contra hne
    obtain ⟨t, l, hl, -, he, -⟩ := hD.runs hne
    exact hI.exec_ne_coros hl he rfl
  cases a with
  | tick t i =>
    by_cases hfree : Free s ds (.tick t i)
    · left
      refine ⟨hfree, by rintro _ ⟨⟩, ?_⟩
      rw [overlay_step seqOps preemption s t i hnew hfree] at h
      obtain ⟨s₁, hs₁, rfl⟩ := Option.map_eq_some_iff.1 h
      exact ⟨s₁, hs₁, rfl⟩
    · right
      unfold Free at hfree
      push Not at hfree
      obtain ⟨l, c, hl, he, hc⟩ := hfree
      constructor
      · rintro t' i' ⟨⟩
        have hsched : (s.overlay ds).sched t = some l := hl
        have hsig : ((s.overlay ds).context c).sig.isEmpty = false := by
          obtain ⟨r, rs, hrs⟩ := List.exists_cons_of_ne_nil hc
          change (ds c ++ (s.context c).sig).isEmpty = false
          rw [hrs]
          rfl
        simp only [State.running, hsched, he, hsig, Bool.false_eq_true, if_false]
      · unfold step at h
        split at h
        · cases h
        · exact hD.handler_step hI hl he hc h
  | signal t =>
    unfold step at h
    split at h
    · cases h
    · next hrun =>
      simp only at h
      split at h
      · next hp =>
        have hsched : (s.overlay ds).sched t = s.sched t := rfl
        simp only [signalStep, hsched] at h
        rcases hl : s.sched t with _ | l <;> simp only [hl] at h
        · cases h
        · split at h
          · next hst =>
            rcases he : l.exec with c | _ | p | x <;>
              simp only [he, reduceCtorEq, Option.some.injEq] at h
            have hsig : (s.overlay ds).context c = ⟨(s.context c).pc, ds c ++ (s.context c).sig⟩ := rfl
            rw [hsig] at h
            by_cases hyield : ds c ≠ [] ∨ ((s.context c).seat c).Yields
            · right
              have hy : ((s.context c).seat c).Yields := by
                rcases hyield with hc | hy
                · obtain ⟨-, -, -, -, -, hy⟩ := hD.runs hc
                  exact hy
                · exact hy
              refine ⟨by rintro _ _ ⟨⟩, .inl ⟨Function.update ds c (.check :: ds c),
                hD.top hl hst.1 he hy (.inl rfl) fun _ hr => hr, ?_⟩⟩
              rw [← h]
              exact overlay_setSig_top _ _
            · left
              push Not at hyield
              refine ⟨fun {l' d} hl' he' => ?_, ?_, s.setSig c (.check :: (s.context c).sig), ?_, ?_⟩
              · cases Option.some.inj (hl.symm.trans hl')
                cases he.symm.trans he'
                exact hyield.1
              · rintro u ⟨⟩
                rw [seat_of_exec hl he]
                exact hyield.2
              · have hf : ¬s.failure.isSome = true := hrun
                simp only [step, if_neg hf, hp, if_true, signalStep, hl, if_pos hst, he]
              · rw [← h, hyield.1, ← overlay_setSig s c hyield.1]
                rfl
          · cases h
      · cases h

/-- The steps of the other threads leave such handlers alone. -/
theorem Doomed.moves (hD : Doomed s ds) (hl : s.sched t = some l) (hfree : Free s ds a)
    (hm : Moves seqOps preemption s t l a s') : Doomed s' ds := by
  refine ⟨fun {c} hc => ?_, hD.stuck⟩
  obtain ⟨u, lu, hlu, hst, he, hy⟩ := hD.runs hc
  have hut : u ≠ t := by
    rintro rfl
    refine hc (hfree ?_ he)
    have hthread : a.thread = u := by cases hm <;> rfl
    rw [hthread]
    exact hlu
  refine ⟨u, lu, (hI.frame hm hut hlu hst).1, hst, he, ?_⟩
  rw [hI.frame_context hl hm hut hlu he]
  exact hy

end

end

/-! ## Runs -/

theorem running_overlay {s : SeqState} {ds : Cid → List (ReschedPc Unit Unit)} {a : Act}
    (hfree : Free s ds a) : (s.overlay ds).running a.thread = s.running a.thread := by
  have hsched : (s.overlay ds).sched a.thread = s.sched a.thread := rfl
  unfold State.running
  rw [hsched]
  rcases hl : s.sched a.thread with _ | l
  · rfl
  · dsimp only
    rcases he : l.exec with c | _ | p | x
    · have hctx : (s.overlay ds).context c = s.context c := by
        change (⟨(s.context c).pc, ds c ++ (s.context c).sig⟩ : Context Unit Unit) = s.context c
        rw [hfree hl he]
        rfl
      simp only [hctx]
    all_goals rfl

section

variable {N : Type} {preemption : Bool} {ok ok' : SeqState → Act → Prop}
  {note : SeqState → Act → N → N} {n₀ n : N} {s : SeqState}
  {localSize : Nat} {garbage : Nat → TimerWait} {state errno threadErrno : Int}

/-- **A run with signals at any point is a run without signals between the enqueue and the switch of
`sched_resched`**, with handlers on top that do nothing, until one of them trips the assertion of
`sched_enqueue_locked`. -/
theorem Noted.shadow (hproper : ∀ {s a}, ok' s a → Proper s a)
    (hok : ∀ {s ds a}, Free s ds a → ok (s.overlay ds) a → ok' s a)
    (hnote : ∀ {s ds a n}, Free s ds a → note (s.overlay ds) a n = note s a n)
    (haside : ∀ {s a n}, Aside s a → note s a n = n)
    (h : Noted seqOps preemption ok note (seqInit localSize garbage state errno threadErrno) n₀ s n) :
    (∃ s₀ ds, Noted seqOps preemption (fun s a => ok' s a ∧ Safe s a) note
        (seqInit localSize garbage state errno threadErrno) n₀ s₀ n ∧
      (s₀.failure = none → Doomed s₀ ds) ∧ s = s₀.overlay ds) ∨ s.failure = some .enqueue := by
  induction h with
  | init => exact .inl ⟨_, fun _ => [], .init, fun _ => Doomed.none, rfl⟩
  | @next s s' a n h hoka hs ih =>
    have hf : s.failure = none := step_failure seqOps hs
    rcases ih with ⟨s₀, ds, hN, hD, rfl⟩ | hfail
    · have hf₀ : s₀.failure = none := hf
      have hD := hD hf₀
      have hI : Inv preemption s₀ :=
        (hN.reach.mono fun _ hok => ⟨hproper hok.1, hok.2⟩).inv hf₀
      rcases hD.step_cases hI hs with ⟨hfree, hsafe, s₁, hs₁, rfl⟩ | ⟨ha, ⟨ds', hD', rfl⟩ | hfail⟩
      · refine .inl ⟨s₁, ds, ?_, fun hf₁ => ?_, rfl⟩
        · rw [hnote hfree]
          exact hN.next ⟨hok hfree hoka, hsafe⟩ hs₁
        · obtain ⟨-, t, l, hl, -, hm⟩ := step_moves seqOps hs₁ hf₁
          exact hD.moves hI hl hfree hm
      · rw [haside ha]
        exact .inl ⟨s₀, ds', hN, fun _ => hD', rfl⟩
      · exact .inr hfail
    · rw [hf] at hfail
      cases hfail

/-- The same, with nothing noted. -/
theorem Reach.shadow (hproper : ∀ {s a}, ok' s a → Proper s a)
    (hok : ∀ {s ds a}, Free s ds a → ok (s.overlay ds) a → ok' s a)
    (h : Reach seqOps preemption ok (seqInit localSize garbage state errno threadErrno) s) :
    (∃ s₀ ds, Reach seqOps preemption (fun s a => ok' s a ∧ Safe s a)
        (seqInit localSize garbage state errno threadErrno) s₀ ∧
      (s₀.failure = none → Doomed s₀ ds) ∧ s = s₀.overlay ds) ∨ s.failure = some .enqueue := by
  have hN : Noted seqOps preemption ok (fun _ _ n => n)
      (seqInit localSize garbage state errno threadErrno) () s () := by
    induction h with
    | init => exact .init
    | next _ hok hs ih => exact ih.next hok hs
  rcases hN.shadow hproper hok (fun _ => rfl) (fun _ => rfl) with ⟨s₀, ds, hN, hD, hs⟩ | hfail
  · exact .inl ⟨s₀, ds, hN.reach, hD, hs⟩
  · exact .inr hfail

end

end Lwthread.Scheduler
