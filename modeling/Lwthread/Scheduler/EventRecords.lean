import Lwthread.Scheduler.WaitRecords

/-!
# The records of waits for events

`sched_event_wait` keeps its `struct event_wait` on the stack of its caller and registers its address
with the poller, as the key of the event. Here a run notes the events that `sched_poll_event` has been
called with for the key of the call that every coroutine is in, and every return of
`sched_event_wait` (`noteEvents`).

When user code wakes nobody that waits, and waits on a file descriptor in one coroutine at a time, a
call returns the one event that came for its key, the keys on their way are those of calls that have
not returned, and the poller knows the file descriptors of the calls that are between their
registration and its end.
-/

namespace Lwthread.Scheduler

open Lwthread.Util Lwthread.Platform Custody

/-! ## What is noted along a run -/

/-- A return of `sched_event_wait`, with the events that `sched_poll_event` was called with for the
key of the call. -/
structure EventReturn where
  coro : Cid
  events : Nat
  passed : List Nat

/-- The events for the key of each coroutine's call, and the returns. -/
structure EventLog where
  passed : Cid → List Nat
  returns : List EventReturn

def EventLog.empty : EventLog := ⟨fun _ => [], []⟩

/-- What is noted of a step of the coroutine `c` at a point. -/
def Pc.noteEvent (s : SeqState) (c : Cid) (i : Input) (n : EventLog) : Pc Unit Unit → EventLog
  | .user =>
    match i with
    | .op (.eventWait _ _) => { n with passed := Function.update n.passed c [] }
    | _ => n
  | .pollEvents _ _ ((key, revents) :: _) _ =>
    { n with passed := Function.update n.passed key (n.passed key ++ [revents]) }
  | .eventUnregister _ =>
    match s.eventWait c with
    | none => n
    | some w => { n with returns := n.returns ++ [⟨c, w.events, n.passed c⟩] }
  | _ => n

/-- The calls of `sched_poll_event` and the returns of `sched_event_wait`. -/
def noteEvents (s : SeqState) (a : Act) (n : EventLog) : EventLog :=
  match a with
  | .signal _ => n
  | .tick t i =>
    match s.running t with
    | none => n
    | some (c, pc) => pc.noteEvent s c i n

variable {preemption : Bool} {s s' : SeqState} {t : Tid} {l : LocalSched Unit} {c d : Cid} {i : Input}
  {a : Act} {n : EventLog}

theorem noteEvents_aside (h : Aside s a) : noteEvents s a n = n := by
  cases a with
  | signal => rfl
  | tick t i => simp only [noteEvents, h t i rfl]

theorem noteEvents_overlay {ds : Cid → List (ReschedPc Unit Unit)} (hfree : Free s ds a) :
    noteEvents (s.overlay ds) a n = noteEvents s a n := by
  cases a with
  | signal => rfl
  | tick t i =>
    have hrun : (s.overlay ds).running t = s.running t := running_overlay hfree
    simp only [noteEvents, hrun]
    rfl

/-! ## One waiter for a file descriptor -/

/-- The file descriptor that a call of `sched_event_wait` is for. -/
def WaitPhase.fd (p : WaitPhase) : Option Nat := p.prepares.or p.registered

/-- Every call of `sched_event_wait` is for a file descriptor that no coroutine waits on. -/
def Unshared (s : SeqState) (a : Act) : Prop :=
  ∀ t fd events, a = .tick t (.op (.eventWait fd events)) → ∀ c, (s.context c).pc.wait.fd ≠ some fd

/-- User code wakes nobody that waits, and at most one coroutine waits on a file descriptor. -/
def Orderly (s : SeqState) (a : Act) : Prop := Undisturbed s a ∧ Unshared s a

theorem Orderly.overlay {ds : Cid → List (ReschedPc Unit Unit)} (hfree : Free s ds a)
    (h : Orderly (s.overlay ds) a) : Orderly s a :=
  ⟨h.1.overlay hfree, h.2⟩

/-! ## What a step does to the records -/

/-- What a step of the coroutine `c` at a point does to the records of events, and to what `c` waits
for. -/
inductive EventStep (s s' : SeqState) (current c : Cid) (i : Input) : Pc Unit Unit → Prop
  | call {fd events} (hi : i = .op (.eventWait fd events))
      (h : s'.eventWait = Function.update s.eventWait c (some ⟨fd, 0, some current⟩))
      (hpc : (s'.context c).pc = .eventRegister fd events) : EventStep s s' current c i .user
  | register {fd events} (h : s'.eventWait = s.eventWait)
      (hpc : (s'.context c).pc = .suspendBlock (.eventWait fd)) :
      EventStep s s' current c i (.eventRegister fd events)
  | pass {u v key revents rest full w x} (hw : s.eventWait key = some w) (hx : w.coro = some x)
      (h : s'.eventWait = Function.update s.eventWait key
        (some { w with coro := none, events := revents }))
      (hpc : (s'.context c).pc.wait = .idle) :
      EventStep s s' current c i (.pollEvents u v ((key, revents) :: rest) full)
  | passTaken {u v key revents rest full w} (hw : s.eventWait key = some w) (hn : w.coro = none) :
      EventStep s s' current c i (.pollEvents u v ((key, revents) :: rest) full)
  | unregister {fd w} (hw : s.eventWait c = some w)
      (h : s'.eventWait = Function.update s.eventWait c none) (hpc : (s'.context c).pc = .user) :
      EventStep s s' current c i (.eventUnregister fd)
  | other {pc} (hn : ∀ n, pc.noteEvent s c i n = n) (h : s'.eventWait = s.eventWait)
      (hp : (s'.context c).pc.wait.prepares = pc.wait.prepares)
      (hr : (s'.context c).pc.wait.registered = pc.wait.registered) : EventStep s s' current c i pc

theorem afterTimers_wait (u : Tid) (v : Int) : (afterTimers u v : Pc Unit Unit).wait = .idle := by
  unfold afterTimers
  split <;> rfl

@[simp] theorem State.setPreempt_eventWait (b : Bool) :
    (s.setPreempt preemption t b).eventWait = s.eventWait := by
  unfold State.setPreempt; split <;> rfl

theorem Stride.eventStep (hst : Stride seqOps preemption s t l c i (s.context c).pc s') :
    EventStep s s' l.currentCoro c i (s.context c).pc := by
  generalize hpc : (s.context c).pc = pc at hst
  have hgo : ∀ {s₀ : SeqState} {pc' : Pc Unit Unit}, (∀ n, pc.noteEvent s c i n = n) →
      s₀.eventWait = s.eventWait → pc'.wait.prepares = pc.wait.prepares →
      pc'.wait.registered = pc.wait.registered →
      EventStep s (s₀.goto c pc') l.currentCoro c i pc := by
    intro s₀ pc' hn h hp hr
    refine .other hn h ?_ ?_
    · rw [State.goto_pc]; exact hp
    · rw [State.goto_pc]; exact hr
  have hquiet : ∀ {s₀ : SeqState} {pc' : Pc Unit Unit}, (∀ n, pc.noteEvent s c i n = n) →
      s₀.eventWait = s.eventWait → pc.wait = .idle → pc'.wait = .idle →
      EventStep s (s₀.goto c pc') l.currentCoro c i pc := by
    intro s₀ pc' hn h hp hp'
    exact hgo hn h (by rw [hp, hp']) (by rw [hp, hp'])
  cases hst with
  | @resched r ret s₁ r' hy =>
    refine hquiet (fun _ => rfl) hy.rest.2.2.2 rfl ?_
    cases r' with
    | none => cases ret <;> rfl
    | some r' => rfl
  | flow hf =>
    cases hf with
    | resched hi => subst hi; exact hquiet (fun _ => rfl) rfl rfl rfl
    | suspend hi => subst hi; exact hquiet (fun _ => rfl) rfl rfl rfl
    | schedule hi => subst hi; exact hquiet (fun _ => rfl) rfl rfl rfl
    | suspendAssert => exact hgo (fun _ => rfl) rfl rfl rfl
    | pollTaken hw hn => exact .passTaken hw hn
    | timersNone => exact hquiet (fun _ => rfl) rfl rfl (afterTimers_wait _ _)
    | _ => exact hquiet (fun _ => rfl) rfl rfl rfl
  | @trampoline k start =>
    refine hquiet (fun _ => rfl) (State.setPreempt_eventWait _) rfl ?_
    cases start <;> rfl
  | setErrno hi =>
    subst hi
    exact .other (fun _ => rfl) rfl (by simp [State.modSched, hpc]) (by simp [State.modSched, hpc])
  | newCoroutine hi => subst hi; exact hquiet (fun _ => rfl) rfl rfl rfl
  | wait hi => subst hi; exact hgo (fun _ => rfl) rfl rfl rfl
  | eventWait hi => exact .call hi rfl (State.goto_pc _ _)
  | ret hi =>
    subst hi
    refine .other (fun _ => rfl) (State.setPreempt_eventWait _) ?_ ?_ <;>
      simp [State.modSched, hpc]
  | waitLock => exact hgo (fun _ => rfl) rfl rfl rfl
  | waitPush => exact hgo (fun _ => rfl) rfl rfl rfl
  | waitUnlock => exact hgo (fun _ => rfl) rfl rfl rfl
  | eventRegister => exact .register rfl (State.goto_pc _ _)
  | eventUnregister _ hw => exact .unregister hw rfl (State.goto_pc _ _)
  | suspendBlock => exact hgo (fun _ => rfl) (State.setPreempt_eventWait _) rfl rfl
  | suspendPop => exact hgo (fun _ => rfl) rfl rfl rfl
  | suspendTake => exact hgo (fun _ => rfl) rfl rfl rfl
  | @park current x ret =>
    refine .other (fun _ => rfl) rfl ?_ ?_ <;>
      cases ret <;> simp [State.modSched, State.goto]
  | @abort current x ret => cases ret <;> exact hgo (fun _ => rfl) rfl rfl rfl
  | suspendPush => exact hgo (fun _ => rfl) rfl rfl rfl
  | @suspendPushed x p ret => cases ret <;> exact hgo (fun _ => rfl) rfl rfl rfl
  | @suspendUnblock ret =>
    cases ret <;> exact hgo (fun _ => rfl) (State.setPreempt_eventWait _) rfl rfl
  | @rouse x ret => cases ret <;> exact hquiet (fun _ => rfl) rfl rfl rfl
  | @schedulePushed x p ret => cases ret <;> exact hquiet (fun _ => rfl) rfl rfl rfl
  | fetchAdd => refine hquiet (fun _ => rfl) rfl rfl ?_; split <;> rfl
  | eintr => exact .other (fun _ => rfl) rfl (by rw [hpc]) (by rw [hpc])
  | pollEvent hw hx => exact .pass hw hx rfl (by rw [State.goto_pc]; rfl)
  | timersMin => refine hquiet (fun _ => rfl) rfl rfl ?_; split <;> rfl
  | @timersUnlock u v again =>
    refine hquiet (fun _ => rfl) rfl rfl ?_
    cases again
    · exact afterTimers_wait u v
    · rfl
  | _ => exact hquiet (fun _ => rfl) rfl rfl rfl

/-! ## The invariant -/

/-- The events noted for the calls that have not returned are those that have come to their
records. -/
structure EventsNoted (s : SeqState) (n : EventLog) : Prop where
  alone : ∀ {c d fd}, (s.context c).pc.wait.fd = some fd → (s.context d).pc.wait.fd = some fd → c = d
  prepared : ∀ {c fd}, (s.context c).pc.wait.prepares = some fd → n.passed c = []
  registered : ∀ {c fd w}, (s.context c).pc.wait.registered = some fd → s.eventWait c = some w →
    n.passed c = if w.coro.isSome then [] else [w.events]
  returned : ∀ r ∈ n.returns, r.passed = [r.events] ∧ r.events ≠ 0

/-- The record of a call that is to end its registration has its event. -/
theorem Waking.record_of_unregister {fd : Nat} (hW : Waking preemption s)
    (hpc : (s.context c).pc = .eventUnregister fd) :
    ∃ w, s.eventWait c = some w ∧ w.coro = none ∧ w.events ≠ 0 := by
  have hphase : s.wake.phase c = .woken (.event fd) := by simp only [State.wake, hpc]; rfl
  obtain ⟨-, hn⟩ := (hW.sound.accounts c).at hphase
  obtain ⟨w, hw, -, ⟨-, hu⟩ | ⟨hco, he, -⟩⟩ :=
    (hW.sound.recorded c).registered (by rw [hphase]; rfl)
  · refine absurd ?_ hn
    rcases hu with hu | ⟨c', hu⟩ <;> exact ⟨_, hu⟩
  · exact ⟨w, hw, hco, he⟩

/-- The key of an event on its way is that of a call whose record has not got it yet. -/
theorem Waking.record_of_batch {key : Cid} {revents : Nat} (hW : Waking preemption s)
    (hk : (key, revents) ∈ (s.context c).pc.batch) :
    ∃ w, s.eventWait key = some w ∧ (s.context key).pc.wait.registered = some w.fd ∧
      w.coro = some key := by
  have htok : key ∈ s.wake.held (.batch c) := List.mem_map.2 ⟨_, hk, rfl⟩
  obtain ⟨k, hof, hphase⟩ := hW.sound.token htok
  cases k with
  | timer => exact hof.elim
  | event fd =>
    have hreg : (s.wake.phase key).registered = some fd := by
      rcases hphase with ⟨hp, -⟩ | ⟨hp, -⟩ <;> rw [hp] <;> rfl
    obtain ⟨w, hw, rfl, -⟩ := (hW.sound.recorded key).registered hreg
    exact ⟨w, hw, hreg, hW.sound.record_of_unread (.inr ⟨c, htok⟩) hw⟩

section

variable (hst : Stride seqOps preemption s t l c i (s.context c).pc s') (hd : d ≠ c)

include hst hd

theorem Stride.wait_ne :
    (s'.context d).pc.wait = (s.context d).pc.wait ∨ (s'.context d).pc.wait = .idle := by
  rcases hst.context_ne hd with h | ⟨-, -, h | ⟨u, h⟩⟩
  · exact .inl (by rw [h])
  · exact .inr (by rw [h]; rfl)
  · exact .inr (by rw [h]; rfl)

theorem Stride.prepares_ne {fd : Nat} (h : (s'.context d).pc.wait.prepares = some fd) :
    (s.context d).pc.wait.prepares = some fd := by
  rcases hst.wait_ne hd with heq | heq
  · rw [← heq]; exact h
  · rw [heq] at h; cases h

theorem Stride.registered_ne {fd : Nat} (h : (s'.context d).pc.wait.registered = some fd) :
    (s.context d).pc.wait.registered = some fd := by
  rcases hst.wait_ne hd with heq | heq
  · rw [← heq]; exact h
  · rw [heq] at h; cases h

theorem Stride.fd_ne {fd : Nat} (h : (s'.context d).pc.wait.fd = some fd) :
    (s.context d).pc.wait.fd = some fd := by
  rcases hst.wait_ne hd with heq | heq
  · rw [← heq]; exact h
  · rw [heq] at h; cases h

end

/-- A call that is registered is no longer to be. -/
theorem WaitPhase.prepares_of_registered {p : WaitPhase} {fd : Nat} (h : p.registered = some fd) :
    p.prepares = none ∧ p.fd = some fd := by
  cases p with
  | prepared k => cases h
  | _ => exact ⟨rfl, h⟩

section

variable (hW : Waking preemption s) (hN : EventsNoted s n)
  (hst : Stride seqOps preemption s t l c i (s.context c).pc s')

include hN hst

/-- There is still one waiter for a file descriptor, if `c` has not come to wait for one that another
coroutine waits for. -/
theorem EventsNoted.alone_stride
    (hc : ∀ {fd}, (s'.context c).pc.wait.fd = some fd → (s.context c).pc.wait.fd = some fd ∨
      ∀ d, (s.context d).pc.wait.fd ≠ some fd) {x y : Cid} {fd : Nat}
    (hx : (s'.context x).pc.wait.fd = some fd) (hy : (s'.context y).pc.wait.fd = some fd) : x = y := by
  by_cases hxc : x = c
  · by_cases hyc : y = c
    · rw [hxc, hyc]
    · rcases hc (hxc ▸ hx) with h | h
      · exact hxc.trans (hN.alone h (hst.fd_ne hyc hy))
      · exact absurd (hst.fd_ne hyc hy) (h y)
  · by_cases hyc : y = c
    · rcases hc (hyc ▸ hy) with h | h
      · exact (hN.alone (hst.fd_ne hxc hx) h).trans hyc.symm
      · exact absurd (hst.fd_ne hxc hx) (h x)
    · exact hN.alone (hst.fd_ne hxc hx) (hst.fd_ne hyc hy)

theorem EventsNoted.call {fd events : Nat} {current : Cid}
    (hok : ∀ d, (s.context d).pc.wait.fd ≠ some fd)
    (h : s'.eventWait = Function.update s.eventWait c (some ⟨fd, 0, some current⟩))
    (hpc : (s'.context c).pc = .eventRegister fd events) :
    EventsNoted s' { n with passed := Function.update n.passed c [] } := by
  refine ⟨hN.alone_stride hst fun {fd'} hc => .inr ?_, fun {d fd'} hd => ?_,
    fun {d fd' w} hd hw => ?_, hN.returned⟩
  · rw [hpc] at hc
    cases hc
    exact hok
  · by_cases hdc : d = c
    · rw [hdc]
      exact Function.update_self _ _ _
    · exact (Function.update_of_ne hdc _ _).trans (hN.prepared (hst.prepares_ne hdc hd))
  · have hdc : d ≠ c := by rintro rfl; rw [hpc] at hd; cases hd
    rw [h, Function.update_of_ne hdc] at hw
    exact (Function.update_of_ne hdc _ _).trans (hN.registered (hst.registered_ne hdc hd) hw)

/-- A step that neither passes an event nor starts or ends a call. -/
theorem EventsNoted.keep (h : s'.eventWait = s.eventWait)
    (hp : (s'.context c).pc.wait.prepares = (s.context c).pc.wait.prepares)
    (hr : (s'.context c).pc.wait.registered = (s.context c).pc.wait.registered) :
    EventsNoted s' n := by
  refine ⟨hN.alone_stride hst fun {fd'} hc => .inl ?_, fun {d fd'} hd => ?_,
    fun {d fd' w} hd hw => ?_, hN.returned⟩
  · unfold WaitPhase.fd at hc ⊢
    rw [← hp, ← hr]
    exact hc
  · by_cases hdc : d = c
    · subst hdc
      exact hN.prepared (hp ▸ hd)
    · exact hN.prepared (hst.prepares_ne hdc hd)
  · rw [h] at hw
    by_cases hdc : d = c
    · subst hdc
      exact hN.registered (hr ▸ hd) hw
    · exact hN.registered (hst.registered_ne hdc hd) hw

include hW

theorem EventsNoted.register {fd events : Nat} (hpc : (s.context c).pc = .eventRegister fd events)
    (h : s'.eventWait = s.eventWait) (hpc' : (s'.context c).pc = .suspendBlock (.eventWait fd)) :
    EventsNoted s' n := by
  have hprepares : (s.context c).pc.wait.prepares = some fd := by rw [hpc]; rfl
  refine ⟨hN.alone_stride hst fun {fd'} hc => .inl ?_, fun {d fd'} hd => ?_,
    fun {d fd' w} hd hw => ?_, hN.returned⟩
  · rw [hpc'] at hc
    rw [hpc]
    exact hc
  · have hdc : d ≠ c := by rintro rfl; rw [hpc'] at hd; cases hd
    exact hN.prepared (hst.prepares_ne hdc hd)
  · rw [h] at hw
    by_cases hdc : d = c
    · subst hdc
      have hrec : s.eventWait d = some ⟨fd, 0, some d⟩ := (hW.sound.recorded d).prepares hprepares
      rw [hw] at hrec
      cases hrec
      exact hN.prepared hprepares
    · exact hN.registered (hst.registered_ne hdc hd) hw

/-- The event of a call comes to its record once. -/
theorem EventsNoted.pass {key : Cid} {revents : Nat} {w : EventWait}
    (hk : (key, revents) ∈ (s.context c).pc.batch) (hw : s.eventWait key = some w)
    (h : s'.eventWait = Function.update s.eventWait key
      (some { w with coro := none, events := revents }))
    (hpc : (s'.context c).pc.wait = .idle) :
    EventsNoted s' { n with passed := Function.update n.passed key (n.passed key ++ [revents]) } := by
  obtain ⟨w', hw', hkey, hco⟩ := hW.record_of_batch hk
  obtain rfl : w' = w := Option.some.inj (hw'.symm.trans hw)
  refine ⟨hN.alone_stride hst fun {fd'} hc => ?_, fun {d fd'} hd => ?_, fun {d fd' w₁} hd hw₁ => ?_,
    hN.returned⟩
  · rw [hpc] at hc; cases hc
  · have hdc : d ≠ c := by rintro rfl; rw [hpc] at hd; cases hd
    have hprep := hst.prepares_ne hdc hd
    have hdk : d ≠ key := by
      rintro rfl
      rw [(WaitPhase.prepares_of_registered hkey).1] at hprep
      cases hprep
    exact (Function.update_of_ne hdk _ _).trans (hN.prepared hprep)
  · have hdc : d ≠ c := by rintro rfl; rw [hpc] at hd; cases hd
    by_cases hdk : d = key
    · subst hdk
      rw [h, Function.update_self] at hw₁
      cases hw₁
      have hempty := hN.registered hkey hw
      rw [hco] at hempty
      simp only [Function.update_self, hempty]
      rfl
    · rw [h, Function.update_of_ne hdk] at hw₁
      exact (Function.update_of_ne hdk _ _).trans (hN.registered (hst.registered_ne hdc hd) hw₁)

/-- A call returns the event that came for its key. -/
theorem EventsNoted.unregister {fd : Nat} {w : EventWait}
    (hpc : (s.context c).pc = .eventUnregister fd) (hw : s.eventWait c = some w)
    (h : s'.eventWait = Function.update s.eventWait c none) (hpc' : (s'.context c).pc = .user) :
    EventsNoted s' { n with returns := n.returns ++ [⟨c, w.events, n.passed c⟩] } := by
  obtain ⟨w', hw', hco, hne⟩ := hW.record_of_unregister hpc
  obtain rfl : w' = w := Option.some.inj (hw'.symm.trans hw)
  have hreg : (s.context c).pc.wait.registered = some fd := by rw [hpc]; rfl
  refine ⟨hN.alone_stride hst fun {fd'} hc => ?_, fun {d fd'} hd => ?_, fun {d fd' w₁} hd hw₁ => ?_,
    fun r hr => ?_⟩
  · rw [hpc'] at hc; cases hc
  · have hdc : d ≠ c := by rintro rfl; rw [hpc'] at hd; cases hd
    exact hN.prepared (hst.prepares_ne hdc hd)
  · have hdc : d ≠ c := by rintro rfl; rw [hpc'] at hd; cases hd
    rw [h, Function.update_of_ne hdc] at hw₁
    exact hN.registered (hst.registered_ne hdc hd) hw₁
  · rcases List.mem_append.1 hr with hr | hr
    · exact hN.returned r hr
    · have hpassed := hN.registered hreg hw
      rw [hco] at hpassed
      rw [List.mem_singleton.1 hr]
      exact ⟨hpassed, hne⟩

theorem EventsNoted.stride (hl : s.sched t = some l) (he : l.exec = .on c)
    (hsig : (s.context c).sig = []) (hok : Unshared s (.tick t i)) :
    EventsNoted s' (noteEvents s (.tick t i) n) := by
  have hrun : s.running t = some (c, (s.context c).pc) := by
    simp only [State.running, hl, he, hsig, List.isEmpty_nil, if_true]
  have hnote : noteEvents s (.tick t i) n = (s.context c).pc.noteEvent s c i n := by
    simp only [noteEvents, hrun]
  have hev := hst.eventStep
  rw [hnote]
  generalize hpc : (s.context c).pc = pc at hev
  cases hev with
  | call hi h hpc' =>
    subst hi
    exact hN.call hst (hok t _ _ rfl) h hpc'
  | register h hpc' => exact hN.register hW hst hpc h hpc'
  | pass hw hx h hpc' => exact hN.pass hW hst (by rw [hpc]; exact List.mem_cons_self) hw h hpc'
  | @passTaken u v key revents rest full w hw hn =>
    have hk : (key, revents) ∈ (s.context c).pc.batch := by rw [hpc]; exact List.mem_cons_self
    obtain ⟨w', hw', -, hco⟩ := hW.record_of_batch hk
    obtain rfl : w' = w := Option.some.inj (hw'.symm.trans hw)
    rw [hn] at hco
    cases hco
  | unregister hw h hpc' =>
    simp only [Pc.noteEvent, hw]
    exact hN.unregister hW hst hpc hw h hpc'
  | other hn h hp hr =>
    rw [hn]
    exact hN.keep hst h (by rw [hp, hpc]) (by rw [hr, hpc])

end

section

variable (hW : Waking preemption s) (hN : EventsNoted s n)

include hW hN

theorem EventsNoted.moves (hl : s.sched t = some l) (hok : Unshared s a)
    (hm : Moves seqOps preemption s t l a s') : EventsNoted s' (noteEvents s a n) := by
  rcases hm.stride_or_apart hl with ⟨c, k, i, rfl, he, -, hsig, hst⟩ | hA
  · exact hN.stride hW hst hl he hsig hok
  · rw [noteEvents_aside hA.running]
    refine ⟨fun {c d fd} hc hd => ?_, fun {c fd} hc => ?_, fun {c fd w} hc hw => ?_, hN.returned⟩
    · rw [hA.pc] at hc hd
      exact hN.alone hc hd
    · rw [hA.pc] at hc
      exact hN.prepared hc
    · rw [hA.pc] at hc
      rw [hA.eventWait] at hw
      exact hN.registered hc hw

/-- The assertions of `sched_event_wait` hold. -/
theorem EventsNoted.fails {f : Failure} (hfails : Fails seqOps preemption s t l a f) :
    f ≠ .register ∧ f ≠ .unregister ∧ f ≠ .noEvents := by
  cases hfails with
  | @stride c k i f he hk hsig hfault =>
    generalize hpc : (s.context c).pc = pc at hfault
    cases hfault with
    | resched hs => cases hs <;> refine ⟨?_, ?_, ?_⟩ <;> rintro ⟨⟩
    | @register fd events hr =>
      -- another coroutine is registered for the file descriptor
      obtain ⟨r, hr, hfd⟩ := List.any_eq_true.1 hr
      have hreg : (s.context r.key).pc.wait.registered = some r.fd := hW.sound.reg hr
      obtain rfl : r.fd = fd := by simpa using hfd
      have hkey : r.key = c :=
        hN.alone (WaitPhase.prepares_of_registered hreg).2 (by rw [hpc]; rfl)
      rw [hkey, hpc] at hreg
      cases hreg
    | @unregister fd hr =>
      have hreg : (s.wake.phase c).registered = some fd := by
        simp only [State.wake, hpc]
        rfl
      obtain ⟨armed, hm⟩ := hW.sound.regd hreg
      have hm : (⟨fd, c, armed⟩ : Registration) ∈ s.poller := hm
      have := List.any_eq_false.1 hr _ hm
      simp at this
    | @noEvents fd w hw hz =>
      obtain ⟨w', hw', -, hne⟩ := hW.record_of_unregister hpc
      obtain rfl : w' = w := Option.some.inj (hw'.symm.trans hw)
      exact absurd hz hne
    | _ => refine ⟨?_, ?_, ?_⟩ <;> rintro ⟨⟩
  | handler _ _ _ hs => cases hs <;> refine ⟨?_, ?_, ?_⟩ <;> rintro ⟨⟩
  | _ => refine ⟨?_, ?_, ?_⟩ <;> rintro ⟨⟩

end

/-! ## Runs -/

/-- What holds of the waits for events. -/
structure EventsSound (s : SeqState) (n : EventLog) : Prop where
  /-- the assertions of `sched_event_wait` hold -/
  asserts : s.failure ≠ some .register ∧ s.failure ≠ some .unregister ∧ s.failure ≠ some .noEvents
  /-- a call returns the events that `sched_poll_event` was called with for its key, which was once -/
  returned : s.failure = none → ∀ r ∈ n.returns, r.passed = [r.events] ∧ r.events ≠ 0
  /-- a key that an event loop has got is that of a call that has not returned -/
  keys : s.failure = none → ∀ {c key revents}, (key, revents) ∈ (s.context c).pc.batch →
    ∃ w, s.eventWait key = some w ∧ (s.context key).pc.wait.registered = some w.fd
  /-- the poller knows the file descriptors of the calls between register and unregister -/
  fds : s.failure = none → ∀ {fd}, (∃ r ∈ s.poller, r.fd = fd) ↔
    ∃ c, (s.context c).pc.wait.registered = some fd

section

variable {localSize : Nat} {garbage : Nat → TimerWait} {state errno threadErrno : Int}

theorem Noted.events
    (h : Noted seqOps preemption (fun s a => Orderly s a ∧ Safe s a) noteEvents
      (seqInit localSize garbage state errno threadErrno) .empty s n) (hf : s.failure = none) :
    Waking preemption s ∧ EventsNoted s n := by
  refine ⟨(h.reach.mono fun _ hok => ⟨hok.1.1, hok.2⟩).waking hf, ?_⟩
  induction h with
  | init =>
    have hidle : ∀ c, ((seqInit localSize garbage state errno threadErrno).context c).pc.wait =
        .idle := by
      intro c
      rw [seqInit_context]
      split <;> rfl
    refine ⟨fun {c d fd} hc => ?_, fun {c fd} hc => ?_, fun {c fd w} hc => ?_, nofun⟩ <;>
      rw [hidle] at hc <;> cases hc
  | next h hok hs ih =>
    obtain ⟨hf₀, t, l, hl, -, hm⟩ := step_moves seqOps hs hf
    exact (ih hf₀).moves ((h.reach.mono fun _ hok => ⟨hok.1.1, hok.2⟩).waking hf₀) hl hok.1.2 hm

/-- **A call of `sched_event_wait` returns the event that came for its key**, in every run in which
user code wakes nobody that waits and waits on a file descriptor in one coroutine at a time. -/
theorem event_records_sound
    (h : Noted seqOps preemption Orderly noteEvents
      (seqInit localSize garbage state errno threadErrno) .empty s n) : EventsSound s n := by
  rcases h.shadow (fun hok => hok.1.1) Orderly.overlay noteEvents_overlay noteEvents_aside with
    ⟨s₀, ds, hN, -, rfl⟩ | hfail
  · refine ⟨?_, fun hf => (hN.events hf).2.returned, fun hf {c key revents} hk => ?_,
      fun hf {fd} => ?_⟩
    · have hno : ∀ {f}, s₀.failure = some f → f ≠ .register ∧ f ≠ .unregister ∧ f ≠ .noEvents := by
        intro f hf
        cases hN with
        | init => cases hf
        | next hN hok hs =>
          obtain ⟨hf₀, t, l, hl, -, hfails⟩ := step_fails seqOps hs hf
          exact (hN.events hf₀).2.fails (hN.events hf₀).1 hfails
      exact ⟨fun hf => (hno hf).1 rfl, fun hf => (hno hf).2.1 rfl, fun hf => (hno hf).2.2 rfl⟩
    · obtain ⟨w, hw, hreg, -⟩ := (hN.events hf).1.record_of_batch hk
      exact ⟨w, hw, hreg⟩
    · have hS := (hN.events hf).1.sound
      constructor
      · rintro ⟨r, hr, rfl⟩
        exact ⟨r.key, hS.reg hr⟩
      · rintro ⟨c, hc⟩
        obtain ⟨armed, hm⟩ := hS.regd hc
        exact ⟨_, hm, rfl⟩
  · refine ⟨by rw [hfail]; exact ⟨nofun, nofun, nofun⟩, ?_, ?_, ?_⟩ <;>
      · intro hf
        rw [hfail] at hf
        cases hf

end

/-- A check on actions for `Orderly`: user code neither wakes a coroutine nor starts to wait for an
event. -/
def orderly (s : SeqState) (a : Act) : Bool :=
  undisturbed s a &&
    match a with
    | .tick _ (.op (.eventWait _ _)) => false
    | _ => true

theorem orderly.sound (s : SeqState) (a : Act) (h : orderly s a = true) : Orderly s a := by
  simp only [orderly, Bool.and_eq_true] at h
  refine ⟨undisturbed.sound s a h.1, ?_⟩
  rintro t fd events rfl
  cases h.2

/-- The main coroutine, which waits on the file descriptor 3, goes to sleep; its event loop gets an
event for it and wakes it, and it returns. -/
def eventComes : List Act :=
  let steps (n : Nat) : List Act := List.replicate n (.tick 0 .step)
  steps 7 ++ [.tick 0 (.epoll (.ready [(3, 1)]))] ++ steps 7 ++ [.tick 0 (.epoll (.ready []))] ++
    steps 9

theorem event_records_sound_once :
    ∃ s₁ s n, step seqOps false seqStart (.tick 0 (.op (.eventWait 3 1))) = some s₁ ∧
      noteRun seqOps false orderly noteEvents s₁ .empty eventComes = some (s, n) ∧
      n.returns = [⟨0, 1, [1]⟩] ∧ EventsSound s n := by
  obtain ⟨s₁, s, n, hs, hr, hn⟩ :
      ∃ s₁ s n, step seqOps false seqStart (.tick 0 (.op (.eventWait 3 1))) = some s₁ ∧
        noteRun seqOps false orderly noteEvents s₁
          (noteEvents seqStart (.tick 0 (.op (.eventWait 3 1))) .empty) eventComes = some (s, n) ∧
        n.returns = [⟨0, 1, [1]⟩] := ⟨_, _, _, rfl, rfl, rfl⟩
  have hempty : noteEvents seqStart (.tick 0 (.op (.eventWait 3 1))) .empty = .empty := by
    have hrun : seqStart.running 0 = some (0, .user) := rfl
    simp only [noteEvents, hrun, Pc.noteEvent, EventLog.empty]
    rw [Function.update_eq_self]
  have hok : Orderly seqStart (.tick 0 (.op (.eventWait 3 1))) := by
    refine ⟨undisturbed.sound _ _ rfl, ?_⟩
    rintro t fd events ⟨⟩ c hc
    unfold seqStart at hc
    rw [seqInit_context] at hc
    revert hc
    split <;> exact nofun
  refine ⟨s₁, s, n, hs, by rw [← hempty]; exact hr, hn, ?_⟩
  exact event_records_sound (Noted.run hr orderly.sound (.next .init hok hs))

end Lwthread.Scheduler
