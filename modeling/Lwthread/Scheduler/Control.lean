import Lwthread.Scheduler.Custody

/-!
# Control points

What holds of the control points of a run: the coroutines that a point names are the right ones, a
coroutine that no thread executes goes on at a return from a switch, `current_coro` is the coroutine
that executes (but for the moment before the exchange in `sched_suspend`), a signal has interrupted
no point past an enqueue or a dequeue, and a started thread has its event loop coroutine.

`Inv` puts this beside `Kept`, and the rules below show it for each kind of step: `Inv.stay` for a
step after which the thread still executes the coroutine, and one rule for each way to leave it.
-/

namespace Lwthread.Scheduler

open Lwthread.Util Custody

variable {Q ι δ : Type}

/-! ## Facts about one context -/

/-- `lsched->current_coro` while `c` executes. -/
@[simp] def Context.current (c : Cid) (x : Context ι δ) : Cid :=
  match x.sig, x.pc with
  | [], .suspendCmpxchg _ coro _ => coro
  | _, _ => c

@[simp] def ReschedPc.Named (c : Cid) : ReschedPc ι δ → Prop
  | .enqueue d _ => d = c
  | _ => True

@[simp] def Pc.Named (c : Cid) : Pc ι δ → Prop
  | .resched r _ => r.Named c
  | .waitLock w => w.coro = c
  | .waitPush w => w.coro = c
  | .suspendDequeue d _ _ => d = c
  | .suspendCmpxchg d _ _ => d = c
  | _ => True

/-- The coroutine that the points of `c` take for the current one is `c`. -/
def Context.Named (c : Cid) (x : Context ι δ) : Prop := x.pc.Named c ∧ ∀ r ∈ x.sig, r.Named c

@[simp] def Pc.Resumes : Pc ι δ → Prop
  | .trampoline => True
  | .resched .resumed _ => True
  | .suspendUnblock _ => True
  | _ => False

/-- The innermost point is the return from a switch, or the start of a coroutine. -/
def Context.Resumes (x : Context ι δ) : Prop :=
  match x.sig with
  | r :: _ => r = .resumed
  | [] => x.pc.Resumes

/-- The points of `sched_suspend` at which preemption is blocked. -/
@[simp] def Pc.Shut : Pc ι δ → Prop
  | .suspendDequeue _ _ _ => True
  | .suspendCmpxchg _ _ _ => True
  | .suspendEnqueue _ _ _ => True
  | .suspendUnblock _ => True
  | _ => False

/-- A point that a signal has interrupted holds no successor and has not enqueued its coroutine. -/
def Context.Stacked (c : Cid) (x : Context ι δ) : Prop :=
  x.sig ≠ [] → (x.pc.seat c = .on c ∧ ¬x.pc.Shut) ∧ ∀ r ∈ x.sig.tail, r.seat c = .on c

/-- The thread that a point of `sched_new_coroutine` is about to start. -/
@[simp] def Pc.starts : Pc ι δ → Option Tid
  | .newEnqueue _ u _ => some u
  | .newStart u => some u
  | _ => none

/-- The coroutine of a seat that is on the run list although it executes. -/
@[simp] def Seat.entry : Seat → Option Cid
  | .linked c => some c
  | .handing c _ => some c
  | _ => none

/-! ## The invariant -/

/-- What holds of a thread. -/
def Sits (preemption : Bool) (s : SeqState) (t : Tid) (l : LocalSched Unit) : Prop :=
  match l.exec with
  | .on c =>
    s.word c ≠ none ∧ l.currentCoro = (s.context c).current c ∧
    (((s.context c).seat c).entry = some c → c ∈ s.queues.list t) ∧
    (preemption = true → (s.context c).sig = [] → (s.context c).pc.Shut → l.preemptLock = true)
  | .free =>
    s.word l.currentCoro ≠ none ∧ s.context l.currentCoro = ⟨.user, []⟩ ∧
    (preemption = true → l.preemptLock = true)
  | .dequeue _ =>
    s.word l.currentCoro = none ∧ l.currentCoro < s.coros ∧
    (preemption = true → l.preemptLock = true)
  | .restore _ => preemption = true → l.preemptLock = true

/-- The thread executes `c`, or is about to free it. -/
def LocalSched.Runs (l : LocalSched δ) (c : Cid) : Prop :=
  l.exec = .on c ∨ l.exec = .free ∧ l.currentCoro = c

/-- The scheduler `u` is complete, but for the start of its thread. -/
def State.Ready (s : State Q ι δ) (u : Tid) : Prop :=
  ∃ l d, s.sched u = some l ∧ l.started = false ∧ l.exec = .on d ∧ l.currentCoro = d ∧
    s.loopOf d = some u

/-- Nobody is about to start the thread of the scheduler `u`. -/
def State.Idle (s : State Q ι δ) (u : Tid) : Prop :=
  s.Ready u ∧ ∀ d, (s.context d).pc.starts ≠ some u

/-- `c` may start the thread of `u`: it was about to, or nobody is. -/
def State.Starts (s : State Q ι δ) (c : Cid) (u : Tid) : Prop :=
  (s.context c).pc.starts = some u ∨ s.Idle u

structure Control (preemption : Bool) (s : SeqState) : Prop where
  sits : ∀ {t l}, s.sched t = some l → Sits preemption s t l
  named : ∀ c, (s.context c).Named c
  stacked : ∀ c, (s.context c).Stacked c
  quiet : preemption = false → ∀ c, (s.context c).sig = []
  parked : ∀ {c}, s.word c ≠ none →
    (∃ t l, s.sched t = some l ∧ l.Runs c) ∨ (s.context c).Resumes
  blank : ∀ {c}, s.coros ≤ c → s.context c = ⟨.user, []⟩
  vacant : ∀ {t}, s.locals ≤ t → s.sched t = none ∧ s.queues.list t = []
  starts : ∀ {c u}, (s.context c).pc.starts = some u → s.Ready u
  startsInj : ∀ {c d u}, (s.context c).pc.starts = some u → (s.context d).pc.starts = some u → c = d
  loops : ∀ {u l}, s.sched u = some l → l.started = true →
    ∃ e, l.eventLoopCoro = some e ∧ s.loopOf e = some u

/-- The timer heap is ordered by `timer_compare` and has room for its items. -/
structure Heaped (s : State Q ι δ) : Prop where
  compare : s.timerHeap.compare = timerCompare
  items : s.timerHeap.items < s.timerHeap.size
  size : s.timerHeap.size < 2 ^ 61

structure Inv (preemption : Bool) (s : SeqState) : Prop where
  kept : Kept s
  control : Control preemption s
  heaped : Heaped s

/-! ## Execution is exclusive -/

section

variable {preemption : Bool} {s s' : SeqState} {t u : Tid} {l l' : LocalSched Unit} {c d x : Cid}

theorem seat_of_exec (hl : s.sched t = some l) (he : l.exec = .on c) :
    s.seat t = (s.context c).seat c := by
  unfold State.seat
  simp only [hl, he]

theorem ReschedPc.seat_cases (c : Cid) (r : ReschedPc ι δ) :
    c ∈ (r.seat c).tokens ∨ (r.seat c).entry = some c := by
  cases r with
  | switch x =>
    by_cases hx : x = c
    · exact .inl (by simp [hx])
    · exact .inr (by simp [hx])
  | _ => simp

theorem Context.seat_cases (c : Cid) (x : Context ι δ) :
    c ∈ (x.seat c).tokens ∨ (x.seat c).entry = some c := by
  unfold Context.seat
  split
  · exact ReschedPc.seat_cases c _
  · cases x.pc with
    | resched r _ => exact r.seat_cases c
    | _ => exact .inl (by simp)

variable (hI : Inv preemption s)

include hI

/-- A thread keeps what it executes. -/
theorem Inv.own_of_runs (hl : s.sched t = some l) (hr : l.Runs c) : c ∈ own s (.thread t) := by
  rcases hr with he | ⟨he, rfl⟩
  · have hsit := hI.control.sits hl
    simp only [Sits, he] at hsit
    simp only [own, seat_of_exec hl he, Multiset.mem_add, Multiset.mem_coe]
    exact ((s.context c).seat_cases c).imp id hsit.2.2.1
  · simp [own, State.seat, hl, he]

/-- No two threads execute one coroutine. -/
theorem Inv.exec_inj {lu : LocalSched Unit} (hl : s.sched t = some l) (hr : l.Runs c)
    (hu : s.sched u = some lu) (hru : lu.Runs c) : t = u :=
  Holder.thread.inj (hI.kept.excl.inj (hI.own_of_runs hl hr) (hI.own_of_runs hu hru))

end

/-! ## Steps of one thread -/

/-- **A step of one thread** keeps the control invariant: what it changes is the thread `t`, the
context of a coroutine `c` that `t` keeps, and lists that grow. -/
theorem Inv.control_step {preemption : Bool} {s s' : SeqState} {t : Tid} {l l' : LocalSched Unit}
    {c : Cid} (hI : Inv preemption s) (hl : s.sched t = some l) (hrun : l.started = true)
    (hmine : c ∈ own s (.thread t)) (hsched : s'.sched = Function.update s.sched t (some l'))
    (hctx : ∀ d, d ≠ c → s'.context d = s.context d) (hcoros : s'.coros = s.coros)
    (hlocals : s'.locals = s.locals) (hstarted : l'.started = l.started)
    (hlc : l'.eventLoopCoro = l.eventLoopCoro)
    (hword : ∀ d, d ≠ c → (s'.word d = none ↔ s.word d = none)) (hloop : s'.loopOf = s.loopOf)
    (hlist : ∀ u, u ≠ t → s.queues.list u ⊆ s'.queues.list u)
    (hvac : ∀ u, s.locals ≤ u → s'.queues.list u = [])
    (hsit : Sits preemption s' t l') (hnamed : (s'.context c).Named c)
    (hstacked : (s'.context c).Stacked c) (hquiet : preemption = false → (s'.context c).sig = [])
    (hpark : ∀ d, s'.word d ≠ none → l.Runs d ∨ d = c → l'.Runs d ∨ (s'.context d).Resumes)
    (hstarts : ∀ u, (s'.context c).pc.starts = some u → s.Starts c u) :
    Control preemption s' := by
  have hC := hI.control
  have hlive : s.word c ≠ none := hI.kept.live ⟨_, hmine⟩
  have hself : s'.sched t = some l' := by rw [hsched, Function.update_self]
  have hne : ∀ {u}, u ≠ t → s'.sched u = s.sched u := fun hu => by
    rw [hsched, Function.update_of_ne hu]
  have hother : ∀ {u lu d}, u ≠ t → s.sched u = some lu → lu.Runs d → d ≠ c := by
    rintro u lu d hu hlu hr rfl
    exact hu (Holder.thread.inj (hI.kept.excl.inj (hI.own_of_runs hlu hr) hmine))
  have hst : ∀ {d u}, (s'.context d).pc.starts = some u →
      (s.context d).pc.starts = some u ∨ s.Idle u ∧ d = c := by
    intro d u hd
    by_cases hdc : d = c
    · subst hdc; exact (hstarts u hd).imp_right (⟨·, rfl⟩)
    · exact .inl (hctx d hdc ▸ hd)
  refine ⟨?_, ?_, ?_, ?_, ?_, ?_, ?_, ?_, ?_, ?_⟩
  · intro u lu hlu
    by_cases hu : u = t
    · subst hu
      cases Option.some.inj (hself.symm.trans hlu)
      exact hsit
    · rw [hne hu] at hlu
      have hsitu := hC.sits hlu
      rcases heu : lu.exec with d | _ | p | y <;> simp only [Sits, heu] at hsitu ⊢
      · have hd := hother hu hlu (.inl heu)
        rw [hctx d hd]
        exact ⟨(hword d hd).not.2 hsitu.1, hsitu.2.1, fun h => hlist u hu (hsitu.2.2.1 h),
          hsitu.2.2.2⟩
      · have hd := hother hu hlu (.inr ⟨heu, rfl⟩)
        rw [hctx _ hd]
        exact ⟨(hword _ hd).not.2 hsitu.1, hsitu.2⟩
      · have hd : lu.currentCoro ≠ c := fun h => hlive (h ▸ hsitu.1)
        exact ⟨(hword _ hd).2 hsitu.1, hcoros ▸ hsitu.2.1, hsitu.2.2⟩
      · exact hsitu
  · intro d
    by_cases hd : d = c
    · subst hd; exact hnamed
    · rw [hctx d hd]; exact hC.named d
  · intro d
    by_cases hd : d = c
    · subst hd; exact hstacked
    · rw [hctx d hd]; exact hC.stacked d
  · intro hp d
    by_cases hd : d = c
    · subst hd; exact hquiet hp
    · rw [hctx d hd]; exact hC.quiet hp d
  · intro d hd
    by_cases hdc : d = c
    · exact (hpark d hd (.inr hdc)).imp_left fun h => ⟨t, l', hself, h⟩
    · rcases hC.parked ((hword d hdc).not.1 hd) with ⟨u, lu, hlu, hr⟩ | hr
      · by_cases hu : u = t
        · subst hu
          cases Option.some.inj (hl.symm.trans hlu)
          exact (hpark d hd (.inl hr)).imp_left fun h => ⟨u, l', hself, h⟩
        · exact .inl ⟨u, lu, (hne hu).trans hlu, hr⟩
      · exact .inr (by rw [hctx d hdc]; exact hr)
  · intro d hd
    rw [hcoros] at hd
    have hdc : d ≠ c := by
      rintro rfl
      exact absurd (hI.kept.known (.inr hlive)) (not_lt.2 hd)
    rw [hctx d hdc]
    exact hC.blank hd
  · intro u hu
    rw [hlocals] at hu
    have hut : u ≠ t := by
      rintro rfl
      rw [(hC.vacant hu).1] at hl
      cases hl
    exact ⟨by rw [hne hut]; exact (hC.vacant hu).1, hvac u hu⟩
  · intro d u hd
    obtain ⟨lu, e, hlu, hns, heu, hcu, hlo⟩ := (hst hd).elim hC.starts fun h => h.1.1
    have hut : u ≠ t := by
      rintro rfl
      cases Option.some.inj (hl.symm.trans hlu)
      rw [hrun] at hns
      cases hns
    exact ⟨lu, e, (hne hut).trans hlu, hns, heu, hcu, by rw [hloop]; exact hlo⟩
  · intro d d' u hd hd'
    rcases hst hd with hd | ⟨hu, rfl⟩ <;> rcases hst hd' with hd' | ⟨hu', rfl⟩
    · exact hC.startsInj hd hd'
    · exact absurd hd (hu'.2 d)
    · exact absurd hd' (hu.2 d')
    · rfl
  · intro u lu hlu hst
    rw [hloop]
    by_cases hu : u = t
    · subst hu
      cases Option.some.inj (hself.symm.trans hlu)
      rw [hlc]
      exact hC.loops hl (hstarted ▸ hst)
    · exact hC.loops ((hne hu).symm.trans hlu) hst

/-- A step of thread `t`, in state `l`, that touches the context of `c`: the new state of the thread
and the new context. -/
structure Local (s s' : SeqState) (t : Tid) (c : Cid) (l l' : LocalSched Unit)
    (x' : Context Unit Unit) : Prop where
  sched : s'.sched = Function.update s.sched t (some l')
  context : s'.context = Function.update s.context c x'
  coros : s'.coros = s.coros
  locals : s'.locals = s.locals
  started : l'.started = l.started
  loop : l'.eventLoopCoro = l.eventLoopCoro

/-- A step of thread `t` after which it executes `c`. -/
structure Stays (s s' : SeqState) (t : Tid) (c : Cid) (l l' : LocalSched Unit)
    (x' : Context Unit Unit) : Prop extends Local s s' t c l l' x' where
  exec : l'.exec = .on c

/-- The new context agrees with the new state of the thread. -/
structure Fits (preemption : Bool) (c : Cid) (l' : LocalSched Unit) (x' : Context Unit Unit) :
    Prop where
  current : l'.currentCoro = x'.current c
  shut : preemption = true → x'.sig = [] → x'.pc.Shut → l'.preemptLock = true
  named : x'.Named c
  stacked : x'.Stacked c
  quiet : preemption = false → x'.sig = []

section

variable {preemption : Bool} {s s' : SeqState} {t u : Tid} {l l' : LocalSched Unit} {c d x : Cid}
  {x' : Context Unit Unit}

variable (hI : Inv preemption s) (hl : s.sched t = some l) (he : l.exec = .on c)

namespace Local

variable (hS : Local s s' t c l l' x')

include hS

theorem sched_self : s'.sched t = some l' := by rw [hS.sched, Function.update_self]

theorem sched_ne (hu : u ≠ t) : s'.sched u = s.sched u := by
  rw [hS.sched, Function.update_of_ne hu]

theorem context_self : s'.context c = x' := by rw [hS.context, Function.update_self]

theorem context_ne (hd : d ≠ c) : s'.context d = s.context d := by
  rw [hS.context, Function.update_of_ne hd]

theorem own_fresh : own s' (.fresh c) = x'.pc.fresh := by rw [own, hS.context_self]

theorem own_woken : own s' (.woken c) = x'.pc.woken := by rw [own, hS.context_self]

/-- A step of `c` changes no event loop, if `c` stays in the code it is in. -/
theorem loopOf_eq (hstart : ∀ d, (s'.word d).bind Prod.snd = (s.word d).bind Prod.snd)
    (hloop : s'.loopOf c = s.loopOf c) : s'.loopOf = s.loopOf := by
  funext d
  by_cases hd : d = c
  · rw [hd, hloop]
  · unfold State.loopOf
    rw [hS.context_ne hd, hstart d]

include hI hl he

theorem seat_ne (hu : u ≠ t) : s'.seat u = s.seat u := by
  unfold State.seat
  rw [hS.sched_ne hu]
  rcases hlu : s.sched u with _ | lu
  · rfl
  · rcases heu : lu.exec with d | _ | p | y
    · have hd : d ≠ c := fun h => hu (hI.exec_inj hlu (.inl (h ▸ heu)) hl (.inl he))
      simp only [heu, hS.context_ne hd]
    all_goals simp only [heu]

/-- A step of `c` on `t` changes the custody of `t` and `c` only, and of a thread `v` if it enqueues
there. -/
theorem own_ne {v : Tid} (hlist : ∀ u, u ≠ t → u ≠ v → s'.queues.list u = s.queues.list u)
    {h : Holder} (ht : h ≠ .thread t) (hv : h ≠ .thread v) (hf : h ≠ .fresh c) (hw : h ≠ .woken c) :
    own s' h = own s h := by
  cases h with
  | thread u =>
    have hu : u ≠ t := fun h => ht (h ▸ rfl)
    rw [own, own, hS.seat_ne hI hl he hu, hlist u hu fun h => hv (h ▸ rfl)]
  | fresh d => rw [own, own, hS.context_ne fun h => hf (h ▸ rfl)]
  | woken d => rw [own, own, hS.context_ne fun h => hw (h ▸ rfl)]

theorem own_eq (hown : own s' (.thread t) = own s (.thread t))
    (hlist : ∀ u, u ≠ t → s'.queues.list u = s.queues.list u)
    (hfresh : x'.pc.fresh = (s.context c).pc.fresh)
    (hwoken : x'.pc.woken = (s.context c).pc.woken) : own s' = own s := by
  funext h
  by_cases ht : h = .thread t
  · rw [ht, hown]
  · by_cases hf : h = .fresh c
    · rw [hf, hS.own_fresh, hfresh, own]
    · by_cases hw : h = .woken c
      · rw [hw, hS.own_woken, hwoken, own]
      · exact hS.own_ne hI hl he (fun u hu _ => hlist u hu) ht ht hf hw

omit he

theorem vacant_list (hlist : ∀ u, u ≠ t → s'.queues.list u = s.queues.list u) {u : Tid}
    (hu : s.locals ≤ u) : s'.queues.list u = [] := by
  have hut : u ≠ t := by
    rintro rfl
    rw [(hI.control.vacant hu).1] at hl
    cases hl
  rw [hlist u hut]
  exact (hI.control.vacant hu).2

end Local

namespace Stays

variable (hS : Stays s s' t c l l' x')

include hS

theorem seat_self : s'.seat t = x'.seat c := by
  rw [seat_of_exec hS.sched_self hS.exec, hS.context_self]

theorem own_self : own s' (.thread t) = (x'.seat c).tokens + (s'.queues.list t : Multiset Cid) := by
  rw [own, hS.seat_self]

include hI hl he

/-- A step after which the thread still executes the coroutine keeps the control invariant. -/
theorem control (hrun : l.started = true) (hF : Fits preemption c l' x')
    (hword : ∀ d, s'.word d = none ↔ s.word d = none) (hloop : s'.loopOf = s.loopOf)
    (hlist : ∀ u, u ≠ t → s.queues.list u ⊆ s'.queues.list u)
    (hvac : ∀ u, s.locals ≤ u → s'.queues.list u = [])
    (hentry : (x'.seat c).entry = some c → c ∈ s'.queues.list t)
    (hstarts : ∀ u, x'.pc.starts = some u → s.Starts c u) : Control preemption s' := by
  have hsit := hI.control.sits hl
  simp only [Sits, he] at hsit
  have hself := hS.context_self
  refine hI.control_step hl hrun (hI.own_of_runs hl (.inl he)) hS.sched
    (fun d hd => hS.context_ne hd) hS.coros hS.locals hS.started hS.loop (fun d _ => hword d) hloop
    hlist hvac ?_ (hself ▸ hF.named) (hself ▸ hF.stacked) (hself ▸ hF.quiet) ?_ (hself ▸ hstarts)
  · simp only [Sits, hS.exec, hself]
    exact ⟨(hword c).not.2 hsit.1, hF.current, hentry, hF.shut⟩
  · intro d hd hr
    refine .inl (.inl ?_)
    rcases hr with (h | ⟨h, -⟩) | rfl
    · rw [he] at h; cases h; exact hS.exec
    · rw [he] at h; cases h
    · exact hS.exec

/-- A step that leaves custody and the state words as they are. -/
theorem move (hrun : l.started = true) (hF : Fits preemption c l' x')
    (hown : (x'.seat c).tokens + (s'.queues.list t : Multiset Cid) =
      ((s.context c).seat c).tokens + (s.queues.list t : Multiset Cid))
    (hlist : ∀ u, u ≠ t → s'.queues.list u = s.queues.list u)
    (hnodes : ∀ d, s'.queues.linked d = true ↔ ∃ u, d ∈ s'.queues.list u)
    (hentry : (x'.seat c).entry = some c → c ∈ s'.queues.list t)
    (hword : s'.word = s.word) (hfresh : x'.pc.fresh = (s.context c).pc.fresh)
    (hwoken : x'.pc.woken = (s.context c).pc.woken) (hloop : s'.loopOf c = s.loopOf c)
    (hstarts : ∀ u, x'.pc.starts = some u → (s.context c).pc.starts = some u)
    (hs : ∀ {y}, s'.Handled y → s.Handled y ∨ s.Returned y) (hH : Heaped s') :
    Inv preemption s' := by
  have hloops := hS.loopOf_eq (by rw [hword]; exact fun _ => rfl) hloop
  have ho : own s' = own s := by
    refine hS.own_eq hI hl he ?_ hlist hfresh hwoken
    rw [hS.own_self, hown, own, seat_of_exec hl he]
  refine ⟨hI.kept.same hnodes hS.coros hloops ho hword hs, ?_, hH⟩
  exact hS.control hI hl he hrun hF (by rw [hword]; exact fun _ => Iff.rfl) hloops
    (fun u hu => by rw [hlist u hu]; exact fun _ h => h)
    (fun u hu => hS.vacant_list hI hl hlist hu) hentry fun u hu => .inl (hstarts u hu)

/-- A step that leaves custody, the state words and the run lists as they are. -/
theorem tau (hrun : l.started = true) (hF : Fits preemption c l' x')
    (hq : s'.queues = s.queues) (hword : s'.word = s.word)
    (hseat : x'.seat c = (s.context c).seat c) (hfresh : x'.pc.fresh = (s.context c).pc.fresh)
    (hwoken : x'.pc.woken = (s.context c).pc.woken) (hloop : s'.loopOf c = s.loopOf c)
    (hstarts : ∀ u, x'.pc.starts = some u → (s.context c).pc.starts = some u)
    (hs : ∀ {y}, s'.Handled y → s.Handled y ∨ s.Returned y) (hH : Heaped s') :
    Inv preemption s' := by
  refine hS.move hI hl he hrun hF (by rw [hseat, hq]) (by rw [hq]; exact fun _ _ => rfl)
    (by rw [hq]; exact hI.kept.nodes) ?_ hword hfresh hwoken hloop hstarts hs hH
  have hsit := hI.control.sits hl
  simp only [Sits, he] at hsit
  rw [hseat, hq]
  exact hsit.2.2.1

end Stays

/-! ## Steps after which the thread executes another coroutine -/

theorem Context.Resumes.seat {x : Context ι δ} (h : x.Resumes) (c : Cid) : x.seat c = .on c := by
  unfold Context.Resumes at h
  unfold Context.seat
  split
  · next hsig => rw [hsig] at h; simp only at h; rw [h]; rfl
  · next hsig =>
    rw [hsig] at h
    simp only at h
    cases hpc : x.pc with
    | resched r _ => rw [hpc] at h; cases r <;> simp_all
    | _ => simp_all

theorem Context.Resumes.current {x : Context ι δ} (h : x.Resumes) (c : Cid) : x.current c = c := by
  unfold Context.Resumes at h
  unfold Context.current
  split
  · next hsig hpc => rw [hsig] at h; simp [hpc] at h
  · rfl

/-- A coroutine that a thread keeps and does not execute goes on at a return from a switch. -/
theorem Inv.resumes (hI : Inv preemption s) (hl : s.sched t = some l)
    (hx : x ∈ own s (.thread t)) (hr : ¬l.Runs x) : (s.context x).Resumes := by
  rcases hI.control.parked (hI.kept.live ⟨_, hx⟩) with ⟨u, lu, hlu, hru⟩ | h
  · have hut : u = t := Holder.thread.inj (hI.kept.excl.inj (hI.own_of_runs hlu hru) hx)
    subst hut
    cases Option.some.inj (hl.symm.trans hlu)
    exact absurd hru hr
  · exact h

/-- What holds of a thread that has just switched to `x`. -/
theorem sits_of_resumes (hexec : l'.exec = .on x) (hcur : l'.currentCoro = x)
    (hlock : preemption = true → l'.preemptLock = true) (hlive : s'.word x ≠ none)
    (hres : (s'.context x).Resumes) : Sits preemption s' t l' := by
  simp only [Sits, hexec]
  refine ⟨hlive, hcur.trans (hres.current x).symm, fun h => ?_, fun hp _ _ => hlock hp⟩
  rw [hres.seat] at h
  cases h

namespace Local

variable (hS : Local s s' t c l l' x')

variable (hexec : l'.exec = .on x) (hx : x ∈ own s (.thread t)) (hres : x'.Resumes)

include hI hl he hS hx hres

/-- The coroutine that the thread goes to is at a return from a switch. -/
theorem resumes_next : (s'.context x).Resumes := by
  by_cases hxc : x = c
  · rw [hxc, hS.context_self]; exact hres
  · rw [hS.context_ne hxc]
    refine hI.resumes hl hx ?_
    rintro (h | ⟨h, -⟩)
    · rw [he] at h; cases h; exact hxc rfl
    · rw [he] at h; cases h

include hexec

theorem seat_next : s'.seat t = .on x := by
  rw [seat_of_exec hS.sched_self hexec, (hS.resumes_next hI hl he hx hres).seat]

/-- A step after which the thread executes `x` keeps the control invariant. -/
theorem control_next (hrun : l.started = true) (hcur : l'.currentCoro = x)
    (hlock : preemption = true → l'.preemptLock = true)
    (hword : ∀ d, s'.word d = none ↔ s.word d = none) (hloop : s'.loopOf = s.loopOf)
    (hq : s'.queues = s.queues) (hnamed : x'.Named c) (hstacked : x'.Stacked c)
    (hquiet : preemption = false → x'.sig = [])
    (hstarts : ∀ u, x'.pc.starts = some u → (s.context c).pc.starts = some u) :
    Control preemption s' := by
  have hself := hS.context_self
  refine hI.control_step hl hrun (hI.own_of_runs hl (.inl he)) hS.sched
    (fun d hd => hS.context_ne hd) hS.coros hS.locals hS.started hS.loop (fun d _ => hword d) hloop
    (by rw [hq]; exact fun _ _ _ h => h) (by rw [hq]; exact fun u hu => (hI.control.vacant hu).2)
    ?_ (hself ▸ hnamed) (hself ▸ hstacked) (hself ▸ hquiet) ?_
    (hself ▸ fun u hu => .inl (hstarts u hu))
  · exact sits_of_resumes hexec hcur hlock ((hword x).not.2 (hI.kept.live ⟨_, hx⟩))
      (hS.resumes_next hI hl he hx hres)
  · intro d _ hr
    refine .inr ?_
    have hd : d = c := by
      rcases hr with (h | ⟨h, -⟩) | h
      · rw [he] at h; cases h; rfl
      · rw [he] at h; cases h
      · exact h
    rw [hd, hself]
    exact hres

end Local

end

/-! ## Points alike -/

/-- Two points outside a handler that do not differ for custody. -/
structure Pc.Like (c : Cid) (pc pc' : Pc Unit Unit) : Prop where
  seat : pc'.seat c = pc.seat c
  fresh : pc'.fresh = pc.fresh
  woken : pc'.woken = pc.woken
  starts : pc'.starts = pc.starts
  loop : pc'.loop = pc.loop ∧ pc ≠ .trampoline ∧ pc' ≠ .trampoline
  named : pc.Named c → pc'.Named c
  current : Context.current c ⟨pc', []⟩ = Context.current c ⟨pc, []⟩

/-- A point of no concern to custody, in the code of the event loop of a thread or of no one. -/
structure Pc.Plain (c : Cid) (lp : Option Tid) (pc : Pc Unit Unit) : Prop where
  seat : pc.seat c = .on c
  fresh : pc.fresh = 0
  woken : pc.woken = 0
  starts : pc.starts = none
  handles : pc.handles = []
  loop : pc.loop = lp ∧ pc ≠ .trampoline
  named : pc.Named c
  shut : ¬pc.Shut
  current : Context.current c ⟨pc, []⟩ = c

theorem Pc.Plain.like {c : Cid} {lp : Option Tid} {pc pc' : Pc Unit Unit} (h : pc.Plain c lp)
    (h' : pc'.Plain c lp) : Pc.Like c pc pc' where
  seat := h'.seat.trans h.seat.symm
  fresh := h'.fresh.trans h.fresh.symm
  woken := h'.woken.trans h.woken.symm
  starts := h'.starts.trans h.starts.symm
  loop := ⟨h'.loop.1.trans h.loop.1.symm, h.loop.2, h'.loop.2⟩
  named _ := h'.named
  current := h'.current.trans h.current.symm

theorem ReschedRet.plain (c : Cid) (ret : ReschedRet) : Pc.Plain c ret.loopOf ret.pc := by
  cases ret <;> constructor <;> simp [ReschedRet.pc]

theorem SuspendRet.plain (c : Cid) (ret : SuspendRet) : Pc.Plain c none ret.pc := by
  cases ret <;> constructor <;> simp [SuspendRet.pc]

theorem ScheduleRet.plain (c : Cid) (ret : ScheduleRet) : Pc.Plain c ret.loopOf ret.pc := by
  cases ret <;> constructor <;> simp [ScheduleRet.pc]

@[simp] def Start.loopOf : Start → Option Tid
  | .user => none
  | .loop u => some u

theorem Start.plain (c : Cid) (start : Start) : Pc.Plain c start.loopOf start.pc := by
  cases start <;> constructor <;> simp [Start.pc]

theorem afterTimers_plain (c : Cid) (u : Tid) (v : Int) : Pc.Plain c (some u) (afterTimers u v) := by
  unfold afterTimers
  split <;> constructor <;> simp

theorem State.loopOf_of_pc {s : State Q ι δ} {c : Cid} (h : (s.context c).pc ≠ .trampoline) :
    s.loopOf c = (s.context c).pc.loop := by
  unfold State.loopOf
  split
  · next heq => exact absurd heq h
  · rfl

section

variable {preemption : Bool} {s s' : SeqState} {t : Tid} {l l' : LocalSched Unit} {c : Cid}
  {pc' : Pc Unit Unit}

namespace Pc.Like

variable (hsig : (s.context c).sig = []) (hlike : Pc.Like c (s.context c).pc pc')

include hsig hlike

theorem seat_eq : Context.seat c ⟨pc', []⟩ = (s.context c).seat c := by
  have hctx : s.context c = ⟨(s.context c).pc, []⟩ := by rw [← hsig]
  rw [hctx]
  exact hlike.seat

theorem fits (hI : Inv preemption s) (hl : s.sched t = some l) (he : l.exec = .on c)
    (hcur : l'.currentCoro = l.currentCoro)
    (hshut : preemption = true → pc'.Shut → l'.preemptLock = true) :
    Fits preemption c l' ⟨pc', []⟩ := by
  have hctx : s.context c = ⟨(s.context c).pc, []⟩ := by rw [← hsig]
  have hsit := hI.control.sits hl
  simp only [Sits, he] at hsit
  refine ⟨?_, fun hp _ h => hshut hp h, ?_, fun h => absurd rfl h, fun _ => rfl⟩
  · rw [hcur, hsit.2.1, hlike.current, ← hctx]
  · exact ⟨hlike.named (hI.control.named c).1, by simp⟩

omit hsig in
theorem loopOf_eq (hctx : s'.context c = ⟨pc', []⟩) : s'.loopOf c = s.loopOf c := by
  rw [State.loopOf_of_pc hlike.loop.2.1,
    State.loopOf_of_pc (by rw [hctx]; exact hlike.loop.2.2), hctx]
  exact hlike.loop.1

end Pc.Like

variable (hI : Inv preemption s) (hl : s.sched t = some l) (he : l.exec = .on c)
  (hrun : l.started = true) (hsig : (s.context c).sig = [])

include hI hl he hrun hsig

/-- A step to a point that does not differ for custody. -/
theorem Stays.like (hS : Stays s s' t c l l' ⟨pc', []⟩) (hlike : Pc.Like c (s.context c).pc pc')
    (hcur : l'.currentCoro = l.currentCoro)
    (hshut : preemption = true → pc'.Shut → l'.preemptLock = true) (hq : s'.queues = s.queues)
    (hword : s'.word = s.word) (hs : ∀ {y}, s'.Handled y → s.Handled y ∨ s.Returned y)
    (hH : Heaped s') : Inv preemption s' :=
  hS.tau hI hl he hrun (hlike.fits hsig hI hl he hcur hshut) hq hword (hlike.seat_eq hsig)
    hlike.fresh hlike.woken (hlike.loopOf_eq hS.context_self) (fun _ hu => hlike.starts ▸ hu) hs hH

end

end Lwthread.Scheduler
