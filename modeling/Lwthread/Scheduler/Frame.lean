import Lwthread.Scheduler.Reachable

/-!
# What a step leaves alone

A step of one thread changes the context of the coroutine it executes and of a coroutine it makes,
and the scheduler and the run list of its own thread, of a thread it makes and of the one it starts.
The first half holds of any implementation of the run lists. Where the invariant holds, no other
thread that is started notices the step (`Inv.frame`), and a thread that is not started is at the top
of its event loop (`Reach.unstarted`).
-/

namespace Lwthread.Scheduler

open Lwthread.Util Lwthread.Platform Custody

/-! ## Contexts and schedulers -/

section

variable {Q ι δ : Type} {ops : ListOps Q ι δ} {preemption : Bool} {s s' : State Q ι δ} {t u : Tid}
  {l : LocalSched δ} {c d : Cid} {i : Input} {a : Act} {pc : Pc ι δ}

theorem State.modSched_self (f : LocalSched δ → LocalSched δ) :
    (s.modSched t f).sched t = (s.sched t).map f := Function.update_self _ _ _

theorem State.modSched_context (f : LocalSched δ → LocalSched δ) :
    (s.modSched t f).context = s.context := rfl

@[simp] theorem State.setPreempt_context (b : Bool) :
    (s.setPreempt preemption t b).context = s.context := by
  unfold State.setPreempt; split <;> rfl

theorem State.setPreempt_sched_ne (b : Bool) (hu : u ≠ t) :
    (s.setPreempt preemption t b).sched u = s.sched u := by
  unfold State.setPreempt
  split
  · exact Function.update_of_ne hu _ _
  · rfl

theorem Yield.sched_ne {s₁ : State Q ι δ} {r : ReschedPc ι δ} {r' : Option (ReschedPc ι δ)}
    (h : Yield ops preemption s t l r s₁ r') (hu : u ≠ t) : s₁.sched u = s.sched u := by
  cases h with
  | switch =>
    exact (Function.update_of_ne hu _ _).trans (State.setPreempt_sched_ne (s := s) true hu)
  | resumed => exact State.setPreempt_sched_ne false hu
  | _ => rfl

/-- A context after a step: as before, or that of a coroutine just made. -/
def ContextNe (s s' : State Q ι δ) (d : Cid) : Prop :=
  s'.context d = s.context d ∨
  d = s.coros ∧ s'.coros = s.coros + 1 ∧
    (s'.context d = ⟨.trampoline, []⟩ ∨ ∃ u, s'.context d = ⟨.loopTop u, []⟩)

/-- A step of a coroutine's code changes the contexts of that coroutine and of a new one only. -/
theorem Stride.context_ne (h : Stride ops preemption s t l c i pc s') (hd : d ≠ c) :
    ContextNe s s' d := by
  have hgoto : ∀ {s₀ : State Q ι δ} {pc' : Pc ι δ}, s₀.context d = s.context d →
      ContextNe s (s₀.goto c pc') d := fun h => .inl ((State.goto_ne _ _ hd).trans h)
  cases h with
  | resched hy => exact hgoto (by rw [hy.context_eq])
  | ret => exact .inl (congrFun (State.setPreempt_context true) d)
  | setErrno => exact .inl rfl
  | eintr => exact .inl rfl
  | park => exact .inl (State.goto_ne _ _ hd)
  | newCoroutine =>
    by_cases hnew : d = s.coros
    · refine .inr ⟨hnew, rfl, .inl ?_⟩
      rw [State.goto_ne _ _ hd, hnew]
      exact Function.update_self _ _ _
    · exact hgoto (Function.update_of_ne hnew _ _)
  | newLocal =>
    by_cases hnew : d = s.coros
    · refine .inr ⟨hnew, rfl, .inr ⟨s.locals, ?_⟩⟩
      rw [State.goto_ne _ _ hd, hnew]
      exact Function.update_self _ _ _
    · exact hgoto (Function.update_of_ne hnew _ _)
  | trampoline => exact hgoto (congrFun (State.setPreempt_context false) d)
  | suspendBlock => exact hgoto (congrFun (State.setPreempt_context true) d)
  | suspendUnblock => exact hgoto (congrFun (State.setPreempt_context false) d)
  | _ => exact hgoto rfl

/-- A step of a coroutine's code leaves its handlers. -/
theorem Stride.sig (h : Stride ops preemption s t l c i pc s') (hnew : c ≠ s.coros) :
    (s'.context c).sig = (s.context c).sig := by
  have hgoto : ∀ {s₀ : State Q ι δ} {pc' : Pc ι δ}, s₀.context c = s.context c →
      ((s₀.goto c pc').context c).sig = (s.context c).sig := by
    intro s₀ pc' h
    simp [State.goto, h]
  cases h with
  | resched hy => exact hgoto (by rw [hy.context_eq])
  | ret => exact congrArg (Context.sig <| · c) (State.setPreempt_context (s := s) true)
  | setErrno => rfl
  | eintr => rfl
  | park => exact hgoto rfl
  | newCoroutine => exact hgoto (Function.update_of_ne hnew _ _)
  | newLocal => exact hgoto (Function.update_of_ne hnew _ _)
  | trampoline => exact hgoto (congrFun (State.setPreempt_context false) c)
  | suspendBlock => exact hgoto (congrFun (State.setPreempt_context true) c)
  | suspendUnblock => exact hgoto (congrFun (State.setPreempt_context false) c)
  | _ => exact hgoto rfl

/-- The scheduler of another thread after a step: as before, started, or new. -/
def SchedNe (s s' : State Q ι δ) (u : Tid) (pc : Pc ι δ) (c : Cid) : Prop :=
  s'.sched u = s.sched u ∨
  (pc = .newStart u ∧ s'.sched u = (s.sched u).map fun l =>
    { l with eventLoopCoro := some l.currentCoro, started := true }) ∨
  (u = s.locals ∧ s'.sched u = some ⟨s.coros, none, false, 0, .on s.coros, false⟩ ∧
    (s.coros ≠ c → s'.context s.coros = ⟨.loopTop u, []⟩))

/-- A step of a coroutine's code changes the schedulers of its own thread, of a new one and of the
one it starts only. -/
theorem Stride.sched_ne (h : Stride ops preemption s t l c i pc s') (hu : u ≠ t) :
    SchedNe s s' u pc c := by
  cases h with
  | resched hy => exact .inl (hy.sched_ne hu)
  | trampoline => exact .inl (State.setPreempt_sched_ne false hu)
  | setErrno => exact .inl (Function.update_of_ne hu _ _)
  | ret =>
    exact .inl ((Function.update_of_ne hu _ _).trans (State.setPreempt_sched_ne (s := s) true hu))
  | suspendBlock => exact .inl (State.setPreempt_sched_ne true hu)
  | suspendTake => exact .inl (Function.update_of_ne hu _ _)
  | park => exact .inl (Function.update_of_ne hu _ _)
  | abort => exact .inl (Function.update_of_ne hu _ _)
  | suspendUnblock => exact .inl (State.setPreempt_sched_ne false hu)
  | newLocal =>
    by_cases huv : u = s.locals
    · subst huv
      refine .inr (.inr ⟨rfl, Function.update_self _ _ _, fun hc => ?_⟩)
      exact (State.goto_ne _ _ hc).trans (Function.update_self _ _ _)
    · exact .inl (Function.update_of_ne huv _ _)
  | @newStart v =>
    by_cases huv : u = v
    · subst huv; exact .inr (.inl ⟨rfl, Function.update_self _ _ _⟩)
    · exact .inl (Function.update_of_ne huv _ _)
  | _ => exact .inl rfl

theorem Death.context_eq {e : Exec δ} (h : Death ops s t l e s') : s'.context = s.context := by
  cases h <;> rfl

/-- `free_coro` is the code of no coroutine. -/
theorem Death.not_on {e : Exec δ} (h : Death ops s t l e s') : e ≠ .on c := by
  rintro rfl
  cases h

theorem Death.running (hl : s.sched t = some l) (h : Death ops s t l l.exec s') :
    s.running t = none := by
  unfold State.running
  rcases he : l.exec with c | _ | p | x
  · exact absurd he h.not_on
  all_goals simp only [hl, he]

theorem Death.sched_ne {e : Exec δ} (h : Death ops s t l e s') (hu : u ≠ t) :
    s'.sched u = s.sched u := by
  cases h <;> exact Function.update_of_ne hu _ _

/-! ## What the thread executes after a step -/

section

variable {l' : LocalSched δ} (hl : s.sched t = some l)

include hl

theorem modSched_some {f : LocalSched δ → LocalSched δ} (h : (s.modSched t f).sched t = some l') :
    l' = f l := by
  rw [State.modSched_self, hl] at h
  cases h
  rfl

theorem setPreempt_some (b : Bool) (h : (s.setPreempt preemption t b).sched t = some l') :
    l'.exec = l.exec ∧ l'.started = l.started := by
  unfold State.setPreempt at h
  split at h
  · rw [modSched_some hl h]
    exact ⟨rfl, rfl⟩
  · cases Option.some.inj (hl.symm.trans h)
    exact ⟨rfl, rfl⟩

theorem Yield.exec {s₁ : State Q ι δ} {r : ReschedPc ι δ} {r' : Option (ReschedPc ι δ)}
    (h : Yield ops preemption s t l r s₁ r') (hl' : s₁.sched t = some l') :
    l'.exec = l.exec ∨ ∃ x, r = .switch x ∧ l'.exec = .on x := by
  have hsame : s.sched t = some l' → l'.exec = l.exec := fun h => by
    cases Option.some.inj (hl.symm.trans h)
    rfl
  cases h with
  | @switch x k =>
    refine .inr ⟨x, rfl, ?_⟩
    rw [State.modSched_self] at hl'
    obtain ⟨l₀, -, rfl⟩ := Option.map_eq_some_iff.1 hl'
    rfl
  | resumed => exact .inl (setPreempt_some hl false hl').1
  | _ => exact .inl (hsame hl')

/-- After a step of a coroutine's code the thread executes it, or its death, or the coroutine that it
has switched to. -/
theorem Stride.exec (h : Stride ops preemption s t l c i pc s') (hnew : t ≠ s.locals)
    (hl' : s'.sched t = some l') : l'.exec = l.exec ∨ l'.exec = .free ∧ pc = .user ∨
      ∃ x, l'.exec = .on x ∧
        ((∃ ret, pc = .resched (.switch x) ret) ∨ ∃ d ret, pc = .suspendCmpxchg d x ret) := by
  have hsame : s.sched t = some l' → l'.exec = l.exec := fun h => by
    cases Option.some.inj (hl.symm.trans h)
    rfl
  cases h with
  | resched hy =>
    refine (hy.exec hl hl').imp_right fun ⟨x, hr, hx⟩ => .inr ⟨x, hx, .inl ⟨_, by rw [hr]⟩⟩
  | trampoline => exact .inl (setPreempt_some hl false hl').1
  | setErrno => exact .inl (by rw [modSched_some hl hl'])
  | ret =>
    refine .inr (.inl ⟨?_, rfl⟩)
    rw [State.modSched_self] at hl'
    obtain ⟨l₀, -, rfl⟩ := Option.map_eq_some_iff.1 hl'
    rfl
  | suspendBlock => exact .inl (setPreempt_some hl true hl').1
  | suspendTake =>
    refine .inl ?_
    rw [modSched_some (s := State.modCoro { s with queues := _ } _ _) hl hl']
  | @park d x ret =>
    refine .inr (.inr ⟨x, ?_, .inr ⟨d, ret, rfl⟩⟩)
    rw [modSched_some (s := State.goto (State.modCoro s _ _) _ _) hl hl']
  | abort => exact .inl (by rw [modSched_some hl hl'])
  | suspendUnblock => exact .inl (setPreempt_some hl false hl').1
  | newLocal => exact .inl (hsame ((Function.update_of_ne hnew _ _).symm.trans hl'))
  | @newStart v =>
    by_cases hv : t = v
    · subst hv; exact .inl (by rw [modSched_some hl hl'])
    · exact .inl (hsame ((Function.update_of_ne hv _ _).symm.trans hl'))
  | _ => exact .inl (hsame hl')

theorem Yield.started {s₁ : State Q ι δ} {r : ReschedPc ι δ} {r' : Option (ReschedPc ι δ)}
    (h : Yield ops preemption s t l r s₁ r') (hl' : s₁.sched t = some l') :
    l'.started = l.started := by
  cases h with
  | switch =>
    rw [State.modSched_self] at hl'
    obtain ⟨l₀, hl₀, rfl⟩ := Option.map_eq_some_iff.1 hl'
    exact (setPreempt_some hl true hl₀).2
  | resumed => exact (setPreempt_some hl false hl').2
  | _ => rw [Option.some.inj (hl.symm.trans hl')]

theorem Stride.started (h : Stride ops preemption s t l c i pc s') (hnew : t ≠ s.locals)
    (hrun : l.started = true) (hl' : s'.sched t = some l') : l'.started = true := by
  have hsame : s.sched t = some l' → l'.started = true := fun h => by
    rwa [← Option.some.inj (hl.symm.trans h)]
  cases h with
  | resched hy => rw [hy.started hl hl', hrun]
  | trampoline => rw [(setPreempt_some hl false hl').2, hrun]
  | setErrno => rw [modSched_some hl hl']; exact hrun
  | ret =>
    rw [State.modSched_self] at hl'
    obtain ⟨l₀, hl₀, rfl⟩ := Option.map_eq_some_iff.1 hl'
    exact (setPreempt_some hl true hl₀).2.trans hrun
  | suspendBlock => rw [(setPreempt_some hl true hl').2, hrun]
  | suspendTake =>
    rw [modSched_some (s := State.modCoro { s with queues := _ } _ _) hl hl']; exact hrun
  | park => rw [modSched_some (s := State.goto (State.modCoro s _ _) _ _) hl hl']; exact hrun
  | abort => rw [modSched_some hl hl']; exact hrun
  | suspendUnblock => rw [(setPreempt_some hl false hl').2, hrun]
  | newLocal => exact hsame ((Function.update_of_ne hnew _ _).symm.trans hl')
  | @newStart v =>
    by_cases hv : t = v
    · subst hv; rw [modSched_some hl hl']
    · exact hsame ((Function.update_of_ne hv _ _).symm.trans hl')
  | _ => exact hsame hl'

theorem Death.started {e : Exec δ} (h : Death ops s t l e s') (hl' : s'.sched t = some l') :
    l'.started = l.started := by
  cases h with
  | free => rw [modSched_some (s := { s with coro := _ }) hl hl']
  | pop => rw [modSched_some (s := { s with queues := _ }) hl hl']
  | popped => rw [modSched_some (s := { s with queues := _ }) hl hl']
  | restore => rw [modSched_some hl hl']

end

/-! ## Actions -/

/-- An action changes the contexts of the coroutine that executes and of a new one only. -/
theorem Moves.context_ne (h : Moves ops preemption s t l a s') (hd : l.exec ≠ .on d) :
    ContextNe s s' d := by
  have hne : ∀ {c}, l.exec = .on c → d ≠ c := fun he h => hd (h ▸ he)
  cases h with
  | stride he _ _ hst => exact hst.context_ne (hne he)
  | handler he _ _ hy =>
    refine .inl ?_
    rw [State.setSig, hy.context_eq]
    exact Function.update_of_ne (hne he) _ _
  | death hdt => exact .inl (by rw [hdt.context_eq])
  | signal _ _ he => exact .inl (Function.update_of_ne (hne he) _ _)

theorem ContextNe.eq (h : ContextNe s s' d) (hd : d ≠ s.coros) : s'.context d = s.context d :=
  h.resolve_right fun h => hd h.1

/-! ## The timer heap -/

/-- What a step at a point does to the timer heap. -/
inductive HeapStep (s s' : State Q ι δ) : Pc ι δ → Prop
  | same {p} (h : s'.timerHeap = s.timerHeap) : HeapStep s s' p
  | min {p} (h : s'.timerHeap = (heapMin s.timerHeap).2) : HeapStep s s' p
  | push {w} (hf : heapPushFits s.timerHeap = true)
      (h : s'.timerHeap = (heapPush .block s.timerHeap w).2) : HeapStep s s' (.waitPush w)
  | pop {u v w} (h : s'.timerHeap = (heapPopMin .block s.timerHeap).2) :
      HeapStep s s' (.timersPop u v w)

@[simp] theorem State.setPreempt_timerHeap (b : Bool) :
    (s.setPreempt preemption t b).timerHeap = s.timerHeap := by
  unfold State.setPreempt; split <;> rfl

theorem Yield.timerHeap {s₁ : State Q ι δ} {r : ReschedPc ι δ} {r' : Option (ReschedPc ι δ)}
    (h : Yield ops preemption s t l r s₁ r') : s₁.timerHeap = s.timerHeap := by
  cases h with
  | switch => exact State.setPreempt_timerHeap true
  | resumed => exact State.setPreempt_timerHeap false
  | _ => rfl

theorem Stride.heapStep (h : Stride ops preemption s t l c i pc s') : HeapStep s s' pc := by
  cases h with
  | resched hy => exact .same hy.timerHeap
  | trampoline => exact .same (State.setPreempt_timerHeap false)
  | ret => exact .same (State.setPreempt_timerHeap true)
  | suspendBlock => exact .same (State.setPreempt_timerHeap true)
  | suspendUnblock => exact .same (State.setPreempt_timerHeap false)
  | waitPush hf => exact .push hf rfl
  | loopNone => exact .min rfl
  | loopMin => exact .min rfl
  | timersMin => exact .min rfl
  | timersPop => exact .pop rfl
  | _ => exact .same rfl

theorem Death.timerHeap {e : Exec δ} (h : Death ops s t l e s') : s'.timerHeap = s.timerHeap := by
  cases h <;> rfl

/-! ## Allocation -/

/-- Coroutines and schedulers are numbered in the order in which they are made, and a scheduler is
never freed. -/
structure Grows (s s' : State Q ι δ) : Prop where
  coros : s.coros ≤ s'.coros
  locals : s.locals ≤ s'.locals
  coro : ∀ {d}, s'.coro d ≠ none → s.coro d ≠ none ∨ d < s'.coros
  sched : ∀ {u}, s.sched u ≠ none → s'.sched u ≠ none
  unsched : ∀ {u}, s'.sched u ≠ none → s.sched u ≠ none ∨ u < s'.locals

namespace Grows

theorem refl (s : State Q ι δ) : Grows s s := ⟨le_rfl, le_rfl, .inl, id, .inl⟩

theorem same {s₁ s₂ : State Q ι δ} (h : Grows s s₁) (hcoros : s₂.coros = s₁.coros)
    (hlocals : s₂.locals = s₁.locals) (hcoro : s₂.coro = s₁.coro) (hsched : s₂.sched = s₁.sched) :
    Grows s s₂ := by
  refine ⟨?_, ?_, ?_, ?_, ?_⟩
  · rw [hcoros]; exact h.coros
  · rw [hlocals]; exact h.locals
  · rw [hcoros, hcoro]; exact h.coro
  · rw [hsched]; exact h.sched
  · rw [hlocals, hsched]; exact h.unsched

theorem modSched {s₁ : State Q ι δ} (h : Grows s s₁) (f : LocalSched δ → LocalSched δ) :
    Grows s (s₁.modSched t f) := by
  have hiff : ∀ v, (s₁.modSched t f).sched v ≠ none ↔ s₁.sched v ≠ none := by
    intro v
    by_cases hv : v = t
    · subst hv; rw [State.modSched_self]; simp
    · rw [show (s₁.modSched t f).sched v = s₁.sched v from Function.update_of_ne hv _ _]
  exact ⟨h.coros, h.locals, h.coro, fun hu => (hiff _).2 (h.sched hu),
    fun hu => h.unsched ((hiff _).1 hu)⟩

theorem modCoro {s₁ : State Q ι δ} (h : Grows s s₁) (x : Cid) (f : Coroutine → Coroutine) :
    Grows s (s₁.modCoro x f) := by
  refine ⟨h.coros, h.locals, fun {d} hd => h.coro ?_, h.sched, h.unsched⟩
  simp only [State.modCoro] at hd
  by_cases hx : d = x
  · subst hx
    rw [Function.update_self] at hd
    simpa using hd
  · rwa [Function.update_of_ne hx] at hd

theorem setPreempt {s₁ : State Q ι δ} (h : Grows s s₁) (b : Bool) :
    Grows s (s₁.setPreempt preemption t b) := by
  unfold State.setPreempt
  split
  · exact h.modSched _
  · exact h

theorem makeCoro (ops : ListOps Q ι δ) (start : Start) : Grows s (schedMakeCoro ops s start) := by
  refine ⟨Nat.le_succ _, le_rfl, fun {d} hd => ?_, id, .inl⟩
  by_cases hx : d = s.coros
  · exact .inr (hx ▸ Nat.lt_succ_self _)
  · exact .inl (by simpa [schedMakeCoro, hx] using hd)

theorem newLocal (ops : ListOps Q ι δ) (state errno : Int) (pc : Tid → Pc ι δ) :
    Grows s (schedNewLocal ops s state errno pc) := by
  refine ⟨Nat.le_succ _, Nat.le_succ _, fun {d} hd => ?_, fun {u} hu => ?_, fun {u} hu => ?_⟩
  · by_cases hx : d = s.coros
    · exact .inr (hx ▸ Nat.lt_succ_self _)
    · exact .inl (by simpa [schedNewLocal, hx] using hd)
  · by_cases hv : u = s.locals
    · simp [schedNewLocal, hv]
    · simpa [schedNewLocal, hv] using hu
  · by_cases hv : u = s.locals
    · exact .inr (hv ▸ Nat.lt_succ_self _)
    · exact .inl (by simpa [schedNewLocal, hv] using hu)

end Grows

theorem Yield.grows {s₁ : State Q ι δ} {r : ReschedPc ι δ} {r' : Option (ReschedPc ι δ)}
    (h : Yield ops preemption s t l r s₁ r') : Grows s s₁ := by
  have hs := Grows.refl s
  cases h with
  | switch => exact ((hs.setPreempt true).modCoro _ _).modSched _
  | resumed => exact hs.setPreempt false
  | _ => exact hs.same rfl rfl rfl rfl

theorem Stride.grows (h : Stride ops preemption s t l c i pc s') : Grows s s' := by
  have hs := Grows.refl s
  cases h with
  | resched hy => exact hy.grows.same rfl rfl rfl rfl
  | trampoline => exact (hs.setPreempt false).same rfl rfl rfl rfl
  | setErrno => exact hs.modSched _
  | newCoroutine => exact (Grows.makeCoro ops .user).same rfl rfl rfl rfl
  | wait => exact (hs.modCoro _ _).same rfl rfl rfl rfl
  | eventWait => exact (hs.modCoro _ _).same rfl rfl rfl rfl
  | ret => exact (hs.setPreempt true).modSched _
  | suspendBlock => exact (hs.setPreempt true).same rfl rfl rfl rfl
  | suspendTake => exact ((hs.modCoro _ _).modSched _).same rfl rfl rfl rfl
  | park => exact ((hs.modCoro _ _).modSched _).same rfl rfl rfl rfl
  | abort => exact (hs.modSched _).same rfl rfl rfl rfl
  | suspendUnblock => exact (hs.setPreempt false).same rfl rfl rfl rfl
  | rouse => exact (hs.modCoro _ _).same rfl rfl rfl rfl
  | wake => exact (hs.modCoro _ _).same rfl rfl rfl rfl
  | newLocal => exact ((Grows.newLocal ops _ _ .loopTop).modCoro _ _).same rfl rfl rfl rfl
  | newStart => exact (hs.modSched _).same rfl rfl rfl rfl
  | _ => exact hs.same rfl rfl rfl rfl

theorem Death.grows {e : Exec δ} (h : Death ops s t l e s') : Grows s s' := by
  have hs := Grows.refl s
  cases h with
  | free =>
    have hfree : Grows s { s with coro := Function.update s.coro l.currentCoro none } := by
      refine ⟨le_rfl, le_rfl, fun {d} hd => .inl fun hn => hd ?_, id, .inl⟩
      by_cases hx : d = l.currentCoro
      · rw [hx]; exact Function.update_self _ _ _
      · exact (Function.update_of_ne hx _ _).trans hn
    exact hfree.modSched _
  | pop => exact (hs.modSched _).same rfl rfl rfl rfl
  | popped => exact (hs.modSched _).same rfl rfl rfl rfl
  | restore => exact hs.modSched _

theorem Moves.grows (h : Moves ops preemption s t l a s') : Grows s s' := by
  cases h with
  | stride _ _ _ hst => exact hst.grows
  | handler _ _ _ hy => exact hy.grows.same rfl rfl rfl rfl
  | death hdt => exact hdt.grows
  | signal => exact (Grows.refl s).same rfl rfl rfl rfl

/-- An action changes the schedulers of its thread, of a new one and of the one it starts only. -/
theorem Moves.sched_ne (h : Moves ops preemption s t l a s') (hu : u ≠ t) :
    s'.sched u = s.sched u ∨ ∃ c, l.exec = .on c ∧ SchedNe s s' u (s.context c).pc c := by
  cases h with
  | stride he _ _ hst => exact .inr ⟨_, he, hst.sched_ne hu⟩
  | handler _ _ _ hy => exact .inl (hy.sched_ne hu)
  | death hdt => exact .inl (hdt.sched_ne hu)
  | signal => exact .inl rfl

/-- Another thread executes after an action what it has executed before. -/
theorem Moves.exec_ne (h : Moves ops preemption s t l a s') (hu : u ≠ t) (hnew : u ≠ s.locals)
    {lu : LocalSched δ} (hlu : s.sched u = some lu) :
    ∃ lu', s'.sched u = some lu' ∧ lu'.exec = lu.exec ∧ lu'.currentCoro = lu.currentCoro := by
  rcases h.sched_ne hu with h | ⟨c, -, h | ⟨-, h⟩ | ⟨h, -⟩⟩
  · exact ⟨lu, h.trans hlu, rfl, rfl⟩
  · exact ⟨lu, h.trans hlu, rfl, rfl⟩
  · rw [hlu] at h
    exact ⟨_, h, rfl, rfl⟩
  · exact absurd h hnew

/-! ## Actions of the code of no coroutine -/

/-- What an action of thread `t` leaves alone that is not one of the code of a coroutine: an action of
a handler or of `free_coro`, or a signal. -/
structure Apart (s s' : State Q ι δ) (l : LocalSched δ) (a : Act) : Prop where
  running : ∀ t i, a = .tick t i → s.running t = none
  pc : ∀ d, (s'.context d).pc = (s.context d).pc
  lock : s'.lock = s.lock
  timerHeap : s'.timerHeap = s.timerHeap
  poller : s'.poller = s.poller
  eventWait : s'.eventWait = s.eventWait
  word : ∀ d, s'.word d = s.word d ∨ l.exec = .free ∧ d = l.currentCoro

theorem State.setSig_pc (sig : List (ReschedPc ι δ)) (d : Cid) :
    ((s.setSig c sig).context d).pc = (s.context d).pc := by
  by_cases hd : d = c
  · rw [hd, State.setSig_self]
  · exact congrArg Context.pc (Function.update_of_ne hd _ _)

theorem Yield.rest {s₁ : State Q ι δ} {r : ReschedPc ι δ} {r' : Option (ReschedPc ι δ)}
    (h : Yield ops preemption s t l r s₁ r') :
    s₁.word = s.word ∧ s₁.lock = s.lock ∧ s₁.poller = s.poller ∧ s₁.eventWait = s.eventWait := by
  have hset : ∀ b : Bool, s.setPreempt preemption t b =
      { s with sched := (s.setPreempt preemption t b).sched } := by
    intro b
    unfold State.setPreempt
    split <;> rfl
  cases h with
  | switch => rw [hset]; exact ⟨State.word_modErrno _ _ _, rfl, rfl, rfl⟩
  | resumed => rw [hset]; exact ⟨rfl, rfl, rfl, rfl⟩
  | _ => exact ⟨rfl, rfl, rfl, rfl⟩

theorem Death.rest {e : Exec δ} (h : Death ops s t l e s') :
    s'.lock = s.lock ∧ s'.poller = s.poller ∧ s'.eventWait = s.eventWait := by
  cases h <;> exact ⟨rfl, rfl, rfl⟩

theorem Death.word {e : Exec δ} (h : Death ops s t l e s') (d : Cid) :
    s'.word d = s.word d ∨ e = .free ∧ d = l.currentCoro := by
  cases h with
  | free =>
    by_cases hd : d = l.currentCoro
    · exact .inr ⟨rfl, hd⟩
    · refine .inl ?_
      simp only [State.word, State.modSched, Function.update_of_ne hd]
  | _ => exact .inl rfl

/-- **An action is a step of the code of a coroutine, or apart from it.** -/
theorem Moves.stride_or_apart (hl : s.sched t = some l) (h : Moves ops preemption s t l a s') :
    (∃ c k i, a = .tick t i ∧ l.exec = .on c ∧ s.coro c = some k ∧ (s.context c).sig = [] ∧
      Stride ops preemption s t l c i (s.context c).pc s') ∨ Apart s s' l a := by
  cases h with
  | stride he hk hsig hst => exact .inl ⟨_, _, _, rfl, he, hk, hsig, hst⟩
  | @handler c k r rs s₁ r' he hk hsig hy =>
    obtain ⟨hword, hlock, hpoller, hrecord⟩ := hy.rest
    refine .inr ⟨?_, fun d => ?_, hlock, hy.timerHeap, hpoller, hrecord,
      fun d => .inl (congrFun hword d)⟩
    · rintro t' i' ⟨⟩
      simp only [State.running, hl, he, hsig, List.isEmpty_cons, Bool.false_eq_true, if_false]
    · rw [State.setSig_pc, hy.context_eq]
  | death hdt =>
    obtain ⟨hlock, hpoller, hrecord⟩ := hdt.rest
    refine .inr ⟨?_, fun d => by rw [hdt.context_eq], hlock, hdt.timerHeap, hpoller, hrecord,
      hdt.word⟩
    rintro t' i' ⟨⟩
    exact hdt.running hl
  | signal =>
    exact .inr ⟨nofun, fun d => State.setSig_pc _ d, rfl, rfl, rfl, rfl, fun _ => .inl rfl⟩

end

/-! ## Run lists -/

section

variable {preemption : Bool} {s s' : SeqState} {t u : Tid} {l : LocalSched Unit} {c d : Cid}
  {i : Input} {a : Act} {pc : Pc Unit Unit}

theorem push_list_ne {q q' : Seq} {x : Cid} {p : Unit} {o : Option Unit}
    (h : seqOps.push q t x p = (q', o)) (hu : u ≠ t) : q'.list u = q.list u := by
  cases h
  exact Function.update_of_ne hu _ _

theorem pop_list_ne {q q' : Seq} {x : Cid} {p : Unit}
    (h : seqOps.pop q t p = (q', .inr (some x))) (hu : u ≠ t) : q'.list u = q.list u := by
  obtain ⟨xs, -, rfl⟩ := seqOps_pop h
  exact Function.update_of_ne hu _ _

@[simp] theorem State.setPreempt_queues (b : Bool) :
    (s.setPreempt preemption t b).queues = s.queues := by
  unfold State.setPreempt; split <;> rfl

theorem Yield.list_ne {s₁ : SeqState} {r : ReschedPc Unit Unit} {r' : Option (ReschedPc Unit Unit)}
    (h : Yield seqOps preemption s t l r s₁ r') (hu : u ≠ t) :
    s₁.queues.list u = s.queues.list u := by
  cases h with
  | push hq => exact push_list_ne hq hu
  | pushed hq => exact push_list_ne hq hu
  | pop hq => exact absurd hq seqOps_pop_ne
  | popped hq => exact pop_list_ne hq hu
  | switch => exact congrArg (Seq.list · u) (State.setPreempt_queues (s := s) true)
  | resumed => rw [State.setPreempt_queues]
  | _ => rfl

/-- A step of a coroutine's code changes the run list of its own thread, of a new one and of the one
it is to start only. -/
theorem Stride.list_ne (h : Stride seqOps preemption s t l c i pc s') (hu : u ≠ t)
    (hnew : u ≠ s.locals) : s'.queues.list u = s.queues.list u ∨
      ∃ x, pc.starts = some u ∧ s'.queues.list u = s.queues.list u ++ [x] := by
  cases h with
  | resched hy => exact .inl (hy.list_ne hu)
  | trampoline => exact .inl (congrArg (Seq.list · u) (State.setPreempt_queues (s := s) false))
  | ret => exact .inl (congrArg (Seq.list · u) (State.setPreempt_queues (s := s) true))
  | suspendBlock => exact .inl (congrArg (Seq.list · u) (State.setPreempt_queues (s := s) true))
  | suspendUnblock => exact .inl (congrArg (Seq.list · u) (State.setPreempt_queues (s := s) false))
  | suspendPop hq => exact absurd hq seqOps_pop_ne
  | suspendTake hq => exact .inl (pop_list_ne hq hu)
  | suspendPush hq => exact .inl (push_list_ne hq hu)
  | suspendPushed hq => exact .inl (push_list_ne hq hu)
  | schedulePush hq => exact .inl (push_list_ne hq hu)
  | schedulePushed hq => exact .inl (push_list_ne hq hu)
  | newLocal => exact .inl (Function.update_of_ne hnew _ _)
  | newPush hq => rw [seqOps_push] at hq; cases hq
  | @newPushed x v p q hq =>
    rw [seqOps_push] at hq
    cases hq
    by_cases huv : u = v
    · subst huv; exact .inr ⟨x, rfl, Function.update_self _ _ _⟩
    · exact .inl (Function.update_of_ne huv _ _)
  | _ => exact .inl rfl

theorem Death.list_ne {e : Exec Unit} (h : Death seqOps s t l e s') (hu : u ≠ t) :
    s'.queues.list u = s.queues.list u := by
  cases h with
  | pop hq => exact absurd hq seqOps_pop_ne
  | popped hq => exact pop_list_ne hq hu
  | _ => rfl

theorem Moves.list_ne (h : Moves seqOps preemption s t l a s') (hu : u ≠ t) (hnew : u ≠ s.locals) :
    s'.queues.list u = s.queues.list u ∨
      (∃ c, l.exec = .on c ∧ (s.context c).pc.starts = some u) ∧
        ∃ x, s'.queues.list u = s.queues.list u ++ [x] := by
  cases h with
  | stride he _ _ hst =>
    exact (hst.list_ne hu hnew).imp_right fun ⟨x, hp, hx⟩ => ⟨⟨_, he, hp⟩, x, hx⟩
  | handler _ _ _ hy => exact .inl (hy.list_ne hu)
  | death hdt => exact .inl (hdt.list_ne hu)
  | signal => exact .inl rfl

/-! ## Other threads -/

section

variable {lu : LocalSched Unit} (hI : Inv preemption s) (hl : s.sched t = some l)
  (h : Moves seqOps preemption s t l a s')

include hI

theorem Inv.ne_locals (hlu : s.sched u = some lu) : u ≠ s.locals := by
  rintro rfl
  rw [(hI.control.vacant le_rfl).1] at hlu
  cases hlu

include hl h

/-- A coroutine that another thread executes stays where it is. -/
theorem Inv.frame_context (hu : u ≠ t) (hlu : s.sched u = some lu) (he : lu.exec = .on d) :
    s'.context d = s.context d := by
  refine (h.context_ne fun hel => ?_).eq (hI.exec_ne_coros hlu he)
  exact hu (hI.exec_inj hlu (.inl he) hl (.inl hel))

omit hl in
/-- **A started thread does not notice the steps of other threads.** -/
theorem Inv.frame (hu : u ≠ t) (hlu : s.sched u = some lu) (hst : lu.started = true) :
    s'.sched u = some lu ∧ s'.queues.list u = s.queues.list u := by
  have hno : ∀ {c}, (s.context c).pc.starts ≠ some u := by
    intro c hc
    obtain ⟨lu', -, hlu', hns, -⟩ := hI.control.starts hc
    cases Option.some.inj (hlu.symm.trans hlu')
    rw [hst] at hns
    cases hns
  constructor
  · rcases h.sched_ne hu with h | ⟨c, -, h | ⟨hpc, -⟩ | ⟨h, -⟩⟩
    · rw [h, hlu]
    · rw [h, hlu]
    · exact absurd (by rw [hpc]; rfl) (hno (c := c))
    · exact absurd h (hI.ne_locals hlu)
  · rcases h.list_ne hu (hI.ne_locals hlu) with h | ⟨⟨c, -, hpc⟩, -⟩
    · exact h
    · exact absurd hpc hno

/-- A coroutine that a thread has just switched to goes on at a return from a switch. -/
theorem Inv.switched {l' : LocalSched Unit} {x : Cid} (hl' : s'.sched t = some l')
    (he' : l'.exec = .on x) (hne : l.exec ≠ .on x) : (s'.context x).Resumes := by
  have hdone : x ∈ own s (.thread t) → (∀ d, l.exec ≠ .free ∨ ¬l.Runs d) →
      (s'.context x).Resumes := by
    intro hx hnr
    have hlive := hI.kept.live ⟨_, hx⟩
    rw [(h.context_ne hne).eq fun hx => lt_irrefl _ (hI.kept.known (.inr (hx ▸ hlive)))]
    refine hI.resumes hl hx ?_
    rintro (hr | hr)
    · exact hne hr
    · rcases hnr x with hf | hf
      · exact hf hr.1
      · exact hf (.inr hr)
  have htok : x ∈ (s.seat t).tokens → x ∈ own s (.thread t) := fun h => Multiset.mem_add.2 (.inl h)
  have hnl := hI.ne_locals hl
  cases h with
  | @stride c k i _ he hk hsig hst =>
    have hctx : s.context c = ⟨(s.context c).pc, []⟩ := by rw [← hsig]
    refine hdone (htok ?_) fun _ => .inl (by rw [he]; simp)
    rw [seat_of_exec hl he, hctx]
    rcases hst.exec hl hnl hl' with h | ⟨h, -⟩ | ⟨y, hy, ⟨ret, hpc⟩ | ⟨d, ret, hpc⟩⟩
    · exact absurd (h ▸ he') hne
    · rw [he'] at h; cases h
    · rw [he'] at hy
      cases hy
      rw [hpc]
      exact ReschedPc.mem_tokens_switch (ι := Unit) (δ := Unit) c x
    · rw [he'] at hy
      cases hy
      rw [hpc]
      simp [Context.seat]
  | @handler c k r rs s₁ r' he hk hsig hy =>
    refine hdone (htok ?_) fun _ => .inl (by rw [he]; simp)
    rw [seat_of_exec hl he]
    unfold Context.seat
    simp only [hsig]
    rcases hy.exec hl hl' with h | ⟨y, rfl, hx⟩
    · exact absurd (h ▸ he') hne
    · rw [he'] at hx
      cases hx
      exact ReschedPc.mem_tokens_switch (ι := Unit) (δ := Unit) c x
  | death hdt =>
    generalize hel : l.exec = e at hdt
    cases hdt with
    | free => rw [modSched_some (s := { s with coro := _ }) hl hl'] at he'; cases he'
    | pop hq => exact absurd hq seqOps_pop_ne
    | popped => rw [modSched_some hl hl'] at he'; cases he'
    | @restore y =>
      rw [modSched_some hl hl'] at he'
      cases he'
      refine hdone (htok ?_) fun _ => .inl (by rw [hel]; simp)
      simp [State.seat, hl, hel]
  | signal hp hlock he =>
    cases Option.some.inj (hl.symm.trans hl')
    exact absurd he' hne

omit hI in
/-- A started thread stays so. -/
theorem Moves.started (hnew : t ≠ s.locals) (hrun : l.started = true) {l' : LocalSched Unit}
    (hl' : s'.sched t = some l') : l'.started = true := by
  cases h with
  | stride _ _ _ hst => exact hst.started hl hnew hrun hl'
  | handler _ _ _ hy => exact (hy.started hl hl').trans hrun
  | death hdt => exact (hdt.started hl hl').trans hrun
  | signal => rwa [← Option.some.inj (hl.symm.trans hl')]

end

/-! ## The steps of `sched_suspend` -/

/-- The points of `sched_suspend` after `sched_block_preempt`. -/
@[simp] def Pc.InSuspend : Pc Unit Unit → Prop
  | .suspendDequeue _ _ _ => True
  | .suspendCmpxchg _ _ _ => True
  | .suspendEnqueue _ _ _ => True
  | .suspendUnblock _ => True
  | _ => False

/-- A step of `c` on thread `t` that begins `sched_suspend` or stays inside it. -/
inductive SuspendStep (preemption : Bool) (s : SeqState) (t : Tid) (l : LocalSched Unit) (c : Cid) :
    Pc Unit Unit → SeqState → Prop
  | block {ret} (hp : preemption = true → l.preemptLock = false) :
      SuspendStep preemption s t l c (.suspendBlock ret)
        ((s.setPreempt preemption t true).goto c (.suspendDequeue l.currentCoro () ret))
  | take {current p ret q x k} (hq : seqOps.pop s.queues t p = (q, .inr (some x))) :
      SuspendStep preemption s t l c (.suspendDequeue current p ret)
        ((({ s with queues := q }.modCoro current ({ · with privateErrno := l.errno })).modSched t
          ({ · with currentCoro := x, errno := Coroutine.privateErrno k })).goto c
          (.suspendCmpxchg current x ret))
  | park {current x ret k} (hk : s.coro current = some k) (hb : k.state = STATE_BLOCKING) :
      SuspendStep preemption s t l c (.suspendCmpxchg current x ret)
        (((s.modCoro current ({ · with state := STATE_BLOCKED })).goto c
          (.suspendUnblock ret)).modSched t ({ · with exec := .on x }))
  | abort {current x ret k} (hk : s.coro current = some k) (hb : k.state ≠ STATE_BLOCKING) :
      SuspendStep preemption s t l c (.suspendCmpxchg current x ret)
        ((s.modSched t ({ · with currentCoro := current, errno := k.privateErrno })).goto c
          (.suspendEnqueue x .assert ret))
  | assert {x ret} :
      SuspendStep preemption s t l c (.suspendEnqueue x .assert ret)
        (s.goto c (.suspendEnqueue x (.push ()) ret))
  | pushed {x p ret q} (hq : seqOps.push s.queues t x p = (q, none)) :
      SuspendStep preemption s t l c (.suspendEnqueue x (.push p) ret)
        ({ s with queues := q }.goto c (.suspendUnblock ret))

theorem Stride.suspends {s s' : SeqState} {l : LocalSched Unit} {pc : Pc Unit Unit}
    (hst : Stride seqOps preemption s t l c i pc s') (hpc : (s.context c).pc = pc)
    (hin : (s'.context c).pc.InSuspend) : SuspendStep preemption s t l c pc s' := by
  cases hst with
  | suspendBlock hp => exact .block hp
  | suspendPop hq => exact absurd hq seqOps_pop_ne
  | suspendTake hq hk => exact .take hq
  | park hk hb => exact .park hk hb
  | abort hk hb => exact .abort hk hb
  | suspendPush hq => rw [seqOps_push] at hq; cases hq
  | suspendPushed hq => exact .pushed hq
  | flow hf =>
    rw [State.goto_pc] at hin
    cases hf with
    | suspendAssert => exact .assert
    | timersNone =>
      unfold afterTimers at hin
      split at hin <;> cases hin
    | _ => cases hin
  | @resched r ret s₁ r' =>
    rw [State.goto_pc] at hin
    cases r' with
    | none => cases ret <;> cases hin
    | some => cases hin
  | @trampoline _ start => rw [State.goto_pc] at hin; cases start <;> cases hin
  | setErrno => rw [State.modSched_context, hpc] at hin; cases hin
  | ret => rw [State.modSched_context, State.setPreempt_context, hpc] at hin; cases hin
  | eintr => rw [hpc] at hin; cases hin
  | @suspendUnblock ret => rw [State.goto_pc] at hin; cases ret <;> cases hin
  | @rouse _ ret => rw [State.goto_pc] at hin; cases ret <;> cases hin
  | @schedulePushed _ _ ret => rw [State.goto_pc] at hin; cases ret <;> cases hin
  | fetchAdd => rw [State.goto_pc] at hin; split at hin <;> cases hin
  | timersMin => rw [State.goto_pc] at hin; split at hin <;> cases hin
  | timersUnlock =>
    rw [State.goto_pc] at hin
    unfold afterTimers at hin
    split at hin
    · cases hin
    · split at hin <;> cases hin
  | _ => rw [State.goto_pc] at hin; cases hin

/-! ## A property of every thread -/

/-- Threads that are not started are at the top of their event loop. -/
def Unstarted (s : SeqState) : Prop :=
  ∀ {u l}, s.sched u = some l → l.started = false →
    ∃ d, l.exec = .on d ∧ s.context d = ⟨.loopTop u, []⟩

section

variable (hI : Inv preemption s) (hl : s.sched t = some l) (hrun : l.started = true)
  (h : Moves seqOps preemption s t l a s')

include hI hl h

/-- A thread other than the one that has moved was there before, as it is but for its start, or it is
new. -/
theorem Inv.sched_cases {lu : LocalSched Unit} (hu : u ≠ t) (hlu : s'.sched u = some lu) :
    (∃ l₀, s.sched u = some l₀ ∧ lu.exec = l₀.exec ∧ (lu = l₀ ∨ l₀.started = false)) ∨
      lu.started = false ∧ lu.exec = .on s.coros ∧ s'.context s.coros = ⟨.loopTop u, []⟩ := by
  rcases h.sched_ne hu with h | ⟨c, he, h | ⟨hpc, h⟩ | ⟨rfl, h, hctx⟩⟩
  · exact .inl ⟨lu, h ▸ hlu, rfl, .inl rfl⟩
  · exact .inl ⟨lu, h ▸ hlu, rfl, .inl rfl⟩
  · obtain ⟨l₀, d, hl₀, hns, -⟩ := hI.control.starts (c := c) (u := u) (by rw [hpc]; rfl)
    rw [h, hl₀] at hlu
    cases hlu
    exact .inl ⟨l₀, hl₀, rfl, .inr hns⟩
  · rw [h] at hlu
    cases hlu
    exact .inr ⟨rfl, rfl, hctx (hI.exec_ne_coros hl he).symm⟩

include hrun in
theorem Unstarted.moves (hU : Unstarted s) : Unstarted s' := by
  intro u lu hlu hst
  by_cases hu : u = t
  · subst hu
    rw [h.started hl (hI.ne_locals hl) hrun hlu] at hst
    cases hst
  · rcases hI.sched_cases hl h hu hlu with ⟨l₀, hl₀, he, hor⟩ | ⟨-, he, hctx⟩
    · have hns : l₀.started = false := by
        rcases hor with rfl | hns
        · exact hst
        · exact hns
      obtain ⟨d, hed, hctx⟩ := hU hl₀ hns
      exact ⟨d, he.trans hed, (hI.frame_context hl h hu hl₀ hed).trans hctx⟩
    · exact ⟨_, he, hctx⟩

/-- A property of a started thread, given by its coroutine, the context of that and its run list,
holds after a step: it is enough to look at the steps of the thread itself after which it executes
the same coroutine, at the return from a switch, and at the top of the event loop. -/
theorem Inv.per_thread {P : Tid → Cid → Context Unit Unit → List Cid → Prop} (hU : Unstarted s)
    (hP : ∀ {u lu d}, s.sched u = some lu → lu.started = true → lu.exec = .on d →
      P u d (s.context d) (s.queues.list u))
    (htop : ∀ {d q}, ∀ u, P u d ⟨.loopTop u, []⟩ q)
    (hres : ∀ {u d q}, (s'.context d).Resumes → P u d (s'.context d) q)
    (hself : ∀ {c}, l.exec = .on c → P t c (s.context c) (s.queues.list t) →
      P t c (s'.context c) (s'.queues.list t))
    (hrun : l.started = true) {u : Tid} {lu : LocalSched Unit} {d : Cid} (hlu : s'.sched u = some lu)
    (hst : lu.started = true) (hed : lu.exec = .on d) : P u d (s'.context d) (s'.queues.list u) := by
  by_cases hu : u = t
  · subst hu
    by_cases he : l.exec = .on d
    · exact hself he (hP hl hrun he)
    · exact hres (hI.switched hl h hlu hed he)
  · rcases hI.sched_cases hl h hu hlu with ⟨l₀, hl₀, he, rfl | hns⟩ | ⟨hns, -⟩
    · rw [hI.frame_context hl h hu hl₀ hed, (hI.frame h hu hl₀ hst).2]
      exact hP hl₀ hst hed
    · obtain ⟨d', hed', hctx⟩ := hU hl₀ hns
      rw [he.symm.trans hed] at hed'
      cases hed'
      rw [hI.frame_context hl h hu hl₀ (he.symm.trans hed), hctx]
      exact htop u
    · rw [hst] at hns
      cases hns

end

section

variable {ok : SeqState → Act → Prop} (hok : ∀ {s a}, ok s a → Proper s a ∧ Safe s a)
  {localSize : Nat} {garbage : Nat → TimerWait} {state errno threadErrno : Int}
  (h : Reach seqOps preemption ok (seqInit localSize garbage state errno threadErrno) s)
  (hf : s.failure = none)

include hok h hf

theorem Reach.unstarted : Inv preemption s ∧ Unstarted s := by
  refine h.invariant (P := fun s => s.failure = none → Inv preemption s ∧ Unstarted s) ?_ ?_ hf
  · refine fun _ => ⟨Inv.init .., fun {u l} hl hst => ?_⟩
    rw [seqInit_sched] at hl
    split at hl
    · cases hl; cases hst
    · cases hl
  · intro s s' a hIU hoka hs hf
    obtain ⟨hf₀, t, l, hl, hrun, hm⟩ := step_moves seqOps hs hf
    obtain ⟨hI, hU⟩ := hIU hf₀
    exact ⟨hI.step (hok hoka).1 (hok hoka).2 hs hf, hU.moves hI hl hrun hm⟩

/-- **A property of every started thread in every reachable state**, by the steps of one thread. -/
theorem Reach.per_thread {P : Tid → Cid → Context Unit Unit → List Cid → Prop}
    (hinit : P 0 0 ⟨.user, []⟩ [1]) (htop : ∀ {d q}, ∀ u, P u d ⟨.loopTop u, []⟩ q)
    (hres : ∀ {u d x q}, x.Resumes → P u d x q)
    (hself : ∀ {s s' t l a c}, Inv preemption s → ok s a → s.sched t = some l →
      l.started = true → Moves seqOps preemption s t l a s' → l.exec = .on c →
      P t c (s.context c) (s.queues.list t) → P t c (s'.context c) (s'.queues.list t))
    {u : Tid} {lu : LocalSched Unit} {d : Cid} (hlu : s.sched u = some lu) (hst : lu.started = true)
    (hed : lu.exec = .on d) : P u d (s.context d) (s.queues.list u) := by
  have hall : ∀ {u lu d}, s.sched u = some lu → lu.started = true → lu.exec = .on d →
      P u d (s.context d) (s.queues.list u) := by
    clear hlu hst hed
    induction h with
    | init =>
      intro u lu d hlu hst hed
      rw [seqInit_sched] at hlu
      split at hlu
      · next hu =>
        cases hlu
        cases hed
        rw [seqInit_context, seqInit_list, hu]
        exact hinit
      · cases hlu
    | @next s s' a h hoka hs ih =>
      obtain ⟨hf₀, t, l, hl, hrun, hm⟩ := step_moves seqOps hs hf
      obtain ⟨hI, hU⟩ := h.unstarted hok hf₀
      intro u lu d hlu hst hed
      exact hI.per_thread hl hm hU (ih hf₀) htop hres (fun he => hself hI hoka hl hrun hm he) hrun hlu
        hst hed
  exact hall hlu hst hed

end

end

end Lwthread.Scheduler
