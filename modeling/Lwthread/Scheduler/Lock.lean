import Lwthread.Scheduler.Frame

/-!
# `gsched->lock` and preemption

`sched_wait` and `sched_handle_timers` take `gsched->lock` without blocking preemption. A signal that
comes while a coroutine holds it runs `sched_resched` on that coroutine's stack, and this switches to
another coroutine whenever the run list is not empty. The coroutine then waits on the run list with
the lock held, and the next coroutine of the thread that takes the lock waits for ever.

As long as every such handler finds the run list empty, the holder of the lock executes on a thread
(`lock_holder_executes`). The proof follows the lock and the points between `glock` and `gunlock`; it
says nothing of who keeps which coroutine and holds of any implementation of the run lists.
-/

namespace Lwthread.Scheduler

open Lwthread.Util Lwthread.Platform

variable {Q ι δ : Type} {ops : ListOps Q ι δ} {preemption : Bool} {s s' : State Q ι δ} {t : Tid}
  {l : LocalSched δ} {c d : Cid} {i : Input} {a : Act}

/-! ## The lock and the control points -/

@[simp] def ScheduleRet.Locked : ScheduleRet → Prop
  | .handleTimers _ _ => True
  | _ => False

/-- The points between `glock` and `gunlock`. -/
@[simp] def Pc.Locked : Pc ι δ → Prop
  | .waitPush _ => True
  | .waitUnlock => True
  | .timersMin _ _ => True
  | .timersExpire _ _ _ => True
  | .timersPop _ _ _ => True
  | .timersUnlock _ _ _ => True
  | .scheduleXchg _ ret => ret.Locked
  | .scheduleEnqueue _ _ ret => ret.Locked
  | _ => False

/-- The calls of `glock`. -/
@[simp] def Pc.Locks : Pc ι δ → Prop
  | .waitLock _ => True
  | .timersLock _ _ => True
  | _ => False

/-- The holder of the lock executes on a thread, and a thread that calls `glock` while it is held does
not wait for one of its own coroutines: another thread executes the holder. -/
structure LockRuns (s : State Q ι δ) : Prop where
  executes : ∀ {c}, s.lock = some c → ∃ t l, s.sched t = some l ∧ l.exec = .on c
  elsewhere : ∀ {t l c d}, s.sched t = some l → l.exec = .on c → (s.context c).pc.Locks →
    s.lock = some d → ∃ u lu, u ≠ t ∧ s.sched u = some lu ∧ lu.exec = .on d

/-- A handler on the stack of the holder of the lock is about to find the run list not empty. -/
def PreemptsHolder (ops : ListOps Q ι δ) (s : State Q ι δ) (a : Act) : Prop :=
  ∃ t i l c rs, a = .tick t i ∧ s.sched t = some l ∧ l.exec = .on c ∧
    (s.context c).sig = .check :: rs ∧ s.lock = some c ∧ ops.listEmpty s.queues t = false

/-! ## The invariant -/

/-- Nothing is there before it is allocated. -/
structure Allocated (s : State Q ι δ) : Prop where
  blank : ∀ {c}, s.coros ≤ c → (s.context c).pc = .user
  live : ∀ {c}, s.coro c ≠ none → c < s.coros
  vacant : ∀ {t}, s.locals ≤ t → s.sched t = none

/-- A coroutine holds the lock exactly between `glock` and `gunlock`. -/
structure Holding (s : State Q ι δ) : Prop extends Allocated s where
  holder : ∀ c, (s.context c).pc.Locked ↔ s.lock = some c

structure Locking (s : State Q ι δ) : Prop extends Holding s where
  runs : ∀ {c}, s.lock = some c → ∃ t l, s.sched t = some l ∧ l.exec = .on c
  checks : ∀ {c}, s.lock = some c → ∀ r ∈ (s.context c).sig, r = .check

theorem Locking.lockRuns (h : Locking s) : LockRuns s := by
  refine ⟨h.runs, fun {t l c d} hl he hpc hd => ?_⟩
  obtain ⟨u, lu, hlu, heu⟩ := h.runs hd
  refine ⟨u, lu, ?_, hlu, heu⟩
  rintro rfl
  cases Option.some.inj (hl.symm.trans hlu)
  cases Exec.on.inj (he.symm.trans heu)
  have hlocked := (h.holder c).2 hd
  generalize (s.context c).pc = pc at hpc hlocked
  cases pc <;> first | exact hpc | exact hlocked

/-- What a step of the code of `c` does to the lock. -/
inductive Grabs (s s' : State Q ι δ) (c : Cid) : Prop
  | keeps (hlock : s'.lock = s.lock) (hpc : (s'.context c).pc.Locked ↔ (s.context c).pc.Locked)
  | takes (hfree : s.lock = none) (hat : (s.context c).pc.Locks) (hlock : s'.lock = some c)
      (hpc : (s'.context c).pc.Locked)
  | gives (hlock : s'.lock = none) (hheld : (s.context c).pc.Locked)
      (hpc : ¬(s'.context c).pc.Locked)

theorem afterTimers_not_locked (sched : Tid) (timeout : Int) :
    ¬(afterTimers sched timeout : Pc ι δ).Locked := by
  unfold afterTimers
  split <;> exact id

theorem Stride.grabs (h : Stride ops preemption s t l c i (s.context c).pc s') : Grabs s s' c := by
  generalize hpc : (s.context c).pc = pc at h
  have hgoto : ∀ {s₀ : State Q ι δ} {pc' : Pc ι δ}, s₀.lock = s.lock → (pc'.Locked ↔ pc.Locked) →
      Grabs s (s₀.goto c pc') c := by
    intro s₀ pc' hlock hiff
    refine .keeps hlock ?_
    rw [State.goto_pc, hpc]
    exact hiff
  have hset : ∀ b, (s.setPreempt preemption t b).lock = s.lock := by
    intro b
    unfold State.setPreempt
    split <;> rfl
  have hsame : s'.context = s.context → s'.lock = s.lock → Grabs s s' c := fun hctx hlock =>
    .keeps hlock (by rw [hctx])
  cases h with
  | @resched r ret s₁ r' hy =>
    have hlock : s₁.lock = s.lock := by
      cases hy with
      | switch => exact hset true
      | resumed => exact hset false
      | _ => rfl
    cases r' with
    | none => cases ret <;> exact hgoto hlock Iff.rfl
    | some r' => exact hgoto hlock Iff.rfl
  | flow hf =>
    cases hf with
    | timersNone => exact hgoto rfl (iff_of_false (afterTimers_not_locked _ _) id)
    | _ => exact hgoto rfl Iff.rfl
  | @trampoline k start => cases start <;> exact hgoto (hset false) Iff.rfl
  | setErrno => exact hsame rfl rfl
  | ret => exact hsame (State.setPreempt_context true) (hset true)
  | eintr => exact hsame rfl rfl
  | waitLock hfree => exact .takes hfree (by rw [hpc]; trivial) rfl (by rw [State.goto_pc]; trivial)
  | timersLock hfree => exact .takes hfree (by rw [hpc]; trivial) rfl (by rw [State.goto_pc]; trivial)
  | waitUnlock => exact .gives rfl (by rw [hpc]; trivial) (by rw [State.goto_pc]; exact id)
  | @timersUnlock u v again =>
    refine .gives rfl (by rw [hpc]; trivial) ?_
    rw [State.goto_pc]
    cases again
    · exact afterTimers_not_locked u v
    · exact id
  | suspendBlock => exact hgoto (hset true) Iff.rfl
  | @suspendUnblock ret => cases ret <;> exact hgoto (hset false) Iff.rfl
  | park => exact .keeps rfl (by rw [hpc]; simp [State.modSched, State.goto])
  | @rouse x ret => cases ret <;> exact hgoto rfl Iff.rfl
  | @schedulePushed x p ret => cases ret <;> exact hgoto rfl Iff.rfl
  | fetchAdd => refine hgoto rfl ?_; split <;> exact Iff.rfl
  | timersMin => refine hgoto rfl ?_; split <;> exact Iff.rfl
  | _ => exact hgoto rfl Iff.rfl

/-- A thread does not leave a coroutine that takes or holds the lock. -/
theorem Stride.executes {l' : LocalSched δ} (hl : s.sched t = some l) (he : l.exec = .on c)
    (h : Stride ops preemption s t l c i (s.context c).pc s') (hnew : t ≠ s.locals)
    (hpc : (s.context c).pc.Locked ∨ (s.context c).pc.Locks) (hl' : s'.sched t = some l') :
    l'.exec = .on c := by
  rcases h.exec hl hnew hl' with h' | ⟨-, h'⟩ | ⟨x, -, ⟨ret, h'⟩ | ⟨e, ret, h'⟩⟩
  · exact h'.trans he
  all_goals
    rw [h'] at hpc
    exact (hpc.elim id id).elim

/-! ## Steps -/

theorem Moves.lock_eq (h : Moves ops preemption s t l a s') (hne : ∀ c, l.exec = .on c →
    (s.context c).sig ≠ []) : s'.lock = s.lock := by
  have hset : ∀ {s : State Q ι δ} b, (s.setPreempt preemption t b).lock = s.lock := by
    intro s b
    unfold State.setPreempt
    split <;> rfl
  cases h with
  | stride he _ hsig => exact absurd hsig (hne _ he)
  | handler _ _ _ hy =>
    cases hy with
    | switch => exact hset true
    | resumed => exact hset false
    | _ => rfl
  | death hdt =>
    generalize l.exec = e at hdt
    cases hdt <;> rfl
  | signal => rfl

theorem Allocated.moves (hA : Allocated s) (hm : Moves ops preemption s t l a s') :
    Allocated s' := by
  have hg := hm.grows
  refine ⟨fun {c} hc => ?_, fun {c} hc => ?_, fun {u} hu => ?_⟩
  · have hc₀ : s.coros ≤ c := hg.coros.trans hc
    have hdead : s.coro c = none := by
      by_contra h
      exact absurd (hA.live h) (not_lt.2 hc₀)
    by_cases hec : l.exec = .on c
    · cases hm with
      | stride he hk => cases he.symm.trans hec; rw [hdead] at hk; cases hk
      | handler he hk => cases he.symm.trans hec; rw [hdead] at hk; cases hk
      | death hdt => rw [hec] at hdt; cases hdt
      | signal _ _ he =>
        cases he.symm.trans hec
        rw [State.setSig_self]
        exact hA.blank hc₀
    · rcases hm.context_ne hec with h | ⟨rfl, hnew, -⟩
      · rw [h]; exact hA.blank hc₀
      · rw [hnew] at hc
        exact absurd hc (Nat.not_succ_le_self _)
  · exact (hg.coro hc).elim (fun h => (hA.live h).trans_le hg.coros) id
  · by_contra h
    rcases hg.unsched h with h | h
    · exact h (hA.vacant (hg.locals.trans hu))
    · exact absurd h (not_lt.2 hu)

/-- A handler, `free_coro` or a signal leaves every control point as it is. -/
theorem Moves.pc_eq (h : Moves ops preemption s t l a s') (hne : ∀ c, l.exec = .on c →
    (s.context c).sig = [] → a = .signal t) (d : Cid) : (s'.context d).pc = (s.context d).pc := by
  cases h with
  | stride he _ hsig => cases hne _ he hsig
  | @handler c k r rs s₁ r' _ _ _ hy =>
    by_cases hd : d = c
    · subst hd; rw [State.setSig_self, hy.context_eq]
    · rw [State.setSig, hy.context_eq]
      exact congrArg Context.pc (Function.update_of_ne hd _ _)
  | death hdt => rw [hdt.context_eq]
  | @signal c =>
    by_cases hd : d = c
    · subst hd; rw [State.setSig_self]
    · exact congrArg Context.pc (Function.update_of_ne hd _ _)

theorem Holding.stride (hH : Holding s) (hA : Allocated s')
    (hst : Stride ops preemption s t l c i (s.context c).pc s') : Holding s' := by
  -- the points of the other coroutines stay, or are new
  have hother : ∀ {d}, d ≠ c → ((s'.context d).pc.Locked ↔ s.lock = some d) := by
    intro d hd
    rw [← hH.holder d]
    rcases hst.context_ne hd with h | ⟨rfl, -, h | ⟨u, h⟩⟩
    · rw [h]
    · rw [h, hH.blank le_rfl]; rfl
    · rw [h, hH.blank le_rfl]; rfl
  refine ⟨hA, fun d => ?_⟩
  rcases hst.grabs with ⟨hlock, hpc⟩ | ⟨hfree, -, hlock, hpc⟩ | ⟨hlock, hheld, hpc⟩
  · rw [hlock]
    by_cases hd : d = c
    · subst hd; rw [hpc]; exact hH.holder d
    · exact hother hd
  · by_cases hd : d = c
    · subst hd; exact iff_of_true hpc hlock
    · rw [hother hd, hfree, hlock]
      exact iff_of_false nofun fun h => hd (Option.some.inj h).symm
  · by_cases hd : d = c
    · subst hd; exact iff_of_false hpc (by rw [hlock]; nofun)
    · rw [hother hd, (hH.holder c).1 hheld, hlock]
      exact iff_of_false (fun h => hd (Option.some.inj h).symm) nofun

theorem Holding.moves (hH : Holding s) (hm : Moves ops preemption s t l a s') : Holding s' := by
  have hA := hH.toAllocated.moves hm
  have haside : s'.lock = s.lock → (∀ d, (s'.context d).pc = (s.context d).pc) → Holding s' :=
    fun hlock hpc => ⟨hA, fun d => by rw [hlock, hpc]; exact hH.holder d⟩
  cases hm with
  | stride he hk hsig hst => exact hH.stride hA hst
  | @handler c k r rs s₁ r' he hk hsig hy =>
    have hm : Moves ops preemption s t l (.tick t .step) (s₁.setSig c (r'.toList ++ rs)) :=
      .handler he hk hsig hy
    have hne : ∀ d, l.exec = .on d → (s.context d).sig ≠ [] := fun d hd => by
      cases he.symm.trans hd
      rw [hsig]
      nofun
    exact haside (hm.lock_eq hne) (hm.pc_eq fun d hd h => absurd h (hne d hd))
  | death hdt =>
    have hm : Moves ops preemption s t l (.tick t .step) s' := .death hdt
    exact haside (hm.lock_eq fun c hc => absurd hc hdt.not_on)
      (hm.pc_eq fun c hc => absurd hc hdt.not_on)
  | @signal c hp hpl he =>
    have hm : Moves ops preemption s t l (.signal t) (s.setSig c (.check :: (s.context c).sig)) :=
      .signal hp hpl he
    exact haside rfl (hm.pc_eq fun _ _ _ => rfl)

section

variable (hL : Locking s) (hl : s.sched t = some l)

include hL hl

theorem Locking.ne_locals : t ≠ s.locals := by
  rintro rfl
  rw [hL.vacant le_rfl] at hl
  cases hl

/-- A thread that executes the holder of the lock, and that does not move, goes on executing it. -/
theorem Locking.runs_ne (hm : Moves ops preemption s t l a s') (hne : l.exec ≠ .on d)
    (hd : s.lock = some d) : ∃ u lu, s'.sched u = some lu ∧ lu.exec = .on d := by
  obtain ⟨u, lu, hlu, heu⟩ := hL.runs hd
  have hut : u ≠ t := by
    rintro rfl
    cases Option.some.inj (hl.symm.trans hlu)
    exact hne heu
  have hnew : u ≠ s.locals := hL.ne_locals hlu
  obtain ⟨lu', hlu', he', -⟩ := hm.exec_ne hut hnew hlu
  exact ⟨u, lu', hlu', he'.trans heu⟩

/-- A step of the code of a coroutine. -/
theorem Locking.stride {k : Coroutine} (he : l.exec = .on c) (hk : s.coro c = some k)
    (hsig : (s.context c).sig = [])
    (hst : Stride ops preemption s t l c i (s.context c).pc s') : Locking s' := by
  have hm : Moves ops preemption s t l (.tick t i) s' := .stride he hk hsig hst
  have hlt : c < s.coros := hL.live (by rw [hk]; simp)
  have hsig' : (s'.context c).sig = [] := (hst.sig hlt.ne).trans hsig
  have hself : (s.context c).pc.Locked ∨ (s.context c).pc.Locks →
      ∃ u lu, s'.sched u = some lu ∧ lu.exec = .on c := by
    intro hpc
    obtain ⟨l', hl'⟩ := Option.ne_none_iff_exists'.1
      (hst.grows.sched (u := t) (by rw [hl]; simp))
    exact ⟨t, l', hl', hst.executes hl he (hL.ne_locals hl) hpc hl'⟩
  have hne : ∀ {d}, d ≠ c → l.exec ≠ .on d := fun hd h => hd (Exec.on.inj (h.symm.trans he))
  have hchecks : ∀ {d}, d ≠ c → s.lock = some d → ∀ r ∈ (s'.context d).sig, r = .check := by
    intro d hd hlock
    have hnew : d ≠ s.coros := by
      rintro rfl
      have hlocked := (hL.holder _).2 hlock
      rw [hL.blank le_rfl] at hlocked
      exact hlocked
    rw [(hst.context_ne hd).eq hnew]
    exact hL.checks hlock
  refine ⟨hL.toHolding.moves hm, ?_, ?_⟩
  · intro d hd
    rcases hst.grabs with ⟨hlock, -⟩ | ⟨-, hat, hlock, -⟩ | ⟨hlock, -⟩
    · rw [hlock] at hd
      by_cases hdc : d = c
      · subst hdc; exact hself (.inl ((hL.holder d).2 hd))
      · exact hL.runs_ne hl hm (hne hdc) hd
    · rw [hlock] at hd
      cases hd
      exact hself (.inr hat)
    · rw [hlock] at hd; cases hd
  · intro d hd
    rcases hst.grabs with ⟨hlock, -⟩ | ⟨-, -, hlock, -⟩ | ⟨hlock, -⟩
    · rw [hlock] at hd
      by_cases hdc : d = c
      · subst hdc; rw [hsig']; nofun
      · exact hchecks hdc hd
    · rw [hlock] at hd
      cases hd
      rw [hsig']
      nofun
    · rw [hlock] at hd; cases hd

/-- A step of a handler, of `free_coro` or of a signal, which leaves the lock as it is. -/
theorem Locking.aside (hm : Moves ops preemption s t l a s') (hlock : s'.lock = s.lock)
    (hruns : ∀ {c}, l.exec = .on c → s.lock = some c →
      ∃ u lu, s'.sched u = some lu ∧ lu.exec = .on c)
    (hchecks : ∀ {d}, s.lock = some d → ∀ r ∈ (s'.context d).sig, r = .check) : Locking s' := by
  refine ⟨hL.toHolding.moves hm, fun {d} hd => ?_, fun {d} hd => ?_⟩
  · rw [hlock] at hd
    by_cases he : l.exec = .on d
    · exact hruns he hd
    · exact hL.runs_ne hl hm he hd
  · rw [hlock] at hd; exact hchecks hd

theorem Locking.moves (hm : Moves ops preemption s t l a s') (hok : ¬PreemptsHolder ops s a) :
    Locking s' := by
  cases hm with
  | stride he hk hsig hst => exact hL.stride hl he hk hsig hst
  | @handler c k r rs s₁ r' he hk hsig hy =>
    have hm : Moves ops preemption s t l (.tick t .step) (s₁.setSig c (r'.toList ++ rs)) :=
      .handler he hk hsig hy
    have hlock := hm.lock_eq fun d hd => by
      cases he.symm.trans hd
      rw [hsig]
      nofun
    -- the handler of the holder finds the run list empty, and returns
    have hidle : s.lock = some c → s₁ = s ∧ r' = none := by
      intro hc
      obtain rfl := hL.checks hc r (by rw [hsig]; simp)
      cases hy with
      | idle => exact ⟨rfl, rfl⟩
      | busy hempty => exact absurd ⟨t, .step, l, c, rs, rfl, hl, he, hsig, hc, hempty⟩ hok
    refine hL.aside hl hm hlock (fun {d} hd hc => ?_) fun {d} hd => ?_
    · cases he.symm.trans hd
      obtain ⟨rfl, rfl⟩ := hidle hc
      exact ⟨t, l, hl, he⟩
    · by_cases hdc : d = c
      · subst hdc
        obtain ⟨rfl, rfl⟩ := hidle hd
        rw [State.setSig_self]
        intro r₁ hr₁
        exact hL.checks hd r₁ (by rw [hsig]; exact List.mem_cons_of_mem _ hr₁)
      · rw [State.setSig, hy.context_eq]
        simp only [Function.update_of_ne hdc]
        exact hL.checks hd
  | death hdt =>
    have hm : Moves ops preemption s t l (.tick t .step) s' := .death hdt
    refine hL.aside hl hm (hm.lock_eq fun c hc => absurd hc hdt.not_on)
      (fun he => absurd he hdt.not_on) ?_
    rw [hdt.context_eq]
    exact hL.checks
  | @signal c hp hpl he =>
    have hm : Moves ops preemption s t l (.signal t) (s.setSig c (.check :: (s.context c).sig)) :=
      .signal hp hpl he
    refine hL.aside hl hm rfl (fun hd _ => ⟨t, l, hl, hd⟩) fun {d} hd => ?_
    by_cases hdc : d = c
    · subst hdc
      rw [State.setSig_self]
      intro r hr
      rcases List.mem_cons.1 hr with rfl | hr
      · rfl
      · exact hL.checks hd r hr
    · simp only [State.setSig, Function.update_of_ne hdc]
      exact hL.checks hd

end

/-! ## Runs -/

section

variable {q : Q} {localSize : Nat} {garbage : Nat → TimerWait} {state errno threadErrno : Int}

theorem schedInit_allocated :
    Allocated (schedInit ops q localSize garbage state errno threadErrno) := by
  refine ⟨fun {c} hc => ?_, fun {c} hc => ?_, fun {t} ht => ?_⟩
  · have h2 : 2 ≤ c := hc
    have h1 : c ≠ 1 := by omega
    simp [schedInit, schedInitLocal, schedMakeCoro, schedNewLocal, State.modSched, h1]
  · by_contra hlt
    have h2 : 2 ≤ c := not_lt.1 hlt
    have h1 : c ≠ 1 := by rintro rfl; exact absurd h2 (by decide)
    have h0 : c ≠ 0 := by rintro rfl; exact absurd h2 (by decide)
    simp [schedInit, schedInitLocal, schedMakeCoro, schedNewLocal, State.modSched, h0, h1] at hc
  · have h1 : 1 ≤ t := ht
    have h0 : t ≠ 0 := by omega
    simp [schedInit, schedInitLocal, schedMakeCoro, schedNewLocal, State.modSched, h0]

theorem schedInit_holding :
    Holding (schedInit ops q localSize garbage state errno threadErrno) := by
  refine ⟨schedInit_allocated, fun c => iff_of_false ?_ nofun⟩
  by_cases h1 : c = 1
  · subst h1; exact id
  · simp [schedInit, schedInitLocal, schedMakeCoro, schedNewLocal, State.modSched, h1]

theorem Reach.allocated {ok : State Q ι δ → Act → Prop}
    (h : Reach ops preemption ok (schedInit ops q localSize garbage state errno threadErrno) s)
    (hf : s.failure = none) : Allocated s := by
  refine h.invariant (P := fun s => s.failure = none → Allocated s) (fun _ => schedInit_allocated)
    ?_ hf
  intro s s' a hA _ hs hf
  obtain ⟨hf₀, t, l, hl, -, hm⟩ := step_moves ops hs hf
  exact (hA hf₀).moves hm

/-- **The holder of `gsched->lock` executes**, and no thread waits for a coroutine of its own, in
every state of a run in which every handler that interrupts a holder of the lock finds the run list
empty. -/
theorem lock_holder_executes
    (h : Reach ops preemption (fun s a => ¬PreemptsHolder ops s a)
      (schedInit ops q localSize garbage state errno threadErrno) s)
    (hf : s.failure = none) : LockRuns s := by
  have hL : Locking s := by
    refine h.invariant (P := fun s => s.failure = none → Locking s) (fun _ => ⟨schedInit_holding, nofun, nofun⟩)
      ?_ hf
    intro s s' a hL hok hs hf
    obtain ⟨hf₀, t, l, hl, -, hm⟩ := step_moves ops hs hf
    exact (hL hf₀).moves hl hm hok
  exact hL.lockRuns

end

/-- A check on actions: a handler on the stack of the holder of the lock finds the run list empty. -/
def sparesHolder (s : SeqState) : Act → Bool
  | .signal _ => true
  | .tick t _ => (s.sched t).all fun l => match l.exec with
    | .on c => match (s.context c).sig with
      | .check :: _ => s.lock ≠ some c || (s.queues.list t).isEmpty
      | _ => true
    | _ => true

theorem sparesHolder.sound (s : SeqState) (a : Act) (h : sparesHolder s a = true) :
    ¬PreemptsHolder seqOps s a := by
  rintro ⟨t, i, l, c, rs, rfl, hl, he, hsig, hlock, hempty⟩
  simp only [sparesHolder, hl, he, hsig, hlock, Option.all_some, ne_eq, not_true_eq_false,
    decide_false, Bool.false_or] at h
  exact absurd (h.symm.trans hempty) (by decide)

/-- The main coroutine waits, its event loop looks at the timer, and a signal comes while the loop
holds the lock. -/
def signalInTimers : List Act :=
  let steps (n : Nat) : List Act := List.replicate n (.tick 0 .step)
  .tick 0 (.op (.wait ⟨5, 0⟩)) :: steps 9 ++ [.tick 0 (.clock ⟨0, 0⟩), .tick 0 (.epoll (.ready []))] ++
    steps 3 ++ [.signal 0, .tick 0 .step]

theorem lock_holder_executes_empty :
    ∃ s, run seqOps true sparesHolder seqStart signalInTimers = some s ∧ s.lock = some 1 ∧
      LockRuns s := by
  obtain ⟨s, hr, hlock, hf⟩ :
      ∃ s, run seqOps true sparesHolder seqStart signalInTimers = some s ∧ s.lock = some 1 ∧
        s.failure = none := ⟨_, rfl, rfl, rfl⟩
  exact ⟨s, hr, hlock, lock_holder_executes (Reach.run hr sparesHolder.sound .init) hf⟩

/-- The main coroutine waits; a signal comes before it gives the lock back, and its thread goes on
with the event loop, which wants the lock. -/
def signalInWait : List Act :=
  let steps (n : Nat) : List Act := List.replicate n (.tick 0 .step)
  .tick 0 (.op (.wait ⟨5, 0⟩)) :: steps 2 ++ [.signal 0] ++ steps 7 ++
    [.tick 0 (.epoll (.ready []))] ++ steps 2

/-- **A thread may wait for a lock that one of its own coroutines holds**: the main coroutine is on
the run list with the lock held, and its thread is at `glock`. -/
theorem lock_holder_switched_out :
    ∃ s l, Reach seqOps true (fun _ _ => True) seqStart s ∧ s.failure = none ∧ ¬LockRuns s ∧
      s.sched 0 = some l ∧ l.exec = .on 1 ∧ (s.context 1).pc.Locks ∧ s.lock = some 0 ∧
      s.queues.list 0 = [0] := by
  obtain ⟨s, l, hr, hl, he, hpc, hlock, hlist, hlocals, hf⟩ :
      ∃ s l, run seqOps true (fun _ _ => true) seqStart signalInWait = some s ∧ s.sched 0 = some l ∧
        l.exec = .on 1 ∧ (s.context 1).pc = .timersLock 0 0 ∧ s.lock = some 0 ∧
        s.queues.list 0 = [0] ∧ s.locals = 1 ∧ s.failure = none :=
    ⟨_, _, rfl, rfl, rfl, rfl, rfl, rfl, rfl, rfl⟩
  have hreach : Reach seqOps true (fun _ _ => True) seqStart s :=
    Reach.run hr (fun _ _ _ => trivial) .init
  have hlocks : (s.context 1).pc.Locks := by rw [hpc]; trivial
  refine ⟨s, l, hreach, hf, fun h => ?_, hl, he, hlocks, hlock, hlist⟩
  -- there is no other thread
  obtain ⟨u, lu, hu, hlu, -⟩ := h.elsewhere hl he hlocks hlock
  rw [hreach.allocated hf |>.vacant (by rw [hlocals]; exact Nat.one_le_iff_ne_zero.2 hu)] at hlu
  cases hlu

end Lwthread.Scheduler
