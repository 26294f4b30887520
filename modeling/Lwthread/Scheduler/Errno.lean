import Lwthread.Scheduler.EventLoop

/-!
# `errno` across switches

`sched_switch_context` and `sched_suspend` save `errno` in the coroutine they leave and load it from
the one they go to, and `sched_suspend` loads it back when its exchange fails. `free_coro` does not:
the coroutine that follows a dead one goes on with the `errno` of the dead one. This is the only way
in which a coroutine goes on with another `errno` than it had when it was switched out.

`State.track` notes along a run the `errno` that each coroutine had when it was last switched out,
0 for a coroutine that never was.
-/

namespace Lwthread.Scheduler

open Lwthread.Util Lwthread.Platform Custody

variable {s s' : SeqState} {t u : Tid} {l l' : LocalSched Unit} {c d x : Cid} {a : Act}
  {out : Cid → Int}

/-! ## What is noted along a run -/

/-- The points of `sched_switch_context` and `sched_suspend` that save `errno`. -/
@[simp] def Pc.leaves : Pc Unit Unit → Bool
  | .resched (.switch _) _ => true
  | .suspendDequeue _ _ _ => true
  | _ => false

/-- The coroutine that the next step of thread `t` switches out, with its `errno`. -/
def State.leaves (s : SeqState) (t : Tid) : Option (Cid × Int) :=
  match s.sched t with
  | none => none
  | some l =>
    match l.exec with
    | .on c => if (s.context c).pc.leaves then some (c, l.errno) else none
    | _ => none

/-- Note the `errno` of the coroutine that an action switches out. -/
def State.track (s : SeqState) (a : Act) (out : Cid → Int) : Cid → Int :=
  match s.leaves a.thread with
  | some (c, e) => Function.update out c e
  | none => out

/-- The states that runs of the default build reach, with the notes made along the run. -/
inductive Tracked (ok : SeqState → Act → Prop) (s₀ : SeqState) : SeqState → (Cid → Int) → Prop
  | init : Tracked ok s₀ s₀ fun _ => 0
  | next {s s' : SeqState} {a : Act} {out : Cid → Int} (h : Tracked ok s₀ s out) (hok : ok s a)
      (hs : step seqOps false s a = some s') : Tracked ok s₀ s' (s.track a out)

theorem Tracked.reach {ok : SeqState → Act → Prop} {s₀ : SeqState} (h : Tracked ok s₀ s out) :
    Reach seqOps false ok s₀ s := by
  induction h with
  | init => exact .init
  | next _ hok hs ih => exact ih.next hok hs

/-- A coroutine that goes on after a switch has the `errno` that it had when it was switched out, and
a new one starts with 0. -/
def ErrnoKept (s : SeqState) (out : Cid → Int) : Prop :=
  ∀ t l c, s.sched t = some l → l.exec = .on c → (s.context c).pc.Resumes →
    l.errno = out c ∧ ((s.context c).pc = .trampoline → l.errno = 0)

/-- `free_coro` is about to go on with a coroutine whose saved `errno` the thread does not have. -/
def Mislaid (s : SeqState) (a : Act) : Prop :=
  ∃ t i l x k, a = .tick t i ∧ s.sched t = some l ∧ l.exec = .restore x ∧ s.coro x = some k ∧
    l.errno ≠ k.privateErrno

/-! ## The invariant -/

/-- The coroutine whose `errno` the thread must have at a point of `c`. -/
@[simp] def Pc.errnoOf (c : Cid) : Pc Unit Unit → Option Cid
  | .trampoline => some c
  | .resched .resumed _ => some c
  | .suspendCmpxchg _ x _ => some x
  | .suspendEnqueue _ _ _ => some c
  | .suspendUnblock _ => some c
  | _ => none

@[simp] def Pc.Parks : Pc Unit Unit → Prop
  | .suspendCmpxchg _ _ _ => True
  | _ => False

/-- A thread executes `d`, outside the exchange of `sched_suspend`, or is about to free it. -/
def State.Active (s : SeqState) (d : Cid) : Prop :=
  ∃ t l, s.sched t = some l ∧ l.Runs d ∧ ¬(s.context d).pc.Parks

structure Saved (s : SeqState) (out : Cid → Int) : Prop where
  saved : ∀ {d k}, s.coro d = some k → s.Active d ∨ k.privateErrno = out d
  start : ∀ {d}, (s.context d).pc = .trampoline → out d = 0
  new : ∀ {d}, s.coros ≤ d → out d = 0
  held : ∀ {t l c d}, s.sched t = some l → l.exec = .on c →
    (s.context c).pc.errnoOf c = some d → l.errno = out d

theorem Pc.Resumes.errnoOf {pc : Pc Unit Unit} (h : pc.Resumes) (c : Cid) :
    pc.errnoOf c = some c := by
  cases pc with
  | trampoline => rfl
  | suspendUnblock => rfl
  | resched r _ =>
    cases r with
    | resumed => rfl
    | _ => cases h
  | _ => cases h

theorem Saved.kept (h : Saved s out) : ErrnoKept s out := by
  intro t l c hl he hr
  have herr := h.held hl he (hr.errnoOf c)
  exact ⟨herr, fun hpc => herr.trans (h.start hpc)⟩

/-! ## Saved `errno`s -/

section

variable {Q ι δ : Type} (s : State Q ι δ)

def State.errno (d : Cid) : Option Int := (s.coro d).map (·.privateErrno)

theorem State.errno_modState (x : Cid) (v : Int) :
    (s.modCoro x ({ · with state := v })).errno = s.errno := by
  funext d
  unfold State.errno State.modCoro
  by_cases hd : d = x
  · subst hd; simp [Function.comp_def]
  · simp [hd]

theorem State.errno_modErrno {x d : Cid} (e : Int) (hd : d ≠ x) :
    (s.modCoro x ({ · with privateErrno := e })).errno d = s.errno d := by
  unfold State.errno State.modCoro
  simp [hd]

theorem State.errno_modErrno_self {x : Cid} (e : Int) (hx : s.coro x ≠ none) :
    (s.modCoro x ({ · with privateErrno := e })).errno x = some e := by
  obtain ⟨k, hk⟩ := Option.ne_none_iff_exists'.1 hx
  simp [State.errno, State.modCoro, hk]

theorem State.errno_eq {x : Cid} {k : Coroutine} (hk : s.coro x = some k) :
    s.errno x = some k.privateErrno := by
  simp [State.errno, hk]

end

section

variable (hI : Inv false s)

include hI

theorem Inv.default_context (c : Cid) : s.context c = ⟨(s.context c).pc, []⟩ := by
  rw [← hI.control.quiet rfl c]

variable (hl : s.sched t = some l) (he : l.exec = .on c)

include hl he

theorem Inv.default_current : l.currentCoro = Context.current c ⟨(s.context c).pc, []⟩ := by
  have hsit := hI.control.sits hl
  simp only [Sits, he] at hsit
  rw [← hI.default_context c]
  exact hsit.2.1

/-- A step of `c` changes the saved `errno` of no other coroutine; a new one has 0, or executes. -/
theorem Stride.errno_ne {i : Input} (h : Stride seqOps false s t l c i (s.context c).pc s')
    (hd : d ≠ c) : s'.errno d = s.errno d ∨ d = s.coros ∧ (s'.errno d = some 0 ∨ s'.Active d) := by
  have hnp : d = s.coros → ¬(s'.context d).pc.Parks := by
    intro hnew
    rcases h.context_ne hd with h | ⟨-, -, h | ⟨u, h⟩⟩
    · rw [h, hnew, hI.control.blank le_rfl]
      exact id
    · rw [h]; exact id
    · rw [h]; exact id
  have hcur := hI.default_current hl he
  have hnamed := (hI.control.named c).1
  generalize (s.context c).pc = pc at h hcur hnamed
  cases h with
  | resched hy =>
    cases hy with
    | switch =>
      obtain rfl : l.currentCoro = c := hcur
      exact .inl (State.errno_modErrno s l.errno hd)
    | _ => exact .inl rfl
  | newCoroutine =>
    by_cases hnew : d = s.coros
    · refine .inr ⟨hnew, .inl ?_⟩
      simp [State.errno, State.goto, schedMakeCoro, hnew]
    · exact .inl (by simp [State.errno, State.goto, schedMakeCoro, hnew])
  | wait => exact .inl (congrFun (State.errno_modState s _ _) d)
  | eventWait => exact .inl (congrFun (State.errno_modState s _ _) d)
  | suspendTake =>
    obtain rfl := hnamed
    exact .inl (State.errno_modErrno s l.errno hd)
  | park => exact .inl (congrFun (State.errno_modState s _ _) d)
  | rouse => exact .inl (congrFun (State.errno_modState s _ _) d)
  | wake => exact .inl (congrFun (State.errno_modState s _ _) d)
  | newLocal =>
    by_cases hnew : d = s.coros
    · subst hnew
      exact .inr ⟨rfl, .inr ⟨s.locals, _, Function.update_self _ _ _, .inl rfl, hnp rfl⟩⟩
    · refine .inl ((congrFun (State.errno_modState _ _ _) d).trans ?_)
      simp [State.errno, schedNewLocal, hnew]
  | _ => exact .inl rfl

omit hI in
theorem track_eq (i : Input) : s.track (.tick t i) out =
    if (s.context c).pc.leaves then Function.update out c l.errno else out := by
  unfold State.track State.leaves
  simp only [Act.thread, hl, he]
  split
  · next h =>
    split at h
    · next hp => cases h; rw [if_pos hp]
    · cases h
  · next h =>
    split at h
    · cases h
    · next hp => rw [if_neg hp]

omit hI in
theorem track_ne (i : Input) (hd : d ≠ c) : s.track (.tick t i) out d = out d := by
  rw [track_eq hl he]
  split
  · exact Function.update_of_ne hd _ _
  · rfl

omit he in
/-- A coroutine that a thread keeps and does not execute has its `errno` saved. -/
theorem Saved.of_token (hS : Saved s out) {k : Coroutine} (hx : x ∈ own s (.thread t))
    (hr : ¬l.Runs x) (hk : s.coro x = some k) : k.privateErrno = out x := by
  refine (hS.saved hk).resolve_left ?_
  rintro ⟨u, lu, hlu, hru, -⟩
  have hut : u = t := Holder.thread.inj (hI.kept.excl.inj (hI.own_of_runs hlu hru) hx)
  subst hut
  cases Option.some.inj (hl.symm.trans hlu)
  exact hr hru

omit hI hl in
theorem LocalSched.not_runs (hxc : x ≠ c) : ¬l.Runs x := by
  rintro (h | ⟨h, -⟩)
  · exact hxc (Exec.on.inj (h.symm.trans he))
  · rw [he] at h; cases h

/-- A coroutine that the thread keeps goes on where its `errno` is due. -/
theorem Inv.next_due (hx : x ∈ own s (.thread t)) (hxc : x ≠ c) :
    (s.context x).pc.errnoOf x = some x := by
  have hres := hI.resumes hl hx (LocalSched.not_runs he hxc)
  rw [hI.default_context x] at hres
  exact Pc.Resumes.errnoOf hres x

theorem Inv.token_mem (hx : x ∈ ((s.context c).pc.seat c).tokens) : x ∈ own s (.thread t) := by
  rw [own, seat_of_exec hl he, hI.default_context c]
  exact Multiset.mem_add.2 (.inl hx)

/-- The switch of `sched_resched`: the thread has the `errno` of the coroutine it goes to. -/
theorem switch_held {ret : ReschedRet} {y : Cid} {k : Coroutine} (hS : Saved s out)
    (hpc : (s.context c).pc = .resched (.switch y) ret)
    (hk : (s.modCoro c ({ · with privateErrno := l.errno })).coro y = some k)
    (hctx : s'.context = Function.update s.context c ⟨.resched .resumed ret, []⟩)
    (hd : (s'.context y).pc.errnoOf y = some d) :
    k.privateErrno = Function.update out c l.errno d := by
  by_cases hyc : y = c
  · subst hyc
    rw [hctx, Function.update_self] at hd
    obtain rfl : y = d := by simpa using hd
    rw [Function.update_self]
    simp only [State.modCoro, Function.update_self, Option.map_eq_some_iff] at hk
    obtain ⟨k₀, -, rfl⟩ := hk
    rfl
  · simp only [State.modCoro, Function.update_of_ne hyc] at hk
    rw [hctx, Function.update_of_ne hyc] at hd
    have hmem := hI.token_mem hl he (x := y) (by rw [hpc]; simp [hyc])
    rw [hI.next_due hl he hmem hyc] at hd
    cases hd
    rw [Function.update_of_ne hyc, hS.of_token hI hl hmem (LocalSched.not_runs he hyc) hk]

/-- `sched_suspend` takes the `errno` of the coroutine that it has dequeued. -/
theorem take_held {y : Cid} {ys : List Cid} {k : Coroutine} (hS : Saved s out)
    (hpc : (s.context c).pc.seat c = .on c) (hy : s.queues.list t = y :: ys)
    (hk : (s.modCoro c ({ · with privateErrno := l.errno })).coro y = some k) :
    k.privateErrno = Function.update out c l.errno y := by
  have hyc : y ≠ c := by
    rintro rfl
    refine hI.not_mem_list hl he ?_ (by rw [hy]; simp)
    rw [hI.default_context y]
    exact hpc
  simp only [State.modCoro, Function.update_of_ne hyc] at hk
  have hown : y ∈ own s (.thread t) := by
    rw [own, hy]
    simp
  rw [Function.update_of_ne hyc, hS.of_token hI hl hown (LocalSched.not_runs he hyc) hk]

/-- What a step of `c` does to the `errno` of its thread and to the one saved for `c`. -/
inductive Swaps (s s' : SeqState) (t : Tid) (l : LocalSched Unit) (c : Cid) : Pc Unit Unit → Prop
  | stays {pc : Pc Unit Unit} {l' : LocalSched Unit} (hl' : s'.sched t = some l')
      (he : l'.exec = .on c) (hleave : pc.leaves = false) (hpark : ¬(s'.context c).pc.Parks)
      (hstart : (s'.context c).pc ≠ .trampoline)
      (hdue : ∀ d, (s'.context c).pc.errnoOf c = some d → pc.errnoOf c = some d ∧ l'.errno = l.errno) :
      Swaps s s' t l c pc
  | dies {l' : LocalSched Unit} (hl' : s'.sched t = some l') (he : l'.exec = .free)
      (hcur : l'.currentCoro = c) (hctx : (s'.context c).pc = .user) : Swaps s s' t l c .user
  | switches {y : Cid} {k : Coroutine} {ret : ReschedRet} {l' : LocalSched Unit}
      (hl' : s'.sched t = some l') (he : l'.exec = .on y) (herr : l'.errno = k.privateErrno)
      (hk : (s.modCoro c ({ · with privateErrno := l.errno })).coro y = some k)
      (hctx : s'.context = Function.update s.context c ⟨.resched .resumed ret, []⟩)
      (hsave : s'.errno c = some l.errno) : Swaps s s' t l c (.resched (.switch y) ret)
  | takes {y : Cid} {ys : List Cid} {k : Coroutine} {p : Unit} {ret : SuspendRet}
      {l' : LocalSched Unit} (hl' : s'.sched t = some l') (he : l'.exec = .on c)
      (herr : l'.errno = k.privateErrno) (hy : s.queues.list t = y :: ys)
      (hk : (s.modCoro c ({ · with privateErrno := l.errno })).coro y = some k)
      (hctx : (s'.context c).pc = .suspendCmpxchg c y ret) (hsave : s'.errno c = some l.errno) :
      Swaps s s' t l c (.suspendDequeue c p ret)
  | parks {y : Cid} {ret : SuspendRet} {l' : LocalSched Unit} (hl' : s'.sched t = some l')
      (he : l'.exec = .on y) (herr : l'.errno = l.errno) (hsave : s'.errno c = s.errno c)
      (hctx : (s'.context c).pc = .suspendUnblock ret) :
      Swaps s s' t l c (.suspendCmpxchg c y ret)
  | aborts {y : Cid} {k : Coroutine} {ret : SuspendRet} {l' : LocalSched Unit}
      (hl' : s'.sched t = some l') (he : l'.exec = .on c) (hk : s.coro c = some k)
      (herr : l'.errno = k.privateErrno) (hctx : (s'.context c).pc = .suspendEnqueue y .assert ret) :
      Swaps s s' t l c (.suspendCmpxchg c y ret)

theorem Stride.swaps {i : Input} (hrun : l.started = true)
    (h : Stride seqOps false s t l c i (s.context c).pc s') :
    Swaps s s' t l c (s.context c).pc := by
  have hsig := hI.control.quiet rfl c
  have hcur := hI.default_current hl he
  have hnamed := (hI.control.named c).1
  have hlive : s.coro c ≠ none := fun h => hI.kept.live ⟨_, hI.own_of_runs hl (.inl he)⟩ (by
    simp [State.word, h])
  have hstart : ∀ {u}, (s.context c).pc = .newStart u → t ≠ u := by
    rintro u hpc rfl
    obtain ⟨lu, -, hlu, hns, -⟩ := hI.control.starts (c := c) (u := t) (by rw [hpc]; rfl)
    cases Option.some.inj (hl.symm.trans hlu)
    rw [hrun] at hns
    cases hns
  generalize hpc : (s.context c).pc = pc at h hcur hnamed hstart
  -- the thread goes on with `c`, at a point where any `errno` will do or the same is due
  have hstays : ∀ {s₀ : SeqState} {pc' : Pc Unit Unit}, s' = s₀.goto c pc' → s₀.sched t = some l →
      pc.leaves = false → ¬pc'.Parks ∧ pc' ≠ .trampoline → (pc'.errnoOf c = none ∨ pc'.errnoOf c = pc.errnoOf c) →
      Swaps s s' t l c pc := by
    rintro s₀ pc' rfl hl₀ hleave hpark hdue
    refine .stays hl₀ he hleave (by rw [State.goto_pc]; exact hpark.1)
      (by rw [State.goto_pc]; exact hpark.2) fun d hd => ?_
    rw [State.goto_pc] at hd
    rcases hdue with h | h
    · rw [h] at hd; cases hd
    · exact ⟨h ▸ hd, rfl⟩
  cases h with
  | @resched r ret s₁ r' hy =>
    cases hy with
    | @switch y k hp hk =>
      obtain rfl : l.currentCoro = c := hcur
      exact .switches ((State.modSched_self _).trans (congrArg _ hl)) rfl rfl hk
        (goto_context hsig rfl) (State.errno_modErrno_self s l.errno hlive)
    | idle => cases ret <;> exact hstays rfl hl rfl ⟨id, by rintro ⟨⟩⟩ (.inl rfl)
    | resumed => cases ret <;> exact hstays rfl hl rfl ⟨id, by rintro ⟨⟩⟩ (.inl rfl)
    | _ => exact hstays rfl hl rfl ⟨id, by rintro ⟨⟩⟩ (.inl rfl)
  | flow hf =>
    cases hf with
    | suspendAssert => exact hstays rfl hl rfl ⟨id, by rintro ⟨⟩⟩ (.inr rfl)
    | timersNone =>
      unfold afterTimers at hstays
      refine hstays rfl hl rfl ?_ (.inl ?_) <;> split <;> first | exact ⟨id, by rintro ⟨⟩⟩ | rfl
    | _ => exact hstays rfl hl rfl ⟨id, by rintro ⟨⟩⟩ (.inl rfl)
  | setErrno =>
    refine .stays ((State.modSched_self _).trans (congrArg _ hl)) he rfl ?_ ?_ fun d hd => ?_
    · rw [State.modSched_context, hpc]; exact id
    · rw [State.modSched_context, hpc]; rintro ⟨⟩
    · rw [State.modSched_context, hpc] at hd; cases hd
  | eintr =>
    refine .stays hl he rfl (by rw [hpc]; exact id) (by rw [hpc]; rintro ⟨⟩) fun d hd => ?_
    rw [hpc] at hd
    cases hd
  | ret => exact .dies ((State.modSched_self _).trans (congrArg _ hl)) rfl hcur hpc
  | @trampoline _ start => cases start <;> exact hstays rfl hl rfl ⟨id, by rintro ⟨⟩⟩ (.inl rfl)
  | @suspendUnblock ret => cases ret <;> exact hstays rfl hl rfl ⟨id, by rintro ⟨⟩⟩ (.inl rfl)
  | suspendPop hq => exact absurd hq seqOps_pop_ne
  | @suspendTake current p ret q y k hq hk =>
    obtain rfl : current = c := hnamed
    obtain ⟨ys, hy, rfl⟩ := seqOps_pop hq
    exact .takes ((State.modSched_self _).trans (congrArg _ hl)) he rfl hy hk (State.goto_pc _ _)
      (State.errno_modErrno_self s l.errno hlive)
  | @park current y ret k hk hb =>
    obtain rfl : current = c := hnamed
    exact .parks ((State.modSched_self _).trans (congrArg _ hl)) rfl rfl
      (congrFun (State.errno_modState s _ _) _) (State.goto_pc _ _)
  | @abort current y ret k hk hb =>
    obtain rfl : current = c := hnamed
    exact .aborts ((State.modSched_self _).trans (congrArg _ hl)) he hk rfl (State.goto_pc _ _)
  | suspendPush hq => rw [seqOps_push] at hq; cases hq
  | suspendPushed => exact hstays rfl hl rfl ⟨id, by rintro ⟨⟩⟩ (.inr rfl)
  | @rouse _ ret => cases ret <;> exact hstays rfl hl rfl ⟨id, by rintro ⟨⟩⟩ (.inl rfl)
  | @schedulePushed _ _ ret => cases ret <;> exact hstays rfl hl rfl ⟨id, by rintro ⟨⟩⟩ (.inl rfl)
  | fetchAdd => refine hstays rfl hl rfl ?_ (.inl ?_) <;> split <;> first | exact ⟨id, by rintro ⟨⟩⟩ | rfl
  | newLocal =>
    exact hstays rfl ((Function.update_of_ne (hI.ne_locals hl) _ _).trans hl) rfl ⟨id, by rintro ⟨⟩⟩ (.inl rfl)
  | newStart =>
    exact hstays rfl ((Function.update_of_ne (hstart rfl) _ _).trans hl) rfl ⟨id, by rintro ⟨⟩⟩ (.inl rfl)
  | timersMin => refine hstays rfl hl rfl ?_ (.inl ?_) <;> split <;> first | exact ⟨id, by rintro ⟨⟩⟩ | rfl
  | timersUnlock =>
    unfold afterTimers at hstays ⊢
    refine hstays rfl hl rfl ?_ (.inl ?_) <;> split <;> first
      | exact ⟨id, by rintro ⟨⟩⟩
      | rfl
      | (split <;> first | exact ⟨id, by rintro ⟨⟩⟩ | rfl)
  | _ => exact hstays rfl hl rfl ⟨id, by rintro ⟨⟩⟩ (.inl rfl)

/-- After a step of its own, a thread has the `errno` that it must have. -/
theorem Swaps.held {i : Input} (hS : Saved s out) (h : Swaps s s' t l c (s.context c).pc)
    (hframe : ∀ {y}, y ≠ c → y ≠ s.coros → s'.context y = s.context y)
    (hl' : s'.sched t = some l') (he' : l'.exec = .on x)
    (hd : (s'.context x).pc.errnoOf x = some d) : l'.errno = s.track (.tick t i) out d := by
  have hheld : ∀ {d}, (s.context c).pc.errnoOf c = some d → l.errno = out d := hS.held hl he
  rw [track_eq hl he]
  generalize hpc : (s.context c).pc = pc at h hheld
  cases h with
  | stays hl₁ he₁ hleave _ _ hdue =>
    cases hl₁.symm.trans hl'
    cases he₁.symm.trans he'
    obtain ⟨hd, herr⟩ := hdue d hd
    rw [hleave, herr]
    exact hheld hd
  | dies hl₁ he₁ hcur hctx =>
    cases hl₁.symm.trans hl'
    rw [he₁] at he'
    cases he'
  | switches hl₁ he₁ herr hk hctx hsave =>
    cases hl₁.symm.trans hl'
    cases he₁.symm.trans he'
    rw [herr]
    exact switch_held hI hl he hS hpc hk hctx hd
  | takes hl₁ he₁ herr hy hk hctx hsave =>
    cases hl₁.symm.trans hl'
    cases he₁.symm.trans he'
    rw [hctx] at hd
    cases hd
    rw [herr]
    exact take_held hI hl he hS (by rw [hpc]; rfl) hy hk
  | parks hl₁ he₁ herr =>
    cases hl₁.symm.trans hl'
    cases he₁.symm.trans he'
    have hmem := hI.token_mem hl he (x := x) (by rw [hpc]; simp)
    have hxc : x ≠ c := by
      rintro rfl
      have hnd := hI.kept.excl.nodup (.thread t)
      rw [own, seat_of_exec hl he, hI.default_context x, hpc] at hnd
      simp [Context.seat] at hnd
    have hlive := hI.kept.live ⟨_, hmem⟩
    rw [hframe hxc fun h => lt_irrefl _ (hI.kept.known (.inr (h ▸ hlive))),
      hI.next_due hl he hmem hxc] at hd
    cases hd
    rw [herr]
    exact hheld rfl
  | aborts hl₁ he₁ hk herr hctx =>
    cases hl₁.symm.trans hl'
    cases he₁.symm.trans he'
    rw [hctx] at hd
    cases hd
    rw [herr]
    refine (hS.saved hk).resolve_left ?_
    rintro ⟨-, -, -, -, hnp⟩
    exact hnp (by rw [hpc]; trivial)

omit hI in
/-- A coroutine that has stopped has its `errno` noted. -/
theorem Swaps.saved_self {i : Input} {k : Coroutine} (hS : Saved s out)
    (h : Swaps s s' t l c (s.context c).pc) (hk : s'.coro c = some k) :
    s'.Active c ∨ k.privateErrno = s.track (.tick t i) out c := by
  have herrno := State.errno_eq s' hk
  rw [track_eq hl he]
  generalize hpc : (s.context c).pc = pc at h
  cases h with
  | stays hl₁ he₁ _ hpark => exact .inl ⟨t, _, hl₁, .inl he₁, hpark⟩
  | dies hl₁ he₁ hcur hctx => exact .inl ⟨t, _, hl₁, .inr ⟨he₁, hcur⟩, by rw [hctx]; exact id⟩
  | switches _ _ _ _ _ hsave =>
    have hke : k.privateErrno = l.errno := Option.some.inj (herrno.symm.trans hsave)
    exact .inr (hke.trans (Function.update_self c l.errno out).symm)
  | takes _ _ _ _ _ _ hsave =>
    have hke : k.privateErrno = l.errno := Option.some.inj (herrno.symm.trans hsave)
    exact .inr (hke.trans (Function.update_self c l.errno out).symm)
  | parks _ _ _ hsave =>
    rw [hsave] at herrno
    obtain ⟨k₀, hk₀, hke⟩ := Option.map_eq_some_iff.1 herrno
    refine .inr ?_
    rw [← hke]
    refine (hS.saved hk₀).resolve_left ?_
    rintro ⟨-, -, -, -, hnp⟩
    exact hnp (by rw [hpc]; trivial)
  | aborts hl₁ he₁ _ _ hctx => exact .inl ⟨t, _, hl₁, .inl he₁, by rw [hctx]; exact id⟩

omit hI hl he in
theorem Swaps.not_start (h : Swaps s s' t l c (s.context c).pc) :
    (s'.context c).pc ≠ .trampoline := by
  generalize (s.context c).pc = pc at h
  cases h with
  | stays _ _ _ _ hstart => exact hstart
  | dies _ _ _ hctx => rw [hctx]; nofun
  | switches _ _ _ _ hctx => rw [hctx, Function.update_self]; nofun
  | takes _ _ _ _ _ hctx => rw [hctx]; nofun
  | parks _ _ _ _ hctx => rw [hctx]; nofun
  | aborts _ _ _ _ hctx => rw [hctx]; nofun

end

/-! ## Other threads -/

theorem Pc.errnoOf_mem {pc : Pc Unit Unit} (h : pc.errnoOf c = some d) : d ∈ (pc.seat c).tokens := by
  cases pc with
  | resched r _ =>
    cases r with
    | resumed => cases h; simp
    | _ => cases h
  | trampoline => cases h; simp
  | suspendCmpxchg => cases h; simp
  | suspendEnqueue => cases h; simp
  | suspendUnblock => cases h; simp
  | _ => cases h

section

variable (hI : Inv false s) (hl : s.sched t = some l) (hm : Moves seqOps false s t l a s')

include hI hl hm

/-- A coroutine that another thread executes stays active. -/
theorem State.Active.moves (hA : s.Active d) (hr : ¬l.Runs d) : s'.Active d := by
  obtain ⟨u, lu, hlu, hru, hpark⟩ := hA
  have hut : u ≠ t := by
    rintro rfl
    cases Option.some.inj (hl.symm.trans hlu)
    exact hr hru
  have hctx : ¬(s'.context d).pc.Parks := by
    rcases hm.context_ne fun he => hr (.inl he) with h | ⟨-, -, h | ⟨v, h⟩⟩
    · rw [h]; exact hpark
    · rw [h]; exact id
    · rw [h]; exact id
  obtain ⟨lu', hlu', he, hcur⟩ := hm.exec_ne hut (hI.ne_locals hlu) hlu
  refine ⟨u, lu', hlu', ?_, hctx⟩
  unfold LocalSched.Runs
  rwa [he, hcur]

/-- A thread that has not moved has the `errno` that it must have. -/
theorem Saved.held_ne {lu : LocalSched Unit} (hS : Saved s out) (hU : Unstarted s) (hu : u ≠ t)
    (hlu : s'.sched u = some lu) (he : lu.exec = .on x)
    (hd : (s'.context x).pc.errnoOf x = some d) : lu.errno = out d ∧ d ∉ own s (.thread t) := by
  rcases hI.sched_cases hl hm hu hlu with ⟨l₀, hl₀, he₀, hor⟩ | ⟨-, he₀, hctx⟩
  · have hx : l₀.exec = .on x := he₀.symm.trans he
    rw [hI.frame_context hl hm hu hl₀ hx] at hd
    rcases hor with rfl | hns
    · have hmem := hI.token_mem hl₀ hx (Pc.errnoOf_mem hd)
      exact ⟨hS.held hl₀ hx hd, fun h => hu (Holder.thread.inj (hI.kept.excl.inj hmem h))⟩
    · obtain ⟨y, hy, hctx⟩ := hU hl₀ hns
      cases hx.symm.trans hy
      rw [hctx] at hd
      cases hd
  · cases he.symm.trans he₀
    rw [hctx] at hd
    cases hd

end

/-! ## Steps -/

section

variable (hI : Inv false s) (hU : Unstarted s) (hS : Saved s out) (hl : s.sched t = some l)

include hI hU hS hl

/-- A step of a coroutine's code. -/
theorem Saved.stride {i : Input} {k : Coroutine} (hrun : l.started = true) (he : l.exec = .on c)
    (hk : s.coro c = some k) (hsig : (s.context c).sig = [])
    (hst : Stride seqOps false s t l c i (s.context c).pc s') :
    Saved s' (s.track (.tick t i) out) := by
  have hm : Moves seqOps false s t l (.tick t i) s' := .stride he hk hsig hst
  have hsw := hst.swaps hI hl he hrun
  have hlt : c < s.coros := hI.kept.known (.inr (by simp [State.word, hk]))
  refine ⟨fun {d k'} hd => ?_, fun {d} hd => ?_, fun {d} hd => ?_, fun {u lu x d} hlu hx hd => ?_⟩
  · by_cases hdc : d = c
    · subst hdc
      exact hsw.saved_self hl he hS hd
    · rw [track_ne hl he i hdc]
      have hd' := State.errno_eq s' hd
      rcases hst.errno_ne hI hl he hdc with h | ⟨hnew, h | h⟩
      · rw [h] at hd'
        obtain ⟨k₀, hk₀, hke⟩ := Option.map_eq_some_iff.1 hd'
        rw [← hke]
        exact (hS.saved hk₀).imp_left fun hA =>
          hA.moves hI hl hm (LocalSched.not_runs he hdc)
      · rw [hS.new hnew.ge]
        exact .inr (Option.some.inj (hd'.symm.trans h))
      · exact .inl h
  · have hdc : d ≠ c := fun h => hsw.not_start (h ▸ hd)
    rw [track_ne hl he i hdc]
    rcases hst.context_ne hdc with h | ⟨hnew, -⟩
    · exact hS.start (h ▸ hd)
    · exact hS.new hnew.ge
  · have hge := hm.grows.coros.trans hd
    rw [track_ne hl he i (hlt.trans_le hge).ne']
    exact hS.new hge
  · by_cases hut : u = t
    · subst hut
      exact hsw.held hI hl he hS
        (fun hy hnew => (hst.context_ne hy).eq hnew) hlu hx hd
    · obtain ⟨herr, hmem⟩ := hS.held_ne hI hl hm hU hut hlu hx hd
      have hdc : d ≠ c := by
        rintro rfl
        exact hmem (hI.own_of_runs hl (.inl he))
      rw [herr, track_ne hl he i hdc]

/-- A step of `free_coro`. -/
theorem Saved.death (hdt : Death seqOps s t l l.exec s') (hok : ¬Mislaid s (.tick t .step)) :
    Saved s' out := by
  have hm : Moves seqOps false s t l (.tick t .step) s' := .death hdt
  have hne : ∀ {c}, l.exec ≠ .on c := by
    intro c hc
    rw [hc] at hdt
    cases hdt
  refine ⟨fun {d k} hd => ?_, fun {d} hd => hS.start (hdt.context_eq ▸ hd),
    fun hd => hS.new (hm.grows.coros.trans hd), fun {u lu x d} hlu hx hd => ?_⟩
  · -- `free_coro` saves no `errno`, and the dead coroutine is gone
    have hkeep : s.coro d = some k ∧ ¬l.Runs d := by
      generalize hel : l.exec = e at hdt
      cases hdt with
      | free =>
        simp only [State.modSched] at hd
        by_cases hdc : d = l.currentCoro
        · rw [hdc, Function.update_self] at hd; cases hd
        · rw [Function.update_of_ne hdc] at hd
          exact ⟨hd, fun h => h.elim (fun h => hne h) fun h => hdc h.2.symm⟩
      | pop hq => exact absurd hq seqOps_pop_ne
      | popped => exact ⟨hd, fun h => h.elim (fun h => hne h) fun h => by rw [hel] at h; cases h.1⟩
      | restore => exact ⟨hd, fun h => h.elim (fun h => hne h) fun h => by rw [hel] at h; cases h.1⟩
    exact (hS.saved hkeep.1).imp_left fun hA => hA.moves hI hl hm hkeep.2
  · by_cases hut : u = t
    · subst hut
      generalize hel : l.exec = e at hdt
      cases hdt with
      | free => rw [modSched_some (s := { s with coro := _ }) hl hlu] at hx; cases hx
      | pop hq => exact absurd hq seqOps_pop_ne
      | popped => rw [modSched_some hl hlu] at hx; cases hx
      | @restore y =>
        rw [modSched_some hl hlu] at hx ⊢
        cases hx
        have hown : x ∈ own s (.thread u) := by
          simp [own, State.seat, hl, hel]
        have hnr : ¬l.Runs x := fun h => h.elim (fun h => hne h) fun h => by rw [hel] at h; cases h.1
        have hres := hI.resumes hl hown hnr
        rw [hI.default_context x] at hres
        have hdue : (s.context x).pc.errnoOf x = some d := hd
        rw [Pc.Resumes.errnoOf hres x] at hdue
        cases hdue
        obtain ⟨k, hk⟩ : ∃ k, s.coro x = some k := by
          have hlive := hI.kept.live ⟨_, hown⟩
          rcases hx : s.coro x with _ | k
          · simp [State.word, hx] at hlive
          · exact ⟨k, rfl⟩
        have herr : l.errno = k.privateErrno := by
          by_contra herr
          exact hok ⟨u, .step, l, x, k, rfl, hl, hel, hk, herr⟩
        exact herr.trans (hS.of_token hI hl hown hnr hk)
    · exact (hS.held_ne hI hl hm hU hut hlu hx hd).1

theorem Saved.moves (hrun : l.started = true) (hm : Moves seqOps false s t l a s')
    (hok : ¬Mislaid s a) : Saved s' (s.track a out) := by
  cases hm with
  | stride he hk hsig hst => exact hS.stride hI hU hl hrun he hk hsig hst
  | handler _ _ hsig => rw [hI.control.quiet rfl] at hsig; cases hsig
  | death hdt =>
    have htrack : s.track (.tick t .step) out = out := by
      unfold State.track State.leaves
      simp only [Act.thread, hl]
      rcases hel : l.exec with c | _ | p | y
      · rw [hel] at hdt; cases hdt
      all_goals rfl
    rw [htrack]
    exact hS.death hI hU hl hdt hok
  | signal hp => cases hp

end

/-! ## Runs -/

section

variable {localSize : Nat} {garbage : Nat → TimerWait} {state errno threadErrno : Int}

theorem seqInit_saved : Saved (seqInit localSize garbage state errno threadErrno) fun _ => 0 := by
  refine ⟨fun {d k} hd => ?_, fun _ => rfl, fun _ => rfl, fun {t l c d} hl he hd => ?_⟩
  · by_cases h0 : d = 0
    · subst h0
      refine .inl ⟨0, _, seqInit_sched .., .inl rfl, ?_⟩
      rw [seqInit_context]
      exact id
    · refine .inr ?_
      by_cases h1 : d = 1
      · subst h1; cases hd; rfl
      · have hword := State.word_of_coro _ hd
        rw [seqInit_word, if_neg h0, if_neg h1] at hword
        cases hword
  · rw [seqInit_sched] at hl
    split at hl
    · cases hl
      cases he
      cases hd
    · cases hl

/-- **A coroutine goes on with its own `errno`**, in every state of a run of the default build in
which `free_coro` goes on only with coroutines that saved the `errno` that the thread has. -/
theorem errno_kept
    (h : Tracked (fun s a => Proper s a ∧ ¬Mislaid s a)
      (seqInit localSize garbage state errno threadErrno) s out)
    (hf : s.failure = none) : ErrnoKept s out := by
  have hsaved : Saved s out := by
    induction h with
    | init => exact seqInit_saved
    | @next s s' a out h hok hs ih =>
      obtain ⟨hf₀, t, l, hl, hrun, hm⟩ := step_moves seqOps hs hf
      obtain ⟨hI, hU⟩ := Reach.unstarted id
        (h.reach.mono fun hs hok => ⟨hok.1, default_safe hs⟩) hf₀
      exact (ih hf₀).moves hI hU hl hrun hm hok.2
  exact hsaved.kept

end

/-- Take the actions of a list, as long as they pass `check`, and note the `errno`s. -/
def trackRun (check : SeqState → Act → Bool) :
    SeqState → (Cid → Int) → List Act → Option (SeqState × (Cid → Int))
  | s, out, [] => some (s, out)
  | s, out, a :: as =>
    if check s a then
      (step seqOps false s a).bind fun s' => trackRun check s' (s.track a out) as
    else none

theorem Tracked.run {check : SeqState → Act → Bool} {ok : SeqState → Act → Prop}
    {s₀ : SeqState} {as : List Act} {out' : Cid → Int}
    (hr : trackRun check s out as = some (s', out')) (hok : ∀ s a, check s a = true → ok s a)
    (h : Tracked ok s₀ s out) : Tracked ok s₀ s' out' := by
  induction as generalizing s out with
  | nil => cases hr; exact h
  | cons a as ih =>
    unfold trackRun at hr
    split at hr
    · next hc =>
      obtain ⟨s₁, hs₁, hr⟩ := Option.bind_eq_some_iff.1 hr
      exact ih hr (h.next (hok s a hc) hs₁)
    · cases hr

/-- A check on actions for the condition of `errno_kept`. -/
def keeps (s : SeqState) (a : Act) : Bool :=
  a.leavesAsleep && (s.sched a.thread).all fun l =>
    match l.exec with
    | .restore x => (s.coro x).all fun k => l.errno = k.privateErrno
    | _ => true

theorem keeps.sound (s : SeqState) (a : Act) (h : keeps s a = true) : Proper s a ∧ ¬Mislaid s a := by
  simp only [keeps, Bool.and_eq_true] at h
  refine ⟨Act.leavesAsleep.proper s a h.1, ?_⟩
  rintro ⟨t, i, l, x, k, rfl, hl, he, hk, herr⟩
  simp [Act.thread, hl, he, hk, herr] at h

/-- The main coroutine makes a coroutine, sets `errno` to 7 and yields; the new coroutine sets
`errno` to `e` and returns, and the main coroutine goes on. -/
def yieldToDeath (e : Int) : List Act :=
  let steps (n : Nat) : List Act := List.replicate n (.tick 0 .step)
  .tick 0 (.op .newCoroutine) :: steps 4 ++ [.tick 0 (.op (.setErrno 7)), .tick 0 (.op .resched)] ++
    steps 7 ++ [.tick 0 (.epoll (.ready []))] ++ steps 8 ++
    [.tick 0 (.op (.setErrno e)), .tick 0 (.op .ret)] ++ steps 3

/-- The main coroutine goes on with its 7, which the coroutine that has died had too. -/
theorem errno_kept_equal :
    ∃ s out l, trackRun keeps seqStart (fun _ => 0) (yieldToDeath 7) = some (s, out) ∧
      s.sched 0 = some l ∧ l.exec = .on 0 ∧ l.errno = out 0 := by
  obtain ⟨s, out, l, hr, hl, he, hctx, hf⟩ :
      ∃ s out l, trackRun keeps seqStart (fun _ => 0) (yieldToDeath 7) = some (s, out) ∧
        s.sched 0 = some l ∧ l.exec = .on 0 ∧ (s.context 0).pc = .resched .resumed .user ∧
        s.failure = none :=
    ⟨_, _, _, rfl, rfl, rfl, rfl, rfl⟩
  have hkept := errno_kept (Tracked.run hr keeps.sound .init) hf
  exact ⟨s, out, l, hr, hl, he, (hkept 0 l 0 hl he (by rw [hctx]; trivial)).1⟩

/-- **A coroutine may go on with the `errno` of a dead one.** -/
theorem errno_mislaid :
    ∃ s out, Tracked Proper seqStart s out ∧ s.failure = none ∧ ¬ErrnoKept s out := by
  obtain ⟨s, out, l, hr, hl, he, hctx, hf, herr⟩ :
      ∃ s out l, trackRun (fun _ => Act.leavesAsleep) seqStart (fun _ => 0) (yieldToDeath 5) =
          some (s, out) ∧
        s.sched 0 = some l ∧ l.exec = .on 0 ∧ (s.context 0).pc = .resched .resumed .user ∧
        s.failure = none ∧ l.errno ≠ out 0 :=
    ⟨_, _, _, rfl, rfl, rfl, rfl, rfl, by decide⟩
  refine ⟨s, out, Tracked.run hr Act.leavesAsleep.proper .init, hf, fun hkept => herr ?_⟩
  exact (hkept 0 l 0 hl he (by rw [hctx]; trivial)).1

end Lwthread.Scheduler
