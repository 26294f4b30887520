import Lwthread.Scheduler.Doomed
import Lwthread.Scheduler.Errno

/-!
# A suspend that is called off

`sched_suspend` dequeues the coroutine that is to run next and takes its `errno` before
`context_cmpxchg_restore` looks at the state of the caller. If a waker has changed that state, it
undoes what it did: it takes back the current coroutine and `errno`, and enqueues the coroutine that
it has dequeued. But `sched_dequeue_locked` takes from the front of the run list and
`sched_enqueue_locked` adds at its back, so the coroutine that was next is last now. Everything
else is as it was at the call (`suspend_abort_iff`).

`noteSuspend` notes along a run, for each coroutine, the local scheduler at its last call of
`sched_suspend`, and whether the exchange of that call has failed.
-/

namespace Lwthread.Scheduler

open Lwthread.Util Lwthread.Platform Custody

variable {preemption : Bool} {s s' : SeqState} {t u : Tid} {l lu : LocalSched Unit} {c d x : Cid}
  {a : Act} {i : Input}

/-! ## What is noted along a run -/

/-- A call of `sched_suspend`: the local scheduler and its run list at the call, and what is saved in
each coroutine. -/
structure SuspendCall where
  thread : Tid
  sched : LocalSched Unit
  list : List Cid
  errno : Cid → Option Int
  failed : Bool

/-- The local scheduler is as it was at the call. -/
structure SuspendCall.Restored (k : SuspendCall) (s : SeqState) : Prop where
  sched : ∃ l, s.sched k.thread = some l ∧ l.currentCoro = k.sched.currentCoro ∧
    l.errno = k.sched.errno ∧ l.preemptLock = k.sched.preemptLock
  /-- the saved `errno` of the coroutine that was about to run -/
  saved : ∀ x ∈ k.list.head?, s.errno x = k.errno x
  list : s.queues.list k.thread = k.list

/-- Note a call of `sched_suspend` on thread `t`, or that its exchange fails. -/
def Pc.noteSuspend (s : SeqState) (t : Tid) (c : Cid) (n : Cid → Option SuspendCall) :
    Pc Unit Unit → Cid → Option SuspendCall
  | .suspendBlock _ =>
    Function.update n c
      ((s.sched t).map fun l => ⟨t, l, s.queues.list t, s.errno, false⟩)
  | .suspendCmpxchg current _ _ =>
    if (s.coro current).map (·.state) = some STATE_BLOCKING then n
    else Function.update n c ((n c).map ({ · with failed := true }))
  | _ => n

def noteSuspend (s : SeqState) (a : Act) (n : Cid → Option SuspendCall) :
    Cid → Option SuspendCall :=
  match a with
  | .signal _ => n
  | .tick t _ =>
    match s.running t with
    | some (c, pc) => pc.noteSuspend s t c n
    | none => n

variable {n : Cid → Option SuspendCall} {k : SuspendCall}

theorem noteSuspend_aside (h : Aside s a) : noteSuspend s a n = n := by
  cases a with
  | signal => rfl
  | tick t i => simp only [noteSuspend, h t i rfl]

theorem noteSuspend_overlay {ds : Cid → List (ReschedPc Unit Unit)} (hfree : Free s ds a) :
    noteSuspend (s.overlay ds) a n = noteSuspend s a n := by
  cases a with
  | signal => rfl
  | tick t i =>
    have hrun : (s.overlay ds).running t = s.running t := running_overlay hfree
    simp only [noteSuspend, hrun]
    rfl

theorem noteSuspend_stride (hl : s.sched t = some l) (he : l.exec = .on c)
    (hsig : (s.context c).sig = []) :
    noteSuspend s (.tick t i) n = (s.context c).pc.noteSuspend s t c n := by
  have hrun : s.running t = some (c, (s.context c).pc) := by
    simp [State.running, hl, he, hsig]
  simp only [noteSuspend, hrun]

theorem Pc.noteSuspend_ne (pc : Pc Unit Unit) (hd : d ≠ c) : pc.noteSuspend s t c n d = n d := by
  cases pc with
  | suspendBlock => exact Function.update_of_ne hd _ _
  | suspendCmpxchg =>
    simp only [Pc.noteSuspend]
    split
    · rfl
    · exact Function.update_of_ne hd _ _
  | _ => rfl

theorem LocalSched.setLock_errno (b : Bool) : (l.setLock preemption b).errno = l.errno := by
  unfold setLock
  split <;> rfl

/-! ## Saved `errno`s of other threads -/

theorem State.errno_setPreempt (b : Bool) : (s.setPreempt preemption t b).errno = s.errno := by
  unfold State.setPreempt
  split <;> rfl

theorem Yield.errno_ne {r : ReschedPc Unit Unit} {r' : Option (ReschedPc Unit Unit)}
    (h : Yield seqOps preemption s t l r s' r') (hd : d ≠ l.currentCoro) :
    s'.errno d = s.errno d := by
  cases h with
  | switch =>
    refine (State.errno_modErrno (s.setPreempt preemption t true) l.errno hd).trans ?_
    rw [State.errno_setPreempt]
  | resumed => rw [State.errno_setPreempt]
  | _ => rfl

section

variable (hI : Inv preemption s) (hl : s.sched t = some l)

include hI hl

theorem Inv.current_runs (he : l.exec = .on c) (hcur : (s.context c).current c = c) :
    l.currentCoro = c := by
  have hsit := hI.control.sits hl
  simp only [Sits, he] at hsit
  exact hsit.2.1.trans hcur

/-- A step of the code of `c` changes the saved `errno` of `c` only, and that of a new coroutine. -/
theorem Stride.errno_other (he : l.exec = .on c) (hsig : (s.context c).sig = [])
    (hst : Stride seqOps preemption s t l c i (s.context c).pc s') (hd : d ≠ c)
    (hnew : d ≠ s.coros) : s'.errno d = s.errno d := by
  have hnamed := (hI.control.named c).1
  generalize hpc : (s.context c).pc = pc at hst hnamed
  have hctx : s.context c = ⟨pc, []⟩ := by rw [← hpc, ← hsig]
  cases hst with
  | resched hy =>
    have hcur : l.currentCoro = c := hI.current_runs hl he (by rw [hctx]; rfl)
    exact hy.errno_ne (hcur ▸ hd)
  | trampoline => exact congrFun (State.errno_setPreempt false) d
  | newCoroutine => simp [State.errno, State.goto, schedMakeCoro, hnew]
  | wait => exact congrFun (State.errno_modState s _ _) d
  | eventWait => exact congrFun (State.errno_modState s _ _) d
  | ret => exact congrFun (State.errno_setPreempt true) d
  | suspendBlock => exact congrFun (State.errno_setPreempt true) d
  | suspendTake =>
    obtain rfl := hnamed
    exact State.errno_modErrno s l.errno hd
  | park => exact congrFun (State.errno_modState s _ _) d
  | suspendUnblock => exact congrFun (State.errno_setPreempt false) d
  | rouse => exact congrFun (State.errno_modState s _ _) d
  | wake => exact congrFun (State.errno_modState s _ _) d
  | newLocal =>
    refine (congrFun (State.errno_modState _ _ _) d).trans ?_
    simp [State.errno, schedNewLocal, hnew]
  | _ => rfl

/-- A step of thread `t` changes the saved `errno` only of what `t` executes, and of a new coroutine. -/
theorem Moves.errno_other (hm : Moves seqOps preemption s t l a s')
    (hd : d ∉ own s (.thread t)) (hnew : d ≠ s.coros) : s'.errno d = s.errno d := by
  have hruns : ∀ {c}, l.Runs c → d ≠ c := by
    rintro c hr rfl
    exact hd (hI.own_of_runs hl hr)
  cases hm with
  | stride he _ hsig hst => exact hst.errno_other hI hl he hsig (hruns (.inl he)) hnew
  | @handler c k r rs s₁ r' he hk hsig hy =>
    have hcur : l.currentCoro = c := by
      refine hI.current_runs hl he ?_
      simp only [Context.current, hsig]
    exact hy.errno_ne (hcur ▸ hruns (.inl he))
  | death hdt =>
    generalize he : l.exec = e at hdt
    cases hdt with
    | free =>
      have hne : d ≠ l.currentCoro := hruns (.inr ⟨he, rfl⟩)
      simp [State.errno, State.modSched, hne]
    | _ => rfl
  | signal => rfl

end

/-! ## The invariant -/

/-- How far the call `k` of `c` has come at a point: what it has changed of the local scheduler, of the
run list and of the saved `errno`s that it uses. -/
def SuspendCall.Progress (k : SuspendCall) (preemption : Bool) (s : SeqState) (c : Cid) :
    Pc Unit Unit → Prop
  | .suspendDequeue _ _ _ =>
    k.failed = false ∧ s.sched k.thread = some (k.sched.setLock preemption true) ∧
      s.queues.list k.thread = k.list ∧ ∀ x ∈ k.list, s.errno x = k.errno x
  | .suspendCmpxchg _ x _ =>
    k.failed = false ∧
      (∃ e, s.sched k.thread =
        some { k.sched.setLock preemption true with currentCoro := x, errno := e }) ∧
      s.errno c = some k.sched.errno ∧ k.list = x :: s.queues.list k.thread ∧
      s.errno x = k.errno x
  | .suspendEnqueue x _ _ =>
    k.failed = true ∧ s.sched k.thread = some (k.sched.setLock preemption true) ∧
      k.list = x :: s.queues.list k.thread ∧ s.errno x = k.errno x
  | .suspendUnblock _ =>
    k.failed = true ∧ s.sched k.thread = some (k.sched.setLock preemption true) ∧
      ∃ x xs, k.list = x :: xs ∧ s.queues.list k.thread = xs ++ [x] ∧ s.errno x = k.errno x
  | _ => False

/-- The call `k` of the coroutine `c`, which executes it. -/
structure SuspendCall.Midway (k : SuspendCall) (preemption : Bool) (s : SeqState) (c : Cid) :
    Prop where
  started : k.sched.started = true
  exec : k.sched.exec = .on c
  current : k.sched.currentCoro = c
  unlocked : preemption = true → k.sched.preemptLock = false
  sig : (s.context c).sig = []
  progress : k.Progress preemption s c (s.context c).pc

/-- Every coroutine inside `sched_suspend` is midway in a call that has been noted, or has been
switched out by it. -/
def Suspending (preemption : Bool) (s : SeqState) (n : Cid → Option SuspendCall) : Prop :=
  ∀ c, (s.context c).pc.InSuspend → ∃ k, n c = some k ∧
    (k.Midway preemption s c ∨ k.failed = false ∧ ∃ ret, (s.context c).pc = .suspendUnblock ret)

/-- A call that is midway: its thread executes it, with preemption blocked. -/
theorem SuspendCall.Midway.thread (h : k.Midway preemption s c) :
    ∃ l, s.sched k.thread = some l ∧ l.started = true ∧ l.exec = .on c ∧
      (preemption = true → l.preemptLock = true) := by
  have hprog := h.progress
  have hset : (k.sched.setLock preemption true).exec = .on c := by
    rw [LocalSched.setLock_exec, h.exec]
  have hst : (k.sched.setLock preemption true).started = true := by
    rw [LocalSched.setLock_started, h.started]
  have hlock : preemption = true → (k.sched.setLock preemption true).preemptLock = true :=
    LocalSched.setLock_preemptLock k.sched true
  generalize (s.context c).pc = pc at hprog
  cases pc with
  | suspendDequeue => exact ⟨_, hprog.2.1, hst, hset, hlock⟩
  | suspendCmpxchg =>
    obtain ⟨e, hl⟩ := hprog.2.1
    exact ⟨_, hl, hst, hset, hlock⟩
  | suspendEnqueue => exact ⟨_, hprog.2.1, hst, hset, hlock⟩
  | suspendUnblock => exact ⟨_, hprog.2.1, hst, hset, hlock⟩
  | _ => exact hprog.elim

section

variable (hI : Inv preemption s)

include hI

/-- A call that is midway keeps the coroutines whose saved `errno`s it uses. -/
theorem SuspendCall.Midway.keeps (h : k.Midway preemption s c) :
    c ∈ own s (.thread k.thread) ∧ ∀ x ∈ k.list, x ∈ own s (.thread k.thread) := by
  obtain ⟨l, hl, -, he, -⟩ := h.thread
  refine ⟨hI.own_of_runs hl (.inl he), fun x hx => ?_⟩
  have hseat := seat_of_exec hl he
  have hctx : s.context c = ⟨(s.context c).pc, []⟩ := by rw [← h.sig]
  have hprog := h.progress
  rw [hctx] at hseat
  rw [own, hseat, Multiset.mem_add, Multiset.mem_coe]
  generalize (s.context c).pc = pc at hprog
  cases pc with
  | suspendDequeue => exact .inr (hprog.2.2.1 ▸ hx)
  | suspendCmpxchg current y ret =>
    rw [hprog.2.2.2.1] at hx
    rcases List.mem_cons.1 hx with rfl | hx
    · exact .inl (by simp [Context.seat])
    · exact .inr hx
  | suspendEnqueue y p ret =>
    rw [hprog.2.2.1] at hx
    rcases List.mem_cons.1 hx with rfl | hx
    · exact .inl (by simp [Context.seat])
    · exact .inr hx
  | suspendUnblock ret =>
    obtain ⟨-, -, y, ys, hk, hlist, -⟩ := hprog
    rw [hk] at hx
    rw [hlist]
    exact .inr (by simpa [or_comm] using hx)
  | _ => exact hprog.elim

/-- **A call does not notice the steps of other threads.** -/
theorem SuspendCall.Midway.frame (h : k.Midway preemption s c) (hl : s.sched t = some l)
    (hm : Moves seqOps preemption s t l a s') (ht : k.thread ≠ t) : k.Midway preemption s' c := by
  obtain ⟨lk, hlk, hst, he, -⟩ := h.thread
  obtain ⟨hsched, hlist⟩ := hI.frame hm ht hlk hst
  have hctx := hI.frame_context hl hm ht hlk he
  have herrno : ∀ {x}, x ∈ own s (.thread k.thread) → s'.errno x = s.errno x := by
    intro x hx
    refine hm.errno_other hI hl (fun hx' => ?_) fun hnew => ?_
    · exact ht (Holder.thread.inj (hI.kept.excl.inj hx hx'))
    · exact lt_irrefl _ (hI.kept.known (.inr (hnew ▸ hI.kept.live ⟨_, hx⟩)))
  obtain ⟨hmem, hmems⟩ := h.keeps hI
  have hprog := h.progress
  refine ⟨h.started, h.exec, h.current, h.unlocked, hctx ▸ h.sig, ?_⟩
  rw [hctx]
  rw [hlk.symm] at hsched
  generalize (s.context c).pc = pc at hprog ⊢
  cases pc with
  | suspendDequeue =>
    obtain ⟨hf, hsk, hk, hx⟩ := hprog
    exact ⟨hf, hsched.trans hsk, hlist.trans hk,
      fun x hxk => (herrno (hmems x hxk)).trans (hx x hxk)⟩
  | suspendCmpxchg current y ret =>
    obtain ⟨hf, ⟨e, hsk⟩, hc, hk, hx⟩ := hprog
    refine ⟨hf, ⟨e, hsched.trans hsk⟩, (herrno hmem).trans hc, by rw [hlist, hk], ?_⟩
    exact (herrno (hmems y (hk ▸ List.mem_cons_self))).trans hx
  | suspendEnqueue y p ret =>
    obtain ⟨hf, hsk, hk, hx⟩ := hprog
    refine ⟨hf, hsched.trans hsk, by rw [hlist, hk], ?_⟩
    exact (herrno (hmems y (hk ▸ List.mem_cons_self))).trans hx
  | suspendUnblock ret =>
    obtain ⟨hf, hsk, y, ys, hk, hys, hx⟩ := hprog
    refine ⟨hf, hsched.trans hsk, y, ys, hk, hlist.trans hys, ?_⟩
    exact (herrno (hmems y (hk ▸ List.mem_cons_self))).trans hx
  | _ => exact hprog.elim

end

/-! ## The steps of a call -/

section

variable (hI : Inv preemption s) (hl : s.sched t = some l) (he : l.exec = .on c)
  (hsig : (s.context c).sig = [])

include hI hl he

/-- The call that `c` executes is one of its own thread. -/
theorem SuspendCall.Midway.thread_eq (h : k.Midway preemption s c) : k.thread = t := by
  obtain ⟨lk, hlk, -, hek, -⟩ := h.thread
  exact hI.exec_inj hlk (.inl hek) hl (.inl he)

include hsig

/-- A call begins: it blocks preemption. -/
theorem SuspendCall.Midway.begins {ret : SuspendRet} (hrun : l.started = true)
    (hpc : (s.context c).pc = .suspendBlock ret) (hp : preemption = true → l.preemptLock = false) :
    SuspendCall.Midway ⟨t, l, s.queues.list t, s.errno, false⟩ preemption
      ((s.setPreempt preemption t true).goto c (.suspendDequeue l.currentCoro () ret)) c := by
  have hcur : l.currentCoro = c := hI.current_runs hl he (by simp only [Context.current, hsig, hpc])
  refine ⟨hrun, he, hcur, hp, ?_, ?_⟩
  · rw [State.goto_sig, State.setPreempt_context, hsig]
  · rw [State.goto_pc, State.setPreempt_eq s t true hl]
    exact ⟨rfl, Function.update_self _ _ _, rfl, fun _ _ => rfl⟩

/-- It dequeues the coroutine that is to run and takes its `errno`. -/
theorem SuspendCall.Midway.takes {p : Unit} {ret : SuspendRet} {q : Seq} {kx : Coroutine}
    (h : k.Midway preemption s c) (hpc : (s.context c).pc = .suspendDequeue c p ret)
    (hq : seqOps.pop s.queues t p = (q, .inr (some x))) :
    k.Midway preemption
      ((({ s with queues := q }.modCoro c ({ · with privateErrno := l.errno })).modSched t
        ({ · with currentCoro := x, errno := kx.privateErrno })).goto c (.suspendCmpxchg c x ret)) c := by
  obtain rfl := h.thread_eq hI hl he
  obtain ⟨xs, hx, rfl⟩ := seqOps_pop hq
  have hprog := h.progress
  rw [hpc] at hprog
  obtain ⟨hf, hsk, hk, hsaved⟩ := hprog
  obtain rfl := Option.some.inj (hl.symm.trans hsk)
  have hxc : x ≠ c := by
    rintro rfl
    refine hI.not_mem_list hl he ?_ (by rw [hx]; exact List.mem_cons_self)
    unfold Context.seat
    rw [hsig, hpc]
    rfl
  have hlive : s.coro c ≠ none := fun h => hI.kept.live ⟨_, hI.own_of_runs hl (.inl he)⟩ (by
    simp [State.word, h])
  refine ⟨h.started, h.exec, h.current, h.unlocked, ?_, ?_⟩
  · exact (State.goto_sig _ _).trans hsig
  · rw [State.goto_pc]
    refine ⟨hf, ⟨kx.privateErrno, ?_⟩, ?_, ?_, ?_⟩
    · exact (State.modSched_self _).trans (congrArg _ hl)
    · refine (State.errno_modErrno_self s _ hlive).trans ?_
      rw [LocalSched.setLock_errno]
    · rw [← hk, hx]
      exact congrArg (x :: ·) (Function.update_self k.thread xs s.queues.list).symm
    · exact (State.errno_modErrno s _ hxc).trans (hsaved x (by rw [← hk, hx]; exact List.mem_cons_self))

/-- The exchange fails: it takes back the current coroutine and `errno`. -/
theorem SuspendCall.Midway.aborts {ret : SuspendRet} {kc : Coroutine}
    (h : k.Midway preemption s c) (hpc : (s.context c).pc = .suspendCmpxchg c x ret)
    (hkc : s.coro c = some kc) :
    SuspendCall.Midway { k with failed := true } preemption
      ((s.modSched t ({ · with currentCoro := c, errno := kc.privateErrno })).goto c
        (.suspendEnqueue x .assert ret)) c := by
  obtain rfl := h.thread_eq hI hl he
  have hprog := h.progress
  rw [hpc] at hprog
  obtain ⟨-, ⟨e, hsk⟩, hc, hk, hx⟩ := hprog
  refine ⟨h.started, h.exec, h.current, h.unlocked, (State.goto_sig _ _).trans hsig, ?_⟩
  rw [State.goto_pc]
  refine ⟨rfl, ?_, hk, hx⟩
  have herr : kc.privateErrno = k.sched.errno := by
    rw [State.errno_eq s hkc] at hc
    exact Option.some.inj hc
  have hset : (k.sched.setLock preemption true).currentCoro = c ∧
      (k.sched.setLock preemption true).errno = k.sched.errno :=
    ⟨by rw [LocalSched.setLock_currentCoro, h.current], LocalSched.setLock_errno true⟩
  refine (State.modSched_self _).trans ?_
  rw [hsk, herr, ← hset.1, ← hset.2]
  rfl

/-- It enqueues what it has dequeued. -/
theorem SuspendCall.Midway.enqueues {ret : SuspendRet} {p : Unit} {q : Seq}
    (h : k.Midway preemption s c) (hpc : (s.context c).pc = .suspendEnqueue x (.push p) ret)
    (hq : seqOps.push s.queues t x p = (q, none)) :
    k.Midway preemption ({ s with queues := q }.goto c (.suspendUnblock ret)) c := by
  obtain rfl := h.thread_eq hI hl he
  rw [seqOps_push] at hq
  cases hq
  have hprog := h.progress
  rw [hpc] at hprog
  obtain ⟨hf, hsk, hk, hx⟩ := hprog
  refine ⟨h.started, h.exec, h.current, h.unlocked, (State.goto_sig _ _).trans hsig, ?_⟩
  rw [State.goto_pc]
  exact ⟨hf, hsk, x, _, hk, Function.update_self _ _ _, hx⟩

omit hI hl he in
theorem SuspendCall.Midway.checks {ret : SuspendRet} (h : k.Midway preemption s c)
    (hpc : (s.context c).pc = .suspendEnqueue x .assert ret) :
    k.Midway preemption (s.goto c (.suspendEnqueue x (.push ()) ret)) c := by
  have hprog := h.progress
  rw [hpc] at hprog
  refine ⟨h.started, h.exec, h.current, h.unlocked, (State.goto_sig _ _).trans hsig, ?_⟩
  rw [State.goto_pc]
  exact hprog

end

/-- A step of the code of `c` that stays inside `sched_suspend`, or begins it. -/
theorem Suspending.self (hS : Suspending preemption s n) (hI : Inv preemption s)
    (hl : s.sched t = some l) (hrun : l.started = true) (he : l.exec = .on c)
    (hsig : (s.context c).sig = [])
    (hst : Stride seqOps preemption s t l c i (s.context c).pc s')
    (hin : (s'.context c).pc.InSuspend) :
    ∃ k, (s.context c).pc.noteSuspend s t c n c = some k ∧ (k.Midway preemption s' c ∨
      k.failed = false ∧ ∃ ret, (s'.context c).pc = .suspendUnblock ret) := by
  have hnamed := (hI.control.named c).1
  have hmid : (s.context c).pc.InSuspend → (∀ ret, (s.context c).pc ≠ .suspendUnblock ret) →
      ∃ k, n c = some k ∧ k.Midway preemption s c := by
    intro hin hne
    obtain ⟨k, hk, h | ⟨-, ret, hpc⟩⟩ := hS c hin
    · exact ⟨k, hk, h⟩
    · exact absurd hpc (hne ret)
  have hstep := hst.suspends rfl hin
  generalize hpc : (s.context c).pc = pc at hstep hnamed hmid
  cases hstep with
  | block hp =>
    refine ⟨_, ?_, .inl (.begins hI hl he hsig hrun hpc hp)⟩
    simp only [Pc.noteSuspend, Function.update_self, hl, Option.map_some]
  | take hq =>
    obtain rfl := hnamed
    obtain ⟨k, hk, h⟩ := hmid trivial nofun
    exact ⟨k, hk, .inl (h.takes hI hl he hsig hpc hq)⟩
  | @park current x ret kc hkc hb =>
    obtain rfl := hnamed
    obtain ⟨k, hk, h⟩ := hmid trivial nofun
    have hprog := h.progress
    rw [hpc] at hprog
    refine ⟨k, ?_, .inr ⟨hprog.1, ret, State.goto_pc _ _⟩⟩
    simp only [Pc.noteSuspend, hkc, Option.map_some, hb, if_true, hk]
  | abort hkc hb =>
    obtain rfl := hnamed
    obtain ⟨k, hk, h⟩ := hmid trivial nofun
    refine ⟨_, ?_, .inl (h.aborts hI hl he hsig hpc hkc)⟩
    simp only [Pc.noteSuspend, hkc, Option.map_some, Option.some.injEq, hb, if_false,
      Function.update_self, hk]
  | assert =>
    obtain ⟨k, hk, h⟩ := hmid trivial nofun
    exact ⟨k, hk, .inl (h.checks hsig hpc)⟩
  | pushed hq =>
    obtain ⟨k, hk, h⟩ := hmid trivial nofun
    exact ⟨k, hk, .inl (h.enqueues hI hl he hsig hpc hq)⟩

/-- The calls of the coroutines that thread `t` does not execute, after a step of `t`. -/
theorem Suspending.others (hS : Suspending preemption s n) (hI : Inv preemption s)
    (hl : s.sched t = some l) (hm : Moves seqOps preemption s t l a s') (hne : l.exec ≠ .on c)
    (hin : (s'.context c).pc.InSuspend) :
    ∃ k, n c = some k ∧ (k.Midway preemption s' c ∨
      k.failed = false ∧ ∃ ret, (s'.context c).pc = .suspendUnblock ret) := by
  have hctx : s'.context c = s.context c := by
    rcases hm.context_ne hne with h | ⟨-, -, h | ⟨u, h⟩⟩
    · exact h
    · rw [h] at hin; cases hin
    · rw [h] at hin; cases hin
  rw [hctx] at hin ⊢
  obtain ⟨k, hk, h | h⟩ := hS c hin
  · refine ⟨k, hk, .inl (h.frame hI hl hm ?_)⟩
    rintro rfl
    obtain ⟨lk, hlk, -, hek, -⟩ := h.thread
    cases Option.some.inj (hl.symm.trans hlk)
    exact hne hek
  · exact ⟨k, hk, .inr h⟩

theorem Suspending.moves (hS : Suspending preemption s n) (hI : Inv preemption s)
    (hl : s.sched t = some l) (hrun : l.started = true)
    (hm : Moves seqOps preemption s t l a s') : Suspending preemption s' (noteSuspend s a n) := by
  intro d hin
  rcases hm.stride_or_apart hl with ⟨c, kc, i, rfl, he, -, hsig, hst⟩ | hA
  · rw [noteSuspend_stride hl he hsig]
    by_cases hd : d = c
    · subst hd
      exact hS.self hI hl hrun he hsig hst hin
    · rw [Pc.noteSuspend_ne _ hd]
      exact hS.others hI hl hm (fun h => hd (Exec.on.inj (h.symm.trans he))) hin
  · rw [noteSuspend_aside hA.running]
    by_cases he : l.exec = .on d
    · -- the thread executes `d` and takes a step of a handler, which is not there, or gets a signal
      have hpc := hA.pc d
      rw [hpc] at hin ⊢
      obtain ⟨k, hk, h | h⟩ := hS d hin
      · obtain rfl := h.thread_eq hI hl he
        obtain ⟨lk, hlk, -, -, hlock⟩ := h.thread
        cases Option.some.inj (hl.symm.trans hlk)
        cases hm with
        | stride he' _ hsig hst =>
          have := hA.running _ _ rfl
          simp [State.running, hl, he', hsig] at this
        | handler he' _ hsig =>
          cases he.symm.trans he'
          rw [h.sig] at hsig
          cases hsig
        | death hdt => rw [he] at hdt; cases hdt
        | signal hp hopen =>
          rw [hlock hp] at hopen
          cases hopen
      · exact ⟨k, hk, .inr h⟩
    · exact hS.others hI hl hm he hin

/-! ## Runs -/

section

variable {localSize : Nat} {garbage : Nat → TimerWait} {state errno threadErrno : Int}

theorem Noted.suspending
    (h : Noted seqOps preemption (fun s a => Proper s a ∧ Safe s a) noteSuspend
      (seqInit localSize garbage state errno threadErrno) (fun _ => none) s n)
    (hf : s.failure = none) : Inv preemption s ∧ Suspending preemption s n := by
  refine ⟨h.reach.inv hf, ?_⟩
  induction h with
  | init =>
    intro c hin
    rw [seqInit_context] at hin
    split at hin <;> cases hin
  | next h hok hs ih =>
    obtain ⟨hf₀, t, l, hl, hrun, hm⟩ := step_moves seqOps hs hf
    exact (ih hf₀).moves (h.reach.inv hf₀) hl hrun hm

/-- The last step of `sched_suspend`, with preemption blocked. -/
theorem step_suspendUnblock {ret : SuspendRet} (hl : s.sched t = some l) (he : l.exec = .on c)
    (hlock : preemption = true → l.preemptLock = true)
    (hctx : s.context c = ⟨.suspendUnblock ret, []⟩)
    (hs : step seqOps preemption s (.tick t .step) = some s') :
    s' = (s.setPreempt preemption t false).goto c ret.pc := by
  have hpc : (s.context c).pc = .suspendUnblock ret := congrArg Context.pc hctx
  have hsig : (s.context c).sig = [] := congrArg Context.sig hctx
  rcases hf : s'.failure with _ | f
  · obtain ⟨-, u, lu, hlu, -, hm⟩ := step_moves seqOps hs hf
    cases hm with
    | stride he' _ _ hst =>
      cases hl.symm.trans hlu
      cases he.symm.trans he'
      rw [hpc] at hst
      cases hst with
      | flow hflow => cases hflow
      | suspendUnblock => rfl
    | handler he' _ hsig' _ =>
      cases hl.symm.trans hlu
      cases he.symm.trans he'
      cases hsig.symm.trans hsig'
    | death hd =>
      cases hl.symm.trans hlu
      rw [he] at hd
      cases hd
  · obtain ⟨-, u, lu, hlu, -, hfails⟩ := step_fails seqOps hs hf
    cases hfails with
    | stride he' _ _ hfault =>
      cases hl.symm.trans hlu
      cases he.symm.trans he'
      rw [hpc] at hfault
      cases hfault with
      | suspendUnblock hp hopen => cases (hlock hp).symm.trans hopen
    | handler he' _ hsig' _ =>
      cases hl.symm.trans hlu
      cases he.symm.trans he'
      cases hsig.symm.trans hsig'
    | freeLinked he' _ =>
      cases hl.symm.trans hlu
      cases he.symm.trans he'
    | sentinel he' _ =>
      cases hl.symm.trans hlu
      cases he.symm.trans he'

theorem LocalSched.setLock_setLock (hopen : preemption = true → l.preemptLock = false) :
    (l.setLock preemption true).setLock preemption false = l := by
  unfold setLock
  split
  · next hp => rw [← hopen hp]
  · rfl

/-- **A suspend that is called off changes the order of the run list only**, in every run, with signals
at any point: when a call of `sched_suspend` returns whose exchange has failed, its local scheduler is
as it was at the call, and so is the `errno` saved in the coroutine that was about to run, but that
coroutine is at the back of the run list. So all is as before if and only if it was alone there. -/
theorem suspend_abort_iff {ret : SuspendRet}
    (h : Noted seqOps preemption Proper noteSuspend
      (seqInit localSize garbage state errno threadErrno) (fun _ => none) s n)
    (hl : s.sched t = some l) (he : l.exec = .on c)
    (hctx : s.context c = ⟨.suspendUnblock ret, []⟩) (hn : n c = some k) (hfail : k.failed = true)
    (hs : step seqOps preemption s (.tick t .step) = some s') :
    k.thread = t ∧ s'.sched t = some k.sched ∧ (∀ x ∈ k.list.head?, s'.errno x = k.errno x) ∧
      s'.queues.list t = k.list.rotate 1 ∧ (k.Restored s' ↔ k.list.length = 1) := by
  have hf : s.failure = none := step_failure seqOps hs
  rcases h.shadow id (fun _ hok => hok) noteSuspend_overlay noteSuspend_aside with
    ⟨s₀, ds, hN, -, rfl⟩ | hstop
  · obtain ⟨hI, hS⟩ := hN.suspending hf
    have hpc : (s₀.context c).pc = .suspendUnblock ret := congrArg Context.pc hctx
    obtain ⟨k', hk', hor⟩ := hS c (by rw [hpc]; trivial)
    obtain rfl := Option.some.inj (hn.symm.trans hk')
    have hmid : k.Midway preemption s₀ c := hor.resolve_right fun h => by
      rw [h.1] at hfail
      cases hfail
    obtain rfl := hmid.thread_eq hI hl he
    have hprog := hmid.progress
    rw [hpc] at hprog
    obtain ⟨-, hsk, x, xs, hk, hlist, hx⟩ := hprog
    obtain rfl := Option.some.inj (hl.symm.trans hsk)
    have hnd := hI.list_nodup k.thread
    rw [hlist] at hnd
    have hs' := step_suspendUnblock hl he (LocalSched.setLock_preemptLock k.sched true) hctx hs
    rw [State.setPreempt_eq _ _ false hl, LocalSched.setLock_setLock hmid.unlocked] at hs'
    have hsched : s'.sched k.thread = some k.sched := by
      rw [hs']
      exact Function.update_self _ _ _
    have hqueue : s'.queues.list k.thread = xs ++ [x] := by
      rw [hs']
      exact hlist
    have hsaved : ∀ y ∈ k.list.head?, s'.errno y = k.errno y := by
      intro y hy
      rw [hk, List.head?_cons, Option.mem_some_iff] at hy
      rw [hs', ← hy]
      exact hx
    refine ⟨rfl, hsched, hsaved, by rw [hqueue, hk]; simp, fun hr => ?_, fun hone => ?_⟩
    · -- the list is not as before if there was another coroutine, which is in front now
      have heq := hr.list
      rw [hqueue, hk] at heq
      rw [hk]
      cases xs with
      | nil => rfl
      | cons y ys =>
        obtain rfl : y = x := (List.cons.inj heq).1
        simp at hnd
    · refine ⟨⟨_, hsched, rfl, rfl, rfl⟩, hsaved, ?_⟩
      rw [hk] at hone
      obtain rfl : xs = [] := List.length_eq_zero_iff.1 (by simpa using hone)
      rw [hqueue, hk]
      rfl
  · rw [hf] at hstop
    cases hstop

end

/-- Two processors. -/
def twoProcessors : SeqState := seqInit 2 (fun _ => ⟨⟨0, 0⟩, 0⟩) 0 0 0

/-- The main coroutine makes a coroutine, for which a thread is made, and, in `more`, others on its own
thread. It goes to sleep until second 0, and before its exchange the event loop of the other thread
finds that its timer has expired and wakes it. -/
def wokenEarly (more : List Act) : List Act :=
  let steps (t : Tid) (n : Nat) : List Act := List.replicate n (.tick t .step)
  .tick 0 (.op .newCoroutine) :: steps 0 2 ++ [.tick 0 (.garbage 0 0)] ++ steps 0 3 ++ more ++
    [.tick 0 (.op (.wait ⟨0, 0⟩))] ++ steps 0 5 ++
    .tick 1 .step :: .tick 1 (.epoll (.ready [])) :: steps 1 4 ++ [.tick 1 (.clock ⟨1, 0⟩)] ++
    steps 1 2 ++ steps 0 3

/-- A coroutine more on the thread of the main coroutine. -/
def oneMore : List Act := .tick 0 (.op .newCoroutine) :: List.replicate 4 (.tick 0 .step)

/-- Only the event loop is on the run list: it is as before. -/
theorem suspend_abort_iff_alone :
    ∃ s n k s', Noted seqOps false Proper noteSuspend twoProcessors (fun _ => none) s n ∧
      n 0 = some k ∧ k.failed = true ∧ step seqOps false s (.tick 0 .step) = some s' ∧
      k.list.length = 1 ∧ k.Restored s' := by
  obtain ⟨s, n, l, k, s', hr, hl, he, hctx, hn, hfail, hs, hone⟩ :
      ∃ s n l k s', noteRun seqOps false (fun _ => Act.leavesAsleep) noteSuspend twoProcessors
          (fun _ => none) (wokenEarly []) = some (s, n) ∧
        s.sched 0 = some l ∧ l.exec = .on 0 ∧ s.context 0 = ⟨.suspendUnblock .wait, []⟩ ∧
        n 0 = some k ∧ k.failed = true ∧ step seqOps false s (.tick 0 .step) = some s' ∧
        k.list.length = 1 := ⟨_, _, _, _, _, rfl, rfl, rfl, rfl, rfl, rfl, rfl, rfl⟩
  have hN : Noted seqOps false Proper noteSuspend twoProcessors (fun _ => none) s n :=
    Noted.run hr Act.leavesAsleep.proper .init
  exact ⟨s, n, k, s', hN, hn, hfail, hs, hone,
    (suspend_abort_iff hN hl he hctx hn hfail hs).2.2.2.2.2 hone⟩

/-- **The coroutine that was next is last**: with another coroutine on the run list it is not as before. -/
theorem suspend_abort_rotates :
    ∃ s n k s', Noted seqOps false Proper noteSuspend twoProcessors (fun _ => none) s n ∧
      s.context 0 = ⟨.suspendUnblock .wait, []⟩ ∧ n 0 = some k ∧ k.failed = true ∧
      step seqOps false s (.tick 0 .step) = some s' ∧ k.list = [1, 4] ∧
      s'.queues.list 0 = [4, 1] ∧ ¬k.Restored s' := by
  obtain ⟨s, n, k, s', hr, hctx, hn, hfail, hs, hk, ht, hlist⟩ :
      ∃ s n k s', noteRun seqOps false (fun _ => Act.leavesAsleep) noteSuspend twoProcessors
          (fun _ => none) (wokenEarly oneMore) = some (s, n) ∧
        s.context 0 = ⟨.suspendUnblock .wait, []⟩ ∧ n 0 = some k ∧ k.failed = true ∧
        step seqOps false s (.tick 0 .step) = some s' ∧ k.list = [1, 4] ∧ k.thread = 0 ∧
        s'.queues.list 0 = [4, 1] := ⟨_, _, _, _, rfl, rfl, rfl, rfl, rfl, rfl, rfl, rfl⟩
  refine ⟨s, n, k, s', Noted.run hr Act.leavesAsleep.proper .init, hctx, hn, hfail, hs, hk, hlist,
    fun h => ?_⟩
  have heq := h.list
  rw [ht, hlist, hk] at heq
  cases heq

end Lwthread.Scheduler
