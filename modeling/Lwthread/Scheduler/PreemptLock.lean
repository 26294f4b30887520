import Lwthread.Scheduler.Doomed
import Lwthread.Scheduler.Lock

/-!
# The preemption lock

In the build with `SCHED_PREEMPTION` the lock is taken by the coroutine that switches away and given
back by the one that goes on, maybe on another thread. Whether it is taken is given by the point that a
thread executes (`Paired`): it is taken in `sched_suspend` after `sched_block_preempt`, at the return
from a switch and at the start of a coroutine, and on the death stack. So the assertions of
`sched_block_preempt` and `sched_unblock_preempt` hold, a thread has the lock whenever it restores a
context, and a coroutine runs its own code with the lock free.
-/

namespace Lwthread.Scheduler

open Lwthread.Util Lwthread.Platform Custody

/-! ## The points with the lock taken -/

section

variable {Q ι δ : Type}

@[simp] def ReschedPc.blocked : ReschedPc ι δ → Bool
  | .resumed => true
  | _ => false

/-- The lock is taken at a point. -/
@[simp] def Pc.blocked : Pc ι δ → Bool
  | .trampoline => true
  | .resched r _ => r.blocked
  | .suspendDequeue _ _ _ => true
  | .suspendCmpxchg _ _ _ => true
  | .suspendEnqueue _ _ _ => true
  | .suspendUnblock _ => true
  | _ => false

/-- The lock is taken at the innermost point of a context. -/
def Context.blocked (x : Context ι δ) : Bool :=
  match x.sig with
  | r :: _ => r.blocked
  | [] => x.pc.blocked

/-- The lock is taken where a thread executes. -/
def State.blocked (s : State Q ι δ) (l : LocalSched δ) : Bool :=
  match l.exec with
  | .on c => (s.context c).blocked
  | _ => true

/-- The coroutine whose context the next step of thread `t` restores: in `sched_switch_context`, in
`free_coro`, or in `sched_suspend` if its compare-and-exchange is to succeed. -/
def State.restores (s : State Q ι δ) (t : Tid) : Option Cid :=
  match s.sched t with
  | none => none
  | some l =>
    match l.exec with
    | .on c =>
      match (s.context c).sig with
      | .switch x :: _ => some x
      | _ :: _ => none
      | [] =>
        match (s.context c).pc with
        | .resched (.switch x) _ => some x
        | .suspendCmpxchg current x _ =>
          if (s.coro current).map (·.state) = some STATE_BLOCKING then some x else none
        | _ => none
    | .restore x => some x
    | _ => none

/-- The lock of every thread is as the point that it executes has it, and no point under a handler has
it taken. -/
structure Paired (s : State Q ι δ) : Prop where
  lock : ∀ {t l}, s.sched t = some l → l.preemptLock = s.blocked l
  under : ∀ {c}, (s.context c).sig ≠ [] →
    (s.context c).pc.blocked = false ∧ ∀ r ∈ (s.context c).sig.tail, r.blocked = false

theorem Context.Resumes.blocked {x : Context ι δ} (h : x.Resumes) : x.blocked = true := by
  obtain ⟨pc, sig⟩ := x
  cases sig with
  | cons r rs => obtain rfl : r = .resumed := h; rfl
  | nil =>
    have h : pc.Resumes := h
    cases pc with
    | resched r ret => cases r <;> first | rfl | exact h.elim
    | trampoline => rfl
    | suspendUnblock => rfl
    | _ => exact h.elim

theorem Context.blocked_of_under {pc : Pc ι δ} {rs : List (ReschedPc ι δ)}
    (hpc : pc.blocked = false) (hrs : ∀ r ∈ rs, r.blocked = false) :
    Context.blocked ⟨pc, rs⟩ = false := by
  cases rs with
  | nil => exact hpc
  | cons r rs => exact hrs r List.mem_cons_self

theorem afterTimers_blocked (u : Tid) (v : Int) : (afterTimers u v : Pc ι δ).blocked = false := by
  unfold afterTimers
  split <;> rfl

variable {ops : ListOps Q ι δ} {s s' : State Q ι δ} {t : Tid} {l l' : LocalSched δ} {c : Cid}
  {i : Input} {pc : Pc ι δ}

/-! ## Steps -/

/-- What a step of `sched_resched` does to the lock. -/
theorem Yield.lock {s₁ : State Q ι δ} {r : ReschedPc ι δ} {r' : Option (ReschedPc ι δ)}
    (hl : s.sched t = some l) (hlock : l.preemptLock = r.blocked)
    (h : Yield ops true s t l r s₁ r') (hl' : s₁.sched t = some l') :
    r' = some .resumed ∧ l'.preemptLock = true ∨
      (∀ r₁ ∈ r', r₁.blocked = false) ∧ l'.preemptLock = false ∧ l'.exec = l.exec := by
  have hsame : s.sched t = some l' → l' = l := fun h => (Option.some.inj (hl.symm.trans h)).symm
  cases h with
  | switch =>
    refine .inl ⟨rfl, ?_⟩
    rw [State.modSched_self] at hl'
    obtain ⟨l₀, hl₀, rfl⟩ := Option.map_eq_some_iff.1 hl'
    rw [modSched_some hl hl₀]
  | resumed =>
    refine .inr ⟨nofun, ?_⟩
    rw [modSched_some hl hl']
    exact ⟨rfl, rfl⟩
  | idle => rw [hsame hl']; exact .inr ⟨nofun, hlock, rfl⟩
  | _ =>
    rw [hsame hl']
    refine .inr ⟨fun r₁ hr₁ => ?_, hlock, rfl⟩
    cases hr₁
    rfl

/-- What a step of the code of `c` does to the lock: it switches with the lock taken, or goes on with
the lock as its next point has it. -/
theorem Stride.lock (hl : s.sched t = some l) (hnew : t ≠ s.locals)
    (hlock : l.preemptLock = pc.blocked) (hpc : (s.context c).pc = pc)
    (h : Stride ops true s t l c i pc s') (hl' : s'.sched t = some l') :
    l'.preemptLock = true ∧ (l'.exec = .on c → (s'.context c).pc.blocked = true) ∨
      l'.exec = l.exec ∧ l'.preemptLock = (s'.context c).pc.blocked := by
  have hsame : ∀ {s₀ : State Q ι δ} {pc' : Pc ι δ}, s.sched t = some l' →
      pc'.blocked = pc.blocked →
      l'.exec = l.exec ∧ l'.preemptLock = ((s₀.goto c pc').context c).pc.blocked := by
    intro s₀ pc' h hb
    cases Option.some.inj (hl.symm.trans h)
    rw [State.goto_pc, hb]
    exact ⟨rfl, hlock⟩
  cases h with
  | @resched r ret s₁ r' hy =>
    rcases hy.lock hl hlock hl' with ⟨rfl, h⟩ | ⟨hr', h, he⟩
    · refine .inl ⟨h, fun _ => ?_⟩
      rw [State.goto_pc]; rfl
    · refine .inr ⟨he, h.trans ?_⟩
      rw [State.goto_pc]
      cases r' with
      | none => cases ret <;> rfl
      | some r' => exact (hr' r' rfl).symm
  | flow hf =>
    refine .inr (hsame hl' ?_)
    cases hf with
    | timersNone => exact afterTimers_blocked _ _
    | _ => rfl
  | @trampoline k start =>
    refine .inr ?_
    rw [modSched_some hl hl', State.goto_pc]
    cases start <;> exact ⟨rfl, rfl⟩
  | setErrno =>
    rw [modSched_some hl hl']
    refine .inr ⟨rfl, hlock.trans ?_⟩
    rw [← hpc]; rfl
  | ret =>
    rw [State.modSched_self] at hl'
    obtain ⟨l₀, hl₀, rfl⟩ := Option.map_eq_some_iff.1 hl'
    rw [modSched_some hl hl₀]
    exact .inl ⟨rfl, nofun⟩
  | suspendBlock =>
    rw [modSched_some hl hl', State.goto_pc]
    exact .inr ⟨rfl, rfl⟩
  | suspendTake =>
    rw [modSched_some (s := State.modCoro { s with queues := _ } _ _) hl hl', State.goto_pc]
    exact .inr ⟨rfl, hlock⟩
  | park =>
    rw [modSched_some (s := State.goto (State.modCoro s _ _) _ _) hl hl']
    refine .inl ⟨hlock, fun _ => ?_⟩
    simp [State.modSched, State.goto]
  | abort =>
    rw [modSched_some hl hl', State.goto_pc]
    exact .inr ⟨rfl, hlock⟩
  | @suspendUnblock ret =>
    rw [modSched_some hl hl', State.goto_pc]
    cases ret <;> exact .inr ⟨rfl, rfl⟩
  | @rouse x ret => cases ret <;> exact .inr (hsame hl' rfl)
  | @schedulePushed x p ret => cases ret <;> exact .inr (hsame hl' rfl)
  | fetchAdd => refine .inr (hsame hl' ?_); split <;> rfl
  | newLocal => exact .inr (hsame ((Function.update_of_ne hnew _ _).symm.trans hl') rfl)
  | @newStart v =>
    by_cases hv : t = v
    · subst hv
      rw [modSched_some hl hl', State.goto_pc]
      exact .inr ⟨rfl, hlock⟩
    · exact .inr (hsame ((Function.update_of_ne hv _ _).symm.trans hl') rfl)
  | eintr =>
    cases Option.some.inj (hl.symm.trans hl')
    exact .inr ⟨rfl, by rw [hpc]; exact hlock⟩
  | timersMin => refine .inr (hsame hl' ?_); split <;> rfl
  | @timersUnlock u v again =>
    refine .inr (hsame hl' ?_)
    cases again
    · exact afterTimers_blocked u v
    · rfl
  | _ => exact .inr (hsame hl' rfl)

end

/-! ## The invariant -/

section

variable {s s' : SeqState} {t u : Tid} {l l' lu : LocalSched Unit} {c d : Cid} {a : Act}

theorem blocked_of_exec (he : l.exec = .on c) : s.blocked l = (s.context c).blocked := by
  simp only [State.blocked, he]

section

variable (hI : Inv true s) (hP : Paired s) (hl : s.sched t = some l)
  (hm : Moves seqOps true s t l a s')

include hI hP hl hm

/-- The lock of another thread. -/
theorem Paired.lock_ne (hu : u ≠ t) (hlu : s'.sched u = some lu) : lu.preemptLock = s'.blocked lu := by
  have hold : ∀ {l₀ : LocalSched Unit}, s.sched u = some l₀ → lu.exec = l₀.exec →
      lu.preemptLock = l₀.preemptLock → lu.preemptLock = s'.blocked lu := by
    intro l₀ hl₀ he hlock
    rw [hlock, hP.lock hl₀]
    unfold State.blocked
    rw [he]
    rcases hed : l₀.exec with d | _ | p | x
    · dsimp only
      rw [hI.frame_context hl hm hu hl₀ hed]
    all_goals rfl
  rcases hm.sched_ne hu with h | ⟨c, he, h | ⟨hpc, h⟩ | ⟨rfl, h, hctx⟩⟩
  · exact hold (h ▸ hlu) rfl rfl
  · exact hold (h ▸ hlu) rfl rfl
  · obtain ⟨l₀, d, hl₀, -⟩ := hI.control.starts (c := c) (u := u) (by rw [hpc]; rfl)
    rw [h, hl₀] at hlu
    cases hlu
    exact hold hl₀ rfl rfl
  · rw [h] at hlu
    cases hlu
    rw [blocked_of_exec rfl, hctx (hI.exec_ne_coros hl he).symm]
    rfl

/-- The lock of the thread itself. -/
theorem Paired.lock_self (hl' : s'.sched t = some l') : l'.preemptLock = s'.blocked l' := by
  -- a coroutine that the thread has switched to is at a return from a switch
  have hswitch : ∀ {x}, l'.exec = .on x → l.exec ≠ .on x → l'.preemptLock = true →
      l'.preemptLock = s'.blocked l' := by
    intro x he' hne hlock
    rw [hlock, blocked_of_exec he', (hI.switched hl hm hl' he' hne).blocked]
  have hlock := hP.lock hl
  cases hm with
  | @stride c k i _ he hk hsig hst =>
    have hctx : s.context c = ⟨(s.context c).pc, []⟩ := by rw [← hsig]
    rw [blocked_of_exec he, hctx] at hlock
    have hsig' : (s'.context c).sig = [] := (hst.sig (hI.exec_ne_coros hl he)).trans hsig
    have hblocked : l'.exec = .on c → s'.blocked l' = (s'.context c).pc.blocked := fun h => by
      rw [blocked_of_exec h, Context.blocked, hsig']
    rcases hst.lock hl (hI.ne_locals hl) hlock rfl hl' with ⟨h, hc⟩ | ⟨he', h⟩
    · rcases he' : l'.exec with x | _ | p | x
      · by_cases hx : x = c
        · subst hx; rw [h, hblocked he', hc he']
        · refine hswitch he' (fun h => hx ?_) h
          exact (Exec.on.inj (he.symm.trans h)).symm
      all_goals rw [h]; simp only [State.blocked, he']
    · rw [h, hblocked (he'.trans he)]
  | @handler c k r rs s₁ r' he hk hsig hy =>
    have hctx : s.context c = ⟨(s.context c).pc, r :: rs⟩ := by rw [← hsig]
    rw [blocked_of_exec he, hctx] at hlock
    obtain ⟨hpc, hrs⟩ := hP.under (c := c) (by rw [hsig]; exact List.cons_ne_nil _ _)
    rw [hsig, List.tail_cons] at hrs
    have hself : ((s₁.setSig c (r'.toList ++ rs)).context c) = ⟨(s.context c).pc, r'.toList ++ rs⟩ := by
      rw [State.setSig_self, hy.context_eq]
    rcases hy.lock hl hlock hl' with ⟨rfl, h⟩ | ⟨hr', h, he'⟩
    · rcases hy.exec hl hl' with hex | ⟨x, -, hex⟩
      · rw [h, blocked_of_exec (hex.trans he), hself]; rfl
      · by_cases hx : x = c
        · subst hx; rw [h, blocked_of_exec hex, hself]; rfl
        · refine hswitch hex (fun h => hx ?_) h
          exact (Exec.on.inj (he.symm.trans h)).symm
    · rw [h, blocked_of_exec (he'.trans he), hself]
      refine (Context.blocked_of_under hpc fun r₁ hr₁ => ?_).symm
      rcases List.mem_append.1 hr₁ with hr₁ | hr₁
      · exact hr' r₁ (by simpa using hr₁)
      · exact hrs r₁ hr₁
  | death hdt =>
    have htrue : l.preemptLock = true := by
      rw [hlock]
      unfold State.blocked
      rcases hex : l.exec with c | _ | p | x
      · exact absurd hex hdt.not_on
      all_goals rfl
    generalize hex : l.exec = e at hdt
    cases hdt with
    | free => rw [modSched_some (s := { s with coro := _ }) hl hl']; exact htrue
    | pop => rw [modSched_some (s := { s with queues := _ }) hl hl']; exact htrue
    | popped => rw [modSched_some (s := { s with queues := _ }) hl hl']; exact htrue
    | restore =>
      have hl'' := modSched_some hl hl'
      refine hswitch (by rw [hl'']) (by rw [hex]; nofun) (by rw [hl'']; exact htrue)
  | @signal c hp hfree he =>
    cases Option.some.inj (hl.symm.trans hl')
    rw [hfree, blocked_of_exec he, State.setSig_self]
    rfl

theorem Paired.under_moves : ∀ {d}, (s'.context d).sig ≠ [] →
    (s'.context d).pc.blocked = false ∧ ∀ r ∈ (s'.context d).sig.tail, r.blocked = false := by
  intro d hd
  by_cases hed : l.exec = .on d
  · have hlock := hP.lock hl
    rw [blocked_of_exec hed] at hlock
    cases hm with
    | @stride c k i _ he hk hsig hst =>
      cases he.symm.trans hed
      rw [hst.sig (hI.exec_ne_coros hl he), hsig] at hd
      exact absurd rfl hd
    | @handler c k r rs s₁ r' he hk hsig hy =>
      cases he.symm.trans hed
      obtain ⟨hpc, hrs⟩ := hP.under (c := d) (by rw [hsig]; exact List.cons_ne_nil _ _)
      rw [hsig, List.tail_cons] at hrs
      rw [State.setSig_self, hy.context_eq]
      refine ⟨hpc, fun r₁ hr₁ => hrs r₁ ?_⟩
      cases r' with
      | none => exact List.mem_of_mem_tail hr₁
      | some r' => exact hr₁
    | death hdt => exact absurd hed hdt.not_on
    | @signal c hp hfree he =>
      cases he.symm.trans hed
      rw [State.setSig_self]
      rw [hfree] at hlock
      unfold Context.blocked at hlock
      rcases hsig : (s.context d).sig with _ | ⟨r, rs⟩
      · simp only [hsig] at hlock
        exact ⟨hlock.symm, nofun⟩
      · simp only [hsig] at hlock
        obtain ⟨hpc, hrs⟩ := hP.under (c := d) (by rw [hsig]; exact List.cons_ne_nil _ _)
        rw [hsig, List.tail_cons] at hrs
        refine ⟨hpc, fun r₁ hr₁ => ?_⟩
        rcases List.mem_cons.1 hr₁ with rfl | hr₁
        · exact hlock.symm
        · exact hrs r₁ hr₁
  · rcases hm.context_ne hed with h | ⟨-, -, h | ⟨u, h⟩⟩
    · rw [h] at hd ⊢
      exact hP.under hd
    · rw [h] at hd; exact absurd rfl hd
    · rw [h] at hd; exact absurd rfl hd

theorem Paired.moves : Paired s' := by
  refine ⟨fun {u lu} hlu => ?_, hP.under_moves hI hl hm⟩
  by_cases hu : u = t
  · subst hu; exact hP.lock_self hI hl hm hlu
  · exact hP.lock_ne hI hl hm hu hlu

end

/-! ## Runs -/

theorem Stumble.lock {r : ReschedPc Unit Unit} {f : Failure} (hlock : l.preemptLock = r.blocked)
    (h : Stumble seqOps true s t l r f) : f ≠ .block ∧ f ≠ .unblock := by
  cases h with
  | block _ hb => rw [hlock] at hb; cases hb
  | unblock _ hb => rw [hlock] at hb; cases hb
  | _ => exact ⟨nofun, nofun⟩

section

variable (hP : Paired s) (hl : s.sched t = some l)

include hP hl

/-- The assertions of `sched_block_preempt` and `sched_unblock_preempt` hold. -/
theorem Paired.fails {f : Failure} (h : Fails seqOps true s t l a f) : f ≠ .block ∧ f ≠ .unblock := by
  have hlock := hP.lock hl
  cases h with
  | @stride c k i f he hk hsig h =>
    rw [blocked_of_exec he, Context.blocked, hsig] at hlock
    dsimp only at hlock
    generalize (s.context c).pc = pc at h hlock
    cases h with
    | resched h => exact h.lock hlock
    | start _ hb => rw [hlock] at hb; cases hb
    | ret _ hb => rw [hlock] at hb; cases hb
    | suspendBlock _ hb => rw [hlock] at hb; cases hb
    | suspendUnblock _ hb => rw [hlock] at hb; cases hb
    | _ => exact ⟨nofun, nofun⟩
  | handler he hk hsig h =>
    rw [blocked_of_exec he, Context.blocked, hsig] at hlock
    exact h.lock hlock
  | _ => exact ⟨nofun, nofun⟩

/-- A thread has the lock when it restores a context. -/
theorem Paired.restores {i : Input} {x : Cid} (hm : Moves seqOps true s t l (.tick t i) s')
    (hx : s.restores t = some x) : ∃ l', s'.sched t = some l' ∧ l'.exec = .on x ∧
      l'.preemptLock = true := by
  have hlock := hP.lock hl
  -- the switch of `sched_resched` takes the lock
  have hswitch : ∀ {s₁ r'}, Yield seqOps true s t l (.switch x) s₁ r' →
      ∃ l', s₁.sched t = some l' ∧ l'.exec = .on x ∧ l'.preemptLock = true := by
    intro s₁ r' hy
    cases hy with
    | @switch x kx =>
      refine ⟨⟨x, l.eventLoopCoro, true, kx.privateErrno, .on x, l.started⟩, ?_, rfl, rfl⟩
      rw [State.modSched_self]
      have hset : ((s.setPreempt true t true).modCoro l.currentCoro
          ({ · with privateErrno := l.errno })).sched t = some { l with preemptLock := true } := by
        change (s.modSched t ({ · with preemptLock := true })).sched t = _
        rw [State.modSched_self, hl]
        rfl
      rw [hset]
      rfl
  unfold State.restores at hx
  simp only [hl] at hx
  cases hm with
  | @stride c k i _ he hk hsig hst =>
    rw [blocked_of_exec he, Context.blocked, hsig] at hlock
    simp only [he, hsig] at hx
    generalize (s.context c).pc = pc at hst hx hlock
    split at hx
    · cases hx
      cases hst with
      | resched hy =>
        obtain ⟨l', hl', h⟩ := hswitch hy
        exact ⟨l', hl', h⟩
      | flow hf => cases hf
    · next current y ret =>
      split at hx
      · next hb =>
        cases hx
        cases hst with
        | flow hf => cases hf
        | park =>
          refine ⟨{ l with exec := .on x }, ?_, rfl, hlock⟩
          rw [State.modSched_self]
          change (s.sched t).map _ = _
          rw [hl]
          rfl
        | abort hkc hne => rw [hkc] at hb; exact absurd (Option.some.inj hb) hne
      · cases hx
    · cases hx
  | @handler c k r rs s₁ r' he hk hsig hy =>
    simp only [he, hsig] at hx
    split at hx
    · next heq =>
      cases heq
      cases hx
      obtain ⟨l', hl', h⟩ := hswitch hy
      exact ⟨l', hl', h⟩
    · cases hx
    · next heq => cases heq
  | death hdt =>
    have htrue : l.preemptLock = true := by
      rw [hlock]
      unfold State.blocked
      rcases hex : l.exec with c | _ | p | y
      · exact absurd hex hdt.not_on
      all_goals rfl
    generalize hex : l.exec = e at hdt hx
    cases hdt with
    | restore =>
      cases hx
      refine ⟨{ l with currentCoro := x, exec := .on x }, ?_, rfl, htrue⟩
      rw [State.modSched_self, hl]
      rfl
    | _ => cases hx

end

/-- `sched_resched` has the lock free between its enqueue and its switch. -/
theorem Context.blocked_of_yields {x : Context Unit Unit} (h : (x.seat c).Yields) :
    x.blocked = false := by
  have hyield : ∀ {r : ReschedPc Unit Unit}, (r.seat c).Yields → r.blocked = false := by
    intro r h
    cases r with
    | resumed => exact h.elim
    | _ => rfl
  obtain ⟨pc, sig⟩ := x
  cases sig with
  | cons r rs => exact hyield h
  | nil =>
    cases pc with
    | resched r ret => exact hyield h
    | _ => exact h.elim

/-- Handlers that do not come past the assertion of `sched_enqueue_locked` run with the lock free, as
the points under them. -/
theorem Doomed.blocked {ds : Cid → List (ReschedPc Unit Unit)} (hD : Doomed s ds)
    (l : LocalSched Unit) : (s.overlay ds).blocked l = s.blocked l := by
  unfold State.blocked
  rcases l.exec with c | _ | p | x
  · dsimp only
    change Context.blocked ⟨(s.context c).pc, ds c ++ (s.context c).sig⟩ = _
    rcases hc : ds c with _ | ⟨r, rs⟩
    · rfl
    · have hr : r.blocked = false := by
        rcases hD.stuck (c := c) (r := r) (by rw [hc]; exact List.mem_cons_self) with rfl | rfl <;> rfl
      obtain ⟨-, -, -, -, -, hy⟩ := hD.runs (c := c) (by rw [hc]; exact List.cons_ne_nil _ _)
      exact hr.trans (Context.blocked_of_yields hy).symm
  all_goals rfl

theorem Doomed.restores {ds : Cid → List (ReschedPc Unit Unit)} {i : Input} {x : Cid}
    (hD : Doomed s ds) (hx : (s.overlay ds).restores t = some x) :
    Free s ds (.tick t i) ∧ s.restores t = some x := by
  have hfree : Free s ds (.tick t i) := by
    intro l c hl he
    by_contra hc
    have hl : (s.overlay ds).sched t = some l := hl
    obtain ⟨r, rs, hrs⟩ := List.exists_cons_of_ne_nil hc
    have hsig : ((s.overlay ds).context c).sig = r :: (rs ++ (s.context c).sig) := by
      change ds c ++ (s.context c).sig = _
      rw [hrs]
      rfl
    rcases hD.stuck (c := c) (r := r) (by rw [hrs]; exact List.mem_cons_self) with rfl | rfl <;>
      simp [State.restores, hl, he, hsig] at hx
  refine ⟨hfree, ?_⟩
  rw [← hx]
  have hsched : (s.overlay ds).sched t = s.sched t := rfl
  unfold State.restores
  rw [hsched]
  rcases hl : s.sched t with _ | l
  · rfl
  · dsimp only
    rcases he : l.exec with c | _ | p | y
    · have hctx : (s.overlay ds).context c = s.context c := by
        change (⟨(s.context c).pc, ds c ++ (s.context c).sig⟩ : Context Unit Unit) = s.context c
        rw [hfree hl he]
        rfl
      simp only [hctx]
      rfl
    all_goals rfl

/-- What holds of the preemption lock. -/
structure PreemptLockSound (s : SeqState) : Prop where
  /-- the assertions of `sched_block_preempt` and `sched_unblock_preempt` hold -/
  asserts : s.failure ≠ some .block ∧ s.failure ≠ some .unblock
  /-- the lock is taken between `sched_block_preempt` and `sched_unblock_preempt`, up to the return
  from a switch or the start of a coroutine, and nowhere else -/
  points : s.failure = none → ∀ {t l}, s.sched t = some l → l.preemptLock = s.blocked l
  /-- a coroutine is in its own code, or in that of its event loop, with the lock free -/
  own : s.failure = none → ∀ {t l c}, s.sched t = some l → l.exec = .on c →
    s.context c = ⟨.user, []⟩ ∨ (∃ u, s.context c = ⟨.loopTop u, []⟩) → l.preemptLock = false
  /-- a thread has the lock when it restores a context -/
  restores : s.failure = none → ∀ {t i s' x}, step seqOps true s (.tick t i) = some s' →
    s'.failure = none → s.restores t = some x →
    ∃ l', s'.sched t = some l' ∧ l'.exec = .on x ∧ l'.preemptLock = true

section

variable {localSize : Nat} {garbage : Nat → TimerWait} {state errno threadErrno : Int}

theorem seqInit_paired : Paired (seqInit localSize garbage state errno threadErrno) := by
  refine ⟨fun {t l} hl => ?_, fun {c} hc => ?_⟩
  · rw [seqInit_sched] at hl
    split at hl
    · cases hl
      rw [blocked_of_exec rfl, seqInit_context]
      rfl
    · cases hl
  · rw [seqInit_context] at hc
    exact absurd rfl hc

theorem Reach.paired (h : Reach seqOps true (fun s a => Proper s a ∧ Safe s a)
    (seqInit localSize garbage state errno threadErrno) s) (hf : s.failure = none) : Paired s := by
  induction h with
  | init => exact seqInit_paired
  | @next s s' a h hok hs ih =>
    obtain ⟨hf₀, t, l, hl, -, hm⟩ := step_moves seqOps hs hf
    exact (ih hf₀).moves (h.inv hf₀) hl hm

/-- **The preemption lock is taken and given back in pairs**, in every run of the build with
`SCHED_PREEMPTION`, with signals at any point. -/
theorem preempt_lock_paired
    (h : Reach seqOps true Proper (seqInit localSize garbage state errno threadErrno) s) :
    PreemptLockSound s := by
  rcases h.shadow id (fun _ (hok : Proper _ _) => hok) with ⟨s₀, ds, hR, hD, rfl⟩ | hfail
  · have hpoints : s₀.failure = none → ∀ {t l}, s₀.sched t = some l →
        l.preemptLock = (s₀.overlay ds).blocked l := fun hf {t l} hl => by
      rw [(hD hf).blocked l]
      exact (hR.paired hf).lock hl
    refine ⟨?_, hpoints, fun hf {t l c} hl he hctx => ?_, fun hf {t i s' x} hs hf' hx => ?_⟩
    · -- the last step has failed
      have hno : ∀ {f}, s₀.failure = some f → f ≠ .block ∧ f ≠ .unblock := by
        intro f hf
        cases hR with
        | init => cases hf
        | next hR hok hs =>
          obtain ⟨hf₀, t, l, hl, -, hfails⟩ := step_fails seqOps hs hf
          exact (hR.paired hf₀).fails hl hfails
      exact ⟨fun hf => (hno hf).1 rfl, fun hf => (hno hf).2 rfl⟩
    · rw [hpoints hf hl, blocked_of_exec he]
      rcases hctx with hctx | ⟨u, hctx⟩ <;> rw [hctx] <;> rfl
    · obtain ⟨hfree, hx⟩ := (hD hf).restores (i := i) hx
      have hI := hR.inv hf
      have hnew : ds s₀.coros = [] := by
        by_contra hne
        obtain ⟨u, lu, hlu, -, he, -⟩ := (hD hf).runs hne
        exact hI.exec_ne_coros hlu he rfl
      rw [overlay_step seqOps true s₀ t i hnew hfree] at hs
      obtain ⟨s₁, hs₁, rfl⟩ := Option.map_eq_some_iff.1 hs
      obtain ⟨-, u, lu, hlu, -, hm⟩ := step_moves seqOps hs₁ hf'
      obtain rfl : t = u := by cases hm <;> rfl
      obtain ⟨l', hl', h⟩ := (hR.paired hf).restores hlu hm hx
      exact ⟨l', hl', h⟩
  · refine ⟨by rw [hfail]; exact ⟨nofun, nofun⟩, ?_, ?_, ?_⟩ <;>
      · intro hf
        rw [hfail] at hf
        cases hf

end

end

/-- A signal comes while the main coroutine is in its own code; its handler is about to switch to the
event loop. -/
def signalInUser : List Act := .signal 0 :: List.replicate 4 (.tick 0 .step)

theorem preempt_lock_paired_signal :
    ∃ s, run seqOps true (fun _ => Act.leavesAsleep) seqStart signalInUser = some s ∧
      s.failure = none ∧ s.restores 0 = some 1 ∧ PreemptLockSound s := by
  obtain ⟨s, hr, hf, hx⟩ :
      ∃ s, run seqOps true (fun _ => Act.leavesAsleep) seqStart signalInUser = some s ∧
        s.failure = none ∧ s.restores 0 = some 1 := ⟨_, rfl, rfl, rfl⟩
  exact ⟨s, hr, hf, hx, preempt_lock_paired (Reach.run hr Act.leavesAsleep.proper .init)⟩

end Lwthread.Scheduler
