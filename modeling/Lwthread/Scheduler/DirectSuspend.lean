import Lwthread.Scheduler.Doomed
import Lwthread.Scheduler.Handover

/-!
# Calls of `sched_suspend` by user code

`sched_wait` and `sched_event_wait` set the state of their coroutine to `BLOCKING` before they call
`sched_suspend`, and the exchange there puts the coroutine to sleep only from `BLOCKING`. User code
that calls `sched_suspend` has no way to do so. It finds the state that the last wake-up or the start
has left, the exchange fails, and the call returns at once (`suspend_returns_unwoken`), where it should
suspend the coroutine until it is scheduled.

`noteWake` notes along a run which coroutines `sched_schedule` has been called with since they started,
returned from a wait or were put to sleep, the calls of `sched_suspend` that have put a coroutine to
sleep, and the enqueues by `sched_schedule` since then. Where the exchange of a call fails only for a
coroutine that was woken before, the calls do what they should (`suspend_until_scheduled`).
-/

namespace Lwthread.Scheduler

open Lwthread.Util Lwthread.Platform Custody

variable {preemption : Bool} {s s' : SeqState} {t u : Tid} {l : LocalSched Unit} {c d x : Cid}
  {a : Act} {i : Input}

/-! ## What is noted along a run -/

/-- A return of a call of `sched_suspend` by user code: whether its coroutine had been woken, whether
the call had put it to sleep, and how often `sched_schedule` has enqueued it since. -/
structure SuspendReturn where
  coro : Cid
  woken : Bool
  parked : Bool
  pushes : Nat
  deriving DecidableEq

/-- `missed` tells that the exchange of such a call has failed and its coroutine had not been woken. -/
structure WakeLog where
  woken : Cid → Bool
  parked : Cid → Bool
  pushes : Cid → Nat
  returns : List SuspendReturn
  missed : Bool

def WakeLog.empty : WakeLog := ⟨fun _ => false, fun _ => false, fun _ => 0, [], false⟩

@[simp] def SuspendRet.isUser : SuspendRet → Bool
  | .user => true
  | _ => false

/-- What is noted of a step of the code of `c`, by its point. -/
def Pc.noteWake (s : SeqState) (c : Cid) (n : WakeLog) : Pc Unit Unit → WakeLog
  | .trampoline => { n with woken := Function.update n.woken c false }
  | .scheduleXchg x _ => { n with woken := Function.update n.woken x true }
  | .scheduleEnqueue x (.push _) _ =>
    { n with pushes := Function.update n.pushes x (n.pushes x + 1) }
  | .suspendBlock _ => { n with parked := Function.update n.parked c false }
  | .suspendCmpxchg current _ ret =>
    if (s.coro current).map (·.state) = some STATE_BLOCKING then
      { n with
        woken := Function.update n.woken c false
        parked := Function.update n.parked c true
        pushes := Function.update n.pushes c 0 }
    else { n with missed := n.missed || ret.isUser && !n.woken c }
  | .suspendUnblock .user =>
    { n with
      woken := Function.update n.woken c false
      returns := ⟨c, n.woken c, n.parked c, n.pushes c⟩ :: n.returns }
  | .suspendUnblock .wait => { n with woken := Function.update n.woken c false }
  | .eventUnregister _ => { n with woken := Function.update n.woken c false }
  | _ => n

def noteWake (s : SeqState) (a : Act) (n : WakeLog) : WakeLog :=
  match a with
  | .signal _ => n
  | .tick t _ =>
    match s.running t with
    | some (c, pc) => pc.noteWake s c n
    | none => n

variable {n : WakeLog}

theorem noteWake_aside (h : Aside s a) : noteWake s a n = n := by
  cases a with
  | signal => rfl
  | tick t i => simp only [noteWake, h t i rfl]

theorem noteWake_overlay {ds : Cid → List (ReschedPc Unit Unit)} (hfree : Free s ds a) :
    noteWake (s.overlay ds) a n = noteWake s a n := by
  cases a with
  | signal => rfl
  | tick t i =>
    have hrun : (s.overlay ds).running t = s.running t := running_overlay hfree
    simp only [noteWake, hrun]
    rfl

theorem noteWake_stride (hl : s.sched t = some l) (he : l.exec = .on c)
    (hsig : (s.context c).sig = []) :
    noteWake s (.tick t i) n = (s.context c).pc.noteWake s c n := by
  have hrun : s.running t = some (c, (s.context c).pc) := by
    simp [State.running, hl, he, hsig]
  simp only [noteWake, hrun]

/-! What a step of `d` notes of another coroutine: it may wake or enqueue it. -/

section

variable (pc : Pc Unit Unit)

theorem Pc.noteWake_missed (h : (pc.noteWake s d n).missed = false) : n.missed = false := by
  cases pc with
  | suspendCmpxchg =>
    simp only [Pc.noteWake] at h
    split at h
    · exact h
    · exact (Bool.or_eq_false_iff.1 h).1
  | suspendUnblock ret => cases ret <;> exact h
  | scheduleEnqueue _ p => cases p <;> exact h
  | _ => exact h

theorem Pc.noteWake_parked (hc : c ≠ d) : (pc.noteWake s d n).parked c = n.parked c := by
  cases pc with
  | suspendBlock => exact Function.update_of_ne hc _ _
  | suspendCmpxchg =>
    simp only [Pc.noteWake]
    split
    · exact Function.update_of_ne hc _ _
    · rfl
  | suspendUnblock ret => cases ret <;> rfl
  | scheduleEnqueue _ p => cases p <;> rfl
  | _ => rfl

theorem Pc.noteWake_woken (hc : c ≠ d) :
    (pc.noteWake s d n).woken c = n.woken c ∨
      ∃ ret, pc = .scheduleXchg c ret ∧ (pc.noteWake s d n).woken c = true := by
  have hne : ∀ b, Function.update n.woken d b c = n.woken c := fun b =>
    Function.update_of_ne hc _ _
  cases pc with
  | trampoline => exact .inl (hne false)
  | scheduleXchg x ret =>
    by_cases hx : c = x
    · subst hx
      exact .inr ⟨ret, rfl, Function.update_self _ _ _⟩
    · exact .inl (Function.update_of_ne hx _ _)
  | suspendCmpxchg =>
    simp only [Pc.noteWake]
    split
    · exact .inl (hne false)
    · exact .inl rfl
  | suspendUnblock ret =>
    cases ret with
    | eventWait => exact .inl rfl
    | _ => exact .inl (hne false)
  | eventUnregister => exact .inl (hne false)
  | scheduleEnqueue _ p => cases p <;> exact .inl rfl
  | _ => exact .inl rfl

theorem Pc.noteWake_stays (hc : c ≠ d) (h : n.woken c = true) :
    (pc.noteWake s d n).woken c = true := by
  rcases pc.noteWake_woken (s := s) (n := n) hc with hw | ⟨-, -, hw⟩
  · exact hw.trans h
  · exact hw

theorem Pc.noteWake_pushes (hc : c ≠ d) :
    (pc.noteWake s d n).pushes c = n.pushes c ∨
      ∃ p ret, pc = .scheduleEnqueue c (.push p) ret ∧
        (pc.noteWake s d n).pushes c = n.pushes c + 1 := by
  cases pc with
  | suspendCmpxchg =>
    simp only [Pc.noteWake]
    split
    · exact .inl (Function.update_of_ne hc _ _)
    · exact .inl rfl
  | suspendUnblock ret => cases ret <;> exact .inl rfl
  | scheduleEnqueue x p ret =>
    cases p with
    | assert => exact .inl rfl
    | push p =>
      by_cases hx : c = x
      · subst hx
        exact .inr ⟨p, ret, rfl, Function.update_self _ _ _⟩
      · exact .inl (Function.update_of_ne hx _ _)
  | _ => exact .inl rfl

theorem Pc.noteWake_returns :
    (pc.noteWake s d n).returns = n.returns ∨ pc = .suspendUnblock .user ∧
      (pc.noteWake s d n).returns = ⟨d, n.woken d, n.parked d, n.pushes d⟩ :: n.returns := by
  cases pc with
  | suspendCmpxchg =>
    simp only [Pc.noteWake]
    split <;> exact .inl rfl
  | suspendUnblock ret =>
    cases ret with
    | user => exact .inr ⟨rfl, rfl⟩
    | _ => exact .inl rfl
  | scheduleEnqueue _ p => cases p <;> exact .inl rfl
  | _ => exact .inl rfl

end

/-! ## Coroutines that have not started -/

/-- A coroutine that its maker has not passed on is at its start. -/
def Trampolined (s : SeqState) : Prop :=
  ∀ {x p}, x ∈ (s.context p).pc.fresh → (s.context x).pc = .trampoline

theorem Flow.fresh {pc pc' : Pc Unit Unit} (hf : Flow seqOps s i pc pc') : pc'.fresh ≤ pc.fresh := by
  cases hf with
  | timersNone => rw [(afterTimers_plain 0 _ _).fresh]; exact Multiset.zero_le _
  | _ => exact le_rfl

/-- What `c` has made it had made before, or makes it now. -/
theorem Stride.fresh (hcc : c ≠ s.coros)
    (hst : Stride seqOps preemption s t l c i (s.context c).pc s')
    (hx : x ∈ (s'.context c).pc.fresh) :
    x ∈ (s.context c).pc.fresh ∨ (s'.context x).pc = .trampoline := by
  generalize hpc : (s.context c).pc = pc at hst
  have hnone : ∀ {s₀ : SeqState} {pc' : Pc Unit Unit}, s' = s₀.goto c pc' → pc'.fresh = 0 →
      x ∈ pc.fresh ∨ (s'.context x).pc = .trampoline := by
    rintro s₀ pc' rfl hzero
    rw [State.goto_pc, hzero] at hx
    exact absurd hx (Multiset.notMem_zero x)
  cases hst with
  | flow hf =>
    rw [State.goto_pc] at hx
    exact .inl (Multiset.mem_of_le hf.fresh hx)
  | newCoroutine =>
    rw [State.goto_pc] at hx
    obtain rfl := Multiset.mem_singleton.1 hx
    refine .inr ?_
    rw [State.goto_ne _ _ hcc.symm]
    simp [schedMakeCoro]
  | fetchAdd =>
    rw [State.goto_pc] at hx
    split at hx <;> exact .inl hx
  | @resched r ret s₁ r' =>
    refine hnone rfl ?_
    cases r' with
    | none => cases ret <;> rfl
    | some => rfl
  | @trampoline _ start => cases start <;> exact hnone rfl rfl
  | setErrno => exact .inl (hpc ▸ hx)
  | ret =>
    rw [State.modSched_context, State.setPreempt_context, hpc] at hx
    exact .inl hx
  | park =>
    rw [State.modSched_context, State.goto_pc] at hx
    exact .inl hx
  | eintr => exact .inl (hpc ▸ hx)
  | @suspendUnblock ret => cases ret <;> exact hnone rfl rfl
  | @rouse _ ret => cases ret <;> exact hnone rfl rfl
  | @schedulePushed _ _ ret => cases ret <;> exact hnone rfl rfl
  | timersMin => refine hnone rfl ?_; split <;> rfl
  | timersUnlock =>
    refine hnone rfl ?_
    split
    · rfl
    · exact (afterTimers_plain 0 _ _).fresh
  | _ => exact hnone rfl rfl

section

variable (hI : Inv preemption s) (hl : s.sched t = some l)
  (hm : Moves seqOps preemption s t l a s')

include hI hl hm

theorem Trampolined.moves (hT : Trampolined s) : Trampolined s' := by
  intro x p hx
  -- a coroutine that was there has not moved
  have hold : x ∈ (s.context p).pc.fresh → (s'.context x).pc = .trampoline := by
    intro hx
    have hown : x ∈ own s (.fresh p) := hx
    have hne : l.exec ≠ .on x := by
      intro he
      cases hI.kept.excl.inj hown (hI.own_of_runs hl (.inl he))
    have hxc : x ≠ s.coros := by
      rintro rfl
      exact lt_irrefl _ (hI.kept.known (.inr (hI.kept.live ⟨_, hown⟩)))
    rw [(hm.context_ne hne).eq hxc]
    exact hT hx
  rcases hm.stride_or_apart hl with ⟨c, k, i, rfl, he, -, hsig, hst⟩ | hA
  · by_cases hp : p = c
    · subst hp
      rcases hst.fresh (hI.exec_ne_coros hl he) hx with hx | hx
      · exact hold hx
      · exact hx
    · have hne : l.exec ≠ .on p := fun h => hp (Exec.on.inj (h.symm.trans he))
      have hown : x ∈ own s' (.fresh p) := hx
      rw [(hm.own_hands hI hne).1] at hown
      exact hold hown
  · rw [hA.pc] at hx
    exact hold hx

end

/-! ## Coroutines at rest -/

/-- A coroutine that `sched_suspend` has put to sleep: it is asleep, or about to be enqueued by a
`sched_schedule` that has found it so, or it has been enqueued, once. -/
inductive Rest (s : SeqState) (n : WakeLog) (c : Cid) : Prop
  | asleep (hlive : s.coro c ≠ none) (hheld : ¬Held (own s) c) (hw : n.woken c = false)
      (hp : n.pushes c = 0)
  | waking {d p ret} (hd : (s.context d).pc = .scheduleEnqueue c p ret) (hw : n.woken c = true)
      (hp : n.pushes c = 0)
  | awake (hheld : Held (own s) c)
      (hno : ∀ d p ret, (s.context d).pc ≠ .scheduleEnqueue c p ret) (hw : n.woken c = true)
      (hp : n.pushes c = 1)

theorem State.modCoro_live {f : Coroutine → Coroutine} (h : s.coro c ≠ none) :
    (s.modCoro x f).coro c ≠ none := by
  by_cases hx : c = x
  · subst hx
    simpa [State.modCoro] using h
  · simpa [State.modCoro, hx] using h

/-- A step of a coroutine's code frees nothing. -/
theorem Stride.live {pc : Pc Unit Unit} (hst : Stride seqOps preemption s t l d i pc s')
    (h : s.coro c ≠ none) : s'.coro c ≠ none := by
  have hset : ∀ b, (s.setPreempt preemption t b).coro c ≠ none := fun b => by
    rw [setPreempt_coro]
    exact h
  have hnew : ∀ {k}, Function.update s.coro s.coros (some k) c ≠ none := by
    intro k
    by_cases hc : c = s.coros
    · subst hc
      rw [Function.update_self]
      exact nofun
    · rw [Function.update_of_ne hc]
      exact h
  cases hst with
  | resched hy =>
    cases hy with
    | switch => exact State.modCoro_live (hset true)
    | resumed => exact hset false
    | _ => exact h
  | trampoline => exact hset false
  | ret => exact hset true
  | suspendBlock => exact hset true
  | suspendUnblock => exact hset false
  | newCoroutine => exact hnew
  | wait => exact State.modCoro_live h
  | eventWait => exact State.modCoro_live h
  | suspendTake => exact State.modCoro_live h
  | park => exact State.modCoro_live h
  | rouse => exact State.modCoro_live h
  | wake => exact State.modCoro_live h
  | newLocal => exact State.modCoro_live hnew
  | _ => exact h

section

variable (hI : Inv preemption s) (hl : s.sched t = some l) (hrun : l.started = true)
  (hsafe : Safe s a) (hm : Moves seqOps preemption s t l a s')

include hI hl in
/-- `free_coro` does not free a coroutine past the exchange of `sched_suspend`. -/
theorem Inv.unblock_ne_freed {ret : SuspendRet} (he : l.exec = .free)
    (hpc : (s.context c).pc = .suspendUnblock ret) : c ≠ l.currentCoro := by
  rintro rfl
  have hsit := hI.control.sits hl
  simp only [Sits, he] at hsit
  rw [hsit.2.1] at hpc
  cases hpc

include hI hl hrun hsafe hm

/-- A coroutine past the exchange of `sched_suspend` is kept after a step if it was before, or is woken
by it. -/
theorem Moves.held_unblock {ret : SuspendRet} (hpc : (s.context c).pc = .suspendUnblock ret) :
    (Held (own s') c ↔ Held (own s) c) ∨
      ∃ d ret' st, l.exec = .on d ∧ s.context d = ⟨.scheduleXchg c ret', []⟩ ∧
        s.word c = some (STATE_BLOCKED, st) ∧ s'.word c = some (STATE_RUNNABLE, st) := by
  rcases hm.hands hI hl hrun hsafe with
    h | h | @⟨d, y, ret', st, he, hctx, hw, hw', h⟩ | @⟨d, y, ret', he, hctx, -, h⟩ | ⟨he, -, h⟩
  · exact .inl (h c)
  · have hne : c ≠ s.coros := by
      rintro rfl
      rw [hI.control.blank le_rfl] at hpc
      cases hpc
    exact .inl (by rw [h, or_iff_left hne])
  · by_cases hy : c = y
    · subst hy
      exact .inr ⟨d, ret', st, he, hctx, hw, hw'⟩
    · exact .inl (by rw [h, or_iff_left hy])
  · have hne : c ≠ d := by
      rintro rfl
      rw [hctx] at hpc
      cases hpc
    exact .inl (by rw [h, and_iff_left hne])
  · exact .inl (by rw [h, and_iff_left (hI.unblock_ne_freed hl he hpc)])

end

/-- A coroutine comes to an enqueue in `sched_schedule` from its exchange only. -/
theorem Stride.enqueuer {p : EnqPc Unit} {ret : ScheduleRet}
    (hst : Stride seqOps preemption s t l d i (s.context d).pc s')
    (hpc' : (s'.context d).pc = .scheduleEnqueue x p ret) :
    (∃ p', (s.context d).pc = .scheduleEnqueue x p' ret) ∨
      (s.context d).pc = .scheduleXchg x ret ∧ ∃ st, s.word x = some (STATE_BLOCKED, st) := by
  generalize hpc : (s.context d).pc = pc at hst
  have hgo : ∀ {s₀ : SeqState} {pc' : Pc Unit Unit}, s' = s₀.goto d pc' →
      pc' = .scheduleEnqueue x p ret := by
    rintro s₀ pc' rfl
    rw [State.goto_pc] at hpc'
    exact hpc'
  cases hst with
  | @wake y ret' k hk hb =>
    cases hgo rfl
    exact .inr ⟨rfl, k.start, by rw [State.word_of_coro s hk, hb]⟩
  | schedulePush hq => rw [seqOps_push] at hq; cases hq
  | flow hf =>
    have h := hgo rfl
    cases hf with
    | scheduleAssert => cases h; exact .inl ⟨_, rfl⟩
    | timersNone =>
      unfold afterTimers at h
      split at h <;> cases h
    | _ => cases h
  | @resched r ret' s₁ r' =>
    have h := hgo rfl
    cases r' with
    | none => cases ret' <;> cases h
    | some => cases h
  | @trampoline _ start => have h := hgo rfl; cases start <;> cases h
  | setErrno => rw [State.modSched_context, hpc] at hpc'; cases hpc'
  | ret => rw [State.modSched_context, State.setPreempt_context, hpc] at hpc'; cases hpc'
  | park => rw [State.modSched_context, State.goto_pc] at hpc'; cases hpc'
  | eintr => rw [hpc] at hpc'; cases hpc'
  | @suspendUnblock ret' => have h := hgo rfl; cases ret' <;> cases h
  | @rouse _ ret' => have h := hgo rfl; cases ret' <;> cases h
  | @schedulePushed _ _ ret' => have h := hgo rfl; cases ret' <;> cases h
  | fetchAdd => have h := hgo rfl; split at h <;> cases h
  | timersMin => have h := hgo rfl; split at h <;> cases h
  | timersUnlock =>
    have h := hgo rfl
    unfold afterTimers at h
    split at h
    · cases h
    · split at h <;> cases h
  | _ => cases hgo rfl

section

variable (hI : Inv preemption s)

include hI

/-- No exchange finds a coroutine `BLOCKED` that somebody keeps and that has started. -/
theorem Trampolined.not_woken (hT : Trampolined s) {ret : ScheduleRet} {st : Option Start}
    (hheld : Held (own s) c) (hstart : (s.context c).pc ≠ .trampoline)
    (hd : (s.context d).pc = .scheduleXchg c ret) (hw : s.word c = some (STATE_BLOCKED, st)) :
    False := by
  obtain ⟨h, hc⟩ := hheld
  by_cases hret : ret = .newCoroutine
  · refine hstart (hT (p := d) ?_)
    rw [hd, hret]
    exact Multiset.mem_singleton_self c
  · have hhand : s.Handled c := by
      refine .point (c := d) ?_
      rw [hd]
      cases ret with
      | newCoroutine => exact absurd rfl hret
      | _ => exact List.mem_singleton_self c
    obtain ⟨p, rfl⟩ := hI.kept.awake (.inr hhand) hw rfl hc
    exact hstart (hT hc)

theorem Inv.enqueuer_inj {p p' : EnqPc Unit} {ret ret' : ScheduleRet} {d' : Cid}
    (hd : (s.context d).pc = .scheduleEnqueue c p ret)
    (hd' : (s.context d').pc = .scheduleEnqueue c p' ret') : d = d' := by
  have hmem : ∀ {e p ret}, (s.context e).pc = .scheduleEnqueue c p ret → c ∈ own s (.woken e) := by
    intro e p ret he
    rw [own, he]
    exact Multiset.mem_singleton_self c
  exact Holder.woken.inj (hI.kept.excl.inj (hmem hd) (hmem hd'))

end

section

variable (hI : Inv preemption s) (hT : Trampolined s) (hl : s.sched t = some l)
  (hrun : l.started = true) (hsafe : Safe s a) (hm : Moves seqOps preemption s t l a s')
  {ret : SuspendRet} (hpc : (s.context c).pc = .suspendUnblock ret)

include hI hT hl hrun hsafe hm hpc

/-- A coroutine that somebody keeps is still kept. -/
theorem Moves.held_stays (hheld : Held (own s) c) : Held (own s') c := by
  rcases hm.held_unblock hI hl hrun hsafe hpc with h | ⟨d, ret', st, -, hctx, hw, -⟩
  · exact h.2 hheld
  · exact (hT.not_woken hI hheld (by rw [hpc]; exact nofun) (by rw [hctx]) hw).elim

/-- A step that is not one of the code of a coroutine. -/
theorem Rest.apart (hA : Apart s s' l a) (hR : Rest s n c) : Rest s' n c := by
  cases hR with
  | asleep hlive hheld hw hp =>
    have hword : s'.word c = s.word c := by
      rcases hA.word c with h | ⟨h, hcur⟩
      · exact h
      · exact absurd hcur (hI.unblock_ne_freed hl h hpc)
    rcases hm.held_unblock hI hl hrun hsafe hpc with h | ⟨d, ret', st, he, -, hold, hnew⟩
    · refine .asleep (fun hdead => hlive ?_) (fun hh => hheld (h.1 hh)) hw hp
      have hnone : s.word c = none := by rw [← hword, State.word, hdead]; rfl
      exact Option.map_eq_none_iff.1 hnone
    · rw [hword, hold] at hnew
      cases hnew
  | waking hd hw hp => exact .waking (by rw [hA.pc]; exact hd) hw hp
  | awake hheld hno hw hp =>
    refine .awake (hm.held_stays hI hT hl hrun hsafe hpc hheld) (fun d p ret => ?_) hw hp
    rw [hA.pc]
    exact hno d p ret

/-- A step of the code of another coroutine. -/
theorem Rest.stride (he : l.exec = .on d) (hcd : c ≠ d)
    (hst : Stride seqOps preemption s t l d i (s.context d).pc s') (hR : Rest s n c) :
    Rest s' ((s.context d).pc.noteWake s d n) c := by
  have hother : ∀ {e p ret}, e ≠ d → (s.context e).pc = .scheduleEnqueue c p ret →
      (s'.context e).pc = .scheduleEnqueue c p ret := by
    intro e p ret hed hpe
    have hne : l.exec ≠ .on e := fun h => hed (Exec.on.inj (h.symm.trans he))
    have hnew : e ≠ s.coros := by
      rintro rfl
      rw [hI.control.blank le_rfl] at hpe
      cases hpe
    rw [(hm.context_ne hne).eq hnew]
    exact hpe
  have hback : ∀ {e p ret}, e ≠ d → (s'.context e).pc = .scheduleEnqueue c p ret →
      (s.context e).pc = .scheduleEnqueue c p ret := by
    intro e p ret hed hpe
    have hne : l.exec ≠ .on e := fun h => hed (Exec.on.inj (h.symm.trans he))
    rcases hm.context_ne hne with h | ⟨-, -, h | ⟨u, h⟩⟩
    · rw [← h]; exact hpe
    · rw [h] at hpe; cases hpe
    · rw [h] at hpe; cases hpe
  have hheld_of : ∀ {p ret}, (s.context d).pc = .scheduleEnqueue c p ret → Held (own s) c := by
    intro p ret hpd
    refine ⟨.woken d, ?_⟩
    rw [own, hpd]
    exact Multiset.mem_singleton_self c
  cases hR with
  | asleep hlive hheld hw hp =>
    have hp' : ((s.context d).pc.noteWake s d n).pushes c = 0 := by
      rcases Pc.noteWake_pushes (s := s) (n := n) (s.context d).pc hcd with h | ⟨p, ret', hpd, -⟩
      · exact h.trans hp
      · exact absurd (hheld_of hpd) hheld
    rcases Pc.noteWake_woken (s := s) (n := n) (s.context d).pc hcd with h | ⟨ret', hpd, hwoken⟩
    · rcases hm.held_unblock hI hl hrun hsafe hpc with h' | ⟨d', ret', st, he', hctx, -, -⟩
      · exact .asleep (hst.live hlive) (fun hh => hheld (h'.1 hh)) (h.trans hw) hp'
      · -- an exchange is noted
        obtain rfl : d' = d := Exec.on.inj (he'.symm.trans he)
        rw [hctx] at h
        rw [← h] at hw
        rw [show (Pc.noteWake s d' n (.scheduleXchg c ret')).woken c = true from
          Function.update_self _ _ _] at hw
        cases hw
    · -- the exchange finds it asleep
      rw [hpd] at hst hp' hwoken ⊢
      cases hst with
      | @rouse _ _ k hk hb =>
        exact absurd (hI.kept.off (State.word_of_coro s hk) hheld) hb
      | wake => exact .waking (State.goto_pc _ _) hwoken hp'
      | flow hf => cases hf
  | @waking e p ret' hpe hw hp =>
    by_cases hed : e = d
    · subst hed
      rw [hpe] at hst ⊢
      cases hst with
      | flow hf =>
        cases hf
        exact .waking (State.goto_pc _ _) hw hp
      | schedulePush hq => rw [seqOps_push] at hq; cases hq
      | @schedulePushed _ p₀ _ q =>
        refine .awake (hm.held_stays hI hT hl hrun hsafe hpc (hheld_of hpe)) (fun e' p' ret₁ hpe' => ?_)
          hw ?_
        · by_cases he' : e' = e
          · subst he'
            rw [State.goto_pc] at hpe'
            cases ret' <;> cases hpe'
          · exact he' (hI.enqueuer_inj (hback he' hpe') hpe)
        · exact (Function.update_self _ _ _).trans (by rw [hp])
    · refine .waking (hother hed hpe) (Pc.noteWake_stays _ hcd hw) ?_
      rcases Pc.noteWake_pushes (s := s) (n := n) (s.context d).pc hcd with h | ⟨p', ret₁, hpd, -⟩
      · exact h.trans hp
      · exact absurd (hI.enqueuer_inj hpe hpd) hed
  | awake hheld hno hw hp =>
    refine .awake (hm.held_stays hI hT hl hrun hsafe hpc hheld) (fun e p ret₁ hpe => ?_)
      (Pc.noteWake_stays _ hcd hw) ?_
    · by_cases hed : e = d
      · subst hed
        rcases hst.enqueuer hpe with ⟨p', h⟩ | ⟨hx, st, hword⟩
        · exact hno _ _ _ h
        · exact hT.not_woken hI hheld (by rw [hpc]; rintro ⟨⟩) hx hword
      · exact hno _ _ _ (hback hed hpe)
    · rcases Pc.noteWake_pushes (s := s) (n := n) (s.context d).pc hcd with h | ⟨p', ret₁, hpd, -⟩
      · exact h.trans hp
      · exact absurd hpd (hno _ _ _)

end

/-! ## The invariant -/

/-- What is noted of a coroutine at a point of `sched_suspend`. -/
def Slept (s : SeqState) (n : WakeLog) (c : Cid) : Pc Unit Unit → Prop
  | .suspendDequeue _ _ _ => n.parked c = false
  | .suspendCmpxchg _ _ _ => n.parked c = false
  | .suspendEnqueue _ _ ret => n.parked c = false ∧ (ret = .user → n.woken c = true)
  | .suspendUnblock ret =>
    n.parked c = true ∧ Rest s n c ∨ n.parked c = false ∧ (ret = .user → n.woken c = true)
  | _ => True

theorem Slept.of_not_inSuspend {pc : Pc Unit Unit} (h : ¬pc.InSuspend) : Slept s n c pc := by
  cases pc with
  | suspendDequeue => exact absurd trivial h
  | suspendCmpxchg => exact absurd trivial h
  | suspendEnqueue => exact absurd trivial h
  | suspendUnblock => exact absurd trivial h
  | _ => trivial

/-- What is noted along a run in which no exchange was missed. -/
structure Dutiful (s : SeqState) (n : WakeLog) : Prop where
  trampolined : Trampolined s
  slept : ∀ c, Slept s n c (s.context c).pc
  returned : ∀ r ∈ n.returns, r.woken = true ∧ (r.parked = true → r.pushes = 1)

section

variable (hI : Inv preemption s) (hl : s.sched t = some l)

include hI hl

/-- A coroutine that a thread executes has been enqueued once since it was put to sleep. -/
theorem Rest.executed (he : l.exec = .on c) (hR : Rest s n c) :
    n.woken c = true ∧ n.pushes c = 1 := by
  have hown := hI.own_of_runs hl (.inl he)
  cases hR with
  | asleep _ hheld => exact absurd ⟨_, hown⟩ hheld
  | @waking d p ret hd =>
    have hmem : c ∈ own s (.woken d) := by
      rw [own, hd]
      exact Multiset.mem_singleton_self c
    cases hI.kept.excl.inj hown hmem
  | awake _ _ hw hp => exact ⟨hw, hp⟩

/-- A step of the code of `c` inside `sched_suspend`. -/
theorem Dutiful.self (hD : Dutiful s n) (he : l.exec = .on c) (hsig : (s.context c).sig = [])
    (hm : Moves seqOps preemption s t l a s')
    (hst : Stride seqOps preemption s t l c i (s.context c).pc s')
    (hmiss : ((s.context c).pc.noteWake s c n).missed = false) :
    Slept s' ((s.context c).pc.noteWake s c n) c (s'.context c).pc := by
  by_cases hin : (s'.context c).pc.InSuspend
  · have hslept := hD.slept c
    have hnamed := (hI.control.named c).1
    have hstep := hst.suspends rfl hin
    generalize hpc : (s.context c).pc = pc at hstep hslept hnamed hmiss ⊢
    cases hstep with
    | block =>
      rw [State.goto_pc]
      exact Function.update_self _ _ _
    | take =>
      rw [State.goto_pc]
      exact hslept
    | @park current x ret k hk hb =>
      obtain rfl := hnamed
      have hctx : s.context current = ⟨.suspendCmpxchg current x ret, []⟩ := by rw [← hpc, ← hsig]
      have hctx' : (((s.modCoro current ({ · with state := STATE_BLOCKED })).goto current
          (.suspendUnblock ret)).modSched t ({ · with exec := .on x })).context current =
          ⟨.suspendUnblock ret, []⟩ := by
        simp [State.goto, State.modSched, State.modCoro, hctx]
      have hnote : (Pc.suspendCmpxchg current x ret).noteWake s current n =
          { n with
            woken := Function.update n.woken current false
            parked := Function.update n.parked current true
            pushes := Function.update n.pushes current 0 } := by
        simp only [Pc.noteWake, hk, Option.map_some, hb, if_true]
      have hheld := hm.held_park hI hl he hctx hctx' ((State.modSched_self _).trans (congrArg _ hl)) rfl
        rfl rfl current
      rw [hctx', hnote]
      have hlive : s.coro current ≠ none := by
        rw [hk]
        exact Option.some_ne_none k
      refine .inl ⟨Function.update_self _ _ _,
        .asleep (State.modCoro_live hlive) (fun h => (hheld.1 h).2 rfl) ?_ ?_⟩
      · exact Function.update_self _ _ _
      · exact Function.update_self _ _ _
    | @abort current x ret k hk hb =>
      obtain rfl := hnamed
      have hnote : (Pc.suspendCmpxchg current x ret).noteWake s current n =
          { n with missed := n.missed || ret.isUser && !n.woken current } := by
        simp only [Pc.noteWake, hk, Option.map_some, Option.some.injEq, hb, if_false]
      rw [hnote] at hmiss ⊢
      rw [State.goto_pc]
      refine ⟨hslept, ?_⟩
      rintro rfl
      have hmiss := (Bool.or_eq_false_iff.1 hmiss).2
      simpa using hmiss
    | assert =>
      rw [State.goto_pc]
      exact hslept
    | pushed =>
      rw [State.goto_pc]
      exact .inr hslept
  · exact Slept.of_not_inSuspend hin

theorem Dutiful.moves (hD : Dutiful s n) (hrun : l.started = true) (hsafe : Safe s a)
    (hm : Moves seqOps preemption s t l a s') (hmiss : (noteWake s a n).missed = false) :
    Dutiful s' (noteWake s a n) := by
  refine ⟨Trampolined.moves hI hl hm hD.trampolined, fun c => ?_, ?_⟩
  · -- the notes of a coroutine that does not take the step
    have hrest : ∀ {n' : WakeLog}, (s'.context c).pc = (s.context c).pc →
        n'.parked c = n.parked c → (n.woken c = true → n'.woken c = true) →
        (∀ ret, (s.context c).pc = .suspendUnblock ret → Rest s n c → Rest s' n' c) →
        Slept s' n' c (s'.context c).pc := by
      intro n' hpc hparked hwoken hrest
      have hslept := hD.slept c
      rw [hpc]
      generalize hpc : (s.context c).pc = pc at hslept hrest
      cases pc with
      | suspendDequeue => exact hparked.trans hslept
      | suspendCmpxchg => exact hparked.trans hslept
      | suspendEnqueue => exact ⟨hparked.trans hslept.1, fun h => hwoken (hslept.2 h)⟩
      | suspendUnblock ret =>
        rcases hslept with ⟨hp, hR⟩ | ⟨hp, hw⟩
        · exact .inl ⟨hparked.trans hp, hrest ret rfl hR⟩
        · exact .inr ⟨hparked.trans hp, fun h => hwoken (hw h)⟩
      | _ => trivial
    rcases hm.stride_or_apart hl with ⟨d, k, i, rfl, he, -, hsig, hst⟩ | hA
    · rw [noteWake_stride hl he hsig] at hmiss ⊢
      by_cases hcd : c = d
      · subst hcd
        exact hD.self hI hl he hsig hm hst hmiss
      · rcases hst.context_ne hcd with h | ⟨-, -, h | ⟨u, h⟩⟩
        · exact hrest (by rw [h]) (Pc.noteWake_parked _ hcd) (Pc.noteWake_stays _ hcd) fun ret hpc hR =>
            hR.stride hI hD.trampolined hl hrun hsafe hm hpc he hcd hst
        · rw [h]; trivial
        · rw [h]; trivial
    · rw [noteWake_aside hA.running]
      exact hrest (hA.pc c) rfl id fun ret hpc hR =>
        hR.apart hI hD.trampolined hl hrun hsafe hm hpc hA
  · rcases hm.stride_or_apart hl with ⟨d, k, i, rfl, he, -, hsig, hst⟩ | hA
    · rw [noteWake_stride hl he hsig]
      rcases Pc.noteWake_returns (s := s) (d := d) (n := n) (s.context d).pc with h | ⟨hpc, h⟩
      · rw [h]
        exact hD.returned
      · rw [h]
        refine List.forall_mem_cons.2 ⟨?_, hD.returned⟩
        have hslept := hD.slept d
        rw [hpc] at hslept
        rcases hslept with ⟨-, hR⟩ | ⟨hp, hw⟩
        · exact ⟨(hR.executed hI hl he).1, fun _ => (hR.executed hI hl he).2⟩
        · exact ⟨hw rfl, fun h => by rw [hp] at h; cases h⟩
    · rw [noteWake_aside hA.running]
      exact hD.returned

end

/-! ## Runs -/

/-- What the calls of `sched_suspend` by user code owe. -/
structure SuspendSound (s : SeqState) (n : WakeLog) : Prop where
  /-- a call returns only after a `sched_schedule` of its coroutine; if it has put the coroutine to
  sleep, that has been enqueued once since -/
  returns : ∀ r ∈ n.returns, r.woken = true ∧ (r.parked = true → r.pushes = 1)
  /-- a coroutine that has not been woken is `BLOCKED`, and neither executed nor on a run list -/
  asleep : ∀ {c}, (s.context c).pc = .suspendUnblock .user → n.woken c = false →
    (s.coro c).map (·.state) = some STATE_BLOCKED ∧ n.pushes c = 0 ∧
      (∀ t l, s.sched t = some l → l.exec ≠ .on c) ∧ ∀ t, c ∉ s.queues.list t
  /-- one that has been put to sleep and woken has been enqueued once, or is about to be enqueued -/
  once : ∀ {c}, (s.context c).pc = .suspendUnblock .user → n.parked c = true → n.woken c = true →
    n.pushes c = 1 ∨
      n.pushes c = 0 ∧ ∃ d p ret, (s.context d).pc = .scheduleEnqueue c p ret

/-- A coroutine that nobody keeps is asleep. -/
theorem Inv.asleep (hI : Inv preemption s) (hlive : s.coro c ≠ none) (hheld : ¬Held (own s) c) :
    (s.coro c).map (·.state) = some STATE_BLOCKED ∧
      (∀ t l, s.sched t = some l → l.exec ≠ .on c) ∧ ∀ t, c ∉ s.queues.list t := by
  obtain ⟨k, hk⟩ := Option.ne_none_iff_exists'.1 hlive
  refine ⟨?_, fun t l hl he => hheld ⟨_, hI.own_of_runs hl (.inl he)⟩, fun t ht => hheld ⟨.thread t, ?_⟩⟩
  · rw [hk]
    exact congrArg some (hI.kept.off (State.word_of_coro s hk) hheld)
  · exact Multiset.mem_add.2 (.inr ht)

theorem Dutiful.sound (hI : Inv preemption s) (hD : Dutiful s n) : SuspendSound s n := by
  refine ⟨hD.returned, fun {c} hpc hw => ?_, fun {c} hpc hp hw => ?_⟩
  · have hslept := hD.slept c
    rw [hpc] at hslept
    rcases hslept with ⟨-, hR⟩ | ⟨-, hwoken⟩
    · cases hR with
      | asleep hlive hheld _ hpushes =>
        obtain ⟨hstate, hoff⟩ := hI.asleep hlive hheld
        exact ⟨hstate, hpushes, hoff⟩
      | waking _ hwoken => rw [hw] at hwoken; cases hwoken
      | awake _ _ hwoken => rw [hw] at hwoken; cases hwoken
    · rw [hwoken rfl] at hw
      cases hw
  · have hslept := hD.slept c
    rw [hpc] at hslept
    rcases hslept with ⟨-, hR⟩ | ⟨hnot, -⟩
    · cases hR with
      | asleep _ _ hnot => rw [hnot] at hw; cases hw
      | waking hd _ hpushes => exact .inr ⟨hpushes, _, _, _, hd⟩
      | awake _ _ _ hpushes => exact .inl hpushes
    · rw [hnot] at hp
      cases hp

section

variable {localSize : Nat} {garbage : Nat → TimerWait} {state errno threadErrno : Int}

theorem noteWake_missed (h : (noteWake s a n).missed = false) : n.missed = false := by
  cases a with
  | signal => exact h
  | tick t i =>
    simp only [noteWake] at h
    split at h
    · exact Pc.noteWake_missed _ h
    · exact h

theorem Noted.dutiful
    (h : Noted seqOps preemption (fun s a => Proper s a ∧ Safe s a) noteWake
      (seqInit localSize garbage state errno threadErrno) .empty s n)
    (hf : s.failure = none) (hmiss : n.missed = false) : Inv preemption s ∧ Dutiful s n := by
  refine ⟨h.reach.inv hf, ?_⟩
  induction h with
  | init =>
    refine ⟨fun {x p} hx => ?_, fun c => ?_, nofun⟩
    · rw [seqInit_context] at hx
      split at hx <;> exact absurd hx (Multiset.notMem_zero x)
    · rw [seqInit_context]
      split <;> trivial
  | next h hok hs ih =>
    obtain ⟨hf₀, t, l, hl, hrun, hm⟩ := step_moves seqOps hs hf
    exact (ih hf₀ (noteWake_missed hmiss)).moves (h.reach.inv hf₀) hl hrun hok.2 hm hmiss

/-- **`sched_suspend` suspends until explicitly rescheduled**, with signals at any point, along every
run in which its exchange fails only for coroutines that have been woken. -/
theorem suspend_until_scheduled
    (h : Noted seqOps preemption Proper noteWake
      (seqInit localSize garbage state errno threadErrno) .empty s n)
    (hf : s.failure = none) (hmiss : n.missed = false) : SuspendSound s n := by
  rcases h.shadow id (fun _ hok => hok) noteWake_overlay noteWake_aside with
    ⟨s₀, ds, hN, -, rfl⟩ | hfail
  · obtain ⟨hI, hD⟩ := hN.dutiful hf hmiss
    have hsound := hD.sound hI
    exact ⟨hsound.returns, hsound.asleep, hsound.once⟩
  · rw [hfail] at hf
    cases hf

end

/-- The main coroutine makes a coroutine and yields; the event loop runs once; the new coroutine
starts. -/
def otherStarts : List Act :=
  let steps (n : Nat) : List Act := List.replicate n (.tick 0 .step)
  .tick 0 (.op .newCoroutine) :: steps 4 ++ [.tick 0 (.op .resched)] ++ steps 7 ++
    [.tick 0 (.epoll (.ready []))] ++ steps 8

/-- The main coroutine, which has called `sched_schedule` on the other, yields; the other calls
`sched_suspend`, returns and yields; the main coroutine calls `sched_suspend`. -/
def bothSuspend : List Act :=
  let steps (n : Nat) : List Act := List.replicate n (.tick 0 .step)
  let yields : List Act :=
    .tick 0 (.op .resched) :: steps 7 ++ [.tick 0 (.epoll (.ready []))] ++ steps 8
  .tick 0 .step :: yields ++ .tick 0 (.op .suspend) :: steps 6 ++ yields ++
    .tick 0 (.op .suspend) :: steps 4

/-- One processor; the memory of the main coroutine happens to hold `STATE_BLOCKING`. -/
def blockingStart : SeqState := seqInit 1 (fun _ => ⟨⟨0, 0⟩, 0⟩) STATE_BLOCKING 0 0

/-- The coroutine 2 has been woken, and its call returns; the main coroutine has not, and sleeps. -/
theorem suspend_until_scheduled_both :
    ∃ s n, Noted seqOps false Proper noteWake blockingStart .empty s n ∧
      n.returns.map (fun r => (r.coro, r.woken)) = [(2, true)] ∧
      (s.context 0).pc = .suspendUnblock .user ∧ n.woken 0 = false ∧ SuspendSound s n := by
  obtain ⟨s₁, n₁, s₂, s, n, hr₁, hf₁, hword, hlist, hs, hr, hf, hmiss, hret, hpc, hw⟩ :
      ∃ s₁ n₁ s₂ s n,
        noteRun seqOps false (fun _ => Act.leavesAsleep) noteWake blockingStart .empty
          (otherStarts ++ .tick 0 (.op .resched) :: List.replicate 6 (.tick 0 .step)) =
          some (s₁, n₁) ∧ s₁.failure = none ∧
        s₁.word 2 = some (STATE_RUNNABLE, some .user) ∧ s₁.queues.list 0 = [1, 2] ∧
        step seqOps false s₁ (.tick 0 (.op (.schedule 2))) = some s₂ ∧
        noteRun seqOps false (fun _ => Act.leavesAsleep) noteWake s₂
          (noteWake s₁ (.tick 0 (.op (.schedule 2))) n₁) bothSuspend = some (s, n) ∧
        s.failure = none ∧ n.missed = false ∧
        n.returns.map (fun r => (r.coro, r.woken)) = [(2, true)] ∧
        (s.context 0).pc = .suspendUnblock .user ∧ n.woken 0 = false :=
    ⟨_, _, _, _, _, rfl, rfl, rfl, rfl, rfl, rfl, rfl, rfl, rfl, rfl, rfl⟩
  have h₁ : Noted seqOps false Proper noteWake blockingStart .empty s₁ n₁ :=
    Noted.run hr₁ Act.leavesAsleep.proper .init
  have hI : Inv false s₁ := (h₁.reach.mono fun hs hok => ⟨hok, default_safe hs⟩).inv hf₁
  have hok : Proper s₁ (.tick 0 (.op (.schedule 2))) := by
    rintro t x ⟨⟩
    refine ⟨⟨_, hword⟩, fun c hc => ?_⟩
    -- it is on the run list
    have hown : 2 ∈ own s₁ (.thread 0) := Multiset.mem_add.2 (.inr (by rw [hlist]; simp))
    have hfresh : 2 ∈ own s₁ (.fresh c) := hc
    cases hI.kept.excl.inj hown hfresh
  have hN : Noted seqOps false Proper noteWake blockingStart .empty s n :=
    Noted.run hr Act.leavesAsleep.proper (h₁.next hok hs)
  exact ⟨s, n, hN, hret, hpc, hw, suspend_until_scheduled hN hf hmiss⟩

/-- **A call of `sched_suspend` returns at once**: the coroutine 2 starts and calls it; nobody has
called `sched_schedule` on it since, and it returns. -/
theorem suspend_returns_unwoken :
    ∃ s n, Noted seqOps false Proper noteWake seqStart .empty s n ∧ s.failure = none ∧
      n.returns.map (fun r => (r.coro, r.woken, r.parked)) = [(2, false, false)] ∧
      (s.context 2).pc = .user ∧ ¬SuspendSound s n := by
  obtain ⟨s, n, hr, hf, hret, hpc⟩ :
      ∃ s n, noteRun seqOps false (fun _ => Act.leavesAsleep) noteWake seqStart .empty
          (otherStarts ++ .tick 0 (.op .suspend) :: List.replicate 6 (.tick 0 .step)) =
          some (s, n) ∧ s.failure = none ∧
        n.returns.map (fun r => (r.coro, r.woken, r.parked)) = [(2, false, false)] ∧
        (s.context 2).pc = .user := ⟨_, _, rfl, rfl, rfl, rfl⟩
  refine ⟨s, n, Noted.run hr Act.leavesAsleep.proper .init, hf, hret, hpc, fun h => ?_⟩
  obtain ⟨r, hrs, hr⟩ := List.map_eq_singleton_iff.1 hret
  have hw := (h.returns r (by rw [hrs]; exact List.mem_singleton_self r)).1
  rw [(Prod.mk.inj (Prod.mk.inj hr).2).1] at hw
  cases hw

end Lwthread.Scheduler
