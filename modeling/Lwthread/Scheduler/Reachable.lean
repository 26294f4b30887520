import Lwthread.Scheduler.Invariant
import Lwthread.Scheduler.Faults

/-!
# The invariant in reachable states

`free_coro`, the delivery of a signal and the state that `sched_init` leaves complete the invariant:
`Inv.step` takes one action, and `Reach.inv` whole runs in which user code wakes only coroutines that
`sched_new_coroutine` has returned and no signal comes between the enqueue and the switch of
`sched_resched`. In such runs `sched_enqueue_locked` never finds its coroutine linked, and no run list
is empty when `sched_dequeue_locked` is called (`step_sound`).
-/

namespace Lwthread.Scheduler

open Lwthread.Util Lwthread.Platform Custody

variable {preemption : Bool} {s s' : SeqState} {t : Tid} {l l' : LocalSched Unit} {c : Cid}

/-! ## `free_coro` -/

section

variable (hI : Inv preemption s) (hl : s.sched t = some l) (hrun : l.started = true)

include hI hl hrun

/-- A step of `free_coro` after the coroutine is freed: the thread passes on what it keeps. -/
theorem passing_inv {x : Cid} (hmine : x ∈ own s (.thread t)) (hnr : ∀ d, ¬l.Runs d)
    (hs' : s' = { s with sched := Function.update s.sched t (some l'), queues := s'.queues })
    (hst : l'.started = l.started) (hlc : l'.eventLoopCoro = l.eventLoopCoro)
    (hown : own s' (.thread t) = own s (.thread t))
    (hlist : ∀ u, u ≠ t → s'.queues.list u = s.queues.list u)
    (hnodes : ∀ d, s'.queues.linked d = true ↔ ∃ u, d ∈ s'.queues.list u)
    (hsit : Sits preemption s' t l') : Inv preemption s' := by
  have hctx : s'.context = s.context := by rw [hs']
  have hword : s'.word = s.word := by rw [hs']; rfl
  have hloop : s'.loopOf = s.loopOf := by rw [hs']; rfl
  have hsched : s'.sched = Function.update s.sched t (some l') := by rw [hs']
  have ho : own s' = own s := by
    funext h
    cases h with
    | thread u =>
      by_cases hu : u = t
      · rw [hu, hown]
      · rw [own, own, hlist u hu, State.seat, State.seat, hctx, hsched, Function.update_of_ne hu]
    | fresh d => rw [own, own, hctx]
    | woken d => rw [own, own, hctx]
  have hres := hI.resumes hl hmine (hnr x)
  refine ⟨hI.kept.same hnodes (by rw [hs']) hloop ho hword (fun {y} hy => .inl ?_), ?_,
    hI.heaped.of_eq (by rw [hs'])⟩
  · rw [hs'] at hy
    cases hy with
    | timer hw hx => exact .timer hw hx
    | event hw hx => exact .event hw hx
    | point hx => exact .point hx
  · refine hI.control_step hl hrun hmine hsched (by rw [hctx]; exact fun _ _ => rfl) (by rw [hs'])
      (by rw [hs']) hst hlc (by rw [hword]; exact fun _ _ => Iff.rfl) hloop
      (fun u hu => by rw [hlist u hu]; exact fun _ h => h) (fun u hu => ?_) hsit
      (by rw [hctx]; exact hI.control.named x) (by rw [hctx]; exact hI.control.stacked x)
      (by rw [hctx]; exact fun hp => hI.control.quiet hp x) ?_ (by rw [hctx]; exact fun _ h => .inl h)
    · have hv := hI.control.vacant hu
      rw [hlist u (by rintro rfl; rw [hv.1] at hl; cases hl)]
      exact hv.2
    · rintro d - (hr | rfl)
      · exact absurd hr (hnr d)
      · exact .inr (hctx ▸ hres)

/-- The coroutine that the thread executed is freed. -/
theorem free_inv (he : l.exec = .free) :
    Inv preemption (State.modSched { s with coro := Function.update s.coro l.currentCoro none } t
      ({ · with exec := .dequeue () })) := by
  have hsit := hI.control.sits hl
  simp only [Sits, he] at hsit
  obtain ⟨hlive, hctxc, hlock⟩ := hsit
  have hmine := hI.own_of_runs hl (.inr ⟨he, rfl⟩)
  generalize hs' : State.modSched (Q := Seq) _ t _ = s'
  have hsched : s'.sched = Function.update s.sched t (some { l with exec := .dequeue () }) := by
    rw [← hs']; simp [State.modSched, hl]
  have hself : s'.sched t = some { l with exec := .dequeue () } := by
    rw [hsched, Function.update_self]
  have hctx : s'.context = s.context := by rw [← hs']; rfl
  have hq : s'.queues = s.queues := by rw [← hs']; rfl
  have hcoros : s'.coros = s.coros := by rw [← hs']; rfl
  have hwordc : s'.word l.currentCoro = none := by
    rw [← hs']; simp [State.word, State.modSched]
  have hword : ∀ y, y ≠ l.currentCoro → s'.word y = s.word y := by
    intro y hy
    rw [← hs']
    simp [State.word, State.modSched, hy]
  have hloop : s'.loopOf = s.loopOf := by
    funext d
    unfold State.loopOf
    rw [hctx]
    by_cases hd : d = l.currentCoro
    · rw [hd, hctxc]
    · rw [hword d hd]
  refine ⟨?_, ?_, hI.heaped.of_eq (by rw [← hs']; rfl)⟩
  · refine hI.kept.leave (x := l.currentCoro) (t := t) (by rw [hq]; exact hI.kept.nodes) hcoros hloop
      ?_ ?_ hword (fun h => by rw [hwordc] at h; cases h) ?_ (fun {y} hy => .inl ?_)
    · rw [own, own, hq, State.seat, State.seat, hl, hself]
      simp [he]
    · intro h ht
      cases h with
      | thread u =>
        have hu : u ≠ t := fun h => ht (h ▸ rfl)
        rw [own, own, hq, State.seat, State.seat, hctx, hsched, Function.update_of_ne hu]
      | fresh d => rw [own, own, hctx]
      | woken d => rw [own, own, hctx]
    · rw [State.loopOf_of_pc (by rw [hctxc]; simp), hctxc]
      rfl
    · rw [← hs'] at hy
      cases hy with
      | timer hw hx => exact .timer hw hx
      | event hw hx => exact .event hw hx
      | point hx => exact .point hx
  · refine hI.control_step hl hrun hmine hsched (by rw [hctx]; exact fun _ _ => rfl) hcoros
      (by rw [← hs']; rfl) rfl rfl (fun d hd => by rw [hword d hd]) hloop
      (by rw [hq]; exact fun _ _ _ h => h) (by rw [hq]; exact fun u hu => (hI.control.vacant hu).2) ?_
      (by rw [hctx]; exact hI.control.named _) (by rw [hctx]; exact hI.control.stacked _)
      (by rw [hctx]; exact fun hp => hI.control.quiet hp _) ?_ (by rw [hctx]; exact fun _ h => .inl h)
    · exact ⟨hwordc, hcoros ▸ hI.kept.known (.inr hlive), hlock⟩
    · rintro d hd ((h | ⟨-, rfl⟩) | rfl)
      · rw [he] at h; cases h
      · exact absurd hwordc hd
      · exact absurd hwordc hd

/-- A step of `free_coro` keeps the invariant. -/
theorem Death.inv (h : Death seqOps s t l l.exec s') : Inv preemption s' := by
  have hsit := hI.control.sits hl
  generalize he : l.exec = e at h
  have hnr : e ≠ .free → (∀ d, e ≠ .on d) → ∀ d, ¬l.Runs d := by
    rintro hf hon d (h | ⟨h, -⟩)
    · exact hon d (he.symm.trans h)
    · exact hf (he.symm.trans h)
  cases h with
  | free hn => exact free_inv hI hl hrun he
  | pop hq => exact absurd hq seqOps_pop_ne
  | @popped p q x hq =>
    obtain ⟨xs, hx, rfl⟩ := seqOps_pop hq
    simp only [Sits, he] at hsit
    have hs' : ∀ q : Seq,
        State.modSched ({ s with queues := q } : SeqState) t ({ · with exec := .restore x }) =
          { s with sched := Function.update s.sched t (some { l with exec := .restore x })
                   queues := q } := fun q => by simp [State.modSched, hl]
    refine passing_inv hI hl hrun (x := x) ?_ (hnr (by simp) (by simp)) (hs' _) rfl rfl ?_ ?_
      (hI.nodes_pop hx) hsit.2.2
    · rw [own, hx]; simp
    · simp [own, State.seat, State.modSched, hl, he, hx]
    · intro u hu
      simp [State.modSched, hu]
  | @restore x =>
    simp only [Sits, he] at hsit
    have hmine : x ∈ own s (.thread t) := by rw [own, State.seat, hl]; simp [he]
    have hres := hI.resumes hl hmine (hnr (by simp) (by simp) x)
    have hs' : s.modSched t (fun l => { l with currentCoro := x, exec := .on x }) =
        { s with sched := Function.update s.sched t
                   (some { l with currentCoro := x, exec := .on x }) } := by
      simp [State.modSched, hl]
    refine passing_inv hI hl hrun hmine (hnr (by simp) (by simp)) hs' rfl rfl ?_ (fun _ _ => rfl)
      hI.kept.nodes ?_
    · simp [own, State.seat, State.modSched, hl, he, hres.seat]
    · exact sits_of_resumes rfl rfl hsit (hI.kept.live ⟨_, hmine⟩) hres

/-! ## Signals -/

omit hrun in
/-- A signal comes to a coroutine that has not enqueued itself and holds no successor. -/
theorem Inv.seat_of_signal (hp : preemption = true) (hlock : l.preemptLock = false)
    (he : l.exec = .on c) (hsafe : ¬(s.seat t).Yields) :
    (s.context c).seat c = .on c ∧ ((s.context c).sig = [] → ¬(s.context c).pc.Shut) := by
  have hsit := hI.control.sits hl
  simp only [Sits, he] at hsit
  rw [seat_of_exec hl he] at hsafe
  have hpc : (s.context c).sig = [] → ¬(s.context c).pc.Shut := fun hsig hs => by
    rw [hsit.2.2.2 hp hsig hs] at hlock
    cases hlock
  refine ⟨?_, hpc⟩
  revert hsafe hpc
  unfold Context.seat
  rcases (s.context c).sig with _ | ⟨r, rs⟩
  · rcases (s.context c).pc with _ | _ | ⟨r, ret⟩ | _ <;>
      first | exact fun hy _ => r.seat_of_not_yields hy | simp
  · exact fun hy _ => r.seat_of_not_yields hy

/-- A signal keeps the invariant, unless it comes between the enqueue and the switch. -/
theorem signal_inv (hp : preemption = true) (hlock : l.preemptLock = false) (he : l.exec = .on c)
    (hsafe : ¬(s.seat t).Yields) :
    Inv preemption (s.setSig c (.check :: (s.context c).sig)) := by
  have hsit := hI.control.sits hl
  simp only [Sits, he] at hsit
  obtain ⟨-, hcur, -, -⟩ := hsit
  obtain ⟨hseat, hpc⟩ := hI.seat_of_signal hl hp hlock he hsafe
  have hpcs : (s.context c).pc.seat c = .on c ∧ ¬(s.context c).pc.Shut := by
    rcases hsig : (s.context c).sig with _ | ⟨r, rs⟩
    · unfold Context.seat at hseat
      simp only [hsig] at hseat
      exact ⟨hseat, hpc hsig⟩
    · exact (hI.control.stacked c (by rw [hsig]; simp)).1
  have hcurc : l.currentCoro = c := by
    rw [hcur]
    unfold Context.current
    split
    · next hsig hcx => exact absurd (by rw [hcx]; trivial) (hpc hsig)
    · rfl
  have hS : Stays s (s.setSig c (.check :: (s.context c).sig)) t c l l
      ⟨(s.context c).pc, .check :: (s.context c).sig⟩ := stays_context hl he rfl rfl rfl rfl
  refine hS.tau hI hl he hrun
    ⟨hcurc, by simp, ⟨(hI.control.named c).1, ?_⟩, fun _ => ⟨hpcs, ?_⟩, by rw [hp]; simp⟩ rfl rfl
    (by rw [hseat]; rfl) rfl rfl ?_ (fun _ h => h)
    (fun hy => handled_of_point hy rfl rfl rfl fun y hy => .inl (.point hy)) (hI.heaped.of_eq rfl)
  · intro r hr
    rcases List.mem_cons.1 hr with rfl | hr
    · trivial
    · exact (hI.control.named c).2 r hr
  · intro r hr
    rw [List.tail_cons] at hr
    rcases hsig : (s.context c).sig with _ | ⟨r₁, rs⟩
    · rw [hsig] at hr; cases hr
    · rw [hsig] at hr
      rcases List.mem_cons.1 hr with rfl | hr
      · unfold Context.seat at hseat
        simpa only [hsig] using hseat
      · refine (hI.control.stacked c (by rw [hsig]; simp)).2 r ?_
        rw [hsig]
        exact hr
  · unfold State.loopOf
    simp [State.setSig]
    rfl

end

/-! ## One action -/

/-- **One action keeps the invariant.** -/
theorem Moves.inv {a : Act} (hI : Inv preemption s) (hproper : Proper s a) (hsafe : Safe s a)
    (hl : s.sched t = some l) (hrun : l.started = true)
    (hm : Moves seqOps preemption s t l a s') : Inv preemption s' := by
  cases hm with
  | stride he hk hsig hst =>
    exact hst.inv hI hl hrun he hsig hk fun x hx => hproper t x (by rw [hx])
  | @handler c k r rs s₁ r' he hk hsig hy =>
    have hA := activation_handler hsig (hI.control.named c) (hI.control.stacked c) r'
    have := hy.inv hI hl hrun he hA
    rw [State.setSig, hy.context_eq]
    rwa [hy.context_eq] at this
  | death hd => exact hd.inv hI hl hrun
  | signal hp hlock he => exact signal_inv hI hl hrun hp hlock he (hsafe t rfl)

theorem Inv.step {a : Act} (hI : Inv preemption s) (hproper : Proper s a) (hsafe : Safe s a)
    (h : step seqOps preemption s a = some s') (hf : s'.failure = none) : Inv preemption s' := by
  obtain ⟨-, t, l, hl, hrun, hm⟩ := step_moves seqOps h hf
  exact hm.inv hI hproper hsafe hl hrun

/-! ## After `sched_init` -/

section

variable (localSize : Nat) (garbage : Nat → TimerWait) (state errno threadErrno : Int)

theorem seqInit_context (x : Cid) :
    (seqInit localSize garbage state errno threadErrno).context x =
      ⟨if x = 1 then .trampoline else .user, []⟩ := by
  by_cases h1 : x = 1
  · subst h1; rfl
  · by_cases h0 : x = 0
    · subst h0; rfl
    · simp [seqInit, schedInit, schedInitLocal, schedMakeCoro, schedNewLocal, State.modSched, h1]

theorem seqInit_word (x : Cid) :
    (seqInit localSize garbage state errno threadErrno).word x =
      if x = 0 then some (state, none)
      else if x = 1 then some (STATE_BLOCKED, some (.loop 0)) else none := by
  by_cases h1 : x = 1
  · subst h1; rfl
  · by_cases h0 : x = 0
    · subst h0; rfl
    · simp [State.word, seqInit, schedInit, schedInitLocal, schedMakeCoro, schedNewLocal,
        State.modSched, h0, h1]

theorem seqInit_sched (u : Tid) :
    (seqInit localSize garbage state errno threadErrno).sched u =
      if u = 0 then some ⟨0, some 1, false, threadErrno, .on 0, true⟩ else none := by
  by_cases h0 : u = 0
  · subst h0; rfl
  · simp [seqInit, schedInit, schedInitLocal, schedMakeCoro, schedNewLocal, State.modSched, h0]

theorem seqInit_list (u : Tid) :
    (seqInit localSize garbage state errno threadErrno).queues.list u =
      if u = 0 then [1] else [] := by
  by_cases h0 : u = 0
  · subst h0; rfl
  · simp [seqInit, schedInit, schedInitLocal, schedMakeCoro, schedNewLocal, State.modSched, seqOps,
      ListOps.pushAll, Seq.empty, h0]

theorem seqInit_linked (x : Cid) :
    (seqInit localSize garbage state errno threadErrno).queues.linked x = decide (x = 1) := by
  by_cases h1 : x = 1
  · subst h1; rfl
  · by_cases h0 : x = 0
    · subst h0; rfl
    · simp [seqInit, schedInit, schedInitLocal, schedMakeCoro, schedNewLocal, State.modSched, seqOps,
        ListOps.pushAll, Seq.empty, h1]

theorem own_seqInit (h : Holder) :
    own (seqInit localSize garbage state errno threadErrno) h =
      if h = .thread 0 then {0, 1} else 0 := by
  cases h with
  | thread u =>
    by_cases hu : u = 0
    · subst hu
      rfl
    · rw [own, seqInit_list, State.seat, seqInit_sched]
      simp [hu]
  | fresh d => rw [own, seqInit_context]; split <;> simp
  | woken d => rw [own, seqInit_context]; split <;> simp

theorem seqInit_loopOf (x : Cid) :
    (seqInit localSize garbage state errno threadErrno).loopOf x = if x = 1 then some 0 else none := by
  unfold State.loopOf
  rw [seqInit_context, seqInit_word]
  by_cases h1 : x = 1
  · simp [h1]
  · simp [h1]

theorem not_handled_seqInit (x : Cid) :
    ¬(seqInit localSize garbage state errno threadErrno).Handled x := by
  rintro (⟨hw, -⟩ | ⟨hw, -⟩ | hx)
  · rw [show (seqInit localSize garbage state errno threadErrno).timerHeap.bag = 0 from
      Multiset.card_eq_zero.1 (Heap.card_bag _)] at hw
    simp at hw
  · cases hw
  · rw [seqInit_context] at hx
    revert hx
    split <;> simp

/-- The invariant holds after `sched_init`. -/
theorem Inv.init : Inv preemption (seqInit localSize garbage state errno threadErrno) := by
  have hown := own_seqInit localSize garbage state errno threadErrno
  have hword := seqInit_word localSize garbage state errno threadErrno
  have hctx := seqInit_context localSize garbage state errno threadErrno
  have hsched := seqInit_sched localSize garbage state errno threadErrno
  have hlist := seqInit_list localSize garbage state errno threadErrno
  have hlinked := seqInit_linked localSize garbage state errno threadErrno
  have hloop := seqInit_loopOf localSize garbage state errno threadErrno
  have hnh := not_handled_seqInit localSize garbage state errno threadErrno
  have hcoros : (seqInit localSize garbage state errno threadErrno).coros = 2 := rfl
  have hlocals : (seqInit localSize garbage state errno threadErrno).locals = 1 := rfl
  have hheap : Heaped (seqInit localSize garbage state errno threadErrno) :=
    ⟨rfl, show 0 < INITIAL_SIZE by decide, show INITIAL_SIZE < 2 ^ 61 by decide⟩
  generalize seqInit localSize garbage state errno threadErrno = s at *
  have hmem : ∀ {x h}, x ∈ own s h → h = .thread 0 ∧ (x = 0 ∨ x = 1) := by
    intro x h hx
    rw [hown] at hx
    split at hx
    · next hh => exact ⟨hh, by simpa using hx⟩
    · simp at hx
  refine ⟨⟨⟨fun h => ?_, fun hi hj => (hmem hi).1.trans (hmem hj).1.symm⟩, ?_, ?_, ?_, ?_, ?_, ?_, ?_,
    ?_⟩, ⟨?_, ?_, ?_, ?_, ?_, ?_, ?_, ?_, ?_, ?_⟩, hheap⟩
  · rw [hown]
    split
    · decide
    · exact Multiset.nodup_zero
  · rintro x ⟨h, hx⟩
    rw [hword]
    rcases (hmem hx).2 with rfl | rfl <;> simp
  · intro x w hx hoff
    rw [hword] at hx
    refine absurd ⟨.thread 0, ?_⟩ hoff
    rw [hown, if_pos rfl]
    by_cases h0 : x = 0
    · simp [h0]
    · by_cases h1 : x = 1
      · simp [h1]
      · simp [h0, h1] at hx
  · rintro x w h (⟨wu, hu⟩ | hh) hw hb hx
    · rw [hword] at hu
      rcases (hmem hx).2 with rfl | rfl <;> simp at hu
    · exact absurd hh (hnh x)
  · intro x p hx
    cases (hmem hx).1
  · exact fun _ => hnh _
  · rintro x (hx | hx)
    · exact absurd hx (hnh x)
    · rw [hword] at hx
      rw [hcoros]
      by_cases h0 : x = 0
      · rw [h0]; decide
      · by_cases h1 : x = 1
        · rw [h1]; decide
        · simp [h0, h1] at hx
  · intro d u hd
    rw [hloop] at hd
    split at hd
    · next h1 => cases hd; rw [hown, if_pos rfl, h1]; simp
    · cases hd
  · intro d
    rw [hlinked, decide_eq_true_iff]
    constructor
    · rintro rfl; exact ⟨0, by rw [hlist]; simp⟩
    · rintro ⟨u, hu⟩
      rw [hlist] at hu
      split at hu
      · simpa using hu
      · cases hu
  · intro u l hu
    rw [hsched] at hu
    split at hu
    · cases hu
      simp only [Sits, hword, hctx]
      exact ⟨by simp, rfl, by simp [Context.seat], by simp⟩
    · cases hu
  · intro d
    rw [hctx]
    split <;> exact ⟨trivial, by simp⟩
  · intro d
    rw [hctx]
    exact fun h => absurd rfl h
  · intro _ d
    rw [hctx]
  · intro d hd
    rw [hword] at hd
    by_cases h0 : d = 0
    · exact .inl ⟨0, _, by rw [hsched, if_pos rfl], .inl (by rw [h0])⟩
    · by_cases h1 : d = 1
      · exact .inr (by rw [hctx, if_pos h1]; trivial)
      · simp [h0, h1] at hd
  · intro d hd
    rw [hcoros] at hd
    rw [hctx, if_neg (by rintro rfl; exact absurd hd (by decide))]
  · intro u hu
    rw [hlocals] at hu
    have h0 : u ≠ 0 := by rintro rfl; exact absurd hu (by decide)
    rw [hsched, hlist, if_neg h0, if_neg h0]
    exact ⟨rfl, rfl⟩
  · intro d u hd
    rw [hctx] at hd
    revert hd
    split <;> simp
  · intro d d' u hd
    rw [hctx] at hd
    revert hd
    split <;> simp
  · intro u l hu _
    rw [hsched] at hu
    split at hu
    · next h0 => cases hu; exact ⟨1, rfl, by rw [hloop, h0]; rfl⟩
    · cases hu

end

/-! ## Runs -/

section

variable (hI : Inv preemption s)

include hI

/-- A coroutine that a holder keeps off the run lists is not linked. -/
theorem Inv.not_linked {h : Holder} {x : Cid} (hx : x ∈ own s h)
    (hoff : ∀ u, h = .thread u → x ∈ (s.seat u).tokens) : s.queues.linked x = false := by
  rw [← Bool.not_eq_true, hI.kept.nodes]
  rintro ⟨u, hu⟩
  obtain rfl := hI.kept.excl.inj hx (show x ∈ own s (.thread u) from Multiset.mem_add.2 (.inr hu))
  exact Multiset.disjoint_left.1 (Multiset.nodup_add.1 (hI.kept.excl.nodup (.thread u))).2.2
    (hoff u rfl) hu

/-- `sched_enqueue_locked` does not find its coroutine linked. -/
theorem Inv.asserts {x : Cid} (hx : s.asserts t = some x) : s.queues.linked x = false := by
  unfold State.asserts at hx
  rcases hl : s.sched t with _ | l <;> simp only [hl] at hx
  · cases hx
  · rcases he : l.exec with c | _ | d | y <;> simp only [he, reduceCtorEq] at hx
    have hseat := seat_of_exec hl he
    have htok : ∀ y, y ∈ (s.seat t).tokens → s.queues.linked y = false := fun y hy =>
      hI.not_linked (h := .thread t) (Multiset.mem_add.2 (.inl hy)) fun u hu => by cases hu; exact hy
    have hwok : ∀ y, y ∈ own s (.woken c) → s.queues.linked y = false := fun y hy =>
      hI.not_linked hy fun u hu => by cases hu
    have hresched : ∀ r : ReschedPc Unit Unit, r.Named c → s.seat t = r.seat c →
        r.asserts = some x → s.queues.linked x = false := by
      intro r hn hr hx
      cases r with
      | enqueue d e =>
        cases e with
        | assert =>
          obtain rfl : d = x := Option.some.inj hx
          obtain rfl : d = c := hn
          exact htok d (by rw [hr]; simp)
        | push => cases hx
      | _ => cases hx
    unfold Context.seat at hseat
    rcases hsig : (s.context c).sig with _ | ⟨r, rs⟩ <;> simp only [hsig] at hx hseat
    · generalize hpc : (s.context c).pc = pc at hx hseat
      have hnamed := (hI.control.named c).1
      rw [hpc] at hnamed
      cases pc with
      | resched r ret => exact hresched r hnamed hseat hx
      | suspendEnqueue y e ret =>
        cases e with
        | assert =>
          obtain rfl : y = x := Option.some.inj hx
          exact htok y (by rw [hseat]; simp)
        | push => cases hx
      | scheduleEnqueue y e ret =>
        cases e with
        | assert =>
          obtain rfl : y = x := Option.some.inj hx
          exact hwok y (by rw [own, hpc]; simp)
        | push => cases hx
      | newEnqueue y u e =>
        cases e with
        | assert =>
          obtain rfl : y = x := Option.some.inj hx
          exact hwok y (by rw [own, hpc]; simp)
        | push => cases hx
      | _ => cases hx
    · exact hresched r ((hI.control.named c).2 r (by rw [hsig]; simp)) hseat hx

/-- `sched_dequeue_locked` finds a run list that is not empty. -/
theorem Inv.dequeues {p : Unit} (hl : s.sched t = some l) (hrun : l.started = true)
    (hp : s.dequeues t = some p) : s.queues.list t ≠ [] := by
  obtain ⟨e, -, hloop⟩ := hI.control.loops hl hrun
  have hhome := hI.kept.home hloop
  have hsit := hI.control.sits hl
  unfold State.dequeues at hp
  simp only [hl] at hp
  rcases he : l.exec with c | _ | d | y <;> simp only [he, reduceCtorEq, Sits] at hp hsit
  · have hseat := seat_of_exec hl he
    -- a yielding coroutine is on the list itself
    have hresched : ∀ r : ReschedPc Unit Unit, (s.context c).seat c = r.seat c →
        r.dequeues = some p → s.queues.list t ≠ [] := by
      intro r hr hp
      cases r with
      | dequeue d => exact List.ne_nil_of_mem (hsit.2.2.1 (by rw [hr]; rfl))
      | _ => cases hp
    rcases hsig : (s.context c).sig with _ | ⟨r, rs⟩ <;> simp only [hsig] at hp
    · generalize hpc : (s.context c).pc = pc at hp
      have hctx : s.context c = ⟨pc, []⟩ := by rw [← hpc, ← hsig]
      cases pc with
      | resched r ret => exact hresched r (by rw [hctx]; rfl) hp
      | suspendDequeue d q ret =>
        rw [own, hseat, hctx] at hhome
        simp only [Context.seat, Pc.seat, Seat.tokens, Multiset.singleton_add,
          Multiset.mem_cons, Multiset.mem_coe] at hhome
        rcases hhome with rfl | hmem
        · rw [State.loopOf_of_pc (by rw [hpc]; simp), hpc] at hloop
          cases hloop
        · exact List.ne_nil_of_mem hmem
      | _ => cases hp
    · exact hresched r (by unfold Context.seat; simp only [hsig]) hp
  · rw [own, State.seat, hl] at hhome
    simp only [he, Seat.tokens, zero_add, Multiset.mem_coe] at hhome
    exact List.ne_nil_of_mem hhome

/-- An action neither trips the assertion of `sched_enqueue_locked` nor unlinks a sentinel. -/
theorem Inv.step_sound {a : Act} (h : Scheduler.step seqOps preemption s a = some s') :
    s'.failure ≠ some .enqueue ∧ s'.failure ≠ some .sentinel := by
  constructor
  · intro hf
    obtain ⟨-, t, l, hl, -, hfails⟩ := step_fails seqOps h hf
    obtain ⟨x, hx, hn⟩ := hfails.asserts hl
    have hn : s.queues.linked x = true := hn
    rw [hI.asserts hx] at hn
    cases hn
  · intro hf
    obtain ⟨-, t, l, hl, hrun, hfails⟩ := step_fails seqOps h hf
    obtain ⟨p, q, hp, hq⟩ := hfails.dequeues hl
    refine absurd ?_ (hI.dequeues hl hrun hp)
    simp only [seqOps] at hq
    split at hq
    · next hnil => exact hnil
    · cases hq

end

/-- **The invariant of runs**: it holds in every reachable state, until the program stops. -/
theorem Reach.inv {localSize : Nat} {garbage : Nat → TimerWait} {state errno threadErrno : Int}
    (h : Reach seqOps preemption (fun s a => Proper s a ∧ Safe s a)
      (seqInit localSize garbage state errno threadErrno) s) (hf : s.failure = none) :
    Inv preemption s := by
  refine h.invariant (P := fun s => s.failure = none → Inv preemption s) (fun _ => Inv.init ..) ?_ hf
  intro s s' a hI hok hs hf
  exact (hI (step_moves seqOps hs hf).1).step hok.1 hok.2 hs hf

/-- No signal is delivered in the default build. -/
theorem default_safe {a : Act} (h : step seqOps false s a = some s') : Safe s a := by
  rintro t rfl
  unfold step at h
  split at h <;> simp at h

/-- **No run trips the assertion of `sched_enqueue_locked`**, and none unlinks a sentinel. -/
theorem Reach.sound {localSize : Nat} {garbage : Nat → TimerWait} {state errno threadErrno : Int}
    (h : Reach seqOps preemption (fun s a => Proper s a ∧ Safe s a)
      (seqInit localSize garbage state errno threadErrno) s) :
    s.failure ≠ some .enqueue ∧ s.failure ≠ some .sentinel := by
  cases h with
  | init => exact ⟨nofun, nofun⟩
  | next h hok hs =>
    have hI := h.inv (step_failure seqOps hs)
    exact hI.step_sound hs

end Lwthread.Scheduler
