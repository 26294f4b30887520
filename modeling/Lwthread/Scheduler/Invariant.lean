import Lwthread.Scheduler.Birth

/-!
# The invariant of runs

Every step keeps `Inv`, by cases on what a step can do.
-/

namespace Lwthread.Scheduler

open Lwthread.Util Lwthread.Platform Custody

variable {preemption : Bool} {s s' s₁ : SeqState} {t : Tid} {l l' : LocalSched Unit} {c : Cid}
  {pc' : Pc Unit Unit} {i : Input}

section

variable (hI : Inv preemption s) (hl : s.sched t = some l) (hrun : l.started = true)
  (he : l.exec = .on c)

include hI hl hrun he

/-! ## `sched_resched` -/

section

variable {r : ReschedPc Unit Unit} {r' : Option (ReschedPc Unit Unit)} {x' : Context Unit Unit}

omit hI hl hrun he in
theorem Activation.loopOf_eq (hA : Activation c (s.context c) r x' r')
    (hctx : s'.context = Function.update s.context c x') (hword : s'.word = s.word) :
    s'.loopOf c = s.loopOf c := by
  have hself : s'.context c = x' := by rw [hctx, Function.update_self]
  rcases hA.loop with h | ⟨h, hne, hne'⟩
  · unfold State.loopOf
    rw [hself, hword, h]
  · rw [State.loopOf_of_pc hne, State.loopOf_of_pc (by rw [hself]; exact hne'), hself, h]

/-- The switch to `x`. -/
theorem switch_inv {x : Cid} (hA : Activation c (s.context c) (.switch x) x' (some .resumed))
    (hS : Local s s' t c l l' x') (hexec : l'.exec = .on x) (hcur : l'.currentCoro = x)
    (hlock : preemption = true → l'.preemptLock = true) (hword : s'.word = s.word)
    (hq : s'.queues = s.queues) (hs : ∀ {y}, s'.Handled y → s.Handled y ∨ s.Returned y)
    (hH : Heaped s') : Inv preemption s' := by
  have hC := hI.control
  have hmem : x ∈ own s (.thread t) := by
    rw [own, seat_of_exec hl he, hA.seat, ReschedPc.tokens_switch]
    simp
  have hres := hA.resumes rfl
  have hloops := hS.loopOf_eq (by rw [hword]; exact fun _ => rfl) (hA.loopOf_eq hS.context hword)
  refine ⟨hI.kept.same (by rw [hq]; exact hI.kept.nodes) hS.coros hloops ?_ hword hs, ?_, hH⟩
  · refine hS.own_eq hI hl he ?_ (by rw [hq]; exact fun _ _ => rfl) hA.fresh hA.woken
    rw [own, hS.seat_next hI hl he hexec hmem hres, hq, own, seat_of_exec hl he, hA.seat,
      ReschedPc.tokens_switch]
    simp
  · exact hS.control_next hI hl he hexec hmem hres hrun hcur hlock
      (by rw [hword]; exact fun _ => Iff.rfl) hloops hq (hA.named (by simp)) hA.stacked
      (fun hp => hA.quiet (hC.quiet hp c)) fun u hu => hA.starts ▸ hu

/-- A step of `sched_resched` keeps the invariant. -/
theorem Yield.inv (h : Yield seqOps preemption s t l r s₁ r')
    (hA : Activation c (s.context c) r x' r') :
    Inv preemption { s₁ with context := Function.update s₁.context c x' } := by
  have hC := hI.control
  have hsit := hC.sits hl
  simp only [Sits, he] at hsit
  obtain ⟨hlive, hcur, hentry, hshut⟩ := hsit
  rw [hA.current.1] at hcur
  rw [hA.seat] at hentry
  have hH : ∀ {s' : SeqState}, s'.timerHeap = s.timerHeap → Heaped s' := fun h => by
    obtain ⟨h1, h2, h3⟩ := hI.heaped
    exact ⟨h ▸ h1, h ▸ h2, h ▸ h3⟩
  have hpoint : ∀ y ∈ x'.pc.handles, s.Handled y ∨ s.Returned y := fun y hy =>
    .inl (.point (hA.handles ▸ hy))
  have hfits : (∀ r₁ ∈ r', r₁.Named c) → ∀ {l' : LocalSched Unit}, l'.currentCoro = c →
      Fits preemption c l' x' := fun hn l' hl' =>
    ⟨hl'.trans hA.current.2.symm, fun _ hs hsh => absurd hsh (hA.shut hs), hA.named hn, hA.stacked,
      fun hp => hA.quiet (hC.quiet hp c)⟩
  have hloop : ∀ {s' : SeqState}, s'.context = Function.update s.context c x' → s'.word = s.word →
      s'.loopOf c = s.loopOf c := hA.loopOf_eq
  have hstarts : ∀ u, x'.pc.starts = some u → (s.context c).pc.starts = some u := fun u hu =>
    hA.starts ▸ hu
  have hctx : ∀ q : Seq, State.context { s with queues := q, context := Function.update s.context c x' } =
      Function.update s.context c x' := fun _ => rfl
  cases h with
  | idle hem =>
    exact (stays_context hl he (hctx s.queues) rfl rfl rfl).tau hI hl he hrun (hfits (by simp) hcur)
      rfl rfl (by rw [hA.seat', hA.seat]; rfl) hA.fresh hA.woken (hloop (hctx _) rfl) hstarts
      (fun hy => handled_of_point hy (hctx _) rfl rfl hpoint) (hH rfl)
  | busy hem =>
    exact (stays_context hl he (hctx s.queues) rfl rfl rfl).tau hI hl he hrun
      (hfits (by simp [hcur]) hcur) rfl rfl (by rw [hA.seat', hA.seat]; rfl) hA.fresh hA.woken
      (hloop (hctx _) rfl) hstarts (fun hy => handled_of_point hy (hctx _) rfl rfl hpoint) (hH rfl)
  | assert hn =>
    have hd := hA.point
    exact (stays_context hl he (hctx s.queues) rfl rfl rfl).tau hI hl he hrun
      (hfits (by simpa using hd) hcur) rfl rfl (by rw [hA.seat', hA.seat]; rfl) hA.fresh hA.woken
      (hloop (hctx _) rfl) hstarts (fun hy => handled_of_point hy (hctx _) rfl rfl hpoint) (hH rfl)
  | push hq => rw [seqOps_push] at hq; cases hq
  | @pushed d p q hq =>
    obtain rfl : d = c := hA.point
    rw [seqOps_push] at hq
    cases hq
    refine (stays_context hl he (hctx _) rfl rfl rfl).move hI hl he hrun (hfits (by simp) hcur) ?_
      (fun u hu => by simp [hu]) (nodes_push hI.kept.nodes t d) (fun _ => by simp) rfl hA.fresh
      hA.woken (hloop (hctx _) rfl) hstarts (fun hy => handled_of_point hy (hctx _) rfl rfl hpoint) (hH rfl)
    rw [hA.seat', hA.seat]
    simp [← Multiset.coe_add, add_comm]
  | pop hq => exact absurd hq seqOps_pop_ne
  | @popped p q x hq =>
    obtain ⟨xs, hx, rfl⟩ := seqOps_pop hq
    refine (stays_context hl he (hctx _) rfl rfl rfl).move hI hl he hrun (hfits (by simp) hcur) ?_
      (fun u hu => by simp [hu]) (hI.nodes_pop hx) ?_ rfl hA.fresh hA.woken (hloop (hctx _) rfl)
      hstarts (fun hy => handled_of_point hy (hctx _) rfl rfl hpoint) (hH rfl)
    · rw [hA.seat', hA.seat, Option.elim_some, ReschedPc.tokens_switch]
      simp [hx]
    · rw [hA.seat']
      simp only [Option.elim_some, ReschedPc.seat, Function.update_self]
      intro hne
      have hmem := hentry rfl
      rw [hx] at hmem
      by_cases hxc : x = c
      · simp [hxc] at hne
      · exact (List.mem_cons.1 hmem).resolve_left (Ne.symm hxc)
  | @switch x k hp hk =>
    rw [State.setPreempt_eq s t _ hl]
    have hsched : ∀ f : LocalSched Unit → LocalSched Unit,
        Function.update (Function.update s.sched t (some (l.setLock preemption true))) t
          ((Function.update s.sched t (some (l.setLock preemption true)) t).map f) =
        Function.update s.sched t (some (f (l.setLock preemption true))) := by simp
    exact switch_inv hI hl hrun he hA ⟨hsched _, rfl, rfl, rfl, by simp, by simp⟩ rfl rfl
      (fun hp => l.setLock_preemptLock true hp) (State.word_modErrno s _ _) rfl
      (fun hy => handled_of_point hy rfl rfl rfl hpoint) (hH rfl)
  | resumed hp =>
    rw [State.setPreempt_eq s t _ hl]
    exact Stays.tau hI hl he ⟨⟨rfl, rfl, rfl, rfl, by simp, by simp⟩, by simpa using he⟩ hrun
      (hfits (by simp) (by simpa using hcur)) rfl rfl
      (by rw [hA.seat', hA.seat]; rfl) hA.fresh hA.woken (hloop rfl rfl) hstarts
      (fun hy => handled_of_point hy rfl rfl rfl hpoint) (hH rfl)

end

/-! ## Steps that set a state word -/

section

variable {x : Cid} {w : Int × Option Start} {v : Int}

omit hI hl hrun he in
theorem start_update (hx : s.word x = some w)
    (hword : s'.word = Function.update s.word x (some (v, w.2))) (d : Cid) :
    (s'.word d).bind Prod.snd = (s.word d).bind Prod.snd := by
  rw [hword]
  by_cases hd : d = x
  · subst hd; rw [Function.update_self, hx]; rfl
  · rw [Function.update_of_ne hd]

omit hI hl hrun he in
theorem live_update (hx : s.word x = some w)
    (hword : s'.word = Function.update s.word x (some (v, w.2))) (d : Cid) :
    s'.word d = none ↔ s.word d = none := by
  rw [hword]
  by_cases hd : d = x
  · subst hd; rw [Function.update_self, hx]; simp
  · rw [Function.update_of_ne hd]

variable (hsig : (s.context c).sig = [])

include hsig

/-- The word of a coroutine that is kept, and is not new, is set to another one than `BLOCKED`. -/
theorem Stays.setWord (hS : Stays s s' t c l l ⟨pc', []⟩) (hlike : Pc.Like c (s.context c).pc pc')
    (hshut : ¬pc'.Shut) (hq : s'.queues = s.queues) (hx : s.word x = some w)
    (hword : s'.word = Function.update s.word x (some (v, w.2))) (hv : v ≠ STATE_BLOCKED)
    (hheld : Held (own s) x) (hfresh : ∀ p, x ∉ own s (.fresh p))
    (hs : ∀ {y}, s'.Handled y → s.Handled y ∨ s.Returned y ∨ y = x) (hH : Heaped s') :
    Inv preemption s' := by
  have ho : own s' = own s := by
    refine hS.own_eq hI hl he ?_ (by rw [hq]; exact fun _ _ => rfl) hlike.fresh hlike.woken
    rw [hS.own_self, hlike.seat_eq hsig, hq, own, seat_of_exec hl he]
  have hloops := hS.loopOf_eq (start_update hx hword) (hlike.loopOf_eq hS.context_self)
  have hsit := hI.control.sits hl
  simp only [Sits, he] at hsit
  refine ⟨?_, ?_, hH⟩
  · exact hI.kept.setWord (by rw [hq]; exact hI.kept.nodes) hS.coros hloops hx hword hv
      (ho ▸ hI.kept.excl) (ho ▸ hheld) (ho ▸ hfresh) (by rw [ho]; exact fun _ _ _ => Iff.rfl)
      (by rw [ho]; exact hI.kept.home) hs
  · exact hS.control hI hl he hrun (hlike.fits hsig hI hl he rfl fun _ h => absurd h hshut)
      (live_update hx hword) hloops (by rw [hq]; exact fun _ _ _ h => h)
      (by rw [hq]; exact fun u hu => (hI.control.vacant hu).2)
      (by rw [hlike.seat_eq hsig, hq]; exact hsit.2.2.1) fun u hu => .inl (hlike.starts ▸ hu)

omit hrun hsig in
/-- Custody after `c` has taken `x` to enqueue it: a sleeping coroutine, or the new one that `c` has
made. -/
theorem Stays.own_wake (hS : Stays s s' t c l l' ⟨pc', []⟩)
    (hseat : Context.seat c ⟨pc', []⟩ = (s.context c).seat c) (hq : s'.queues = s.queues)
    (hfresh : pc'.fresh = 0) (hwoken : (s.context c).pc.woken = 0) (hwoken' : pc'.woken = {x})
    (hx : ¬Held (own s) x ∧ (s.context c).pc.fresh = 0 ∨ (s.context c).pc.fresh = {x}) :
    Exclusive (own s') ∧ (∀ p, x ∉ own s' (.fresh p)) ∧
      (∀ y h, y ≠ x → (y ∈ own s' h ↔ y ∈ own s h)) ∧ ∀ u, x ∉ own s (.thread u) := by
  have ht : own s' (.thread t) = own s (.thread t) := by
    rw [hS.own_self, hseat, hq, own, seat_of_exec hl he]
  have ho : ∀ {h}, h ≠ .fresh c → h ≠ .woken c → own s' h = own s h := by
    intro h hf hw
    by_cases htt : h = .thread t
    · rw [htt, ht]
    · exact hS.own_ne hI hl he (by rw [hq]; exact fun _ _ _ => rfl) htt htt hf hw
  have hf' : own s' (.fresh c) = 0 := by rw [hS.own_fresh]; exact hfresh
  have hw' : own s' (.woken c) = {x} := by rw [hS.own_woken]; exact hwoken'
  have hw : own s (.woken c) = 0 := hwoken
  have hmem : ∀ y h, y ≠ x → (y ∈ own s' h ↔ y ∈ own s h) := by
    intro y h hy
    by_cases hhf : h = .fresh c
    · have hfc : y ∉ own s (.fresh c) := by
        rcases hx with ⟨-, hx⟩ | hx
        · rw [own, hx]; simp
        · rw [own, hx]; simpa using hy
      rw [hhf, hf']; simp [hfc]
    · by_cases hhw : h = .woken c
      · rw [hhw, hw', hw]; simp [hy]
      · rw [ho hhf hhw]
  rcases hx with ⟨hx, hf⟩ | hf
  · refine ⟨hI.kept.excl.add hx (i := .woken c) (by rw [hw', hw]; rfl) fun h hh => ?_, fun p => ?_,
      hmem, fun u hu => hx ⟨_, hu⟩⟩
    · by_cases hhf : h = .fresh c
      · rw [hhf, hf', own, hf]
      · exact ho hhf hh
    · by_cases hp : p = c
      · rw [hp, hf']; simp
      · rw [ho (by simpa using hp) (by simp)]; exact fun hm => hx ⟨_, hm⟩
  · have hfc : own s (.fresh c) = {x} := hf
    have hxf : x ∈ own s (.fresh c) := by rw [hfc]; simp
    refine ⟨hI.kept.excl.pass (i := .fresh c) (j := .woken c) (by simp) ?_ fun h => ho, fun p => ?_,
      hmem, fun u hu => ?_⟩
    · rw [hf', hw', hfc, hw, add_comm]
    · by_cases hp : p = c
      · rw [hp, hf']; simp
      · rw [ho (by simpa using hp) (by simp)]
        exact fun hm => hp (Holder.fresh.inj (hI.kept.excl.inj hm hxf))
    · cases hI.kept.excl.inj hu hxf

omit hsig in
/-- `c` has taken `x` to enqueue it. -/
theorem Stays.wake (hS : Stays s s' t c l l' ⟨pc', []⟩) (hF : Fits preemption c l' ⟨pc', []⟩)
    (hseat : Context.seat c ⟨pc', []⟩ = (s.context c).seat c) (hq : s'.queues = s.queues)
    (hfresh : pc'.fresh = 0) (hwoken : (s.context c).pc.woken = 0) (hwoken' : pc'.woken = {x})
    (hxo : ¬Held (own s) x ∧ (s.context c).pc.fresh = 0 ∨ (s.context c).pc.fresh = {x})
    (hx : s.word x = some w) (hword : s'.word = Function.update s.word x (some (v, w.2)))
    (hv : v ≠ STATE_BLOCKED) (hloop : s'.loopOf c = s.loopOf c)
    (hstarts : ∀ u, pc'.starts = some u → s.Starts c u)
    (hs : ∀ {y}, s'.Handled y → s.Handled y ∨ s.Returned y ∨ y = x) (hH : Heaped s') :
    Inv preemption s' := by
  obtain ⟨hex, hnf, hmem, hnt⟩ := hS.own_wake hI hl he hseat hq hfresh hwoken hwoken' hxo
  have hloops := hS.loopOf_eq (start_update hx hword) hloop
  have hsit := hI.control.sits hl
  simp only [Sits, he] at hsit
  refine ⟨?_, ?_, hH⟩
  · exact hI.kept.setWord (by rw [hq]; exact hI.kept.nodes) hS.coros hloops hx hword hv hex
      ⟨.woken c, by rw [hS.own_woken, hwoken']; simp⟩ hnf hmem
      (fun h => absurd (hI.kept.home h) (hnt _)) hs
  · exact hS.control hI hl he hrun hF (live_update hx hword) hloops
      (by rw [hq]; exact fun _ _ _ h => h) (by rw [hq]; exact fun u hu => (hI.control.vacant hu).2)
      (by rw [hseat, hq]; exact hsit.2.2.1) hstarts

omit hsig in
/-- `c` has enqueued what it had taken, on the run list of its own thread or of a new one. -/
theorem Stays.settle {u : Tid} (hS : Stays s s' t c l l' ⟨pc', []⟩)
    (hF : Fits preemption c l' ⟨pc', []⟩)
    (hseat : Context.seat c ⟨pc', []⟩ = (s.context c).seat c) (hu : s.sched u ≠ none)
    (hq : s'.queues = { list := Function.update s.queues.list u (s.queues.list u ++ [x])
                        linked := Function.update s.queues.linked x true })
    (hfresh : pc'.fresh = (s.context c).pc.fresh) (hwoken : (s.context c).pc.woken = {x})
    (hwoken' : pc'.woken = 0) (hword : s'.word = s.word) (hloop : s'.loopOf c = s.loopOf c)
    (hstarts : ∀ u, pc'.starts = some u → (s.context c).pc.starts = some u)
    (hs : ∀ {y}, s'.Handled y → s.Handled y ∨ s.Returned y) (hH : Heaped s') :
    Inv preemption s' := by
  have hloops := hS.loopOf_eq (by rw [hword]; exact fun _ => rfl) hloop
  have hsit := hI.control.sits hl
  simp only [Sits, he] at hsit
  have hlist : ∀ v, v ≠ u → s'.queues.list v = s.queues.list v := fun v hv => by
    rw [hq]; exact Function.update_of_ne hv _ _
  have hlistu : s'.queues.list u = s.queues.list u ++ [x] := by
    rw [hq]; exact Function.update_self _ _ _
  have hsub : ∀ v, s.queues.list v ⊆ s'.queues.list v := by
    intro v
    by_cases hv : v = u
    · rw [hv, hlistu]; exact List.subset_append_left _ _
    · rw [hlist v hv]; exact fun _ h => h
  have hseats : ∀ v, s'.seat v = s.seat v := by
    intro v
    by_cases hv : v = t
    · rw [hv, hS.seat_self, hseat, seat_of_exec hl he]
    · exact hS.seat_ne hI hl he hv
  have ho : own s' (.thread u) = x ::ₘ own s (.thread u) := by
    rw [own, own, hseats, hlistu, ← Multiset.coe_add, Multiset.coe_singleton, ← add_assoc,
      add_comm, Multiset.singleton_add]
  refine ⟨?_, ?_, hH⟩
  · refine hI.kept.settle (c := c) (u := u) (by rw [hq]; exact nodes_push hI.kept.nodes u x) hS.coros
      hloops ?_ ?_ ?_ hword hs
    · have hw : own s (.woken c) = {x} := hwoken
      rw [hS.own_woken, hwoken', ho, hw, zero_add, Multiset.singleton_add]
    · rw [ho]; exact Multiset.le_cons_self _ _
    · intro h hw hhu
      cases h with
      | thread v => rw [own, own, hseats, hlist v fun h => hhu (h ▸ rfl)]
      | fresh d =>
        by_cases hd : d = c
        · rw [hd, hS.own_fresh, hfresh, own]
        · rw [own, own, hS.context_ne hd]
      | woken d => rw [own, own, hS.context_ne fun h => hw (h ▸ rfl)]
  · refine hS.control hI hl he hrun hF (by rw [hword]; exact fun _ => Iff.rfl) hloops
      (fun v _ => hsub v) (fun v hv => ?_) (fun h => hsub t (hsit.2.2.1 (hseat ▸ h)))
      fun v hv => .inl (hstarts v hv)
    rw [hlist v fun h => hu (h ▸ (hI.control.vacant hv).1)]
    exact (hI.control.vacant hv).2

end

end

/-! ## The steps of a coroutine -/

theorem goto_context {s₀ : SeqState} (hsig : (s.context c).sig = []) (h : s₀.context = s.context) :
    (s₀.goto c pc').context = Function.update s.context c ⟨pc', []⟩ := by
  rw [State.goto, h, hsig]

/-- A sleeping coroutine that a point is to wake is kept by nobody but its maker. -/
theorem Inv.not_held_of_handled {x : Cid} {w : Int × Option Start} (hI : Inv preemption s)
    (hh : s.Handled x) (hw : s.word x = some w) (hb : w.1 = STATE_BLOCKED) : ¬Held (own s) x := by
  rintro ⟨h, hm⟩
  obtain ⟨p, rfl⟩ := hI.kept.awake (.inr hh) hw hb hm
  exact hI.kept.new hm hh

section

variable {k : Coroutine} (hI : Inv preemption s) (hl : s.sched t = some l) (hrun : l.started = true)
  (he : l.exec = .on c) (hsig : (s.context c).sig = [])

include hI hl hrun he hsig

/-- A step that moves `c` to a point alike and changes neither coroutines, schedulers nor lists. -/
theorem tau_goto {s₀ : SeqState} (hsched : s₀.sched = s.sched) (hctx : s₀.context = s.context)
    (hcoros : s₀.coros = s.coros) (hlocals : s₀.locals = s.locals) (hq : s₀.queues = s.queues)
    (hcoro : s₀.coro = s.coro) (hlike : Pc.Like c (s.context c).pc pc') (hshut : ¬pc'.Shut)
    (hs : ∀ {y}, (s₀.goto c pc').Handled y → s.Handled y ∨ s.Returned y) (hH : Heaped s₀) :
    Inv preemption (s₀.goto c pc') := by
  refine Stays.like hI hl he hrun hsig
    (stays_context hl he (goto_context hsig hctx) hsched hcoros hlocals) hlike rfl
    (fun _ h => absurd h hshut) hq ?_ hs (hH.of_eq rfl)
  unfold State.word
  rw [show (s₀.goto c pc').coro = s.coro from hcoro]

omit hrun he hsig in
/-- A coroutine that executes is not new. -/
theorem Inv.running_not_fresh (hr : l.Runs c) (p : Cid) : c ∉ own s (.fresh p) := by
  intro h
  cases hI.kept.excl.inj h (hI.own_of_runs hl hr)

/-- `sched_new_coroutine` has made a coroutine. -/
theorem newCoroutine_inv (hpc : (s.context c).pc = .user) :
    Inv preemption ((schedMakeCoro seqOps s .user).goto c (.newLoad s.coros)) := by
  have hI₁ := hI.make
  have hne := hI.exec_ne_coros hl he
  have hctx₁ : (schedMakeCoro seqOps s .user).context c = s.context c :=
    Function.update_of_ne hne _ _
  have hsig₁ : ((schedMakeCoro seqOps s .user).context c).sig = [] := by rw [hctx₁, hsig]
  have hpc₁ : ((schedMakeCoro seqOps s .user).context c).pc = .user := by rw [hctx₁, hpc]
  have hnew : (schedMakeCoro seqOps s .user).word s.coros = some (STATE_BLOCKED, some .user) := by
    simp [State.word, schedMakeCoro]
  have hnh₁ : ¬(schedMakeCoro seqOps s .user).Handled s.coros := fun h =>
    lt_irrefl _ (hI.kept.known (.inl (make_handled h)))
  have hnot : ¬Held (own (schedMakeCoro seqOps s .user)) s.coros := by
    rw [hI.own_make]
    exact fun h => lt_irrefl _ (hI.kept.known (.inr (hI.kept.live h)))
  generalize hs₁ : schedMakeCoro seqOps s .user = s₁ at *
  have hl₁ : s₁.sched t = some l := by rw [← hs₁]; exact hl
  have hS : Stays s₁ (s₁.goto c (.newLoad s.coros)) t c l l ⟨.newLoad s.coros, []⟩ :=
    stays_context hl₁ he (goto_context hsig₁ rfl) rfl rfl rfl
  have hsit := hI₁.control.sits hl₁
  simp only [Sits, he] at hsit
  have hloop : (s₁.goto c (.newLoad s.coros)).loopOf c = s₁.loopOf c := by
    rw [State.loopOf_of_pc (by rw [hS.context_self]; simp), hS.context_self,
      State.loopOf_of_pc (by rw [hpc₁]; simp), hpc₁]
    rfl
  have hseat : Context.seat c (⟨.newLoad s.coros, []⟩ : Context Unit Unit) =
      (s₁.context c).seat c := by
    unfold Context.seat
    simp only [hsig₁, hpc₁]
    rfl
  refine ⟨?_, ?_, hI₁.heaped.of_eq rfl⟩
  · refine hI₁.kept.adopt (c := c) hI₁.kept.nodes rfl (hS.loopOf_eq (fun _ => rfl) hloop) rfl hnot
      hnew hnh₁ ?_ fun {y} hy => ?_
    · funext h
      by_cases hf : h = .fresh c
      · rw [hf, Function.update_self, hS.own_fresh, own, hpc₁]; rfl
      · rw [Function.update_of_ne hf]
        by_cases hw : h = .woken c
        · rw [hw, hS.own_woken, own, hpc₁]; rfl
        · by_cases ht : h = .thread t
          · rw [ht, hS.own_self, hseat, own, seat_of_exec hl₁ he]; rfl
          · exact hS.own_ne hI₁ hl₁ he (fun _ _ _ => rfl) ht ht hf hw
    · cases hy with
      | timer hw hx => exact .timer hw hx
      | event hw hx => exact .event hw hx
      | @point d hx =>
        by_cases hd : d = c
        · subst hd; rw [hS.context_self] at hx; simp at hx
        · rw [hS.context_ne hd] at hx; exact .point hx
  · refine hS.control hI₁ hl₁ he hrun ⟨?_, by simp, ⟨trivial, by simp⟩, fun h => absurd rfl h,
      fun _ => rfl⟩ (fun _ => Iff.rfl) (hS.loopOf_eq (fun _ => rfl) hloop) (fun _ _ _ h => h)
      (fun u hu => (hI₁.control.vacant hu).2) (by simp [Context.seat]) (by simp)
    rw [hsit.2.1]
    unfold Context.current
    simp only [hsig₁, hpc₁]

/-- The coroutine's start function has returned. -/
theorem ret_inv (hpc : (s.context c).pc = .user) :
    Inv preemption ((s.setPreempt preemption t true).modSched t ({ · with exec := .free })) := by
  have hsit := hI.control.sits hl
  simp only [Sits, he] at hsit
  have hctx : s.context c = ⟨.user, []⟩ := by rw [← hpc, ← hsig]
  obtain ⟨hlive, hcur, -, -⟩ := hsit
  rw [hctx] at hcur
  obtain rfl : l.currentCoro = c := hcur
  rw [State.setPreempt_eq s t _ hl]
  generalize hs' : State.modSched (Q := Seq) _ t _ = s'
  have hsched : s'.sched =
      Function.update s.sched t (some { l.setLock preemption true with exec := .free }) := by
    rw [← hs']; simp [State.modSched]
  have hctx' : s'.context = s.context := by rw [← hs']; rfl
  have hq : s'.queues = s.queues := by rw [← hs']; rfl
  have hword : s'.word = s.word := by rw [← hs']; rfl
  have hloop : s'.loopOf = s.loopOf := by rw [← hs']; rfl
  have hS : Local s s' t l.currentCoro l { l.setLock preemption true with exec := .free }
      (s.context l.currentCoro) :=
    ⟨hsched, by rw [hctx', Function.update_eq_self], by rw [← hs']; rfl, by rw [← hs']; rfl,
      by simp, by simp⟩
  have hown : own s' = own s := by
    refine hS.own_eq hI hl he ?_ (by rw [hq]; exact fun _ _ => rfl) rfl rfl
    rw [own, own, hq, seat_of_exec hl he, hctx]
    simp [State.seat, hS.sched_self, Context.seat]
  refine ⟨hI.kept.same (by rw [hq]; exact hI.kept.nodes) hS.coros hloop hown hword
    (fun hy => handled_of_point hy hS.context (by rw [← hs']; rfl) (by rw [← hs']; rfl)
      fun y hy => .inl (.point hy)), ?_, hI.heaped.of_eq (by rw [← hs']; rfl)⟩
  refine hI.control_step hl hrun (hI.own_of_runs hl (.inl he)) hsched (fun d _ => by rw [hctx'])
    hS.coros hS.locals hS.started hS.loop (by rw [hword]; exact fun _ _ => Iff.rfl) hloop
    (by rw [hq]; exact fun _ _ _ h => h) (by rw [hq]; exact fun u hu => (hI.control.vacant hu).2)
    ?_ (by rw [hctx']; exact hI.control.named _) (by rw [hctx']; exact hI.control.stacked _)
    (by rw [hctx', hsig]; exact fun _ => rfl) ?_ (by rw [hctx', hpc]; simp)
  · simp only [Sits, LocalSched.setLock_currentCoro, hword, hctx']
    exact ⟨hlive, hctx, fun hp => l.setLock_preemptLock true hp⟩
  · intro d _ hr
    have hd : d = l.currentCoro := by
      rcases hr with (h | ⟨h, -⟩) | h
      · rw [he] at h; cases h; rfl
      · rw [he] at h; cases h
      · exact h
    exact .inl (.inr ⟨rfl, by simp [hd]⟩)

/-- The exchange in `sched_suspend` succeeds: `c` is asleep, and the thread goes on with `x`. -/
theorem park_inv {x : Cid} {ret : SuspendRet} (hpc : (s.context c).pc = .suspendCmpxchg c x ret)
    (hk : s.coro c = some k) :
    Inv preemption (((s.modCoro c ({ · with state := STATE_BLOCKED })).goto c
      (.suspendUnblock ret)).modSched t ({ · with exec := .on x })) := by
  have hsit := hI.control.sits hl
  simp only [Sits, he] at hsit
  have hctx : s.context c = ⟨.suspendCmpxchg c x ret, []⟩ := by rw [← hpc, ← hsig]
  obtain ⟨-, hcur, -, hshut⟩ := hsit
  rw [hctx] at hcur
  have hown : own s (.thread t) = {c, x} + (s.queues.list t : Multiset Cid) := by
    rw [own, seat_of_exec hl he, hctx]; rfl
  have hmem : x ∈ own s (.thread t) := by rw [hown]; simp
  have hword := State.word_modState s hk STATE_BLOCKED
  generalize hs₁ : State.modCoro (Q := Seq) s c _ = s₁ at hword ⊢
  generalize hs' : State.modSched (Q := Seq) (State.goto (Q := Seq) _ c _) t _ = s'
  have hsched : s'.sched = Function.update s.sched t (some { l with exec := .on x }) := by
    rw [← hs', ← hs₁]; simp [State.modSched, State.goto, State.modCoro, hl]
  have hctx' : s'.context = Function.update s.context c ⟨.suspendUnblock ret, []⟩ := by
    rw [← hs', ← hs₁]; exact goto_context hsig rfl
  have hq : s'.queues = s.queues := by rw [← hs', ← hs₁]; rfl
  have hword' : s'.word = Function.update s.word c (some (STATE_BLOCKED, k.start)) := by
    rw [← hword, ← hs']; rfl
  have hS : Local s s' t c l { l with exec := .on x } ⟨.suspendUnblock ret, []⟩ :=
    ⟨hsched, hctx', by rw [← hs', ← hs₁]; rfl, by rw [← hs', ← hs₁]; rfl, rfl, rfl⟩
  have hloopc : s.loopOf c = none := by
    rw [State.loopOf_of_pc (by rw [hpc]; simp), hpc]; rfl
  have hloop : s'.loopOf = s.loopOf := by
    refine hS.loopOf_eq (start_update (State.word_of_coro s hk) hword') ?_
    rw [hloopc, State.loopOf_of_pc (by rw [hS.context_self]; simp), hS.context_self]
    rfl
  refine ⟨?_, ?_, hI.heaped.of_eq (by rw [← hs', ← hs₁]; rfl)⟩
  · refine hI.kept.leave (x := c) (t := t) (by rw [hq]; exact hI.kept.nodes) hS.coros hloop ?_ ?_
      (fun y hy => by rw [hword', Function.update_of_ne hy]) ?_ hloopc
      fun hy => handled_of_point hy hctx' (by rw [← hs', ← hs₁]; rfl) (by rw [← hs', ← hs₁]; rfl)
        (by simp)
    · rw [hown, own, hS.seat_next hI hl he rfl hmem trivial, hq]
      simp only [Seat.tokens, Multiset.insert_eq_cons, Multiset.cons_add]
    · intro h ht
      by_cases hf : h = .fresh c
      · rw [hf, hS.own_fresh, own, hpc]; rfl
      · by_cases hw : h = .woken c
        · rw [hw, hS.own_woken, own, hpc]; rfl
        · exact hS.own_ne hI hl he (by rw [hq]; exact fun _ _ _ => rfl) ht ht hf hw
    · intro wx hwx
      rw [hword', Function.update_self] at hwx
      cases hwx
      rfl
  · exact hS.control_next hI hl he rfl hmem trivial hrun hcur
      (fun hp => hshut hp hsig (by rw [hpc]; trivial))
      (live_update (State.word_of_coro s hk) hword') hloop hq ⟨trivial, by simp⟩
      (fun h => absurd rfl h) (fun _ => rfl) (by simp)

/-- The exchange in `sched_schedule` on a coroutine that is not asleep. -/
theorem rouse_inv {x : Cid} {ret : ScheduleRet} {kx : Coroutine}
    (hpc : (s.context c).pc = .scheduleXchg x ret) (hk : s.coro x = some kx)
    (hb : kx.state ≠ STATE_BLOCKED) :
    Inv preemption ((s.modCoro x ({ · with state := STATE_RUNNABLE })).goto c ret.pc) := by
  have hplain := ret.plain c
  have hw := State.word_of_coro s hk
  have hfresh : ∀ p, x ∉ own s (.fresh p) := by
    intro p hp
    rw [hI.kept.made hp, Option.some.injEq] at hw
    exact hb (congrArg Prod.fst hw).symm
  have hret : ret.fresh x = 0 := by
    cases ret with
    | newCoroutine => exact absurd (show x ∈ own s (.fresh c) by rw [own, hpc]; simp) (hfresh c)
    | _ => rfl
  refine Stays.setWord hI hl hrun he hsig (stays_context hl he (goto_context hsig rfl) rfl rfl rfl)
    ?_ hplain.shut rfl hw (State.word_modState s hk _) (by decide) ?_ hfresh
    (fun hy => handled_of_point (P := fun y => s.Returned y ∨ y = x) hy (goto_context hsig rfl) rfl
      rfl (by rw [hplain.handles]; simp)) (hI.heaped.of_eq rfl)
  · rw [hpc]
    exact ⟨hplain.seat, by rw [hplain.fresh]; exact hret.symm, hplain.woken, hplain.starts,
      ⟨hplain.loop.1, by simp, hplain.loop.2⟩, fun _ => hplain.named, hplain.current⟩
  · by_contra hheld
    exact hb (hI.kept.off hw hheld)

/-- The exchange in `sched_schedule` on a coroutine that is asleep: `c` takes it. -/
theorem wake_inv {x : Cid} {ret : ScheduleRet} {kx : Coroutine}
    (hpc : (s.context c).pc = .scheduleXchg x ret) (hk : s.coro x = some kx)
    (hb : kx.state = STATE_BLOCKED) :
    Inv preemption ((s.modCoro x ({ · with state := STATE_RUNNABLE })).goto c
      (.scheduleEnqueue x .assert ret)) := by
  have hw := State.word_of_coro s hk
  have hsit := hI.control.sits hl
  simp only [Sits, he] at hsit
  have hctx : s.context c = ⟨.scheduleXchg x ret, []⟩ := by rw [← hpc, ← hsig]
  obtain ⟨-, hcur, -, -⟩ := hsit
  rw [hctx] at hcur
  refine Stays.wake hI hl hrun he (stays_context hl he (goto_context hsig rfl) rfl rfl rfl)
    ⟨hcur, by simp, ⟨trivial, by simp⟩, fun h => absurd rfl h, fun _ => rfl⟩ (by rw [hctx]; rfl) rfl
    rfl (by rw [hpc]; rfl) rfl ?_ hw (State.word_modState s hk _) (by decide) ?_ (by simp)
    (fun hy => handled_of_point (P := fun y => s.Returned y ∨ y = x) hy (goto_context hsig rfl) rfl
      rfl (by simp)) (hI.heaped.of_eq rfl)
  · rw [hpc]
    cases ret with
    | newCoroutine => exact .inr rfl
    | _ =>
      exact .inl ⟨hI.not_held_of_handled (.point (c := c) (by rw [hpc]; simp)) hw hb, rfl⟩
  · rw [State.loopOf_of_pc (by simp), State.loopOf_of_pc (by rw [hpc]; simp), State.goto_pc, hpc]
    rfl

/-- `sched_new_coroutine` has made a scheduler, and takes the new coroutine for it. -/
theorem newLocal_inv {x : Cid} {slot : Nat} (state errno : Int)
    (hpc : (s.context c).pc = .newLocal x slot) :
    Inv preemption ((State.modCoro
      { schedNewLocal seqOps s state errno .loopTop with
        localSchedulers := Function.update s.localSchedulers slot (some s.locals) } x
      ({ · with state := STATE_RUNNABLE })).goto c (.newEnqueue x s.locals .assert)) := by
  have hne := hI.exec_ne_coros hl he
  have hlt : t ≠ s.locals := by
    rintro rfl
    rw [(hI.control.vacant le_rfl).1] at hl
    cases hl
  generalize hs₁ : ({ schedNewLocal seqOps s state errno .loopTop with
    localSchedulers := Function.update s.localSchedulers slot (some s.locals) } : SeqState) = s₁
  have hnew : s₁ = { schedNewLocal seqOps s state errno .loopTop with
      localSchedulers := s₁.localSchedulers } := by rw [← hs₁]
  obtain ⟨hI₁, hidle⟩ := hI.newLocal state errno hnew
  have hctx : s₁.context c = ⟨.newLocal x slot, []⟩ := by
    rw [← hpc, ← hsig, ← hs₁]
    exact Function.update_of_ne hne _ _
  have hl₁ : s₁.sched t = some l := by
    rw [← hl, ← hs₁]
    exact Function.update_of_ne hlt _ _
  have hsig₁ : (s₁.context c).sig = [] := by rw [hctx]
  have hsit := hI₁.control.sits hl₁
  simp only [Sits, he] at hsit
  obtain ⟨-, hcur, -, -⟩ := hsit
  rw [hctx] at hcur
  have hw := hI₁.kept.made (x := x) (p := c) (by rw [own, hctx]; simp)
  obtain ⟨kx, hk⟩ : ∃ kx, s₁.coro x = some kx := by
    rcases hk : s₁.coro x with _ | kx
    · simp [State.word, hk] at hw
    · exact ⟨kx, rfl⟩
  refine Stays.wake hI₁ hl₁ hrun he (stays_context hl₁ he (goto_context hsig₁ rfl) rfl rfl rfl)
    ⟨hcur, by simp, ⟨trivial, by simp⟩, fun h => absurd rfl h, fun _ => rfl⟩ (by rw [hctx]; rfl) rfl
    rfl (by rw [hctx]; rfl) rfl (.inr (by rw [hctx]; rfl)) (State.word_of_coro s₁ hk)
    (State.word_modState s₁ hk _) (by decide) ?_ ?_
    (fun hy => handled_of_point (P := fun y => s₁.Returned y ∨ y = x) hy (goto_context hsig₁ rfl)
      rfl rfl (by simp)) (hI₁.heaped.of_eq rfl)
  · rw [State.loopOf_of_pc (by simp), State.loopOf_of_pc (by rw [hctx]; simp), State.goto_pc, hctx]
    rfl
  · intro u hu
    cases hu
    exact .inr hidle

/-- `sched_new_coroutine` starts the thread that it has made. -/
theorem newStart_inv {u : Tid} (hpc : (s.context c).pc = .newStart u) :
    Inv preemption ((s.modSched u fun l =>
      { l with eventLoopCoro := some l.currentCoro, started := true }).goto c .user) := by
  have hctx : s.context c = ⟨.newStart u, []⟩ := by rw [← hpc, ← hsig]
  have hsit := hI.control.sits hl
  simp only [Sits, he] at hsit
  obtain ⟨-, hcur, -, -⟩ := hsit
  rw [hctx] at hcur
  have hS : Stays s (s.goto c .user) t c l l ⟨.user, []⟩ :=
    stays_context hl he (goto_context hsig rfl) rfl rfl rfl
  have hloopc : (s.goto c .user).loopOf c = s.loopOf c := by
    rw [State.loopOf_of_pc (by simp), State.loopOf_of_pc (by rw [hpc]; simp), State.goto_pc, hpc]
    rfl
  have hI₁ : Inv preemption (s.goto c .user) := by
    exact hS.tau hI hl he hrun
      ⟨hcur, by simp, ⟨trivial, by simp⟩, fun h => absurd rfl h, fun _ => rfl⟩ rfl rfl
      (by rw [hctx]; rfl) (by rw [hpc]; rfl) (by rw [hpc]; rfl) hloopc (by simp)
      (fun hy => handled_of_point hy (goto_context hsig rfl) rfl rfl (by simp)) (hI.heaped.of_eq rfl)
  refine hI₁.start ⟨?_, fun d hd => ?_⟩
  · obtain ⟨lu, d, hlu, hns, heu, hcu, hlo⟩ := hI.control.starts (c := c) (u := u) (by rw [hpc]; rfl)
    refine ⟨lu, d, hlu, hns, heu, hcu, ?_⟩
    rw [hS.loopOf_eq (fun _ => rfl) hloopc, hlo]
  · by_cases hdc : d = c
    · rw [hdc, State.goto_pc] at hd; simp at hd
    · rw [State.goto_ne _ _ hdc] at hd
      exact hdc (hI.control.startsInj hd (by rw [hpc]; rfl))

theorem Stride.inv (hk : s.coro c = some k)
    (h : Stride seqOps preemption s t l c i (s.context c).pc s')
    (hok : ∀ x, i = .op (.schedule x) → s.Returned x) : Inv preemption s' := by
  have hC := hI.control
  have hsit := hC.sits hl
  simp only [Sits, he] at hsit
  obtain ⟨hlive, hcur, hentry, hshut⟩ := hsit
  have hctx : s.context c = ⟨(s.context c).pc, []⟩ := by rw [← hsig]
  have hnamed := (hC.named c).1
  have hH := hI.heaped
  generalize hpc : (s.context c).pc = pc at h hctx hnamed
  rw [hctx] at hcur
  cases h with
  | @resched r ret s₁ r' hy =>
    have hA := activation_call hsig hpc (hC.named c) r'
    have := hy.inv hI hl hrun he hA
    rw [State.goto, hy.context_eq, hsig]
    rwa [hy.context_eq] at this
  | flow hf => exact (hpc ▸ hf).inv hI hl hrun he hsig hok
  | @trampoline k' start hp hk' hst =>
    obtain rfl : l.currentCoro = c := hcur
    cases Option.some.inj (hk.symm.trans hk')
    have hplain := start.plain l.currentCoro
    rw [State.setPreempt_eq s t _ hl]
    refine Stays.tau hI hl he
      ⟨⟨rfl, goto_context hsig rfl, rfl, rfl, by simp, by simp⟩, by simpa using he⟩ hrun
      ⟨by simpa using hplain.current.symm, fun _ _ h => absurd h hplain.shut,
        ⟨hplain.named, by simp⟩, fun h => absurd rfl h, fun _ => rfl⟩ rfl rfl
      (by rw [hctx]; exact hplain.seat) (by rw [hpc]; exact hplain.fresh)
      (by rw [hpc]; exact hplain.woken) ?_ (by rw [hplain.starts]; simp)
      (fun hy => handled_of_point hy (goto_context hsig rfl) rfl rfl
        (by rw [hplain.handles]; simp)) (hH.of_eq rfl)
    rw [State.loopOf_of_pc (by rw [State.goto_pc]; exact hplain.loop.2), State.goto_pc,
      hplain.loop.1]
    unfold State.loopOf
    rw [hpc]
    simp only [State.word_of_coro s hk, Option.bind_some, hst]
    cases start <;> rfl
  | setErrno hi =>
    exact Stays.tau hI hl he (stays_sched hl he (Function.update_eq_self c s.context).symm rfl rfl rfl
      rfl rfl rfl) hrun ⟨by rw [hctx]; exact hcur, hshut, hC.named c, hC.stacked c,
        fun hp => hC.quiet hp c⟩ rfl rfl rfl rfl rfl rfl (fun _ h => h)
      (fun hy => handled_of_point hy (Function.update_eq_self c s.context).symm rfl rfl
        fun y hy => .inl (.point hy)) (hH.of_eq rfl)
  | newCoroutine hi => exact newCoroutine_inv hI hl hrun he hsig hpc
  | @wait time hi =>
    obtain rfl : l.currentCoro = c := hcur
    exact Stays.setWord hI hl hrun he hsig (stays_context hl he (goto_context hsig rfl) rfl rfl rfl)
      (by rw [hpc]; constructor <;> simp) (by simp) rfl (State.word_of_coro s hk)
      (State.word_modState s hk _) (by decide) ⟨_, hI.own_of_runs hl (.inl he)⟩
      (hI.running_not_fresh hl (.inl he))
      (fun hy => handled_of_point (P := fun y => s.Returned y ∨ y = l.currentCoro) hy
        (goto_context hsig rfl) rfl rfl (by simp)) (hH.of_eq rfl)
  | @eventWait fd events hi =>
    obtain rfl : l.currentCoro = c := hcur
    refine Stays.setWord hI hl hrun he hsig (stays_context hl he (goto_context hsig rfl) rfl rfl rfl)
      (by rw [hpc]; constructor <;> simp) (by simp) rfl (State.word_of_coro s hk)
      (State.word_modState _ hk _) (by decide) ⟨_, hI.own_of_runs hl (.inl he)⟩
      (hI.running_not_fresh hl (.inl he)) (fun {y} hy => ?_) (hH.of_eq rfl)
    cases hy with
    | timer hw hx => exact .inl (.timer hw hx)
    | @event key w hw hx =>
      by_cases hkey : key = l.currentCoro
      · subst hkey
        simp only [schedPrepareToSuspend, State.modCoro, State.goto, Function.update_self,
          Option.some.injEq] at hw
        subst hw
        exact .inr (.inr (Option.some.inj hx).symm)
      · simp only [schedPrepareToSuspend, State.modCoro, State.goto] at hw
        rw [Function.update_of_ne hkey] at hw
        exact .inl (.event hw hx)
    | @point d hx =>
      by_cases hd : d = l.currentCoro
      · subst hd; simp at hx
      · rw [State.goto_ne _ _ hd] at hx
        exact .inl (.point hx)
  | waitLock hlock =>
    exact tau_goto hI hl hrun he hsig rfl rfl rfl rfl rfl rfl (by rw [hpc]; constructor <;> simp)
      (by simp) (fun hy => handled_of_point hy (goto_context hsig rfl) rfl rfl
        fun y hy => .inl (.point (c := c) (by rw [hpc]; exact hy))) (hH.of_eq rfl)
  | @waitPush w hf =>
    refine tau_goto hI hl hrun he hsig rfl rfl rfl rfl rfl rfl (by rw [hpc]; constructor <;> simp)
      (by simp) (fun {y} hy => .inl ?_) (hH.push hf rfl)
    cases hy with
    | timer hw hx =>
      rw [State.goto, heapPush_bag] at hw
      rcases Multiset.mem_cons.1 hw with rfl | hw
      · exact .point (c := c) (by rw [hpc]; simp [hx])
      · exact .timer hw hx
    | event hw hx => exact .event hw hx
    | @point d hx =>
      by_cases hd : d = c
      · subst hd; simp at hx
      · rw [State.goto_ne _ _ hd] at hx
        exact .point hx
  | waitUnlock =>
    exact tau_goto hI hl hrun he hsig rfl rfl rfl rfl rfl rfl (by rw [hpc]; constructor <;> simp)
      (by simp) (fun hy => handled_of_point hy (goto_context hsig rfl) rfl rfl (by simp))
      (hH.of_eq rfl)
  | eventRegister hr =>
    exact tau_goto hI hl hrun he hsig rfl rfl rfl rfl rfl rfl (by rw [hpc]; constructor <;> simp)
      (by simp) (fun hy => handled_of_point hy (goto_context hsig rfl) rfl rfl (by simp))
      (hH.of_eq rfl)
  | eventUnregister hr hw hev =>
    refine tau_goto hI hl hrun he hsig rfl rfl rfl rfl rfl rfl (by rw [hpc]; constructor <;> simp)
      (by simp) (fun {y} hy => .inl ?_) (hH.of_eq rfl)
    cases hy with
    | timer hw hx => exact .timer hw hx
    | @event key w hw hx =>
      by_cases hkey : key = c
      · subst hkey; simp [State.goto] at hw
      · simp only [State.goto] at hw
        rw [Function.update_of_ne hkey] at hw
        exact .event hw hx
    | @point d hx =>
      by_cases hd : d = c
      · subst hd; simp at hx
      · rw [State.goto_ne _ _ hd] at hx
        exact .point hx
  | ret hi hk' hs hp => exact ret_inv hI hl hrun he hsig hpc
  | suspendBlock hp =>
    obtain rfl : l.currentCoro = c := hcur
    rw [State.setPreempt_eq s t _ hl]
    exact Stays.like hI hl he hrun hsig
      ⟨⟨rfl, goto_context hsig rfl, rfl, rfl, by simp, by simp⟩, by simpa using he⟩
      (by rw [hpc]; constructor <;> simp) (by simp) (fun hp _ => l.setLock_preemptLock true hp) rfl
      rfl (fun hy => handled_of_point hy (goto_context hsig rfl) rfl rfl (by simp)) (hH.of_eq rfl)
  | suspendPop hq => exact absurd hq seqOps_pop_ne
  | @suspendTake current p ret q x kx hq hkx =>
    obtain rfl : current = c := hnamed
    obtain ⟨xs, hx, rfl⟩ := seqOps_pop hq
    refine Stays.move hI hl he
      (stays_sched hl he (goto_context hsig rfl) rfl rfl rfl rfl rfl rfl) hrun
      ⟨rfl, fun hp _ _ => hshut hp hsig (by rw [hpc]; trivial), ⟨rfl, by simp⟩,
        fun h => absurd rfl h, fun _ => rfl⟩ ?_ ?_ (hI.nodes_pop hx) (by simp [Context.seat])
      (State.word_modErrno s _ _) (by rw [hpc]; rfl) (by rw [hpc]; rfl) ?_ (by simp)
      (fun hy => handled_of_point hy (goto_context hsig rfl) rfl rfl (by simp)) (hH.of_eq rfl)
    · rw [hctx, hx]
      simp [Context.seat, State.modCoro, State.modSched, State.goto]
    · intro u hu
      simp [State.modCoro, State.modSched, State.goto, hu]
    · rw [State.loopOf_of_pc (by simp), State.loopOf_of_pc (by rw [hpc]; simp), State.goto_pc, hpc]
      rfl
  | @park current x ret kc hkc hb =>
    obtain rfl : current = c := hnamed
    exact park_inv hI hl hrun he hsig hpc hkc
  | @abort current x ret kc hkc hb =>
    obtain rfl : current = c := hnamed
    refine Stays.tau hI hl he (stays_sched hl he (goto_context hsig rfl) rfl rfl rfl rfl rfl rfl) hrun
      ⟨rfl, fun hp _ _ => hshut hp hsig (by rw [hpc]; trivial), ⟨trivial, by simp⟩,
        fun h => absurd rfl h, fun _ => rfl⟩ rfl rfl (by rw [hctx]; rfl) (by rw [hpc]; rfl)
      (by rw [hpc]; rfl) ?_ (by simp)
      (fun hy => handled_of_point hy (goto_context hsig rfl) rfl rfl (by simp)) (hH.of_eq rfl)
    rw [State.loopOf_of_pc (by simp), State.loopOf_of_pc (by rw [hpc]; simp), State.goto_pc, hpc]
    rfl
  | suspendPush hq => rw [seqOps_push] at hq; cases hq
  | @suspendPushed x p ret q hq =>
    rw [seqOps_push] at hq
    cases hq
    refine Stays.move hI hl he (stays_context hl he (goto_context hsig rfl) rfl rfl rfl) hrun
      ⟨hcur, fun hp _ _ => hshut hp hsig (by rw [hpc]; trivial), ⟨trivial, by simp⟩,
        fun h => absurd rfl h, fun _ => rfl⟩ ?_ ?_ (nodes_push hI.kept.nodes t x)
      (by simp [Context.seat]) rfl (by rw [hpc]; rfl) (by rw [hpc]; rfl) ?_ (by simp)
      (fun hy => handled_of_point hy (goto_context hsig rfl) rfl rfl (by simp)) (hH.of_eq rfl)
    · rw [hctx]
      simp only [Context.seat, State.goto, Pc.seat, Seat.tokens, Function.update_self,
        ← Multiset.coe_add, Multiset.coe_singleton, Multiset.insert_eq_cons, ← Multiset.singleton_add]
      rw [add_assoc, add_comm ({x} : Multiset Cid)]
    · intro u hu
      simp [State.goto, hu]
    · rw [State.loopOf_of_pc (by simp), State.loopOf_of_pc (by rw [hpc]; simp), State.goto_pc, hpc]
      rfl
  | @suspendUnblock ret hp =>
    have hplain := ret.plain c
    rw [State.setPreempt_eq s t _ hl]
    exact Stays.like hI hl he hrun hsig
      ⟨⟨rfl, goto_context hsig rfl, rfl, rfl, by simp, by simp⟩, by simpa using he⟩
      (by rw [hpc]; exact ⟨hplain.seat, hplain.fresh, hplain.woken, hplain.starts,
        ⟨hplain.loop.1, by simp, hplain.loop.2⟩, fun _ => hplain.named, hplain.current⟩) (by simp)
      (fun _ h => absurd h hplain.shut) rfl rfl
      (fun hy => handled_of_point hy (goto_context hsig rfl) rfl rfl
        (by rw [hplain.handles]; simp)) (hH.of_eq rfl)
  | rouse hkx hb => exact rouse_inv hI hl hrun he hsig hpc hkx hb
  | wake hkx hb => exact wake_inv hI hl hrun he hsig hpc hkx hb
  | schedulePush hq => rw [seqOps_push] at hq; cases hq
  | @schedulePushed x p ret q hq =>
    rw [seqOps_push] at hq
    cases hq
    have hplain := ret.plain c
    refine Stays.settle hI hl hrun he (stays_context hl he (goto_context hsig rfl) rfl rfl rfl)
      ⟨hcur.trans hplain.current.symm, fun _ _ h => absurd h hplain.shut, ⟨hplain.named, by simp⟩,
        fun h => absurd rfl h, fun _ => rfl⟩ (by rw [hctx]; exact hplain.seat) (u := t)
      (by rw [hl]; simp) rfl (by rw [hpc]; exact hplain.fresh) (by rw [hpc]; rfl) hplain.woken rfl ?_
      (by rw [hplain.starts]; simp)
      (fun hy => handled_of_point hy (goto_context hsig rfl) rfl rfl
        (by rw [hplain.handles]; simp)) (hH.of_eq rfl)
    rw [State.loopOf_of_pc (by rw [State.goto_pc]; exact hplain.loop.2),
      State.loopOf_of_pc (by rw [hpc]; simp), State.goto_pc, hpc]
    exact hplain.loop.1
  | @fetchAdd x =>
    split
    all_goals
      exact tau_goto hI hl hrun he hsig rfl rfl rfl rfl rfl rfl (by rw [hpc]; constructor <;> simp)
        (by simp) (fun hy => handled_of_point hy (goto_context hsig rfl) rfl rfl (by simp))
        (hH.of_eq rfl)
  | newLocal hi => exact newLocal_inv hI hl hrun he hsig _ _ hpc
  | newPush hq => rw [seqOps_push] at hq; cases hq
  | @newPushed x u p q hq =>
    rw [seqOps_push] at hq
    cases hq
    obtain ⟨lu, d, hlu, -⟩ := hC.starts (c := c) (u := u) (by rw [hpc]; rfl)
    refine Stays.settle hI hl hrun he (stays_context hl he (goto_context hsig rfl) rfl rfl rfl)
      ⟨hcur, by simp, ⟨trivial, by simp⟩, fun h => absurd rfl h, fun _ => rfl⟩ (by rw [hctx]; rfl)
      (u := u) (by rw [hlu]; simp) rfl (by rw [hpc]; rfl) (by rw [hpc]; rfl) rfl rfl ?_
      (by rw [hpc]; simp)
      (fun hy => handled_of_point hy (goto_context hsig rfl) rfl rfl (by simp)) (hH.of_eq rfl)
    rw [State.loopOf_of_pc (by simp), State.loopOf_of_pc (by rw [hpc]; simp), State.goto_pc, hpc]
    rfl
  | newStart => exact newStart_inv hI hl hrun he hsig hpc
  | loopNone hm =>
    exact tau_goto hI hl hrun he hsig rfl rfl rfl rfl rfl rfl (by rw [hpc]; constructor <;> simp)
      (by simp) (fun hy => handled_of_point hy (goto_context hsig rfl) (heapMin_bag _) rfl (by simp))
      (hH.min rfl)
  | loopMin hm =>
    exact tau_goto hI hl hrun he hsig rfl rfl rfl rfl rfl rfl (by rw [hpc]; constructor <;> simp)
      (by simp) (fun hy => handled_of_point hy (goto_context hsig rfl) (heapMin_bag _) rfl (by simp))
      (hH.min rfl)
  | eintr hi => exact hI
  | ready hi hlen hd =>
    exact tau_goto hI hl hrun he hsig rfl rfl rfl rfl rfl rfl (by rw [hpc]; constructor <;> simp)
      (by simp) (fun hy => handled_of_point hy (goto_context hsig rfl) rfl rfl (by simp))
      (hH.of_eq rfl)
  | @pollEvent u v key revents rest full w x hw hx =>
    refine tau_goto hI hl hrun he hsig rfl rfl rfl rfl rfl rfl (by rw [hpc]; constructor <;> simp)
      (by simp) (fun {y} hy => .inl ?_) (hH.of_eq rfl)
    cases hy with
    | timer hw hx => exact .timer hw hx
    | @event key' w' hw' hx' =>
      by_cases hkey : key' = key
      · subst hkey
        simp only [State.goto, Function.update_self, Option.some.injEq] at hw'
        rw [← hw'] at hx'
        cases hx'
      · simp only [State.goto] at hw'
        rw [Function.update_of_ne hkey] at hw'
        exact .event hw' hx'
    | @point d hxd =>
      by_cases hd : d = c
      · subst hd
        rw [State.goto_pc] at hxd
        obtain rfl : y = x := by simpa using hxd
        exact .event hw hx
      · rw [State.goto_ne _ _ hd] at hxd
        exact .point hxd
  | timersLock hlock =>
    exact tau_goto hI hl hrun he hsig rfl rfl rfl rfl rfl rfl (by rw [hpc]; constructor <;> simp)
      (by simp) (fun hy => handled_of_point hy (goto_context hsig rfl) rfl rfl (by simp))
      (hH.of_eq rfl)
  | @timersMin u v =>
    rcases hm : (heapMin s.timerHeap).1 with _ | w
    · exact tau_goto hI hl hrun he hsig rfl rfl rfl rfl rfl rfl (by rw [hpc]; constructor <;> simp)
        (by simp) (fun hy => handled_of_point hy (goto_context hsig rfl) (heapMin_bag _) rfl
          (by simp)) (hH.min rfl)
    · refine tau_goto hI hl hrun he hsig rfl rfl rfl rfl rfl rfl (by rw [hpc]; constructor <;> simp)
        (by simp) (fun hy => handled_of_point hy (goto_context hsig rfl) (heapMin_bag _) rfl
          fun y hy => .inl (.timer (mem_bag_of_heapMin hm) ?_)) (hH.min rfl)
      simpa [eq_comm] using hy
  | @timersPop u v w =>
    refine tau_goto hI hl hrun he hsig rfl rfl rfl rfl rfl rfl (by rw [hpc]; constructor <;> simp)
      (by simp) (fun {y} hy => .inl ?_) (hH.popMin rfl)
    cases hy with
    | timer hw hx => exact .timer (hH.mem_popMin hw) hx
    | event hw hx => exact .event hw hx
    | @point d hx =>
      by_cases hd : d = c
      · subst hd
        rw [State.goto_pc] at hx
        exact .point (c := d) (by rw [hpc]; simpa using hx)
      · rw [State.goto_ne _ _ hd] at hx
        exact .point hx
  | @timersUnlock u v again =>
    have hplain : Pc.Plain c (some u)
        (if again then .timersEmpty u v else afterTimers u v : Pc Unit Unit) := by
      split
      · constructor <;> simp
      · exact afterTimers_plain c u v
    refine tau_goto hI hl hrun he hsig rfl rfl rfl rfl rfl rfl
      (by rw [hpc]; exact Pc.Plain.like (by constructor <;> simp) hplain) hplain.shut
      (fun hy => handled_of_point hy (goto_context hsig rfl) rfl rfl
        (by rw [hplain.handles]; simp)) (hH.of_eq rfl)

end

end Lwthread.Scheduler
