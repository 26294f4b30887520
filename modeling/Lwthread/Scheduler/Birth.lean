import Lwthread.Scheduler.Rules

/-!
# New coroutines and threads

`sched_make_coro` and `sched_new_local` keep the invariant, and so does the start of a thread whose
scheduler is complete. A new coroutine is asleep until its maker takes it; the coroutine of a new
thread is the event loop of that thread from the beginning.
-/

namespace Lwthread.Scheduler

open Lwthread.Util Custody

variable {preemption : Bool} {s s' : SeqState} {x' : Context Unit Unit} {t u : Tid}
  {l : LocalSched Unit}

section

variable (hI : Inv preemption s)

include hI

/-- No thread executes a coroutine that is not allocated. -/
theorem Inv.exec_ne_coros {d : Cid} (hl : s.sched t = some l) (he : l.exec = .on d) :
    d ≠ s.coros := by
  rintro rfl
  have hsit := hI.control.sits hl
  simp only [Sits, he] at hsit
  exact lt_irrefl _ (hI.kept.known (.inr hsit.1))

theorem Inv.seat_create (hctx : s'.context = Function.update s.context s.coros x')
    (hsched : s'.sched u = s.sched u) : s'.seat u = s.seat u := by
  unfold State.seat
  rw [hsched]
  rcases hlu : s.sched u with _ | lu
  · rfl
  · rcases heu : lu.exec with d | _ | p | y
    · have hd := hI.exec_ne_coros hlu heu
      simp only [heu, hctx, Function.update_of_ne hd]
    all_goals simp only [heu]

theorem Inv.hands_create (hctx : s'.context = Function.update s.context s.coros x')
    (hfresh : x'.pc.fresh = 0) (hwoken : x'.pc.woken = 0) (d : Cid) :
    own s' (.fresh d) = own s (.fresh d) ∧ own s' (.woken d) = own s (.woken d) := by
  simp only [own, hctx]
  by_cases hd : d = s.coros
  · subst hd
    rw [Function.update_self, hI.control.blank le_rfl, hfresh, hwoken]
    exact ⟨rfl, rfl⟩
  · rw [Function.update_of_ne hd]
    exact ⟨rfl, rfl⟩

omit hI in
theorem handled_create (hctx : s'.context = Function.update s.context s.coros x')
    (hhandles : x'.pc.handles = []) (htimer : s'.timerHeap = s.timerHeap)
    (hevent : s'.eventWait = s.eventWait) {y : Cid} (hy : s'.Handled y) : s.Handled y := by
  cases hy with
  | timer hw hx => exact .timer (htimer ▸ hw) hx
  | event hw hx => exact .event (hevent ▸ hw) hx
  | @point d hx =>
    rw [hctx] at hx
    by_cases hd : d = s.coros
    · subst hd; rw [Function.update_self, hhandles] at hx; cases hx
    · rw [Function.update_of_ne hd] at hx; exact .point hx

omit hI in
theorem loopOf_create (hctx : s'.context = Function.update s.context s.coros x')
    {w : Int × Option Start} (hword : s'.word = Function.update s.word s.coros (some w)) {y : Cid}
    (hy : y ≠ s.coros) : s'.loopOf y = s.loopOf y := by
  unfold State.loopOf
  rw [hctx, hword, Function.update_of_ne hy, Function.update_of_ne hy]

/-- The control invariant when a coroutine is made, and perhaps a scheduler `s.locals` for it. -/
theorem Inv.control_create {w : Int × Option Start}
    (hctx : s'.context = Function.update s.context s.coros x')
    (hword : s'.word = Function.update s.word s.coros (some w)) (hcoros : s'.coros = s.coros + 1)
    (hlocals : s.locals ≤ s'.locals) (hsched : ∀ u, u ≠ s.locals → s'.sched u = s.sched u)
    (hlist : ∀ u, s'.queues.list u = s.queues.list u)
    (hvac : s'.locals ≤ s.locals → s'.sched s.locals = none)
    (hnew : ∀ l, s'.sched s.locals = some l → l.started = false ∧ Sits preemption s' s.locals l)
    (hnamed : x'.Named s.coros) (hsig : x'.sig = []) (hstarts : x'.pc.starts = none)
    (hpark : (∃ l, s'.sched s.locals = some l ∧ l.Runs s.coros) ∨ x'.Resumes) :
    Control preemption s' := by
  have hC := hI.control
  have hself : s'.context s.coros = x' := by rw [hctx, Function.update_self]
  have hne : ∀ {d}, d ≠ s.coros → s'.context d = s.context d := fun hd => by
    rw [hctx, Function.update_of_ne hd]
  have hw : ∀ {d}, d ≠ s.coros → s'.word d = s.word d := fun hd => by
    rw [hword, Function.update_of_ne hd]
  have hlt : ∀ {u lu}, s.sched u = some lu → u ≠ s.locals := by
    rintro u lu hlu rfl
    rw [(hC.vacant le_rfl).1] at hlu
    cases hlu
  have hst : ∀ {d u}, (s'.context d).pc.starts = some u → (s.context d).pc.starts = some u := by
    intro d u hd
    by_cases hdx : d = s.coros
    · subst hdx; rw [hself, hstarts] at hd; cases hd
    · exact hne hdx ▸ hd
  have hloop : ∀ {d u}, s.loopOf d = some u → s'.loopOf d = some u := by
    intro d u hd
    rw [loopOf_create hctx hword, hd]
    rintro rfl
    exact lt_irrefl _ (hI.kept.known (.inr (hI.kept.live ⟨_, hI.kept.home hd⟩)))
  refine ⟨?_, ?_, ?_, ?_, ?_, ?_, ?_, ?_, ?_, ?_⟩
  · intro u lu hlu
    by_cases hu : u = s.locals
    · subst hu; exact (hnew lu hlu).2
    · rw [hsched u hu] at hlu
      have hsit := hC.sits hlu
      rcases heu : lu.exec with d | _ | p | y <;> simp only [Sits, heu] at hsit ⊢
      · have hd := hI.exec_ne_coros hlu heu
        rw [hne hd, hw hd, hlist u]
        exact hsit
      · have hd : lu.currentCoro ≠ s.coros := fun h =>
          lt_irrefl _ (h ▸ hI.kept.known (.inr hsit.1))
        rw [hne hd, hw hd]
        exact hsit
      · rw [hw hsit.2.1.ne, hcoros]
        exact ⟨hsit.1, Nat.lt_succ_of_lt hsit.2.1, hsit.2.2⟩
      · exact hsit
  · intro d
    by_cases hd : d = s.coros
    · subst hd; rw [hself]; exact hnamed
    · rw [hne hd]; exact hC.named d
  · intro d
    by_cases hd : d = s.coros
    · subst hd; rw [hself]; exact fun h => absurd hsig h
    · rw [hne hd]; exact hC.stacked d
  · intro hp d
    by_cases hd : d = s.coros
    · subst hd; rw [hself]; exact hsig
    · rw [hne hd]; exact hC.quiet hp d
  · intro d hd
    by_cases hdx : d = s.coros
    · subst hdx
      rw [hself]
      refine hpark.imp_left ?_
      rintro ⟨l, hl, hr⟩
      exact ⟨s.locals, l, hl, hr⟩
    · rw [hw hdx] at hd
      rw [hne hdx]
      refine (hC.parked hd).imp_left ?_
      rintro ⟨u, lu, hlu, hr⟩
      refine ⟨u, lu, ?_, hr⟩
      rw [hsched u (hlt hlu), hlu]
  · intro d hd
    rw [hcoros] at hd
    rw [hne (by rintro rfl; exact Nat.not_succ_le_self _ hd)]
    exact hC.blank ((Nat.le_succ _).trans hd)
  · intro u hu
    have hv := hC.vacant (hlocals.trans hu)
    refine ⟨?_, by rw [hlist u]; exact hv.2⟩
    by_cases hus : u = s.locals
    · subst hus; exact hvac hu
    · rw [hsched u hus]; exact hv.1
  · intro d u hd
    obtain ⟨lu, e, hlu, hns, heu, hcu, hlo⟩ := hC.starts (hst hd)
    exact ⟨lu, e, (hsched u (hlt hlu)).trans hlu, hns, heu, hcu, hloop hlo⟩
  · exact fun hd hd' => hC.startsInj (hst hd) (hst hd')
  · intro u lu hlu hst
    by_cases hu : u = s.locals
    · subst hu
      rw [(hnew lu hlu).1] at hst
      cases hst
    · obtain ⟨e, he, hlo⟩ := hC.loops ((hsched u hu).symm.trans hlu) hst
      exact ⟨e, he, hloop hlo⟩

/-- The node of a new coroutine is not linked. -/
theorem Inv.nodes_create (d : Cid) :
    Function.update s.queues.linked s.coros false d = true ↔ ∃ u, d ∈ s.queues.list u := by
  by_cases hd : d = s.coros
  · subst hd
    rw [Function.update_self]
    simp only [Bool.false_eq_true, false_iff, not_exists]
    intro u hu
    exact lt_irrefl _ (hI.kept.known
      (.inr (hI.kept.live ⟨.thread u, Multiset.mem_add.2 (.inr hu)⟩)))
  · rw [Function.update_of_ne hd]
    exact hI.kept.nodes d

omit hI in
theorem make_context : (schedMakeCoro seqOps s .user).context =
    Function.update s.context s.coros ⟨.trampoline, []⟩ := rfl

omit hI in
theorem make_handled {y : Cid} (hy : (schedMakeCoro seqOps s .user).Handled y) : s.Handled y :=
  handled_create make_context rfl rfl rfl hy

/-- `sched_make_coro` leaves custody as it is: nobody keeps the new coroutine. -/
theorem Inv.own_make : own (schedMakeCoro seqOps s .user) = own s := by
  funext h
  cases h with
  | thread u => rw [own, own, hI.seat_create make_context rfl]; rfl
  | fresh d => exact (hI.hands_create make_context rfl rfl d).1
  | woken d => exact (hI.hands_create make_context rfl rfl d).2

/-- `sched_make_coro` keeps the invariant. -/
theorem Inv.make : Inv preemption (schedMakeCoro seqOps s .user) := by
  have hctx := make_context (s := s)
  have hword : (schedMakeCoro seqOps s .user).word =
      Function.update s.word s.coros (some (STATE_BLOCKED, some .user)) := by
    funext y
    unfold State.word schedMakeCoro
    by_cases hy : y = s.coros
    · subst hy; simp
    · simp [hy]
  refine ⟨?_, ?_, ⟨hI.heaped.1, hI.heaped.2, hI.heaped.3⟩⟩
  · refine hI.kept.create hI.nodes_create rfl hword (fun y hy => loopOf_create hctx hword hy)
      (.inl ⟨hI.own_make, rfl, ?_⟩) make_handled
    unfold State.loopOf
    rw [hctx, hword, Function.update_self, Function.update_self]
    rfl
  · refine hI.control_create hctx hword rfl le_rfl (fun _ _ => rfl) (fun _ => rfl)
      (fun _ => (hI.control.vacant le_rfl).1) (fun l hl => ?_) ⟨trivial, by simp⟩ rfl rfl
      (.inr trivial)
    rw [show (schedMakeCoro seqOps s .user).sched s.locals = s.sched s.locals from rfl,
      (hI.control.vacant le_rfl).1] at hl
    cases hl

/-- `sched_new_local` keeps the invariant, and leaves a scheduler whose thread nobody is about to
start. -/
theorem Inv.newLocal (state errno : Int)
    (hs' : s' = { schedNewLocal seqOps s state errno .loopTop with
      localSchedulers := s'.localSchedulers }) :
    Inv preemption s' ∧ s'.Idle s.locals := by
  have hvac := hI.control.vacant (le_refl s.locals)
  have hctx : s'.context = Function.update s.context s.coros ⟨.loopTop s.locals, []⟩ := by
    rw [hs']; rfl
  have hword : s'.word = Function.update s.word s.coros (some (state, none)) := by
    rw [hs']
    funext y
    unfold State.word schedNewLocal
    by_cases hy : y = s.coros
    · subst hy; simp
    · simp [hy]
  have hsched : s'.sched =
      Function.update s.sched s.locals (some ⟨s.coros, none, false, 0, .on s.coros, false⟩) := by
    rw [hs']; rfl
  have hself : s'.sched s.locals = some ⟨s.coros, none, false, 0, .on s.coros, false⟩ := by
    rw [hsched, Function.update_self]
  have hne : ∀ u, u ≠ s.locals → s'.sched u = s.sched u := fun u hu => by
    rw [hsched, Function.update_of_ne hu]
  have hlist : ∀ u, s'.queues.list u = s.queues.list u := by
    intro u
    rw [hs']
    by_cases hu : u = s.locals
    · subst hu; simp [schedNewLocal, seqOps, hvac.2]
    · simp [schedNewLocal, seqOps, hu]
  have hctxc : s'.context s.coros = ⟨.loopTop s.locals, []⟩ := by rw [hctx, Function.update_self]
  have hloop : s'.loopOf s.coros = some s.locals := by
    rw [State.loopOf_of_pc (by rw [hctxc]; simp), hctxc]
    rfl
  refine ⟨⟨?_, ?_, ?_⟩, ⟨_, s.coros, hself, rfl, rfl, rfl, hloop⟩, ?_⟩
  · refine hI.kept.create ?_ (by rw [hs']; rfl) hword (fun y hy => loopOf_create hctx hword hy)
      (.inr ⟨s.locals, ?_, rfl, hloop⟩)
      fun hy => handled_create hctx rfl (by rw [hs']; rfl) (by rw [hs']; rfl) hy
    · intro d
      simp only [hlist]
      rw [hs']
      exact hI.nodes_create d
    · funext h
      cases h with
      | thread u =>
        by_cases hu : u = s.locals
        · subst hu
          rw [Function.update_self, own, seat_of_exec hself rfl, hctxc, hlist, own]
          simp [Context.seat, State.seat, hvac.1, hvac.2]
        · rw [Function.update_of_ne (by simpa using hu), own, own, hI.seat_create hctx (hne u hu),
            hlist]
      | fresh d =>
        rw [Function.update_of_ne (by simp)]
        exact (hI.hands_create hctx rfl rfl d).1
      | woken d =>
        rw [Function.update_of_ne (by simp)]
        exact (hI.hands_create hctx rfl rfl d).2
  · refine hI.control_create hctx hword (by rw [hs']; rfl) (by rw [hs']; exact Nat.le_succ _) hne
      hlist (fun h => ?_) (fun l hl => ?_) ⟨trivial, by simp⟩ rfl rfl
      (.inl ⟨_, hself, .inl rfl⟩)
    · rw [hs'] at h
      exact absurd h (Nat.not_succ_le_self _)
    · cases Option.some.inj (hself.symm.trans hl)
      refine ⟨rfl, ?_⟩
      simp only [Sits, hctxc, hword, Function.update_self]
      exact ⟨by simp, rfl, by simp [Context.seat], by simp⟩
  · obtain ⟨h1, h2, h3⟩ := hI.heaped
    have ht : s'.timerHeap = s.timerHeap := by rw [hs']; rfl
    exact ⟨ht ▸ h1, ht ▸ h2, ht ▸ h3⟩
  · intro d
    by_cases hd : d = s.coros
    · subst hd; rw [hctxc]; simp
    · rw [hctx, Function.update_of_ne hd]
      intro h
      obtain ⟨lu, e, hlu, -⟩ := hI.control.starts h
      rw [hvac.1] at hlu
      cases hlu

/-- The start of a thread whose scheduler is complete keeps the invariant. -/
theorem Inv.start (hidle : s.Idle u) :
    Inv preemption (s.modSched u fun l =>
      { l with eventLoopCoro := some l.currentCoro, started := true }) := by
  obtain ⟨⟨lu, d, hlu, -, heu, hcu, hlo⟩, hno⟩ := hidle
  have hC := hI.control
  generalize hs' : (s.modSched u fun l =>
    { l with eventLoopCoro := some l.currentCoro, started := true }) = s'
  have hsched : s'.sched = Function.update s.sched u
      (some { lu with eventLoopCoro := some lu.currentCoro, started := true }) := by
    rw [← hs', State.modSched, hlu]; rfl
  have hself : s'.sched u =
      some { lu with eventLoopCoro := some lu.currentCoro, started := true } := by
    rw [hsched, Function.update_self]
  have hne : ∀ v, v ≠ u → s'.sched v = s.sched v := fun v hv => by
    rw [hsched, Function.update_of_ne hv]
  have hctx : s'.context = s.context := by rw [← hs']; rfl
  have hq : s'.queues = s.queues := by rw [← hs']; rfl
  have hword : s'.word = s.word := by rw [← hs']; rfl
  have hloop : s'.loopOf = s.loopOf := by rw [← hs']; rfl
  have hseat : s'.seat = s.seat := by
    funext v
    unfold State.seat
    by_cases hv : v = u
    · subst hv; rw [hself, hlu, hctx]
    · rw [hne v hv, hctx]
  have hown : own s' = own s := by
    funext h
    cases h with
    | thread v => rw [own, own, hseat, hq]
    | fresh d => rw [own, own, hctx]
    | woken d => rw [own, own, hctx]
  -- every scheduler is as before, up to its event loop and its start
  have hback : ∀ {v lv}, s'.sched v = some lv → ∃ l₀, s.sched v = some l₀ ∧ lv.exec = l₀.exec ∧
      lv.currentCoro = l₀.currentCoro ∧ lv.preemptLock = l₀.preemptLock := by
    intro v lv hv
    by_cases hvu : v = u
    · subst hvu
      cases Option.some.inj (hself.symm.trans hv)
      exact ⟨lu, hlu, rfl, rfl, rfl⟩
    · exact ⟨lv, (hne v hvu).symm.trans hv, rfl, rfl, rfl⟩
  refine ⟨hI.kept.same (by rw [hq]; exact hI.kept.nodes) (by rw [← hs']; rfl) hloop hown hword ?_,
    ⟨?_, ?_, ?_, ?_, ?_, ?_, ?_, ?_, ?_, ?_⟩, ?_⟩
  · intro y hy
    refine .inl ?_
    rw [← hs'] at hy
    cases hy with
    | timer hw hx => exact .timer hw hx
    | event hw hx => exact .event hw hx
    | point hx => exact .point hx
  · intro v lv hv
    obtain ⟨l₀, hl₀, he, hc, hp⟩ := hback hv
    have hsit := hC.sits hl₀
    unfold Sits at hsit ⊢
    rw [he, hc, hp, hword, hctx, hq, show s'.coros = s.coros by rw [← hs']; rfl]
    exact hsit
  · rw [hctx]; exact hC.named
  · rw [hctx]; exact hC.stacked
  · rw [hctx]; exact hC.quiet
  · intro y hy
    rw [hword] at hy
    rw [hctx]
    refine (hC.parked hy).imp_left ?_
    rintro ⟨v, lv, hlv, hr⟩
    by_cases hv : v = u
    · subst hv
      cases Option.some.inj (hlu.symm.trans hlv)
      exact ⟨v, _, hself, hr⟩
    · exact ⟨v, lv, (hne v hv).trans hlv, hr⟩
  · intro y hy
    rw [hctx]
    exact hC.blank (show s.coros ≤ y by rwa [← hs'] at hy)
  · intro v hv
    have hv' := hC.vacant (show s.locals ≤ v by rwa [← hs'] at hv)
    have hvu : v ≠ u := by
      rintro rfl
      rw [hv'.1] at hlu
      cases hlu
    exact ⟨(hne v hvu).trans hv'.1, by rw [hq]; exact hv'.2⟩
  · intro y v hy
    rw [hctx] at hy
    obtain ⟨lv, e, hlv, hns, hev, hcv, hlov⟩ := hC.starts hy
    have hvu : v ≠ u := fun h => hno y (h ▸ hy)
    exact ⟨lv, e, (hne v hvu).trans hlv, hns, hev, hcv, by rw [hloop]; exact hlov⟩
  · rw [hctx]; exact hC.startsInj
  · intro v lv hv hst
    rw [hloop]
    by_cases hvu : v = u
    · subst hvu
      cases Option.some.inj (hself.symm.trans hv)
      exact ⟨_, rfl, hcu ▸ hlo⟩
    · exact hC.loops ((hne v hvu).symm.trans hv) hst
  · obtain ⟨h1, h2, h3⟩ := hI.heaped
    rw [← hs']
    exact ⟨h1, h2, h3⟩

end

end Lwthread.Scheduler
