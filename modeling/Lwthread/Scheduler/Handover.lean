import Lwthread.Scheduler.Frame

/-!
# What a step does to custody

A coroutine passes from one holder to another, and a step takes custody of one that nobody keeps only
when it makes it or when `sched_schedule` finds it `BLOCKED`. It gives one up only at the exchange of
`sched_suspend`, and in `free_coro` (`Moves.hands`).
-/

namespace Lwthread.Scheduler

open Lwthread.Util Lwthread.Platform Custody

variable {preemption : Bool} {s s' : SeqState} {t u : Tid} {l : LocalSched Unit} {c d x : Cid}
  {i : Input} {a : Act}

/-- How a step changes what is kept. -/
inductive Hands (s s' : SeqState) (l : LocalSched Unit) : Prop
  | keep (h : ∀ x, Held (own s') x ↔ Held (own s) x)
  | make (h : ∀ x, Held (own s') x ↔ Held (own s) x ∨ x = s.coros)
  | wake {c y ret st} (he : l.exec = .on c) (hctx : s.context c = ⟨.scheduleXchg y ret, []⟩)
      (hw : s.word y = some (STATE_BLOCKED, st)) (hw' : s'.word y = some (STATE_RUNNABLE, st))
      (h : ∀ x, Held (own s') x ↔ Held (own s) x ∨ x = y)
  | park {c y ret} (he : l.exec = .on c) (hctx : s.context c = ⟨.suspendCmpxchg c y ret, []⟩)
      (hctx' : s'.context c = ⟨.suspendUnblock ret, []⟩)
      (h : ∀ x, Held (own s') x ↔ Held (own s) x ∧ x ≠ c)
  | free (he : l.exec = .free) (hdead : s'.word l.currentCoro = none)
      (h : ∀ x, Held (own s') x ↔ Held (own s) x ∧ x ≠ l.currentCoro)

/-! ## The holders apart from a thread -/

/-- What the thread `t` and the coroutine `c` keep. -/
def mine (s : SeqState) (t : Tid) (c : Cid) : Multiset Cid :=
  own s (.thread t) + (own s (.fresh c) + own s (.woken c))

/-- A holder other than the thread `t` and the coroutine `c`. -/
def Holder.Else (t : Tid) (c : Cid) (h : Holder) : Prop :=
  h ≠ .thread t ∧ h ≠ .fresh c ∧ h ≠ .woken c

theorem mem_mine : x ∈ mine s t c ↔
    x ∈ own s (.thread t) ∨ x ∈ own s (.fresh c) ∨ x ∈ own s (.woken c) := by
  unfold mine
  rw [Multiset.mem_add, Multiset.mem_add]

theorem held_iff (t : Tid) (c : Cid) :
    Held (own s) x ↔ x ∈ mine s t c ∨ ∃ h : Holder, h.Else t c ∧ x ∈ own s h := by
  rw [mem_mine]
  constructor
  · rintro ⟨h, hx⟩
    by_cases ht : h = .thread t
    · exact .inl (.inl (ht ▸ hx))
    · by_cases hf : h = .fresh c
      · exact .inl (.inr (.inl (hf ▸ hx)))
      · by_cases hw : h = .woken c
        · exact .inl (.inr (.inr (hw ▸ hx)))
        · exact .inr ⟨h, ⟨ht, hf, hw⟩, hx⟩
  · rintro ((h | h | h) | ⟨h, -, hx⟩)
    · exact ⟨_, h⟩
    · exact ⟨_, h⟩
    · exact ⟨_, h⟩
    · exact ⟨h, hx⟩

/-- If the other holders keep what they kept, so do all together. -/
theorem held_of_mine (ho : ∀ h : Holder, h.Else t c → own s' h = own s h)
    (hmine : x ∈ mine s' t c ↔ x ∈ mine s t c) : Held (own s') x ↔ Held (own s) x := by
  rw [held_iff t c, held_iff t c, hmine]
  refine or_congr Iff.rfl (exists_congr fun h => and_congr_right fun hh => ?_)
  rw [ho h hh]

section

variable (hI : Inv preemption s) (hm : Moves seqOps preemption s t l a s')

include hI hm

/-- A step does not change what other coroutines keep. -/
theorem Moves.own_hands (hd : l.exec ≠ .on d) :
    own s' (.fresh d) = own s (.fresh d) ∧ own s' (.woken d) = own s (.woken d) := by
  simp only [own]
  rcases hm.context_ne hd with h | ⟨rfl, -, h | ⟨u, h⟩⟩
  · rw [h]; exact ⟨rfl, rfl⟩
  · rw [h, hI.control.blank le_rfl]; exact ⟨rfl, rfl⟩
  · rw [h, hI.control.blank le_rfl]; exact ⟨rfl, rfl⟩

variable (hl : s.sched t = some l)

include hl

/-- A step does not change the seat of another thread, unless it makes the thread. -/
theorem Moves.seat_ne (hu : u ≠ t) (hnew : u ≠ s.locals) : s'.seat u = s.seat u := by
  have hexec : (s'.sched u).map (·.exec) = (s.sched u).map (·.exec) ∧
      (s'.sched u).map (·.currentCoro) = (s.sched u).map (·.currentCoro) := by
    rcases hm.sched_ne hu with h | ⟨c', -, h | ⟨-, h⟩ | ⟨h, -⟩⟩
    · rw [h]; exact ⟨rfl, rfl⟩
    · rw [h]; exact ⟨rfl, rfl⟩
    · rw [h, Option.map_map, Option.map_map]; exact ⟨rfl, rfl⟩
    · exact absurd h hnew
  unfold State.seat
  rcases hsu : s.sched u with _ | lu
  · rw [hsu] at hexec
    rw [Option.map_eq_none_iff.1 hexec.1]
  · rw [hsu] at hexec
    obtain ⟨lu', hlu', hex⟩ := Option.map_eq_some_iff.1 hexec.1
    rw [hlu'] at hexec ⊢
    have hex : lu'.exec = lu.exec := hex
    have hcur : lu'.currentCoro = lu.currentCoro := Option.some.inj hexec.2
    dsimp only
    rw [hex, hcur]
    rcases heu : lu.exec with d | _ | p | y
    · simp only [hI.frame_context hl hm hu hsu heu]
    all_goals rfl

/-- A step that neither makes a thread nor enqueues for one that it is to start changes nothing for
the other holders. -/
theorem Moves.own_else (he : l.exec = .on c) (hlocals : s'.locals = s.locals)
    (hlist : ∀ u, u ≠ t → s'.queues.list u = s.queues.list u) {h : Holder} (hh : h.Else t c) :
    own s' h = own s h := by
  have hne : ∀ {d}, d ≠ c → l.exec ≠ .on d := fun hd h => hd (Exec.on.inj (h.symm.trans he))
  cases h with
  | thread u =>
    have hu : u ≠ t := fun h => hh.1 (h ▸ rfl)
    by_cases hnew : u = s.locals
    · have hnone : s.sched u = none := (hI.control.vacant hnew.ge).1
      have hnone' : s'.sched u = none := by
        by_contra hsome
        rcases hm.grows.unsched hsome with h | h
        · exact h hnone
        · rw [hlocals, hnew] at h
          exact lt_irrefl _ h
      rw [own, own, State.seat, State.seat, hnone, hnone', hlist u hu]
    · rw [own, own, hm.seat_ne hI hl hu hnew, hlist u hu]
  | fresh d => exact (hm.own_hands hI (hne fun h => hh.2.1 (h ▸ rfl))).1
  | woken d => exact (hm.own_hands hI (hne fun h => hh.2.2 (h ▸ rfl))).2

end

/-! ## Steps of the thread that executes `c` -/

/-- What a context keeps, apart from the run list. -/
def Context.keeps (c : Cid) (x : Context Unit Unit) : Multiset Cid :=
  (x.seat c).tokens + (x.pc.fresh + x.pc.woken)

theorem mem_mine_of_exec (hl : s.sched t = some l) (he : l.exec = .on c) :
    x ∈ mine s t c ↔ x ∈ (s.context c).keeps c + (s.queues.list t : Multiset Cid) := by
  rw [mem_mine, own, own, own, seat_of_exec hl he, Context.keeps]
  simp only [Multiset.mem_add]
  exact or_right_comm

section

variable (hI : Inv preemption s) (hl : s.sched t = some l) (hm : Moves seqOps preemption s t l a s')

include hI hl hm

/-- After a switch to `x` the thread keeps `x` off its run list. -/
theorem Moves.seat_next {l' : LocalSched Unit} (hl' : s'.sched t = some l') (he' : l'.exec = .on x)
    (hself : l.exec = .on x → (s'.context x).Resumes) : s'.seat t = .on x := by
  have hres : (s'.context x).Resumes := by
    by_cases he : l.exec = .on x
    · exact hself he
    · exact hI.switched hl hm hl' he' he
  rw [seat_of_exec hl' he', hres.seat]

variable (he : l.exec = .on c)

include he

/-- A step after which the thread still executes `c`, and both keep the same. -/
theorem Moves.hands_same {l' : LocalSched Unit} (hl' : s'.sched t = some l') (he' : l'.exec = .on c)
    (hlocals : s'.locals = s.locals) (hlist : ∀ u, u ≠ t → s'.queues.list u = s.queues.list u)
    (hsum : (s'.context c).keeps c + (s'.queues.list t : Multiset Cid) =
      (s.context c).keeps c + (s.queues.list t : Multiset Cid)) : Hands s s' l := by
  refine .keep fun x => held_of_mine (t := t) (c := c)
    (fun h hh => hm.own_else hI hl he hlocals hlist hh) ?_
  rw [mem_mine_of_exec hl he, mem_mine_of_exec hl' he', hsum]

/-- The switch of `sched_resched`. -/
theorem Moves.hands_switch {l' : LocalSched Unit} {r : ReschedPc Unit Unit}
    (hA : Activation c (s.context c) (.switch x) (s'.context c) (some r)) (hr : r = .resumed)
    (hl' : s'.sched t = some l') (he' : l'.exec = .on x) (hlocals : s'.locals = s.locals)
    (hq : s'.queues = s.queues) : Hands s s' l := by
  have hseat : s'.seat t = .on x := by
    refine hm.seat_next hI hl hl' he' fun h => ?_
    rw [he] at h
    cases h
    exact hA.resumes (congrArg some hr)
  refine .keep fun y => held_of_mine (t := t) (c := c)
    (fun h hh => hm.own_else hI hl he hlocals (by rw [hq]; exact fun _ _ => rfl) hh) ?_
  have hown : own s' (.thread t) = own s (.thread t) := by
    rw [own, own, hseat, seat_of_exec hl he, hA.seat, ReschedPc.tokens_switch, hq]
    rfl
  have hfresh : own s' (.fresh c) = own s (.fresh c) := hA.fresh
  have hwoken : own s' (.woken c) = own s (.woken c) := hA.woken
  rw [mem_mine, mem_mine, hown, hfresh, hwoken]

end

section

variable (hI : Inv preemption s) (hl : s.sched t = some l) (he : l.exec = .on c)

include hI hl he

/-- A step of `sched_resched` passes coroutines between the thread and its run list. -/
theorem Yield.hands {s₁ : SeqState} {r : ReschedPc Unit Unit} {r' : Option (ReschedPc Unit Unit)}
    {x' : Context Unit Unit} (hy : Yield seqOps preemption s t l r s₁ r')
    (hA : Activation c (s.context c) r x' r')
    (hs' : s' = { s₁ with context := Function.update s₁.context c x' })
    (hm : Moves seqOps preemption s t l a s') : Hands s s' l := by
  have hx' : s'.context c = x' := by rw [hs']; exact Function.update_self _ _ _
  rw [← hx'] at hA
  have hsum : ∀ {q : List Cid}, (r'.elim (.on c) (·.seat c)).tokens + (q : Multiset Cid) =
      (r.seat c).tokens + (s.queues.list t : Multiset Cid) → s'.queues.list t = q →
      (s'.context c).keeps c + (s'.queues.list t : Multiset Cid) =
        (s.context c).keeps c + (s.queues.list t : Multiset Cid) := by
    intro q h hq
    rw [Context.keeps, Context.keeps, hA.seat, hA.seat', hA.fresh, hA.woken, hq, add_right_comm, h,
      add_right_comm]
  cases hy with
  | idle hem =>
    exact hm.hands_same hI hl he (by rw [hs']; exact hl) he (by rw [hs']) (by rw [hs']; exact fun _ _ => rfl)
      (hsum rfl (by rw [hs']))
  | busy hem =>
    exact hm.hands_same hI hl he (by rw [hs']; exact hl) he (by rw [hs']) (by rw [hs']; exact fun _ _ => rfl)
      (hsum rfl (by rw [hs']))
  | assert hn =>
    exact hm.hands_same hI hl he (by rw [hs']; exact hl) he (by rw [hs']) (by rw [hs']; exact fun _ _ => rfl)
      (hsum rfl (by rw [hs']))
  | push hq => rw [seqOps_push] at hq; cases hq
  | @pushed d p q hq =>
    obtain rfl : d = c := hA.point
    rw [seqOps_push] at hq
    cases hq
    refine hm.hands_same hI hl he (by rw [hs']; exact hl) he (by rw [hs'])
      (by rw [hs']; exact fun u hu => Function.update_of_ne hu _ _)
      (hsum (q := s.queues.list t ++ [d]) ?_ (by rw [hs']; exact Function.update_self _ _ _))
    simp [← Multiset.coe_add, add_comm]
  | pop hq => exact absurd hq seqOps_pop_ne
  | @popped p q x hq =>
    have hne := fun u (hu : u ≠ t) => pop_list_ne hq hu
    obtain ⟨xs, hx, rfl⟩ := seqOps_pop hq
    refine hm.hands_same hI hl he (by rw [hs']; exact hl) he (by rw [hs']) (by rw [hs']; exact hne)
      (hsum (q := xs) ?_ (by rw [hs']; exact Function.update_self _ _ _))
    rw [Option.elim_some, ReschedPc.tokens_switch]
    simp [hx]
  | @switch x k hp hk =>
    rw [State.setPreempt_eq s t _ hl] at hs'
    obtain ⟨l', hl', he'⟩ : ∃ l', s'.sched t = some l' ∧ l'.exec = .on x := by
      rw [hs']
      simp [State.modSched, State.modCoro]
    exact hm.hands_switch hI hl he hA rfl hl' he' (by rw [hs']; rfl) (by rw [hs']; rfl)
  | resumed hp =>
    rw [State.setPreempt_eq s t _ hl] at hs'
    exact hm.hands_same hI hl he (by rw [hs']; exact Function.update_self _ _ _)
      (by simpa using he) (by rw [hs']) (by rw [hs']; exact fun _ _ => rfl) (hsum rfl (by rw [hs']))

variable (hm : Moves seqOps preemption s t l a s')

include hm

/-- A step after which the thread still executes `c` and one of the two has taken `y`. -/
theorem Moves.held_gain {l' : LocalSched Unit} {y : Cid} (hl' : s'.sched t = some l')
    (he' : l'.exec = .on c) (hlocals : s'.locals = s.locals)
    (hlist : ∀ u, u ≠ t → s'.queues.list u = s.queues.list u)
    (hsum : ∀ x, x ∈ (s'.context c).keeps c + (s'.queues.list t : Multiset Cid) ↔
      x ∈ (s.context c).keeps c + (s.queues.list t : Multiset Cid) ∨ x = y) (x : Cid) :
    Held (own s') x ↔ Held (own s) x ∨ x = y := by
  rw [held_iff t c, held_iff t c, mem_mine_of_exec hl he, mem_mine_of_exec hl' he', hsum]
  have helse : (∃ h : Holder, h.Else t c ∧ x ∈ own s' h) ↔ ∃ h : Holder, h.Else t c ∧ x ∈ own s h :=
    exists_congr fun h => and_congr_right fun hh => by rw [hm.own_else hI hl he hlocals hlist hh]
  rw [helse]
  exact or_right_comm

/-- The exchange of `sched_suspend`, if it finds `BLOCKING`: the coroutine is given up. -/
theorem Moves.held_park {l' : LocalSched Unit} {y : Cid} {ret : SuspendRet}
    (hctx : s.context c = ⟨.suspendCmpxchg c y ret, []⟩)
    (hctx' : s'.context c = ⟨.suspendUnblock ret, []⟩) (hl' : s'.sched t = some l')
    (he' : l'.exec = .on y) (hlocals : s'.locals = s.locals) (hq : s'.queues = s.queues) (x : Cid) :
    Held (own s') x ↔ Held (own s) x ∧ x ≠ c := by
  have hown : own s (.thread t) = c ::ₘ y ::ₘ (s.queues.list t : Multiset Cid) := by
    rw [own, seat_of_exec hl he, hctx]
    simp [Context.seat]
  have hyc : y ≠ c := by
    have hnd := hI.kept.excl.nodup (.thread t)
    rw [hown, Multiset.nodup_cons] at hnd
    rintro rfl
    exact hnd.1 (Multiset.mem_cons_self _ _)
  have hseat : s'.seat t = .on y :=
    hm.seat_next hI hl hl' he' fun h => absurd (Exec.on.inj (h.symm.trans he)) hyc
  have hown' : own s' (.thread t) = y ::ₘ (s.queues.list t : Multiset Cid) := by
    rw [own, hseat, hq]
    simp
  have hcown : c ∈ own s (.thread t) := by rw [hown]; exact Multiset.mem_cons_self _ _
  have hmine : x ∈ mine s' t c ↔ x ∈ mine s t c ∧ x ≠ c := by
    have hnd := hI.kept.excl.nodup (.thread t)
    rw [hown, Multiset.nodup_cons] at hnd
    have hne : ∀ {x}, x ∈ y ::ₘ (s.queues.list t : Multiset Cid) → x ≠ c := by
      rintro x hx rfl
      exact hnd.1 hx
    rw [mem_mine, mem_mine, hown, hown', own, own, own, own, hctx, hctx', Multiset.mem_cons (b := c)]
    simp only [Pc.fresh, Pc.woken, Multiset.notMem_zero, or_false]
    exact ⟨fun hx => ⟨.inr hx, hne hx⟩, fun hx => hx.1.resolve_left hx.2⟩
  rw [held_iff t c, held_iff t c, hmine]
  constructor
  · rintro (h | ⟨h, hh, hx⟩)
    · exact ⟨.inl h.1, h.2⟩
    · rw [hm.own_else hI hl he hlocals (by rw [hq]; exact fun _ _ => rfl) hh] at hx
      refine ⟨.inr ⟨h, hh, hx⟩, ?_⟩
      rintro rfl
      exact hh.1 (hI.kept.excl.inj hx hcown)
  · rintro ⟨h | ⟨h, hh, hx⟩, hne⟩
    · exact .inl ⟨h, hne⟩
    · refine .inr ⟨h, hh, ?_⟩
      rw [hm.own_else hI hl he hlocals (by rw [hq]; exact fun _ _ => rfl) hh]
      exact hx

end

/-! ## `sched_new_coroutine` with a new thread -/

section

variable {slot : Nat} {state errno : Int} (hI : Inv preemption s) (hl : s.sched t = some l)
  (he : l.exec = .on c)

include hI hl he

omit hI hl he in
/-- A new thread keeps its coroutine. -/
theorem newLocal_own (hcc : c ≠ s.coros) :
    own ((State.modCoro
      { schedNewLocal seqOps s state errno .loopTop with
        localSchedulers := Function.update s.localSchedulers slot (some s.locals) } x
      ({ · with state := STATE_RUNNABLE })).goto c (.newEnqueue x s.locals .assert))
      (.thread s.locals) = {s.coros} := by
  generalize hs' : State.goto (Q := Seq) _ c _ = s'
  have hlist : s'.queues.list s.locals = [] := by rw [← hs']; exact Function.update_self _ _ _
  obtain ⟨lu, hlu, heu⟩ : ∃ lu, s'.sched s.locals = some lu ∧ lu.exec = .on s.coros := by
    rw [← hs']
    exact ⟨_, Function.update_self _ _ _, rfl⟩
  have hctx : s'.context s.coros = ⟨.loopTop s.locals, []⟩ := by
    rw [← hs']
    simp [State.goto, State.modCoro, schedNewLocal, Function.update_of_ne (Ne.symm hcc)]
  rw [own, hlist, seat_of_exec hlu heu, hctx]
  rfl

/-- A new thread keeps its coroutine, and the maker of the new coroutine keeps that. -/
theorem newLocal_hands (hctx : s.context c = ⟨.newLocal x slot, []⟩)
    (hm : Moves seqOps preemption s t l a s')
    (hs' : s' = (State.modCoro
      { schedNewLocal seqOps s state errno .loopTop with
        localSchedulers := Function.update s.localSchedulers slot (some s.locals) } x
      ({ · with state := STATE_RUNNABLE })).goto c (.newEnqueue x s.locals .assert)) :
    Hands s s' l := by
  have hnl := hI.ne_locals hl
  have hcc := hI.exec_ne_coros hl he
  have hctx' : s'.context c = ⟨.newEnqueue x s.locals .assert, []⟩ := by
    rw [hs']
    simp [State.goto, State.modCoro, schedNewLocal, Function.update_of_ne hcc, hctx]
  have hlist : ∀ u, u ≠ s.locals → s'.queues.list u = s.queues.list u := by
    intro u hu
    rw [hs']
    exact Function.update_of_ne hu _ _
  have hnew : own s' (.thread s.locals) = {s.coros} := by rw [hs']; exact newLocal_own hcc
  have hold : own s (.thread s.locals) = 0 := by
    obtain ⟨h1, h2⟩ := hI.control.vacant (le_refl s.locals)
    rw [own, State.seat, h1, h2]
    rfl
  -- the holders but the new thread
  have hsame : ∀ {h : Holder}, h ≠ .thread s.locals → h ≠ .fresh c → h ≠ .woken c →
      own s' h = own s h := by
    intro h hh hf hw
    have hne : ∀ {d}, d ≠ c → l.exec ≠ .on d := fun hd h => hd (Exec.on.inj (h.symm.trans he))
    cases h with
    | thread u =>
      have hu : u ≠ s.locals := fun h => hh (h ▸ rfl)
      by_cases hut : u = t
      · have hl' : s'.sched u = some l := by
          rw [hs', hut, ← hl]
          exact Function.update_of_ne hnl _ _
        rw [own, own, hlist u hu, seat_of_exec hl' he, seat_of_exec (hut ▸ hl) he, hctx, hctx']
        rfl
      · rw [own, own, hm.seat_ne hI hl hut hu, hlist u hu]
    | fresh d => exact (hm.own_hands hI (hne fun h => hf (h ▸ rfl))).1
    | woken d => exact (hm.own_hands hI (hne fun h => hw (h ▸ rfl))).2
  have hfresh : own s (.fresh c) = {x} ∧ own s' (.fresh c) = 0 := by
    rw [own, own, hctx, hctx']
    exact ⟨rfl, rfl⟩
  have hwoken : own s (.woken c) = 0 ∧ own s' (.woken c) = {x} := by
    rw [own, own, hctx, hctx']
    exact ⟨rfl, rfl⟩
  have hrest : ∀ {y}, (∃ h, h ≠ .thread s.locals ∧ y ∈ own s' h) ↔ Held (own s) y := by
    intro y
    constructor
    · rintro ⟨h, hh, hy⟩
      by_cases hf : h = .fresh c
      · rw [hf, hfresh.2] at hy
        cases hy
      · by_cases hw : h = .woken c
        · rw [hw, hwoken.2] at hy
          exact ⟨.fresh c, by rw [hfresh.1]; exact hy⟩
        · exact ⟨h, hsame hh hf hw ▸ hy⟩
    · rintro ⟨h, hy⟩
      by_cases hf : h = .fresh c
      · rw [hf, hfresh.1] at hy
        exact ⟨.woken c, by rintro ⟨⟩, by rw [hwoken.2]; exact hy⟩
      · by_cases hw : h = .woken c
        · rw [hw, hwoken.1] at hy
          cases hy
        · by_cases hh : h = .thread s.locals
          · rw [hh, hold] at hy
            cases hy
          · exact ⟨h, hh, hsame hh hf hw ▸ hy⟩
  refine .make fun y => ?_
  constructor
  · rintro ⟨h, hy⟩
    by_cases hh : h = .thread s.locals
    · rw [hh, hnew] at hy
      exact .inr (Multiset.mem_singleton.1 hy)
    · exact .inl (hrest.1 ⟨h, hh, hy⟩)
  · rintro (hy | rfl)
    · obtain ⟨h, -, hy⟩ := hrest.2 hy
      exact ⟨h, hy⟩
    · exact ⟨.thread s.locals, by rw [hnew]; exact Multiset.mem_singleton_self _⟩

/-- The new coroutine goes to the run list of the new thread. -/
theorem newPushed_hands {p : Unit} {q : Seq} (hctx : s.context c = ⟨.newEnqueue x u (.push p), []⟩)
    (hq : seqOps.push s.queues u x p = (q, none)) (hrun : l.started = true)
    (hm : Moves seqOps preemption s t l a s')
    (hs' : s' = State.goto { s with queues := q } c (.newStart u)) : Hands s s' l := by
  rw [seqOps_push] at hq
  cases hq
  have hut : u ≠ t := by
    rintro rfl
    obtain ⟨lu, -, hlu, hns, -⟩ := hI.control.starts (c := c) (u := u) (by rw [hctx]; rfl)
    cases Option.some.inj (hl.symm.trans hlu)
    rw [hrun] at hns
    cases hns
  have hul : u ≠ s.locals := by
    obtain ⟨lu, -, hlu, -⟩ := hI.control.starts (c := c) (u := u) (by rw [hctx]; rfl)
    exact hI.ne_locals hlu
  have hctx' : s'.context c = ⟨.newStart u, []⟩ := by
    rw [hs']
    simp [State.goto, hctx]
  have hl' : s'.sched t = some l := by rw [hs']; exact hl
  have hthread : own s' (.thread u) = own s (.thread u) + {x} := by
    have hlist : s'.queues.list u = s.queues.list u ++ [x] := by
      rw [hs']; exact Function.update_self _ _ _
    rw [own, own, hm.seat_ne hI hl hut hul, hlist, ← Multiset.coe_add, add_assoc]
    rfl
  have hwoken : own s (.woken c) = {x} ∧ own s' (.woken c) = 0 := by
    rw [own, own, hctx, hctx']
    exact ⟨rfl, rfl⟩
  have hsame : ∀ {h : Holder}, h ≠ .thread u → h ≠ .woken c → own s' h = own s h := by
    intro h hh hw
    have hne : ∀ {d}, d ≠ c → l.exec ≠ .on d := fun hd h => hd (Exec.on.inj (h.symm.trans he))
    cases h with
    | thread v =>
      have hv : v ≠ u := fun h => hh (h ▸ rfl)
      have hlist : s'.queues.list v = s.queues.list v := by
        rw [hs']; exact Function.update_of_ne hv _ _
      by_cases hvt : v = t
      · rw [own, own, hlist, hvt, seat_of_exec hl' he, seat_of_exec hl he, hctx, hctx']
        rfl
      · have hsched : s'.sched v = s.sched v := by rw [hs']; rfl
        by_cases hvl : v = s.locals
        · rw [own, own, hlist, State.seat, State.seat, hsched, hvl,
            (hI.control.vacant (le_refl s.locals)).1]
        · rw [own, own, hm.seat_ne hI hl hvt hvl, hlist]
    | fresh d =>
      by_cases hd : d = c
      · rw [hd, own, own, hctx, hctx']
        rfl
      · exact (hm.own_hands hI (hne hd)).1
    | woken d => exact (hm.own_hands hI (hne fun h => hw (h ▸ rfl))).2
  refine .keep fun y => ⟨?_, ?_⟩
  · rintro ⟨h, hy⟩
    by_cases hh : h = .thread u
    · rw [hh, hthread] at hy
      rcases Multiset.mem_add.1 hy with hy | hy
      · exact ⟨_, hy⟩
      · exact ⟨.woken c, by rw [hwoken.1]; exact hy⟩
    · by_cases hw : h = .woken c
      · rw [hw, hwoken.2] at hy
        cases hy
      · exact ⟨h, hsame hh hw ▸ hy⟩
  · rintro ⟨h, hy⟩
    by_cases hw : h = .woken c
    · rw [hw, hwoken.1] at hy
      exact ⟨.thread u, by rw [hthread]; exact Multiset.mem_add.2 (.inr hy)⟩
    · by_cases hh : h = .thread u
      · rw [hh] at hy
        exact ⟨.thread u, by rw [hthread]; exact Multiset.mem_add.2 (.inl hy)⟩
      · exact ⟨h, (hsame hh hw).symm ▸ hy⟩

end

/-! ## Any step -/

theorem sched_modSched {Q ι δ : Type} {s : State Q ι δ} {t : Tid} {l : LocalSched δ}
    (hl : s.sched t = some l) (f : LocalSched δ → LocalSched δ) :
    (s.modSched t f).sched t = some (f l) := by
  rw [State.modSched_self, hl, Option.map_some]

section

variable (hI : Inv preemption s) (hl : s.sched t = some l)

include hI hl

/-- A step of a coroutine's code to another point, with the run lists as they are. -/
theorem Moves.hands_goto {s₀ : SeqState} {l₀ : LocalSched Unit} {pc pc' : Pc Unit Unit}
    (hm : Moves seqOps preemption s t l a (s₀.goto c pc')) (he : l.exec = .on c)
    (hctx : s.context c = ⟨pc, []⟩) (hctx₀ : s₀.context = s.context) (hl₀ : s₀.sched t = some l₀)
    (he₀ : l₀.exec = .on c) (hlocals : s₀.locals = s.locals) (hq : s₀.queues = s.queues)
    (hkeeps : Context.keeps c ⟨pc', []⟩ = Context.keeps c ⟨pc, []⟩) : Hands s (s₀.goto c pc') l := by
  have hself : (s₀.goto c pc').context c = ⟨pc', []⟩ := by
    simp [State.goto, hctx₀, hctx]
  refine hm.hands_same hI hl he hl₀ he₀ hlocals ?_ ?_
  · intro u _
    exact congrArg (Seq.list · u) hq
  · rw [hself, hctx, hkeeps]
    exact congrArg (fun q : Seq => _ + (q.list t : Multiset Cid)) hq

/-- What a step of a coroutine's code does to custody. -/
theorem Stride.hands {k : Coroutine} (hrun : l.started = true) (he : l.exec = .on c)
    (hk : s.coro c = some k) (hsig : (s.context c).sig = [])
    (hst : Stride seqOps preemption s t l c i (s.context c).pc s') : Hands s s' l := by
  have hm : Moves seqOps preemption s t l (.tick t i) s' := .stride he hk hsig hst
  have hsit := hI.control.sits hl
  simp only [Sits, he] at hsit
  have hcur := hsit.2.1
  have hnamed := (hI.control.named c).1
  generalize hpc : (s.context c).pc = pc at hst hnamed
  have hctx : s.context c = ⟨pc, []⟩ := by rw [← hpc, ← hsig]
  rw [hctx] at hcur
  cases hst with
  | resched hy =>
    refine hy.hands hI hl he (activation_call hsig hpc (hI.control.named c) _) ?_ hm
    rw [State.goto, hy.context_eq, hsig]
  | @flow pc pc' hf =>
    refine hm.hands_goto hI hl he hctx rfl hl he rfl rfl ?_
    cases hf with
    | timersNone => unfold afterTimers; split <;> rfl
    | _ => rfl
  | @trampoline k start =>
    rw [State.setPreempt_eq s t _ hl] at hm ⊢
    refine hm.hands_goto hI hl he hctx rfl (Function.update_self _ _ _) (by simpa using he) rfl rfl ?_
    cases start <;> rfl
  | setErrno =>
    exact hm.hands_same hI hl he (sched_modSched hl _) he rfl (fun _ _ => rfl) rfl
  | newCoroutine =>
    have hcc := hI.exec_ne_coros hl he
    refine .make (hm.held_gain hI hl he hl he rfl (fun _ _ => rfl) fun x => ?_)
    have hself : ((schedMakeCoro seqOps s .user).goto c (.newLoad s.coros)).context c =
        ⟨.newLoad s.coros, []⟩ := by
      simp [State.goto, schedMakeCoro, Function.update_of_ne hcc, hctx]
    have hlist : ((schedMakeCoro seqOps s .user).goto c (.newLoad s.coros)).queues.list t =
        s.queues.list t := rfl
    rw [hself, hctx, hlist]
    simp only [Context.keeps, Context.seat, Pc.seat, Seat.tokens, Pc.fresh, Pc.woken,
      Multiset.mem_add, Multiset.mem_singleton, Multiset.notMem_zero, or_false]
    exact or_right_comm
  | wait => exact hm.hands_goto hI hl he hctx rfl hl he rfl rfl rfl
  | eventWait => exact hm.hands_goto hI hl he hctx rfl hl he rfl rfl rfl
  | ret =>
    rw [State.setPreempt_eq s t _ hl] at hm ⊢
    refine .keep fun x => held_of_mine (t := t) (c := c)
      (fun h hh => hm.own_else hI hl he rfl (fun _ _ => rfl) hh) ?_
    generalize hs' : State.modSched (Q := Seq) _ t _ = s' at hm ⊢
    have hcur : l.currentCoro = c := hcur
    have hseat : s'.seat t = .dying c := by
      rw [← hs']
      simp [State.seat, State.modSched, hcur]
    have hctx' : s'.context = s.context := by rw [← hs']; rfl
    have hq : s'.queues = s.queues := by rw [← hs']; rfl
    have hown : own s' (.thread t) = own s (.thread t) := by
      rw [own, own, hseat, seat_of_exec hl he, hctx, hq]
      rfl
    rw [mem_mine, mem_mine, hown]
    simp only [own, hctx']
  | suspendBlock =>
    rw [State.setPreempt_eq s t _ hl] at hm ⊢
    exact hm.hands_goto hI hl he hctx rfl (Function.update_self _ _ _) (by simpa using he) rfl rfl rfl
  | suspendPop hq => exact absurd hq seqOps_pop_ne
  | @suspendTake current p ret q x kx hq hkx =>
    have hne := fun u (hu : u ≠ t) => pop_list_ne hq hu
    obtain ⟨xs, hx, rfl⟩ := seqOps_pop hq
    refine hm.hands_same hI hl he (sched_modSched (s := State.modCoro { s with queues := _ } _ _) hl _)
      he rfl hne ?_
    rw [hctx, hx]
    simp [Context.keeps, Context.seat, State.goto, State.modSched, State.modCoro, hctx]
  | @park current x ret kc hkc hb =>
    obtain rfl : current = c := hnamed
    have hctx' : ((((s.modCoro current ({ · with state := STATE_BLOCKED })).goto current
        (.suspendUnblock ret)).modSched t ({ · with exec := .on x })).context current) =
        ⟨.suspendUnblock ret, []⟩ := by
      simp [State.goto, State.modSched, State.modCoro, hctx]
    exact .park he hctx hctx' (hm.held_park hI hl he hctx hctx'
      (sched_modSched (s := State.goto (State.modCoro s _ _) _ _) hl _) rfl rfl rfl)
  | @abort current x ret kc hkc hb =>
    exact hm.hands_goto hI hl he hctx rfl (sched_modSched hl _) he rfl rfl rfl
  | suspendPush hq => rw [seqOps_push] at hq; cases hq
  | @suspendPushed x p ret q hq =>
    have hne := fun u (hu : u ≠ t) => push_list_ne hq hu
    rw [seqOps_push] at hq
    cases hq
    refine hm.hands_same hI hl he hl he rfl hne ?_
    rw [hctx]
    simp [Context.keeps, Context.seat, State.goto, hctx, ← Multiset.coe_add, add_comm]
  | @suspendUnblock ret =>
    rw [State.setPreempt_eq s t _ hl] at hm ⊢
    refine hm.hands_goto hI hl he hctx rfl (Function.update_self _ _ _) (by simpa using he) rfl rfl ?_
    cases ret <;> rfl
  | @rouse x ret kx hkx hb =>
    refine hm.hands_goto hI hl he hctx rfl hl he rfl rfl ?_
    cases ret with
    | newCoroutine =>
      have hmade := hI.kept.made (x := x) (p := c) (by rw [own, hctx]; exact Multiset.mem_singleton_self x)
      rw [State.word_of_coro s hkx] at hmade
      exact absurd (congrArg Prod.fst (Option.some.inj hmade)) hb
    | _ => rfl
  | @wake x ret kx hkx hb =>
    refine .wake he hctx (show s.word x = some (STATE_BLOCKED, kx.start) from ?_) ?_
      (hm.held_gain hI hl he hl he rfl (fun _ _ => rfl) fun y => ?_)
    · rw [State.word_of_coro s hkx, hb]
    · have hword := congrFun (State.word_modState s hkx STATE_RUNNABLE) x
      rw [Function.update_self] at hword
      exact hword
    · have hself : (((s.modCoro x ({ · with state := STATE_RUNNABLE })).goto c
          (.scheduleEnqueue x .assert ret)).context c) = ⟨.scheduleEnqueue x .assert ret, []⟩ := by
        simp [State.goto, State.modCoro, hctx]
      have hlist : ((s.modCoro x ({ · with state := STATE_RUNNABLE })).goto c
          (.scheduleEnqueue x .assert ret)).queues.list t = s.queues.list t := rfl
      rw [hself, hctx, hlist]
      cases ret <;>
        simp only [Context.keeps, Context.seat, Pc.seat, Seat.tokens, Pc.fresh, Pc.woken,
          ScheduleRet.fresh, Multiset.mem_add, Multiset.mem_singleton, Multiset.notMem_zero, or_false,
          false_or]
      case newCoroutine => exact (or_iff_left_of_imp fun hx => .inl (.inr hx)).symm
      all_goals exact or_right_comm
  | schedulePush hq => rw [seqOps_push] at hq; cases hq
  | @schedulePushed x p ret q hq =>
    have hne := fun u (hu : u ≠ t) => push_list_ne hq hu
    rw [seqOps_push] at hq
    cases hq
    refine hm.hands_same hI hl he hl he rfl hne ?_
    rw [hctx]
    cases ret <;>
      simp [Context.keeps, Context.seat, State.goto, hctx, ScheduleRet.pc, ← Multiset.coe_add,
        add_comm]
  | fetchAdd =>
    refine hm.hands_goto hI hl he hctx rfl hl he rfl rfl ?_
    split <;> rfl
  | newLocal => exact newLocal_hands hI hl he hctx hm rfl
  | newPush hq => rw [seqOps_push] at hq; cases hq
  | newPushed hq => exact newPushed_hands hI hl he hctx hq hrun hm rfl
  | @newStart u =>
    by_cases hut : t = u
    · subst hut
      exact hm.hands_goto hI hl he hctx rfl (sched_modSched hl _) he rfl rfl rfl
    · exact hm.hands_goto hI hl he hctx rfl ((Function.update_of_ne hut _ _).trans hl) he rfl rfl rfl
  | eintr => exact .keep fun x => Iff.rfl
  | timersMin =>
    refine hm.hands_goto hI hl he hctx rfl hl he rfl rfl ?_
    split <;> rfl
  | @timersUnlock u v again =>
    refine hm.hands_goto hI hl he hctx rfl hl he rfl rfl ?_
    cases again
    · rw [if_neg Bool.false_ne_true]
      unfold afterTimers
      split <;> rfl
    · rfl
  | _ => exact hm.hands_goto hI hl he hctx rfl hl he rfl rfl rfl

/-- A step of `free_coro`, which changes what its thread keeps only. -/
theorem Moves.hands_death {P : Cid → Prop} (hm : Moves seqOps preemption s t l a s')
    (he : ∀ d, l.exec ≠ .on d) (hlocals : s'.locals = s.locals)
    (hlist : ∀ u, u ≠ t → s'.queues.list u = s.queues.list u)
    (hthread : ∀ x, x ∈ own s' (.thread t) ↔ x ∈ own s (.thread t) ∧ P x)
    (hP : ∀ {h x}, h ≠ .thread t → x ∈ own s h → P x) (x : Cid) :
    Held (own s') x ↔ Held (own s) x ∧ P x := by
  have hsame : ∀ {h : Holder}, h ≠ .thread t → own s' h = own s h := by
    intro h hh
    cases h with
    | thread u =>
      have hu : u ≠ t := fun h => hh (h ▸ rfl)
      by_cases hnew : u = s.locals
      · have hnone : s.sched u = none := (hI.control.vacant hnew.ge).1
        have hnone' : s'.sched u = none := by
          by_contra hsome
          rcases hm.grows.unsched hsome with h | h
          · exact h hnone
          · rw [hlocals, hnew] at h
            exact lt_irrefl _ h
        rw [own, own, State.seat, State.seat, hnone, hnone', hlist u hu]
      · rw [own, own, hm.seat_ne hI hl hu hnew, hlist u hu]
    | fresh d => exact (hm.own_hands hI (he d)).1
    | woken d => exact (hm.own_hands hI (he d)).2
  constructor
  · rintro ⟨h, hx⟩
    by_cases hh : h = .thread t
    · rw [hh, hthread] at hx
      exact ⟨⟨_, hx.1⟩, hx.2⟩
    · rw [hsame hh] at hx
      exact ⟨⟨h, hx⟩, hP hh hx⟩
  · rintro ⟨⟨h, hx⟩, hp⟩
    by_cases hh : h = .thread t
    · exact ⟨.thread t, (hthread x).2 ⟨hh ▸ hx, hp⟩⟩
    · exact ⟨h, hsame hh ▸ hx⟩

theorem Death.hands (h : Death seqOps s t l l.exec s') : Hands s s' l := by
  have hm : Moves seqOps preemption s t l (.tick t .step) s' := .death h
  have hno : ∀ d, l.exec ≠ .on d := fun d => h.not_on
  have hkeep : s'.locals = s.locals → (∀ u, u ≠ t → s'.queues.list u = s.queues.list u) →
      own s' (.thread t) = own s (.thread t) → Hands s s' l := by
    intro hlocals hlist hown
    refine .keep fun x => (hm.hands_death hI hl hno hlocals hlist (P := fun _ => True) (fun x => ?_)
      (fun _ _ => trivial) x).trans (and_iff_left trivial)
    rw [hown, and_true]
  generalize hel : l.exec = e at h
  cases h with
  | free hn =>
    have hseat : s.seat t = .dying l.currentCoro := by simp only [State.seat, hl, hel]
    generalize hs' : State.modSched (Q := Seq) _ t _ = s' at hm ⊢
    have hseat' : s'.seat t = .dead := by
      rw [← hs']
      simp [State.seat, State.modSched, hl]
    have hq : s'.queues = s.queues := by rw [← hs']; rfl
    have hown : own s (.thread t) = l.currentCoro ::ₘ (s.queues.list t : Multiset Cid) := by
      rw [own, hseat]
      simp
    have hnd := hI.kept.excl.nodup (.thread t)
    rw [hown, Multiset.nodup_cons] at hnd
    refine .free hel ?_ (hm.hands_death hI hl hno (by rw [← hs']; rfl)
      (by rw [hq]; exact fun _ _ => rfl) (P := (· ≠ l.currentCoro)) (fun x => ?_)
      fun {h x} hh hx => ?_)
    · rw [← hs']
      simp [State.word, State.modSched]
    · have hown' : own s' (.thread t) = (s.queues.list t : Multiset Cid) := by
        rw [own, hseat', hq]
        simp
      rw [hown, hown', Multiset.mem_cons]
      refine ⟨fun hx => ⟨.inr hx, ?_⟩, fun hx => hx.1.resolve_left hx.2⟩
      rintro rfl
      exact hnd.1 hx
    · rintro rfl
      refine hh (hI.kept.excl.inj hx ?_)
      rw [hown]
      exact Multiset.mem_cons_self _ _
  | pop hq => exact absurd hq seqOps_pop_ne
  | @popped p q x hq =>
    have hne := fun u (hu : u ≠ t) => pop_list_ne hq hu
    obtain ⟨xs, hx, rfl⟩ := seqOps_pop hq
    refine hkeep rfl hne ?_
    rw [own, own, hx]
    simp [State.seat, State.modSched, hl, hel]
  | @restore x =>
    refine hkeep rfl (fun _ _ => rfl) ?_
    have hseat' := hm.seat_next hI hl (sched_modSched hl _) rfl (x := x) fun he => absurd he (hno x)
    have hseat : s.seat t = .taken x := by simp only [State.seat, hl, hel]
    rw [own, own, hseat, hseat']
    rfl

/-- **What a step does to custody**, if no signal comes between the enqueue and the switch of
`sched_resched`. -/
theorem Moves.hands (hrun : l.started = true) (hsafe : Safe s a)
    (hm : Moves seqOps preemption s t l a s') : Hands s s' l := by
  cases hm with
  | stride he hk hsig hst => exact hst.hands hI hl hrun he hk hsig
  | @handler c k r rs s₁ r' he hk hsig hy =>
    refine hy.hands hI hl he (activation_handler hsig (hI.control.named c) (hI.control.stacked c) _)
      ?_ (.handler he hk hsig hy)
    rw [State.setSig, hy.context_eq]
  | death hd => exact hd.hands hI hl
  | @signal c hp hlock he =>
    have hm : Moves seqOps preemption s t l (.signal t) (s.setSig c (.check :: (s.context c).sig)) :=
      .signal hp hlock he
    have hseat := (hI.seat_of_signal hl hp hlock he (hsafe t rfl)).1
    refine hm.hands_same hI hl he hl he rfl (fun _ _ => rfl) ?_
    have hself : (s.setSig c (.check :: (s.context c).sig)).context c =
        ⟨(s.context c).pc, .check :: (s.context c).sig⟩ := Function.update_self _ _ _
    rw [hself, Context.keeps, Context.keeps, hseat]
    rfl

omit hI hl in
theorem modCoro_none {s₀ : SeqState} {f : Coroutine → Coroutine} {y : Cid} (hx : s₀.coro x = none) :
    (s₀.modCoro y f).coro x = none := by
  change Function.update s₀.coro y ((s₀.coro y).map f) x = none
  by_cases hxy : x = y
  · subst hxy
    rw [Function.update_self, hx]
    rfl
  · rw [Function.update_of_ne hxy]
    exact hx

omit hI hl in
theorem setPreempt_coro {s₀ : SeqState} (b : Bool) :
    (s₀.setPreempt preemption t b).coro = s₀.coro := by
  unfold State.setPreempt
  split <;> rfl

omit hI hl in
theorem Yield.unborn {s₁ : SeqState} {r : ReschedPc Unit Unit} {r' : Option (ReschedPc Unit Unit)}
    (hy : Yield seqOps preemption s t l r s₁ r') (hx : s.coro x = none) : s₁.coro x = none := by
  cases hy with
  | switch => exact modCoro_none (by rw [setPreempt_coro]; exact hx)
  | resumed => rw [setPreempt_coro]; exact hx
  | _ => exact hx

/-- A coroutine that a step makes is kept. -/
theorem Moves.born (hm : Moves seqOps preemption s t l a s') (hx : s.coro x = none)
    (hx' : s'.coro x ≠ none) : Held (own s') x := by
  cases hm with
  | @stride c k i _ he hk hsig hst =>
    have hcc := hI.exec_ne_coros hl he
    generalize hpc : (s.context c).pc = pc at hst
    have hctx : s.context c = ⟨pc, []⟩ := by rw [← hpc, ← hsig]
    cases hst with
    | resched hy => exact absurd (hy.unborn hx) hx'
    | newCoroutine =>
      by_cases hnew : x = s.coros
      · refine ⟨.fresh c, ?_⟩
        rw [own, State.goto_pc, hnew]
        exact Multiset.mem_singleton_self _
      · exact absurd ((Function.update_of_ne hnew _ _).trans hx) hx'
    | newLocal =>
      by_cases hnew : x = s.coros
      · refine ⟨.thread s.locals, ?_⟩
        rw [newLocal_own hcc, hnew]
        exact Multiset.mem_singleton_self _
      · exact absurd (modCoro_none ((Function.update_of_ne hnew _ _).trans hx)) hx'
    | trampoline => exact absurd ((congrFun (setPreempt_coro false) x).trans hx) hx'
    | ret => exact absurd ((congrFun (setPreempt_coro true) x).trans hx) hx'
    | suspendBlock => exact absurd ((congrFun (setPreempt_coro true) x).trans hx) hx'
    | suspendUnblock => exact absurd ((congrFun (setPreempt_coro false) x).trans hx) hx'
    | wait => exact absurd (modCoro_none hx) hx'
    | eventWait => exact absurd (modCoro_none hx) hx'
    | suspendTake => exact absurd (modCoro_none hx) hx'
    | park => exact absurd (modCoro_none hx) hx'
    | rouse => exact absurd (modCoro_none hx) hx'
    | wake => exact absurd (modCoro_none hx) hx'
    | _ => exact absurd hx hx'
  | handler he hk hsig hy => exact absurd (hy.unborn hx) hx'
  | death hd =>
    refine absurd ?_ hx'
    generalize l.exec = e at hd
    cases hd with
    | free =>
      by_cases hxc : x = l.currentCoro
      · rw [hxc]; exact Function.update_self _ _ _
      · exact (Function.update_of_ne hxc _ _).trans hx
    | _ => exact hx
  | signal => exact absurd hx hx'

/-- A coroutine that nobody keeps is past the exchange of `sched_suspend`. -/
def Dozing (s : SeqState) : Prop :=
  ∀ {x}, s.coro x ≠ none → ¬Held (own s) x → ∃ ret, s.context x = ⟨.suspendUnblock ret, []⟩

theorem Dozing.moves (hrun : l.started = true) (hsafe : Safe s a) (hD : Dozing s)
    (hm : Moves seqOps preemption s t l a s') : Dozing s' := by
  intro x hx' hnot'
  have hx : s.coro x ≠ none := fun hx => hnot' (hm.born hI hl hx hx')
  -- a coroutine that nobody kept before has not moved
  have hold : ¬Held (own s) x → ∃ ret, s'.context x = ⟨.suspendUnblock ret, []⟩ := by
    intro hnot
    have hne : l.exec ≠ .on x := fun he => hnot ⟨_, hI.own_of_runs hl (.inl he)⟩
    have hxc : x ≠ s.coros := by
      rintro rfl
      refine lt_irrefl _ (hI.kept.known (.inr ?_))
      unfold State.word
      rwa [Ne, Option.map_eq_none_iff]
    rw [(hm.context_ne hne).eq hxc]
    exact hD hx hnot
  rcases hm.hands hI hl hrun hsafe with
    h | h | ⟨-, -, -, -, h⟩ | @⟨c, y, ret, -, -, hctx, h⟩ | ⟨-, hdead, h⟩
  · exact hold fun hh => hnot' ((h x).2 hh)
  · exact hold fun hh => hnot' ((h x).2 (.inl hh))
  · exact hold fun hh => hnot' ((h x).2 (.inl hh))
  · by_cases hxc : x = c
    · exact ⟨ret, hxc ▸ hctx⟩
    · exact hold fun hh => hnot' ((h x).2 ⟨hh, hxc⟩)
  · refine hold fun hh => hnot' ((h x).2 ⟨hh, ?_⟩)
    rintro rfl
    unfold State.word at hdead
    exact hx' (Option.map_eq_none_iff.1 hdead)

end

/-- **Every coroutine that nobody keeps is past the exchange of `sched_suspend`**, in every reachable
state. -/
theorem Reach.dozing {localSize : Nat} {garbage : Nat → TimerWait} {state errno threadErrno : Int}
    (h : Reach seqOps preemption (fun s a => Proper s a ∧ Safe s a)
      (seqInit localSize garbage state errno threadErrno) s) (hf : s.failure = none) : Dozing s := by
  induction h with
  | init =>
    intro x hx hnot
    refine absurd ?_ hnot
    have hI : Inv preemption (seqInit localSize garbage state errno threadErrno) :=
      Inv.init localSize garbage state errno threadErrno
    have hword := seqInit_word localSize garbage state errno threadErrno x
    by_cases h0 : x = 0
    · exact ⟨.thread 0, hI.own_of_runs (seqInit_sched localSize garbage state errno threadErrno 0)
        (.inl (by rw [h0]))⟩
    · by_cases h1 : x = 1
      · refine ⟨.thread 0, Multiset.mem_add.2 (.inr ?_)⟩
        rw [seqInit_list, h1]
        simp
      · rw [if_neg h0, if_neg h1] at hword
        exact absurd (Option.map_eq_none_iff.1 hword) hx
  | @next s s' a h hok hs ih =>
    obtain ⟨hf₀, t, l, hl, hrun, hm⟩ := step_moves seqOps hs hf
    exact Dozing.moves (h.inv hf₀) hl hrun hok.2 (ih hf₀) hm

end Lwthread.Scheduler
