import Lwthread.Scheduler.Control

/-!
# Rules for steps

What the proof of the invariant needs of single steps: the new state of the thread and of the
coroutine that executes, the pointers that may wake a coroutine, the activations of `sched_resched`,
and the run list of the thread. The conditions under which runs are looked at are here too: user code
calls `sched_schedule` with a coroutine that `sched_new_coroutine` has returned (`Proper`), and a
preemption signal does not come between the enqueue and the switch of `sched_resched` (`Safe`).
-/

namespace Lwthread.Scheduler

open Lwthread.Util Lwthread.Platform Custody

variable {preemption : Bool} {s s' : SeqState} {t : Tid} {l l' : LocalSched Unit} {c : Cid}
  {pc' : Pc Unit Unit} {i : Input}

/-! ## Conditions on actions -/

/-- User code wakes only coroutines that `sched_new_coroutine` has returned. -/
def Proper {Q ι δ : Type} (s : State Q ι δ) (a : Act) : Prop :=
  ∀ t x, a = .tick t (.op (.schedule x)) → s.Returned x

/-- The coroutine has enqueued itself in `sched_resched` and has not blocked preemption yet. -/
def Seat.Yields : Seat → Prop
  | .linked _ => True
  | .handing _ _ => True
  | _ => False

theorem ReschedPc.seat_of_not_yields {ι δ : Type} {c : Cid} {r : ReschedPc ι δ}
    (h : ¬(r.seat c).Yields) : r.seat c = .on c := by
  cases r with
  | switch x =>
    by_cases hx : x = c
    · simp [hx]
    · simp [hx, Seat.Yields] at h
  | dequeue => exact absurd trivial h
  | _ => rfl

/-- A signal does not come between the enqueue and the switch of `sched_resched`. -/
def Safe {Q ι δ : Type} (s : State Q ι δ) (a : Act) : Prop :=
  ∀ t, a = .signal t → ¬(s.seat t).Yields

/-- A check on actions for `Proper`: user code wakes nobody. -/
def Act.leavesAsleep : Act → Bool
  | .tick _ (.op (.schedule _)) => false
  | _ => true

theorem Act.leavesAsleep.proper {Q ι δ : Type} (s : State Q ι δ) (a : Act)
    (h : a.leavesAsleep = true) : Proper s a := by
  rintro t x rfl
  cases h

/-! ## The new state of a step -/

section

variable {Q ι δ : Type} (s : State Q ι δ) {c d : Cid} (pc : Pc ι δ)

@[simp] theorem State.goto_pc : ((s.goto c pc).context c).pc = pc := by
  simp [State.goto]

@[simp] theorem State.goto_sig : ((s.goto c pc).context c).sig = (s.context c).sig := by
  simp [State.goto]

theorem State.setSig_self (sig : List (ReschedPc ι δ)) :
    (s.setSig c sig).context c = ⟨(s.context c).pc, sig⟩ := Function.update_self _ _ _

theorem State.goto_ne (hd : d ≠ c) : (s.goto c pc).context d = s.context d := by
  simp [State.goto, hd]

end

/-- The scheduler after `sched_block_preempt` or `sched_unblock_preempt`. -/
def LocalSched.setLock (l : LocalSched Unit) (preemption lock : Bool) : LocalSched Unit :=
  if preemption then { l with preemptLock := lock } else l

namespace LocalSched

variable (l : LocalSched Unit) (b : Bool)

@[simp] theorem setLock_exec : (l.setLock preemption b).exec = l.exec := by
  unfold setLock; split <;> rfl

@[simp] theorem setLock_currentCoro : (l.setLock preemption b).currentCoro = l.currentCoro := by
  unfold setLock; split <;> rfl

@[simp] theorem setLock_started : (l.setLock preemption b).started = l.started := by
  unfold setLock; split <;> rfl

@[simp] theorem setLock_eventLoopCoro :
    (l.setLock preemption b).eventLoopCoro = l.eventLoopCoro := by
  unfold setLock; split <;> rfl

theorem setLock_preemptLock (hp : preemption = true) : (l.setLock preemption b).preemptLock = b := by
  rw [setLock, if_pos hp]

end LocalSched

namespace State

variable (s : SeqState) (t : Tid) (b : Bool)

theorem setPreempt_eq (hl : s.sched t = some l) :
    s.setPreempt preemption t b =
      { s with sched := Function.update s.sched t (some (l.setLock preemption b)) } := by
  unfold setPreempt LocalSched.setLock
  split
  · simp only [modSched, hl, Option.map_some]
  · rw [Function.update_eq_self_iff.2 hl.symm]

section

variable {Q ι δ : Type} (s : State Q ι δ)

@[simp] theorem word_modErrno (x : Cid) (e : Int) :
    (s.modCoro x ({ · with privateErrno := e })).word = s.word := by
  funext y
  unfold word modCoro
  by_cases hy : y = x
  · subst hy; simp [Function.comp_def]
  · simp [hy]

theorem word_modState {x : Cid} {k : Coroutine} (hk : s.coro x = some k) (v : Int) :
    (s.modCoro x ({ · with state := v })).word = Function.update s.word x (some (v, k.start)) := by
  funext y
  unfold word modCoro
  by_cases hy : y = x
  · subst hy; simp [hk]
  · simp [hy]

theorem word_of_coro {x : Cid} {k : Coroutine} (hk : s.coro x = some k) :
    s.word x = some (k.state, k.start) := by
  simp [word, hk]

end

end State

section

variable (hl : s.sched t = some l) (he : l.exec = .on c)

include hl he

theorem stays_context {x' : Context Unit Unit}
    (hctx : s'.context = Function.update s.context c x') (hsched : s'.sched = s.sched)
    (hcoros : s'.coros = s.coros) (hlocals : s'.locals = s.locals) : Stays s s' t c l l x' := by
  refine ⟨⟨?_, hctx, hcoros, hlocals, rfl, rfl⟩, he⟩
  rw [hsched, Function.update_eq_self_iff.2 hl.symm]

theorem stays_sched {x' : Context Unit Unit} {f : LocalSched Unit → LocalSched Unit}
    (hctx : s'.context = Function.update s.context c x')
    (hsched : s'.sched = Function.update s.sched t ((s.sched t).map f)) (hcoros : s'.coros = s.coros)
    (hlocals : s'.locals = s.locals) (hexec : (f l).exec = l.exec)
    (hstarted : (f l).started = l.started) (hloop : (f l).eventLoopCoro = l.eventLoopCoro) :
    Stays s s' t c l (f l) x' := by
  refine ⟨⟨?_, hctx, hcoros, hlocals, hstarted, hloop⟩, hexec.trans he⟩
  rw [hsched, hl]; rfl

end

/-- Pointers to wake a coroutine, after a step of `c` that leaves timers and events as they are. -/
theorem handled_of_point {x' : Context Unit Unit} {y : Cid} {P : Cid → Prop} (hy : s'.Handled y)
    (hctx : s'.context = Function.update s.context c x')
    (htimer : s'.timerHeap.bag = s.timerHeap.bag) (hevent : s'.eventWait = s.eventWait)
    (hpoint : ∀ y ∈ x'.pc.handles, s.Handled y ∨ P y) : s.Handled y ∨ P y := by
  cases hy with
  | timer hw hx => exact .inl (.timer (htimer ▸ hw) hx)
  | event hw hx => exact .inl (.event (hevent ▸ hw) hx)
  | @point d hx =>
    rw [hctx] at hx
    by_cases hd : d = c
    · subst hd
      rw [Function.update_self] at hx
      exact hpoint y hx
    · rw [Function.update_of_ne hd] at hx
      exact .inl (.point hx)

/-! ## Steps that only move the control point -/

theorem Flow.like {pc : Pc Unit Unit} (h : Flow seqOps s i pc pc') : Pc.Like c pc pc' := by
  cases h with
  | @timersNone u v _ =>
    have hplain : Pc.Plain c (some u) (.timersEmpty u v) := by constructor <;> simp
    exact hplain.like (afterTimers_plain c u v)
  | _ => constructor <;> simp

/-- A flow hands on a pointer to wake a coroutine, or takes one from user code. -/
theorem Flow.handles {pc : Pc Unit Unit} (h : Flow seqOps s i pc pc') {y : Cid}
    (hy : y ∈ pc'.handles) : y ∈ pc.handles ∨ i = .op (.schedule y) := by
  cases h with
  | schedule hi =>
    simp only [Pc.handles, ScheduleRet.handles, List.mem_singleton] at hy
    exact .inr (hy ▸ hi)
  | timersNone => rw [(afterTimers_plain 0 _ _).handles] at hy; cases hy
  | _ => simp_all

theorem Flow.shut {pc : Pc Unit Unit} (h : Flow seqOps s i pc pc') (hs : pc'.Shut) : pc.Shut := by
  cases h with
  | timersNone => exact absurd hs (afterTimers_plain 0 _ _).shut
  | _ => simp_all

section

variable (hI : Inv preemption s) (hl : s.sched t = some l) (hrun : l.started = true)
  (he : l.exec = .on c)

include hI hl hrun he

theorem Flow.inv (hsig : (s.context c).sig = []) (h : Flow seqOps s i (s.context c).pc pc')
    (hok : ∀ x, i = .op (.schedule x) → s.Returned x) : Inv preemption (s.goto c pc') := by
  have hsit := hI.control.sits hl
  simp only [Sits, he] at hsit
  have hctx : (s.goto c pc').context = Function.update s.context c ⟨pc', []⟩ := by
    rw [← hsig]; rfl
  refine (stays_context hl he hctx rfl rfl rfl).like hI hl he hrun hsig h.like rfl
    (fun hp hs => hsit.2.2.2 hp hsig (h.shut hs)) rfl rfl
    (fun hy => handled_of_point hy hctx rfl rfl fun y hy => ?_) ⟨hI.heaped.1, hI.heaped.2, hI.heaped.3⟩
  exact (h.handles hy).imp .point (hok y)

end

/-! ## `sched_resched`, called or in a signal handler -/

theorem Yield.context_eq {Q ι δ : Type} {ops : ListOps Q ι δ} {s s₁ : State Q ι δ}
    {l : LocalSched δ} {r : ReschedPc ι δ} {r' : Option (ReschedPc ι δ)}
    (h : Yield ops preemption s t l r s₁ r') : s₁.context = s.context := by
  cases h with
  | switch => unfold State.setPreempt; split <;> rfl
  | resumed => unfold State.setPreempt; split <;> rfl
  | _ => rfl

/-- The innermost activation of `sched_resched` in the context `x` of `c` is at `r`; in `x'` it is at
`r'`, or has returned. -/
structure Activation (c : Cid) (x : Context Unit Unit) (r : ReschedPc Unit Unit)
    (x' : Context Unit Unit) (r' : Option (ReschedPc Unit Unit)) : Prop where
  seat : x.seat c = r.seat c
  seat' : x'.seat c = r'.elim (.on c) (·.seat c)
  fresh : x'.pc.fresh = x.pc.fresh
  woken : x'.pc.woken = x.pc.woken
  starts : x'.pc.starts = x.pc.starts
  handles : x'.pc.handles = x.pc.handles
  loop : x'.pc = x.pc ∨ x'.pc.loop = x.pc.loop ∧ x.pc ≠ .trampoline ∧ x'.pc ≠ .trampoline
  current : x.current c = c ∧ x'.current c = c
  named : (∀ r₁ ∈ r', r₁.Named c) → x'.Named c
  stacked : x'.Stacked c
  shut : x'.sig = [] → ¬x'.pc.Shut
  resumes : r' = some .resumed → x'.Resumes
  quiet : x.sig = [] → x'.sig = []
  point : r.Named c

theorem activation_call {r : ReschedPc Unit Unit} {ret : ReschedRet} {x : Context Unit Unit}
    (hsig : x.sig = []) (hpc : x.pc = .resched r ret) (hn : x.Named c)
    (r' : Option (ReschedPc Unit Unit)) : Activation c x r ⟨ret.next r', []⟩ r' := by
  have hplain := ret.plain c
  obtain ⟨pc, sig⟩ := x
  simp only at hsig hpc
  subst hsig hpc
  cases r' with
  | none =>
    exact ⟨rfl, hplain.seat, hplain.fresh, hplain.woken, hplain.starts, hplain.handles,
      .inr ⟨hplain.loop.1, by simp, hplain.loop.2⟩, ⟨rfl, hplain.current⟩,
      fun _ => ⟨hplain.named, by simp⟩, fun h => absurd rfl h, fun _ => hplain.shut, by simp,
      fun _ => rfl, hn.1⟩
  | some r' =>
    refine ⟨rfl, rfl, rfl, rfl, rfl, rfl, .inr ⟨rfl, by simp, by simp [ReschedRet.next]⟩, ⟨rfl, rfl⟩,
      fun h => ⟨h r' rfl, by simp⟩, fun h => absurd rfl h, fun _ => by simp [ReschedRet.next], ?_,
      fun _ => rfl, hn.1⟩
    rintro ⟨⟩
    simp [Context.Resumes, ReschedRet.next]

theorem activation_handler {r : ReschedPc Unit Unit} {rs : List (ReschedPc Unit Unit)}
    {x : Context Unit Unit} (hsig : x.sig = r :: rs) (hn : x.Named c) (hst : x.Stacked c)
    (r' : Option (ReschedPc Unit Unit)) : Activation c x r ⟨x.pc, r'.toList ++ rs⟩ r' := by
  obtain ⟨pc, sig⟩ := x
  simp only at hsig
  subst hsig
  obtain ⟨⟨hseat, hshut⟩, htail⟩ := hst (by simp)
  simp only [List.tail_cons] at htail hseat hshut
  have hrest : ∀ sig : List (ReschedPc Unit Unit), (∀ r ∈ sig, r.seat c = .on c) →
      Context.seat c ⟨pc, sig⟩ = .on c := by
    intro sig h
    cases sig with
    | nil => exact hseat
    | cons r₁ _ => exact h r₁ (by simp)
  refine ⟨rfl, ?_, rfl, rfl, rfl, rfl, .inl rfl, ⟨rfl, ?_⟩, fun h => ⟨hn.1, ?_⟩, ?_, fun _ => hshut,
    ?_, by simp, hn.2 r (by simp)⟩
  · cases r' with
    | none => exact hrest rs htail
    | some r' => rfl
  · unfold Context.current
    split
    · next hpc => simp only at hpc; rw [hpc] at hseat; cases hseat
    · rfl
  · intro r₁ hr₁
    rcases List.mem_append.1 hr₁ with hr₁ | hr₁
    · exact h r₁ (by simpa using hr₁)
    · exact hn.2 r₁ (by simp [hr₁])
  · intro _
    refine ⟨⟨hseat, hshut⟩, fun r₁ hr₁ => ?_⟩
    cases r' with
    | none => exact htail r₁ (List.mem_of_mem_tail hr₁)
    | some _ => exact htail r₁ hr₁
  · rintro rfl
    rfl

/-! ## The run list of a thread -/

theorem seqOps_push (q : Seq) (t : Tid) (c : Cid) (p : Unit) :
    seqOps.push q t c p =
      ({ list := Function.update q.list t (q.list t ++ [c])
         linked := Function.update q.linked c true }, none) := rfl

theorem seqOps_pop {q q' : Seq} {t : Tid} {x : Cid} {p : Unit}
    (h : seqOps.pop q t p = (q', .inr (some x))) :
    ∃ xs, q.list t = x :: xs ∧
      q' = { list := Function.update q.list t xs, linked := Function.update q.linked x false } := by
  simp only [seqOps] at h
  split at h
  · cases h
  · next y ys hy => cases h; exact ⟨ys, hy, rfl⟩

theorem seqOps_pop_ne {q q' : Seq} {t : Tid} {p p' : Unit} :
    seqOps.pop q t p ≠ (q', .inl p') := by
  simp only [seqOps]
  split <;> simp

/-- After `list_push_back` the nodes still agree with the lists. -/
theorem nodes_push {q : Seq} (hn : ∀ d, q.linked d = true ↔ ∃ u, d ∈ q.list u) (t : Tid) (c d : Cid) :
    Function.update q.linked c true d = true ↔
      ∃ u, d ∈ Function.update q.list t (q.list t ++ [c]) u := by
  constructor
  · intro hd
    by_cases hdc : d = c
    · exact ⟨t, by simp [hdc]⟩
    · rw [Function.update_of_ne hdc] at hd
      obtain ⟨u, hu⟩ := (hn d).1 hd
      by_cases hut : u = t
      · subst hut; exact ⟨u, by simp [hu]⟩
      · exact ⟨u, by rwa [Function.update_of_ne hut]⟩
  · rintro ⟨u, hu⟩
    by_cases hdc : d = c
    · rw [hdc, Function.update_self]
    · rw [Function.update_of_ne hdc, hn d]
      by_cases hut : u = t
      · subst hut
        rw [Function.update_self, List.mem_append, List.mem_singleton] at hu
        exact ⟨u, hu.resolve_right hdc⟩
      · rw [Function.update_of_ne hut] at hu
        exact ⟨u, hu⟩

/-- After `list_pop_front` the nodes still agree with the lists, if no list has an entry twice. -/
theorem nodes_pop {q : Seq} (hn : ∀ d, q.linked d = true ↔ ∃ u, d ∈ q.list u) {t : Tid} {x : Cid}
    {xs : List Cid} (hx : q.list t = x :: xs) (hnd : x ∉ xs)
    (hinj : ∀ u, x ∈ q.list u → u = t) (d : Cid) :
    Function.update q.linked x false d = true ↔ ∃ u, d ∈ Function.update q.list t xs u := by
  by_cases hdx : d = x
  · subst hdx
    rw [Function.update_self]
    simp only [Bool.false_eq_true, false_iff, not_exists]
    intro u hu
    by_cases hut : u = t
    · subst hut; rw [Function.update_self] at hu; exact hnd hu
    · rw [Function.update_of_ne hut] at hu; exact hut (hinj u hu)
  · rw [Function.update_of_ne hdx, hn d]
    refine exists_congr fun u => ?_
    by_cases hut : u = t
    · subst hut; simp [hx, hdx]
    · rw [Function.update_of_ne hut]

section

variable (hI : Inv preemption s) (hl : s.sched t = some l)

include hI

theorem Inv.list_inj {u v : Tid} {x : Cid} (hu : x ∈ s.queues.list u) (hv : x ∈ s.queues.list v) :
    u = v := by
  have hmem : ∀ {w}, x ∈ s.queues.list w → x ∈ own s (.thread w) := fun h =>
    Multiset.mem_add.2 (.inr h)
  exact Holder.thread.inj (hI.kept.excl.inj (hmem hu) (hmem hv))

theorem Inv.list_nodup (u : Tid) : (s.queues.list u).Nodup :=
  Multiset.coe_nodup.1 (Multiset.nodup_of_le (Multiset.le_add_left _ _)
    (hI.kept.excl.nodup (.thread u)))

theorem Inv.nodes_pop {x : Cid} {xs : List Cid} (hx : s.queues.list t = x :: xs) (d : Cid) :
    Function.update s.queues.linked x false d = true ↔
      ∃ u, d ∈ Function.update s.queues.list t xs u := by
  have hnd := hI.list_nodup t
  rw [hx] at hnd
  exact Scheduler.nodes_pop hI.kept.nodes hx (List.nodup_cons.1 hnd).1
    (fun u hu => hI.list_inj hu (hx ▸ List.mem_cons_self)) d

end

/-! ## The timer heap -/

theorem mem_bag_of_heapMin {h : Heap TimerWait} {w : TimerWait} (hm : (heapMin h).1 = some w) :
    w ∈ h.bag := by
  unfold heapMin at hm
  split at hm
  · cases hm
  · next hi => cases hm; exact Heap.cell_one_mem hi

theorem timerCompare_self (w : TimerWait) : timerCompare w w ≤ 0 := by
  simp [timerCompare, CInt.int, CInt.long]

namespace Heaped

variable {Q ι δ : Type} {s s' : State Q ι δ}

theorem of_eq (hH : Heaped s) (h : s'.timerHeap = s.timerHeap) : Heaped s' :=
  ⟨h ▸ hH.compare, h ▸ hH.items, h ▸ hH.size⟩

theorem min (hH : Heaped s) (h : s'.timerHeap = (heapMin s.timerHeap).2) : Heaped s' := by
  have hm : ∀ h : Heap TimerWait, (heapMin h).2.compare = h.compare ∧
      (heapMin h).2.items = h.items ∧ (heapMin h).2.size = h.size := by
    intro h; unfold heapMin; split <;> exact ⟨rfl, rfl, rfl⟩
  obtain ⟨hc, hi, hs⟩ := hm s.timerHeap
  exact ⟨by rw [h, hc]; exact hH.compare, by rw [h, hi, hs]; exact hH.items,
    by rw [h, hs]; exact hH.size⟩

theorem push (hH : Heaped s) {w : TimerWait} (hf : heapPushFits s.timerHeap = true)
    (h : s'.timerHeap = (heapPush .block s.timerHeap w).2) : Heaped s' := by
  have hi := hH.items
  have hsz := hH.size
  refine ⟨by rw [h, heapPush_compare]; exact hH.compare, ?_, ?_⟩
  · rw [h, heapPush_items, heapPush]
    split
    · simp only [pushItem_size]; omega
    · simp only [pushItem_size]; omega
  · rw [h, heapPush]
    simp only [heapPushFits, Bool.or_eq_true, decide_eq_true_eq] at hf
    split
    · simp only [pushItem_size]; omega
    · simp only [pushItem_size]; omega

theorem popMin (hH : Heaped s) (h : s'.timerHeap = (heapPopMin .block s.timerHeap).2) :
    Heaped s' := by
  have hi := hH.items
  have hm : (heapPopMin .block s.timerHeap).2.items ≤ s.timerHeap.items ∧
      (heapPopMin .block s.timerHeap).2.size = s.timerHeap.size := by
    unfold heapPopMin
    split
    · exact ⟨le_rfl, rfl⟩
    · dsimp only
      split
      · exact ⟨by simp, rfl⟩
      · exact ⟨by simp, rfl⟩
  exact ⟨by rw [h, heapPopMin_compare]; exact hH.compare, by rw [h, hm.2]; omega,
    by rw [h, hm.2]; exact hH.size⟩

/-- `heap_pop_min` takes out what `heap_min` shows. -/
theorem bag_popMin (hH : Heaped s) (hi : s.timerHeap.items ≠ 0) :
    s.timerHeap.heap.cell 1 ::ₘ (heapPopMin .block s.timerHeap).2.bag = s.timerHeap.bag := by
  have h1 := hH.items
  have h2 := hH.size
  refine heapPopMin_bag hi (by omega) fun w _ => ?_
  rw [hH.compare]
  exact timerCompare_self w

theorem mem_popMin (hH : Heaped s) {w : TimerWait}
    (hw : w ∈ (heapPopMin .block s.timerHeap).2.bag) : w ∈ s.timerHeap.bag := by
  by_cases hi : s.timerHeap.items = 0
  · rwa [heapPopMin_null hi] at hw
  · rw [← hH.bag_popMin hi]
    exact Multiset.mem_cons_of_mem hw

end Heaped

end Lwthread.Scheduler
