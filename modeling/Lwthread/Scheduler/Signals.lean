import Lwthread.Scheduler.Stored

/-!
# Signals and run lists

In the build with `SCHED_PREEMPTION` a signal may come between any two statements at which
`preempt_lock` is 0, and its handler works on the run list of the thread that it interrupts. Nothing
keeps it from coming while an operation on that list is under way, or while the coroutine that it
interrupts is itself on the list: such signals break the lists (`signals_break_lists`). All others
leave the lists as they should be, however deep their handlers nest (`signals_keep_lists`): a state of
the machine with the lists in memory is a state of the one with sequences (`Stored.moves`), where a
list is what it is before the operation under way.
-/

namespace Lwthread.Scheduler

open Lwthread.Util Rings Custody

variable {preemption : Bool} {s s' : PtrState} {q q' : Seq} {t u : Tid}
  {l : LocalSched (PopPc Node)} {c d : Cid} {a : Act}

/-! ## Operations of other threads -/

theorem Context.edit_of_resumes {x : Context (PushPc Node) (PopPc Node)} (h : x.forget.Resumes) :
    x.edit = none := by
  obtain ⟨pc, sig⟩ := x
  have hresched : ∀ {r : ReschedPc (PushPc Node) (PopPc Node)}, r.forget = .resumed → r.edit = none := by
    intro r hr
    cases r with
    | resumed => rfl
    | _ => cases hr
  cases sig with
  | cons r rs => exact hresched h
  | nil =>
    cases pc with
    | trampoline => rfl
    | suspendUnblock => rfl
    | resched r =>
      cases r with
      | resumed => rfl
      | _ => cases h
    | _ => cases h

theorem Context.edit_of_top {x : Context (PushPc Node) (PopPc Node)}
    (h : x.forget = ⟨.loopTop u, []⟩) : x.edit = none := by
  obtain ⟨pc, sig⟩ := x
  obtain ⟨hpc, hsig⟩ := Context.mk.inj h
  obtain rfl : sig = [] := List.map_eq_nil_iff.1 hsig
  cases pc <;> first | rfl | cases hpc

theorem LocalSched.on_of_forget (h : l.forget.exec = .on c) : l.exec = .on c := by
  unfold LocalSched.forget at h
  cases he : l.exec with
  | on d =>
    rw [he] at h
    cases h
    rfl
  | _ => rw [he] at h; cases h

theorem Context.settled_of_nil {x : Context (PushPc Node) (PopPc Node)} (h : x.sig = []) :
    x.Settled := fun hne => absurd h hne

section

variable (hI : Inv preemption (s.forget q)) (hl : s.sched t = some l)
  (hm : Moves ptrOps preemption s t l a s')

include hI

/-- Nobody is about to start a thread that is started. -/
theorem Inv.no_maker (hl : s.sched t = some l) (hrun : l.started = true) (d : Cid) (e : Edit) :
    (s.context d).pc.fills ≠ some (t, e) := by
  intro h
  obtain ⟨l', -, hl', hns, -⟩ := hI.control.starts ((Pc.forget_starts _).trans (Pc.fills_starts h))
  rw [State.forget_sched s q t hl] at hl'
  cases hl'
  rw [show l.forget.started = l.started from rfl, hrun] at hns
  cases hns

/-- A thread that is not started works on no list. -/
theorem Inv.quiet (hU : Unstarted (s.forget q)) (h : ((s.forget q).context c).pc.starts = some u) :
    s.edit u = none := by
  obtain ⟨lu', -, hready, hns, -⟩ := hI.control.starts h
  obtain ⟨lu, hlu, rfl⟩ := Option.map_eq_some_iff.1 hready
  obtain ⟨d, hed, hctx⟩ := hU hready hns
  rw [State.edit_of_exec hlu (LocalSched.on_of_forget hed)]
  exact Context.edit_of_top hctx

include hm

theorem Moves.fills_ne (hd : l.exec ≠ .on d) :
    (s'.context d).pc.fills = (s.context d).pc.fills := by
  rcases hm.context_ne hd with h | ⟨rfl, -, hnew⟩
  · rw [h]
  · have hblank : (s.context s.coros).pc.fills = none := by
      have hctx := congrArg Context.pc (hI.control.blank (c := s.coros) le_rfl)
      have hpc : (s.context s.coros).pc.forget = .user := hctx
      generalize (s.context s.coros).pc = pc at hpc
      cases pc <;> first | rfl | cases hpc
    rw [hblank]
    rcases hnew with h | ⟨v, h⟩ <;> · rw [h]; rfl

include hl

theorem Moves.edit_ne (hu : u ≠ t) : s'.edit u = s.edit u := by
  have hexec : ∀ {lu lu'}, s.sched u = some lu → s'.sched u = some lu' → lu'.exec = lu.exec →
      s'.edit u = s.edit u := by
    intro lu lu' hlu hlu' he
    simp only [State.edit, hlu, hlu', he]
    rcases hd : lu.exec with d | _ | p | y
    · have hed := LocalSched.forget_on hd
      have hne : l.exec ≠ .on d := fun hel => hu <|
        hI.exec_inj (s.forget_sched q u hlu) (.inl hed) (s.forget_sched q t hl)
          (.inl (LocalSched.forget_on hel))
      have hold : d ≠ s.coros := hI.exec_ne_coros (s.forget_sched q u hlu) hed
      simp only [(hm.context_ne hne).eq hold]
    all_goals rfl
  rcases hm.sched_ne hu with h | ⟨c, he, h | ⟨-, h⟩ | ⟨rfl, h, hctx⟩⟩
  · rcases hlu : s.sched u with _ | lu
    · simp only [State.edit, h, hlu]
    · exact hexec hlu (h.trans hlu) rfl
  · rcases hlu : s.sched u with _ | lu
    · simp only [State.edit, h, hlu]
    · exact hexec hlu (h.trans hlu) rfl
  · rcases hlu : s.sched u with _ | lu
    · simp only [State.edit, h, hlu, Option.map_none]
    · rw [hlu, Option.map_some] at h
      exact hexec hlu h rfl
  · have hvacant := (hI.control.vacant (t := s.locals) le_rfl).1
    rcases hlu : s.sched s.locals with _ | lu
    · have hne : s.coros ≠ c :=
        (hI.exec_ne_coros (s.forget_sched q t hl) (LocalSched.forget_on he)).symm
      simp only [State.edit, hlu, h, hctx hne]
      rfl
    · simp only [State.forget, hlu, Option.map_some] at hvacant
      cases hvacant

end

/-! ## Operations on the lists of other threads stay as they are -/

section

variable (hI : Inv preemption (s.forget q)) (hI' : Inv preemption (s'.forget q'))
  (hl : s.sched t = some l) (hrun : l.started = true) (hm : Moves ptrOps preemption s t l a s')
  (hset : ∀ c, l.exec = .on c → (s'.context c).Settled)

omit hI' in
include hm hset in
theorem Stored.settled_moves (hS : Stored s q) (d : Cid) : (s'.context d).Settled := by
  by_cases hd : l.exec = .on d
  · exact hset d hd
  · rcases hm.context_ne hd with h | ⟨-, -, h | ⟨v, h⟩⟩
    · rw [h]
      exact hS.settled d
    · exact Context.settled_of_nil (by rw [h])
    · exact Context.settled_of_nil (by rw [h])

include hl hm in
theorem Moves.threads {v : Tid} {lv : LocalSched (PopPc Node)} (hv : s'.sched v = some lv) :
    (∃ lv', s.sched v = some lv') ∨ v = s.locals := by
  by_cases hvt : v = t
  · exact .inl ⟨l, hvt ▸ hl⟩
  · rcases hm.sched_ne hvt with h | ⟨c, -, h | ⟨-, h⟩ | ⟨h, -⟩⟩
    · exact .inl ⟨lv, h ▸ hv⟩
    · exact .inl ⟨lv, h ▸ hv⟩
    · rw [hv] at h
      obtain ⟨lv', hlv', -⟩ := Option.map_eq_some_iff.1 h.symm
      exact .inl ⟨lv', hlv'⟩
    · exact .inr h

include hI' hl hm in
theorem Moves.threads_old (hlocals : s'.locals = s.locals) {v : Tid} {lv : LocalSched (PopPc Node)}
    (hv : s'.sched v = some lv) : ∃ lv', s.sched v = some lv' := by
  rcases hm.threads hl hv with h | rfl
  · exact h
  · have hvacant := (hI'.control.vacant (t := s'.locals) le_rfl).1
    rw [← hlocals] at hv
    simp only [State.forget, hv, Option.map_some] at hvacant
    cases hvacant

include hI hl hrun hm in
theorem Moves.edits_iff (hfills : ∀ c, l.exec = .on c →
      (s'.context c).pc.fills = (s.context c).pc.fills) (v : Tid) (b : Edit) :
    (v ≠ t → (s'.Edits v b ↔ s.Edits v b)) ∧ (s.Edits t b ↔ s.edit t = some b) ∧
      (s'.Edits t b ↔ s'.edit t = some b) := by
  have hall : ∀ d, (s'.context d).pc.fills = (s.context d).pc.fills := by
    intro d
    by_cases hd : l.exec = .on d
    · exact hfills d hd
    · exact hm.fills_ne hI hd
  refine ⟨fun hv => ⟨?_, ?_⟩, ⟨?_, .thread⟩, ⟨?_, .thread⟩⟩
  · rintro (h | @⟨d, h⟩)
    · exact .thread ((hm.edit_ne hI hl hv).symm.trans h)
    · exact .maker ((hall d).symm.trans h)
  · rintro (h | @⟨d, h⟩)
    · exact .thread ((hm.edit_ne hI hl hv).trans h)
    · exact .maker ((hall d).trans h)
  · rintro (h | @⟨d, h⟩)
    · exact h
    · exact absurd h (hI.no_maker hl hrun d b)
  · rintro (h | @⟨d, h⟩)
    · exact h
    · rw [hall d] at h
      exact absurd h (hI.no_maker hl hrun d b)

include hI hI' hl hrun hm hset

/-- A step that performs a statement on the list of its thread, or none. -/
theorem Stored.own (hS : Stored s q)
    (hT : Turn s.queues q t (s.edit t) s'.queues q' (s'.edit t))
    (hfills : ∀ c, l.exec = .on c → (s'.context c).pc.fills = (s.context c).pc.fills)
    (hcoros : s'.coros = s.coros) (hlocals : s'.locals = s.locals) : Stored s' q' := by
  have hedits := hm.edits_iff hI hl hrun hfills
  exact hS.turn hI hl hT (fun b => (hedits t b).2.1) (fun b => (hedits t b).2.2)
    (fun v b hv => (hedits v b).1 hv) (hm.threads_old hI' hl hlocals) hcoros (hS.settled_moves hm hset)

/-- A step that performs a statement on the list of a thread that its coroutine is about to start. -/
theorem Stored.fill (hS : Stored s q) (hU : Unstarted (s.forget q)) {x : Cid} {p : PushPc Node}
    {e' : Option Edit} (he : l.exec = .on c) (hedit : s.edit t = none) (hedit' : s'.edit t = none)
    (hpc : (s.context c).pc = .newEnqueue x u (.push p))
    (hT : Turn s.queues q u (pushEdit x p) s'.queues q' e')
    (hfills : (s'.context c).pc.fills = e'.map (u, ·)) (hcoros : s'.coros = s.coros)
    (hlocals : s'.locals = s.locals) : Stored s' q' := by
  have hstarts : ((s.forget q).context c).pc.starts = some u := by
    show (s.context c).pc.forget.starts = some u
    rw [hpc]
    rfl
  obtain ⟨lu', -, hready, hns, -⟩ := hI.control.starts hstarts
  obtain ⟨lu, hlu, rfl⟩ := Option.map_eq_some_iff.1 hready
  have hut : u ≠ t := by
    rintro rfl
    cases Option.some.inj (hl.symm.trans hlu)
    rw [show l.forget.started = l.started from rfl, hrun] at hns
    cases hns
  have hquiet := hI.quiet hU hstarts
  have hself : (s.context c).pc.fills = (pushEdit x p).map (u, ·) := by
    rw [hpc]
    rfl
  have honly : ∀ {d b}, (s.context d).pc.fills = some (u, b) → d = c := fun h =>
    hI.control.startsInj ((Pc.forget_starts _).trans (Pc.fills_starts h)) hstarts
  have hmaker : ∀ {o : Option Edit} {v b}, o.map (u, ·) = some (v, b) → v = u ∧ o = some b := by
    intro o v b h
    obtain ⟨b', rfl, heq⟩ := Option.map_eq_some_iff.1 h
    cases heq
    exact ⟨rfl, rfl⟩
  refine hS.turn hI hlu hT (fun b => ⟨?_, fun h => .maker (c := c) (by rw [hself, h]; rfl)⟩)
    (fun b => ⟨?_, fun h => .maker (c := c) (by rw [hfills, h]; rfl)⟩) (fun v b hv => ⟨?_, ?_⟩)
    (hm.threads_old hI' hl hlocals) hcoros (hS.settled_moves hm hset)
  · rintro (h | @⟨d, h⟩)
    · rw [hquiet] at h
      cases h
    · obtain rfl := honly h
      exact (hmaker (hself.symm.trans h)).2
  · rintro (h | @⟨d, h⟩)
    · rw [hm.edit_ne hI hl hut, hquiet] at h
      cases h
    · by_cases hd : l.exec = .on d
      · obtain rfl : d = c := Exec.on.inj (hd.symm.trans he)
        exact (hmaker (hfills.symm.trans h)).2
      · rw [hm.fills_ne hI hd] at h
        exact absurd (honly h ▸ he) hd
  · rintro (h | @⟨d, h⟩)
    · by_cases hvt : v = t
      · rw [hvt, hedit'] at h
        cases h
      · exact .thread ((hm.edit_ne hI hl hvt).symm.trans h)
    · by_cases hd : l.exec = .on d
      · obtain rfl : d = c := Exec.on.inj (hd.symm.trans he)
        exact absurd (hmaker (hfills.symm.trans h)).1 hv
      · exact .maker ((hm.fills_ne hI hd).symm.trans h)
  · rintro (h | @⟨d, h⟩)
    · by_cases hvt : v = t
      · rw [hvt, hedit] at h
        cases h
      · exact .thread ((hm.edit_ne hI hl hvt).trans h)
    · by_cases hd : l.exec = .on d
      · obtain rfl : d = c := Exec.on.inj (hd.symm.trans he)
        exact absurd (hmaker (hself.symm.trans h)).1 hv
      · exact .maker ((hm.fills_ne hI hd).trans h)

end

/-! ## What a thread reads of its list -/

theorem State.edit_of_dequeues {p : PopPc Node} (h : s.dequeues t = some p) : s.edit t = popEdit p := by
  have hresched : ∀ {r : ReschedPc (PushPc Node) (PopPc Node)}, r.dequeues = some p →
      r.edit = popEdit p := by
    intro r hr
    cases r with
    | dequeue => cases hr; rfl
    | _ => cases hr
  unfold State.dequeues at h
  unfold State.edit
  rcases hl : s.sched t with _ | l
  · simp only [hl] at h
    cases h
  · simp only [hl] at h ⊢
    rcases he : l.exec with c | _ | p₀ | x
    · simp only [he] at h ⊢
      unfold Context.edit
      rcases hsig : (s.context c).sig with _ | ⟨r, rs⟩
      · simp only [hsig] at h ⊢
        generalize (s.context c).pc = pc at h
        cases pc with
        | resched r ret => exact hresched h
        | suspendDequeue => cases h; rfl
        | _ => cases h
      · simp only [hsig] at h ⊢
        exact hresched h
    · simp only [he] at h
      cases h
    · simp only [he] at h ⊢
      cases h
      rfl
    · simp only [he] at h
      cases h

section

variable (hI : Inv preemption (s.forget q)) (hS : Stored s q) (hl : s.sched t = some l)
  (hrun : l.started = true)

include hI hl hrun

theorem Inv.editIs : s.EditIs t (s.edit t) := by
  rcases he : s.edit t with _ | b
  · rintro b (h | @⟨d, h⟩)
    · rw [he] at h
      cases h
    · exact hI.no_maker hl hrun d b h
  · exact .thread he

/-- A run list from which a coroutine is taken is not empty. -/
theorem Inv.dequeues_ne {p : PopPc Node} (hd : s.dequeues t = some p) : q.list t ≠ [] :=
  hI.dequeues (p := ()) (s.forget_sched q t hl) hrun (s.forget_dequeues q t hd)

include hS

theorem Stored.listEmpty_eq (hedit : s.edit t = none) :
    ptrOps.listEmpty s.queues t = (q.list t).isEmpty := by
  have hring : ListAt s.queues t (q.list t) none := by
    rw [← hedit]
    exact hS.lists hl (hI.editIs hl hrun)
  show (s.queues.next (.list t) == some (.list t)) = _
  rcases hlist : q.list t with _ | ⟨x, xs⟩
  · rw [hlist] at hring
    rw [(Ring.path hring).1]
    simp
  · rw [hlist] at hring
    rw [(Ring.path hring).1.1]
    simp

theorem Stored.pop_step {p : PopPc Node} (hd : s.dequeues t = some p) :
    ∃ x xs, q.list t = x :: xs ∧
      ∀ n, (popStep s.queues (.list t) p).2 = .inr n → n = .item x := by
  obtain ⟨x, xs, hlist⟩ := List.exists_cons_of_ne_nil (hI.dequeues_ne hl hrun hd)
  have hat := hS.lists hl (hI.editIs hl hrun)
  rw [State.edit_of_dequeues hd, listAt_pop hlist] at hat
  have hnd := hI.list_nodup t
  rw [show (s.forget q).queues.list t = q.list t from rfl, hlist] at hnd
  have hfirst : Node.item x ∉ Node.list t :: xs.map .item := by
    intro hmem
    exact (List.nodup_cons.1 hnd).1 (mem_items.1 ((List.mem_cons.1 hmem).resolve_left nofun))
  exact ⟨x, xs, hlist, fun n hn => ((hat.step hfirst).2 n hn).1⟩

theorem Stored.popped {p : PopPc Node} {m : Mem Node} {x : Cid} (hd : s.dequeues t = some p)
    (hq : ptrOps.pop s.queues t p = (m, .inr (some x))) : ∃ xs, q.list t = x :: xs := by
  obtain ⟨y, ys, hlist, hnode⟩ := hS.pop_step hI hl hrun hd
  obtain ⟨n, -, hr, hn⟩ := ptrOps_pop_inr hq
  cases hnode n hr
  cases hn
  exact ⟨ys, hlist⟩

end

/-! ## Steps -/

/-- A signal comes neither between the statements of an operation on the run list of its thread, nor
between the enqueue and the switch of `sched_resched`. -/
def Permitted (s : PtrState) (a : Act) : Prop :=
  ∀ t, a = .signal t → ¬(s.seat t).Yields ∧ s.edit t = none

theorem Proper.forget (h : Proper s a) : Proper (s.forget q) a := by
  intro t x ha
  obtain ⟨hword, hfresh⟩ := h t x ha
  refine ⟨hword, fun c hc => hfresh c ?_⟩
  rw [← Pc.forget_fresh]
  exact hc

theorem permitted_tick (t : Tid) (i : Input) : Permitted s (.tick t i) := fun _ h => nomatch h

theorem proper_step (t : Tid) : Proper s (.tick t .step) := fun _ _ h => nomatch h

theorem Permitted.safe (h : Permitted s a) : Safe (s.forget q) a := by
  intro t ha
  rw [State.forget_seat]
  exact (h t ha).1

/-- A step after which the thread executes something else leaves no operation under way. -/
theorem Stride.edit_of_exec_ne {i : Input} {l' : LocalSched (PopPc Node)}
    (h : Stride ptrOps preemption s t l c i (s.context c).pc s') (hl : s.sched t = some l)
    (hnew : t ≠ s.locals) (hl' : s'.sched t = some l') :
    l'.exec = l.exec ∨ (s'.context c).pc.edit = none := by
  rcases h.exec hl hnew hl' with h' | ⟨-, hpc⟩ | ⟨x, -, ⟨ret, hpc⟩ | ⟨d, ret, hpc⟩⟩
  · exact .inl h'
  · rw [hpc] at h
    refine .inr ?_
    cases h with
    | flow hf => rw [State.goto_pc]; cases hf <;> rfl
    | setErrno => rw [State.modSched_context, hpc]; rfl
    | ret => rw [State.modSched_context, State.setPreempt_context, hpc]; rfl
    | newCoroutine => rw [State.goto_pc]; rfl
    | wait => rw [State.goto_pc]; rfl
    | eventWait => rw [State.goto_pc]; rfl
  · rw [hpc] at h
    refine .inr ?_
    cases h with
    | flow hf => cases hf
    | resched hy =>
      rw [State.goto_pc]
      cases hy
      rfl
  · rw [hpc] at h
    refine .inr ?_
    cases h with
    | flow hf => cases hf
    | park =>
      rw [State.modSched_context, State.goto_pc]
      rfl
    | abort => rw [State.goto_pc]; rfl

/-- A coroutine that the thread has switched to is at the return from a switch. -/
theorem Moves.edit_switched {l' : LocalSched (PopPc Node)} {x : Cid}
    (hI : Inv preemption (s.forget q)) (hl : s.sched t = some l)
    (h : s'.forget q' = s.forget q ∨
      Moves seqOps preemption (s.forget q) t l.forget a (s'.forget q'))
    (hl' : s'.sched t = some l') (he' : l'.exec = .on x) (hne : l.exec ≠ .on x) :
    s'.edit t = none := by
  have hne' : l.forget.exec ≠ .on x := fun h => hne (LocalSched.on_of_forget h)
  rw [State.edit_of_exec hl' he']
  rcases h with hstut | hm
  · have hsched := congrArg (State.sched · t) hstut
    simp only [State.forget, hl, hl', Option.map_some, Option.some.injEq] at hsched
    rw [← hsched, LocalSched.forget_on he'] at hne'
    exact absurd rfl hne'
  · exact Context.edit_of_resumes (hI.switched (s.forget_sched q t hl) hm (s'.forget_sched q' t hl')
      (LocalSched.forget_on he') hne')

section

variable (hI : Inv preemption (s.forget q)) (hU : Unstarted (s.forget q)) (hl : s.sched t = some l)
  (hrun : l.started = true)

include hI hU hl hrun

theorem Moves.forget_inv (hproper : Proper s a) (hperm : Permitted s a)
    (h : s'.forget q' = s.forget q ∨
      Moves seqOps preemption (s.forget q) t l.forget a (s'.forget q')) :
    Inv preemption (s'.forget q') ∧ Unstarted (s'.forget q') := by
  rcases h with h | h
  · rw [h]
    exact ⟨hI, hU⟩
  · have hl' := State.forget_sched s q t hl
    exact ⟨h.inv hI hproper.forget hperm.safe hl' hrun, hU.moves hI hl' hrun h⟩

variable (hS : Stored s q)

include hS

/-- A step of the code of a coroutine. -/
theorem Stored.stride {i : Input} {k : Coroutine} (hproper : Proper s (.tick t i))
    (he : l.exec = .on c) (hk : s.coro c = some k) (hsig : (s.context c).sig = [])
    (hst : Stride ptrOps preemption s t l c i (s.context c).pc s') :
    ∃ q', (s'.forget q' = s.forget q ∨
        Moves seqOps preemption (s.forget q) t l.forget (.tick t i) (s'.forget q')) ∧
      Inv preemption (s'.forget q') ∧ Unstarted (s'.forget q') ∧ Stored s' q' := by
  have hm : Moves ptrOps preemption s t l (.tick t i) s' := .stride he hk hsig hst
  have hedit : s.edit t = (s.context c).pc.edit := by
    rw [State.edit_of_exec hl he]
    simp only [Context.edit, hsig]
  have hnew : c ≠ s.coros := hI.exec_ne_coros (s.forget_sched q t hl) (LocalSched.forget_on he)
  have hdeq : ∀ {p}, (s.context c).pc.dequeues = some p → s.dequeues t = some p := by
    intro p hp
    simp only [State.dequeues, hl, he, hsig]
    exact hp
  have hempty : ∀ {u}, (s.context c).pc = .loopTop u →
      ptrOps.listEmpty s.queues u = (q.list u).isEmpty := by
    intro u hpc
    -- the event loop of a thread runs on it
    have hloop : (s.forget q).loopOf c = some u := by
      have hpc' : ((s.forget q).context c).pc = .loopTop u := by
        show (s.context c).pc.forget = _
        rw [hpc]
        rfl
      rw [State.loopOf_of_pc (by rw [hpc']; rintro ⟨⟩), hpc']
      rfl
    have hown := hI.own_of_runs (s.forget_sched q t hl) (.inl (LocalSched.forget_on he))
    obtain rfl : u = t := Holder.thread.inj (hI.kept.excl.inj (hI.kept.home hloop) hown)
    refine hS.listEmpty_eq hI hl hrun ?_
    rw [hedit, hpc]
    rfl
  have hassert : ∀ {x}, (s.context c).pc.asserts = some x → q.linked x = false := by
    intro x hx
    refine hI.asserts (t := t) ?_
    rw [State.forget_asserts]
    simp only [State.asserts, hl, he, hsig]
    exact hx
  obtain ⟨q', hshift, hor⟩ := hst.forget rfl (fun h => hS.listEmpty_eq hI hl hrun (hedit.trans h))
    hempty hassert (fun hp => hI.dequeues_ne hl hrun (hdeq hp))
    fun hp hq => hS.popped hI hl hrun (hdeq hp) hq
  have hsig₀ : ((s.forget q).context c).sig = [] := by
    show (s.context c).sig.map ReschedPc.forget = []
    rw [hsig]
    rfl
  have hmoves : s'.forget q' = s.forget q ∨
      Moves seqOps preemption (s.forget q) t l.forget (.tick t i) (s'.forget q') :=
    hor.imp_right fun h => .stride (LocalSched.forget_on he) hk hsig₀ h
  obtain ⟨hI', hU'⟩ := Moves.forget_inv hI hU hl hrun hproper (permitted_tick t i) hmoves
  refine ⟨q', hmoves, hI', hU', ?_⟩
  have hsig' : (s'.context c).sig = [] := (hst.sig hnew).trans hsig
  have hset : ∀ d, l.exec = .on d → (s'.context d).Settled := by
    intro d hd
    obtain rfl : d = c := Exec.on.inj (hd.symm.trans he)
    exact Context.settled_of_nil hsig'
  obtain ⟨l', hl'⟩ : ∃ l', s'.sched t = some l' :=
    Option.ne_none_iff_exists'.1 (hm.grows.sched (by rw [hl]; exact Option.some_ne_none l))
  have hlocals : t ≠ s.locals := hI.ne_locals (s.forget_sched q t hl)
  -- what the thread does next to its list
  have hedit' : s'.edit t = (s'.context c).pc.edit := by
    have hsame : l'.exec = .on c → s'.edit t = (s'.context c).pc.edit := by
      intro he'
      rw [State.edit_of_exec hl' he']
      simp only [Context.edit, hsig']
    rcases hst.edit_of_exec_ne hl hlocals hl' with h | h
    · exact hsame (h.trans he)
    · rw [h]
      rcases he' : l'.exec with x | _ | p | y
      · by_cases hx : x = c
        · rw [hsame (hx ▸ he'), h]
        · exact Moves.edit_switched hI hl hmoves hl' he' fun h => hx (Exec.on.inj (h.symm.trans he))
      · simp only [State.edit, hl', he']
        rfl
      · rcases hst.exec hl hlocals hl' with h' | ⟨h', -⟩ | ⟨x, h', -⟩
        · rw [he', he] at h'
          cases h'
        · rw [he'] at h'
          cases h'
        · rw [he'] at h'
          cases h'
      · simp only [State.edit, hl', he']
        rfl
  have hfills : ∀ d, l.exec = .on d → d = c := fun d hd => Exec.on.inj (hd.symm.trans he)
  have hsame : (s.context c).pc.edit = none → (s'.context c).pc.edit = none →
      (s'.context c).pc.fills = (s.context c).pc.fills → ∀ v b, s'.Edits v b ↔ s.Edits v b := by
    intro h h' hf v b
    obtain ⟨hne, hbefore, hafter⟩ := hm.edits_iff hI hl hrun (fun d hd => hfills d hd ▸ hf) v b
    by_cases hv : v = t
    · rw [hv, hbefore, hafter, hedit, hedit', h, h']
    · exact hne hv
  cases hshift with
  | own hT hf hf' hcoros hlo =>
    rw [← hedit, ← hedit'] at hT
    refine hS.own hI hI' hl hrun hm hset hT (fun d hd => ?_) hcoros hlo
    rw [hfills d hd, hf, hf']
  | fill hpc hT he' hf' hcoros hlo =>
    refine hS.fill hI hI' hl hrun hm hset hU he ?_ (hedit'.trans he') hpc hT hf' hcoros hlo
    rw [hedit, hpc]
    rfl
  | coroutine hpc hpc' hmem hq hcoros hlo =>
    refine hS.birth hI (fun n hn _ => ?_) ?_ (fun v _ => by rw [hq]; rfl) (fun x hx => ?_)
      (hsame ?_ ?_ ?_) (fun hv => .inl (hm.threads_old hI' hl hlo hv)) hcoros
      (hS.settled_moves hm hset)
    · rw [hmem]
      exact ⟨Function.update_of_ne hn _ _, Function.update_of_ne hn _ _⟩
    · rw [hmem]
      exact ⟨Function.update_self _ _ _, Function.update_self _ _ _⟩
    · rw [hq]
      exact Function.update_of_ne hx _ _
    · rw [hpc]; rfl
    · rw [hpc']; rfl
    · rw [hpc, hpc']; rfl
  | thread hpc hpc' hmem hq hcoros hlo =>
    refine hS.birth hI (fun n hn hn' => ?_) ?_ (fun v hv => ?_) (fun x hx => ?_) (hsame ?_ ?_ ?_)
      (fun hv => (hm.threads hl hv).imp_right fun hv => ⟨hv, ?_⟩) hcoros (hS.settled_moves hm hset)
    · rw [hmem]
      exact ⟨(Function.update_of_ne hn _ _).trans (Function.update_of_ne hn' _ _),
        (Function.update_of_ne hn _ _).trans (Function.update_of_ne hn' _ _)⟩
    · rw [hmem]
      exact ⟨Function.update_self _ _ _, Function.update_self _ _ _⟩
    · rw [hq]
      exact Function.update_of_ne hv _ _
    · rw [hq]
      exact Function.update_of_ne hx _ _
    · rw [hpc]; rfl
    · rw [hpc']; rfl
    · rw [hpc, hpc']; rfl
    · -- the new list is empty
      subst hv
      have hlist : q'.list s.locals = [] := by
        rw [hq]
        exact Function.update_self _ _ _
      have hn : Node.list s.locals ≠ .item s.coros := by rintro ⟨⟩
      rw [hlist, hmem]
      have hlink : ∀ f : Node → Option Node, Function.update
          (Function.update f (.list s.locals) (some (.list s.locals))) (.item s.coros) none
            (.list s.locals) = some (.list s.locals) := by
        intro f
        rw [Function.update_of_ne hn, Function.update_self]
      exact ⟨⟨hlink _, hlink _⟩, List.nodup_singleton _⟩

/-- A step of a signal handler. -/
theorem Stored.handler {k : Coroutine} {r : ReschedPc (PushPc Node) (PopPc Node)}
    {rs : List (ReschedPc (PushPc Node) (PopPc Node))} {s₁ : PtrState}
    {r' : Option (ReschedPc (PushPc Node) (PopPc Node))} (he : l.exec = .on c)
    (hk : s.coro c = some k) (hsig : (s.context c).sig = r :: rs)
    (hy : Yield ptrOps preemption s t l r s₁ r') :
    ∃ q', ((s₁.setSig c (r'.toList ++ rs)).forget q' = s.forget q ∨
        Moves seqOps preemption (s.forget q) t l.forget (.tick t .step)
          ((s₁.setSig c (r'.toList ++ rs)).forget q')) ∧
      Inv preemption ((s₁.setSig c (r'.toList ++ rs)).forget q') ∧
      Unstarted ((s₁.setSig c (r'.toList ++ rs)).forget q') ∧
      Stored (s₁.setSig c (r'.toList ++ rs)) q' := by
  have hm : Moves ptrOps preemption s t l (.tick t .step) (s₁.setSig c (r'.toList ++ rs)) :=
    .handler he hk hsig hy
  have hedit : s.edit t = r.edit := by
    rw [State.edit_of_exec hl he]
    simp only [Context.edit, hsig]
  have hdeq : ∀ {p}, r = .dequeue p → s.dequeues t = some p := by
    rintro p rfl
    simp only [State.dequeues, hl, he, hsig]
    rfl
  have hassert : ∀ {x}, r.asserts = some x → q.linked x = false := by
    intro x hx
    refine hI.asserts (t := t) ?_
    rw [State.forget_asserts]
    simp only [State.asserts, hl, he, hsig]
    exact hx
  obtain ⟨q', hT, hor⟩ := hy.forget
    (fun hr => hS.listEmpty_eq hI hl hrun (by rw [hedit, hr]; rfl)) hassert
    (fun hr => hI.dequeues_ne hl hrun (hdeq hr)) fun hr hq => hS.popped hI hl hrun (hdeq hr) hq
  have hsig₀ : ((s.forget q).context c).sig = r.forget :: rs.map ReschedPc.forget := by
    show (s.context c).sig.map ReschedPc.forget = _
    rw [hsig]
    rfl
  have hmoves : (s₁.setSig c (r'.toList ++ rs)).forget q' = s.forget q ∨
      Moves seqOps preemption (s.forget q) t l.forget (.tick t .step)
        ((s₁.setSig c (r'.toList ++ rs)).forget q') := by
    have hmap : (r'.toList ++ rs).map ReschedPc.forget =
        (r'.map ReschedPc.forget).toList ++ rs.map ReschedPc.forget := by
      cases r' <;> rfl
    rw [forget_setSig, hmap]
    rcases hor with ⟨hs, hr⟩ | hy'
    · rw [hs, hr]
      refine .inl ?_
      unfold State.setSig
      rw [Function.update_eq_self_iff.2 ?_]
      show Context.mk _ (r.forget :: rs.map ReschedPc.forget) = _
      rw [← hsig₀]
    · exact .inr (.handler (LocalSched.forget_on he) hk hsig₀ hy')
  obtain ⟨hI', hU'⟩ := Moves.forget_inv hI hU hl hrun (proper_step t) (permitted_tick t .step) hmoves
  refine ⟨q', hmoves, hI', hU', ?_⟩
  have hctx : (s₁.setSig c (r'.toList ++ rs)).context c = ⟨(s.context c).pc, r'.toList ++ rs⟩ := by
    rw [State.setSig_self, hy.context_eq]
  obtain ⟨hpc, hrs⟩ := hS.settled c (by rw [hsig]; exact List.cons_ne_nil r rs)
  rw [hsig] at hrs
  have hset : ∀ d, l.exec = .on d → ((s₁.setSig c (r'.toList ++ rs)).context d).Settled := by
    intro d hd
    obtain rfl : d = c := Exec.on.inj (hd.symm.trans he)
    rw [hctx]
    refine fun _ => ⟨hpc, fun r₁ hr₁ => hrs r₁ ?_⟩
    cases r' with
    | none => exact List.mem_of_mem_tail hr₁
    | some => exact hr₁
  obtain ⟨l', hl'⟩ : ∃ l', (s₁.setSig c (r'.toList ++ rs)).sched t = some l' :=
    Option.ne_none_iff_exists'.1 (hm.grows.sched (by rw [hl]; exact Option.some_ne_none l))
  have hedit' : (s₁.setSig c (r'.toList ++ rs)).edit t = r'.bind ReschedPc.edit := by
    have hsame : l'.exec = .on c →
        (s₁.setSig c (r'.toList ++ rs)).edit t = r'.bind ReschedPc.edit := by
      intro he'
      rw [State.edit_of_exec hl' he', hctx]
      cases r' with
      | some => rfl
      | none =>
        cases rs with
        | nil => exact hpc
        | cons r₁ => exact hrs r₁ List.mem_cons_self
    rcases hy.exec hl hl' with h | ⟨x, hr, hx⟩
    · exact hsame (h.trans he)
    · by_cases hxc : x = c
      · exact hsame (hxc ▸ hx)
      · subst hr
        cases hy
        exact Moves.edit_switched hI hl hmoves hl' hx fun h => hxc (Exec.on.inj (h.symm.trans he))
  obtain ⟨hcoros, hlocals⟩ : s₁.coros = s.coros ∧ s₁.locals = s.locals := by
    cases hy with
    | switch => exact setPreempt_counts true
    | resumed => exact setPreempt_counts false
    | _ => exact ⟨rfl, rfl⟩
  rw [← hedit, ← hedit'] at hT
  refine hS.own hI hI' hl hrun hm hset hT (fun d hd => ?_) hcoros hlocals
  obtain rfl : d = c := Exec.on.inj (hd.symm.trans he)
  rw [hctx]

/-- A step of `free_coro`. -/
theorem Stored.death (hd : Death ptrOps s t l l.exec s') :
    ∃ q', (s'.forget q' = s.forget q ∨
        Moves seqOps preemption (s.forget q) t l.forget (.tick t .step) (s'.forget q')) ∧
      Inv preemption (s'.forget q') ∧ Unstarted (s'.forget q') ∧ Stored s' q' := by
  have hm : Moves ptrOps preemption s t l (.tick t .step) s' := .death hd
  have hnot : ∀ d, l.exec ≠ .on d := fun d => hd.not_on
  have hedit : ∀ {s₀ : PtrState} {l₀}, s₀.sched t = some l₀ → (∀ d, l₀.exec ≠ .on d) →
      s₀.edit t = l₀.exec.edit := by
    intro s₀ l₀ hl₀ hne
    -- `hne` excludes the first branch
    simp only [State.edit, hl₀]
  have hdeq : ∀ {p}, l.exec = .dequeue p → s.dequeues t = some p := by
    intro p hp
    simp only [State.dequeues, hl, hp]
  have hfree : l.exec = .free → q.linked l.currentCoro = false := by
    intro he
    have hseat : (s.forget q).seat t = .dying l.currentCoro := by
      rw [State.forget_seat]
      simp only [State.seat, hl, he]
    have htok : l.currentCoro ∈ ((s.forget q).seat t).tokens := by
      rw [hseat]
      exact Multiset.mem_singleton_self _
    refine hI.not_linked (h := .thread t) (Multiset.mem_add.2 (.inl htok)) fun u hu => ?_
    cases hu
    exact htok
  obtain ⟨q', l', hl', hT, hor⟩ := hd.forget hfree hl rfl
    (fun hp => hI.dequeues_ne hl hrun (hdeq hp)) fun hp hq => hS.popped hI hl hrun (hdeq hp) hq
  have hmoves : s'.forget q' = s.forget q ∨
      Moves seqOps preemption (s.forget q) t l.forget (.tick t .step) (s'.forget q') :=
    hor.imp_right fun h => .death h
  obtain ⟨hI', hU'⟩ := Moves.forget_inv hI hU hl hrun (proper_step t) (permitted_tick t .step) hmoves
  refine ⟨q', hmoves, hI', hU', ?_⟩
  have hedit' : s'.edit t = l'.exec.edit := by
    rcases he : l'.exec with x | _ | p | y
    · exact Moves.edit_switched hI hl hmoves hl' he (hnot x)
    all_goals
      rw [hedit hl' (by rw [he]; rintro d ⟨⟩), he]
  rw [← hedit hl hnot, ← hedit'] at hT
  obtain ⟨hcoros, hlocals⟩ : s'.coros = s.coros ∧ s'.locals = s.locals := by
    generalize l.exec = e at hd
    cases hd <;> exact ⟨rfl, rfl⟩
  exact hS.own hI hI' hl hrun hm (fun d hd => absurd hd (hnot d)) hT (fun d hd => absurd hd (hnot d))
    hcoros hlocals

/-- A signal. -/
theorem Stored.signal (hp : preemption = true) (hlock : l.preemptLock = false) (he : l.exec = .on c)
    (hperm : Permitted s (.signal t)) :
    ∃ q', Moves seqOps preemption (s.forget q) t l.forget (.signal t)
        ((s.setSig c (.check :: (s.context c).sig)).forget q') ∧
      Inv preemption ((s.setSig c (.check :: (s.context c).sig)).forget q') ∧
      Unstarted ((s.setSig c (.check :: (s.context c).sig)).forget q') ∧
      Stored (s.setSig c (.check :: (s.context c).sig)) q' := by
  have hm : Moves ptrOps preemption s t l (.signal t) (s.setSig c (.check :: (s.context c).sig)) :=
    .signal hp hlock he
  have hmoves : Moves seqOps preemption (s.forget q) t l.forget (.signal t)
      ((s.setSig c (.check :: (s.context c).sig)).forget q) := by
    rw [forget_setSig]
    exact .signal hp hlock (LocalSched.forget_on he)
  obtain ⟨hI', hU'⟩ := Moves.forget_inv hI hU hl hrun (fun _ _ h => by cases h) hperm (.inr hmoves)
  refine ⟨q, hmoves, hI', hU', ?_⟩
  have hedit := (hperm t rfl).2
  have hctx := State.setSig_self s (c := c) (.check :: (s.context c).sig)
  have hset : ∀ d, l.exec = .on d →
      ((s.setSig c (.check :: (s.context c).sig)).context d).Settled := by
    intro d hd
    obtain rfl : d = c := Exec.on.inj (hd.symm.trans he)
    rw [hctx]
    rw [State.edit_of_exec hl he] at hedit
    unfold Context.edit at hedit
    rcases hsig : (s.context d).sig with _ | ⟨r, rs⟩
    · simp only [hsig] at hedit
      exact fun _ => ⟨hedit, nofun⟩
    · simp only [hsig] at hedit
      obtain ⟨hpc, hrs⟩ := hS.settled d (by rw [hsig]; exact nofun)
      rw [hsig] at hrs
      exact fun _ => ⟨hpc, List.forall_mem_cons.2 ⟨hedit, hrs⟩⟩
  have hedit' : (s.setSig c (.check :: (s.context c).sig)).edit t = none := by
    have hl' : (s.setSig c (.check :: (s.context c).sig)).sched t = some l := hl
    rw [State.edit_of_exec hl' he, hctx]
    rfl
  refine hS.own hI hI' hl hrun hm hset ?_ (fun d hd => ?_) rfl rfl
  · rw [hedit, hedit']
    exact .keep
  · rw [State.setSig_pc]

/-- **A step over nodes** does nothing over sequences, or is a step there. -/
theorem Stored.simulates (hproper : Proper s a) (hperm : Permitted s a)
    (hm : Moves ptrOps preemption s t l a s') :
    ∃ q', (s'.forget q' = s.forget q ∨
        Moves seqOps preemption (s.forget q) t l.forget a (s'.forget q')) ∧
      Inv preemption (s'.forget q') ∧ Unstarted (s'.forget q') ∧ Stored s' q' := by
  cases hm with
  | stride he hk hsig hst => exact hS.stride hI hU hl hrun hproper he hk hsig hst
  | handler he hk hsig hy => exact hS.handler hI hU hl hrun he hk hsig hy
  | death hd => exact hS.death hI hU hl hrun hd
  | signal hp hlock he =>
    obtain ⟨q', hm, h⟩ := hS.signal hI hU hl hrun hp hlock he hperm
    exact ⟨q', .inr hm, h⟩

/-- **Steps keep the memory as the sequences say.** -/
theorem Stored.moves (hproper : Proper s a) (hperm : Permitted s a)
    (hm : Moves ptrOps preemption s t l a s') :
    ∃ q', Inv preemption (s'.forget q') ∧ Unstarted (s'.forget q') ∧ Stored s' q' := by
  obtain ⟨q', -, h⟩ := hS.simulates hI hU hl hrun hproper hperm hm
  exact ⟨q', h⟩

end

/-! ## Assertions -/

section

variable (hI : Inv preemption (s.forget q)) (hS : Stored s q)

include hI

/-- Who keeps a coroutine whose node is about to be checked. -/
theorem Inv.asserts_pusher {x : Cid} (hx : s.asserts t = some x) :
    s.edit t = none ∧
      ((∃ h, Pusher s t x h) ∨ ∃ c v, (s.context c).pc = .newEnqueue x v .assert) := by
  unfold State.asserts at hx
  rcases hl : s.sched t with _ | l
  · simp only [hl] at hx
    cases hx
  · rcases he : l.exec with c | _ | p | y
    · have hseat : s.seat t = (s.context c).seat c := by
        simp only [State.seat, hl, he]
      have hresched : ∀ {r : ReschedPc (PushPc Node) (PopPc Node)}, r.forget.Named c →
          s.seat t = r.seat c → r.asserts = some x → r.edit = none ∧ Pusher s t x (.thread t) := by
        intro r hn hr hx
        cases r with
        | enqueue d e =>
          cases e with
          | assert =>
            obtain rfl : d = x := Option.some.inj hx
            obtain rfl : d = c := hn
            refine ⟨rfl, .thread ?_⟩
            rw [hr]
            exact Multiset.mem_singleton_self _
          | push => cases hx
        | _ => cases hx
      have hnamed := hI.control.named c
      simp only [hl, he] at hx
      rw [State.edit_of_exec hl he]
      unfold Context.edit
      rw [Context.seat] at hseat
      rcases hsig : (s.context c).sig with _ | ⟨r, rs⟩
      · simp only [hsig] at hx hseat ⊢
        have hn : (s.context c).pc.forget.Named c := hnamed.1
        generalize hpc : (s.context c).pc = pc at hx hseat hn
        cases pc with
        | resched r ret =>
          obtain ⟨hedit, hp⟩ := hresched hn hseat hx
          exact ⟨hedit, .inl ⟨_, hp⟩⟩
        | suspendEnqueue y e ret =>
          cases e with
          | assert =>
            cases hx
            refine ⟨rfl, .inl ⟨_, .thread ?_⟩⟩
            rw [hseat]
            simp
          | push => cases hx
        | scheduleEnqueue y e ret =>
          cases e with
          | assert =>
            cases hx
            exact ⟨rfl, .inl ⟨_, .schedule hl he hpc⟩⟩
          | push => cases hx
        | newEnqueue y v e =>
          cases e with
          | assert =>
            cases hx
            exact ⟨rfl, .inr ⟨c, v, hpc⟩⟩
          | push => cases hx
        | _ => cases hx
      · simp only [hsig] at hx hseat ⊢
        have hn : r.forget.Named c := hnamed.2 _ (List.mem_map.2 ⟨r, by rw [hsig]; simp, rfl⟩)
        obtain ⟨hedit, hp⟩ := hresched hn hseat hx
        exact ⟨hedit, .inl ⟨_, hp⟩⟩
    all_goals
      simp only [hl, he] at hx
      cases hx

variable (hU : Unstarted (s.forget q))

include hU

/-- A coroutine whose node is about to be checked is not being put on a list. -/
theorem Inv.asserts_alone {x : Cid} (hl : s.sched t = some l) (hrun : l.started = true)
    (hx : s.asserts t = some x) : x < s.coros ∧ ∀ u p, ¬s.Edits u (.push x p) := by
  obtain ⟨hedit, ⟨h, hp⟩ | ⟨c, v, hpc⟩⟩ := hI.asserts_pusher hx
  · refine ⟨hI.lt_coros hp.own, fun u p he => ?_⟩
    obtain ⟨h', hp'⟩ := he.pusher hI
    obtain rfl := hp'.inj hI hp
    cases he with
    | thread he =>
      rw [hedit] at he
      cases he
    | maker he => exact hI.no_maker hl hrun _ _ he
  · have hp : Pusher s v x (.woken c) := .maker hpc
    have hstarts : ((s.forget q).context c).pc.starts = some v := by
      show (s.context c).pc.forget.starts = some v
      rw [hpc]
      rfl
    refine ⟨hI.lt_coros hp.own, fun u p he => ?_⟩
    obtain ⟨h', hp'⟩ := he.pusher hI
    obtain rfl := hp'.inj hI hp
    cases he with
    | thread he =>
      rw [hI.quiet hU hstarts] at he
      cases he
    | @maker c' he =>
      obtain rfl : c' = c :=
        hI.control.startsInj ((Pc.forget_starts _).trans (Pc.fills_starts he)) hstarts
      rw [hpc] at he
      cases he

include hS

/-- `sched_enqueue_locked` does not find its coroutine linked. -/
theorem Stored.asserts {x : Cid} (hl : s.sched t = some l) (hrun : l.started = true)
    (hx : s.asserts t = some x) : ptrOps.listInList s.queues x = false := by
  have hlinked : q.linked x = false := hI.asserts (t := t) (by rw [State.forget_asserts]; exact hx)
  obtain ⟨hold, halone⟩ := hI.asserts_alone hU hl hrun hx
  obtain ⟨hnext, hprev⟩ := hS.free hold hlinked halone
  show ((s.queues.next (.item x)).isSome || (s.queues.prev (.item x)).isSome) = false
  rw [hnext, hprev]
  rfl

/-- A step neither trips the assertion of `sched_enqueue_locked` nor unlinks a sentinel. -/
theorem Stored.step_sound (h : Scheduler.step ptrOps preemption s a = some s') :
    s'.failure ≠ some .enqueue ∧ s'.failure ≠ some .sentinel := by
  constructor
  · intro hf
    obtain ⟨-, t, l, hl, hrun, hfails⟩ := step_fails ptrOps h hf
    obtain ⟨x, hx, hn⟩ := hfails.asserts hl
    rw [hS.asserts hI hU hl hrun hx] at hn
    cases hn
  · intro hf
    obtain ⟨-, t, l, hl, hrun, hfails⟩ := step_fails ptrOps h hf
    obtain ⟨p, m, hp, hq⟩ := hfails.dequeues hl
    obtain ⟨x, xs, -, hnode⟩ := hS.pop_step hI hl hrun hp
    obtain ⟨n, -, hr, hn⟩ := ptrOps_pop_inr hq
    rw [hnode n hr] at hn
    cases hn

end

/-! ## Runs -/

section

variable (m : Mem Node) (localSize : Nat) (garbage : Nat → TimerWait) (state errno threadErrno : Int)

theorem ptrInit_forget : (ptrInit m localSize garbage state errno threadErrno).forget
      (seqInit localSize garbage state errno threadErrno).queues =
    seqInit localSize garbage state errno threadErrno := by
  unfold ptrInit seqInit schedInit State.forget
  congr 1
  · funext c
    by_cases h1 : c = 1
    · subst h1; rfl
    · by_cases h0 : c = 0
      · subst h0; rfl
      · simp [schedInitLocal, schedMakeCoro, schedNewLocal, State.modSched, Context.forget, h1]
  · funext t
    by_cases h0 : t = 0
    · subst h0; rfl
    · simp [schedInitLocal, schedMakeCoro, schedNewLocal, State.modSched, h0]

/-- After `sched_init` the run list of the thread is the ring of its event loop coroutine. -/
theorem Stored.init : Stored (ptrInit m localSize garbage state errno threadErrno)
    (seqInit localSize garbage state errno threadErrno).queues := by
  have hforget := ptrInit_forget m localSize garbage state errno threadErrno
  have hctx : ∀ c, ((ptrInit m localSize garbage state errno threadErrno).context c).forget =
      ⟨if c = 1 then .trampoline else .user, []⟩ := fun c =>
    (congrFun (congrArg State.context hforget) c).trans (seqInit_context ..)
  have hsig : ∀ c, ((ptrInit m localSize garbage state errno threadErrno).context c).sig = [] :=
    fun c => List.map_eq_nil_iff.1 (congrArg Context.sig (hctx c))
  have hpc : ∀ c, ((ptrInit m localSize garbage state errno threadErrno).context c).pc.edit = none ∧
      ((ptrInit m localSize garbage state errno threadErrno).context c).pc.fills = none := by
    intro c
    have h := congrArg Context.pc (hctx c)
    change Pc.forget _ = _ at h
    generalize ((ptrInit m localSize garbage state errno threadErrno).context c).pc = pc at h
    dsimp only at h
    split at h
    · cases pc <;> first | exact ⟨rfl, rfl⟩ | cases h
    · cases pc <;> first | exact ⟨rfl, rfl⟩ | cases h
  have hedits : ∀ u e, ¬(ptrInit m localSize garbage state errno threadErrno).Edits u e := by
    rintro u e (h | @⟨c, h⟩)
    · by_cases hu : u = 0
      · subst hu
        cases h
      · have hsched := congrFun (congrArg State.sched hforget) u
        rw [seqInit_sched, if_neg hu] at hsched
        have hnone : (ptrInit m localSize garbage state errno threadErrno).sched u = none :=
          Option.map_eq_none_iff.1 hsched
        simp only [State.edit, hnone] at h
        cases h
    · rw [(hpc c).2] at h
      cases h
  refine ⟨fun c => Context.settled_of_nil (hsig c), ?_, ?_⟩
  · intro u l o hl ho
    have hu : u = 0 := by
      by_contra hu
      have hsched := congrFun (congrArg State.sched hforget) u
      rw [seqInit_sched, if_neg hu] at hsched
      rw [Option.map_eq_none_iff.1 hsched] at hl
      cases hl
    subst hu
    cases o with
    | some e => exact absurd ho (hedits 0 e)
    | none =>
      show Ring _ (Node.list 0) _
      rw [seqInit_list]
      exact ⟨⟨⟨rfl, rfl⟩, rfl, rfl⟩, by decide⟩
  · intro x hx hlinked _
    rw [seqInit_linked] at hlinked
    have hx : x < 2 := hx
    obtain rfl : x = 0 := by
      have : x ≠ 1 := of_decide_eq_false hlinked
      omega
    exact ⟨rfl, rfl⟩

variable {m localSize garbage state errno threadErrno}

/-- **Runs keep the memory as the sequences say.** -/
theorem Reach.stored (h : Reach ptrOps preemption (fun s a => Proper s a ∧ Permitted s a)
      (ptrInit m localSize garbage state errno threadErrno) s) (hf : s.failure = none) :
    ∃ q, Inv preemption (s.forget q) ∧ Unstarted (s.forget q) ∧ Stored s q := by
  refine h.invariant (P := fun s => s.failure = none →
    ∃ q, Inv preemption (s.forget q) ∧ Unstarted (s.forget q) ∧ Stored s q) (fun _ => ?_) ?_ hf
  · refine ⟨_, ?_, ?_, .init m localSize garbage state errno threadErrno⟩
    · rw [ptrInit_forget]
      exact Inv.init ..
    · rw [ptrInit_forget]
      intro u l hl hst
      rw [seqInit_sched] at hl
      split at hl
      · cases hl; cases hst
      · cases hl
  · intro s s' a hP hok hs hf
    obtain ⟨hf₀, t, l, hl, hrun, hm⟩ := step_moves ptrOps hs hf
    obtain ⟨q, hI, hU, hS⟩ := hP hf₀
    exact hS.moves hI hU hl hrun hok.1 hok.2 hm

end

/-! ## The theorem -/

/-- The memory holds the run lists `q`, and no coroutine is lost or there twice. -/
structure ListsSound (s : PtrState) (q : Seq) : Prop where
  /-- a run list that no operation is under way on is a circular list -/
  ring : ∀ {u l}, s.sched u = some l → (∀ e, ¬s.Edits u e) →
    Ring s.queues (.list u) ((q.list u).map .item)
  /-- the others are circular lists with the writes of one operation made up to where it is -/
  midway : ∀ {u l e}, s.sched u = some l → s.Edits u e → ListAt s.queues u (q.list u) (some e)
  once : Exclusive (own (s.forget q))
  /-- a coroutine is asleep, or somebody keeps it: a run list, the thread that executes it or has
  taken it from a list, or the coroutine that makes or wakes it -/
  kept : ∀ {x w}, s.word x = some w → w.1 ≠ STATE_BLOCKED → Held (own (s.forget q)) x

theorem Stored.sound (hI : Inv preemption (s.forget q)) (hS : Stored s q) : ListsSound s q where
  ring {_ _} hl hedits := hS.lists (o := none) hl hedits
  midway {_ _ e} hl hedits := hS.lists (o := some e) hl hedits
  once := hI.kept.excl
  kept {_ _} hword hne := by
    by_contra hnot
    exact hne (hI.kept.off hword hnot)

section

variable {m : Mem Node} {localSize : Nat} {garbage : Nat → TimerWait} {state errno threadErrno : Int}

/-- **Signals keep the run lists**: no run trips the assertion of `sched_enqueue_locked` or unlinks a
sentinel, and in every state the run lists are circular and every coroutine is accounted for once, if
no signal comes between the statements of an operation on the run list of its thread, nor between the
enqueue and the switch of `sched_resched`. -/
theorem signals_keep_lists
    (h : Reach ptrOps preemption (fun s a => Proper s a ∧ Permitted s a)
      (ptrInit m localSize garbage state errno threadErrno) s) :
    s.failure ≠ some .enqueue ∧ s.failure ≠ some .sentinel ∧
      (s.failure = none → ∃ q, ListsSound s q) := by
  have hfail : s.failure ≠ some .enqueue ∧ s.failure ≠ some .sentinel := by
    cases h with
    | init => exact ⟨nofun, nofun⟩
    | next h hok hs =>
      obtain ⟨q, hI, hU, hS⟩ := h.stored (step_failure ptrOps hs)
      exact hS.step_sound hI hU hs
  refine ⟨hfail.1, hfail.2, fun hf => ?_⟩
  obtain ⟨q, hI, -, hS⟩ := h.stored hf
  exact ⟨q, hS.sound hI⟩

end

/-- A check on actions for `Permitted`. -/
def permits (s : PtrState) : Act → Bool
  | .signal t =>
    (s.edit t).isNone && match s.seat t with
      | .linked _ => false
      | .handing _ _ => false
      | _ => true
  | a => a.leavesAsleep

theorem permits.sound (s : PtrState) (a : Act) (h : permits s a = true) :
    Proper s a ∧ Permitted s a := by
  cases a with
  | tick t i => exact ⟨Act.leavesAsleep.proper s _ h, permitted_tick t i⟩
  | signal t =>
    refine ⟨nofun, ?_⟩
    rintro _ ⟨⟩
    obtain ⟨hedit, hseat⟩ := Bool.and_eq_true_iff.1 h
    refine ⟨fun hy => ?_, Option.isNone_iff_eq_none.1 hedit⟩
    generalize s.seat t = seat at hy hseat
    cases seat with
    | linked => cases hseat
    | handing => cases hseat
    | _ => exact hy

/-- A process with one thread, in a memory of null pointers. -/
def ptrStart : PtrState :=
  ptrInit ⟨fun _ => none, fun _ => none⟩ 1 (fun _ => ⟨⟨0, 0⟩, 0⟩) 0 0 0

/-- The main coroutine makes a coroutine; a signal comes before `sched_schedule` puts that on the run
list, and its handler switches to the event loop. -/
def signalInSchedule : List Act :=
  .tick 0 (.op .newCoroutine) :: List.replicate 3 (.tick 0 .step) ++
    .signal 0 :: List.replicate 14 (.tick 0 .step)

theorem signals_keep_lists_schedule :
    ∃ s, run ptrOps true permits ptrStart signalInSchedule = some s ∧ s.failure = none ∧
      (s.context 0).sig = [.resumed] ∧ ∃ q, ListsSound s q := by
  obtain ⟨s, hr, hf, hsig⟩ :
      ∃ s, run ptrOps true permits ptrStart signalInSchedule = some s ∧ s.failure = none ∧
        (s.context 0).sig = [.resumed] := ⟨_, rfl, rfl, rfl⟩
  exact ⟨s, hr, hf, hsig, (signals_keep_lists (Reach.run hr permits.sound .init)).2.2 hf⟩

/-- The main coroutine makes a coroutine and calls `sched_resched`; a signal comes when it has enqueued
itself. -/
def signalInResched : List Act :=
  let steps (n : Nat) : List Act := List.replicate n (.tick 0 .step)
  .tick 0 (.op .newCoroutine) :: steps 8 ++ .tick 0 (.op .resched) :: steps 7 ++ .signal 0 :: steps 2

/-- The main coroutine makes a coroutine, and then another; a signal comes after the first write of the
`list_insert` for the second. By the time its handler returns the first, after which the node goes, has
run and returned. -/
def signalInInsert : List Act :=
  let steps (n : Nat) : List Act := List.replicate n (.tick 0 .step)
  .tick 0 (.op .newCoroutine) :: steps 8 ++ .tick 0 (.op .newCoroutine) :: steps 5 ++
    .signal 0 :: steps 15 ++ .tick 0 (.epoll (.ready [])) :: steps 16 ++ .tick 0 (.op .ret) :: steps 11

/-- **Signals break the run lists**: one in `sched_resched` trips the assertion of
`sched_enqueue_locked`, and one in `list_insert` leaves a list that is not circular and on which a
coroutine is lost. -/
theorem signals_break_lists :
    (∃ s, Reach ptrOps true Proper ptrStart s ∧ s.failure = some .enqueue) ∧
      ∃ s, Reach ptrOps true Proper ptrStart s ∧ s.failure = none ∧
        (s.context 0).pc = .user ∧ ∀ q, ¬ListsSound s q := by
  obtain ⟨s, hr, hf⟩ :
      ∃ s, run ptrOps true (fun _ => Act.leavesAsleep) ptrStart signalInResched = some s ∧
        s.failure = some .enqueue := ⟨_, rfl, rfl⟩
  refine ⟨⟨s, Reach.run hr Act.leavesAsleep.proper .init, hf⟩, ?_⟩
  clear hf hr s
  obtain ⟨s, l, hr, hf, hl, hctx, hedit, hnext, hnext', hprev, hfills⟩ :
      ∃ s l, run ptrOps true (fun _ => Act.leavesAsleep) ptrStart signalInInsert = some s ∧
        s.failure = none ∧ s.sched 0 = some l ∧ (s.context 0).pc = .user ∧ s.edit 0 = none ∧
        s.queues.next (.list 0) = some (.item 1) ∧ s.queues.next (.item 1) = some (.list 0) ∧
        s.queues.prev (.list 0) = some (.item 3) ∧ ∀ c, (s.context c).pc.fills = none := by
    refine ⟨_, _, rfl, rfl, rfl, rfl, rfl, rfl, rfl, rfl, fun c => ?_⟩
    rcases c with _ | _ | _ | _ | c <;> rfl
  refine ⟨s, Reach.run hr Act.leavesAsleep.proper .init, hf, hctx, fun q hq => ?_⟩
  have hnone : ∀ e, ¬s.Edits 0 e := by
    rintro e (h | @⟨c, h⟩)
    · rw [hedit] at h
      cases h
    · rw [hfills] at h
      cases h
  have hpath := (hq.ring hl hnone).path
  generalize q.list 0 = xs at hpath
  rcases xs with _ | ⟨x, _ | ⟨y, ys⟩⟩
  · rw [hpath.1] at hnext
    cases hnext
  · rw [hpath.1.1] at hnext
    cases hnext
    rw [hpath.2.2] at hprev
    cases hprev
  · rw [hpath.1.1] at hnext
    cases hnext
    rw [hpath.2.1.1] at hnext'
    cases hnext'

end Lwthread.Scheduler
