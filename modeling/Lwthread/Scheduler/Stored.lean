import Lwthread.Scheduler.Edits

/-!
# The memory of the run lists

`Stored` says that the memory holds the run lists of a state over sequences: those that no operation is
under way on are rings, the others rings with some of the pointer writes of an operation made, and every
other node is reset. The nodes of two lists are apart, since no coroutine is kept twice, so that an
operation on one list does not notice those on others (`Stored.turn`).
-/

namespace Lwthread.Scheduler

open Lwthread.Util Rings Custody

/-! ## Operations under way -/

theorem Pc.fills_starts {pc : Pc (PushPc Node) (PopPc Node)} {u : Tid} {e : Edit}
    (h : pc.fills = some (u, e)) : pc.starts = some u := by
  cases pc with
  | newEnqueue x v p =>
    obtain ⟨a, -, heq⟩ := Option.map_eq_some_iff.1 h
    cases heq
    rfl
  | _ => cases h

/-- The operation of the innermost activation. -/
def Context.edit (x : Context (PushPc Node) (PopPc Node)) : Option Edit :=
  match x.sig with
  | r :: _ => r.edit
  | [] => x.pc.edit

/-- No operation under way has been interrupted. -/
def Context.Settled (x : Context (PushPc Node) (PopPc Node)) : Prop :=
  x.sig ≠ [] → x.pc.edit = none ∧ ∀ r ∈ x.sig.tail, r.edit = none

/-- The operation of the thread `t` on its run list. -/
def State.edit (s : PtrState) (t : Tid) : Option Edit :=
  match s.sched t with
  | none => none
  | some l =>
    match l.exec with
    | .on c => (s.context c).edit
    | e => e.edit

/-- An operation on the run list of `u`, of its thread or of a coroutine that is about to start that. -/
inductive State.Edits (s : PtrState) (u : Tid) (e : Edit) : Prop
  | thread (h : s.edit u = some e)
  | maker {c} (h : (s.context c).pc.fills = some (u, e))

/-- The operation on the run list of `u`, if any. -/
def State.EditIs (s : PtrState) (u : Tid) : Option Edit → Prop
  | some e => s.Edits u e
  | none => ∀ e, ¬s.Edits u e

/-! ## The memory -/

/-- The memory of the run list of `u`, which holds `xs` before the operation. -/
def ListAt (m : Mem Node) (u : Tid) (xs : List Cid) : Option Edit → Prop
  | none => Ring m (.list u) (xs.map .item)
  | some (.push x p) => Pushing m (.list u) (xs.map .item) (.item x) p
  | some (.pop p) => ∃ x ys, xs = x :: ys ∧ Popping m (.list u) (.item x) (ys.map .item) p

structure Stored (s : PtrState) (q : Seq) : Prop where
  settled : ∀ c, (s.context c).Settled
  lists : ∀ {u l o}, s.sched u = some l → s.EditIs u o → ListAt s.queues u (q.list u) o
  free : ∀ {x}, x < s.coros → q.linked x = false → (∀ u p, ¬s.Edits u (.push x p)) →
    s.queues.next (.item x) = none ∧ s.queues.prev (.item x) = none

section

variable {m m' : Mem Node} {q q' : Seq} {u : Tid} {xs : List Cid} {e e' : Option Edit} {x y : Cid}

theorem mem_items : (Node.item x : Node) ∈ xs.map .item ↔ x ∈ xs := by
  simp

theorem list_not_mem_items : Node.list u ∉ xs.map .item := by
  simp

/-- The node is one of the list of `u`, or of the coroutine that is put on it. -/
def InRegion (u : Tid) (xs : List Cid) (o : Option Edit) (n : Node) : Prop :=
  n = .list u ∨ n ∈ xs.map .item ∨ ∃ x p, o = some (.push x p) ∧ n = .item x

/-- The links of other nodes do not matter to a list. -/
theorem ListAt.frame {o : Option Edit} (h : ListAt m u xs o)
    (hn : ∀ n, InRegion u xs o n → m'.next n = m.next n ∧ m'.prev n = m.prev n) :
    ListAt m' u xs o := by
  have hring : ∀ n ∈ Node.list u :: xs.map .item, InRegion u xs o n := by
    intro n hmem
    rcases List.mem_cons.1 hmem with rfl | hmem
    · exact .inl rfl
    · exact .inr (.inl hmem)
  match o with
  | none => exact Ring.frame h (fun n hmem => (hn n (hring n hmem)).1) fun n hmem => (hn n (hring n hmem)).2
  | some (.push x p) =>
    have hmem : ∀ n ∈ Node.item x :: Node.list u :: xs.map .item, InRegion u xs (some (.push x p)) n := by
      intro n hmem
      rcases List.mem_cons.1 hmem with rfl | hmem
      · exact .inr (.inr ⟨x, p, rfl, rfl⟩)
      · exact hring n hmem
    exact Pushing.frame h (fun n hin => (hn n (hmem n hin)).1) fun n hin => (hn n (hmem n hin)).2
  | some (.pop p) =>
    obtain ⟨x, ys, rfl, hpop⟩ := h
    exact ⟨x, ys, rfl, hpop.frame (fun n hin => (hn n (hring n hin)).1) fun n hin => (hn n (hring n hin)).2⟩

theorem listAt_push (p : PushPc Node) :
    ListAt m u xs (pushEdit x p) ↔ Pushing m (.list u) (xs.map .item) (.item x) p := by
  cases p <;> exact Iff.rfl

theorem listAt_pop {ys : List Cid} (hxs : xs = x :: ys) (p : PopPc Node) :
    ListAt m u xs (popEdit p) ↔ Popping m (.list u) (.item x) (ys.map .item) p := by
  subst hxs
  have hhead : (∃ x' ys', x :: ys = x' :: ys' ∧ Popping m (.list u) (.item x') (ys'.map .item) p) ↔
      Popping m (.list u) (.item x) (ys.map .item) p := by
    constructor
    · rintro ⟨x', ys', ⟨⟩, h⟩
      exact h
    · exact fun h => ⟨x, ys, rfl, h⟩
  cases p with
  | front => exact Iff.rfl
  | _ => exact hhead

theorem seqOps_push_list (q : Seq) (u : Tid) (x : Cid) :
    (seqOps.push q u x ()).1.list u = q.list u ++ [x] := Function.update_self _ _ _

theorem ptrOps_pop_inl {p p' : PopPc Node} (hq : ptrOps.pop m u p = (m', .inl p')) :
    (popStep m (.list u) p).1 = m' ∧ (popStep m (.list u) p).2 = .inl p' := by
  obtain ⟨hm, hr⟩ := Prod.mk.inj hq
  refine ⟨hm, ?_⟩
  rcases hstep : (popStep m (.list u) p).2 with p₀ | n
  · rw [hstep] at hr
    exact congrArg Sum.inl (Sum.inl.inj hr)
  · rw [hstep] at hr
    cases hr

theorem ptrOps_pop_inr {p : PopPc Node} {o : Option Cid} (hq : ptrOps.pop m u p = (m', .inr o)) :
    ∃ n, (popStep m (.list u) p).1 = m' ∧ (popStep m (.list u) p).2 = .inr n ∧ n.coro = o := by
  obtain ⟨hm, hr⟩ := Prod.mk.inj hq
  rcases hstep : (popStep m (.list u) p).2 with p₀ | n
  · rw [hstep] at hr
    cases hr
  · rw [hstep] at hr
    exact ⟨n, hm, rfl, Sum.inr.inj hr⟩

/-- A statement takes a list to the next point of the operation. -/
theorem Turn.listAt (hT : Turn m q u e m' q' e') (h : ListAt m u (q.list u) e)
    (hx : ∀ x p, e = some (.push x p) → x ∉ q.list u) (hnd : (q.list u).Nodup) :
    ListAt m' u (q'.list u) e' := by
  have hitem : ∀ {x p}, e = pushEdit x p → p ≠ .back →
      Node.item x ∉ Node.list u :: (q.list u).map .item := by
    intro x p he hp hmem
    refine hx x p ?_ (mem_items.1 ((List.mem_cons.1 hmem).resolve_left nofun))
    rw [he]
    cases p with
    | back => exact absurd rfl hp
    | _ => rfl
  have hfirst : ∀ {x ys}, q.list u = x :: ys → Node.item x ∉ Node.list u :: ys.map .item := by
    intro x ys hys hmem
    rw [hys] at hnd
    exact (List.nodup_cons.1 hnd).1 (mem_items.1 ((List.mem_cons.1 hmem).resolve_left nofun))
  cases hT with
  | keep => exact h
  | @push x p m' p' hq =>
    obtain ⟨rfl, hr⟩ := Prod.mk.inj hq
    rw [listAt_push] at h ⊢
    exact (h.step (hitem rfl)).1 p' hr
  | @pushed x p m' hq =>
    obtain ⟨rfl, hr⟩ := Prod.mk.inj hq
    rw [listAt_push] at h
    rw [seqOps_push_list]
    show Ring _ _ _
    rw [List.map_append]
    exact (h.step (hitem rfl)).2 hr
  | @pop p m' p' hq hne =>
    obtain ⟨rfl, hr⟩ := ptrOps_pop_inl hq
    obtain ⟨x, ys, hys⟩ := List.exists_cons_of_ne_nil hne
    rw [listAt_pop hys] at h ⊢
    exact (h.step (hfirst hys)).1 p' hr
  | @popped p m' x ys hq hys =>
    obtain ⟨n, rfl, hr, -⟩ := ptrOps_pop_inr hq
    rw [listAt_pop hys] at h
    have hlist : (seqOps.pop q u ()).1.list u = ys := by
      simp only [seqOps, hys, Function.update_self]
    rw [hlist]
    exact ((h.step (hfirst hys)).2 n hr).2.1

/-- A statement leaves the links of the nodes of other lists. -/
theorem Turn.frame (hT : Turn m q u e m' q' e') (h : ListAt m u (q.list u) e) {n : Node}
    (hn : ¬InRegion u (q.list u) e n) : m'.next n = m.next n ∧ m'.prev n = m.prev n := by
  have hring : n ∉ Node.list u :: (q.list u).map .item := by
    intro hmem
    rcases List.mem_cons.1 hmem with hmem | hmem
    · exact hn (.inl hmem)
    · exact hn (.inr (.inl hmem))
  -- the first statement of an operation only reads
  have hpush : ∀ {x p}, e = pushEdit x p →
      (pushStep m (.list u) (.item x) p).1.next n = m.next n ∧
        (pushStep m (.list u) (.item x) p).1.prev n = m.prev n := by
    rintro x p rfl
    cases p with
    | back => exact ⟨rfl, rfl⟩
    | _ =>
      refine pushStep_frame ((listAt_push _).1 h) fun hmem => ?_
      rcases List.mem_cons.1 hmem with rfl | hmem
      · exact hn (.inr (.inr ⟨x, _, rfl, rfl⟩))
      · exact hring hmem
  cases hT with
  | keep => exact ⟨rfl, rfl⟩
  | push hq =>
    obtain ⟨rfl, -⟩ := Prod.mk.inj hq
    exact hpush rfl
  | pushed hq =>
    obtain ⟨rfl, -⟩ := Prod.mk.inj hq
    exact hpush rfl
  | pop hq hne =>
    obtain ⟨rfl, -⟩ := ptrOps_pop_inl hq
    obtain ⟨x, ys, hys⟩ := List.exists_cons_of_ne_nil hne
    rw [hys] at hring
    exact popStep_frame ((listAt_pop hys _).1 h) hring
  | popped hq hys =>
    obtain ⟨n', rfl, -⟩ := ptrOps_pop_inr hq
    rw [hys] at hring
    exact popStep_frame ((listAt_pop hys _).1 h) hring

end

/-! ## Coroutines that are put on a list -/

/-- Who keeps `x` while it is put on the run list of `u`. -/
inductive Pusher (s : PtrState) (u : Tid) (x : Cid) : Holder → Prop
  | thread (htok : x ∈ (s.seat u).tokens) : Pusher s u x (.thread u)
  | schedule {c l p ret} (hl : s.sched u = some l) (he : l.exec = .on c)
      (hpc : (s.context c).pc = .scheduleEnqueue x p ret) : Pusher s u x (.woken c)
  | maker {c p} (hpc : (s.context c).pc = .newEnqueue x u p) : Pusher s u x (.woken c)

section

variable {preemption : Bool} {s s' : PtrState} {q q' : Seq} {t u v : Tid} {x y c : Cid}
  {p p' : PushPc Node}

theorem State.edit_of_exec {l : LocalSched (PopPc Node)} (hl : s.sched t = some l)
    (he : l.exec = .on c) : s.edit t = (s.context c).edit := by
  simp only [State.edit, hl, he]

theorem Pusher.own {h : Holder} (hp : Pusher s u x h) : x ∈ own (s.forget q) h := by
  cases hp with
  | thread htok =>
    refine Multiset.mem_add.2 (.inl ?_)
    rw [State.forget_seat]
    exact htok
  | @schedule c l p ret hl he hpc =>
    show x ∈ ((s.context c).pc.forget).woken
    rw [hpc]
    exact Multiset.mem_singleton_self x
  | @maker c p hpc =>
    show x ∈ ((s.context c).pc.forget).woken
    rw [hpc]
    exact Multiset.mem_singleton_self x

variable (hI : Inv preemption (s.forget q))

include hI

/-- A point that asserts or pushes a coroutine on the list of its thread keeps it. -/
theorem State.Edits.pusher (h : s.Edits u (.push x p)) : ∃ h, Pusher s u x h := by
  have hpushEdit : ∀ {y p₀}, pushEdit y p₀ = some (.push x p) → y = x := by
    intro y p₀ h
    cases p₀ with
    | back => cases h
    | _ => cases h; rfl
  have henq : ∀ {y} {e : EnqPc (PushPc Node)}, e.edit y = some (.push x p) → y = x := by
    intro y e h
    cases e with
    | assert => cases h
    | push => exact hpushEdit h
  have hnopop : ∀ {p₀}, popEdit p₀ ≠ some (.push x p) := by
    intro p₀
    cases p₀ <;> nofun
  cases h with
  | @maker c h =>
    generalize hpc : (s.context c).pc = pc at h
    cases pc with
    | newEnqueue y v e =>
      obtain ⟨e', he, heq⟩ := Option.map_eq_some_iff.1 h
      cases heq
      cases henq he
      exact ⟨_, .maker hpc⟩
    | _ => cases h
  | thread h =>
    rcases hl : s.sched u with _ | l
    · simp only [State.edit, hl] at h
      cases h
    · rcases he : l.exec with c | _ | p₀ | z
      · have hseat : s.seat u = (s.context c).seat c := by
          simp only [State.seat, hl, he]
        have hresched : ∀ {r : ReschedPc (PushPc Node) (PopPc Node)}, r.Named c →
            s.seat u = r.seat c → r.edit = some (.push x p) → ∃ h, Pusher s u x h := by
          intro r hn hr hedit
          cases r with
          | enqueue d e =>
            cases henq hedit
            cases hn
            refine ⟨_, .thread ?_⟩
            rw [hr]
            exact Multiset.mem_singleton_self _
          | dequeue => exact absurd hedit hnopop
          | _ => cases hedit
        have hnamed := hI.control.named c
        rw [State.edit_of_exec hl he] at h
        unfold Context.edit at h
        rw [Context.seat] at hseat
        rcases hsig : (s.context c).sig with _ | ⟨r, rs⟩
        · simp only [hsig] at h hseat
          generalize hpc : (s.context c).pc = pc at h hseat
          have hn : pc.forget.Named c := by
            rw [← hpc]
            exact hnamed.1
          cases pc with
          | resched r ret =>
            refine hresched ?_ hseat h
            cases r <;> exact hn
          | suspendDequeue => exact absurd h hnopop
          | suspendEnqueue y e ret =>
            cases henq h
            refine ⟨_, .thread ?_⟩
            rw [hseat]
            simp
          | scheduleEnqueue y e ret =>
            cases henq h
            exact ⟨_, .schedule hl he hpc⟩
          | _ => cases h
        · simp only [hsig] at h hseat
          refine hresched ?_ hseat h
          have hn : r.forget.Named c := hnamed.2 _ (List.mem_map.2 ⟨r, by rw [hsig]; simp, rfl⟩)
          cases r <;> exact hn
      · simp only [State.edit, hl, he] at h
        cases h
      · simp only [State.edit, hl, he] at h
        exact absurd h hnopop
      · simp only [State.edit, hl, he] at h
        cases h

/-- It is on no list. -/
theorem Pusher.not_linked {h : Holder} (hp : Pusher s u x h) : q.linked x = false := by
  refine hI.not_linked (hp.own (q := q)) fun v hv => ?_
  cases hp with
  | thread htok =>
    cases hv
    rw [State.forget_seat]
    exact htok
  | schedule => cases hv
  | maker => cases hv

/-- A coroutine is put on one list at a time. -/
theorem Pusher.inj {h h' : Holder} (hp : Pusher s u x h) (hp' : Pusher s v x h') : u = v := by
  obtain rfl := hI.kept.excl.inj (hp.own (q := q)) (hp'.own (q := q))
  cases hp with
  | thread => cases hp' with | thread => rfl
  | schedule hl he hpc =>
    cases hp' with
    | schedule hl' he' _ =>
      exact hI.exec_inj (s.forget_sched q u hl) (.inl (LocalSched.forget_on he))
        (s.forget_sched q v hl') (.inl (LocalSched.forget_on he'))
    | maker hpc' => rw [hpc] at hpc'; cases hpc'
  | maker hpc =>
    cases hp' with
    | schedule _ _ hpc' => rw [hpc] at hpc'; cases hpc'
    | maker hpc' => rw [hpc] at hpc'; cases hpc'; rfl

end

/-! ## One statement -/

section

variable {preemption : Bool} {s s' : PtrState} {q q' : Seq} {u v : Tid} {x : Cid}
  {e e' : Option Edit} {m m' : Mem Node}

theorem State.editIs_iff (h : ∀ a, s.Edits u a ↔ e = some a) {o : Option Edit} :
    s.EditIs u o ↔ o = e := by
  cases o with
  | some a => exact (h a).trans eq_comm
  | none =>
    constructor
    · intro hno
      exact (Option.eq_none_iff_forall_ne_some.2 fun a ha => hno a ((h a).2 ha)).symm
    · rintro rfl a ha
      cases (h a).1 ha

theorem Turn.list_ne (hT : Turn m q u e m' q' e') (hv : v ≠ u) : q'.list v = q.list v := by
  cases hT with
  | pushed => exact Function.update_of_ne hv _ _
  | popped _ hys =>
    simp only [seqOps, hys]
    exact Function.update_of_ne hv _ _
  | _ => rfl

/-- A coroutine whose node is not linked afterwards was not linked before, and is not the one that was
put on the list, or it has been taken off. -/
theorem Turn.unlinked (hT : Turn m q u e m' q' e') (h : ListAt m u (q.list u) e)
    (hnd : (q.list u).Nodup) (hlinked : q'.linked x = false)
    (hno : ∀ p, e' ≠ some (.push x p)) :
    q.linked x = false ∧ (∀ p, e ≠ some (.push x p)) ∨
      m'.next (.item x) = none ∧ m'.prev (.item x) = none := by
  cases hT with
  | keep => exact .inl ⟨hlinked, nofun⟩
  | @push y p m' p' hq =>
    refine .inl ⟨hlinked, fun p₀ he => ?_⟩
    obtain ⟨-, hr⟩ := Prod.mk.inj hq
    cases p with
    | back => cases he
    | nextPrev =>
      cases he
      dsimp only at hr
      split at hr
      · cases hr; exact hno _ rfl
      · cases hr
    | _ =>
      cases he
      cases hr
      exact hno _ rfl
  | @pushed y p m' hq =>
    have hxy : x ≠ y := by
      rintro rfl
      rw [show (seqOps.push q u x ()).1.linked x = true from Function.update_self _ _ _] at hlinked
      cases hlinked
    refine .inl ⟨(Function.update_of_ne hxy _ _).symm.trans hlinked, fun p₀ he => ?_⟩
    cases p with
    | back => cases he
    | _ => cases he; exact hxy rfl
  | @pop p m' p' =>
    refine .inl ⟨hlinked, fun p₀ he => ?_⟩
    cases p <;> cases he
  | @popped p m' y ys hq hys =>
    have hnopush : ∀ p₀, popEdit p ≠ some (.push x p₀) := by
      intro p₀
      cases p <;> nofun
    by_cases hxy : x = y
    · subst hxy
      obtain ⟨n, rfl, hr, -⟩ := ptrOps_pop_inr hq
      rw [listAt_pop hys] at h
      have hfirst : Node.item x ∉ Node.list u :: ys.map .item := by
        intro hmem
        rw [hys] at hnd
        exact (List.nodup_cons.1 hnd).1 (mem_items.1 ((List.mem_cons.1 hmem).resolve_left nofun))
      exact .inr ((h.step hfirst).2 n hr).2.2
    · refine .inl ⟨?_, hnopush⟩
      simp only [seqOps, hys] at hlinked
      exact (Function.update_of_ne hxy _ _).symm.trans hlinked

variable (hI : Inv preemption (s.forget q))

include hI

theorem Inv.linked_of_mem (hx : x ∈ q.list u) : q.linked x = true := (hI.kept.nodes x).2 ⟨u, hx⟩

/-- The nodes of two lists are apart. -/
theorem Inv.regions_apart {o : Option Edit} {n : Node} (hv : v ≠ u) (hu : s.EditIs u e)
    (ho : s.EditIs v o) (hn : InRegion v (q.list v) o n) : ¬InRegion u (q.list u) e n := by
  have hoff : ∀ {w w' y p}, s.Edits w (.push y p) → y ∉ q.list w' := by
    intro w w' y p hy hmem
    obtain ⟨h, hp⟩ := hy.pusher hI
    have := hp.not_linked hI
    rw [hI.linked_of_mem hmem] at this
    cases this
  rcases hn with rfl | hn | ⟨y, p, rfl, rfl⟩
  · rintro (heq | hmem | ⟨x, p, -, heq⟩)
    · exact hv (Node.list.inj heq)
    · exact list_not_mem_items hmem
    · cases heq
  · obtain ⟨y, hy, rfl⟩ := List.mem_map.1 hn
    rintro (heq | hmem | ⟨x, p, rfl, heq⟩)
    · cases heq
    · exact hv (hI.list_inj hy (mem_items.1 hmem))
    · cases heq
      exact hoff hu hy
  · rintro (heq | hmem | ⟨x, p', rfl, heq⟩)
    · cases heq
    · exact hoff ho (mem_items.1 hmem)
    · cases heq
      obtain ⟨h, hp⟩ := State.Edits.pusher hI ho
      obtain ⟨h', hp'⟩ := State.Edits.pusher hI hu
      exact hv (hp.inj hI hp')

/-- **A statement of an operation on the list of `u`** leaves the memory as the sequences say. -/
theorem Stored.turn (hS : Stored s q) {lu : LocalSched (PopPc Node)} (hlu : s.sched u = some lu)
    (hT : Turn s.queues q u e s'.queues q' e') (hbefore : ∀ a, s.Edits u a ↔ e = some a)
    (hafter : ∀ a, s'.Edits u a ↔ e' = some a)
    (hother : ∀ v a, v ≠ u → (s'.Edits v a ↔ s.Edits v a))
    (hthreads : ∀ {v l}, s'.sched v = some l → ∃ l', s.sched v = some l')
    (hcoros : s'.coros = s.coros) (hset : ∀ c, (s'.context c).Settled) : Stored s' q' := by
  have hu : s.EditIs u e := (State.editIs_iff hbefore).2 rfl
  have hlist := hS.lists hlu hu
  have hpush : ∀ {y p}, s.Edits u (.push y p) → y ∉ q.list u := by
    intro y p hy hmem
    obtain ⟨h, hp⟩ := hy.pusher hI
    have := hp.not_linked hI
    rw [hI.linked_of_mem hmem] at this
    cases this
  have hnd : (q.list u).Nodup := hI.list_nodup u
  refine ⟨hset, fun {v l o} hl ho => ?_, fun {x} hx hlinked hno => ?_⟩
  · by_cases hv : v = u
    · subst hv
      obtain rfl := (State.editIs_iff hafter).1 ho
      refine hT.listAt hlist (fun y p he => hpush (p := p) ?_) hnd
      exact (hbefore _).2 he
    · have ho' : s.EditIs v o := by
        cases o with
        | some a => exact (hother v a hv).1 ho
        | none => exact fun a ha => ho a ((hother v a hv).2 ha)
      obtain ⟨l', hl'⟩ := hthreads hl
      rw [hT.list_ne hv]
      exact (hS.lists hl' ho').frame fun n hn => hT.frame hlist (hI.regions_apart hv hu ho' hn)
  · rcases hT.unlinked hlist hnd hlinked fun p hp => hno u p ((hafter _).2 hp) with ⟨hold, hne⟩ | h
    · have hfree := hS.free (hcoros ▸ hx) hold fun v p hv => by
        by_cases hvu : v = u
        · subst hvu
          exact hne p ((hbefore _).1 hv)
        · exact hno v p ((hother v _ hvu).2 hv)
      have hout : ¬InRegion u (q.list u) e (.item x) := by
        rintro (heq | hmem | ⟨y, p, he, heq⟩)
        · cases heq
        · rw [hI.linked_of_mem (mem_items.1 hmem)] at hold
          cases hold
        · cases heq
          exact hne p he
      rw [(hT.frame hlist hout).1, (hT.frame hlist hout).2]
      exact hfree
    · exact h

theorem State.Edits.sched {a : Edit} (h : s.Edits u a) : ∃ l, s.sched u = some l := by
  rcases hl : s.sched u with _ | l
  · cases h with
    | thread h =>
      simp only [State.edit, hl] at h
      cases h
    | @maker c h =>
      obtain ⟨l, -, hl', -⟩ := hI.control.starts ((Pc.forget_starts _).trans (Pc.fills_starts h))
      simp only [State.forget, hl, Option.map_none] at hl'
      cases hl'
  · exact ⟨l, rfl⟩

theorem Inv.lt_coros {h : Holder} (hx : x ∈ own (s.forget q) h) : x < s.coros :=
  hI.kept.known (.inr (hI.kept.live ⟨h, hx⟩))

/-- The nodes of a list are not those that are made next. -/
theorem Inv.region_old {o : Option Edit} {n : Node} (ho : s.EditIs u o)
    (hn : InRegion u (q.list u) o n) (hu : u ≠ s.locals) :
    n ≠ .item s.coros ∧ n ≠ .list s.locals := by
  rcases hn with rfl | hn | ⟨y, p, rfl, rfl⟩
  · exact ⟨nofun, fun heq => hu (Node.list.inj heq)⟩
  · obtain ⟨y, hy, rfl⟩ := List.mem_map.1 hn
    refine ⟨?_, nofun⟩
    rintro ⟨⟩
    have hown : s.coros ∈ own (s.forget q) (.thread u) := Multiset.mem_add.2 (.inr hy)
    exact lt_irrefl _ (hI.lt_coros hown)
  · obtain ⟨h, hp⟩ := State.Edits.pusher hI ho
    refine ⟨?_, nofun⟩
    rintro ⟨⟩
    exact lt_irrefl _ (hI.lt_coros (hp.own (q := q)))

/-- A coroutine is made, and perhaps a scheduler. -/
theorem Stored.birth (hS : Stored s q)
    (hframe : ∀ n, n ≠ .item s.coros → n ≠ .list s.locals →
      s'.queues.next n = s.queues.next n ∧ s'.queues.prev n = s.queues.prev n)
    (hnode : s'.queues.next (.item s.coros) = none ∧ s'.queues.prev (.item s.coros) = none)
    (hlist : ∀ v, v ≠ s.locals → q'.list v = q.list v)
    (hlinked : ∀ x, x ≠ s.coros → q'.linked x = q.linked x)
    (hedits : ∀ v a, s'.Edits v a ↔ s.Edits v a)
    (hthreads : ∀ {v l}, s'.sched v = some l →
      (∃ l', s.sched v = some l') ∨ v = s.locals ∧ ListAt s'.queues v (q'.list v) none)
    (hcoros : s'.coros = s.coros + 1) (hset : ∀ c, (s'.context c).Settled) : Stored s' q' := by
  have hold : ∀ {v l}, s.sched v = some l → v ≠ s.locals := by
    rintro v l hl rfl
    have hvacant := (hI.control.vacant (t := s.locals) le_rfl).1
    simp only [State.forget, hl, Option.map_some] at hvacant
    cases hvacant
  have hiff : ∀ {v o}, s'.EditIs v o ↔ s.EditIs v o := by
    intro v o
    cases o with
    | some a => exact hedits v a
    | none => exact forall_congr' fun a => not_congr (hedits v a)
  refine ⟨hset, fun {v l o} hl ho => ?_, fun {x} hx hl hno => ?_⟩
  · rcases hthreads hl with ⟨l', hl'⟩ | ⟨rfl, hnew⟩
    · have ho' := hiff.1 ho
      rw [hlist v (hold hl')]
      refine (hS.lists hl' ho').frame fun n hn => ?_
      obtain ⟨h1, h2⟩ := hI.region_old ho' hn (hold hl')
      exact hframe n h1 h2
    · cases o with
      | none => exact hnew
      | some a =>
        obtain ⟨l', hl'⟩ := State.Edits.sched hI (hiff.1 ho)
        exact absurd rfl (hold hl')
  · by_cases hnew : x = s.coros
    · subst hnew
      exact hnode
    · obtain ⟨h1, h2⟩ := hframe (.item x) (fun heq => hnew (Node.item.inj heq)) (by rintro ⟨⟩)
      rw [h1, h2]
      refine hS.free ?_ ((hlinked x hnew).symm.trans hl) fun v p hv => hno v p ((hedits v _).2 hv)
      rw [hcoros] at hx
      exact lt_of_le_of_ne (Nat.lt_succ_iff.1 hx) hnew

end

end Lwthread.Scheduler
