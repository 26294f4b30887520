import Mathlib.Data.List.Nodup
import Mathlib.Logic.Function.Basic

/-!
# Doubly linked rings

Every node of a memory has two links, each to a node or to none. A path runs from one node to another
through a list of nodes, its links agreeing in both directions (`Path`), and a ring is a path from a
node back to itself (`Ring`). A ring depends on the links of its own nodes only (`Ring.frame`), takes a
new node after any of its nodes (`Ring.splice`) and loses any node but its head (`Ring.unlink`).
-/

namespace Rings

variable {ν : Type*}

/-- The two links of every node. -/
structure Mem (ν : Type*) where
  next : ν → Option ν
  prev : ν → Option ν

variable {m m' : Mem ν} {a b c h n p x : ν} {xs ys zs : List ν}

/-- `b` follows `a`, in both directions. -/
def Link (m : Mem ν) (a b : ν) : Prop := m.next a = some b ∧ m.prev b = some a

/-- From `a` through `xs` to `b`. -/
def Path (m : Mem ν) : ν → List ν → ν → Prop
  | a, [], b => Link m a b
  | a, x :: xs, b => Link m a x ∧ Path m x xs b

namespace Path

/-- A path reads the links forward of all its nodes but the last, and those backward of all but the
first. -/
theorem frame (hp : Path m a xs b) (hn : ∀ y ∈ a :: xs, m'.next y = m.next y)
    (hb : ∀ y ∈ xs ++ [b], m'.prev y = m.prev y) : Path m' a xs b := by
  induction xs generalizing a with
  | nil =>
    obtain ⟨h1, h2⟩ := hp
    exact ⟨(hn a List.mem_cons_self).trans h1, (hb b List.mem_cons_self).trans h2⟩
  | cons x xs ih =>
    obtain ⟨⟨h1, h2⟩, hrest⟩ := hp
    refine ⟨⟨(hn a List.mem_cons_self).trans h1, (hb x List.mem_cons_self).trans h2⟩, ih hrest ?_ ?_⟩
    · exact fun y hy => hn y (List.mem_cons_of_mem a hy)
    · exact fun y hy => hb y (List.mem_cons_of_mem x hy)

theorem append_iff : Path m a (ys ++ c :: zs) b ↔ Path m a ys c ∧ Path m c zs b := by
  induction ys generalizing a with
  | nil => exact Iff.rfl
  | cons y ys ih =>
    constructor
    · rintro ⟨hl, hrest⟩
      exact ⟨⟨hl, (ih.1 hrest).1⟩, (ih.1 hrest).2⟩
    · rintro ⟨⟨hl, hleft⟩, hright⟩
      exact ⟨hl, ih.2 ⟨hleft, hright⟩⟩

theorem next_mem (hp : Path m a xs b) : ∃ n ∈ xs ++ [b], m.next a = some n := by
  cases xs with
  | nil => exact ⟨b, List.mem_cons_self, hp.1⟩
  | cons x xs => exact ⟨x, List.mem_cons_self, hp.1.1⟩

theorem prev_mem (hp : Path m a xs b) : ∃ p ∈ a :: xs, m.prev b = some p := by
  induction xs generalizing a with
  | nil => exact ⟨a, List.mem_cons_self, hp.2⟩
  | cons x xs ih =>
    obtain ⟨p, hmem, hprev⟩ := ih hp.2
    exact ⟨p, List.mem_cons_of_mem a hmem, hprev⟩

/-- Read backward, a path is the path through the reversed nodes. -/
theorem reverse (hp : Path m a xs b) : Path ⟨m.prev, m.next⟩ b xs.reverse a := by
  induction xs generalizing a with
  | nil => exact ⟨hp.2, hp.1⟩
  | cons x xs ih =>
    rw [List.reverse_cons]
    exact append_iff.2 ⟨ih hp.2, hp.1.2, hp.1.1⟩

/-- The first node of a path may be replaced by another, `p`. -/
theorem replace_first (hp : Path m c zs b) (hnext : m.next c = some n)
    (hlink : Link m' p n) (hn : ∀ y ∈ zs, m'.next y = m.next y)
    (hb : ∀ y ∈ zs ++ [b], y ≠ n → m'.prev y = m.prev y) (hnd : zs.Nodup) (hbz : b ∉ zs) :
    Path m' p zs b := by
  cases zs with
  | nil =>
    have hnb : b = n := Option.some.inj (hp.1.symm.trans hnext)
    subst hnb
    exact hlink
  | cons z zs =>
    have hzn : z = n := Option.some.inj (hp.1.1.symm.trans hnext)
    subst hzn
    refine ⟨hlink, hp.2.frame hn fun y hy => hb y (List.mem_cons_of_mem z hy) ?_⟩
    rcases List.mem_append.1 hy with hy | hy
    · exact ne_of_mem_of_not_mem hy (List.nodup_cons.1 hnd).1
    · rw [List.mem_singleton.1 hy]
      exact fun hbz' => hbz (hbz' ▸ List.mem_cons_self)

/-- What follows the last node before `c` may be replaced by another path. -/
theorem replace_rest (hp : Path m a ys c) (hprev : m.prev c = some p) (hnd : (a :: ys).Nodup)
    (hrest : Path m' p zs b) (hn : ∀ y ∈ a :: ys, y ≠ p → m'.next y = m.next y)
    (hb : ∀ y ∈ ys, m'.prev y = m.prev y) : Path m' a (ys ++ zs) b := by
  induction ys generalizing a with
  | nil =>
    have hap : a = p := Option.some.inj (hp.2.symm.trans hprev)
    subst hap
    exact hrest
  | cons y ys ih =>
    obtain ⟨hl, hp⟩ := hp
    have hne : a ≠ p := by
      obtain ⟨q, hq, hcq⟩ := hp.prev_mem
      rw [Option.some.inj (hprev.symm.trans hcq)]
      exact (ne_of_mem_of_not_mem hq (List.nodup_cons.1 hnd).1).symm
    refine ⟨⟨?_, ?_⟩, ih hp (List.nodup_cons.1 hnd).2 ?_ ?_⟩
    · rw [hn a List.mem_cons_self hne]
      exact hl.1
    · rw [hb y List.mem_cons_self]
      exact hl.2
    · exact fun z hz => hn z (List.mem_cons_of_mem a hz)
    · exact fun z hz => hb z (List.mem_cons_of_mem y hz)

end Path

/-! ## Rings -/

/-- The nodes `xs` in a ring with the head `h`. -/
structure Ring (m : Mem ν) (h : ν) (xs : List ν) : Prop where
  path : Path m h xs h
  nodup : (h :: xs).Nodup

/-- Insert `x` after `a`. -/
def insertAfter [DecidableEq ν] (a x : ν) : List ν → List ν
  | [] => []
  | y :: ys => if y = a then y :: x :: ys else y :: insertAfter a x ys

section

variable [DecidableEq ν]

theorem insertAfter_of_notMem (ha : a ∉ xs) : insertAfter a x xs = xs := by
  induction xs with
  | nil => rfl
  | cons y ys ih =>
    rw [List.mem_cons, not_or] at ha
    rw [insertAfter, if_neg (Ne.symm ha.1), ih ha.2]

theorem insertAfter_append (ha : a ∉ ys) : insertAfter a x (ys ++ a :: zs) = ys ++ a :: x :: zs := by
  induction ys with
  | nil => rw [List.nil_append, insertAfter, if_pos rfl, List.nil_append]
  | cons y ys ih =>
    rw [List.mem_cons, not_or] at ha
    rw [List.cons_append, insertAfter, if_neg (Ne.symm ha.1), ih ha.2, List.cons_append]

/-- The links after `x` has been put between `a` and `n`. -/
def Mem.splice (m : Mem ν) (a x n : ν) : Mem ν where
  next := Function.update (Function.update m.next x (some n)) a (some x)
  prev := Function.update (Function.update m.prev x (some a)) n (some x)

/-- The links after `c` has been taken out between `p` and `n`. -/
def Mem.unlink (m : Mem ν) (p c n : ν) : Mem ν where
  next := Function.update (Function.update m.next p (some n)) c none
  prev := Function.update (Function.update m.prev n (some p)) c none

theorem Mem.splice_next (ha : b ≠ a) (hx : b ≠ x) : (m.splice a x n).next b = m.next b := by
  exact (Function.update_of_ne ha _ _).trans (Function.update_of_ne hx _ _)

theorem Mem.splice_prev (hx : b ≠ x) (hn : b ≠ n) : (m.splice a x n).prev b = m.prev b := by
  exact (Function.update_of_ne hn _ _).trans (Function.update_of_ne hx _ _)

theorem Mem.unlink_next (hp : b ≠ p) (hc : b ≠ c) : (m.unlink p c n).next b = m.next b := by
  exact (Function.update_of_ne hc _ _).trans (Function.update_of_ne hp _ _)

theorem Mem.unlink_prev (hn : b ≠ n) (hc : b ≠ c) : (m.unlink p c n).prev b = m.prev b := by
  exact (Function.update_of_ne hc _ _).trans (Function.update_of_ne hn _ _)

end

namespace Ring

theorem frame (hr : Ring m h xs) (hn : ∀ y ∈ h :: xs, m'.next y = m.next y)
    (hb : ∀ y ∈ h :: xs, m'.prev y = m.prev y) : Ring m' h xs := by
  refine ⟨hr.path.frame hn fun y hy => hb y ?_, hr.nodup⟩
  rcases List.mem_append.1 hy with hy | hy
  · exact List.mem_cons_of_mem h hy
  · rw [List.mem_singleton.1 hy]
    exact List.mem_cons_self

theorem mem_of_rest (hy : b ∈ xs ++ [h]) : b ∈ h :: xs := by
  rcases List.mem_append.1 hy with hy | hy
  · exact List.mem_cons_of_mem h hy
  · rw [List.mem_singleton.1 hy]
    exact List.mem_cons_self

/-- Both links of every node of a ring are set, to nodes of the ring. -/
theorem links (hr : Ring m h xs) (ha : a ∈ h :: xs) :
    ∃ n p, m.next a = some n ∧ m.prev a = some p ∧ n ∈ h :: xs ∧ p ∈ h :: xs := by
  rcases List.mem_cons.1 ha with rfl | ha
  · obtain ⟨n, hn, hnext⟩ := hr.path.next_mem
    obtain ⟨p, hp, hprev⟩ := hr.path.prev_mem
    exact ⟨n, p, hnext, hprev, mem_of_rest hn, hp⟩
  · obtain ⟨ys, zs, rfl⟩ := List.append_of_mem ha
    obtain ⟨hleft, hright⟩ := Path.append_iff.1 hr.path
    obtain ⟨n, hn, hnext⟩ := hright.next_mem
    obtain ⟨p, hp, hprev⟩ := hleft.prev_mem
    refine ⟨n, p, hnext, hprev, ?_, ?_⟩
    · have := mem_of_rest hn
      grind
    · grind

variable [DecidableEq ν]

/-- A new node goes in right after the head. -/
theorem splice_path (hp : Path m a xs b) (hnext : m.next a = some n) (hnd : (a :: xs).Nodup)
    (hb : b ∉ xs) (hx : x ∉ a :: xs) (hxb : x ≠ b) : Path (m.splice a x n) a (x :: xs) b := by
  obtain ⟨hxa, hxs⟩ := not_or.1 (List.mem_cons.not.1 hx)
  have hxn : x ≠ n := by
    obtain ⟨q, hq, hq'⟩ := hp.next_mem
    rw [Option.some.inj (hnext.symm.trans hq')]
    rintro rfl
    rcases List.mem_append.1 hq with hq | hq
    · exact hxs hq
    · exact hxb (List.mem_singleton.1 hq)
  refine ⟨⟨Function.update_self _ _ _, ?_⟩, hp.replace_first hnext ⟨?_, ?_⟩ ?_ ?_ ?_ hb⟩
  · exact (Function.update_of_ne hxn _ _).trans (Function.update_self _ _ _)
  · exact (Function.update_of_ne hxa _ _).trans (Function.update_self _ _ _)
  · exact Function.update_self _ _ _
  · intro y hy
    exact Mem.splice_next (ne_of_mem_of_not_mem hy (List.nodup_cons.1 hnd).1)
      (ne_of_mem_of_not_mem hy hxs)
  · intro y hy hyn
    refine Mem.splice_prev ?_ hyn
    rcases List.mem_append.1 hy with hy | hy
    · exact ne_of_mem_of_not_mem hy hxs
    · rw [List.mem_singleton.1 hy]
      exact hxb.symm
  · exact (List.nodup_cons.1 hnd).2

/-- **Insertion.** A node outside the ring is put after any node of the ring. -/
theorem splice (hr : Ring m h xs) (ha : a ∈ h :: xs) (hnext : m.next a = some n)
    (hx : x ∉ h :: xs) :
    Ring (m.splice a x n) h (if a = h then x :: xs else insertAfter a x xs) := by
  have hnd := hr.nodup
  have hh : h ∉ xs := (List.nodup_cons.1 hnd).1
  have hxh : x ≠ h := fun heq => hx (heq ▸ List.mem_cons_self)
  by_cases hah : a = h
  · subst hah
    rw [if_pos rfl]
    refine ⟨splice_path hr.path hnext hnd hh hx hxh, ?_⟩
    grind
  · rw [if_neg hah]
    have ha' : a ∈ xs := (List.mem_cons.1 ha).resolve_left hah
    obtain ⟨ys, zs, rfl⟩ := List.append_of_mem ha'
    have hay : a ∉ ys := by grind
    rw [insertAfter_append hay]
    obtain ⟨hleft, hright⟩ := Path.append_iff.1 hr.path
    refine ⟨Path.append_iff.2 ⟨?_, ?_⟩, ?_⟩
    · -- the nodes up to `a` keep their links, but for the link forward of `a`
      refine hleft.frame (fun y hy => Mem.splice_next ?_ ?_) fun y hy => Mem.splice_prev ?_ ?_
      · grind
      · grind
      · grind
      · obtain ⟨q, hq, hq'⟩ := hright.next_mem
        rw [Option.some.inj (hnext.symm.trans hq')]
        grind
    · refine splice_path hright hnext ?_ ?_ ?_ hxh
      · grind
      · grind
      · grind
    · grind

/-- The node before the head is the last one. What goes in after it goes to the end. -/
theorem last (hr : Ring m h xs) (x : ν) :
    ∃ p, m.prev h = some p ∧ m.next p = some h ∧ p ∈ h :: xs ∧
      (if p = h then x :: xs else insertAfter p x xs) = xs ++ [x] := by
  rcases List.eq_nil_or_concat xs with rfl | ⟨ys, q, rfl⟩
  · exact ⟨h, hr.path.2, hr.path.1, List.mem_cons_self, if_pos rfl⟩
  · have hnd := hr.nodup
    rw [List.concat_eq_append] at hr hnd ⊢
    have hq : q ≠ h := by grind
    have hlink : Link m q h := (Path.append_iff.1 hr.path).2
    refine ⟨q, hlink.2, hlink.1, by simp, ?_⟩
    rw [if_neg hq, insertAfter_append (by grind), List.append_assoc]
    rfl

/-- **Removal.** Any node but the head is taken out of the ring. -/
theorem unlink (hr : Ring m h xs) (hc : c ∈ xs) (hprev : m.prev c = some p)
    (hnext : m.next c = some n) : Ring (m.unlink p c n) h (xs.erase c) := by
  have hnd := hr.nodup
  obtain ⟨ys, zs, rfl⟩ := List.append_of_mem hc
  have hcy : c ∉ ys := by grind
  rw [List.erase_append_right _ hcy, List.erase_cons_head]
  obtain ⟨hleft, hright⟩ := Path.append_iff.1 hr.path
  have hp : p ∈ h :: ys := by
    obtain ⟨q, hq, hq'⟩ := hleft.prev_mem
    rwa [Option.some.inj (hprev.symm.trans hq')]
  have hn : n ∈ zs ++ [h] := by
    obtain ⟨q, hq, hq'⟩ := hright.next_mem
    rwa [Option.some.inj (hnext.symm.trans hq')]
  have hpc : p ≠ c := by grind
  have hnc : n ≠ c := by grind
  have hrest : Path (m.unlink p c n) p zs h := by
    refine hright.replace_first hnext ⟨?_, ?_⟩ (fun y hy => Mem.unlink_next ?_ ?_)
      (fun y hy hyn => Mem.unlink_prev hyn ?_) ?_ ?_
    · exact (Function.update_of_ne hpc _ _).trans (Function.update_self _ _ _)
    · exact (Function.update_of_ne hnc _ _).trans (Function.update_self _ _ _)
    · grind
    · grind
    · grind
    · grind
    · grind
  refine ⟨hleft.replace_rest hprev ?_ hrest (fun y hy hyp => Mem.unlink_next hyp ?_)
    (fun y hy => Mem.unlink_prev ?_ ?_), ?_⟩
  · grind
  · grind
  · grind
  · grind
  · grind

end Ring

end Rings
