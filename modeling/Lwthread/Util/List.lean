import Lwthread.Lib.Rings
import Mathlib.Data.Set.Basic

/-!
# The lists of `util/list.h`

A list is a ring of `struct list_node`s with a sentinel, which is what its functions are given. The
functions below make the pointer writes of the source, one by one; they have no result where the
source dereferences a null pointer or, in a build with `DEBUG`, fails an assertion.

A view says which nodes are sentinels and what stands on their lists (`View`). The functions refine the
operations on sequences that a view makes of them (`list_calls_refine`): calls that insert free nodes,
remove listed ones and pop from lists that are not empty have a result, and after each of them the
traversals and tests of the source answer what the view says.
-/

namespace Lwthread.Util

open Rings

variable {ν : Type} [DecidableEq ν]

/-! ## The functions -/

/-- `node->next = p`. -/
def setNext (m : Mem ν) (node : ν) (p : Option ν) : Mem ν :=
  { m with next := Function.update m.next node p }

/-- `node->prev = p`. -/
def setPrev (m : Mem ν) (node : ν) (p : Option ν) : Mem ν :=
  { m with prev := Function.update m.prev node p }

/-- An `assert` under `#ifdef DEBUG`. -/
def debugAssert (debug condition : Bool) : Option Unit :=
  if debug && !condition then none else some ()

/-- `node->next != NULL && node->prev != NULL`. -/
def bothLinks (m : Mem ν) (node : ν) : Bool := (m.next node).isSome && (m.prev node).isSome

/-- `list_init`. -/
def listInit (m : Mem ν) (list : ν) : Mem ν :=
  setPrev (setNext m list (some list)) list (some list)

/-- `list_node_init`. -/
def listNodeInit (m : Mem ν) (node : ν) : Mem ν := setPrev (setNext m node none) node none

/-- `list_empty`. -/
def listEmpty (debug : Bool) (m : Mem ν) (list : ν) : Option Bool := do
  debugAssert debug (bothLinks m list)
  return m.next list == some list

/-- `list_in_list`. -/
def listInList (m : Mem ν) (node : ν) : Bool := (m.next node).isSome || (m.prev node).isSome

/-- `list_back`. -/
def listBack (debug : Bool) (m : Mem ν) (list : ν) : Option ν := do
  debugAssert debug (bothLinks m list)
  m.prev list

/-- `list_insert`. -/
def listInsert (debug : Bool) (m : Mem ν) (after item : ν) : Option (Mem ν) := do
  debugAssert debug (bothLinks m after)
  debugAssert debug (after != item)
  let m := setNext m item (m.next after)
  let m := setPrev m item (some after)
  let m := setNext m after (some item)
  let next ← m.next item
  return setPrev m next (some item)

/-- `list_remove`. -/
def listRemove (debug : Bool) (m : Mem ν) (item : ν) : Option (Mem ν) := do
  debugAssert debug (bothLinks m item)
  let prev ← m.prev item
  let m := setNext m prev (m.next item)
  let next ← m.next item
  let m := setPrev m next (m.prev item)
  let m := setPrev m item none
  return setNext m item none

/-- `list_push_front`. -/
def listPushFront (debug : Bool) (m : Mem ν) (list entry : ν) : Option (Mem ν) :=
  listInsert debug m list entry

/-- `list_push_back`. -/
def listPushBack (debug : Bool) (m : Mem ν) (list entry : ν) : Option (Mem ν) := do
  listInsert debug m (← listBack debug m list) entry

/-- `list_pop_front`. -/
def listPopFront (debug : Bool) (m : Mem ν) (list : ν) : Option (ν × Mem ν) := do
  debugAssert debug !(← listEmpty debug m list)
  let front ← m.next list
  return (front, ← listRemove debug m front)

/-- `list_pop_back`. -/
def listPopBack (debug : Bool) (m : Mem ν) (list : ν) : Option (ν × Mem ν) := do
  debugAssert debug !(← listEmpty debug m list)
  let back ← m.prev list
  return (back, ← listRemove debug m back)

/-- The nodes from `node` up to `list`, following `link`, for at most `fuel` nodes. -/
def walk (link : ν → Option ν) (list : ν) : Nat → ν → Option (List ν)
  | 0, _ => none
  | fuel + 1, node =>
    if node = list then some []
    else do
      let rest ← walk link list fuel (← link node)
      return node :: rest

/-- The nodes that `LIST_FOR_EACH` visits. -/
def listForward (m : Mem ν) (list : ν) (fuel : Nat) : Option (List ν) := do
  walk m.next list fuel (← m.next list)

/-- The nodes in the order of the links backward. -/
def listBackward (m : Mem ν) (list : ν) (fuel : Nat) : Option (List ν) := do
  walk m.prev list fuel (← m.prev list)

/-- A call of one of the functions that change a list. -/
inductive ListCall (ν : Type) where
  | init (list : ν)
  | nodeInit (node : ν)
  | pushFront (list entry : ν)
  | pushBack (list entry : ν)
  | insert (after item : ν)
  | remove (item : ν)
  | popFront (list : ν)
  | popBack (list : ν)

/-- Perform one call: the node it returns, if any, and the memory after it. -/
def listCall (debug : Bool) (m : Mem ν) : ListCall ν → Option (Option ν × Mem ν)
  | .init list => some (none, listInit m list)
  | .nodeInit node => some (none, listNodeInit m node)
  | .pushFront list entry => (listPushFront debug m list entry).map (none, ·)
  | .pushBack list entry => (listPushBack debug m list entry).map (none, ·)
  | .insert after item => (listInsert debug m after item).map (none, ·)
  | .remove item => (listRemove debug m item).map (none, ·)
  | .popFront list => (listPopFront debug m list).map fun r => (some r.1, r.2)
  | .popBack list => (listPopBack debug m list).map fun r => (some r.1, r.2)

/-! ## The sequences -/

/-- What the lists hold: the sequence of every sentinel, and the nodes that have not been initialised
nor on a list. -/
structure View (ν : Type) where
  seq : ν → Option (List ν)
  raw : Set ν

namespace View

/-- The node is on some list. -/
def On (v : View ν) (n : ν) : Prop := ∃ list xs, v.seq list = some xs ∧ n ∈ xs

/-- The node is no sentinel and on no list. -/
def Free (v : View ν) (n : ν) : Prop := v.seq n = none ∧ ¬v.On n

/-- No node is on two lists, no sentinel is on a list, and a node on a list is not raw. -/
structure Wf (v : View ν) : Prop where
  sentinel : ∀ {list list' xs xs'}, v.seq list = some xs → v.seq list' = some xs' → list' ∉ xs
  apart : ∀ {list list' xs xs' n}, v.seq list = some xs → v.seq list' = some xs' → n ∈ xs →
    n ∈ xs' → list = list'
  known : ∀ {n}, v.On n → n ∉ v.raw

/-- The operations on sequences: the node returned, if any, and the view after it. -/
def call (v : View ν) : ListCall ν → Option ν × View ν
  | .init list => (none, { v with seq := Function.update v.seq list (some []) })
  | .nodeInit node => (none, { v with raw := v.raw \ {node} })
  | .pushFront list entry =>
    (none, ⟨Function.update v.seq list ((v.seq list).map (entry :: ·)), v.raw \ {entry}⟩)
  | .pushBack list entry =>
    (none, ⟨Function.update v.seq list ((v.seq list).map (· ++ [entry])), v.raw \ {entry}⟩)
  | .insert after item =>
    (none, ⟨fun list => (v.seq list).map fun xs =>
      if after = list then item :: xs else insertAfter after item xs, v.raw \ {item}⟩)
  | .remove item => (none, { v with seq := fun list => (v.seq list).map (·.erase item) })
  | .popFront list => ((v.seq list).bind (·.head?),
      { v with seq := Function.update v.seq list ((v.seq list).map (·.tail)) })
  | .popBack list => ((v.seq list).bind (·.getLast?),
      { v with seq := Function.update v.seq list ((v.seq list).map (·.dropLast)) })

/-- What a caller owes: lists are given by their sentinels, only free nodes are initialised or
inserted, after a sentinel or a listed node, only listed nodes removed, and no empty list popped. -/
def Allows (v : View ν) : ListCall ν → Prop
  | .init list => v.Free list
  | .nodeInit node => v.Free node
  | .pushFront list entry => (v.seq list).isSome ∧ v.Free entry
  | .pushBack list entry => (v.seq list).isSome ∧ v.Free entry
  | .insert after item => ((v.seq after).isSome ∨ v.On after) ∧ v.Free item
  | .remove item => v.On item
  | .popFront list => ∃ xs, v.seq list = some xs ∧ xs ≠ []
  | .popBack list => ∃ xs, v.seq list = some xs ∧ xs ≠ []

end View

/-- The node by which a call finds the list that it changes. -/
def ListCall.place : ListCall ν → ν
  | .init list => list
  | .nodeInit node => node
  | .pushFront list _ => list
  | .pushBack list _ => list
  | .insert after _ => after
  | .remove item => item
  | .popFront list => list
  | .popBack list => list

/-- The memory holds the lists of the view, and every other initialised node is reset. -/
structure Represents (m : Mem ν) (v : View ν) : Prop where
  wf : v.Wf
  ring : ∀ {list xs}, v.seq list = some xs → Ring m list xs
  reset : ∀ {n}, v.Free n → n ∉ v.raw → m.next n = none ∧ m.prev n = none

/-- What the tests and the traversals of the source answer: those of the view. -/
structure Shows (m : Mem ν) (v : View ν) : Prop where
  forward : ∀ {list xs}, v.seq list = some xs → ∀ {fuel}, xs.length < fuel →
    listForward m list fuel = some xs
  backward : ∀ {list xs}, v.seq list = some xs → ∀ {fuel}, xs.length < fuel →
    listBackward m list fuel = some xs.reverse
  empty : ∀ {list xs}, v.seq list = some xs → ∀ debug, listEmpty debug m list = some (xs == [])
  inList : ∀ {n}, v.seq n = none → n ∉ v.raw → (listInList m n = true ↔ v.On n)

/-- What a call leaves alone and what it clears: the lists that it is not about keep their sequence and
every link, and a node taken off a list is reset. -/
structure Keeps (m : Mem ν) (v : View ν) (c : ListCall ν) (m' : Mem ν) (v' : View ν) : Prop where
  others : ∀ {list xs}, v.seq list = some xs → c.place ∉ list :: xs → v'.seq list = some xs ∧
    ∀ n ∈ list :: xs, m'.next n = m.next n ∧ m'.prev n = m.prev n
  cleared : ∀ {n}, v.On n → ¬v'.On n → m'.next n = none ∧ m'.prev n = none

/-- Along the calls, from `m` and `v`: each has a result, the node that the view returns, and in each
state the memory shows what the view says. -/
def Refines (debug : Bool) (m : Mem ν) (v : View ν) : List (ListCall ν) → Prop
  | [] => Shows m v
  | c :: cs => Shows m v ∧ ∃ m', listCall debug m c = some ((v.call c).1, m') ∧
      Keeps m v c m' (v.call c).2 ∧ Refines debug m' (v.call c).2 cs

/-- Every call of a sequence is allowed where it is made. -/
def View.AllowsAll (v : View ν) : List (ListCall ν) → Prop
  | [] => True
  | c :: cs => v.Allows c ∧ (v.call c).2.AllowsAll cs

/-! ## The pointer writes -/

section

variable {debug : Bool} {m : Mem ν} {v : View ν} {a c n p x list : ν} {xs ys : List ν}

@[simp] theorem debugAssert_true : debugAssert debug true = some () := by
  simp [debugAssert]

omit [DecidableEq ν] in
theorem bothLinks_eq (hn : m.next a = some n) (hp : m.prev a = some p) : bothLinks m a = true := by
  simp [bothLinks, hn, hp]

/-- The four writes of `list_insert` splice the item in. -/
theorem listInsert_eq (hn : m.next a = some n) (hp : m.prev a = some p) (hax : a ≠ x) :
    listInsert debug m a x = some (m.splice a x n) := by
  have hread : Function.update (Function.update m.next x (some n)) a (some x) x = some n := by
    rw [Function.update_of_ne hax.symm, Function.update_self]
  simp only [listInsert, bothLinks_eq hn hp, bne_iff_ne.2 hax, debugAssert_true, Mem.splice,
    setNext, setPrev, hn, hread, Option.bind_eq_bind, Option.bind_some, Option.pure_def]

/-- The four writes of `list_remove` take the item out. -/
theorem listRemove_eq (hn : m.next c = some n) (hp : m.prev c = some p) (hpc : p ≠ c) :
    listRemove debug m c = some (m.unlink p c n) := by
  have hread : Function.update m.next p (some n) c = some n := by
    rw [Function.update_of_ne hpc.symm, hn]
  simp only [listRemove, bothLinks_eq hn hp, debugAssert_true, Mem.unlink, setNext, setPrev, hp, hn,
    hread, Option.bind_eq_bind, Option.bind_some, Option.pure_def]

end

/-! ## Insertion and removal -/

namespace Represents

variable (debug : Bool) {m : Mem ν} {v : View ν} {a b c n p x list list' : ν} {xs ys : List ν}

omit [DecidableEq ν] in
/-- Two rings that share a node are one. -/
theorem ring_inj (hr : Represents m v) (hs : v.seq list = some xs) (hs' : v.seq list' = some ys)
    (ha : a ∈ list :: xs) (ha' : a ∈ list' :: ys) : list = list' := by
  rcases List.mem_cons.1 ha with rfl | ha <;> rcases List.mem_cons.1 ha' with rfl | ha'
  · rfl
  · exact absurd ha' (hr.wf.sentinel hs' hs)
  · exact absurd ha (hr.wf.sentinel hs hs')
  · exact hr.wf.apart hs hs' ha ha'

omit [DecidableEq ν] in
/-- A free node is on no ring. -/
theorem notMem_of_free (hx : v.Free x) (hs : v.seq list = some xs) : x ∉ list :: xs := by
  intro hmem
  rcases List.mem_cons.1 hmem with rfl | hmem
  · rw [hx.1] at hs
    cases hs
  · exact hx.2 ⟨list, xs, hs, hmem⟩

omit [DecidableEq ν] in
theorem nodup (hr : Represents m v) (hs : v.seq list = some xs) : xs.Nodup :=
  (List.nodup_cons.1 (hr.ring hs).nodup).2

/-- The sequence of a list after an insertion. -/
theorem insert_seq (hs : v.seq list = some xs) :
    (v.call (.insert a x)).2.seq list =
      some (if a = list then x :: xs else insertAfter a x xs) := by
  show (v.seq list).map _ = _
  rw [hs, Option.map_some]

theorem mem_insert (ha : a ∈ list :: xs) (h : (list :: xs).Nodup) :
    b ∈ (if a = list then x :: xs else insertAfter a x xs) ↔ b = x ∨ b ∈ xs := by
  split
  · exact List.mem_cons
  · rename_i hne
    obtain ⟨ys, zs, rfl⟩ := List.append_of_mem ((List.mem_cons.1 ha).resolve_left hne)
    rw [insertAfter_append (by grind)]
    grind

/-- The lists that do not hold the place of an insertion stay. -/
theorem insert_seq_other (ha : a ∉ list :: xs) (hs : v.seq list = some xs) :
    (v.call (.insert a x)).2.seq list = some xs := by
  obtain ⟨hne, hnot⟩ := not_or.1 (List.mem_cons.not.1 ha)
  rw [insert_seq hs, if_neg hne, insertAfter_of_notMem hnot]

/-- What the lists hold after an insertion. -/
theorem insert_on (hr : Represents m v) (hs : v.seq list = some xs) (ha : a ∈ list :: xs) :
    (v.call (.insert a x)).2.On b ↔ b = x ∨ v.On b := by
  constructor
  · rintro ⟨list', zs, hseq, hb⟩
    obtain ⟨ys, hys, rfl⟩ := Option.map_eq_some_iff.1 hseq
    by_cases ha' : a ∈ list' :: ys
    · rcases (mem_insert ha' (hr.ring hys).nodup).1 hb with hb | hb
      · exact .inl hb
      · exact .inr ⟨list', ys, hys, hb⟩
    · rw [← Option.some.inj ((insert_seq_other ha' hys).symm.trans hseq)] at hb
      exact .inr ⟨list', ys, hys, hb⟩
  · rintro (rfl | ⟨list', ys, hys, hb⟩)
    · exact ⟨list, _, insert_seq hs, (mem_insert ha (hr.ring hs).nodup).2 (.inl rfl)⟩
    · by_cases ha' : a ∈ list' :: ys
      · exact ⟨list', _, insert_seq hys, (mem_insert ha' (hr.ring hys).nodup).2 (.inr hb)⟩
      · exact ⟨list', ys, insert_seq_other ha' hys, hb⟩

theorem insert_wf (hr : Represents m v) (hs : v.seq list = some xs) (ha : a ∈ list :: xs)
    (hx : v.Free x) : (v.call (.insert a x)).2.Wf := by
  -- a node of a list after the insertion is the new one, on the list of `a`, or was on that list
  have hmem : ∀ {l zs b}, (v.call (.insert a x)).2.seq l = some zs → b ∈ zs →
      (∃ ys, v.seq l = some ys ∧ b ∈ ys) ∨ b = x ∧ l = list := by
    intro l zs b hseq hb
    obtain ⟨ys, hys, rfl⟩ := Option.map_eq_some_iff.1 hseq
    by_cases ha' : a ∈ l :: ys
    · rcases (mem_insert ha' (hr.ring hys).nodup).1 hb with hb | hb
      · exact .inr ⟨hb, hr.ring_inj hys hs ha' ha⟩
      · exact .inl ⟨ys, hys, hb⟩
    · rw [← Option.some.inj ((insert_seq_other ha' hys).symm.trans hseq)] at hb
      exact .inl ⟨ys, hys, hb⟩
  constructor
  · intro l l' zs zs' hseq hseq' hin
    obtain ⟨ys', hys', -⟩ := Option.map_eq_some_iff.1 hseq'
    rcases hmem hseq hin with ⟨ys, hys, hin⟩ | ⟨rfl, -⟩
    · exact hr.wf.sentinel hys hys' hin
    · rw [hx.1] at hys'
      cases hys'
  · intro l l' zs zs' b hseq hseq' hb hb'
    rcases hmem hseq hb with ⟨ys, hys, hb⟩ | ⟨rfl, hl⟩
    · rcases hmem hseq' hb' with ⟨ys', hys', hb'⟩ | ⟨rfl, -⟩
      · exact hr.wf.apart hys hys' hb hb'
      · exact absurd ⟨l, ys, hys, hb⟩ hx.2
    · rcases hmem hseq' hb' with ⟨ys', hys', hb'⟩ | ⟨-, hl'⟩
      · exact absurd ⟨l', ys', hys', hb'⟩ hx.2
      · rw [hl, hl']
  · intro b hb
    rcases (hr.insert_on hs ha).1 hb with rfl | hb
    · exact fun hraw => hraw.2 rfl
    · exact fun hraw => hr.wf.known hb hraw.1

/-- **`list_insert`** after a sentinel or a node of its list. -/
theorem insert (hr : Represents m v) (hs : v.seq list = some xs) (ha : a ∈ list :: xs)
    (hx : v.Free x) : ∃ m', listInsert debug m a x = some m' ∧
      Represents m' (v.call (.insert a x)).2 ∧ Keeps m v (.insert a x) m' (v.call (.insert a x)).2 := by
  obtain ⟨n, p, hn, hp, hn', -⟩ := (hr.ring hs).links ha
  have hx' := notMem_of_free hx hs
  have hax : a ≠ x := ne_of_mem_of_not_mem ha hx'
  have hfar : ∀ {l ys b}, v.seq l = some ys → a ∉ l :: ys → b ∈ l :: ys → b ≠ a ∧ b ≠ x ∧ b ≠ n := by
    intro l ys b hys hna hb
    refine ⟨ne_of_mem_of_not_mem hb hna, ne_of_mem_of_not_mem hb (notMem_of_free hx hys), ?_⟩
    rintro rfl
    have hl : l = list := hr.ring_inj hys hs hb hn'
    subst hl
    exact hna (Option.some.inj (hs.symm.trans hys) ▸ ha)
  refine ⟨m.splice a x n, listInsert_eq hn hp hax, ⟨hr.insert_wf hs ha hx, ?_, ?_⟩, ⟨?_, ?_⟩⟩
  · intro l zs hseq
    obtain ⟨ys, hys, rfl⟩ := Option.map_eq_some_iff.1 hseq
    by_cases ha' : a ∈ l :: ys
    · exact (hr.ring hys).splice ha' hn (notMem_of_free hx hys)
    · rw [← Option.some.inj ((insert_seq_other ha' hys).symm.trans hseq)]
      refine (hr.ring hys).frame (fun b hb => ?_) fun b hb => ?_
      · exact Mem.splice_next (hfar hys ha' hb).1 (hfar hys ha' hb).2.1
      · exact Mem.splice_prev (hfar hys ha' hb).2.1 (hfar hys ha' hb).2.2
  · intro b hfree hraw
    have hbx : b ≠ x := fun heq => hfree.2 ((hr.insert_on hs ha).2 (.inl heq))
    have hbfree : v.Free b := by
      refine ⟨?_, fun hon => hfree.2 ((hr.insert_on hs ha).2 (.inr hon))⟩
      exact Option.map_eq_none_iff.1 hfree.1
    have hbraw : b ∉ v.raw := fun hin => hraw ⟨hin, hbx⟩
    have hring := notMem_of_free hbfree hs
    obtain ⟨h1, h2⟩ := hr.reset hbfree hbraw
    rw [Mem.splice_next (ne_of_mem_of_not_mem ha hring).symm hbx,
      Mem.splice_prev hbx (ne_of_mem_of_not_mem hn' hring).symm]
    exact ⟨h1, h2⟩
  · intro l ys hys hna
    refine ⟨insert_seq_other hna hys, fun b hb => ?_⟩
    obtain ⟨h1, h2, h3⟩ := hfar hys hna hb
    exact ⟨Mem.splice_next h1 h2, Mem.splice_prev h2 h3⟩
  · intro b hon hnot
    exact absurd ((hr.insert_on hs ha).2 (.inr hon)) hnot

theorem remove_seq (hs : v.seq list = some xs) :
    (v.call (.remove c)).2.seq list = some (xs.erase c) := by
  show (v.seq list).map _ = _
  rw [hs, Option.map_some]

/-- What the lists hold after a removal. -/
theorem remove_on (hr : Represents m v) : (v.call (.remove c)).2.On b ↔ b ≠ c ∧ v.On b := by
  constructor
  · rintro ⟨l, zs, hseq, hb⟩
    obtain ⟨ys, hys, rfl⟩ := Option.map_eq_some_iff.1 hseq
    obtain ⟨hne, hb⟩ := (hr.nodup hys).mem_erase_iff.1 hb
    exact ⟨hne, l, ys, hys, hb⟩
  · rintro ⟨hne, l, ys, hys, hb⟩
    exact ⟨l, _, remove_seq hys, (hr.nodup hys).mem_erase_iff.2 ⟨hne, hb⟩⟩

theorem remove_wf (hr : Represents m v) : (v.call (.remove c)).2.Wf := by
  constructor
  · intro l l' zs zs' hseq hseq' hin
    obtain ⟨ys, hys, rfl⟩ := Option.map_eq_some_iff.1 hseq
    obtain ⟨ys', hys', -⟩ := Option.map_eq_some_iff.1 hseq'
    exact hr.wf.sentinel hys hys' (List.mem_of_mem_erase hin)
  · intro l l' zs zs' b hseq hseq' hb hb'
    obtain ⟨ys, hys, rfl⟩ := Option.map_eq_some_iff.1 hseq
    obtain ⟨ys', hys', rfl⟩ := Option.map_eq_some_iff.1 hseq'
    exact hr.wf.apart hys hys' (List.mem_of_mem_erase hb) (List.mem_of_mem_erase hb')
  · intro b hb
    exact hr.wf.known (hr.remove_on.1 hb).2

/-- **`list_remove`** of a node on a list. -/
theorem remove (hr : Represents m v) (hs : v.seq list = some xs) (hc : c ∈ xs) :
    ∃ m', listRemove debug m c = some m' ∧ Represents m' (v.call (.remove c)).2 ∧
      Keeps m v (.remove c) m' (v.call (.remove c)).2 := by
  have hc' : c ∈ list :: xs := List.mem_cons_of_mem list hc
  obtain ⟨n, p, hn, hp, hn', hp'⟩ := (hr.ring hs).links hc'
  have hpc : p ≠ c := by
    have hpath := (hr.ring hs).path
    have hnd := (hr.ring hs).nodup
    obtain ⟨ys, zs, rfl⟩ := List.append_of_mem hc
    obtain ⟨q, hq, hq'⟩ := (Path.append_iff.1 hpath).1.prev_mem
    rw [Option.some.inj (hp.symm.trans hq')]
    grind
  have hself : (m.unlink p c n).next c = none ∧ (m.unlink p c n).prev c = none :=
    ⟨Function.update_self _ _ _, Function.update_self _ _ _⟩
  have hfar : ∀ {l ys b}, v.seq l = some ys → c ∉ ys → b ∈ l :: ys → b ≠ c ∧ b ≠ p ∧ b ≠ n := by
    intro l ys b hys hnc hb
    have hll : l ≠ list := by
      rintro rfl
      exact hnc (Option.some.inj (hs.symm.trans hys) ▸ hc)
    refine ⟨?_, ?_, ?_⟩
    · rintro rfl
      exact hll (hr.ring_inj hys hs hb hc')
    · rintro rfl
      exact hll (hr.ring_inj hys hs hb hp')
    · rintro rfl
      exact hll (hr.ring_inj hys hs hb hn')
  refine ⟨m.unlink p c n, listRemove_eq hn hp hpc, ⟨hr.remove_wf, ?_, ?_⟩, ⟨?_, ?_⟩⟩
  · intro l zs hseq
    obtain ⟨ys, hys, rfl⟩ := Option.map_eq_some_iff.1 hseq
    by_cases hcy : c ∈ ys
    · exact (hr.ring hys).unlink hcy hp hn
    · rw [List.erase_of_not_mem hcy]
      refine (hr.ring hys).frame (fun b hb => ?_) fun b hb => ?_
      · exact Mem.unlink_next (hfar hys hcy hb).2.1 (hfar hys hcy hb).1
      · exact Mem.unlink_prev (hfar hys hcy hb).2.2 (hfar hys hcy hb).1
  · intro b hfree hraw
    by_cases hbc : b = c
    · rw [hbc]
      exact hself
    · have hbfree : v.Free b :=
        ⟨Option.map_eq_none_iff.1 hfree.1, fun hon => hfree.2 (hr.remove_on.2 ⟨hbc, hon⟩)⟩
      have hring := notMem_of_free hbfree hs
      obtain ⟨h1, h2⟩ := hr.reset hbfree hraw
      rw [Mem.unlink_next (ne_of_mem_of_not_mem hp' hring).symm hbc,
        Mem.unlink_prev (ne_of_mem_of_not_mem hn' hring).symm hbc]
      exact ⟨h1, h2⟩
  · intro l ys hys hna
    have hcy : c ∉ ys := fun hin => hna (List.mem_cons_of_mem l hin)
    refine ⟨by rw [remove_seq hys, List.erase_of_not_mem hcy], fun b hb => ?_⟩
    obtain ⟨h1, h2, h3⟩ := hfar hys hcy hb
    exact ⟨Mem.unlink_next h2 h1, Mem.unlink_prev h3 h1⟩
  · intro b hon hnot
    have hbc : b = c := by
      by_contra hne
      exact hnot (hr.remove_on.2 ⟨hne, hon⟩)
    rw [hbc]
    exact hself

/-! ## Pushes and pops -/

/-- An insertion changes the one list that holds its place. -/
theorem insert_update (hr : Represents m v) (hs : v.seq list = some xs) (ha : a ∈ list :: xs) :
    (v.call (.insert a x)).2.seq =
      Function.update v.seq list (some (if a = list then x :: xs else insertAfter a x xs)) := by
  funext l
  by_cases hl : l = list
  · subst hl
    rw [insert_seq hs, Function.update_self]
  · rw [Function.update_of_ne hl]
    cases hys : v.seq l with
    | none => exact Option.map_eq_none_iff.2 hys
    | some ys => exact insert_seq_other (fun ha' => hl (hr.ring_inj hys hs ha' ha)) hys

/-- A removal changes the one list that holds the node. -/
theorem remove_update (hr : Represents m v) (hs : v.seq list = some xs) (hc : c ∈ xs) :
    (v.call (.remove c)).2.seq = Function.update v.seq list (some (xs.erase c)) := by
  funext l
  by_cases hl : l = list
  · subst hl
    rw [remove_seq hs, Function.update_self]
  · rw [Function.update_of_ne hl]
    cases hys : v.seq l with
    | none => exact Option.map_eq_none_iff.2 hys
    | some ys => rw [remove_seq hys, List.erase_of_not_mem fun hc' => hl (hr.wf.apart hys hs hc' hc)]

/-- A push onto the front is an insertion after the sentinel. -/
theorem pushFront_eq (hr : Represents m v) (hs : v.seq list = some xs) :
    (v.call (.pushFront list x)).2 = (v.call (.insert list x)).2 := by
  have h := hr.insert_update (x := x) hs List.mem_cons_self
  rw [if_pos rfl] at h
  show View.mk _ _ = View.mk _ _
  rw [hs, Option.map_some, ← h]
  rfl

/-- The last node of a list, or the sentinel of an empty one, is what the sentinel links back to. -/
theorem prev_sentinel (hr : Represents m v) (hs : v.seq list = some xs) :
    ∃ p, m.prev list = some p ∧ p ∈ list :: xs ∧
      (if p = list then x :: xs else insertAfter p x xs) = xs ++ [x] := by
  obtain ⟨p, hp, -, hmem, hseq⟩ := (hr.ring hs).last x
  exact ⟨p, hp, hmem, hseq⟩

/-- **`list_push_front`**. -/
theorem pushFront (hr : Represents m v) (hs : v.seq list = some xs) (hx : v.Free x) :
    ∃ m', listPushFront debug m list x = some m' ∧ Represents m' (v.call (.pushFront list x)).2 ∧
      Keeps m v (.pushFront list x) m' (v.call (.pushFront list x)).2 := by
  obtain ⟨m', hm, hr', hk⟩ := hr.insert debug hs List.mem_cons_self hx
  rw [hr.pushFront_eq hs]
  exact ⟨m', hm, hr', hk.others, hk.cleared⟩

/-- **`list_push_back`**. -/
theorem pushBack (hr : Represents m v) (hs : v.seq list = some xs) (hx : v.Free x) :
    ∃ m', listPushBack debug m list x = some m' ∧ Represents m' (v.call (.pushBack list x)).2 ∧
      Keeps m v (.pushBack list x) m' (v.call (.pushBack list x)).2 := by
  obtain ⟨p, hp, hmem, hseq⟩ := hr.prev_sentinel (x := x) hs
  obtain ⟨m', hm, hr', hk⟩ := hr.insert debug hs hmem hx
  have hcall : (v.call (.pushBack list x)).2 = (v.call (.insert p x)).2 := by
    have h := hr.insert_update (x := x) hs hmem
    rw [hseq] at h
    show View.mk _ _ = View.mk _ _
    rw [hs, Option.map_some, ← h]
    rfl
  obtain ⟨n, q, hn, hq, -⟩ := (hr.ring hs).links List.mem_cons_self
  have hback : listBack debug m list = some p := by
    simp only [listBack, bothLinks_eq hn hq, debugAssert_true, Option.bind_eq_bind, Option.bind_some, hp]
  rw [hcall]
  refine ⟨m', ?_, hr', fun {l ys} hys hnot => ?_, hk.cleared⟩
  · rw [listPushBack, hback]
    exact hm
  · -- the lists that the call is not about are those that do not hold the node before the sentinel
    refine hk.others hys fun hin => hnot ?_
    rw [hr.ring_inj hys hs hin hmem]
    exact List.mem_cons_self

theorem listEmpty_eq (hr : Represents m v) (hs : v.seq list = some xs) :
    listEmpty debug m list = some (xs == []) := by
  obtain ⟨n, p, hn, hp, -⟩ := (hr.ring hs).links List.mem_cons_self
  simp only [listEmpty, bothLinks_eq hn hp, debugAssert_true, Option.bind_eq_bind, Option.bind_some,
    Option.pure_def, Option.some.injEq]
  have hring := hr.ring hs
  cases xs with
  | nil =>
    rw [hring.path.1]
    simp
  | cons x xs =>
    have hx : x ≠ list := by
      have := hring.nodup
      grind
    rw [hring.path.1.1]
    simpa using hx

/-- **`list_pop_front`**. -/
theorem popFront (hr : Represents m v) (hs : v.seq list = some (x :: xs)) :
    ∃ m', listPopFront debug m list = some (x, m') ∧ Represents m' (v.call (.popFront list)).2 ∧
      Keeps m v (.popFront list) m' (v.call (.popFront list)).2 := by
  obtain ⟨m', hm, hr', hk⟩ := hr.remove debug hs List.mem_cons_self
  have hcall : (v.call (.popFront list)).2 = (v.call (.remove x)).2 := by
    have h := hr.remove_update hs List.mem_cons_self
    rw [List.erase_cons_head] at h
    show View.mk _ _ = View.mk _ _
    rw [hs, Option.map_some, List.tail_cons, ← h]
    rfl
  have hnext : m.next list = some x := (hr.ring hs).path.1.1
  have hne : (x :: xs == []) = false := by simp
  rw [hcall]
  refine ⟨m', ?_, hr', fun {l ys} hys hnot => ?_, hk.cleared⟩
  · simp only [listPopFront, hr.listEmpty_eq debug hs, hnext, hm, hne,
      Bool.not_false, debugAssert_true, Option.bind_eq_bind, Option.bind_some, Option.pure_def]
  · refine hk.others hys fun hin => hnot ?_
    rw [hr.ring_inj hys hs hin (List.mem_cons_of_mem list List.mem_cons_self)]
    exact List.mem_cons_self

/-- **`list_pop_back`**. -/
theorem popBack (hr : Represents m v) (hs : v.seq list = some (xs ++ [x])) :
    ∃ m', listPopBack debug m list = some (x, m') ∧ Represents m' (v.call (.popBack list)).2 ∧
      Keeps m v (.popBack list) m' (v.call (.popBack list)).2 := by
  have hmem : x ∈ xs ++ [x] := List.mem_append_right xs List.mem_cons_self
  obtain ⟨m', hm, hr', hk⟩ := hr.remove debug hs hmem
  have hcall : (v.call (.popBack list)).2 = (v.call (.remove x)).2 := by
    have h := hr.remove_update hs hmem
    have hnd := hr.nodup hs
    rw [List.erase_append_right _ (by grind), List.erase_cons_head, List.append_nil] at h
    show View.mk _ _ = View.mk _ _
    rw [hs, Option.map_some, List.dropLast_concat, ← h]
    rfl
  have hprev : m.prev list = some x := (Path.append_iff.1 (hr.ring hs).path).2.2
  have hne : (xs ++ [x] == []) = false := by simp
  rw [hcall]
  refine ⟨m', ?_, hr', fun {l ys} hys hnot => ?_, hk.cleared⟩
  · simp only [listPopBack, hr.listEmpty_eq debug hs, hprev, hm, hne,
      Bool.not_false, debugAssert_true, Option.bind_eq_bind, Option.bind_some, Option.pure_def]
  · refine hk.others hys fun hin => hnot ?_
    rw [hr.ring_inj hys hs hin (List.mem_cons_of_mem list hmem)]
    exact List.mem_cons_self

/-- **`list_init`** of a free node makes it an empty list. -/
theorem init (hr : Represents m v) (hfree : v.Free list) :
    Represents (listInit m list) (v.call (.init list)).2 ∧
      Keeps m v (.init list) (listInit m list) (v.call (.init list)).2 := by
  have hseq : ∀ {l ys}, (v.call (.init list)).2.seq l = some ys →
      l = list ∧ ys = [] ∨ l ≠ list ∧ v.seq l = some ys := by
    intro l ys hys
    by_cases hl : l = list
    · subst hl
      exact .inl ⟨rfl, (Option.some.inj ((Function.update_self l _ _).symm.trans hys)).symm⟩
    · exact .inr ⟨hl, (Function.update_of_ne hl _ _).symm.trans hys⟩
  have hseq' : ∀ {l ys}, v.seq l = some ys →
      l ≠ list ∧ (v.call (.init list)).2.seq l = some ys := by
    intro l ys hys
    have hl : l ≠ list := by
      rintro rfl
      rw [hfree.1] at hys
      cases hys
    exact ⟨hl, (Function.update_of_ne hl _ _).trans hys⟩
  have hlinks : ∀ {b}, b ≠ list → (listInit m list).next b = m.next b ∧
      (listInit m list).prev b = m.prev b :=
    fun hb => ⟨Function.update_of_ne hb _ _, Function.update_of_ne hb _ _⟩
  have hon : ∀ {b}, v.On b → (v.call (.init list)).2.On b :=
    fun ⟨l, ys, hys, hb⟩ => ⟨l, ys, (hseq' hys).2, hb⟩
  refine ⟨⟨⟨?_, ?_, ?_⟩, ?_, ?_⟩, ?_, ?_⟩
  · intro l l' ys ys' hys hys' hin
    rcases hseq hys with ⟨-, rfl⟩ | ⟨-, hold⟩
    · cases hin
    · rcases hseq hys' with ⟨rfl, -⟩ | ⟨-, hold'⟩
      · exact hfree.2 ⟨l, ys, hold, hin⟩
      · exact hr.wf.sentinel hold hold' hin
  · intro l l' ys ys' b hys hys' hb hb'
    rcases hseq hys with ⟨-, rfl⟩ | ⟨-, hys⟩
    · cases hb
    · rcases hseq hys' with ⟨-, rfl⟩ | ⟨-, hys'⟩
      · cases hb'
      · exact hr.wf.apart hys hys' hb hb'
  · rintro b ⟨l, ys, hys, hb⟩
    rcases hseq hys with ⟨-, rfl⟩ | ⟨-, hys⟩
    · cases hb
    · exact hr.wf.known ⟨l, ys, hys, hb⟩
  · intro l ys hys
    rcases hseq hys with ⟨rfl, rfl⟩ | ⟨-, hys⟩
    · exact ⟨⟨Function.update_self _ _ _, Function.update_self _ _ _⟩, List.nodup_singleton l⟩
    · refine (hr.ring hys).frame (fun b hb => (hlinks ?_).1) fun b hb => (hlinks ?_).2
      · exact ne_of_mem_of_not_mem hb (notMem_of_free hfree hys)
      · exact ne_of_mem_of_not_mem hb (notMem_of_free hfree hys)
  · intro b hb hraw
    have hne : b ≠ list := by
      rintro rfl
      exact absurd ((Function.update_self b _ _).symm.trans hb.1) nofun
    have hbfree : v.Free b :=
      ⟨(Function.update_of_ne hne _ _).symm.trans hb.1, fun h => hb.2 (hon h)⟩
    rw [(hlinks hne).1, (hlinks hne).2]
    exact hr.reset hbfree hraw
  · intro l ys hys hnot
    refine ⟨(hseq' hys).2, fun b hb => hlinks ?_⟩
    exact ne_of_mem_of_not_mem hb (notMem_of_free hfree hys)
  · intro b hb hnot
    exact absurd (hon hb) hnot

/-- **`list_node_init`** of a free node resets it. -/
theorem nodeInit (hr : Represents m v) (hfree : v.Free n) :
    Represents (listNodeInit m n) (v.call (.nodeInit n)).2 ∧
      Keeps m v (.nodeInit n) (listNodeInit m n) (v.call (.nodeInit n)).2 := by
  have hlinks : ∀ {b}, b ≠ n → (listNodeInit m n).next b = m.next b ∧
      (listNodeInit m n).prev b = m.prev b :=
    fun hb => ⟨Function.update_of_ne hb _ _, Function.update_of_ne hb _ _⟩
  have hother : ∀ {l ys b}, v.seq l = some ys → b ∈ l :: ys → b ≠ n :=
    fun hys hb => ne_of_mem_of_not_mem hb (notMem_of_free hfree hys)
  refine ⟨⟨⟨hr.wf.sentinel, hr.wf.apart, fun hon hraw => hr.wf.known hon hraw.1⟩, ?_, ?_⟩, ?_, ?_⟩
  · intro l ys hys
    exact (hr.ring hys).frame (fun b hb => (hlinks (hother hys hb)).1)
      fun b hb => (hlinks (hother hys hb)).2
  · intro b hb hraw
    by_cases hbn : b = n
    · subst hbn
      exact ⟨Function.update_self _ _ _, Function.update_self _ _ _⟩
    · rw [(hlinks hbn).1, (hlinks hbn).2]
      exact hr.reset hb fun hin => hraw ⟨hin, hbn⟩
  · intro l ys hys hnot
    exact ⟨hys, fun b hb => hlinks (hother hys hb)⟩
  · intro b hb hnot
    exact absurd hb hnot

/-! ## What the source sees -/

/-- The walk from the node after `a` along a path finds its nodes. -/
theorem walk_path {link : ν → Option ν} (hlink : m.next = link) (hp : Path m a xs list)
    (hnot : list ∉ xs) {fuel : Nat} (hfuel : xs.length < fuel) :
    (m.next a).bind (walk link list fuel) = some xs := by
  subst hlink
  induction xs generalizing a fuel with
  | nil =>
    obtain ⟨fuel, rfl⟩ : ∃ f, fuel = f + 1 := ⟨fuel - 1, by simp at hfuel; omega⟩
    rw [hp.1, Option.bind_some, walk, if_pos rfl]
  | cons x xs ih =>
    obtain ⟨fuel, rfl⟩ : ∃ f, fuel = f + 1 := ⟨fuel - 1, by simp at hfuel; omega⟩
    obtain ⟨hx, hxs⟩ := not_or.1 (List.mem_cons.not.1 hnot)
    have hrest := ih hp.2 hxs (show xs.length < fuel by simpa using hfuel)
    rw [hp.1.1, Option.bind_some, walk, if_neg (Ne.symm hx)]
    obtain ⟨y, hy, hwalk⟩ := Option.bind_eq_some_iff.1 hrest
    simp only [hy, hwalk, Option.bind_eq_bind, Option.bind_some, Option.pure_def]

theorem shows (hr : Represents m v) : Shows m v where
  forward {list xs} hs fuel hfuel :=
    walk_path rfl (hr.ring hs).path (List.nodup_cons.1 (hr.ring hs).nodup).1 hfuel
  backward {list xs} hs fuel hfuel := by
    have hnot : list ∉ xs.reverse := by
      rw [List.mem_reverse]
      exact (List.nodup_cons.1 (hr.ring hs).nodup).1
    exact walk_path rfl (hr.ring hs).path.reverse hnot (by rwa [List.length_reverse])
  empty hs debug := hr.listEmpty_eq debug hs
  inList {n} hn hraw := by
    constructor
    · intro hin
      by_contra hnot
      obtain ⟨h1, h2⟩ := hr.reset ⟨hn, hnot⟩ hraw
      rw [listInList, h1, h2] at hin
      cases hin
    · rintro ⟨l, ys, hys, hmem⟩
      obtain ⟨q, p, hq, -⟩ := (hr.ring hys).links (List.mem_cons_of_mem l hmem)
      rw [listInList, hq]
      rfl

/-- One call. -/
theorem step (hr : Represents m v) {d : ListCall ν} (hd : v.Allows d) :
    ∃ m', listCall debug m d = some ((v.call d).1, m') ∧ Represents m' (v.call d).2 ∧
      Keeps m v d m' (v.call d).2 := by
  cases d with
  | init l => exact ⟨_, rfl, hr.init hd⟩
  | nodeInit n => exact ⟨_, rfl, hr.nodeInit hd⟩
  | pushFront l x =>
    obtain ⟨ys, hys⟩ := Option.isSome_iff_exists.1 hd.1
    obtain ⟨m', hm, h⟩ := hr.pushFront debug hys hd.2
    exact ⟨m', by rw [listCall, hm]; rfl, h⟩
  | pushBack l x =>
    obtain ⟨ys, hys⟩ := Option.isSome_iff_exists.1 hd.1
    obtain ⟨m', hm, h⟩ := hr.pushBack debug hys hd.2
    exact ⟨m', by rw [listCall, hm]; rfl, h⟩
  | insert a x =>
    obtain ⟨l, ys, hys, ha⟩ : ∃ l ys, v.seq l = some ys ∧ a ∈ l :: ys := by
      rcases hd.1 with hsome | ⟨l, ys, hys, ha⟩
      · obtain ⟨ys, hys⟩ := Option.isSome_iff_exists.1 hsome
        exact ⟨a, ys, hys, List.mem_cons_self⟩
      · exact ⟨l, ys, hys, List.mem_cons_of_mem l ha⟩
    obtain ⟨m', hm, h⟩ := hr.insert debug hys ha hd.2
    exact ⟨m', by rw [listCall, hm]; rfl, h⟩
  | remove c =>
    obtain ⟨l, ys, hys, hc⟩ := hd
    obtain ⟨m', hm, h⟩ := hr.remove debug hys hc
    exact ⟨m', by rw [listCall, hm]; rfl, h⟩
  | popFront l =>
    obtain ⟨ys, hys, hne⟩ := hd
    obtain ⟨x, ys, rfl⟩ := List.exists_cons_of_ne_nil hne
    obtain ⟨m', hm, h⟩ := hr.popFront debug hys
    refine ⟨m', ?_, h⟩
    rw [listCall, hm]
    simp [View.call, hys]
  | popBack l =>
    obtain ⟨ys, hys, hne⟩ := hd
    obtain ⟨x, ys, rfl⟩ := (List.eq_nil_or_concat ys).resolve_left hne
    rw [List.concat_eq_append] at hys
    obtain ⟨m', hm, h⟩ := hr.popBack debug hys
    refine ⟨m', ?_, h⟩
    rw [listCall, hm]
    simp [View.call, hys]

end Represents

omit [DecidableEq ν] in
/-- Any memory represents the view without lists, before a node is initialised. -/
theorem Represents.blank (m : Mem ν) : Represents m ⟨fun _ => none, Set.univ⟩ where
  wf := ⟨nofun, nofun, fun ⟨_, _, h, _⟩ => absurd h nofun⟩
  ring := nofun
  reset _ hraw := absurd (Set.mem_univ _) hraw

/-- **The lists are sequences.** From every memory that holds disjoint lists, every sequence of allowed
calls has a result at each call, in builds with and without `DEBUG`. In every state the forward
traversal of each list is its sequence and the backward traversal the reverse, `list_empty` tells
whether the sequence is empty and `list_in_list` whether an initialised node is on some list; each call
leaves the other lists alone and resets a node that it takes off its list. -/
theorem list_calls_refine (debug : Bool) {m : Mem ν} {v : View ν} (hr : Represents m v)
    (cs : List (ListCall ν)) (hcs : v.AllowsAll cs) : Refines debug m v cs := by
  induction cs generalizing m v with
  | nil => exact hr.shows
  | cons c cs ih =>
    obtain ⟨m', hm, hr', hk⟩ := hr.step debug hcs.1
    exact ⟨hr.shows, m', hm, hk, ih hr' hcs.2⟩

/-- A list made, filled at both ends, and emptied. -/
theorem list_calls_refine_fill :
    Refines true (⟨fun _ => none, fun _ => none⟩ : Mem Nat) ⟨fun _ => none, Set.univ⟩
      [.init 0, .nodeInit 1, .pushBack 0 1, .pushFront 0 2, .remove 1, .popBack 0] :=
  list_calls_refine true (Represents.blank _) _ (by
    simp [View.AllowsAll, View.Allows, View.Free, View.On, View.call, Function.update_apply])

end Lwthread.Util
