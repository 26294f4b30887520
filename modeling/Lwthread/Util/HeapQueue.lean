import Lwthread.Util.HeapItems

/-!
# The heap is a priority queue

The abstract queue is a multiset with nondeterministic least elements (`QueueStep`). A heap over an
unbounded array refines it under the map `Heap.bag`, call by call and hence over every sequence of
calls from `heap_init` that keeps fewer than `2^30` items (`heap_refines_queue`): its replies are
replies of the queue, `heap_pop_min` answers what `heap_min` would, and pushing a list and popping
until `NULL` sorts it.
-/

namespace Lwthread.Util

variable {α : Type}

/-! ## The calls -/

/-- A call of the heap's interface, every allocation succeeding. -/
inductive Call (α : Type) where
  | push (item : α)
  | min
  | size
  | empty
  | popMin

/-- What a call returns; a `NULL` item is `none`. -/
inductive Reply (α : Type) where
  | code (c : Int)
  | item (x : Option α)
  | size (n : Nat)
  | truth (b : Bool)

/-- Perform one call. -/
def call (h : Heap α) : Call α → Reply α × Heap α
  | .push item => (.code (heapPush .block h item).1, (heapPush .block h item).2)
  | .min => (.item (heapMin h).1, (heapMin h).2)
  | .size => (.size (heapSize h), h)
  | .empty => (.truth (heapEmpty h), h)
  | .popMin => (.item (heapPopMin .block h).1, (heapPopMin .block h).2)

/-- Perform a sequence of calls: the calls with their replies, and the last heap. -/
def calls (h : Heap α) : List (Call α) → List (Call α × Reply α) × Heap α
  | [] => ([], h)
  | c :: cs =>
    let r := call h c
    let rest := calls r.2 cs
    ((c, r.1) :: rest.1, rest.2)

/-- `p` holds in every state of a sequence of calls, the first and the last included. -/
def Along (p : Heap α → Prop) (h : Heap α) : List (Call α) → Prop
  | [] => p h
  | c :: cs => p h ∧ Along p (call h c).2 cs

/-- Fewer than `2^30` items in every state of a sequence of calls. -/
def Below (h : Heap α) (cs : List (Call α)) : Prop := Along (fun h => h.items < 2 ^ 30) h cs

theorem Along.last {p : Heap α → Prop} {cs : List (Call α)} {h : Heap α} (ha : Along p h cs) :
    p (calls h cs).2 := by
  induction cs generalizing h with
  | nil => exact ha
  | cons c cs ih => exact ih ha.2

/-- `heap_pop_min` until it answers `NULL`, for at most `fuel` calls: the items in the order they
come, unless the fuel ends first. -/
def popUntilNull : Nat → Heap α → Option (List α)
  | 0, _ => none
  | fuel + 1, h =>
    match heapPopMin .block h with
    | (none, _) => some []
    | (some x, h') => (popUntilNull fuel h').map (x :: ·)

/-! ## The abstract queue -/

/-- `x` is a least element of `s`. -/
def IsLeastItem (compare : α → α → Int) (s : Multiset α) (x : α) : Prop :=
  x ∈ s ∧ ∀ y ∈ s, compare x y ≤ 0

/-- One call on a multiset priority queue: the reply and the queue after it. -/
inductive QueueStep (compare : α → α → Int) : Multiset α → Call α → Reply α → Multiset α → Prop
  | push {s item} : QueueStep compare s (.push item) (.code 0) (item ::ₘ s)
  | minNull : QueueStep compare 0 .min (.item none) 0
  | min {s x} (h : IsLeastItem compare s x) : QueueStep compare s .min (.item (some x)) s
  | size {s} : QueueStep compare s .size (.size s.card) s
  | empty {s b} (h : b = true ↔ s = 0) : QueueStep compare s .empty (.truth b) s
  | popNull : QueueStep compare 0 .popMin (.item none) 0
  | pop {s x} (h : IsLeastItem compare (x ::ₘ s) x) :
      QueueStep compare (x ::ₘ s) .popMin (.item (some x)) s

/-- A sequence of calls on the queue. -/
inductive QueueRun (compare : α → α → Int) :
    Multiset α → List (Call α × Reply α) → Multiset α → Prop
  | nil {s} : QueueRun compare s [] s
  | cons {s s' s'' c r tr} (h : QueueStep compare s c r s') (t : QueueRun compare s' tr s'') :
      QueueRun compare s ((c, r) :: tr) s''

/-! ## Heaps in order -/

/-- The heap is ordered, by a comparator whose sign is a total preorder on `P`, and its items
are in `P`. -/
structure Heap.Valid (P : α → Prop) (h : Heap α) : Prop where
  pre : SignPreorder P h.compare
  mem : ∀ x ∈ h.bag, P x
  ordered : Hole.Ordered (fun x y => h.compare x y ≤ 0) h.heap.cell h.items

theorem heapInit_valid {P : α → Prop} {compare : α → α → Int} (hpre : SignPreorder P compare)
    (garbage : Nat → α) : (heapInit .block garbage compare).2.Valid P where
  pre := hpre
  mem := by intro x hx; simp [heapInit, Heap.bag] at hx
  ordered := by intro i hi hin; simp only [heapInit] at hin; omega

@[simp] theorem heapPush_compare (h : Heap α) (item : α) :
    (heapPush .block h item).2.compare = h.compare := by
  unfold heapPush; split <;> rfl

@[simp] theorem heapPush_code (h : Heap α) (item : α) : (heapPush .block h item).1 = 0 := by
  unfold heapPush; split <;> rfl

@[simp] theorem heapPush_items (h : Heap α) (item : α) :
    (heapPush .block h item).2.items = h.items + 1 := by
  unfold heapPush; split <;> rfl

theorem heapPush_bag (h : Heap α) (item : α) :
    (heapPush .block h item).2.bag = item ::ₘ h.bag := by
  unfold heapPush
  split
  · exact pushItem_bag { h with heap := h.heap.resize (h.size * 2), size := h.size * 2 } item
  · exact pushItem_bag h item

@[simp] theorem heapPopMin_compare (h : Heap α) :
    (heapPopMin .block h).2.compare = h.compare := by
  unfold heapPopMin
  split
  · rfl
  · dsimp only; split <;> rfl

theorem heapMin_bag (h : Heap α) : (heapMin h).2.bag = h.bag := by
  unfold heapMin; split <;> rfl

theorem heapPopMin_null {h : Heap α} (hi : h.items = 0) : heapPopMin .block h = (none, h) := by
  unfold heapPopMin; rw [if_pos hi]

theorem heapPopMin_fst {h : Heap α} (hi : h.items ≠ 0) :
    (heapPopMin .block h).1 = some (h.heap.cell 1) := by
  unfold heapPopMin
  rw [if_neg hi]
  dsimp only; split <;> rfl

/-- The resize at the end of `heap_pop_min` changes neither the slots nor the items. -/
theorem heapPopMin_cell {h : Heap α} (hi : h.items ≠ 0) :
    (heapPopMin .block h).2.heap.cell = (popItem h).2.heap.cell ∧
      (heapPopMin .block h).2.items = h.items - 1 := by
  unfold heapPopMin
  rw [if_neg hi]
  dsimp only
  split
  · exact ⟨rfl, rfl⟩
  · exact ⟨rfl, rfl⟩

theorem heapPopMin_bag {h : Heap α} (hi : h.items ≠ 0) (hlt : h.items ≤ 2 ^ 63)
    (hrefl : ∀ x ∈ h.bag, h.compare x x ≤ 0) :
    h.heap.cell 1 ::ₘ (heapPopMin .block h).2.bag = h.bag := by
  obtain ⟨hcell, hitems⟩ := heapPopMin_cell hi
  rw [← popItem_bag hi hlt hrefl]
  unfold Heap.bag
  rw [hcell, hitems, popItem_items]

/-- `heap_pop_min` answers what `heap_min` would. -/
theorem heapPopMin_fst_eq_heapMin (h : Heap α) : (heapPopMin .block h).1 = (heapMin h).1 := by
  unfold heapMin
  by_cases hi : h.items = 0
  · rw [heapPopMin_null hi, if_pos hi]
  · rw [heapPopMin_fst hi, if_neg hi]

namespace Heap.Valid

variable {P : α → Prop} {h : Heap α}

theorem least (hv : h.Valid P) (hi : h.items ≠ 0) :
    IsLeastItem h.compare h.bag (h.heap.cell 1) := by
  refine ⟨Heap.cell_one_mem hi, fun y hy => ?_⟩
  obtain ⟨i, ⟨hi1, hin⟩, rfl⟩ := Hole.mem_bag.1 hy
  exact hv.ordered.root_le (fun x hx => hv.pre.refl hx) hv.pre.trans
    (fun i hi hin => hv.mem _ (Hole.mem_bag.2 ⟨i, ⟨hi, hin⟩, rfl⟩)) i hi1 hin

theorem push (hv : h.Valid P) {item : α} (hitem : P item) :
    (heapPush .block h item).2.Valid P where
  pre := by rw [heapPush_compare]; exact hv.pre
  mem := by
    intro x hx
    rw [heapPush_bag] at hx
    rcases Multiset.mem_cons.1 hx with rfl | hx
    · exact hitem
    · exact hv.mem x hx
  ordered := by
    unfold heapPush
    split
    · exact pushItem_ordered { h with heap := h.heap.resize (h.size * 2), size := h.size * 2 } item
        hv.pre hitem hv.mem hv.ordered
    · exact pushItem_ordered h item hv.pre hitem hv.mem hv.ordered

theorem popMin (hv : h.Valid P) (hlt : h.items ≤ 2 ^ 30) : (heapPopMin .block h).2.Valid P := by
  by_cases hi : h.items = 0
  · rw [heapPopMin_null hi]; exact hv
  · obtain ⟨hcell, hitems⟩ := heapPopMin_cell hi
    refine ⟨by rw [heapPopMin_compare]; exact hv.pre, fun x hx => ?_, ?_⟩
    · have hbag := heapPopMin_bag hi (by omega) fun x hx => hv.pre.refl (hv.mem x hx)
      exact hv.mem x (by rw [← hbag]; exact Multiset.mem_cons_of_mem hx)
    · rw [heapPopMin_compare, hcell, hitems]
      exact popItem_ordered hi hlt hv.pre hv.mem hv.ordered

end Heap.Valid

/-! ## Refinement -/

/-- One call on an ordered heap is a call on the queue of its items. -/
theorem call_refines {P : α → Prop} {h : Heap α} (hv : h.Valid P) (hlt : h.items < 2 ^ 30)
    (c : Call α) (hc : ∀ item, c = .push item → P item) :
    QueueStep h.compare h.bag c (call h c).1 (call h c).2.bag ∧ (call h c).2.Valid P ∧
      (call h c).2.compare = h.compare := by
  cases c with
  | push item =>
    simp only [call, heapPush_code, heapPush_bag, heapPush_compare]
    exact ⟨.push, hv.push (hc item rfl), trivial⟩
  | min =>
    simp only [call, heapMin]
    split
    · rename_i hi
      have hz : h.bag = 0 := Multiset.card_eq_zero.1 (by rw [Heap.card_bag, hi])
      refine ⟨?_, hv, rfl⟩
      rw [hz]; exact .minNull
    · rename_i hi
      exact ⟨.min (hv.least hi), ⟨hv.pre, hv.mem, hv.ordered⟩, rfl⟩
  | size =>
    refine ⟨?_, hv, rfl⟩
    have hsize : QueueStep h.compare h.bag .size (.size h.bag.card) h.bag := .size
    rwa [Heap.card_bag] at hsize
  | empty =>
    refine ⟨.empty ?_, hv, rfl⟩
    rw [← Multiset.card_eq_zero, Heap.card_bag]
    simp [heapEmpty]
  | popMin =>
    refine ⟨?_, hv.popMin hlt.le, heapPopMin_compare h⟩
    simp only [call]
    by_cases hi : h.items = 0
    · have hz : h.bag = 0 := Multiset.card_eq_zero.1 (by rw [Heap.card_bag, hi])
      rw [heapPopMin_null hi, hz]
      exact .popNull
    · have hbag := heapPopMin_bag hi (by omega) fun x hx => hv.pre.refl (hv.mem x hx)
      have hleast := hv.least hi
      rw [heapPopMin_fst hi]
      rw [← hbag] at hleast ⊢
      exact .pop hleast

theorem calls_refine : ∀ (cs : List (Call α)) {h : Heap α}, h.Valid (fun _ => True) → Below h cs →
    QueueRun h.compare h.bag (calls h cs).1 (calls h cs).2.bag ∧
      (calls h cs).2.Valid (fun _ => True)
  | [], _, hv, _ => ⟨.nil, hv⟩
  | c :: cs, h, hv, hb => by
    obtain ⟨hstep, hv', hcmp⟩ := call_refines hv hb.1 c (fun _ _ => trivial)
    obtain ⟨hrun, hv''⟩ := calls_refine cs hv' hb.2
    rw [hcmp] at hrun
    exact ⟨.cons hstep hrun, hv''⟩

/-- An ordered heap stays ordered. -/
theorem calls_valid {P : α → Prop} : ∀ (cs : List (Call α)) {h : Heap α}, h.Valid P →
    (∀ item, .push item ∈ cs → P item) → Below h cs →
    (calls h cs).2.Valid P ∧ (calls h cs).2.compare = h.compare
  | [], _, hv, _, _ => ⟨hv, rfl⟩
  | c :: cs, h, hv, hP, hb => by
    obtain ⟨-, hv', hcmp⟩ := call_refines hv hb.1 c
      fun item e => hP item (by rw [e]; exact List.mem_cons_self)
    obtain ⟨hv'', hcmp'⟩ := calls_valid cs hv' (fun item h => hP item (List.mem_cons_of_mem _ h)) hb.2
    exact ⟨hv'', hcmp'.trans hcmp⟩

/-! ## Sorting with the heap -/

theorem pushes_valid : ∀ (xs : List α) {h : Heap α}, h.Valid (fun _ => True) →
    (calls h (xs.map .push)).2.Valid (fun _ => True) ∧
      (calls h (xs.map .push)).2.bag = (xs : Multiset α) + h.bag ∧
      (calls h (xs.map .push)).2.compare = h.compare
  | [], _, hv => ⟨hv, by simp [calls], rfl⟩
  | x :: xs, h, hv => by
    obtain ⟨hv', hbag, hcmp⟩ := pushes_valid xs (hv.push (trivial : (fun _ => True) x))
    refine ⟨hv', ?_, ?_⟩
    · simp only [List.map_cons, calls, call]
      rw [hbag, heapPush_bag, ← Multiset.cons_coe, Multiset.add_cons, Multiset.cons_add]
    · simp only [List.map_cons, calls, call]
      rw [hcmp, heapPush_compare]

/-- Popping until `NULL` gives the items in ascending order, each once. -/
theorem popUntilNull_sorted : ∀ (n : Nat) {h : Heap α}, h.Valid (fun _ => True) → h.items = n →
    n < 2 ^ 30 → ∃ out, popUntilNull (n + 1) h = some out ∧
      out.Pairwise (fun x y => h.compare x y ≤ 0) ∧ (out : Multiset α) = h.bag
  | 0, h, _, hi, _ => by
    refine ⟨[], ?_, List.Pairwise.nil, ?_⟩
    · simp only [popUntilNull, heapPopMin_null hi]
    · exact (Multiset.card_eq_zero.1 (by rw [Heap.card_bag, hi])).symm
  | n + 1, h, hv, hi, hn => by
    have hne : h.items ≠ 0 := by omega
    have hbag := heapPopMin_bag hne (by omega) fun x _ => hv.pre.refl (x := x) trivial
    obtain ⟨out, hout, hsorted, hmem⟩ := popUntilNull_sorted n (hv.popMin (by omega))
      (by rw [(heapPopMin_cell hne).2, hi]; rfl) (by omega)
    refine ⟨h.heap.cell 1 :: out, ?_, ?_, ?_⟩
    · rw [popUntilNull, show heapPopMin .block h = (some (h.heap.cell 1), (heapPopMin .block h).2)
        from Prod.ext (heapPopMin_fst hne) rfl]
      simp only [hout, Option.map_some]
    · rw [heapPopMin_compare] at hsorted
      refine List.Pairwise.cons (fun y hy => (hv.least hne).2 y ?_) hsorted
      rw [← hbag]
      exact Multiset.mem_cons_of_mem (by rw [← hmem]; exact Multiset.mem_coe.2 hy)
    · rw [← Multiset.cons_coe, hmem, hbag]

/-- **The heap refines a priority queue.** Every sequence of calls from `heap_init` with fewer than
`2^30` items gives the replies of a multiset queue, whose contents are the heap's items;
`heap_pop_min` answers what `heap_min` would; and pushing a list and popping until `NULL` sorts
it. -/
theorem heap_refines_queue (compare : α → α → Int) (hc : SignPreorder (fun _ => True) compare)
    (garbage : Nat → α) :
    (∀ cs, Below (heapInit .block garbage compare).2 cs →
      let r := calls (heapInit .block garbage compare).2 cs
      QueueRun compare 0 r.1 r.2.bag ∧ (heapPopMin .block r.2).1 = (heapMin r.2).1) ∧
    (∀ xs : List α, xs.length < 2 ^ 30 →
      ∃ out, popUntilNull (xs.length + 1)
          (calls (heapInit .block garbage compare).2 (xs.map .push)).2 = some out ∧
        out.Pairwise (fun x y => compare x y ≤ 0) ∧ out.Perm xs) := by
  have hv := heapInit_valid hc garbage
  constructor
  · intro cs hb
    exact ⟨(calls_refine cs hv hb).1, heapPopMin_fst_eq_heapMin _⟩
  · intro xs hlen
    obtain ⟨hv', hbag, hcmp⟩ := pushes_valid xs hv
    have hbag' : (calls (heapInit .block garbage compare).2 (xs.map .push)).2.bag = xs := by
      rw [hbag]; simp [heapInit, Heap.bag]
    obtain ⟨out, hout, hsorted, hmem⟩ := popUntilNull_sorted xs.length hv'
      (by rw [← Heap.card_bag, hbag', Multiset.coe_card]) hlen
    rw [hcmp] at hsorted
    exact ⟨out, hout, hsorted, Multiset.coe_eq_coe.1 (hmem.trans hbag')⟩

theorem signPreorder_sub : SignPreorder (fun _ => True) (fun x y : Int => x - y) where
  flip x y _ _ := by rw [← Int.sign_neg, Int.neg_sub]
  trans x y z _ _ _ hxy hyz := by omega

/-- The values and the order of `test/test_heap.c`. -/
theorem heap_refines_queue_test_values :
    ∃ out, popUntilNull 8 (calls (heapInit .block (fun _ => 0) (fun x y : Int => x - y)).2
        ([12, 2955, 7, 99, 51, 1, 691050].map .push)).2 = some out ∧
      out.Pairwise (fun x y => x - y ≤ 0) ∧ out.Perm [12, 2955, 7, 99, 51, 1, 691050] :=
  (heap_refines_queue _ signPreorder_sub (fun _ => 0)).2 [12, 2955, 7, 99, 51, 1, 691050]
    (by simp)

example : popUntilNull 4 (calls (heapInit .block (fun _ => 0) (fun x y : Int => x - y)).2
    ([12, 7, 99].map .push)).2 = some [7, 12, 99] := by decide

end Lwthread.Util
