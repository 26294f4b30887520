import Lwthread.Util.HeapSift

/-!
# What a push and a pop do to the items

The items of a heap are the bag of its slots `1, …, items`. A push adds the item and a pop takes
the root out, for every comparator that puts no item before itself (`pushItem_bag`, `popItem_bag`):
the slot past the live range that the sift-down loop may read still holds the new root, so no
element enters from outside. For a comparator whose sign is a total preorder on the items both keep
the heap ordered (`pushItem_ordered`, `popItem_ordered`), the pop below `2^30` items, where its
`int` arithmetic is exact.
-/

namespace Lwthread.Util

variable {α : Type}

/-- The items stored in a heap. -/
def Heap.bag (h : Heap α) : Multiset α := Hole.bag h.heap.cell h.items

@[simp] theorem Heap.card_bag (h : Heap α) : h.bag.card = h.items := Hole.card_bag _ _

theorem Heap.cell_one_mem {h : Heap α} (hi : h.items ≠ 0) : h.heap.cell 1 ∈ h.bag :=
  Hole.mem_bag.2 ⟨1, ⟨le_rfl, by omega⟩, rfl⟩

/-- The sign of `compare` is a total preorder on the elements of `P`. -/
structure SignPreorder (P : α → Prop) (compare : α → α → Int) : Prop where
  flip : ∀ x y, P x → P y → (compare x y).sign = -(compare y x).sign
  trans : ∀ x y z, P x → P y → P z → compare x y ≤ 0 → compare y z ≤ 0 → compare x z ≤ 0

namespace SignPreorder

variable {P : α → Prop} {compare : α → α → Int} (h : SignPreorder P compare)

include h

theorem le_of_pos {x y : α} (hx : P x) (hy : P y) (hpos : 0 < compare x y) : compare y x ≤ 0 := by
  have hs := h.flip x y hx hy
  rw [Int.sign_eq_one_of_pos hpos] at hs
  exact (Int.sign_eq_neg_one_iff_neg.1 (by omega)).le

theorem le_of_nonneg {x y : α} (hx : P x) (hy : P y) (hge : 0 ≤ compare x y) :
    compare y x ≤ 0 := by
  rcases hge.lt_or_eq with hlt | heq
  · exact h.le_of_pos hx hy hlt
  · have hs := h.flip x y hx hy
    rw [← heq, Int.sign_zero] at hs
    exact (Int.sign_eq_zero_iff_zero.1 (by omega)).le

theorem refl {x : α} (hx : P x) : compare x x ≤ 0 := by
  rcases le_total (compare x x) 0 with hle | hge
  · exact hle
  · exact h.le_of_nonneg hx hx hge

omit h in
/-- A comparator with the sign of the difference of integer keys. -/
theorem of_key (key : α → Int)
    (hsign : ∀ x y, P x → P y → (compare x y).sign = (key x - key y).sign) :
    SignPreorder P compare := by
  have hle : ∀ x y, P x → P y → (compare x y ≤ 0 ↔ key x ≤ key y) := by
    intro x y hx hy
    rw [← Int.sign_nonpos_iff, hsign x y hx hy, Int.sign_nonpos_iff]
    omega
  refine ⟨fun x y hx hy => ?_, fun x y z hx hy hz hxy hyz => ?_⟩
  · rw [hsign x y hx hy, hsign y x hy hx, ← Int.sign_neg, Int.neg_sub]
  · rw [hle _ _ hx hy] at hxy
    rw [hle _ _ hy hz] at hyz
    rw [hle _ _ hx hz]
    exact hxy.trans hyz

end SignPreorder

/-! ## Pushing -/

section Push

variable (h : Heap α) (item : α)

@[simp] theorem pushItem_items : (pushItem h item).items = h.items + 1 := rfl
@[simp] theorem pushItem_size : (pushItem h item).size = h.size := rfl
@[simp] theorem pushItem_compare : (pushItem h item).compare = h.compare := rfl

/-- The block and the hole at the end of the loop of `heap_push`. -/
theorem pushItem_cell : ∃ b current, (pushItem h item).heap.cell = Function.update b current item ∧
    (1 ≤ current ∧ current ≤ h.items + 1) ∧
    Hole.bag (Function.update b current item) (h.items + 1) = item ::ₘ h.bag ∧
    (1 < current → h.compare (b (current / 2)) item ≤ 0) ∧
    ∀ {P : α → Prop}, SignPreorder P h.compare → P item → (∀ x ∈ h.bag, P x) →
      Hole.Ordered (fun x y => h.compare x y ≤ 0) h.heap.cell h.items →
      Hole.UpReady (fun x y => h.compare x y ≤ 0) (Function.update b current item) (h.items + 1)
        current := by
  -- the invariant: with the item in the hole, nothing but the edge into the hole is out of order
  let I : Block α → Nat → Prop := fun b current => (1 ≤ current ∧ current ≤ h.items + 1) ∧
    Hole.bag (Function.update b.cell current item) (h.items + 1) = item ::ₘ h.bag ∧
    ∀ {P : α → Prop}, SignPreorder P h.compare → P item → (∀ x ∈ h.bag, P x) →
      Hole.Ordered (fun x y => h.compare x y ≤ 0) h.heap.cell h.items →
      Hole.UpReady (fun x y => h.compare x y ≤ 0) (Function.update b.cell current item)
        (h.items + 1) current
  have hinit : I (h.heap.store (h.items + 1) item) (h.items + 1) := by
    refine ⟨⟨by omega, le_rfl⟩, ?_, ?_⟩
    · rw [Block.store_cell, Function.update_idem, Hole.bag_succ, Function.update_self]
      congr 1
      exact Hole.bag_congr fun i _ hi => Function.update_of_ne (by omega) _ _
    · intro P _ _ _ hord
      rw [Block.store_cell, Function.update_idem]
      constructor
      · intro j hj hjn hjne
        rw [Function.update_of_ne (by omega), Function.update_of_ne hjne]
        exact hord j hj (by omega)
      · intro _ j hj hjn hjp
        omega
  have hmove : ∀ b current, I b current → 1 < current → h.compare (b.cell (current / 2)) item > 0 →
      I (b.store current (b.cell (current / 2))) (current / 2) := by
    intro b current hI hc hgt
    obtain ⟨⟨hc1, hcn⟩, hbag, hord⟩ := hI
    have hne : current / 2 ≠ current := by omega
    refine ⟨⟨by omega, by omega⟩, ?_, ?_⟩
    · rw [Block.store_cell, Hole.update_move _ hne,
        Hole.bag_swapAt _ ⟨hc1, hcn⟩ ⟨by omega, by omega⟩, hbag]
    · intro P hpre hitem hmem hheap
      rw [Block.store_cell, Hole.update_move _ hne]
      have hP : ∀ i, 1 ≤ i → i ≤ h.items + 1 → P (Function.update b.cell current item i) := by
        intro i hi hin
        have hm : Function.update b.cell current item i ∈ item ::ₘ h.bag := by
          rw [← hbag]
          exact Hole.mem_bag.2 ⟨i, ⟨hi, hin⟩, rfl⟩
        rcases Multiset.mem_cons.1 hm with he | hm
        · rw [he]; exact hitem
        · exact hmem _ hm
      refine (hord hpre hitem hmem hheap).move hpre.trans hP (by omega) hcn ?_
      have hPp := hP (current / 2) (by omega) (by omega)
      rw [Function.update_of_ne hne] at hPp
      rw [Function.update_self, Function.update_of_ne hne]
      exact hpre.le_of_pos hPp hitem hgt
  obtain ⟨⟨hr, hbag, hord⟩, hstop⟩ := siftUp_rule h.compare item I (fun b c hI _ => hI) hmove (h.items + 1)
    (h.heap.store (h.items + 1) item) (h.items + 1) hinit le_rfl
  exact ⟨_, _, rfl, hr, hbag, hstop, hord⟩

/-- `heap_push` adds the item and nothing else. -/
theorem pushItem_bag : (pushItem h item).bag = item ::ₘ h.bag := by
  obtain ⟨b, current, hcell, -, hbag, -, -⟩ := pushItem_cell h item
  unfold Heap.bag
  rw [hcell, pushItem_items]
  exact hbag

theorem pushItem_ordered {P : α → Prop} (hpre : SignPreorder P h.compare) (hitem : P item)
    (hmem : ∀ x ∈ h.bag, P x)
    (hord : Hole.Ordered (fun x y => h.compare x y ≤ 0) h.heap.cell h.items) :
    Hole.Ordered (fun x y => h.compare x y ≤ 0) (pushItem h item).heap.cell
      (pushItem h item).items := by
  obtain ⟨b, current, hcell, hc, -, hstop, hup⟩ := pushItem_cell h item
  rw [hcell, pushItem_items]
  refine (hup hpre hitem hmem hord).finish fun h2 => ?_
  rw [Function.update_self, Function.update_of_ne (by omega)]
  exact hstop (by omega)

end Push

/-! ## Popping -/

section Pop

variable {h : Heap α}

@[simp] theorem popItem_items : (popItem h).2.items = h.items - 1 := rfl
@[simp] theorem popItem_size : (popItem h).2.size = h.size := rfl
@[simp] theorem popItem_compare : (popItem h).2.compare = h.compare := rfl
@[simp] theorem popItem_fst : (popItem h).1 = h.heap.cell 1 := rfl

/-- What the loop of `heap_pop_min` preserves over `n` remaining items, with the hole at `p`. -/
structure Sinking (compare : α → α → Int) (root : α) (s : Multiset α) (n : Nat) (ord : Prop)
    (f : Nat → α) (p : Nat) : Prop where
  pos : 1 ≤ p
  live : p ≤ n ∨ n = 0
  stale : f (n + 1) = root
  bag : Hole.bag (Function.update f p root) n = s
  ready : ord → Hole.DownReady (fun x y => compare x y ≤ 0) (Function.update f p root) n p

variable {compare : α → α → Int} {root : α} {s : Multiset α} {n : Nat} {f : Nat → α} {p c : Nat}

/-- A child that is picked is a live slot: past the live range the loop reads the new root. -/
theorem Picks.live (hrefl : compare root root ≤ 0) (hstale : f (n + 1) = root) (h2 : 2 * p ≤ n)
    (hpick : Picks compare root n f p c) : c ≤ n := by
  cases hpick with
  | only => exact h2
  | left => exact h2
  | right _ hr => exact hr
  | unguarded _ hgt =>
    rcases Nat.lt_or_ge n (2 * p + 1) with hlt | hge
    · have he : 2 * p + 1 = n + 1 := by omega
      rw [he, hstale] at hgt
      omega
    · exact hge

/-- The child that is picked is before the new root and before its sibling. -/
theorem Picks.least {P : α → Prop} (hpre : SignPreorder P compare) (hroot : P root)
    (hP : ∀ i, p < i → i ≤ n → P (f i)) (hp : 1 ≤ p) (hcn : c ≤ n)
    (hpick : Picks compare root n f p c) :
    compare (f c) root ≤ 0 ∧ ∀ j, 2 ≤ j → j ≤ n → j / 2 = p → j ≠ c → compare (f c) (f j) ≤ 0 := by
  cases hpick with
  | only hl hr =>
    exact ⟨hpre.le_of_pos hroot (hP _ (by omega) hcn) hl, fun j _ hjn hjp hjc => by omega⟩
  | left hl hr hlt =>
    refine ⟨hpre.le_of_pos hroot (hP _ (by omega) hcn) hl, fun j _ hjn hjp hjc => ?_⟩
    have hj : j = 2 * p + 1 := by omega
    rw [hj]; exact hlt.le
  | right hl hr hge =>
    have hPl := hP (2 * p) (by omega) (by omega)
    have hPr := hP (2 * p + 1) (by omega) hcn
    have hrl := hpre.le_of_nonneg hPl hPr hge
    refine ⟨hpre.trans _ _ _ hPr hPl hroot hrl (hpre.le_of_pos hroot hPl hl),
      fun j _ hjn hjp hjc => ?_⟩
    have hj : j = 2 * p := by omega
    rw [hj]; exact hrl
  | unguarded hl hgt =>
    have hPl := hP (2 * p) (by omega) (by omega)
    have hPr := hP (2 * p + 1) (by omega) hcn
    have hrr := hpre.le_of_pos hroot hPr hgt
    refine ⟨hrr, fun j _ hjn hjp hjc => ?_⟩
    have hj : j = 2 * p := by omega
    rw [hj]; exact hpre.trans _ _ _ hPr hroot hPl hrr hl

theorem Sinking.move {ord : Prop} {P : α → Prop} (hrefl : compare root root ≤ 0)
    (hord : ord → SignPreorder P compare ∧ P root ∧ ∀ x ∈ s, P x)
    (hs : Sinking compare root s n ord f p) (h2 : 2 * p ≤ n)
    (hpick : Picks compare root n f p c) :
    Sinking compare root s n ord (Function.update f p (f c)) c := by
  have hcn : c ≤ n := hpick.live hrefl hs.stale h2
  have hp := hs.pos
  have hchild := hpick.child
  have hcp : c ≠ p := by omega
  constructor
  · omega
  · exact Or.inl hcn
  · rw [Function.update_of_ne (by omega)]; exact hs.stale
  · rw [Hole.update_move _ hcp, Hole.bag_swapAt _ ⟨hp, by omega⟩ ⟨by omega, hcn⟩]
    exact hs.bag
  · intro ho
    obtain ⟨hpre, hroot, hmem⟩ := hord ho
    have hP : ∀ i, 1 ≤ i → i ≤ n → P (Function.update f p root i) := fun i hi hin =>
      hmem _ (by rw [← hs.bag]; exact Hole.mem_bag.2 ⟨i, ⟨hi, hin⟩, rfl⟩)
    have hP' : ∀ i, p < i → i ≤ n → P (f i) := by
      intro i hi hin
      have := hP i (by omega) hin
      rwa [Function.update_of_ne (by omega)] at this
    obtain ⟨hle, hmin⟩ := hpick.least hpre hroot hP' hp hcn
    rw [Hole.update_move _ hcp]
    refine (hs.ready ho).move hp (by omega) hcn ?_ ?_
    · rw [Function.update_of_ne hcp, Function.update_self]; exact hle
    · intro j hj hjn hjp hjc
      rw [Function.update_of_ne hcp, Function.update_of_ne (by omega)]
      exact hmin j hj hjn hjp hjc

theorem Sinking.finish {ord : Prop} (hs : Sinking compare root s n ord f p) (hn : n < 2 ^ 30)
    (hstop : Stops compare root n f p) (ho : ord) :
    Hole.Ordered (fun x y => compare x y ≤ 0) (Function.update f p root) n := by
  refine (hs.ready ho).finish fun j hj hjn hjp => ?_
  have hp := hs.pos
  rw [Function.update_self, Function.update_of_ne (by omega)]
  rcases hstop with hlt | hbig | ⟨hl, hr⟩
  · omega
  · rcases hs.live with hlive | hlive <;> omega
  · rcases (by omega : j = 2 * p ∨ j = 2 * p + 1) with rfl | rfl
    · exact hl
    · exact hr

/-- The items that remain when the last one is put in the place of the root. -/
theorem bag_root (hi : h.items ≠ 0) :
    h.heap.cell 1 ::ₘ Hole.bag (Function.update h.heap.cell 1 (h.heap.cell h.items)) (h.items - 1) =
      h.bag := by
  obtain ⟨k, hk⟩ := Nat.exists_eq_succ_of_ne_zero hi
  unfold Heap.bag
  rw [hk, Nat.succ_sub_one, Nat.succ_eq_add_one, Hole.bag_succ]
  rcases Nat.eq_zero_or_pos k with rfl | hpos
  · simp
  · exact Hole.bag_update _ le_rfl hpos _

/-- The loop of `heap_pop_min`, from the last item in the place of the root to its end. -/
theorem popItem_cell (P : α → Prop) (hi : h.items ≠ 0) (hlt : h.items ≤ 2 ^ 63)
    (hrefl : ∀ x ∈ h.bag, h.compare x x ≤ 0) :
    ∃ f q, (popItem h).2.heap.cell = Function.update f q (h.heap.cell h.items) ∧
      Sinking h.compare (h.heap.cell h.items)
        (Hole.bag (Function.update h.heap.cell 1 (h.heap.cell h.items)) (h.items - 1)) (h.items - 1)
        (SignPreorder P h.compare ∧ (∀ x ∈ h.bag, P x) ∧
          Hole.Ordered (fun x y => h.compare x y ≤ 0) h.heap.cell h.items) f q ∧
      Stops h.compare (h.heap.cell h.items) (h.items - 1) f q := by
  have hroot : h.heap.cell h.items ∈ h.bag := Hole.mem_bag.2 ⟨h.items, ⟨by omega, le_rfl⟩, rfl⟩
  have hsub : ∀ x ∈ Hole.bag (Function.update h.heap.cell 1 (h.heap.cell h.items)) (h.items - 1),
      x ∈ h.bag := fun x hx => by
    rw [← bag_root hi]; exact Multiset.mem_cons_of_mem hx
  have hinit : Sinking h.compare (h.heap.cell h.items)
      (Hole.bag (Function.update h.heap.cell 1 (h.heap.cell h.items)) (h.items - 1)) (h.items - 1)
      (SignPreorder P h.compare ∧ (∀ x ∈ h.bag, P x) ∧
        Hole.Ordered (fun x y => h.compare x y ≤ 0) h.heap.cell h.items)
      (Function.update h.heap.cell 1 (h.heap.cell h.items)) 1 := by
    constructor
    · exact le_rfl
    · omega
    · rw [Nat.sub_add_cancel (by omega)]
      rcases Nat.eq_or_lt_of_le (by omega : 1 ≤ h.items) with he | hgt
      · rw [← he, Function.update_self]
      · rw [Function.update_of_ne (by omega)]
    · rw [Function.update_idem]
    · rintro ⟨-, -, hord⟩
      rw [Function.update_idem]
      constructor
      · intro j hj hjn hjp
        rw [Function.update_of_ne (by omega), Function.update_of_ne (by omega)]
        exact hord j hj (by omega)
      · intro h2; omega
  obtain ⟨q, hq, -, -, hsink, hstop⟩ := siftDown_rule h.compare (h.heap.cell h.items)
    (by omega : h.items - 1 < 2 ^ 63)
    (fun b p => Sinking h.compare (h.heap.cell h.items)
      (Hole.bag (Function.update h.heap.cell 1 (h.heap.cell h.items)) (h.items - 1)) (h.items - 1)
      (SignPreorder P h.compare ∧ (∀ x ∈ h.bag, P x) ∧
        Hole.Ordered (fun x y => h.compare x y ≤ 0) h.heap.cell h.items) b.cell p)
    (fun b p i hs _ _ => hs)
    (fun b p c hs _ h2 hpick => hs.move (hrefl _ hroot)
      (fun ho => ⟨ho.1, ho.2.1 _ hroot, fun x hx => ho.2.1 x (hsub x hx)⟩) h2 hpick)
    (h.items - 1) ((((h.heap.touch 1).touch h.items).store 1 (h.heap.cell h.items)).touch 1) 1 hinit
    le_rfl (by omega) (by omega) (by omega)
  refine ⟨_, q, ?_, hsink, hstop⟩
  simp only [popItem, Block.store_cell, Block.touch_cell, Function.update_self]
  rw [show ((1 : Nat) : Int) = 1 from rfl] at hq
  rw [hq]
  rfl

/-- `heap_pop_min` takes the root out and nothing else. -/
theorem popItem_bag (hi : h.items ≠ 0) (hlt : h.items ≤ 2 ^ 63)
    (hrefl : ∀ x ∈ h.bag, h.compare x x ≤ 0) :
    h.heap.cell 1 ::ₘ (popItem h).2.bag = h.bag := by
  obtain ⟨f, q, hcell, hsink, -⟩ := popItem_cell (fun _ => True) hi hlt hrefl
  conv_rhs => rw [← bag_root hi, ← hsink.bag]
  unfold Heap.bag
  rw [hcell, popItem_items]

theorem popItem_ordered {P : α → Prop} (hi : h.items ≠ 0) (hlt : h.items ≤ 2 ^ 30)
    (hpre : SignPreorder P h.compare) (hmem : ∀ x ∈ h.bag, P x)
    (hord : Hole.Ordered (fun x y => h.compare x y ≤ 0) h.heap.cell h.items) :
    Hole.Ordered (fun x y => h.compare x y ≤ 0) (popItem h).2.heap.cell (popItem h).2.items := by
  obtain ⟨f, q, hcell, hsink, hstop⟩ :=
    popItem_cell P hi (by omega) fun x hx => hpre.refl (hmem x hx)
  rw [hcell, popItem_items]
  exact hsink.finish (by omega) hstop ⟨hpre, hmem, hord⟩

end Pop

end Lwthread.Util
