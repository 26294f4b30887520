import Mathlib.Algebra.Order.Interval.Finset.SuccPred
import Mathlib.Order.Interval.Finset.Nat
import Mathlib.Algebra.Order.SuccPred
import Mathlib.Data.Nat.SuccPred
import Mathlib.Data.Fintype.Perm

/-!
# Binary heaps with a hole

The slots of a binary heap are `1, …, n`, the parent of `i` is `i / 2`. A sift loop carries a hole
at one slot and an element to place; `Function.update f hole x` is the heap with the element
placed, and moving the hole to a neighbour `j` exchanges the elements at `hole` and `j` (`swapAt`).
The bag of the elements (`bag`) is unchanged by an exchange inside the heap (`bag_swapAt`). The
order is kept up to the edges of the hole: `UpReady` while the hole rises, `DownReady` while it
sinks, each with a rule for one move and a rule for the stop.
-/

namespace Hole

variable {α : Type*}

/-! ## The bag of the slots `1, …, n` -/

/-- The elements of the slots `1, …, n`, with multiplicity. -/
def bag (f : Nat → α) (n : Nat) : Multiset α := (Finset.Icc 1 n).val.map f

@[simp] theorem bag_zero (f : Nat → α) : bag f 0 = 0 := rfl

theorem bag_succ (f : Nat → α) (n : Nat) : bag f (n + 1) = f (n + 1) ::ₘ bag f n := by
  have hins : insert (n + 1) (Finset.Icc 1 n) = Finset.Icc 1 (n + 1) :=
    Finset.insert_Icc_right_eq_Icc_add_one (by omega)
  unfold bag
  rw [← hins, Finset.insert_val_of_notMem (by simp), Multiset.map_cons]

@[simp] theorem card_bag (f : Nat → α) (n : Nat) : (bag f n).card = n := by
  simp [bag]

theorem mem_bag {f : Nat → α} {n : Nat} {x : α} :
    x ∈ bag f n ↔ ∃ i, (1 ≤ i ∧ i ≤ n) ∧ f i = x := by
  simp [bag]

theorem bag_congr {f g : Nat → α} {n : Nat} (h : ∀ i, 1 ≤ i → i ≤ n → f i = g i) :
    bag f n = bag g n := by
  apply Multiset.map_congr rfl
  intro i hi
  obtain ⟨h1, h2⟩ : 1 ≤ i ∧ i ≤ n := by simpa using hi
  exact h i h1 h2

/-- Taking the element of slot `i` out leaves the bag with another element in its place. -/
theorem bag_update (f : Nat → α) {n i : Nat} (h₁ : 1 ≤ i) (h₂ : i ≤ n) (x : α) :
    f i ::ₘ bag (Function.update f i x) n = x ::ₘ bag f n := by
  have hi : i ∈ Finset.Icc 1 n := Finset.mem_Icc.2 ⟨h₁, h₂⟩
  unfold bag
  rw [← Finset.insert_erase hi, Finset.insert_val_of_notMem (Finset.notMem_erase _ _),
    Multiset.map_cons, Multiset.map_cons, Function.update_self, Multiset.cons_swap]
  congr 2
  apply Multiset.map_congr rfl
  intro j hj
  have hnot : i ∉ ((Finset.Icc 1 n).erase i).val := (Finset.Icc 1 n).nodup.notMem_erase
  exact Function.update_of_ne (ne_of_mem_of_not_mem hj hnot) _ _

/-! ## Exchanging two slots -/

/-- The heap `f` with the elements of the slots `i` and `j` exchanged. -/
def swapAt (f : Nat → α) (i j : Nat) : Nat → α := Function.update (Function.update f i (f j)) j (f i)

theorem swapAt_eq_comp (f : Nat → α) (i j : Nat) : swapAt f i j = f ∘ Equiv.swap i j := by
  funext k
  unfold swapAt
  by_cases hj : k = j
  · subst hj; simp
  · by_cases hi : k = i
    · subst hi; simp [Function.update_of_ne hj]
    · simp [Function.update_of_ne hj, Function.update_of_ne hi, Equiv.swap_apply_of_ne_of_ne hi hj]

theorem swapAt_left (f : Nat → α) {i j : Nat} (h : i ≠ j) : swapAt f i j i = f j := by
  simp [swapAt, Function.update_of_ne h]

theorem swapAt_right (f : Nat → α) (i j : Nat) : swapAt f i j j = f i := by
  simp [swapAt]

theorem swapAt_other (f : Nat → α) {i j k : Nat} (hi : k ≠ i) (hj : k ≠ j) :
    swapAt f i j k = f k := by
  simp [swapAt, Function.update_of_ne hj, Function.update_of_ne hi]

/-- Moving the hole from `i` to `j` is an exchange of the two slots. -/
theorem update_move (f : Nat → α) {i j : Nat} (h : j ≠ i) (x : α) :
    Function.update (Function.update f i (f j)) j x = swapAt (Function.update f i x) i j := by
  unfold swapAt
  rw [Function.update_of_ne h, Function.update_self, Function.update_idem]

theorem bag_swapAt (f : Nat → α) {n i j : Nat} (hi : 1 ≤ i ∧ i ≤ n) (hj : 1 ≤ j ∧ j ≤ n) :
    bag (swapAt f i j) n = bag f n := by
  have himg : (Finset.Icc 1 n).map (Equiv.swap i j).toEmbedding = Finset.Icc 1 n := by
    apply Finset.map_perm
    intro k hk
    have hk' : Equiv.swap i j k ≠ k := hk
    by_cases h1 : k = i
    · subst h1; simpa using hi
    · by_cases h2 : k = j
      · subst h2; simpa using hj
      · exact absurd (Equiv.swap_apply_of_ne_of_ne h1 h2) hk'
  unfold bag
  rw [swapAt_eq_comp, ← Multiset.map_map]
  conv_rhs => rw [← himg]
  rfl

/-! ## Order up to the edges of the hole -/

section Order

variable {le : α → α → Prop} {P : α → Prop}

/-- Every element is at or above its parent. -/
def Ordered (le : α → α → Prop) (f : Nat → α) (n : Nat) : Prop :=
  ∀ i, 2 ≤ i → i ≤ n → le (f (i / 2)) (f i)

/-- The root is at or below every element. -/
theorem Ordered.root_le {f : Nat → α} {n : Nat} (hrefl : ∀ x, P x → le x x)
    (htrans : ∀ x y z, P x → P y → P z → le x y → le y z → le x z)
    (hP : ∀ i, 1 ≤ i → i ≤ n → P (f i)) (h : Ordered le f n) :
    ∀ i, 1 ≤ i → i ≤ n → le (f 1) (f i) := by
  intro i
  induction i using Nat.strongRecOn with
  | _ i ih =>
    intro h1 hn
    by_cases hi : i = 1
    · subst hi; exact hrefl _ (hP 1 h1 hn)
    · exact htrans _ _ _ (hP 1 (by omega) (by omega)) (hP _ (by omega) (by omega)) (hP i h1 hn)
        (ih (i / 2) (by omega) (by omega) (by omega)) (h i (by omega) hn)

/-- The heap is ordered but for the edge into `i`; the children of `i` are at or above the parent
of `i`, so that an exchange with the parent keeps the edges out of `i`. -/
structure UpReady (le : α → α → Prop) (f : Nat → α) (n i : Nat) : Prop where
  except : ∀ j, 2 ≤ j → j ≤ n → j ≠ i → le (f (j / 2)) (f j)
  grand : 2 ≤ i → ∀ j, 2 ≤ j → j ≤ n → j / 2 = i → le (f (i / 2)) (f j)

theorem UpReady.move {f : Nat → α} {n i : Nat}
    (htrans : ∀ x y z, P x → P y → P z → le x y → le y z → le x z)
    (hP : ∀ i, 1 ≤ i → i ≤ n → P (f i)) (h : UpReady le f n i) (h2 : 2 ≤ i) (hn : i ≤ n)
    (hle : le (f i) (f (i / 2))) : UpReady le (swapAt f i (i / 2)) n (i / 2) := by
  have hpi : i ≠ i / 2 := by omega
  constructor
  · intro j hj hjn hjp
    by_cases hji : j = i
    · subst hji
      rw [swapAt_right, swapAt_left _ hpi]
      exact hle
    · rw [swapAt_other f hji hjp]
      by_cases hpj : j / 2 = i
      · -- a child of the old hole: its new parent is the old parent of the hole
        rw [hpj, swapAt_left _ hpi]
        exact h.grand h2 j hj hjn hpj
      · by_cases hpp : j / 2 = i / 2
        · -- the sibling of the old hole
          rw [hpp, swapAt_right]
          have hs := h.except j hj hjn hji
          rw [hpp] at hs
          exact htrans _ _ _ (hP i (by omega) hn) (hP _ (by omega) (by omega))
            (hP j (by omega) hjn) hle hs
        · rw [swapAt_other f hpj hpp]
          exact h.except j hj hjn hji
  · intro hp2 j hj hjn hjp
    rw [swapAt_other f (k := i / 2 / 2) (by omega) (by omega)]
    have hup := h.except (i / 2) hp2 (by omega) (by omega)
    by_cases hji : j = i
    · subst hji
      rw [swapAt_left _ hpi]
      exact hup
    · rw [swapAt_other f hji (by omega)]
      have hs := h.except j hj hjn hji
      rw [hjp] at hs
      exact htrans _ _ _ (hP _ (by omega) (by omega)) (hP _ (by omega) (by omega))
        (hP j (by omega) hjn) hup hs

theorem UpReady.finish {f : Nat → α} {n i : Nat} (h : UpReady le f n i)
    (hstop : 2 ≤ i → le (f (i / 2)) (f i)) : Ordered le f n := by
  intro j hj hjn
  by_cases hji : j = i
  · subst hji; exact hstop hj
  · exact h.except j hj hjn hji

/-- The heap is ordered but for the edges out of `i`; the children of `i` are at or above the
parent of `i`, so that an exchange with a child keeps the edge into `i`. -/
structure DownReady (le : α → α → Prop) (f : Nat → α) (n i : Nat) : Prop where
  except : ∀ j, 2 ≤ j → j ≤ n → j / 2 ≠ i → le (f (j / 2)) (f j)
  grand : 2 ≤ i → ∀ j, 2 ≤ j → j ≤ n → j / 2 = i → le (f (i / 2)) (f j)

theorem DownReady.move {f : Nat → α} {n i c : Nat} (h : DownReady le f n i) (hi : 1 ≤ i)
    (hc : c / 2 = i) (hcn : c ≤ n) (hle : le (f c) (f i))
    (hmin : ∀ j, 2 ≤ j → j ≤ n → j / 2 = i → j ≠ c → le (f c) (f j)) :
    DownReady le (swapAt f i c) n c := by
  have hic : i ≠ c := by omega
  constructor
  · intro j hj hjn hjc
    by_cases hjh : j = i
    · subst hjh
      rw [swapAt_left _ hic, swapAt_other f (by omega) (by omega)]
      exact h.grand hj c (by omega) hcn hc
    · by_cases hjeq : j = c
      · subst hjeq
        rw [swapAt_right, hc, swapAt_left _ hic]
        exact hle
      · rw [swapAt_other f hjh hjeq]
        by_cases hpj : j / 2 = i
        · rw [hpj, swapAt_left _ hic]
          exact hmin j hj hjn hpj hjeq
        · rw [swapAt_other f hpj hjc]
          exact h.except j hj hjn hpj
  · intro _ j hj hjn hjc
    rw [hc, swapAt_left _ hic, swapAt_other f (by omega) (by omega)]
    have := h.except j hj hjn (by omega)
    rwa [hjc] at this

theorem DownReady.finish {f : Nat → α} {n i : Nat} (h : DownReady le f n i)
    (hstop : ∀ j, 2 ≤ j → j ≤ n → j / 2 = i → le (f i) (f j)) : Ordered le f n := by
  intro j hj hjn
  by_cases hji : j / 2 = i
  · rw [hji]; exact hstop j hj hjn hji
  · exact h.except j hj hjn hji

end Order

end Hole
