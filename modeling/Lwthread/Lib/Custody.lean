import Mathlib.Data.Multiset.UnionInter

/-!
# Exclusive custody

Holders keep items, each holder a multiset of them. Custody is exclusive when no item is kept twice,
by one holder or by two. It stays exclusive when a holder gives items up, when a holder takes an item
that nobody keeps, and when items pass from one holder to another.
-/

namespace Custody

variable {ι α : Type*} {f g : ι → Multiset α}

/-- No item is kept twice. -/
structure Exclusive (f : ι → Multiset α) : Prop where
  nodup : ∀ i, (f i).Nodup
  inj : ∀ {i j x}, x ∈ f i → x ∈ f j → i = j

/-- Some holder keeps `x`. -/
def Held (f : ι → Multiset α) (x : α) : Prop := ∃ i, x ∈ f i

namespace Exclusive

theorem nodup_add (h : Exclusive f) {i j : ι} (hij : i ≠ j) : (f i + f j).Nodup :=
  Multiset.nodup_add.2 ⟨h.nodup i, h.nodup j,
    Multiset.disjoint_left.2 fun hi hj => hij (h.inj hi hj)⟩

/-- A holder may give items up. -/
theorem of_le (h : Exclusive f) (hle : ∀ i, g i ≤ f i) : Exclusive g where
  nodup i := Multiset.nodup_of_le (hle i) (h.nodup i)
  inj hi hj := h.inj (Multiset.mem_of_le (hle _) hi) (Multiset.mem_of_le (hle _) hj)

/-- A holder may take an item that nobody keeps. -/
theorem add (h : Exclusive f) {i : ι} {x : α} (hx : ¬Held f x) (hi : g i = x ::ₘ f i)
    (ho : ∀ j, j ≠ i → g j = f j) : Exclusive g where
  nodup j := by
    by_cases hj : j = i
    · subst hj
      rw [hi]
      exact Multiset.nodup_cons.2 ⟨fun hm => hx ⟨_, hm⟩, h.nodup _⟩
    · rw [ho j hj]
      exact h.nodup j
  inj {j k y} hj hk := by
    have hy : ∀ {l}, y ∈ g l → y ∈ f l ∨ l = i ∧ y = x := by
      intro l hl
      by_cases hli : l = i
      · subst hli
        rw [hi] at hl
        rcases Multiset.mem_cons.1 hl with rfl | hl
        · exact .inr ⟨rfl, rfl⟩
        · exact .inl hl
      · exact .inl (ho l hli ▸ hl)
    rcases hy hj with hj | ⟨rfl, rfl⟩ <;> rcases hy hk with hk | ⟨rfl, hkx⟩
    · exact h.inj hj hk
    · exact absurd ⟨_, hkx ▸ hj⟩ hx
    · exact absurd ⟨_, hk⟩ hx
    · rfl

/-- Items may pass from `i` to `j`. -/
theorem pass (h : Exclusive f) {i j : ι} (hij : i ≠ j) (hsum : g i + g j = f i + f j)
    (ho : ∀ k, k ≠ i → k ≠ j → g k = f k) : Exclusive g := by
  have hnd : (g i + g j).Nodup := hsum ▸ h.nodup_add hij
  have hmem : ∀ {k x}, x ∈ g k → (k = i ∨ k = j) ∧ x ∈ f i + f j ∨ (k ≠ i ∧ k ≠ j) ∧ x ∈ f k := by
    intro k x hk
    by_cases hki : k = i
    · exact .inl ⟨.inl hki, hsum ▸ Multiset.mem_add.2 (.inl (hki ▸ hk))⟩
    · by_cases hkj : k = j
      · exact .inl ⟨.inr hkj, hsum ▸ Multiset.mem_add.2 (.inr (hkj ▸ hk))⟩
      · exact .inr ⟨⟨hki, hkj⟩, ho k hki hkj ▸ hk⟩
  have hother : ∀ {k x}, k ≠ i → k ≠ j → x ∈ f k → x ∉ f i + f j := by
    intro k x hki hkj hk hx
    rcases Multiset.mem_add.1 hx with hx | hx
    · exact hki (h.inj hk hx)
    · exact hkj (h.inj hk hx)
  refine ⟨fun k => ?_, fun {k l x} hk hl => ?_⟩
  · by_cases hki : k = i
    · exact hki ▸ (Multiset.nodup_add.1 hnd).1
    · by_cases hkj : k = j
      · exact hkj ▸ (Multiset.nodup_add.1 hnd).2.1
      · exact ho k hki hkj ▸ h.nodup k
  · have hdis := (Multiset.nodup_add.1 hnd).2.2
    rcases hmem hk with ⟨hkij, hxk⟩ | ⟨⟨hki, hkj⟩, hxk⟩ <;>
      rcases hmem hl with ⟨hlij, hxl⟩ | ⟨⟨hli, hlj⟩, hxl⟩
    · rcases hkij with rfl | rfl <;> rcases hlij with rfl | rfl
      · rfl
      · exact absurd hl (Multiset.disjoint_left.1 hdis hk)
      · exact absurd hk (Multiset.disjoint_left.1 hdis hl)
      · rfl
    · exact absurd hxk (hother hli hlj hxl)
    · exact absurd hxl (hother hki hkj hxk)
    · exact h.inj hxk hxl

end Exclusive

end Custody
