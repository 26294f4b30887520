import Lwthread.Util.Heap

/-!
# The two loops of the heap

One rule for each `while` loop: what its iterations preserve holds at its end, together with the
negation of its condition. The rule for `siftDown` reads `parent`, `left` and `right` as natural
numbers; below `2^30` the `int` arithmetic of the loop is exact, and from `2^30` on the product
`parent * 2` is negative as an `int`, hence larger than `items` as a `size_t`, and the loop ends.
-/

namespace Lwthread.Util

variable {α : Type} {compare : α → α → Int}

/-! ## The loop of `heap_push` -/

theorem siftUp_rule (compare : α → α → Int) (item : α) (I : Block α → Nat → Prop)
    (htouch : ∀ b current, I b current → 1 < current → I (b.touch (current / 2)) current)
    (hmove : ∀ b current, I b current → 1 < current → compare (b.cell (current / 2)) item > 0 →
      I (b.store current (b.cell (current / 2))) (current / 2)) :
    ∀ fuel b current, I b current → current ≤ fuel →
      I (siftUp compare item fuel b current).1 (siftUp compare item fuel b current).2 ∧
        (1 < (siftUp compare item fuel b current).2 →
          compare ((siftUp compare item fuel b current).1.cell
            ((siftUp compare item fuel b current).2 / 2)) item ≤ 0) := by
  intro fuel
  induction fuel with
  | zero =>
    intro b current h hf
    exact ⟨h, fun hc => by simp only [siftUp] at hc; omega⟩
  | succ fuel ih =>
    intro b current h hf
    simp only [siftUp]
    split
    · rename_i hc
      have h1 := htouch b current h hc
      split
      · rename_i hgt
        have h2 := htouch _ _ h1 hc
        exact ih _ _ (hmove _ _ h2 hc hgt) (by omega)
      · rename_i hle
        exact ⟨h1, fun _ => by simpa using hle⟩
    · rename_i hc
      exact ⟨h, fun hc' => absurd hc' hc⟩

/-! ## The loop of `heap_pop_min` -/

/-- The child `c` that an iteration at `parent = p` moves up. -/
inductive Picks (compare : α → α → Int) (newRoot : α) (items : Nat) (f : Nat → α) (p : Nat) :
    Nat → Prop
  | only (hl : compare newRoot (f (2 * p)) > 0) (hr : items < 2 * p + 1) :
      Picks compare newRoot items f p (2 * p)
  | left (hl : compare newRoot (f (2 * p)) > 0) (hr : 2 * p + 1 ≤ items)
      (hlt : compare (f (2 * p)) (f (2 * p + 1)) < 0) : Picks compare newRoot items f p (2 * p)
  | right (hl : compare newRoot (f (2 * p)) > 0) (hr : 2 * p + 1 ≤ items)
      (hge : 0 ≤ compare (f (2 * p)) (f (2 * p + 1))) : Picks compare newRoot items f p (2 * p + 1)
  | unguarded (hl : compare newRoot (f (2 * p)) ≤ 0) (hgt : compare newRoot (f (2 * p + 1)) > 0) :
      Picks compare newRoot items f p (2 * p + 1)

theorem Picks.child {newRoot : α} {items : Nat} {f : Nat → α} {p c : Nat}
    (h : Picks compare newRoot items f p c) : c = 2 * p ∨ c = 2 * p + 1 := by
  cases h with
  | only => exact Or.inl rfl
  | left => exact Or.inl rfl
  | right => exact Or.inr rfl
  | unguarded => exact Or.inr rfl

/-- The loop stops at `parent = p`: there is no child, the `int` product overflows, or no child
read is before the new root. -/
def Stops (compare : α → α → Int) (newRoot : α) (items : Nat) (f : Nat → α) (p : Nat) : Prop :=
  items < 2 * p ∨ 2 ^ 30 ≤ p ∨
    compare newRoot (f (2 * p)) ≤ 0 ∧ compare newRoot (f (2 * p + 1)) ≤ 0

section CArithmetic

theorem int_child {p : Nat} (hp : p < 2 ^ 30) :
    CInt.int ((p : Int) * 2) = ((2 * p : Nat) : Int) ∧
      CInt.int ((p : Int) * 2 + 1) = ((2 * p + 1 : Nat) : Int) := by
  constructor
  · rw [CInt.int_eq_self (by omega) (by omega)]
    omega
  · rw [CInt.int_eq_self (by omega) (by omega)]
    omega

theorem size_natCast {n : Nat} (h : n < 2 ^ 64) : CInt.size (n : Int) = n := by
  have := CInt.size_eq_self (x := (n : Int)) (by omega) (by exact_mod_cast h)
  exact_mod_cast this

/-- From `2^30` on `parent * 2` is negative as an `int`, and larger than any `items` as a
`size_t`. -/
theorem size_int_overflow {p : Nat} (h₁ : 2 ^ 30 ≤ p) (h₂ : p < 2 ^ 31) :
    2 ^ 63 ≤ CInt.size (CInt.int ((p : Int) * 2)) := by
  unfold CInt.size
  rw [CInt.int_eq_ite]
  split
  · omega
  · omega

end CArithmetic

/-- The loop's condition, for a `parent` that is an `int`. -/
theorem size_int_le_iff {p items : Nat} (hp : p < 2 ^ 31) (hi : items < 2 ^ 63) :
    CInt.size (CInt.int ((p : Int) * 2)) ≤ items ↔ p < 2 ^ 30 ∧ 2 * p ≤ items := by
  by_cases h : p < 2 ^ 30
  · rw [(int_child h).1, size_natCast (by omega)]
    exact ⟨fun h' => ⟨h, h'⟩, fun h' => h'.2⟩
  · have := size_int_overflow (by omega) hp
    constructor
    · intro h'; omega
    · intro h'; exact absurd h'.1 h

/-! ## One turn of the loop -/

/-- One turn of the `while` loop of `heap_pop_min`: the block after it, and the next `parent` unless the
loop ends. -/
def siftTurn (compare : α → α → Int) (newRoot : α) (items : Nat) (b : Block α) (parent : Int) :
    Block α × Option Int :=
  let left := CInt.int (parent * 2)
  let right := CInt.int (parent * 2 + 1)
  if CInt.size left ≤ items then
    let b := b.touch left.toNat
    if compare newRoot (b.cell left.toNat) > 0 then
      if CInt.size right > items then
        (moveUp b parent left, some left)
      else
        let b := (b.touch left.toNat).touch right.toNat
        if compare (b.cell left.toNat) (b.cell right.toNat) < 0 then
          (moveUp b parent left, some left)
        else
          (moveUp b parent right, some right)
    else
      let b := b.touch right.toNat
      if compare newRoot (b.cell right.toNat) > 0 then
        (moveUp b parent right, some right)
      else
        (b, none)
  else
    (b, none)

/-- The loop is its turns. -/
theorem siftDown_turn (newRoot : α) (items fuel : Nat) (b : Block α) (parent : Int) :
    siftDown compare newRoot items (fuel + 1) b parent =
      match siftTurn compare newRoot items b parent with
      | (b', some parent') => siftDown compare newRoot items fuel b' parent'
      | (b', none) => (b', parent) := by
  simp only [siftDown, siftTurn]
  split_ifs <;> rfl

/-- A turn reads the children of `parent`, then it moves one of them up or the loop ends. What reads
keep holds after them. -/
theorem siftTurn_rule (compare : α → α → Int) (newRoot : α) {items : Nat} (hitems : items < 2 ^ 63)
    {p : Nat} (h31 : p < 2 ^ 31) {I : Block α → Prop}
    (htouch : ∀ b i, I b → 2 * p ≤ items → i = 2 * p ∨ i = 2 * p + 1 → I (b.touch i))
    {b : Block α} (hb : I b) :
    (∃ b' c, siftTurn compare newRoot items b p = (moveUp b' p (c : Nat), some (c : Int)) ∧ I b' ∧
        p < 2 ^ 30 ∧ 2 * p ≤ items ∧ Picks compare newRoot items b'.cell p c) ∨
      ∃ b', siftTurn compare newRoot items b p = (b', none) ∧ I b' ∧
        Stops compare newRoot items b'.cell p := by
  simp only [siftTurn, size_int_le_iff h31 hitems]
  split
  · rename_i hcond
    obtain ⟨h30, h2⟩ := hcond
    obtain ⟨hleft, hright⟩ := int_child h30
    simp only [hleft, hright, Int.toNat_natCast, size_natCast (n := 2 * p + 1) (by omega),
      Block.touch_cell]
    have hl := htouch b (2 * p) hb h2 (Or.inl rfl)
    split
    · rename_i hgt
      split
      · rename_i hr
        exact Or.inl ⟨_, _, rfl, hl, h30, h2, .only hgt hr⟩
      · rename_i hr
        have hlr := htouch _ (2 * p + 1) (htouch _ (2 * p) hl h2 (Or.inl rfl)) h2 (Or.inr rfl)
        split
        · rename_i hlt
          exact Or.inl ⟨_, _, rfl, hlr, h30, h2, .left hgt (by omega) hlt⟩
        · rename_i hge
          exact Or.inl ⟨_, _, rfl, hlr, h30, h2, .right hgt (by omega) (not_lt.1 hge)⟩
    · rename_i hle
      have hr := htouch _ (2 * p + 1) hl h2 (Or.inr rfl)
      split
      · rename_i hgt
        exact Or.inl ⟨_, _, rfl, hr, h30, h2, .unguarded (by simpa using hle) hgt⟩
      · rename_i hle'
        exact Or.inr ⟨_, rfl, hr, Or.inr (Or.inr ⟨by simpa using hle, by simpa using hle'⟩)⟩
  · rename_i hcond
    refine Or.inr ⟨_, rfl, hb, ?_⟩
    by_cases h30 : p < 2 ^ 30
    · exact Or.inl (by omega)
    · exact Or.inr (Or.inl (by omega))

/-! ## The whole loop -/

theorem siftDown_rule (compare : α → α → Int) (newRoot : α) {items : Nat} (hitems : items < 2 ^ 63)
    (I : Block α → Nat → Prop)
    (htouch : ∀ b p i, I b p → 2 * p ≤ items → i = 2 * p ∨ i = 2 * p + 1 → I (b.touch i) p)
    (hmove : ∀ b p c, I b p → 1 ≤ p → 2 * p ≤ items → Picks compare newRoot items b.cell p c →
      I (b.store p (b.cell c)) c) :
    ∀ fuel b (p : Nat), I b p → 1 ≤ p → p < 2 ^ 31 → p ≤ items + 1 → items + 1 - p ≤ fuel →
      ∃ q : Nat, (siftDown compare newRoot items fuel b p).2 = q ∧ p ≤ q ∧ q ≤ items + 1 ∧
        I (siftDown compare newRoot items fuel b p).1 q ∧
        Stops compare newRoot items (siftDown compare newRoot items fuel b p).1.cell q := by
  intro fuel
  induction fuel with
  | zero =>
    intro b p h _ _ hp _
    exact ⟨p, rfl, le_rfl, hp, h, Or.inl (by omega)⟩
  | succ fuel ih =>
    intro b p h h1 h31 hp hf
    rw [siftDown_turn]
    rcases siftTurn_rule compare newRoot hitems h31 (I := (I · p)) (fun b i => htouch b p i) h with
      ⟨b', c, hturn, hb', h30, h2, hpick⟩ | ⟨b', hturn, hb', hstop⟩
    · have hc := hpick.child
      have hI' : I (moveUp b' p c) c := by
        have := hmove _ p c (htouch b' p c hb' h2 hc) h1 h2 hpick
        simpa [moveUp] using this
      obtain ⟨q, hq, hcq, hqi, hIq, hs⟩ :=
        ih (moveUp b' p c) c hI' (by omega) (by omega) (by omega) (by omega)
      rw [hturn]
      exact ⟨q, hq, by omega, hqi, hIq, hs⟩
    · rw [hturn]
      exact ⟨p, rfl, le_rfl, hp, hb', hstop⟩

end Lwthread.Util
