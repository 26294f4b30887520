import Lwthread.Util.HeapItems

/-!
# The slot past the live items

`heap_pop_min` copies the last item to the root, takes it off the count, and lets it sink. Where it is
not after its left child the loop reads the right child without a test that there is one. That slot is
then the one the last item came from: no turn of the loop writes to it, since the hole stays among the
live items, so the loop compares the new root with itself and ends (`sift_stays_live`).
-/

namespace Lwthread.Util

variable {α : Type}

/-! ## The turns of a call -/

/-- The block when `heap_pop_min` enters its loop. -/
def popStart (h : Heap α) : Block α :=
  let b := h.heap.touch 1
  let b := (b.touch h.items).store 1 (b.cell h.items)
  b.touch 1

/-- `new_root` of `heap_pop_min`. -/
def newRoot (h : Heap α) : α := (popStart h).cell 1

/-- The block and `parent` each time the loop of `heap_pop_min` tests its condition. -/
inductive Sifting (h : Heap α) : Block α → Int → Prop
  | start : Sifting h (popStart h) 1
  | turn {b b' parent parent'} (hs : Sifting h b parent)
      (ht : siftTurn h.compare (newRoot h) (h.items - 1) b parent = (b', some parent')) :
      Sifting h b' parent'

/-- A turn keeps to the live slots `1` to `items`: the slot after them holds the new root, no index
past that slot is accessed, and the next `parent` is a live slot below, whose item moves up. -/
structure TurnSafe (compare : α → α → Int) (newRoot : α) (items : Nat) (b : Block α) (parent : Int) :
    Prop where
  stale : b.cell (items + 1) = newRoot
  accesses : ∃ new, (siftTurn compare newRoot items b parent).1.log = new ++ b.log ∧
    ∀ a ∈ new, a.1 ≤ items + 1
  descends : ∀ {b' parent'}, siftTurn compare newRoot items b parent = (b', some parent') →
    parent < parent' ∧ parent' ≤ items
  moves : ∀ {b' parent'}, siftTurn compare newRoot items b parent = (b', some parent') →
    b'.cell = Function.update b.cell parent.toNat (b.cell parent'.toNat)

/-! ## What the turns preserve -/

/-- The hole is at a live slot and the slot after the live ones holds the new root. -/
structure SiftHead (newRoot : α) (items : Nat) (b : Block α) (parent : Int) : Prop where
  hole : ∃ p : Nat, parent = p ∧ 1 ≤ p ∧ (p ≤ items ∨ p = 1)
  stale : b.cell (items + 1) = newRoot

section

variable {compare : α → α → Int} {root : α} {items : Nat} {b b' : Block α} {parent parent' : Int}

/-- The blocks that a turn at `b` has after its reads. -/
def Peeked (items : Nat) (b b' : Block α) : Prop :=
  b'.cell = b.cell ∧ ∃ new, b'.log = new ++ b.log ∧ ∀ a ∈ new, a.1 ≤ items + 1

theorem Peeked.touch {i : Nat} (h : Peeked items b b') (hi : i ≤ items + 1) :
    Peeked items b (b'.touch i) := by
  obtain ⟨hcell, new, hlog, hnew⟩ := h
  refine ⟨hcell, (i, b'.slots) :: new, ?_, List.forall_mem_cons.2 ⟨hi, hnew⟩⟩
  rw [Block.touch_log, hlog]
  rfl

theorem Peeked.store {i : Nat} (h : Peeked items b b') (hi : i ≤ items + 1) (x : α) :
    ∃ new, (b'.store i x).log = new ++ b.log ∧ ∀ a ∈ new, a.1 ≤ items + 1 := (h.touch hi).2

/-- One turn. -/
theorem SiftHead.turnSafe (hrefl : compare root root ≤ 0) (hlt : items < 2 ^ 30)
    (h : SiftHead root items b parent) : TurnSafe compare root items b parent := by
  obtain ⟨⟨p, rfl, h1, hp⟩, hstale⟩ := h
  rcases siftTurn_rule compare root (by omega : items < 2 ^ 63) (by omega : p < 2 ^ 31)
    (I := Peeked items b) (fun b' i hb' h2 hi => hb'.touch (by omega)) ⟨rfl, [], rfl, nofun⟩ with
    ⟨b₁, c, hturn, hpeek, -, h2, hpick⟩ | ⟨b₁, hturn, hpeek, -⟩
  · have hcell := hpeek.1
    have hchild := hpick.child
    have hlive : c ≤ items := hpick.live hrefl (by rw [hcell, hstale]) h2
    refine ⟨hstale, ?_, ?_, ?_⟩
    · rw [hturn]
      exact (hpeek.touch (by omega)).store (by omega) _
    · intro b' parent' ht
      rw [hturn] at ht
      cases ht
      omega
    · intro b' parent' ht
      rw [hturn] at ht
      cases ht
      simp only [moveUp, Block.store_cell, Block.touch_cell, hcell]
  · refine ⟨hstale, ?_, ?_, ?_⟩
    · rw [hturn]
      exact hpeek.2
    · intro b' parent' ht
      rw [hturn] at ht
      cases ht
    · intro b' parent' ht
      rw [hturn] at ht
      cases ht

theorem SiftHead.next (h : SiftHead root items b parent) (hs : TurnSafe compare root items b parent)
    (ht : siftTurn compare root items b parent = (b', some parent')) :
    SiftHead root items b' parent' := by
  obtain ⟨p, rfl, h1, hp⟩ := h.hole
  obtain ⟨hlt, hle⟩ := hs.descends ht
  refine ⟨⟨parent'.toNat, by omega, by omega, .inl (by omega)⟩, ?_⟩
  rw [hs.moves ht, Function.update_of_ne (by omega), hs.stale]

end

variable {h : Heap α} {items : Nat} {b : Block α} {parent : Int}

theorem newRoot_eq (h : Heap α) : newRoot h = h.heap.cell h.items := by
  simp only [newRoot, popStart, Block.touch_cell, Block.store_cell, Function.update_self]

theorem SiftHead.start (hi : h.items = items + 1) : SiftHead (newRoot h) items (popStart h) 1 := by
  refine ⟨⟨1, rfl, le_rfl, .inr rfl⟩, ?_⟩
  rw [newRoot_eq, hi]
  by_cases h0 : items = 0
  · subst h0
    show Function.update h.heap.cell 1 (h.heap.cell h.items) 1 = _
    rw [Function.update_self, hi]
  · exact Function.update_of_ne (by omega) _ _

/-- Every turn of a call. -/
theorem Sifting.head (hi : h.items = items + 1) (hlt : items < 2 ^ 30)
    (hrefl : ∀ x, h.compare x x ≤ 0) (hs : Sifting h b parent) :
    SiftHead (newRoot h) items b parent := by
  have hitems : h.items - 1 = items := by omega
  induction hs with
  | start => exact .start hi
  | turn _ ht ih =>
    rw [hitems] at ht
    exact ih.next (ih.turnSafe (hrefl _) hlt) ht

/-- From the head of a turn the loop ends, with the block and `parent` of a last one. -/
theorem Sifting.ends (hi : h.items = items + 1) (hlt : items < 2 ^ 30)
    (hrefl : ∀ x, h.compare x x ≤ 0) :
    ∀ (fuel : Nat) {b : Block α} {parent : Int}, Sifting h b parent → items + 1 ≤ parent + fuel →
      ∃ b₁ parent₁ b₂, Sifting h b₁ parent₁ ∧
        siftTurn h.compare (newRoot h) items b₁ parent₁ = (b₂, none) ∧
        siftDown h.compare (newRoot h) items fuel b parent = (b₂, parent₁) := by
  have hitems : h.items - 1 = items := by omega
  intro fuel
  induction fuel with
  | zero =>
    intro b parent hs hf
    -- the hole is below the last live slot, so the condition fails
    obtain ⟨p, rfl, h1, hp⟩ := (hs.head hi hlt hrefl).hole
    refine ⟨b, p, b, hs, ?_, rfl⟩
    have hcond : ¬(p < 2 ^ 30 ∧ 2 * p ≤ items) := by omega
    simp only [siftTurn, size_int_le_iff (by omega : p < 2 ^ 31) (by omega : items < 2 ^ 63), hcond,
      if_false]
  | succ fuel ih =>
    intro b parent hs hf
    have hsafe := (hs.head hi hlt hrefl).turnSafe (hrefl _) hlt
    rw [siftDown_turn]
    rcases ht : siftTurn h.compare (newRoot h) items b parent with ⟨b', _ | parent'⟩
    · exact ⟨b, parent, b', hs, ht, rfl⟩
    · have hdesc := hsafe.descends ht
      exact ih (hs.turn (by rw [hitems]; exact ht)) (by push_cast at hf; omega)

/-- **The sift-down loop keeps to the live items.** In `heap_pop_min` on a heap of `items + 1` items,
fewer than `2^30`, with a comparator for which `compare(x, x) <= 0`: every turn is safe, the loop ends,
and the call stores the new root where it ends. -/
theorem sift_stays_live (h : Heap α) (items : Nat) (hi : h.items = items + 1) (hlt : h.items < 2 ^ 30)
    (hrefl : ∀ x, h.compare x x ≤ 0) :
    (∀ b parent, Sifting h b parent → TurnSafe h.compare (newRoot h) items b parent) ∧
      ∃ b parent b', Sifting h b parent ∧
        siftTurn h.compare (newRoot h) items b parent = (b', none) ∧
        (popItem h).2.heap = b'.store parent.toNat (newRoot h) := by
  have hn : items < 2 ^ 30 := by omega
  refine ⟨fun b parent hs => (hs.head hi hn hrefl).turnSafe (hrefl _) hn, ?_⟩
  obtain ⟨b, parent, b', hs, ht, hdown⟩ := Sifting.ends hi hn hrefl items .start (by omega)
  refine ⟨b, parent, b', hs, ht, ?_⟩
  have hitems : h.items - 1 = items := by omega
  show ((siftDown h.compare (newRoot h) (h.items - 1) (h.items - 1) (popStart h) 1).1.store
    (siftDown h.compare (newRoot h) (h.items - 1) (h.items - 1) (popStart h) 1).2.toNat (newRoot h)) = _
  rw [hitems, hdown]

/-- Three items, so that the right child of the root is the slot past the live ones. -/
theorem sift_stays_live_three :
    TurnSafe (· - ·) 2 2 (popStart ⟨⟨fun i => [0, 1, 5, 2].getD i 0, 16, []⟩, 16, 3, (· - ·)⟩) 1 :=
  (sift_stays_live (⟨⟨fun i => [0, 1, 5, 2].getD i 0, 16, []⟩, 16, 3, (· - ·)⟩ : Heap Int) 2 rfl
    (by decide) (fun x => by simp)).1 _ _ .start

end Lwthread.Util
