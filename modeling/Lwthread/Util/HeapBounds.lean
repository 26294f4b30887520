import Lwthread.Util.HeapQueue

/-!
# The accesses of the heap and its allocation

Every access of a call is at an index of at most `items` (`items + 1` before a push), and `items`
stays below `size`; so the accesses are inside the allocation as long as `size` is the number of
slots allocated. `heap_push` doubles both. `heap_pop_min` halves the allocation and leaves `size`
alone: from then on the heap believes in twice the slots it has. `bounds_iff_no_shrink` is the
exact statement over sequences of calls.
-/

namespace Lwthread.Util

variable {α : Type}

/-- `size` is the number of slots allocated, and every access so far was to an allocated slot. -/
def InBounds (h : Heap α) : Prop :=
  h.size = h.heap.slots ∧ ∀ a ∈ h.heap.log, a.1 < a.2

/-- The block's size in bytes is a `size_t`, as it must be for the allocation to succeed. -/
def Addressable (h : Heap α) : Prop := h.size * 8 < 2 ^ 64

/-- `heap_pop_min` on this heap takes its resizing branch. -/
def PopShrinks (h : Heap α) : Prop :=
  1 ≤ h.items ∧ h.items < h.size / 4 ∧ INITIAL_SIZE < h.size

/-- No call of the sequence is a `heap_pop_min` that resizes. -/
def NoShrink (h : Heap α) : List (Call α) → Prop
  | [] => True
  | c :: cs => (c = .popMin → ¬ PopShrinks h) ∧ NoShrink (call h c).2 cs

instance (h : Heap α) : Decidable (InBounds h) := inferInstanceAs (Decidable (_ ∧ _))

instance (h : Heap α) : Decidable (Addressable h) := inferInstanceAs (Decidable (_ < _))

instance (h : Heap α) : Decidable (PopShrinks h) := inferInstanceAs (Decidable (_ ∧ _))

instance decidableAlong (p : Heap α → Prop) [DecidablePred p] :
    ∀ (h : Heap α) (cs : List (Call α)), Decidable (Along p h cs)
  | h, [] => inferInstanceAs (Decidable (p h))
  | h, c :: cs =>
    have := decidableAlong p (call h c).2 cs
    inferInstanceAs (Decidable (_ ∧ _))

/-! ## The accesses of one call -/

/-- The accesses in `b` beyond `log` are at indices of at most `n`, in a block of `slots` slots. -/
structure Within (log : List (Nat × Nat)) (slots n : Nat) (b : Block α) : Prop where
  slots_eq : b.slots = slots
  mem : ∀ a ∈ b.log, a ∈ log ∨ a.2 = slots ∧ a.1 ≤ n

namespace Within

variable {log : List (Nat × Nat)} {slots n i : Nat} {b : Block α}

theorem touch (h : Within log slots n b) (hi : i ≤ n) : Within log slots n (b.touch i) where
  slots_eq := h.slots_eq
  mem := by
    intro a ha
    rcases List.mem_cons.1 ha with rfl | ha
    · exact Or.inr ⟨h.slots_eq, hi⟩
    · exact h.mem a ha

theorem store (h : Within log slots n b) (hi : i ≤ n) (x : α) :
    Within log slots n (b.store i x) :=
  ⟨h.slots_eq, (h.touch hi).mem⟩

theorem refl : Within b.log b.slots n b := ⟨rfl, fun _ ha => Or.inl ha⟩

end Within

theorem pushItem_within (h : Heap α) (item : α) :
    Within h.heap.log h.heap.slots (h.items + 1) (pushItem h item).heap := by
  obtain ⟨⟨hw, hc⟩, -⟩ := siftUp_rule h.compare item
    (fun b current => Within h.heap.log h.heap.slots (h.items + 1) b ∧ current ≤ h.items + 1)
    (fun b current hI _ => ⟨hI.1.touch (by omega), hI.2⟩)
    (fun b current hI _ _ => ⟨hI.1.store hI.2 _, by omega⟩)
    (h.items + 1) (h.heap.store (h.items + 1) item) (h.items + 1)
    ⟨Within.refl.store le_rfl _, le_rfl⟩ le_rfl
  exact hw.store hc _

theorem popItem_within {h : Heap α} (hi : h.items ≠ 0) (hlt : h.items ≤ 2 ^ 63) :
    Within h.heap.log h.heap.slots h.items (popItem h).2.heap := by
  have h0 : Within h.heap.log h.heap.slots h.items
      ((((h.heap.touch 1).touch h.items).store 1 (h.heap.cell h.items)).touch 1) :=
    (((Within.refl.touch (by omega)).touch le_rfl).store (by omega) _).touch (by omega)
  obtain ⟨q, hq, -, hqi, hw, -⟩ := siftDown_rule h.compare (h.heap.cell h.items)
    (by omega : h.items - 1 < 2 ^ 63)
    (fun b _ => Within h.heap.log h.heap.slots h.items b)
    (fun b p i hI h2 hchild => hI.touch (by omega))
    (fun b p c hI _ h2 _ => hI.store (by omega) _)
    (h.items - 1) _ 1 h0 le_rfl (by omega) (by omega) (by omega)
  rw [show ((1 : Nat) : Int) = 1 from rfl] at hq hw
  have hfin := hw.store (i := q) (by omega) (h.heap.cell h.items)
  simp only [popItem, Block.store_cell, Block.touch_cell, Function.update_self]
  rw [hq]
  exact hfin

/-! ## The invariant of a heap that was never shrunk -/

/-- The heap's fields agree with its allocation and its items leave a slot free. -/
structure Sound (h : Heap α) : Prop where
  inBounds : InBounds h
  room : h.items < h.size
  large : INITIAL_SIZE ≤ h.size

theorem heapInit_sound (garbage : Nat → α) (compare : α → α → Int) :
    Sound (heapInit .block garbage compare).2 where
  inBounds := ⟨rfl, fun a ha => by simp [heapInit] at ha⟩
  room := by simp [heapInit, INITIAL_SIZE]
  large := le_rfl

theorem Within.inBounds {log : List (Nat × Nat)} {slots n : Nat} {b : Block α}
    (h : Within log slots n b) (hlog : ∀ a ∈ log, a.1 < a.2) (hn : n < slots) :
    ∀ a ∈ b.log, a.1 < a.2 := by
  intro a ha
  rcases h.mem a ha with ha | ⟨h2, h1⟩
  · exact hlog a ha
  · omega

theorem Sound.pushItem {h : Heap α} (hs : Sound h) (hroom : h.items + 1 < h.size) (item : α) :
    Sound (pushItem h item) := by
  have hw := pushItem_within h item
  have hsz := hs.inBounds.1
  refine ⟨⟨?_, ?_⟩, hroom, hs.large⟩
  · rw [hw.slots_eq]; exact hsz
  · exact hw.inBounds hs.inBounds.2 (by omega)

theorem Sound.push {h : Heap α} (hs : Sound h) (item : α) : Sound (heapPush .block h item).2 := by
  have hroom := hs.room
  have hlarge : 16 ≤ h.size := hs.large
  unfold heapPush
  split
  · refine Sound.pushItem (h := { h with heap := h.heap.resize (h.size * 2), size := h.size * 2 })
      ⟨⟨rfl, hs.inBounds.2⟩, ?_, ?_⟩ ?_ item
    · show h.items < h.size * 2; omega
    · show 16 ≤ h.size * 2; omega
    · show h.items + 1 < h.size * 2; omega
  · exact hs.pushItem (by omega) item

theorem shrinks_popItem {h : Heap α} (hi : h.items ≠ 0) :
    shrinks (popItem h).2 = true ↔ PopShrinks h := by
  have he : h.items - 1 + 1 = h.items := by omega
  unfold shrinks PopShrinks
  rw [popItem_items, popItem_size, he, Bool.and_eq_true, decide_eq_true_eq, decide_eq_true_eq]
  exact ⟨fun h' => ⟨by omega, h'⟩, fun h' => h'.2⟩

theorem Sound.popMin {h : Heap α} (hs : Sound h) (hlt : h.items ≤ 2 ^ 63) (hno : ¬ PopShrinks h) :
    Sound (heapPopMin .block h).2 := by
  by_cases hi : h.items = 0
  · rw [heapPopMin_null hi]; exact hs
  · have hw := popItem_within hi hlt
    have hroom := hs.room
    have hsz := hs.inBounds.1
    unfold heapPopMin
    rw [if_neg hi]
    simp only [(shrinks_popItem hi).not.2 hno, Bool.false_eq_true, if_false]
    refine ⟨⟨?_, ?_⟩, ?_, hs.large⟩
    · rw [hw.slots_eq]; exact hsz
    · exact hw.inBounds hs.inBounds.2 (by omega)
    · show h.items - 1 < h.size; omega

theorem Sound.min {h : Heap α} (hs : Sound h) : Sound (heapMin h).2 := by
  have hlarge : 16 ≤ h.size := hs.large
  have hsz := hs.inBounds.1
  unfold heapMin
  split
  · exact hs
  · refine ⟨⟨hsz, fun a ha => ?_⟩, hs.room, hs.large⟩
    rcases List.mem_cons.1 ha with rfl | ha
    · show 1 < h.heap.slots; omega
    · exact hs.inBounds.2 a ha

/-- A call that does not shrink keeps the heap sound. -/
theorem Sound.call {h : Heap α} (hs : Sound h) (ha : Addressable h) {c : Call α}
    (hno : c = .popMin → ¬ PopShrinks h) : Sound (call h c).2 := by
  have hroom := hs.room
  unfold Addressable at ha
  cases c with
  | push item => exact hs.push item
  | min => exact hs.min
  | size => exact hs
  | empty => exact hs
  | popMin => exact hs.popMin (by omega) (hno rfl)

/-- A pop that shrinks leaves `size` at twice the allocation. -/
theorem popMin_not_inBounds {h : Heap α} (hsh : PopShrinks h) :
    ¬ InBounds (heapPopMin .block h).2 := by
  obtain ⟨h1, h4, h16⟩ := hsh
  have hi : h.items ≠ 0 := by omega
  unfold heapPopMin
  rw [if_neg hi]
  simp only [(shrinks_popItem hi).2 ⟨h1, h4, h16⟩, if_true]
  rintro ⟨hsz, -⟩
  simp only [popItem_size, Block.resize_slots] at hsz
  omega

theorem Along.head {p : Heap α → Prop} {h : Heap α} : ∀ {cs}, Along p h cs → p h
  | [], hp => hp
  | _ :: _, hp => hp.1

theorem Sound.along_iff : ∀ (cs : List (Call α)) {h : Heap α}, Sound h → Along Addressable h cs →
    (Along InBounds h cs ↔ NoShrink h cs)
  | [], _, hs, _ => ⟨fun _ => trivial, fun _ => hs.inBounds⟩
  | c :: cs, h, hs, ha => by
    constructor
    · rintro ⟨-, hrest⟩
      have hno : c = .popMin → ¬ PopShrinks h := by
        rintro rfl hsh
        exact popMin_not_inBounds hsh hrest.head
      exact ⟨hno, (Sound.along_iff cs (hs.call ha.1 hno) ha.2).1 hrest⟩
    · rintro ⟨hno, hrest⟩
      exact ⟨hs.inBounds, (Sound.along_iff cs (hs.call ha.1 hno) ha.2).2 hrest⟩

/-- **Bounds.** Over every sequence of calls from `heap_init` whose allocations all succeed, `size`
is the number of slots allocated and every access is to an allocated slot, exactly when no
`heap_pop_min` of the sequence takes its resizing branch. -/
theorem bounds_iff_no_shrink (garbage : Nat → α) (compare : α → α → Int) (cs : List (Call α))
    (ha : Along Addressable (heapInit .block garbage compare).2 cs) :
    Along InBounds (heapInit .block garbage compare).2 cs ↔
      NoShrink (heapInit .block garbage compare).2 cs :=
  Sound.along_iff cs (heapInit_sound garbage compare) ha

theorem bounds_iff_no_shrink_growing :
    Along Addressable (heapInit .block (fun _ => 0) (fun x y : Int => x - y)).2
        (List.replicate 16 (.push 0) ++ [.popMin]) ∧
      (Along InBounds (heapInit .block (fun _ => 0) (fun x y : Int => x - y)).2
          (List.replicate 16 (.push 0) ++ [.popMin]) ↔
        NoShrink (heapInit .block (fun _ => 0) (fun x y : Int => x - y)).2
          (List.replicate 16 (.push 0) ++ [.popMin])) :=
  ⟨by decide, bounds_iff_no_shrink _ _ _ (by decide)⟩

/-- Sixteen pushes grow the heap to 32 slots, ten pops shrink it to 16, and the tenth push after
them writes slot 16. -/
theorem shrink_breaks_bounds :
    let init := (heapInit .block (fun _ => 0) (fun x y : Int => x - y)).2
    let cs := List.replicate 16 (Call.push 0) ++ List.replicate 10 .popMin ++
      List.replicate 10 (.push 0)
    Along Addressable init cs ∧ ¬ Along InBounds init cs ∧
      (calls init cs).2.size = 32 ∧ (calls init cs).2.heap.slots = 16 ∧
      (16, 16) ∈ (calls init cs).2.heap.log := by
  decide +kernel

end Lwthread.Util
