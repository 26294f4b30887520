import Lwthread.Util.HeapQueue

/-!
# A failed allocation in `heap_push`

When its `realloc` fails, `heap_push` frees the block that it has and leaves `items` and `size` alone.
The heap still believes in its items, at least fifteen of them, and reads the first one through a
`NULL` pointer at the next `heap_min` or `heap_pop_min`. The resize of `heap_pop_min` keeps its block.
-/

namespace Lwthread.Util

variable {α : Type}

/-- Perform one call, with the answer of the `realloc` it may make. -/
def callWith (realloc : Alloc α) (h : Heap α) : Call α → Reply α × Heap α
  | .push item => (.code (heapPush realloc h item).1, (heapPush realloc h item).2)
  | .min => (.item (heapMin h).1, (heapMin h).2)
  | .size => (.size (heapSize h), h)
  | .empty => (.truth (heapEmpty h), h)
  | .popMin => (.item (heapPopMin realloc h).1, (heapPopMin realloc h).2)

/-- Perform a sequence of calls, some of whose allocations may fail: the replies and the last heap. -/
def callsWith (h : Heap α) : List (Alloc α × Call α) → List (Reply α) × Heap α
  | [] => ([], h)
  | (realloc, c) :: cs =>
    let r := callWith realloc h c
    let rest := callsWith r.2 cs
    (r.1 :: rest.1, rest.2)

/-- The accesses that a sequence of calls makes, each with the number of slots allocated then. -/
def accesses (h : Heap α) (cs : List (Alloc α × Call α)) : List (Nat × Nat) :=
  (callsWith { h with heap := { h.heap with log := [] } } cs).2.heap.log

/-- `heap_push` calls `realloc` on this heap. -/
def PushGrows (h : Heap α) : Prop := h.size ≤ h.items + 1

/-- A push of `item` onto `h` whose `realloc` fails answers `ENOMEM`, and later calls answer as they
would have without it and access allocated slots only. -/
structure PushUndone (garbage : Nat → α) (h : Heap α) (item : α) : Prop where
  code : (heapPush (.null garbage) h item).1 = ENOMEM
  replies : ∀ cs, (callsWith (heapPush (.null garbage) h item).2 cs).1 = (callsWith h cs).1
  inBounds : ∀ cs, ∀ a ∈ accesses (heapPush (.null garbage) h item).2 cs, a.1 < a.2

/-! ## The size never drops -/

theorem heapPush_size (realloc : Alloc α) (h : Heap α) (item : α) :
    h.size ≤ (heapPush realloc h item).2.size := by
  unfold heapPush
  split
  · cases realloc with
    | null garbage => exact le_rfl
    | block =>
      show h.size ≤ h.size * 2
      omega
  · exact le_rfl

theorem heapMin_size (h : Heap α) : (heapMin h).2.size = h.size := by
  unfold heapMin
  split <;> rfl

theorem heapPopMin_size (realloc : Alloc α) (h : Heap α) : (heapPopMin realloc h).2.size = h.size := by
  unfold heapPopMin
  split
  · rfl
  · dsimp only
    split
    · cases realloc <;> rfl
    · rfl

theorem callWith_size (realloc : Alloc α) (h : Heap α) (c : Call α) :
    h.size ≤ (callWith realloc h c).2.size := by
  cases c with
  | push item => exact heapPush_size realloc h item
  | min => exact (heapMin_size h).ge
  | size => exact le_rfl
  | empty => exact le_rfl
  | popMin => exact (heapPopMin_size realloc h).ge

theorem callsWith_size (cs : List (Alloc α × Call α)) (h : Heap α) :
    h.size ≤ (callsWith h cs).2.size := by
  induction cs generalizing h with
  | nil => exact le_rfl
  | cons p cs ih => exact (callWith_size p.1 h p.2).trans (ih _)

/-! ## The failed push -/

theorem heapPush_null {h : Heap α} (hg : PushGrows h) (garbage : Nat → α) (item : α) :
    heapPush (.null garbage) h item = (ENOMEM, { h with heap := ⟨garbage, 0, h.heap.log⟩ }) := by
  unfold PushGrows at hg
  unfold heapPush
  rw [if_pos hg]

/-- The first `heap_min` after the failed push reads slot 1 behind the `NULL` pointer. -/
theorem accesses_min_null {h : Heap α} (hg : PushGrows h) (hi : h.items ≠ 0) (garbage : Nat → α)
    (item : α) :
    accesses (heapPush (.null garbage) h item).2 [(.block, .min)] = [(1, 0)] := by
  rw [heapPush_null hg]
  simp only [accesses, callsWith, callWith, heapMin, if_neg hi, Block.touch_log]

/-- A heap that calls lead to has the initial number of slots at least, so one that has to grow holds
items. -/
theorem PushGrows.items_ne {garbage₀ : Nat → α} {compare : α → α → Int}
    {cs : List (Alloc α × Call α)}
    (hg : PushGrows (callsWith (heapInit .block garbage₀ compare).2 cs).2) :
    (callsWith (heapInit .block garbage₀ compare).2 cs).2.items ≠ 0 := by
  have hsize := callsWith_size cs (heapInit .block garbage₀ compare).2
  have hinit : (heapInit .block garbage₀ compare).2.size = 16 := rfl
  unfold PushGrows at hg
  omega

/-- **A failed push is never undone.** On every heap that calls lead to from `heap_init`, a
`heap_push` whose `realloc` fails answers `ENOMEM` and keeps the number of items, but leaves a heap
whose next `heap_min` accesses a slot that is not allocated. -/
theorem push_failure_damages (garbage₀ garbage : Nat → α) (compare : α → α → Int)
    (cs : List (Alloc α × Call α)) (item : α)
    (hg : PushGrows (callsWith (heapInit .block garbage₀ compare).2 cs).2) :
    let h := (callsWith (heapInit .block garbage₀ compare).2 cs).2
    let h' := (heapPush (.null garbage) h item).2
    (heapPush (.null garbage) h item).1 = ENOMEM ∧ heapSize h' = heapSize h ∧
      accesses h' [(.block, .min)] = [(1, 0)] ∧ ¬PushUndone garbage h item := by
  intro h h'
  have hacc : accesses h' [(.block, .min)] = [(1, 0)] :=
    accesses_min_null hg hg.items_ne garbage item
  have hnull : heapPush (.null garbage) h item = (ENOMEM, { h with heap := ⟨garbage, 0, h.heap.log⟩ }) :=
    heapPush_null hg garbage item
  refine ⟨by rw [hnull], ?_, hacc, ?_⟩
  · show heapSize (heapPush (.null garbage) h item).2 = heapSize h
    rw [hnull]
    rfl
  · intro hu
    have hlt := hu.inBounds [(.block, .min)] (1, 0)
    exact absurd (hlt (by rw [hacc]; exact List.mem_cons_self)) (by decide)

/-- Fifteen pushes fill the sixteen slots. -/
def fifteen : List (Alloc Int × Call Int) := List.replicate 15 (.block, .push 7)

theorem push_failure_damages_full :
    let h := (callsWith (heapInit .block (fun _ => 0) (fun x y : Int => x - y)).2 fifteen).2
    PushGrows h ∧ ¬PushUndone (fun _ => 0) h 7 :=
  have hg : PushGrows (callsWith (heapInit .block (fun _ => 0) (fun x y : Int => x - y)).2 fifteen).2 := by
    unfold PushGrows
    decide
  ⟨hg, (push_failure_damages (fun _ => 0) (fun _ => 0) _ fifteen 7 hg).2.2.2⟩

/-- The sixteenth push fails, and `heap_min` and `heap_pop_min` read through `NULL`. -/
theorem push_failure_full :
    let h := (callsWith (heapInit .block (fun _ => 0) (fun x y : Int => x - y)).2 fifteen).2
    let h' := (heapPush (.null fun _ => 0) h 7).2
    (heapMin h).1 = some 7 ∧ (heapMin h').1 = some 0 ∧ heapSize h' = 15 ∧
      (1, 0) ∈ accesses h' [(.block, .popMin)] ∧ ¬PushUndone (fun _ => 0) h 7 := by
  intro h h'
  have hacc : (1, 0) ∈ accesses h' [(.block, .popMin)] := by decide +kernel
  refine ⟨by decide +kernel, by decide +kernel, by decide +kernel, hacc, fun hu => ?_⟩
  exact absurd (hu.inBounds [(.block, .popMin)] (1, 0) hacc) (by decide)

end Lwthread.Util
