import Lwthread.Lib.CInt
import Lwthread.Lib.Hole

/-!
# The binary heap of `util/heap.c`

A heap is an array of `void*` slots, used from index 1, with the number of slots it believes it
has (`size`), the number of items and the comparator. The array is a `Block`: its slots, the
number of slots last requested from `malloc` or `realloc`, and the record of every access made to
it, each with the number of slots allocated at that moment. A slot past the allocation keeps its
contents in the model, so that the functions below also say what the heap computes over an
unbounded array; the record tells which accesses an allocation of the real size does not cover.

The two `while` loops run on fuel `items`: `siftUp` halves `current` and `siftDown` at least
doubles `parent`, so neither ends for want of it. `parent`, `left` and `right` are C `int`s and are
compared with the `size_t` `items` after conversion.
-/

namespace Lwthread.Util

variable {α : Type}

/-- The storage behind `heap->heap`. No slot is allocated behind a `NULL` pointer. -/
structure Block (α : Type) where
  cell : Nat → α
  slots : Nat
  log : List (Nat × Nat)

namespace Block

/-- Record an access to slot `i`. -/
def touch (b : Block α) (i : Nat) : Block α := { b with log := (i, b.slots) :: b.log }

/-- Write `x` to slot `i`. -/
def store (b : Block α) (i : Nat) (x : α) : Block α :=
  { b.touch i with cell := Function.update b.cell i x }

/-- A successful `realloc` to `n` slots. -/
def resize (b : Block α) (n : Nat) : Block α := { b with slots := n }

@[simp] theorem touch_cell (b : Block α) (i : Nat) : (b.touch i).cell = b.cell := rfl
@[simp] theorem touch_slots (b : Block α) (i : Nat) : (b.touch i).slots = b.slots := rfl
@[simp] theorem touch_log (b : Block α) (i : Nat) : (b.touch i).log = (i, b.slots) :: b.log := rfl
@[simp] theorem store_cell (b : Block α) (i : Nat) (x : α) :
    (b.store i x).cell = Function.update b.cell i x := rfl
@[simp] theorem store_slots (b : Block α) (i : Nat) (x : α) : (b.store i x).slots = b.slots := rfl
@[simp] theorem store_log (b : Block α) (i : Nat) (x : α) :
    (b.store i x).log = (i, b.slots) :: b.log := rfl
@[simp] theorem resize_cell (b : Block α) (n : Nat) : (b.resize n).cell = b.cell := rfl
@[simp] theorem resize_slots (b : Block α) (n : Nat) : (b.resize n).slots = n := rfl
@[simp] theorem resize_log (b : Block α) (n : Nat) : (b.resize n).log = b.log := rfl

end Block

/-- `struct heap`. -/
structure Heap (α : Type) where
  heap : Block α
  size : Nat
  items : Nat
  compare : α → α → Int

/-- What a call of `malloc` or `realloc` answers: a block, or `NULL`. After a `NULL`, `garbage` is
what the slots of a later block hold. -/
inductive Alloc (α : Type) where
  | block
  | null (garbage : Nat → α)

/-- `ENOMEM`. -/
def ENOMEM : Int := 12

/-- `INITIAL_SIZE`. -/
def INITIAL_SIZE : Nat := 16

/-- `heap_init`. The slots of the fresh block hold `garbage`. -/
def heapInit (malloc : Alloc α) (garbage : Nat → α) (compare : α → α → Int) : Int × Heap α :=
  match malloc with
  | .null garbage => (ENOMEM, ⟨⟨garbage, 0, []⟩, INITIAL_SIZE, 0, compare⟩)
  | .block => (0, ⟨⟨garbage, INITIAL_SIZE, []⟩, INITIAL_SIZE, 0, compare⟩)

/-- `heap_empty`. -/
def heapEmpty (h : Heap α) : Bool := h.items == 0

/-- `heap_size`. -/
def heapSize (h : Heap α) : Nat := h.items

/-- The `while` loop of `heap_push`: the final block and `current`. -/
def siftUp (compare : α → α → Int) (item : α) : Nat → Block α → Nat → Block α × Nat
  | 0, b, current => (b, current)
  | fuel + 1, b, current =>
    if current > 1 then
      let b := b.touch (current / 2)
      if compare (b.cell (current / 2)) item > 0 then
        let b := (b.touch (current / 2)).store current (b.cell (current / 2))
        siftUp compare item fuel b (current / 2)
      else
        (b, current)
    else
      (b, current)

/-- `heap_push` from the increment of `items` on. -/
def pushItem (h : Heap α) (item : α) : Heap α :=
  let items := h.items + 1
  let b := h.heap.store items item
  let r := siftUp h.compare item items b items
  { h with items := items, heap := r.1.store r.2 item }

/-- `heap_push`, with the answer of the `realloc` it may call. -/
def heapPush (realloc : Alloc α) (h : Heap α) (item : α) : Int × Heap α :=
  if h.items + 1 ≥ h.size then
    match realloc with
    | .null garbage => (ENOMEM, { h with heap := ⟨garbage, 0, h.heap.log⟩ })
    | .block =>
      (0, pushItem { h with heap := h.heap.resize (h.size * 2), size := h.size * 2 } item)
  else
    (0, pushItem h item)

/-- `heap_min`. -/
def heapMin (h : Heap α) : Option α × Heap α :=
  if h.items = 0 then (none, h)
  else (some (h.heap.cell 1), { h with heap := h.heap.touch 1 })

/-- One step of the hole in `heap_pop_min`: `heap[parent] = heap[child]`. -/
def moveUp (b : Block α) (parent child : Int) : Block α :=
  (b.touch child.toNat).store parent.toNat (b.cell child.toNat)

/-- The `while` loop of `heap_pop_min`: the final block and `parent`. -/
def siftDown (compare : α → α → Int) (newRoot : α) (items : Nat) :
    Nat → Block α → Int → Block α × Int
  | 0, b, parent => (b, parent)
  | fuel + 1, b, parent =>
    let left := CInt.int (parent * 2)
    let right := CInt.int (parent * 2 + 1)
    if CInt.size left ≤ items then
      let b := b.touch left.toNat
      if compare newRoot (b.cell left.toNat) > 0 then
        if CInt.size right > items then
          siftDown compare newRoot items fuel (moveUp b parent left) left
        else
          let b := (b.touch left.toNat).touch right.toNat
          if compare (b.cell left.toNat) (b.cell right.toNat) < 0 then
            siftDown compare newRoot items fuel (moveUp b parent left) left
          else
            siftDown compare newRoot items fuel (moveUp b parent right) right
      else
        -- no test of `right` against `items` here
        let b := b.touch right.toNat
        if compare newRoot (b.cell right.toNat) > 0 then
          siftDown compare newRoot items fuel (moveUp b parent right) right
        else
          (b, parent)
    else
      (b, parent)

/-- `heap_pop_min` up to the resize: the item removed and the heap without it. -/
def popItem (h : Heap α) : α × Heap α :=
  let b := h.heap.touch 1
  let item := b.cell 1
  let b := (b.touch h.items).store 1 (b.cell h.items)
  let items := h.items - 1
  let b := b.touch 1
  let newRoot := b.cell 1
  let r := siftDown h.compare newRoot items items b 1
  (item, { h with items := items, heap := r.1.store r.2.toNat newRoot })

/-- The condition of the resize at the end of `heap_pop_min`. -/
def shrinks (h : Heap α) : Bool := h.items + 1 < h.size / 4 && h.size > INITIAL_SIZE

/-- `heap_pop_min`, with the answer of the `realloc` it may call. The resize leaves `size` as it
was. -/
def heapPopMin (realloc : Alloc α) (h : Heap α) : Option α × Heap α :=
  if h.items = 0 then (none, h)
  else
    let r := popItem h
    if shrinks r.2 then
      match realloc with
      | .null _ => (some r.1, r.2)
      | .block => (some r.1, { r.2 with heap := r.2.heap.resize (r.2.size / 2) })
    else
      (some r.1, r.2)

end Lwthread.Util
