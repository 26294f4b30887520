import Lwthread.Util.HeapQueue

/-!
# The heap keeps its items

Whatever the comparator answers, as long as it puts no item strictly after itself, the sift loops
only move items about: after any sequence of calls the heap holds what was pushed less what
`heap_pop_min` has returned, and popping until `NULL` returns all of it (`heap_conserves_items`). No
order is asked of the comparator, so this also holds of `timer_compare` where it is not one.
-/

namespace Lwthread.Util

variable {α : Type}

/-- The item that a call pushes. -/
def pushedBy : Call α × Reply α → Multiset α
  | (.push item, _) => {item}
  | _ => 0

/-- The item that a call of `heap_pop_min` returns. -/
def returnedBy : Call α × Reply α → Multiset α
  | (.popMin, .item (some x)) => {x}
  | _ => 0

/-- The items that the calls of a sequence push. -/
def pushed (tr : List (Call α × Reply α)) : Multiset α := (tr.map pushedBy).sum

/-- The items that `heap_pop_min` returns in a sequence of calls. -/
def returned (tr : List (Call α × Reply α)) : Multiset α := (tr.map returnedBy).sum

theorem call_compare (h : Heap α) (c : Call α) : (call h c).2.compare = h.compare := by
  cases c with
  | push item => exact heapPush_compare h item
  | popMin => exact heapPopMin_compare h
  | min =>
    simp only [call, heapMin]
    split <;> rfl
  | _ => rfl

/-- One call moves items between the heap and its user. -/
theorem call_conserves {h : Heap α} (hlt : h.items < 2 ^ 30) (hrefl : ∀ x, h.compare x x ≤ 0)
    (c : Call α) :
    (call h c).2.bag + returnedBy (c, (call h c).1) = pushedBy (c, (call h c).1) + h.bag := by
  cases c with
  | push item =>
    simp only [call, returnedBy, pushedBy, heapPush_bag, add_zero, Multiset.singleton_add]
  | min =>
    simp only [call, returnedBy, pushedBy, add_zero, zero_add, heapMin]
    split <;> rfl
  | size => simp only [call, returnedBy, pushedBy, add_zero, zero_add]
  | empty => simp only [call, returnedBy, pushedBy, add_zero, zero_add]
  | popMin =>
    simp only [call]
    by_cases hi : h.items = 0
    · simp only [heapPopMin_null hi, returnedBy, pushedBy, add_zero, zero_add]
    · have hbag := heapPopMin_bag hi (by omega) fun x _ => hrefl x
      simp only [heapPopMin_fst hi, returnedBy, pushedBy, zero_add]
      rw [add_comm, Multiset.singleton_add, hbag]

/-- A sequence of calls moves items between the heap and its user. -/
theorem calls_conserve : ∀ (cs : List (Call α)) {h : Heap α}, (∀ x, h.compare x x ≤ 0) →
    Below h cs →
    (calls h cs).2.bag + returned (calls h cs).1 = pushed (calls h cs).1 + h.bag
  | [], h, _, _ => by simp [calls, returned, pushed]
  | c :: cs, h, hrefl, hb => by
    have hstep := call_conserves hb.1 hrefl c
    have hrest := calls_conserve cs (fun x => by rw [call_compare]; exact hrefl x) hb.2
    simp only [returned, pushed] at hrest
    simp only [calls, returned, pushed, List.map_cons, List.sum_cons]
    rw [add_left_comm, hrest, add_left_comm, add_comm (returnedBy _), hstep, add_left_comm,
      add_assoc]

/-- Popping until `NULL` returns every item once. -/
theorem popUntilNull_bag : ∀ (n : Nat) {h : Heap α}, (∀ x, h.compare x x ≤ 0) → h.items = n →
    n < 2 ^ 30 → ∃ out, popUntilNull (n + 1) h = some out ∧ (out : Multiset α) = h.bag
  | 0, h, _, hi, _ => by
    refine ⟨[], ?_, (Multiset.card_eq_zero.1 (by rw [Heap.card_bag, hi])).symm⟩
    simp only [popUntilNull, heapPopMin_null hi]
  | n + 1, h, hrefl, hi, hn => by
    have hne : h.items ≠ 0 := by omega
    have hbag := heapPopMin_bag hne (by omega) fun x _ => hrefl x
    obtain ⟨out, hout, hmem⟩ := popUntilNull_bag n (h := (heapPopMin .block h).2)
      (fun x => by rw [heapPopMin_compare]; exact hrefl x)
      (by rw [(heapPopMin_cell hne).2, hi]; rfl) (by omega)
    refine ⟨h.heap.cell 1 :: out, ?_, by rw [← Multiset.cons_coe, hmem, hbag]⟩
    rw [popUntilNull, show heapPopMin .block h = (some (h.heap.cell 1), (heapPopMin .block h).2)
      from Prod.ext (heapPopMin_fst hne) rfl]
    simp only [hout, Option.map_some]

/-- **No item is lost or duplicated.** For a comparator with `compare(x, x) <= 0` and any sequence of
calls from `heap_init` with fewer than `2^30` items: what is in the heap and what `heap_pop_min` has
returned are together what was pushed, and draining the heap returns each item in it once. -/
theorem heap_conserves_items (compare : α → α → Int) (hrefl : ∀ x, compare x x ≤ 0)
    (garbage : Nat → α) (cs : List (Call α)) (hb : Below (heapInit .block garbage compare).2 cs) :
    let r := calls (heapInit .block garbage compare).2 cs
    r.2.bag + returned r.1 = pushed r.1 ∧
      ∃ out, popUntilNull (r.2.items + 1) r.2 = some out ∧ (out : Multiset α) = r.2.bag := by
  have hcmp : ∀ (cs : List (Call α)) (h : Heap α), (calls h cs).2.compare = h.compare := by
    intro cs
    induction cs with
    | nil => exact fun _ => rfl
    | cons c cs ih => exact fun h => (ih _).trans (call_compare h c)
  refine ⟨?_, popUntilNull_bag _ (fun x => by rw [hcmp]; exact hrefl x) rfl hb.last⟩
  have hbag : (heapInit .block garbage compare).2.bag = 0 := by simp [heapInit, Heap.bag]
  have h := calls_conserve cs (h := (heapInit .block garbage compare).2) hrefl hb
  rwa [hbag, add_zero] at h

/-- Every item compares equal to every other: the comparator is no order at all. -/
theorem heap_conserves_items_equal :
    let r := calls (heapInit .block (fun _ => 0) (fun _ _ : Nat => 0)).2 [.push 3, .push 5, .popMin]
    r.2.bag + returned r.1 = pushed r.1 ∧
      ∃ out, popUntilNull (r.2.items + 1) r.2 = some out ∧ (out : Multiset Nat) = r.2.bag :=
  heap_conserves_items _ (fun _ => le_rfl) _ _ (by simp only [Below, Along]; decide)

end Lwthread.Util
