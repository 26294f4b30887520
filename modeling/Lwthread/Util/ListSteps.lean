import Lwthread.Util.List

/-!
# `list_push_back` and `list_pop_front`, statement by statement

Between two statements of these functions a signal handler may run, or another thread. `pushStep` and
`popStep` perform one of their statements. What a ring looks like before each of them is said by
`Pushing` and `Popping`; the last statement leaves a ring again. They read and write the links of the
ring and of the node that is put in only (`pushStep_frame`, `popStep_frame`).
-/

namespace Lwthread.Util

open Rings

variable {ν : Type} [DecidableEq ν]

/-! ## The statements -/

/-- The next statement of `list_push_back`: its call of `list_back`, or one of `list_insert`, which has
been given `after`. -/
inductive PushPc (ν : Type) where
  | back
  | itemNext (after : ν)
  | itemPrev (after : ν)
  | afterNext (after : ν)
  | nextPrev
  deriving DecidableEq

/-- The next statement of `list_pop_front`: its read of `list->next`, or one of `list_remove`. -/
inductive PopPc (ν : Type) where
  | front
  | prevNext (item : ν)
  | nextPrev (item : ν)
  | itemPrev (item : ν)
  | itemNext (item : ν)
  deriving DecidableEq

/-- One statement of `list_push_back`, with the next one, if any. Where the source dereferences a null
pointer it does not go on. -/
def pushStep (m : Mem ν) (list item : ν) : PushPc ν → Mem ν × Option (PushPc ν)
  | .back => (m, some ((m.prev list).elim .back .itemNext))
  | .itemNext after => (setNext m item (m.next after), some (.itemPrev after))
  | .itemPrev after => (setPrev m item (some after), some (.afterNext after))
  | .afterNext after => (setNext m after (some item), some .nextPrev)
  | .nextPrev =>
    match m.next item with
    | none => (m, some .nextPrev)
    | some next => (setPrev m next (some item), none)

/-- One statement of `list_pop_front`, with the next one, or the node that it returns. -/
def popStep (m : Mem ν) (list : ν) : PopPc ν → Mem ν × (PopPc ν ⊕ ν)
  | .front => (m, .inl ((m.next list).elim .front .prevNext))
  | .prevNext item =>
    match m.prev item with
    | none => (m, .inl (.prevNext item))
    | some prev => (setNext m prev (m.next item), .inl (.nextPrev item))
  | .nextPrev item =>
    match m.next item with
    | none => (m, .inl (.nextPrev item))
    | some next => (setPrev m next (m.prev item), .inl (.itemPrev item))
  | .itemPrev item => (setPrev m item none, .inl (.itemNext item))
  | .itemNext item => (setNext m item none, .inr item)

/-! ## A node goes in -/

/-- The ring `xs` of `list` before a statement of `list_push_back`. -/
def Pushing (m : Mem ν) (list : ν) (xs : List ν) (item : ν) : PushPc ν → Prop
  | .back => Ring m list xs
  | .itemNext after => Ring m list xs ∧ m.prev list = some after
  | .itemPrev after => Ring m list xs ∧ m.prev list = some after ∧ m.next item = some list
  | .afterNext after =>
    Ring m list xs ∧ m.prev list = some after ∧ m.next item = some list ∧ m.prev item = some after
  | .nextPrev => Ring (setPrev m list (some item)) list (xs ++ [item])

section

variable {m m' : Mem ν} {list item a b : ν} {xs : List ν} {p p' : PushPc ν}

@[simp] theorem setPrev_self (c : Option ν) : (setPrev m a c).prev a = c :=
  Function.update_self _ _ _

theorem setNext_ne (c : Option ν) (h : b ≠ a) : (setNext m a c).next b = m.next b :=
  Function.update_of_ne h _ _

theorem setPrev_ne (c : Option ν) (h : b ≠ a) : (setPrev m a c).prev b = m.prev b :=
  Function.update_of_ne h _ _

/-- The links of other nodes are not read. -/
theorem Pushing.frame (h : Pushing m list xs item p)
    (hn : ∀ y ∈ item :: list :: xs, m'.next y = m.next y)
    (hb : ∀ y ∈ item :: list :: xs, m'.prev y = m.prev y) : Pushing m' list xs item p := by
  have hitem : item ∈ item :: list :: xs := List.mem_cons_self
  have hlist : list ∈ item :: list :: xs := List.mem_cons_of_mem item List.mem_cons_self
  have hring : Ring m list xs → Ring m' list xs := fun hr =>
    hr.frame (fun y hy => hn y (List.mem_cons_of_mem item hy))
      fun y hy => hb y (List.mem_cons_of_mem item hy)
  cases p with
  | back => exact hring h
  | itemNext => exact ⟨hring h.1, (hb list hlist).trans h.2⟩
  | itemPrev =>
    obtain ⟨hr, hback, hnext⟩ := h
    exact ⟨hring hr, (hb list hlist).trans hback, (hn item hitem).trans hnext⟩
  | afterNext =>
    obtain ⟨hr, hback, hnext, hprev⟩ := h
    exact ⟨hring hr, (hb list hlist).trans hback, (hn item hitem).trans hnext,
      (hb item hitem).trans hprev⟩
  | nextPrev =>
    have hmem : ∀ {y}, y ∈ list :: (xs ++ [item]) → y ∈ item :: list :: xs := by
      intro y hy
      simp only [List.mem_cons, List.mem_append, List.not_mem_nil, or_false] at hy ⊢
      tauto
    refine Ring.frame h (fun y hy => hn y (hmem hy)) fun y hy => ?_
    by_cases hyl : y = list
    · subst hyl
      rw [setPrev_self, setPrev_self]
    · rw [setPrev_ne _ hyl, setPrev_ne _ hyl]
      exact hb y (hmem hy)

/-- The node that `list_insert` is given is on the ring. -/
theorem Pushing.after_mem (item : ν) (hr : Ring m list xs) (hback : m.prev list = some a) :
    a ∈ list :: xs ∧ m.next a = some list ∧
      (if a = list then item :: xs else insertAfter a item xs) = xs ++ [item] := by
  obtain ⟨p, hprev, hnext, hmem, hseq⟩ := hr.last item
  obtain rfl : p = a := Option.some.inj (hprev.symm.trans hback)
  exact ⟨hmem, hnext, hseq⟩

/-- **A statement of `list_push_back`** takes the ring to the next one, and the last leaves a ring with
the new node at its end. -/
theorem Pushing.step (h : Pushing m list xs item p) (hx : p ≠ .back → item ∉ list :: xs) :
    (∀ p', (pushStep m list item p).2 = some p' → Pushing (pushStep m list item p).1 list xs item p') ∧
      ((pushStep m list item p).2 = none →
        Ring (pushStep m list item p).1 list (xs ++ [item])) := by
  cases p with
  | back =>
    obtain ⟨a, ha, -⟩ := Ring.last h item
    refine ⟨?_, by rintro ⟨⟩⟩
    simp only [pushStep, ha]
    rintro p' ⟨⟩
    exact ⟨h, ha⟩
  | itemNext after =>
    refine ⟨?_, by rintro ⟨⟩⟩
    rintro p' ⟨⟩
    have hx := hx (by rintro ⟨⟩)
    have hring : Ring (setNext m item (m.next after)) list xs :=
      h.1.frame (fun y hy => setNext_ne _ (ne_of_mem_of_not_mem hy hx)) fun _ _ => rfl
    refine ⟨hring, h.2, ?_⟩
    exact (Function.update_self _ _ _).trans (Pushing.after_mem item h.1 h.2).2.1
  | itemPrev after =>
    refine ⟨?_, by rintro ⟨⟩⟩
    rintro p' ⟨⟩
    obtain ⟨hr, hback, hn⟩ := h
    have hx := hx (by rintro ⟨⟩)
    have hring : Ring (setPrev m item (some after)) list xs :=
      hr.frame (fun _ _ => rfl) fun y hy => setPrev_ne _ (ne_of_mem_of_not_mem hy hx)
    have hxl : list ≠ item := ne_of_mem_of_not_mem List.mem_cons_self hx
    exact ⟨hring, (setPrev_ne _ hxl).trans hback, hn, Function.update_self _ _ _⟩
  | afterNext after =>
    refine ⟨?_, by rintro ⟨⟩⟩
    rintro p' ⟨⟩
    obtain ⟨hr, hback, hn, hp⟩ := h
    obtain ⟨hmem, hlink, hseq⟩ := Pushing.after_mem item hr hback
    have hring := hr.splice hmem hlink (hx (by rintro ⟨⟩))
    rw [hseq] at hring
    -- the first two writes of the splice have been made
    have hm : m.splice after item list = setPrev (setNext m after (some item)) list (some item) := by
      have hnext' : Function.update m.next item (some list) = m.next :=
        Function.update_eq_self_iff.2 hn.symm
      have hprev' : Function.update m.prev item (some after) = m.prev :=
        Function.update_eq_self_iff.2 hp.symm
      rw [Mem.splice, hnext', hprev']
      rfl
    rw [hm] at hring
    exact hring
  | nextPrev =>
    have hlink : m.next item = some list := (Path.append_iff.1 (Ring.path h)).2.1
    refine ⟨?_, fun _ => ?_⟩
    · simp only [pushStep, hlink]
      rintro p' ⟨⟩
    · simp only [pushStep, hlink]
      exact h

/-- A statement of `list_push_back` writes to the ring and to the new node. -/
theorem pushStep_frame (h : Pushing m list xs item p) {y : ν} (hy : y ∉ item :: list :: xs) :
    (pushStep m list item p).1.next y = m.next y ∧ (pushStep m list item p).1.prev y = m.prev y := by
  obtain ⟨hyi, hyl⟩ := not_or.1 (List.mem_cons.not.1 hy)
  cases p with
  | back => exact ⟨rfl, rfl⟩
  | itemNext => exact ⟨setNext_ne _ hyi, rfl⟩
  | itemPrev => exact ⟨rfl, setPrev_ne _ hyi⟩
  | afterNext after =>
    have hmem := (Pushing.after_mem item h.1 h.2.1).1
    exact ⟨setNext_ne _ (ne_of_mem_of_not_mem hmem hyl).symm, rfl⟩
  | nextPrev =>
    have hlink : m.next item = some list := (Path.append_iff.1 (Ring.path h)).2.1
    simp only [pushStep, hlink]
    exact ⟨rfl, setPrev_ne _ fun heq => hyl (heq ▸ List.mem_cons_self)⟩

end

/-! ## A node comes out -/

/-- The ring of `list`, from which `item` is taken and which has `xs` left, before a statement of
`list_pop_front`. -/
def Popping (m : Mem ν) (list x : ν) (xs : List ν) : PopPc ν → Prop
  | .front => Ring m list (x :: xs)
  | .prevNext item => item = x ∧ Ring m list (x :: xs)
  | .nextPrev item => item = x ∧ m.prev x = some list ∧
    ∃ next, m.next x = some next ∧ next ∈ list :: xs ∧ Ring (setPrev m next (some list)) list xs
  | .itemPrev item => item = x ∧ m.next x ≠ none ∧ Ring m list xs
  | .itemNext item => item = x ∧ m.prev x = none ∧ m.next x ≠ none ∧ Ring m list xs

section

variable {m m' : Mem ν} {list x a b : ν} {xs : List ν} {p p' : PopPc ν}

theorem Popping.frame (h : Popping m list x xs p) (hn : ∀ y ∈ list :: x :: xs, m'.next y = m.next y)
    (hb : ∀ y ∈ list :: x :: xs, m'.prev y = m.prev y) : Popping m' list x xs p := by
  have hx : x ∈ list :: x :: xs := List.mem_cons_of_mem list List.mem_cons_self
  have hmem : ∀ {y}, y ∈ list :: xs → y ∈ list :: x :: xs := by
    intro y hy
    rcases List.mem_cons.1 hy with rfl | hy
    · exact List.mem_cons_self
    · exact List.mem_cons_of_mem list (List.mem_cons_of_mem x hy)
  have hring : Ring m list xs → Ring m' list xs := fun hr =>
    hr.frame (fun y hy => hn y (hmem hy)) fun y hy => hb y (hmem hy)
  cases p with
  | front => exact Ring.frame h hn hb
  | prevNext => exact ⟨h.1, h.2.frame hn hb⟩
  | nextPrev =>
    obtain ⟨hitem, hprev, next, hnext, hin, hr⟩ := h
    refine ⟨hitem, (hb x hx).trans hprev, next, (hn x hx).trans hnext, hin, hr.frame ?_ ?_⟩
    · exact fun y hy => hn y (hmem hy)
    · intro y hy
      by_cases hyn : y = next
      · subst hyn
        rw [setPrev_self, setPrev_self]
      · rw [setPrev_ne _ hyn, setPrev_ne _ hyn]
        exact hb y (hmem hy)
  | itemPrev =>
    obtain ⟨hitem, hnext, hr⟩ := h
    exact ⟨hitem, by rwa [hn x hx], hring hr⟩
  | itemNext =>
    obtain ⟨hitem, hprev, hnext, hr⟩ := h
    exact ⟨hitem, (hb x hx).trans hprev, by rwa [hn x hx], hring hr⟩

/-- **A statement of `list_pop_front`** takes the ring to the next one, and the last leaves a ring
without the first node, which is reset. -/
theorem Popping.step (h : Popping m list x xs p) (hx : x ∉ list :: xs) :
    (∀ p', (popStep m list p).2 = .inl p' → Popping (popStep m list p).1 list x xs p') ∧
      ∀ y, (popStep m list p).2 = .inr y →
        y = x ∧ Ring (popStep m list p).1 list xs ∧ (popStep m list p).1.next x = none ∧
          (popStep m list p).1.prev x = none := by
  have hne : ∀ {y}, y ∈ list :: xs → y ≠ x := fun hy => ne_of_mem_of_not_mem hy hx
  cases p with
  | front =>
    have hlink : m.next list = some x := (Ring.path h).1.1
    simp only [popStep, hlink]
    refine ⟨?_, nofun⟩
    rintro p' ⟨⟩
    exact ⟨rfl, h⟩
  | prevNext item =>
    obtain ⟨rfl, hr⟩ := h
    have hprev : m.prev item = some list := hr.path.1.2
    obtain ⟨next, -, hnext, -, hin, -⟩ := hr.links (List.mem_cons_of_mem list List.mem_cons_self)
    have hring := hr.unlink List.mem_cons_self hprev hnext
    rw [List.erase_cons_head] at hring
    have hin' : next ∈ list :: xs := by
      obtain ⟨q, hq, hq'⟩ := hr.path.2.next_mem
      rw [Option.some.inj (hnext.symm.trans hq')]
      exact Ring.mem_of_rest hq
    simp only [popStep, hprev]
    refine ⟨?_, nofun⟩
    rintro p' ⟨⟩
    refine ⟨rfl, hprev, next, (setNext_ne _ (hne List.mem_cons_self).symm).trans hnext, hin', ?_⟩
    -- the writes that reset the node are still to come
    refine hring.frame (fun y hy => ?_) fun y hy => ?_
    · rw [hnext]
      exact (Function.update_of_ne (hne hy) _ _).symm
    · exact (Function.update_of_ne (hne hy) _ _).symm
  | nextPrev item =>
    obtain ⟨rfl, hprev, next, hnext, hin, hr⟩ := h
    simp only [popStep, hnext, hprev]
    refine ⟨?_, nofun⟩
    rintro p' ⟨⟩
    exact ⟨rfl, by rw [show (setPrev m next (some list)).next item = some next from hnext]; nofun, hr⟩
  | itemPrev item =>
    obtain ⟨rfl, hnext, hr⟩ := h
    refine ⟨?_, nofun⟩
    rintro p' ⟨⟩
    exact ⟨rfl, Function.update_self _ _ _, hnext,
      hr.frame (fun _ _ => rfl) fun y hy => setPrev_ne _ (hne hy)⟩
  | itemNext item =>
    obtain ⟨rfl, hprev, -, hr⟩ := h
    refine ⟨nofun, ?_⟩
    rintro y ⟨⟩
    exact ⟨rfl, hr.frame (fun y hy => setNext_ne _ (hne hy)) fun _ _ => rfl,
      Function.update_self _ _ _, hprev⟩

/-- A statement of `list_pop_front` writes to the ring. -/
theorem popStep_frame (h : Popping m list x xs p) {y : ν} (hy : y ∉ list :: x :: xs) :
    (popStep m list p).1.next y = m.next y ∧ (popStep m list p).1.prev y = m.prev y := by
  obtain ⟨hyl, hyx, hys⟩ : y ≠ list ∧ y ≠ x ∧ y ∉ xs := by
    simpa only [List.mem_cons, not_or] using hy
  cases p with
  | front => exact ⟨rfl, rfl⟩
  | prevNext =>
    obtain ⟨rfl, hr⟩ := h
    simp only [popStep, hr.path.1.2]
    exact ⟨setNext_ne _ hyl, rfl⟩
  | nextPrev =>
    obtain ⟨rfl, hprev, next, hnext, hin, -⟩ := h
    simp only [popStep, hnext]
    refine ⟨rfl, setPrev_ne _ ?_⟩
    rintro rfl
    exact (List.mem_cons.1 hin).elim hyl hys
  | itemPrev =>
    obtain ⟨rfl, -⟩ := h
    exact ⟨rfl, setPrev_ne _ hyx⟩
  | itemNext =>
    obtain ⟨rfl, -⟩ := h
    exact ⟨setNext_ne _ hyx, rfl⟩

end

end Lwthread.Util
