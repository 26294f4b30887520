import Mathlib.Data.Set.Insert
import Mathlib.Logic.Function.Basic

/-!
# Dispatchers

What a scheduler with a line of waiting tasks for each thread is for. A board says which tasks there
are, which one each thread runs, and which ones are in line for it, the next one first. A task that
no thread runs and that is in no line is asleep.

Tasks join a line at its end and leave it at its front, so whoever leaves it leaves in the order in
which they have joined (`Run.fifo`), and nobody is overtaken (`Shows.in_line`).

A scheduler takes many steps for one event, so a step of it shows an event or none (`Shows`).
-/

namespace Dispatch

variable {τ α : Type*}

structure Board (τ α : Type*) where
  live : Set α
  running : τ → Option α
  ready : τ → List α

/-- What happens on a board. -/
inductive Event (τ α : Type*) where
  /-- a task comes into being, asleep -/
  | make (x : α)
  /-- a thread comes into being, with the task it runs -/
  | thread (t : τ) (x : α)
  /-- a task that is asleep joins the line of a thread -/
  | wake (t : τ) (x : α)
  /-- the task `c` gives way to the next in line, and joins the line -/
  | yield (t : τ) (c x : α)
  /-- the task `c` goes to sleep, and the next in line runs -/
  | sleep (t : τ) (c x : α)
  /-- the task `c`, which runs on, puts the next in line at the end of it -/
  | rotate (t : τ) (c x : α)
  /-- the task `c` is no more -/
  | exit (t : τ) (c : α)
  /-- a thread whose task is no more runs the next in line -/
  | next (t : τ) (x : α)

/-- There is a task `x`, which no thread runs and which is in no line. -/
structure Board.Asleep (b : Board τ α) (x : α) : Prop where
  live : x ∈ b.live
  off : ∀ t, b.running t ≠ some x ∧ x ∉ b.ready t

variable [DecidableEq τ]

inductive Step (b : Board τ α) : Event τ α → Board τ α → Prop
  | make {x} (hx : x ∉ b.live) : Step b (.make x) { b with live := insert x b.live }
  | thread {t x} (hx : x ∉ b.live) (ht : b.running t = none) (hq : b.ready t = []) :
      Step b (.thread t x)
        { b with live := insert x b.live, running := Function.update b.running t (some x) }
  | wake {t x} (hx : b.Asleep x) :
      Step b (.wake t x) { b with ready := Function.update b.ready t (b.ready t ++ [x]) }
  | yield {t c x xs} (hc : b.running t = some c) (hx : b.ready t = x :: xs) :
      Step b (.yield t c x)
        { b with
          running := Function.update b.running t (some x)
          ready := Function.update b.ready t (xs ++ [c]) }
  | sleep {t c x xs} (hc : b.running t = some c) (hx : b.ready t = x :: xs) :
      Step b (.sleep t c x)
        { b with
          running := Function.update b.running t (some x)
          ready := Function.update b.ready t xs }
  | rotate {t c x xs} (hc : b.running t = some c) (hx : b.ready t = x :: xs) :
      Step b (.rotate t c x) { b with ready := Function.update b.ready t (xs ++ [x]) }
  | exit {t c} (hc : b.running t = some c) :
      Step b (.exit t c)
        { b with live := b.live \ {c}, running := Function.update b.running t none }
  | next {t x xs} (hn : b.running t = none) (hx : b.ready t = x :: xs) :
      Step b (.next t x)
        { b with
          running := Function.update b.running t (some x)
          ready := Function.update b.ready t xs }

/-- The events of a run, the first one first. -/
inductive Run (b : Board τ α) : List (Event τ α) → Board τ α → Prop
  | init : Run b [] b
  | step {es b' e b''} (h : Run b es b') (hs : Step b' e b'') : Run b (es ++ [e]) b''

/-- What a step of a scheduler does to its board: it shows the event `o`, or it shows nothing. -/
def Shows (b : Board τ α) (o : Option (Event τ α)) (b' : Board τ α) : Prop :=
  match o with
  | none => b' = b
  | some e => Step b e b'

theorem Run.shows {b b' b'' : Board τ α} {es : List (Event τ α)} {o : Option (Event τ α)}
    (h : Run b es b') (hs : Shows b' o b'') : Run b (es ++ o.toList) b'' := by
  cases o with
  | none =>
    obtain rfl : b'' = b' := hs
    rw [Option.toList_none, List.append_nil]
    exact h
  | some e => exact h.step hs

/-! ## Lines -/

/-- Who joins the line of `t`. -/
def Event.joins (t : τ) : Event τ α → List α
  | .wake u x => if u = t then [x] else []
  | .yield u c _ => if u = t then [c] else []
  | .rotate u _ x => if u = t then [x] else []
  | _ => []

/-- Who leaves the line of `t`. -/
def Event.leaves (t : τ) : Event τ α → List α
  | .yield u _ x => if u = t then [x] else []
  | .sleep u _ x => if u = t then [x] else []
  | .rotate u _ x => if u = t then [x] else []
  | .next u x => if u = t then [x] else []
  | _ => []

variable {b b' : Board τ α} {e : Event τ α} {es : List (Event τ α)} {t : τ} {x : α}

/-- What an event does to the line of `t`. -/
theorem Step.fifo (h : Step b e b') (t : τ) :
    b.ready t ++ e.joins t = e.leaves t ++ b'.ready t := by
  have hne : ∀ {u : τ} {q : List α}, u ≠ t → Function.update b.ready u q t = b.ready t :=
    fun hu => Function.update_of_ne (Ne.symm hu) _ _
  cases h with
  | make => exact List.append_nil _
  | thread => exact List.append_nil _
  | exit => exact List.append_nil _
  | @wake u x =>
    by_cases hu : u = t
    · subst hu
      simp [Event.joins, Event.leaves]
    · simp [Event.joins, Event.leaves, hu, hne hu]
  | @yield u c x xs _ hx =>
    by_cases hu : u = t
    · subst hu
      simp [Event.joins, Event.leaves, hx]
    · simp [Event.joins, Event.leaves, hu, hne hu]
  | @sleep u c x xs _ hx =>
    by_cases hu : u = t
    · subst hu
      simp [Event.joins, Event.leaves, hx]
    · simp [Event.joins, Event.leaves, hu, hne hu]
  | @rotate u c x xs _ hx =>
    by_cases hu : u = t
    · subst hu
      simp [Event.joins, Event.leaves, hx]
    · simp [Event.joins, Event.leaves, hu, hne hu]
  | @next u x xs _ hx =>
    by_cases hu : u = t
    · subst hu
      simp [Event.joins, Event.leaves, hx]
    · simp [Event.joins, Event.leaves, hu, hne hu]

/-- **First in, first out**: the tasks that leave a line are those in it and then those that join it,
in that order, and the others are still in it. -/
theorem Run.fifo (h : Run b es b') (t : τ) :
    b.ready t ++ es.flatMap (·.joins t) = es.flatMap (·.leaves t) ++ b'.ready t := by
  induction h with
  | init => simp
  | @step es b₁ e b₂ _ hs ih =>
    have hstep := hs.fifo t
    simp only [List.flatMap_append, List.flatMap_cons, List.flatMap_nil, List.append_nil]
    rw [← List.append_assoc, ih, List.append_assoc, hstep, List.append_assoc]

/-- `x` has its turn: it leaves the line of `t`, to run or to go to its end. -/
structure Turn (b : Board τ α) (e : Event τ α) (b' : Board τ α) (t : τ) (x : α) : Prop where
  step : Step b e b'
  leaves : e.leaves t = [x]

theorem Event.leaves_cases (e : Event τ α) (t : τ) : e.leaves t = [] ∨ ∃ y, e.leaves t = [y] := by
  have hite : ∀ {u : τ} {y : α}, (if u = t then [y] else []) = [] ∨
      ∃ z, (if u = t then [y] else []) = [z] := by
    intro u y
    split
    · exact .inr ⟨y, rfl⟩
    · exact .inl rfl
  cases e with
  | yield => exact hite
  | sleep => exact hite
  | rotate => exact hite
  | next => exact hite
  | _ => exact .inl rfl

/-- After an event, those ahead of `x` in the line of `t` are those that were ahead of it before, or
all but the first of them, unless `x` was the first and has its turn. -/
theorem Step.in_line (h : Step b e b') {pre post : List α} (hx : b.ready t = pre ++ x :: post) :
    (∃ n post', b'.ready t = pre.drop n ++ x :: post') ∨ Turn b e b' t x := by
  have hfifo := h.fifo t
  rw [hx] at hfifo
  rcases e.leaves_cases t with hl | ⟨y, hl⟩
  · rw [hl, List.nil_append, List.append_assoc] at hfifo
    exact .inl ⟨0, post ++ e.joins t, hfifo.symm⟩
  · rw [hl] at hfifo
    cases pre with
    | nil =>
      obtain ⟨rfl, -⟩ := List.cons.inj hfifo
      exact .inr ⟨h, hl⟩
    | cons z pre =>
      obtain ⟨-, hready⟩ := List.cons.inj hfifo
      exact .inl ⟨1, post ++ e.joins t, hready.symm.trans (List.append_assoc pre (x :: post) _)⟩

/-- **Nobody is overtaken**: a step of a scheduler leaves those ahead of `x` as they are, or without
the first of them, unless it shows that `x`, the first in line, has its turn. -/
theorem Shows.in_line {o : Option (Event τ α)} (h : Shows b o b') {pre post : List α}
    (hx : b.ready t = pre ++ x :: post) :
    (∃ n post', b'.ready t = pre.drop n ++ x :: post') ∨ ∃ e, o = some e ∧ Turn b e b' t x := by
  cases o with
  | none =>
    obtain rfl : b' = b := h
    exact .inl ⟨0, post, hx⟩
  | some e =>
    have hstep : Step b e b' := h
    exact (hstep.in_line hx).imp_right fun hturn => ⟨e, rfl, hturn⟩

end Dispatch
