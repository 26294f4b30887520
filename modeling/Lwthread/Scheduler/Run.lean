import Lwthread.Scheduler.Step

/-!
# Runs

A run starts in a state that `sched_init` leaves and takes actions of the machine, each meeting a
condition on it and on the state before it (`Reach`). Over sequences (`seqOps`) a run-list operation
is one step.
-/

namespace Lwthread.Scheduler

open Lwthread.Util

variable {Q ι δ : Type}

/-! ## Reachable states -/

/-- The states that runs from `s₀` reach when every action meets `ok`. -/
inductive Reach (ops : ListOps Q ι δ) (preemption : Bool) (ok : State Q ι δ → Act → Prop)
    (s₀ : State Q ι δ) : State Q ι δ → Prop
  | init : Reach ops preemption ok s₀ s₀
  | next {s s' a} (h : Reach ops preemption ok s₀ s) (hok : ok s a)
      (hs : step ops preemption s a = some s') : Reach ops preemption ok s₀ s'

/-- An invariant of the runs from `s₀`: it holds at the start and every step keeps it. -/
theorem Reach.invariant {ops : ListOps Q ι δ} {preemption : Bool} {ok : State Q ι δ → Act → Prop}
    {s₀ s : State Q ι δ} {P : State Q ι δ → Prop} (h₀ : P s₀)
    (hstep : ∀ {s s' a}, P s → ok s a → step ops preemption s a = some s' → P s')
    (h : Reach ops preemption ok s₀ s) : P s := by
  induction h with
  | init => exact h₀
  | next _ hok hs ih => exact hstep ih hok hs

/-- A run that meets `ok` meets every condition that `ok` implies of the actions taken. -/
theorem Reach.mono {ops : ListOps Q ι δ} {preemption : Bool} {ok ok' : State Q ι δ → Act → Prop}
    {s₀ s : State Q ι δ}
    (hok : ∀ {s s' a}, step ops preemption s a = some s' → ok s a → ok' s a)
    (h : Reach ops preemption ok s₀ s) : Reach ops preemption ok' s₀ s := by
  induction h with
  | init => exact .init
  | next _ hoka hs ih => exact ih.next (hok hs hoka) hs

/-- Take the actions of a list, as long as they pass `check`. -/
def run (ops : ListOps Q ι δ) (preemption : Bool) (check : State Q ι δ → Act → Bool) :
    State Q ι δ → List Act → Option (State Q ι δ)
  | s, [] => some s
  | s, a :: as =>
    if check s a then (step ops preemption s a).bind fun s => run ops preemption check s as else none

theorem Reach.run {ops : ListOps Q ι δ} {preemption : Bool} {check : State Q ι δ → Act → Bool}
    {ok : State Q ι δ → Act → Prop} {s₀ s s' : State Q ι δ} {as : List Act}
    (hr : run ops preemption check s as = some s') (hok : ∀ s a, check s a = true → ok s a)
    (h : Reach ops preemption ok s₀ s) : Reach ops preemption ok s₀ s' := by
  induction as generalizing s with
  | nil => cases hr; exact h
  | cons a as ih =>
    unfold Scheduler.run at hr
    split at hr
    · next hc =>
      obtain ⟨s₁, hs₁, hr⟩ := Option.bind_eq_some_iff.1 hr
      exact ih hr (h.next (hok s a hc) hs₁)
    · cases hr

/-! ## What is noted along a run -/

/-- The coroutine whose code the next step of thread `t` executes, with its point. -/
def State.running {Q ι δ : Type} (s : State Q ι δ) (t : Tid) : Option (Cid × Pc ι δ) :=
  match s.sched t with
  | none => none
  | some l =>
    match l.exec with
    | .on c => if (s.context c).sig.isEmpty then some (c, (s.context c).pc) else none
    | _ => none

def Act.thread : Act → Tid
  | .tick t _ => t
  | .signal t => t

section

variable {N : Type} {ops : ListOps Q ι δ} {preemption : Bool} {ok : State Q ι δ → Act → Prop}
  {note : State Q ι δ → Act → N → N} {s₀ s s' : State Q ι δ} {n₀ n n' : N}

/-- The states that runs from `s₀` reach, with what `note` has noted of their actions. -/
inductive Noted (ops : ListOps Q ι δ) (preemption : Bool) (ok : State Q ι δ → Act → Prop)
    (note : State Q ι δ → Act → N → N) (s₀ : State Q ι δ) (n₀ : N) : State Q ι δ → N → Prop
  | init : Noted ops preemption ok note s₀ n₀ s₀ n₀
  | next {s s' a n} (h : Noted ops preemption ok note s₀ n₀ s n) (hok : ok s a)
      (hs : step ops preemption s a = some s') : Noted ops preemption ok note s₀ n₀ s' (note s a n)

theorem Noted.reach (h : Noted ops preemption ok note s₀ n₀ s n) : Reach ops preemption ok s₀ s := by
  induction h with
  | init => exact .init
  | next _ hok hs ih => exact ih.next hok hs

theorem Noted.mono {ok' : State Q ι δ → Act → Prop} (hok : ∀ {s a}, ok s a → ok' s a)
    (h : Noted ops preemption ok note s₀ n₀ s n) : Noted ops preemption ok' note s₀ n₀ s n := by
  induction h with
  | init => exact .init
  | next _ hoka hs ih => exact ih.next (hok hoka) hs

/-- Take the actions of a list, as long as they pass `check`, and note them. -/
def noteRun (ops : ListOps Q ι δ) (preemption : Bool) (check : State Q ι δ → Act → Bool)
    (note : State Q ι δ → Act → N → N) :
    State Q ι δ → N → List Act → Option (State Q ι δ × N)
  | s, n, [] => some (s, n)
  | s, n, a :: as =>
    if check s a then
      (step ops preemption s a).bind fun s' =>
        noteRun ops preemption check note s' (note s a n) as
    else none

theorem Noted.run {check : State Q ι δ → Act → Bool} {as : List Act}
    (hr : noteRun ops preemption check note s n as = some (s', n'))
    (hok : ∀ s a, check s a = true → ok s a) (h : Noted ops preemption ok note s₀ n₀ s n) :
    Noted ops preemption ok note s₀ n₀ s' n' := by
  induction as generalizing s n with
  | nil => cases hr; exact h
  | cons a as ih =>
    unfold noteRun at hr
    split at hr
    · next hc =>
      obtain ⟨s₁, hs₁, hr⟩ := Option.bind_eq_some_iff.1 hr
      exact ih hr (h.next (hok s a hc) hs₁)
    · cases hr

end

/-! ## Run lists as sequences -/

/-- The run lists, front first, and whether each coroutine's node is linked. -/
structure Seq where
  list : Tid → List Cid
  linked : Cid → Bool

/-- No run list, no node. -/
def Seq.empty : Seq := ⟨fun _ => [], fun _ => false⟩

/-- The operations of `util/list.h` on sequences. -/
def seqOps : ListOps Seq Unit Unit where
  listInit q t := { q with list := Function.update q.list t [] }
  listNodeInit q c := { q with linked := Function.update q.linked c false }
  listEmpty q t := (q.list t).isEmpty
  listInList q c := q.linked c
  pushStart := ()
  push q t c _ :=
    ({ list := Function.update q.list t (q.list t ++ [c])
       linked := Function.update q.linked c true }, none)
  popStart := ()
  pop q t _ :=
    match q.list t with
    | [] => (q, .inr none)
    | c :: cs =>
      ({ list := Function.update q.list t cs, linked := Function.update q.linked c false },
        .inr (some c))

/-- The state of the machine over sequences. -/
abbrev SeqState := State Seq Unit Unit

/-- A state after `sched_init`, over sequences. -/
def seqInit (localSize : Nat) (garbage : Nat → TimerWait) (state errno threadErrno : Int) :
    SeqState :=
  schedInit seqOps Seq.empty localSize garbage state errno threadErrno

/-- The same on a machine with one processor, with memory that happens to be 0. -/
def seqStart : SeqState := seqInit 1 (fun _ => ⟨⟨0, 0⟩, 0⟩) 0 0 0

end Lwthread.Scheduler
