import Lwthread.Platform.Syscall
import Mathlib.Data.List.Basic

/-!
# The file and socket operations of `async.c`

`async_read`, `async_write`, `async_accept`, `async_send` and `async_recv` try their system call; while
it would block they wait for the descriptor in `sched_event_wait` and try again. A wake with `WAITERR`
ends the call instead of another attempt: the error of the socket is returned, whatever it is, and a
descriptor can have `WAITERR` with no error to read, or with data left (`async_blocking_iff`).

The trace of a call is what its environment answers: for each attempt that would block the wake that
follows it, and then the attempt that does not.
-/

namespace Lwthread.Async

open Lwthread.Platform

/-- `WAITIN`, which is `EPOLLIN`. -/
def WAITIN : Nat := 1

/-- `WAITOUT`, which is `EPOLLOUT`. -/
def WAITOUT : Nat := 4

/-- `WAITERR`, which is `EPOLLERR`. -/
def WAITERR : Nat := 8

/-- What `sched_event_wait` returns, and what `getsockopt` would answer for `SO_ERROR` after it. -/
structure Wake where
  revents : Nat
  soError : Answer
  woken : revents ≠ 0

/-- An attempt of the system call, with the wake that follows it if it would block. -/
structure Attempt where
  answer : Answer
  wake : Wake

/-- What a wrapper returns, with `sched_errno` if that is -1. -/
structure Returned where
  value : Int
  errno : Option Nat
  deriving DecidableEq

/-- `socket_errno`. -/
def socketErrno : Answer → Nat
  | .value error => error
  | .error errno => errno

/-- The loop of the wrappers, which wait for `events`: what it returns, if the attempts suffice, and the
waits that it makes. -/
def retry (events : Nat) : List Attempt → Option Returned × List Nat
  | [] => (none, [])
  | attempt :: attempts =>
    match attempt.answer with
    | .value n => (some ⟨n, none⟩, [])
    | .error errno =>
      if errno = EAGAIN ∨ errno = EWOULDBLOCK then
        if attempt.wake.revents &&& WAITERR ≠ 0 then
          (some ⟨-1, some (socketErrno attempt.wake.soError)⟩, [events])
        else
          let rest := retry events attempts
          (rest.1, events :: rest.2)
      else (some ⟨-1, some errno⟩, [])

/-- `async_read`. -/
def asyncRead : List Attempt → Option Returned × List Nat := retry WAITIN

/-- `async_write`. -/
def asyncWrite : List Attempt → Option Returned × List Nat := retry WAITOUT

/-- `async_accept`. -/
def asyncAccept : List Attempt → Option Returned × List Nat := retry WAITIN

/-- `async_send`. -/
def asyncSend : List Attempt → Option Returned × List Nat := retry WAITOUT

/-- `async_recv`. -/
def asyncRecv : List Attempt → Option Returned × List Nat := retry WAITIN

/-- The wrappers. -/
inductive Wrapper where
  | read
  | write
  | accept
  | send
  | recv

def Wrapper.call : Wrapper → List Attempt → Option Returned × List Nat
  | .read => asyncRead
  | .write => asyncWrite
  | .accept => asyncAccept
  | .send => asyncSend
  | .recv => asyncRecv

/-! ## Traces -/

/-- The attempt does not end with `EAGAIN` or `EWOULDBLOCK`. -/
def Final (a : Answer) : Prop := a ≠ .error EAGAIN ∧ a ≠ .error EWOULDBLOCK

/-- The wakes after the attempts that would block, and the answer of the attempt that does not. -/
structure Trace where
  wakes : List Wake
  last : Answer
  final : Final last

/-- The attempts of a trace; none follows the last. -/
def Trace.attempts (t : Trace) (after : Wake) : List Attempt :=
  t.wakes.map (⟨.error EAGAIN, ·⟩) ++ [⟨t.last, after⟩]

/-- What the blocking call returns. -/
def Returned.of : Answer → Returned
  | .value n => ⟨n, none⟩
  | .error errno => ⟨-1, some errno⟩

/-- The call behaves as the blocking one: it returns what the last attempt returns, and never -1 with an
`errno` that is 0, `EAGAIN` or `EWOULDBLOCK`. -/
structure Blocking (r : Option Returned) (t : Trace) : Prop where
  same : r = some (.of t.last)
  errno : ∀ ret, r = some ret → ret.value = -1 → ∃ e : ℕ+, ret.errno = some (e : Nat) ∧
    e ≠ EAGAIN ∧ e ≠ EWOULDBLOCK

/-- The first wake with `WAITERR`, if there is one, reads the error that the last attempt fails with. -/
def Trace.Unerring (t : Trace) : Prop :=
  ∀ w, t.wakes.find? (·.revents &&& WAITERR != 0) = some w →
    ∃ errno : ℕ+, t.last = .error errno ∧ socketErrno w.soError = errno

theorem retry_final (events : Nat) {a : Answer} (h : Final a) (w : Wake) :
    (retry events [⟨a, w⟩]).1 = some (.of a) := by
  cases a with
  | value n => rfl
  | error errno =>
    have hne : ¬(errno = EAGAIN ∨ errno = EWOULDBLOCK) := by
      rintro (rfl | rfl)
      · exact h.1 rfl
      · exact h.2 rfl
    rw [retry]
    dsimp only
    rw [if_neg hne]
    rfl

/-- What the loop returns: the error of the first wake with `WAITERR`, or the last answer. -/
theorem retry_eq (events : Nat) (t : Trace) (after : Wake) :
    (retry events (t.attempts after)).1 =
      match t.wakes.find? (·.revents &&& WAITERR != 0) with
      | some w => some ⟨-1, some (socketErrno w.soError)⟩
      | none => some (.of t.last) := by
  obtain ⟨wakes, last, final⟩ := t
  unfold Trace.attempts
  induction wakes with
  | nil => exact retry_final events final after
  | cons w wakes ih =>
    rw [List.map_cons, List.cons_append, retry]
    dsimp only at ih ⊢
    rw [if_pos (.inl rfl), List.find?_cons]
    by_cases herr : w.revents &&& WAITERR = 0
    · rw [if_neg (not_not.2 herr), herr]
      exact ih
    · rw [if_pos herr, bne_iff_ne.2 herr]

theorem Returned.of_errno {a : Answer} (h : Final a) (hv : (Returned.of a).value = -1) :
    ∃ e : ℕ+, (Returned.of a).errno = some (e : Nat) ∧ e ≠ EAGAIN ∧ e ≠ EWOULDBLOCK := by
  cases a with
  | value n =>
    have : (n : Int) = -1 := hv
    omega
  | error errno =>
    refine ⟨errno, rfl, ?_, ?_⟩
    · rintro rfl
      exact h.1 rfl
    · rintro rfl
      exact h.2 rfl

theorem retry_blocking_iff (events : Nat) (t : Trace) (after : Wake) :
    Blocking (retry events (t.attempts after)).1 t ↔ t.Unerring := by
  have heq := retry_eq events t after
  constructor
  · intro hb w hw
    rw [hw] at heq
    have hret : Returned.of t.last = ⟨-1, some (socketErrno w.soError)⟩ :=
      Option.some.inj (hb.same.symm.trans heq)
    cases hlast : t.last with
    | value n =>
      rw [hlast] at hret
      exact absurd (congrArg Returned.errno hret) nofun
    | error errno =>
      rw [hlast] at hret
      exact ⟨errno, rfl, (Option.some.inj (congrArg Returned.errno hret)).symm⟩
  · intro hu
    have hsame : (retry events (t.attempts after)).1 = some (.of t.last) := by
      rw [heq]
      cases hw : t.wakes.find? (·.revents &&& WAITERR != 0) with
      | none => rfl
      | some w =>
        obtain ⟨errno, hlast, herr⟩ := hu w hw
        rw [hlast]
        exact congrArg (fun e => some (Returned.mk (-1) (some e))) herr
    refine ⟨hsame, fun ret hret hv => ?_⟩
    have : ret = .of t.last := Option.some.inj (hret.symm.trans hsame)
    subst this
    exact Returned.of_errno t.final hv

/-- **The wrappers and their blocking calls.** Over every trace each of the five wrappers returns what
the first attempt returns that would not block, and never -1 with an `errno` that is 0, `EAGAIN` or
`EWOULDBLOCK`, exactly when no wake has `WAITERR` or the first one that has it reads the very error
that the last attempt fails with. -/
theorem async_blocking_iff (wrapper : Wrapper) (t : Trace) (after : Wake) :
    Blocking (wrapper.call (t.attempts after)).1 t ↔ t.Unerring := by
  cases wrapper with
  | read => exact retry_blocking_iff WAITIN t after
  | write => exact retry_blocking_iff WAITOUT t after
  | accept => exact retry_blocking_iff WAITIN t after
  | send => exact retry_blocking_iff WAITOUT t after
  | recv => exact retry_blocking_iff WAITIN t after

/-- A receiver is woken with data and `WAITERR`, with no error to read: it returns -1 with `errno` 0,
and another attempt would have returned the data. -/
theorem async_recv_error_zero :
    let wake : Wake := ⟨9, .value 0, by decide⟩
    let t : Trace := ⟨[wake], .value 5, by unfold Final; decide⟩
    (asyncRecv (t.attempts wake)).1 = some ⟨-1, some 0⟩ ∧ ¬Blocking (asyncRecv (t.attempts wake)).1 t := by
  intro wake t
  have hret : (asyncRecv (t.attempts wake)).1 = some ⟨-1, some 0⟩ := by decide
  refine ⟨hret, fun hb => ?_⟩
  have hsame := hb.same
  rw [hret] at hsame
  exact absurd hsame (by decide)

end Lwthread.Async
