import Lwthread.Lib.CInt
import Mathlib.Algebra.Order.BigOperators.Group.List
import Mathlib.Algebra.Order.Field.Rat
import Mathlib.Algebra.BigOperators.Group.List.Basic
import Mathlib.Tactic.Linarith
import Mathlib.Tactic.Ring

/-!
# `platform/poll_epoll.c`: the poll loop

`platform_poll_poll` calls `epoll_wait` again after an interruption (`EINTR`) and after a full batch
of events, each time with the timeout it was given at the start. One call of `epoll_wait` blocks
for at most its argument, when that is not negative; a whole poll may block that long for every
call it makes. `poll_time_iff` says for which timeouts and outcomes the time in all the calls of
one poll stays within the timeout.
-/

namespace Lwthread.Platform

variable {κ : Type}

/-- `MAX_EVENTS`. -/
def MAX_EVENTS : Nat := 128

/-- What `epoll_wait` returns: `-1` with `errno` `EINTR` or another error, or a batch of events,
empty when the timeout expires. An event is the key it was registered with and its mask. -/
inductive Outcome (κ : Type) where
  | eintr
  | error
  | ready (events : List (κ × Nat))

/-- The loop of `platform_poll_poll` goes on after this outcome. -/
def Outcome.restarts : Outcome κ → Bool
  | .eintr => true
  | .error => false
  | .ready events => !(events.length < MAX_EVENTS)

/-- One return of `epoll_wait`, with the time in milliseconds for which the call blocked. -/
structure EpollReturn (κ : Type) where
  elapsed : ℚ
  outcome : Outcome κ

/-- A poll: the value it returns (none while it is still in its loop), the calls of `epoll_wait` it
has made, each with the timeout passed to it, and the events it has passed to `sched_poll_event`. -/
structure Poll (κ : Type) where
  result : Option Int
  waits : List (Int × EpollReturn κ)
  delivered : List (κ × Nat)

/-- `platform_poll_poll`, against the returns of `epoll_wait`. The `long` timeout is converted to
the `int` that `epoll_wait` takes. -/
def platformPollPoll (timeout : Int) : List (EpollReturn κ) → Poll κ
  | [] => ⟨none, [], []⟩
  | w :: ws =>
    match w.outcome with
    | .eintr =>
      let rest := platformPollPoll timeout ws
      { rest with waits := (CInt.int timeout, w) :: rest.waits }
    | .error => ⟨some (-1), [(CInt.int timeout, w)], []⟩
    | .ready events =>
      if events.length < MAX_EVENTS then ⟨some 0, [(CInt.int timeout, w)], events⟩
      else
        let rest := platformPollPoll timeout ws
        { rest with
          waits := (CInt.int timeout, w) :: rest.waits
          delivered := events ++ rest.delivered }

/-- The time a poll has spent blocked in `epoll_wait`. -/
def Poll.blocked (p : Poll κ) : ℚ := (p.waits.map (·.2.elapsed)).sum

/-- What is assumed of `epoll_wait`: a call blocks for no longer than its timeout, unless that is
negative. -/
def Admissible (wait : Int × EpollReturn κ) : Prop :=
  0 ≤ wait.2.elapsed ∧ (0 ≤ wait.1 → wait.2.elapsed ≤ wait.1)

/-- A poll makes one call for each outcome up to the first that ends it, all with one timeout. -/
theorem platformPollPoll_waits (timeout : Int) (o : Outcome κ) :
    ∀ (rs : List (Outcome κ)) (ws : List (EpollReturn κ)), (∀ r ∈ rs, r.restarts = true) →
      ws.map (·.outcome) = rs ++ [o] →
      (platformPollPoll timeout ws).waits = ws.map (CInt.int timeout, ·) := by
  intro rs
  induction rs with
  | nil =>
    intro ws _ hws
    obtain ⟨w, rfl, -⟩ := List.map_eq_singleton_iff.1 hws
    unfold platformPollPoll
    split
    · rfl
    · rfl
    · split <;> rfl
  | cons r rs ih =>
    intro ws hr hws
    rw [List.cons_append] at hws
    obtain ⟨w, ws', rfl, rfl, hrest⟩ := List.map_eq_cons_iff.1 hws
    have hw := hr w.outcome List.mem_cons_self
    have ih := ih ws' (fun r' h => hr r' (List.mem_cons_of_mem _ h)) hrest
    unfold platformPollPoll
    split
    · simp only [ih, List.map_cons]
    · rename_i ho
      rw [ho] at hw
      cases hw
    · rename_i events ho
      rw [ho] at hw
      split
      · rename_i hlt
        simp [Outcome.restarts, hlt] at hw
      · simp only [ih, List.map_cons]

theorem sum_elapsed_le {v : ℚ} : ∀ {ws : List (EpollReturn κ)}, (∀ w ∈ ws, w.elapsed ≤ v) →
    (ws.map (·.elapsed)).sum ≤ ws.length * v
  | [], _ => by simp
  | w :: ws, h => by
    have ih := sum_elapsed_le fun w' hw' => h w' (List.mem_cons_of_mem _ hw')
    have hw := h w List.mem_cons_self
    simp only [List.map_cons, List.sum_cons, List.length_cons]
    push_cast
    linarith

/-- The returns with the given outcomes that all block for `v`. -/
theorem sum_elapsed_const (v : ℚ) (os : List (Outcome κ)) :
    ((os.map (EpollReturn.mk v)).map (·.elapsed)).sum = os.length * v := by
  simp [List.map_map, Function.comp_def, List.map_const', List.sum_replicate]

/-- **Time in a poll.** For a timeout that is not negative and the outcomes `rs`, which restart the
loop, followed by `o`: the poll is never blocked for longer than the timeout, however long each
call blocks, exactly when the timeout is not negative as an `int` and the calls together stay
within it. -/
theorem poll_time_iff (timeout : Int) (h0 : 0 ≤ timeout) (rs : List (Outcome κ))
    (hr : ∀ r ∈ rs, r.restarts = true) (o : Outcome κ) :
    (∀ ws : List (EpollReturn κ), ws.map (·.outcome) = rs ++ [o] →
        (∀ wait ∈ (platformPollPoll timeout ws).waits, Admissible wait) →
        (platformPollPoll timeout ws).blocked ≤ timeout) ↔
      0 ≤ CInt.int timeout ∧ (rs.length + 1) * CInt.int timeout ≤ timeout := by
  have hblocked : ∀ ws : List (EpollReturn κ), ws.map (·.outcome) = rs ++ [o] →
      (platformPollPoll timeout ws).blocked = (ws.map (·.elapsed)).sum := by
    intro ws hws
    unfold Poll.blocked
    rw [platformPollPoll_waits timeout o rs ws hr hws, List.map_map]
    rfl
  -- the poll in which every call blocks for `v`
  have hconst : ∀ v : ℚ, ((rs ++ [o]).map (EpollReturn.mk v)).map (·.outcome) = rs ++ [o] := by
    intro v
    simp [List.map_map, Function.comp_def]
  constructor
  · intro h
    by_cases hneg : 0 ≤ CInt.int timeout
    · have := h _ (hconst (CInt.int timeout)) (by
        intro wait hw
        rw [platformPollPoll_waits timeout o rs _ hr (hconst _), List.map_map] at hw
        obtain ⟨r, -, rfl⟩ := List.mem_map.1 hw
        exact ⟨Int.cast_nonneg hneg, fun _ => le_rfl⟩)
      rw [hblocked _ (hconst _), sum_elapsed_const] at this
      refine ⟨hneg, ?_⟩
      simp only [List.length_append, List.length_cons, List.length_nil] at this
      exact_mod_cast this
    · -- a negative `int` blocks without bound
      have := h _ (hconst (timeout + 1 : Int)) (by
        intro wait hw
        rw [platformPollPoll_waits timeout o rs _ hr (hconst _), List.map_map] at hw
        obtain ⟨r, -, rfl⟩ := List.mem_map.1 hw
        exact ⟨Int.cast_nonneg (by omega : 0 ≤ timeout + 1), fun h => absurd h hneg⟩)
      rw [hblocked _ (hconst _), sum_elapsed_const] at this
      have hlen : (1 : ℚ) ≤ ((rs ++ [o]).length : ℚ) := by
        exact_mod_cast (by simp : 1 ≤ (rs ++ [o]).length)
      have ht : (0 : ℚ) ≤ (timeout + 1 : Int) := Int.cast_nonneg (by omega)
      have hone := le_mul_of_one_le_left ht hlen
      push_cast at this hone
      linarith
  · rintro ⟨hnonneg, hle⟩ ws hws hadm
    have hlen : ws.length = rs.length + 1 := by
      have := congrArg List.length hws
      simpa using this
    have hv : ∀ w ∈ ws, w.elapsed ≤ CInt.int timeout := by
      intro w hw
      refine (hadm (CInt.int timeout, w) ?_).2 hnonneg
      rw [platformPollPoll_waits timeout o rs ws hr hws]
      exact List.mem_map.2 ⟨w, hw, rfl⟩
    rw [hblocked ws hws]
    calc (ws.map (·.elapsed)).sum ≤ ws.length * (CInt.int timeout : ℚ) := sum_elapsed_le hv
      _ = ((rs.length + 1) * CInt.int timeout : Int) := by rw [hlen]; push_cast; ring
      _ ≤ timeout := by exact_mod_cast hle

theorem poll_time_iff_interrupted :
    (∀ ws : List (EpollReturn Nat), ws.map (·.outcome) = [.eintr] ++ [.ready []] →
        (∀ wait ∈ (platformPollPoll 200 ws).waits, Admissible wait) →
        (platformPollPoll 200 ws).blocked ≤ (200 : Int)) ↔
      0 ≤ CInt.int 200 ∧ (([.eintr] : List (Outcome Nat)).length + 1) * CInt.int 200 ≤ 200 :=
  poll_time_iff 200 (by decide) [.eintr] (by decide) (.ready [])

/-- A poll of 200 ms that is interrupted after 150 ms and then expires has taken 350 ms. -/
theorem poll_oversleeps :
    let p : Poll Nat := platformPollPoll 200 [⟨150, .eintr⟩, ⟨200, .ready []⟩]
    p.result = some 0 ∧ (∀ wait ∈ p.waits, Admissible wait) ∧ p.blocked = 350 ∧
      ¬ p.blocked ≤ 200 := by
  have hint : CInt.int 200 = 200 := by decide
  simp only [platformPollPoll, hint, Poll.blocked, Admissible, List.length_nil, MAX_EVENTS,
    List.mem_cons, forall_eq_or_imp, List.map_cons, List.sum_cons]
  norm_num

end Lwthread.Platform
