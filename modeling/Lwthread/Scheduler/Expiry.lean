import Lwthread.Scheduler.Timer
import Lwthread.Platform.PollEpoll
import Mathlib.Data.Finset.Max

/-!
# The time to a deadline

`timer_expiration` adds the difference in seconds, in milliseconds, and the difference in nanoseconds,
divided by a million and rounded toward zero. Where nothing overflows this is monotone in the
deadline, at most the time that remains rounded up, and not positive once the deadline has passed;
it is not positive before the deadline only in the last millisecond of the same second.

`sched_loop` passes it through `sched_poll_timeout`, a `long`, to `epoll_wait`, which takes an `int`:
a deadline 25 days ahead may make the poll wait for ever. `poll_timeout_iff` says when the value that
`epoll_wait` gets is right.
-/

namespace Lwthread.Scheduler

open Lwthread.Util Lwthread.Platform

/-! ## `timer_expiration` without overflow -/

namespace Timespec

/-- The value of `timer_expiration` in unbounded integers. -/
def millisTo (now d : Timespec) : Int :=
  (d.tvSec - now.tvSec) * 1000 + (d.tvNsec - now.tvNsec).tdiv 1000000

/-- The values that `timer_expiration` computes are `long`s. -/
structure Fits (now d : Timespec) : Prop where
  sec : -2 ^ 63 ≤ d.tvSec - now.tvSec ∧ d.tvSec - now.tvSec < 2 ^ 63
  millis : -2 ^ 63 ≤ (d.tvSec - now.tvSec) * 1000 ∧ (d.tvSec - now.tvSec) * 1000 < 2 ^ 63
  nsec : -2 ^ 63 ≤ d.tvNsec - now.tvNsec ∧ d.tvNsec - now.tvNsec < 2 ^ 63
  sum : -2 ^ 63 ≤ now.millisTo d ∧ now.millisTo d < 2 ^ 63

/-- Less than a millisecond remains, in the same second. -/
def LastMilli (now d : Timespec) : Prop :=
  d.tvSec = now.tvSec ∧ 0 < d.tvNsec - now.tvNsec ∧ d.tvNsec - now.tvNsec < 1000000

end Timespec

theorem timerExpiration_eq {timer : TimerWait} {now : Timespec} (h : now.Fits timer.time) :
    timerExpiration timer now = now.millisTo timer.time := by
  unfold timerExpiration
  rw [CInt.long_eq_self h.sec.1 h.sec.2, CInt.long_eq_self h.millis.1 h.millis.2,
    CInt.long_eq_self h.nsec.1 h.nsec.2]
  exact CInt.long_eq_self h.sum.1 h.sum.2

/-- Division by a million, by the sign of the dividend. -/
theorem tdiv_million (n : Int) :
    n.tdiv 1000000 = if 0 ≤ n then n / 1000000 else -(-n / 1000000) := by
  split
  · next h => exact Int.tdiv_eq_ediv_of_nonneg h
  · next h =>
    rw [← Int.tdiv_eq_ediv_of_nonneg (by omega), Int.neg_tdiv, Int.neg_neg]

section

variable {now d d' : Timespec}

/-- A later deadline expires no earlier. -/
theorem millisTo_mono (hd : d.Normalised) (hd' : d'.Normalised) (hn : now.Normalised)
    (h : d.nanos ≤ d'.nanos) : now.millisTo d ≤ now.millisTo d' := by
  obtain ⟨-, -, h1, h2⟩ := hd
  obtain ⟨-, -, h3, h4⟩ := hd'
  obtain ⟨-, -, h5, h6⟩ := hn
  unfold Timespec.nanos at h
  unfold Timespec.millisTo
  rw [tdiv_million, tdiv_million]
  split <;> split <;> omega

/-- A later clock reading leaves no more time. -/
theorem millisTo_anti {now' : Timespec} (hd : d.Normalised) (hn : now.Normalised)
    (hn' : now'.Normalised) (h : now.nanos ≤ now'.nanos) : now'.millisTo d ≤ now.millisTo d := by
  obtain ⟨-, -, h1, h2⟩ := hd
  obtain ⟨-, -, h3, h4⟩ := hn
  obtain ⟨-, -, h5, h6⟩ := hn'
  unfold Timespec.nanos at h
  unfold Timespec.millisTo
  rw [tdiv_million, tdiv_million]
  split <;> split <;> omega

/-- The nanoseconds that `timer_expiration` rounds away make less than a millisecond. -/
theorem millisTo_error : |now.millisTo d * 10 ^ 6 - (d.nanos - now.nanos)| < 10 ^ 6 := by
  unfold Timespec.nanos Timespec.millisTo
  rw [tdiv_million, abs_lt]
  split <;> omega

/-- Nothing is left of a deadline that has passed. -/
theorem millisTo_nonpos (hd : d.Normalised) (hn : now.Normalised) (h : d.nanos ≤ now.nanos) :
    now.millisTo d ≤ 0 := by
  obtain ⟨-, -, h1, h2⟩ := hd
  obtain ⟨-, -, h3, h4⟩ := hn
  unfold Timespec.nanos at h
  unfold Timespec.millisTo
  rw [tdiv_million]
  split <;> omega

/-- Something is left of a deadline in a later second, be it a nanosecond away. -/
theorem millisTo_pos (hd : d.Normalised) (hn : now.Normalised) (h : now.tvSec < d.tvSec) :
    1 ≤ now.millisTo d := by
  obtain ⟨-, -, h1, h2⟩ := hd
  obtain ⟨-, -, h3, h4⟩ := hn
  unfold Timespec.millisTo
  rw [tdiv_million]
  split <;> omega

/-- `timer_expiration` is at most the time that remains, rounded up, and 0 once it is over. -/
theorem millisTo_le (hd : d.Normalised) (hn : now.Normalised) :
    max 0 (now.millisTo d) ≤ max 0 ((d.nanos - now.nanos + 999999) / 1000000) := by
  obtain ⟨-, -, h1, h2⟩ := hd
  obtain ⟨-, -, h3, h4⟩ := hn
  unfold Timespec.nanos Timespec.millisTo
  rw [tdiv_million]
  split <;> omega

/-- A timer expires before its deadline in the last millisecond of the same second, and then only.
The nanoseconds of the deadline may make a whole second. -/
theorem millisTo_early (hd : d.tvNsec ≤ 10 ^ 9) (hn : now.Normalised) :
    (now.millisTo d ≤ 0 ∧ now.nanos < d.nanos) ↔ now.LastMilli d := by
  obtain ⟨-, -, h3, h4⟩ := hn
  unfold Timespec.nanos Timespec.millisTo Timespec.LastMilli
  rw [tdiv_million]
  split <;> omega

end

/-- **The rounding of `timer_expiration`** is by less than a millisecond, up or down; it keeps the sign
of a deadline that has passed or lies in a later second, and the order of deadlines and of clock
readings. -/
theorem timer_expiration_rounds (timer : TimerWait) (now : Timespec) (hd : timer.time.Normalised)
    (hn : now.Normalised) (hfits : now.Fits timer.time) :
    |timerExpiration timer now * 10 ^ 6 - (timer.time.nanos - now.nanos)| < 10 ^ 6 ∧
    (timer.time.nanos ≤ now.nanos → timerExpiration timer now ≤ 0) ∧
    (now.tvSec < timer.time.tvSec → 1 ≤ timerExpiration timer now) ∧
    (∀ timer' : TimerWait, timer'.time.Normalised → now.Fits timer'.time →
      timer.time.nanos ≤ timer'.time.nanos → timerExpiration timer now ≤ timerExpiration timer' now) ∧
    ∀ now' : Timespec, now'.Normalised → now'.Fits timer.time →
      now.nanos ≤ now'.nanos → timerExpiration timer now' ≤ timerExpiration timer now := by
  rw [timerExpiration_eq hfits]
  refine ⟨millisTo_error, millisTo_nonpos hd hn, millisTo_pos hd hn, ?_, ?_⟩
  · intro timer' hd' hfits' hle
    rw [timerExpiration_eq hfits']
    exact millisTo_mono hd hd' hn hle
  · intro now' hn' hfits' hle
    rw [timerExpiration_eq hfits']
    exact millisTo_anti hd hn hn' hle

/-- A deadline one nanosecond ahead, in the next second. -/
theorem timer_expiration_rounds_next :
    1 ≤ timerExpiration ⟨⟨1, 0⟩, 0⟩ ⟨0, 999999999⟩ :=
  (timer_expiration_rounds ⟨⟨1, 0⟩, 0⟩ ⟨0, 999999999⟩ (by constructor <;> decide)
    (by constructor <;> decide) (by constructor <;> decide)).2.2.1 (by decide)

/-! ## The timeout of the poll -/

/-- `sched_poll_timeout`, at the clock reading `now` that `timer_expiration` takes. -/
def schedPollTimeout (runListEmpty : Bool) (timerHeap : Heap TimerWait) (now : Timespec) : Int :=
  if runListEmpty = false then 0
  else match (heapMin timerHeap).1 with
    | none => -1
    | some timer =>
      let expiration := timerExpiration timer now
      if expiration < 0 then 0 else expiration

/-- The time from `now` to `d` in milliseconds, rounded up, and 0 once `d` has passed. -/
def Timespec.remaining (now d : Timespec) : Int := max 0 ((d.nanos - now.nanos + 999999) / 1000000)

/-- What the timeout that `epoll_wait` gets should be: 0 if there is a coroutine to run, negative only
if there is no timer either, otherwise no more than what remains to an earliest deadline; and computed
without overflow. -/
structure TimeoutRight (runListEmpty : Bool) (timerHeap : Heap TimerWait) (now : Timespec)
    (v : Int) : Prop where
  busy : runListEmpty = false → v = 0
  forever : v < 0 → runListEmpty = true ∧ timerHeap.bag = 0
  bounded : runListEmpty = true → ∀ w ∈ timerHeap.bag,
    (∀ w' ∈ timerHeap.bag, w.time.nanos ≤ w'.time.nanos) → 0 ≤ v ∧ v ≤ now.remaining w.time
  exact : runListEmpty = true → ∀ timer, (heapMin timerHeap).1 = some timer →
    now.Fits timer.time ∧ now.millisTo timer.time < 2 ^ 31

/-- The expiration of `timer` is computed without overflow and is an `int`, and no timer falls due,
rounded up to a millisecond, before it. -/
structure Foremost (timerHeap : Heap TimerWait) (now : Timespec) (timer : TimerWait) : Prop where
  fits : now.Fits timer.time
  int : now.millisTo timer.time < 2 ^ 31
  first : ∀ w ∈ timerHeap.bag, max 0 (now.millisTo timer.time) ≤ now.remaining w.time

section

variable {runListEmpty : Bool} {h : Heap TimerWait} {now : Timespec} {timer : TimerWait}

theorem platformPollPoll_waits_fst {κ : Type} {timeout : Int} :
    ∀ {ws : List (EpollReturn κ)} {wait}, wait ∈ (platformPollPoll timeout ws).waits →
      wait.1 = CInt.int timeout
  | [], _, hw => by cases hw
  | w :: ws, wait, hw => by
    unfold platformPollPoll at hw
    split at hw
    · rcases List.mem_cons.1 hw with rfl | hw
      · rfl
      · exact platformPollPoll_waits_fst hw
    · rcases List.mem_cons.1 hw with rfl | hw
      · rfl
      · cases hw
    · split at hw
      · rcases List.mem_cons.1 hw with rfl | hw
        · rfl
        · cases hw
      · rcases List.mem_cons.1 hw with rfl | hw
        · rfl
        · exact platformPollPoll_waits_fst hw

theorem remaining_mono {d d' : Timespec} (hle : d.nanos ≤ d'.nanos) :
    now.remaining d ≤ now.remaining d' := by
  unfold Timespec.remaining
  omega

/-- Some timer of a heap that is not empty is an earliest one. -/
theorem exists_earliest (hi : h.items ≠ 0) :
    ∃ w ∈ h.bag, ∀ w' ∈ h.bag, w.time.nanos ≤ w'.time.nanos := by
  have hne : h.bag.toFinset.Nonempty := ⟨_, Multiset.mem_toFinset.2 (Heap.cell_one_mem hi)⟩
  obtain ⟨w, hw, hmin⟩ := Finset.exists_min_image h.bag.toFinset (fun w => w.time.nanos) hne
  exact ⟨w, Multiset.mem_toFinset.1 hw, fun w' hw' => hmin w' (Multiset.mem_toFinset.2 hw')⟩

theorem heapMin_eq (hi : h.items ≠ 0) : (heapMin h).1 = some (h.heap.cell 1) := by
  unfold heapMin
  rw [if_neg hi]

/-- The heap's minimum is foremost if it is an earliest timer and its expiration fits. -/
theorem foremost_of_earliest (hn : now.Normalised) (ht : timer.time.Normalised)
    (hfits : now.Fits timer.time) (hint : now.millisTo timer.time < 2 ^ 31)
    (hmin : ∀ w ∈ h.bag, timer.time.nanos ≤ w.time.nanos) : Foremost h now timer :=
  ⟨hfits, hint, fun w hw => (millisTo_le ht hn).trans (remaining_mono (hmin w hw))⟩

theorem timeoutRight_of_foremost (hroot : (heapMin h).1 = some timer)
    (hF : Foremost h now timer) :
    TimeoutRight true h now (CInt.int (schedPollTimeout true h now)) := by
  have hv : schedPollTimeout true h now = max 0 (now.millisTo timer.time) := by
    unfold schedPollTimeout
    rw [if_neg (by decide), hroot]
    simp only [timerExpiration_eq hF.fits]
    split <;> omega
  have hint := hF.int
  rw [hv, CInt.int_eq_self (by omega) (by omega)]
  refine ⟨nofun, fun hneg => by omega, fun _ w hw _ => ⟨by omega, hF.first w hw⟩, ?_⟩
  intro _ timer' hroot'
  cases Option.some.inj (hroot.symm.trans hroot')
  exact ⟨hF.fits, hF.int⟩

theorem foremost_of_timeoutRight (hi : h.items ≠ 0)
    (hR : TimeoutRight true h now (CInt.int (schedPollTimeout true h now))) :
    Foremost h now (h.heap.cell 1) := by
  have hroot := heapMin_eq hi
  obtain ⟨hfits, hint⟩ := hR.exact rfl _ hroot
  refine ⟨hfits, hint, fun w hw => ?_⟩
  obtain ⟨e, he, hmin⟩ := exists_earliest hi
  have hle := (hR.bounded rfl e he hmin).2
  have hv : schedPollTimeout true h now = max 0 (now.millisTo (h.heap.cell 1).time) := by
    unfold schedPollTimeout
    rw [if_neg (by decide), hroot]
    simp only [timerExpiration_eq hfits]
    split <;> omega
  rw [hv, CInt.int_eq_self (by omega) (by omega)] at hle
  exact hle.trans (remaining_mono (hmin w hw))

end

/-- **The timeout that `epoll_wait` gets.** For every run list, every timer heap with normalised
deadlines and every clock reading: each call of `epoll_wait` gets a right timeout exactly when there
is a coroutine to run, or no timer, or the heap's minimum is foremost. An earliest timer whose
expiration is an `int`, computed without overflow, is foremost. -/
theorem poll_timeout_iff (runListEmpty : Bool) (h : Heap TimerWait) (now : Timespec)
    (hd : ∀ w ∈ h.bag, w.time.Normalised) (hn : now.Normalised) :
    ((∀ ws : List (EpollReturn Nat), ∀ wait ∈
        (platformPollPoll (schedPollTimeout runListEmpty h now) ws).waits,
        TimeoutRight runListEmpty h now wait.1) ↔
      runListEmpty = false ∨ h.items = 0 ∨
        ∃ timer, (heapMin h).1 = some timer ∧ Foremost h now timer) ∧
    (MinIsEarliest h → ∀ timer, (heapMin h).1 = some timer → now.Fits timer.time →
      now.millisTo timer.time < 2 ^ 31 → Foremost h now timer) := by
  constructor
  · constructor
    · intro hall
      have hR := hall [⟨0, .ready []⟩] (CInt.int (schedPollTimeout runListEmpty h now), _)
        (List.mem_cons_self ..)
      cases runListEmpty with
      | false => exact .inl rfl
      | true =>
        by_cases hi : h.items = 0
        · exact .inr (.inl hi)
        · exact .inr (.inr ⟨_, heapMin_eq hi, foremost_of_timeoutRight hi hR⟩)
    · intro hcond ws wait hw
      rw [platformPollPoll_waits_fst hw]
      cases runListEmpty with
      | false =>
        have hv : CInt.int (schedPollTimeout false h now) = 0 := rfl
        rw [hv]
        exact ⟨fun _ => rfl, fun hneg => absurd hneg (by decide), nofun, nofun⟩
      | true =>
        rcases hcond with hcond | hi | ⟨timer, hroot, hF⟩
        · cases hcond
        · have hz : h.bag = 0 := Multiset.card_eq_zero.1 (by rw [Heap.card_bag, hi])
          refine ⟨nofun, fun _ => ⟨rfl, hz⟩, fun _ w hw => ?_, fun _ timer hroot => ?_⟩
          · rw [hz] at hw; cases hw
          · unfold heapMin at hroot
            rw [if_pos hi] at hroot
            cases hroot
        · exact timeoutRight_of_foremost hroot hF
  · intro hmin timer hroot hfits hint
    unfold MinIsEarliest at hmin
    rw [hroot] at hmin
    exact foremost_of_earliest hn (hd timer hmin.1) hfits hint hmin.2

/-- The timer heap with one timer. -/
def oneTimer (d : Timespec) : Heap TimerWait :=
  (calls (timerHeapInit fun _ => default) [.push ⟨d, 0⟩]).2

theorem oneTimer_bag (d : Timespec) : (oneTimer d).bag = {⟨d, 0⟩} := by
  simp only [oneTimer, calls, call, heapPush_bag]
  rfl

/-- A timer five seconds ahead. -/
theorem poll_timeout_iff_seconds :
    (∀ ws : List (EpollReturn Nat), ∀ wait ∈
        (platformPollPoll (schedPollTimeout true (oneTimer ⟨5, 0⟩) ⟨0, 0⟩) ws).waits,
        TimeoutRight true (oneTimer ⟨5, 0⟩) ⟨0, 0⟩ wait.1) ↔
      true = false ∨ (oneTimer ⟨5, 0⟩).items = 0 ∨
        ∃ timer, (heapMin (oneTimer ⟨5, 0⟩)).1 = some timer ∧
          Foremost (oneTimer ⟨5, 0⟩) ⟨0, 0⟩ timer := by
  refine (poll_timeout_iff true (oneTimer ⟨5, 0⟩) ⟨0, 0⟩ (fun w hw => ?_)
    (by constructor <;> decide)).1
  rw [oneTimer_bag, Multiset.mem_singleton] at hw
  subst hw
  constructor <;> decide

/-- With a timer 30 days ahead, `epoll_wait` gets a negative timeout and blocks for ever. -/
theorem poll_timeout_far :
    (platformPollPoll (schedPollTimeout true (oneTimer ⟨2592000, 0⟩) ⟨0, 0⟩)
        [(⟨0, .ready []⟩ : EpollReturn Nat)]).waits.map (·.1) = [-1702967296] ∧
      ¬∀ ws : List (EpollReturn Nat), ∀ wait ∈
        (platformPollPoll (schedPollTimeout true (oneTimer ⟨2592000, 0⟩) ⟨0, 0⟩) ws).waits,
        TimeoutRight true (oneTimer ⟨2592000, 0⟩) ⟨0, 0⟩ wait.1 := by
  have hv : CInt.int (schedPollTimeout true (oneTimer ⟨2592000, 0⟩) ⟨0, 0⟩) = -1702967296 := by
    decide
  refine ⟨by simp [platformPollPoll, hv, MAX_EVENTS], fun hall => ?_⟩
  have hR := hall [⟨0, .ready []⟩] (_, _) (List.mem_cons_self ..)
  rw [hv] at hR
  have hbag := (hR.forever (by decide)).2
  rw [oneTimer_bag] at hbag
  exact absurd hbag (Multiset.singleton_ne_zero _)

end Lwthread.Scheduler
