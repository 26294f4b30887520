import Lwthread.Scheduler.HandleTimers

/-!
# Sleeping: `async_sleep_relative`

A sleep, relative or absolute, is a `sched_wait` for an absolute time, and ends when `sched_handle_timers` finds that its
timer has expired. `timer_expiration` rounds what remains of the last second toward zero, so this may
be up to a millisecond before the deadline, in the same second (`Timespec.LastMilli`), and at no other
time (`sleep_never_early_iff`).
-/

namespace Lwthread.Async

open Lwthread.Util Lwthread.Scheduler

/-- `async_sleep_relative`: the deadline that it waits for, from the clock reading `now`. The carry is
made only when the nanoseconds exceed a whole second. -/
def asyncSleepRelative (now : Timespec) (millisecs : Int) : Timespec :=
  let sec := CInt.long (now.tvSec + millisecs.tdiv 1000)
  let nsec := CInt.long (now.tvNsec + CInt.long (millisecs.tmod 1000 * 1000000))
  if nsec > 1000000000 then ⟨CInt.long (sec + 1), CInt.long (nsec - 1000000000)⟩ else ⟨sec, nsec⟩

/-- Whatever the timer heap and the readings of the clock, `sched_handle_timers` removes a timer with
deadline `d`, and schedules its coroutine, at the reading `now` only if `nanos` has passed. -/
def NotBefore (nanos : Int) (d now : Timespec) : Prop :=
  ∀ fuel h clock w, schedHandleTimers fuel h clock = some w →
    ∀ r ∈ w.removed, r.1.time = d → r.2 = now → nanos ≤ now.nanos

/-! ## The deadline -/

section

variable {now : Timespec} {millisecs : Int}

/-- Where the seconds stay in a `long`, the arithmetic of `async_sleep_relative` does not wrap. -/
theorem asyncSleepRelative_eq (hn : now.Normalised) (hge : -2 ^ 63 ≤ now.tvSec + millisecs.tdiv 1000)
    (hlt : now.tvSec + millisecs.tdiv 1000 < 2 ^ 63)
    (hcarry : 10 ^ 9 < now.tvNsec + millisecs.tmod 1000 * 1000000 →
      now.tvSec + millisecs.tdiv 1000 < 2 ^ 63 - 1) :
    asyncSleepRelative now millisecs =
      if 10 ^ 9 < now.tvNsec + millisecs.tmod 1000 * 1000000 then
        ⟨now.tvSec + millisecs.tdiv 1000 + 1, now.tvNsec + millisecs.tmod 1000 * 1000000 - 10 ^ 9⟩
      else ⟨now.tvSec + millisecs.tdiv 1000, now.tvNsec + millisecs.tmod 1000 * 1000000⟩ := by
  obtain ⟨-, -, h1, h2⟩ := hn
  have hmod := Int.tmod_lt_of_pos millisecs (b := 1000) (by decide)
  have hmod' : -1000 < millisecs.tmod 1000 := Int.lt_tmod_of_pos millisecs (by decide)
  unfold asyncSleepRelative
  rw [CInt.long_eq_self hge hlt, CInt.long_eq_self (x := _ * 1000000) (by omega) (by omega),
    CInt.long_eq_self (x := _ + _ * 1000000) (by omega) (by omega)]
  dsimp only
  split
  · rename_i h
    rw [if_pos (by omega), CInt.long_eq_self (by omega) (by have := hcarry h; omega),
      CInt.long_eq_self (by omega) (by omega)]
    rfl
  · rename_i h
    rw [if_neg (by omega)]

/-- The deadline of a relative sleep is `millisecs` after `now`; its nanoseconds may make a whole
second. -/
theorem asyncSleepRelative_nanos (hn : now.Normalised)
    (hsec : -2 ^ 63 ≤ now.tvSec + millisecs.tdiv 1000 ∧ now.tvSec + millisecs.tdiv 1000 < 2 ^ 63 - 1) :
    (asyncSleepRelative now millisecs).nanos = now.nanos + millisecs * 1000000 ∧
      (asyncSleepRelative now millisecs).tvNsec ≤ 10 ^ 9 := by
  have hdiv := Int.mul_tdiv_add_tmod millisecs 1000
  have hmod := Int.tmod_lt_of_pos millisecs (b := 1000) (by decide)
  rw [asyncSleepRelative_eq hn hsec.1 (by omega) fun _ => hsec.2]
  obtain ⟨-, -, h1, h2⟩ := hn
  unfold Timespec.nanos
  split
  · dsimp only
    omega
  · dsimp only
    omega

/-- `millisecs` after `now` is a time that a `struct timespec` can hold. -/
def Representable (now : Timespec) (millisecs : Int) : Prop :=
  ∃ d : Timespec, d.Normalised ∧ d.nanos = now.nanos + millisecs * 1000000

/-- Where the sum is representable, the seconds stay in a `long`, also over the carry. -/
theorem Representable.seconds (hrep : Representable now millisecs) (hn : now.Normalised) :
    -2 ^ 63 ≤ now.tvSec + millisecs.tdiv 1000 ∧ now.tvSec + millisecs.tdiv 1000 < 2 ^ 63 ∧
      (10 ^ 9 < now.tvNsec + millisecs.tmod 1000 * 1000000 →
        now.tvSec + millisecs.tdiv 1000 < 2 ^ 63 - 1) := by
  obtain ⟨d, ⟨hd1, hd2, hd3, hd4⟩, hd⟩ := hrep
  obtain ⟨h1, h2, h3, h4⟩ := hn
  have hdiv := Int.mul_tdiv_add_tmod millisecs 1000
  have hmod := Int.tmod_lt_of_pos millisecs (b := 1000) (by decide)
  have hmod' : -1000 < millisecs.tmod 1000 := Int.lt_tmod_of_pos millisecs (by decide)
  unfold Timespec.nanos at hd
  -- the remainder has the sign of `millisecs`
  rcases le_or_gt 0 millisecs with hpos | hneg
  · have := Int.tmod_nonneg 1000 hpos
    exact ⟨by omega, by omega, fun hc => by omega⟩
  · have hopp := Int.tmod_nonneg 1000 (show 0 ≤ -millisecs by omega)
    rw [Int.neg_tmod] at hopp
    exact ⟨by omega, by omega, fun hc => by omega⟩

/-- **The deadline of a relative sleep.** It is `millisecs` after `now` and a normalised time exactly
when the nanoseconds before the carry are not negative (no borrow is made) and do not make exactly one
second (the carry is made only above it). -/
theorem sleep_deadline_iff (hn : now.Normalised) (hrep : Representable now millisecs) :
    (asyncSleepRelative now millisecs).nanos = now.nanos + millisecs * 1000000 ∧
        (asyncSleepRelative now millisecs).Normalised ↔
      0 ≤ now.tvNsec + millisecs.tmod 1000 * 1000000 ∧
        now.tvNsec + millisecs.tmod 1000 * 1000000 ≠ 10 ^ 9 := by
  obtain ⟨hge, hlt, hcarry⟩ := hrep.seconds hn
  have hdiv := Int.mul_tdiv_add_tmod millisecs 1000
  have hmod := Int.tmod_lt_of_pos millisecs (b := 1000) (by decide)
  rw [asyncSleepRelative_eq hn hge hlt hcarry]
  obtain ⟨h1, h2, h3, h4⟩ := hn
  unfold Timespec.nanos
  split
  · rename_i hc
    have := hcarry hc
    constructor
    · intro _
      omega
    · intro _
      exact ⟨by dsimp only; omega, by dsimp only; omega, by dsimp only; omega, by dsimp only; omega,
        by dsimp only; omega⟩
  · constructor
    · rintro ⟨-, -, -, hnn, hn9⟩
      exact ⟨hnn, ne_of_lt hn9⟩
    · rintro ⟨hnn, hn9⟩
      exact ⟨by dsimp only; omega, hge, hlt, hnn, by dsimp only; omega⟩

end

/-- Two and a half seconds after the last half second of a minute. -/
theorem sleep_deadline_iff_carry :
    (asyncSleepRelative ⟨59, 700000000⟩ 2500).nanos = (⟨59, 700000000⟩ : Timespec).nanos + 2500000000 ∧
      (asyncSleepRelative ⟨59, 700000000⟩ 2500).Normalised :=
  (sleep_deadline_iff (by constructor <;> decide)
    ⟨⟨62, 200000000⟩, by constructor <;> decide, by decide⟩).2 (by decide)

/-- Half a second after a half second the nanoseconds make a whole second, and a millisecond before a
full second they are negative. -/
theorem sleep_deadline_unnormalised :
    asyncSleepRelative ⟨0, 500000000⟩ 500 = ⟨0, 1000000000⟩ ∧
      asyncSleepRelative ⟨1, 0⟩ (-1) = ⟨1, -1000000⟩ ∧
      Representable ⟨0, 500000000⟩ 500 ∧ Representable ⟨1, 0⟩ (-1) ∧
      ¬(asyncSleepRelative ⟨0, 500000000⟩ 500).Normalised ∧
      ¬(asyncSleepRelative ⟨1, 0⟩ (-1)).Normalised := by
  have h1 : asyncSleepRelative ⟨0, 500000000⟩ 500 = ⟨0, 1000000000⟩ := by decide
  have h2 : asyncSleepRelative ⟨1, 0⟩ (-1) = ⟨1, -1000000⟩ := by decide
  refine ⟨h1, h2, ⟨⟨1, 0⟩, by constructor <;> decide, by decide⟩,
    ⟨⟨0, 999000000⟩, by constructor <;> decide, by decide⟩, ?_, ?_⟩
  · rw [h1]
    rintro ⟨-, -, -, h⟩
    exact absurd h (by decide)
  · rw [h2]
    rintro ⟨-, -, h, -⟩
    exact absurd h (by decide)

/-! ## When a sleep ends -/

section

variable {d now : Timespec} {nanos : Int}

/-- A timer that expires at `now` is removed, from a heap that holds nothing else. -/
theorem removed_of_expired (d now : Timespec) (hexp : timerExpiration ⟨d, 0⟩ now ≤ 0) :
    ∃ w, schedHandleTimers 2 (oneTimer d) (fun _ => now) = some w ∧ (⟨d, 0⟩, now) ∈ w.removed := by
  have hi : (oneTimer d).items = 1 := rfl
  have hcell : (oneTimer d).heap.cell 1 = ⟨d, 0⟩ := rfl
  obtain ⟨w, hw⟩ := schedHandleTimers_returns 1 (fun _ => now) hi
  have hw' := hw
  rw [schedHandleTimers_succ (by rw [hi]; decide) (by rw [hcell]; exact hexp)] at hw'
  obtain ⟨w', -, rfl⟩ := Option.map_eq_some_iff.1 hw'
  exact ⟨_, hw, by rw [hcell]; exact List.mem_cons_self⟩

theorem notBefore_iff (hnsec : d.tvNsec ≤ 10 ^ 9) (hn : now.Normalised) (hfits : now.Fits d)
    (hd : d.nanos = nanos) : NotBefore nanos d now ↔ ¬now.LastMilli d := by
  subst hd
  have hearly := millisTo_early hnsec hn
  constructor
  · intro hnot hlast
    obtain ⟨hexp, hlt⟩ := hearly.2 hlast
    obtain ⟨w, hw, hmem⟩ := removed_of_expired d now
      (by rw [timerExpiration_eq hfits]; exact hexp)
    have := hnot _ _ _ _ hw _ hmem rfl rfl
    omega
  · rintro hlast fuel h clock w hw ⟨timer, _⟩ hr rfl rfl
    have hexp := (removed_expired hw).2 _ hr
    rw [timerExpiration_eq hfits] at hexp
    by_contra hlt
    exact hlast (hearly.1 ⟨hexp, by simpa using hlt⟩)

end

/-- **When a wait never ends early.** A timer is removed and its coroutine scheduled at the clock
reading `now` only after its deadline `d`, exactly when `now` is not in the last millisecond before
`d` in the same second; and a relative sleep that started at `start` ends only after its
milliseconds, exactly when `now` is not in the last millisecond before its deadline. -/
theorem sleep_never_early_iff (d start now : Timespec) (millisecs : Int) (hn : now.Normalised) :
    (d.Normalised → now.Fits d → (NotBefore d.nanos d now ↔ ¬now.LastMilli d)) ∧
    (start.Normalised →
      -2 ^ 63 ≤ start.tvSec + millisecs.tdiv 1000 → start.tvSec + millisecs.tdiv 1000 < 2 ^ 63 - 1 →
      now.Fits (asyncSleepRelative start millisecs) →
      (NotBefore (start.nanos + millisecs * 1000000) (asyncSleepRelative start millisecs) now ↔
        ¬now.LastMilli (asyncSleepRelative start millisecs))) := by
  constructor
  · intro hd hfits
    obtain ⟨-, -, -, h⟩ := hd
    exact notBefore_iff (by omega) hn hfits rfl
  · intro hs h1 h2 hfits
    obtain ⟨hnanos, hnsec⟩ := asyncSleepRelative_nanos hs ⟨h1, h2⟩
    exact notBefore_iff hnsec hn hfits hnanos

/-- A sleep of one second, at the moment it ends. -/
theorem sleep_never_early_iff_second :
    NotBefore (10 ^ 9) (asyncSleepRelative ⟨0, 0⟩ 1000) ⟨1, 0⟩ ↔
      ¬(⟨1, 0⟩ : Timespec).LastMilli (asyncSleepRelative ⟨0, 0⟩ 1000) :=
  (sleep_never_early_iff ⟨1, 0⟩ ⟨0, 0⟩ ⟨1, 0⟩ 1000 (by constructor <;> decide)).2
    (by constructor <;> decide) (by decide) (by decide) (by constructor <;> decide)

/-- Half a millisecond before its deadline a timer is removed, and the sleep ends. -/
theorem sleep_ends_early :
    ¬NotBefore (500000 : Int) ⟨0, 500000⟩ ⟨0, 0⟩ ∧
      ¬NotBefore 1000000 (asyncSleepRelative ⟨0, 0⟩ 1) ⟨0, 500000⟩ := by
  constructor
  · intro hnot
    obtain ⟨w, hw, hmem⟩ := removed_of_expired ⟨0, 500000⟩ ⟨0, 0⟩ (by decide)
    exact absurd (hnot _ _ _ _ hw _ hmem rfl rfl) (by decide)
  · intro hnot
    obtain ⟨w, hw, hmem⟩ := removed_of_expired ⟨0, 1000000⟩ ⟨0, 500000⟩ (by decide)
    exact absurd (hnot _ _ _ _ hw _ hmem rfl rfl) (by decide)

end Lwthread.Async
