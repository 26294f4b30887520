import Lwthread.Scheduler.Expiry

/-!
# `sched_handle_timers`, run alone

The loop takes the heap's minimum, reads the clock, and removes the timer and schedules its coroutine
as long as the timer has expired. It runs on fuel, one unit for each iteration; it removes a timer in
each iteration but the last, so that one more than the number of timers is enough.

It stops at the first minimum that has not expired. Every other timer is later, and by
`millisTo_mono` has not expired either, as long as `timer_expiration` does not overflow: a deadline
`2^63` milliseconds ahead wraps to the past, and is left in the heap behind one that does not
(`sweep_overflow`). The call is right exactly when no deadline wraps so at the reading where it stops
(`handle_timers_sweeps`).
-/

namespace Lwthread.Scheduler

open Lwthread.Util

/-- What a call of `sched_handle_timers` does: the heap it leaves, the timers it removes, each with the
clock reading taken for it, the coroutines it calls `sched_schedule` for, and the clock readings, all
in order. -/
structure Sweep where
  heap : Heap TimerWait
  removed : List (TimerWait × Timespec)
  scheduled : List Nat
  readings : List Timespec

/-- `sched_handle_timers` on a heap that nobody else uses, with the readings of the clock. -/
def schedHandleTimers : Nat → Heap TimerWait → (Nat → Timespec) → Option Sweep
  | 0, _, _ => none
  | fuel + 1, h, clock =>
    if heapEmpty h then some ⟨h, [], [], []⟩
    else
      let r := heapMin h
      match r.1 with
      | none => some ⟨r.2, [], [], []⟩
      | some timer =>
        let now := clock 0
        if timerExpiration timer now ≤ 0 then
          let p := heapPopMin .block r.2
          (schedHandleTimers fuel p.2 fun n => clock (n + 1)).map fun w =>
            ⟨w.heap, (p.1.map (·, now)).toList ++ w.removed, timer.coro :: w.scheduled,
              now :: w.readings⟩
        else some ⟨r.2, [], [], [now]⟩

/-- No timer that is left has expired at the last reading. -/
def Sweep.Clear (w : Sweep) : Prop :=
  w.heap.bag = 0 ∨
    ∃ now, w.readings.getLast? = some now ∧ ∀ e ∈ w.heap.bag, 0 < timerExpiration e now

/-- What a call should do: it returns; it removes timers in the order of their deadlines, each once
and only if it has expired at the reading taken for it; it schedules the coroutine of each, once; and
no timer that it leaves has expired at the last reading. -/
def SweepRight (h : Heap TimerWait) (clock : Nat → Timespec) : Prop :=
  ∃ w, schedHandleTimers (h.items + 1) h clock = some w ∧
    w.removed.Pairwise (fun r r' => r.1.time.nanos ≤ r'.1.time.nanos) ∧
    (w.removed.map (·.1) : Multiset TimerWait) + w.heap.bag = h.bag ∧
    w.scheduled = w.removed.map (·.1.coro) ∧
    (∀ r ∈ w.removed, timerExpiration r.1 r.2 ≤ 0) ∧ w.Clear

/-! ## Deadlines in order -/

/-- The milliseconds from `now` to `d`, of which `timer_expiration` keeps the low 64 bits, make a
positive `long`. -/
def Timespec.Ahead (now d : Timespec) : Prop :=
  0 < now.millisTo d % 2 ^ 64 ∧ now.millisTo d % 2 ^ 64 < 2 ^ 63

instance (now d : Timespec) : Decidable (now.Ahead d) := inferInstanceAs (Decidable (_ ∧ _))

/-- Of deadlines in order, each with a clock reading: those behind the first one that is ahead of its
reading are ahead of that reading, too. -/
def AheadBehind : List Timespec → (Nat → Timespec) → Prop
  | [], _ => True
  | d :: ds, clock =>
    if (clock 0).Ahead d then ∀ d' ∈ ds, (clock 0).Ahead d' else AheadBehind ds fun n => clock (n + 1)

instance AheadBehind.decidable : ∀ ds clock, Decidable (AheadBehind ds clock)
  | [], _ => isTrue trivial
  | d :: ds, clock =>
    have : Decidable (AheadBehind ds fun n => clock (n + 1)) := decidable ds _
    inferInstanceAs (Decidable (if (clock 0).Ahead d then _ else _))

/-- `d` is no later than `d'`. -/
def Timespec.le (d d' : Timespec) : Prop := d.nanos ≤ d'.nanos

instance : DecidableRel Timespec.le := fun d d' => inferInstanceAs (Decidable (d.nanos ≤ d'.nanos))

instance : IsTrans Timespec Timespec.le := ⟨fun _ _ _ => Int.le_trans⟩

instance : Std.Total Timespec.le := ⟨fun d d' => Int.le_total d.nanos d'.nanos⟩

/-- The deadlines of the timers in the heap, in order. -/
def deadlines (h : Heap TimerWait) : List Timespec :=
  ((List.range' 1 h.items).map fun i => (h.heap.cell i).time).insertionSort Timespec.le

theorem deadlines_coe (h : Heap TimerWait) :
    (deadlines h : Multiset Timespec) = h.bag.map (·.time) := by
  have hrange : (List.range' 1 h.items : Multiset Nat) = (Finset.Icc 1 h.items).val := by
    rw [Nat.Icc_eq_range']
    rfl
  unfold deadlines Heap.bag Hole.bag
  rw [Multiset.coe_eq_coe.2 (List.perm_insertionSort _ _), Multiset.map_map, ← hrange, Multiset.map_coe]
  rfl

theorem deadlines_sorted (h : Heap TimerWait) : (deadlines h).Pairwise Timespec.le :=
  List.pairwise_insertionSort _ _

/-- Normalised times are equal if neither is before the other. -/
theorem nanos_inj {d d' : Timespec} (hd : d.Normalised) (hd' : d'.Normalised)
    (h : d.nanos = d'.nanos) : d = d' := by
  obtain ⟨sec, nsec⟩ := d
  obtain ⟨sec', nsec'⟩ := d'
  obtain ⟨-, -, h1, h2⟩ := hd
  obtain ⟨-, -, h3, h4⟩ := hd'
  simp only [Timespec.nanos] at *
  obtain ⟨rfl, rfl⟩ : sec = sec' ∧ nsec = nsec' := by omega
  rfl

theorem long_pos_iff {x : Int} : 0 < CInt.long x ↔ 0 < x % 2 ^ 64 ∧ x % 2 ^ 64 < 2 ^ 63 := by
  unfold CInt.long Int.bmod
  norm_num
  split <;> omega

/-- Overflow leaves the low 64 bits of the expiration. -/
theorem timerExpiration_long {timer : TimerWait} {now : Timespec} (hd : timer.time.Normalised)
    (hn : now.Normalised) : timerExpiration timer now = CInt.long (now.millisTo timer.time) := by
  obtain ⟨-, -, h1, h2⟩ := hd
  obtain ⟨-, -, h3, h4⟩ := hn
  unfold timerExpiration Timespec.millisTo
  rw [CInt.long_eq_self (x := timer.time.tvNsec - now.tvNsec) (by omega) (by omega)]
  unfold CInt.long
  rw [Int.bmod_mul_bmod, Int.bmod_add_bmod]

theorem ahead_iff {timer : TimerWait} {now : Timespec} (hd : timer.time.Normalised)
    (hn : now.Normalised) : 0 < timerExpiration timer now ↔ now.Ahead timer.time := by
  rw [timerExpiration_long hd hn]
  exact long_pos_iff

/-! ## The loop -/

/-- An iteration that finds an expired timer removes it, schedules its coroutine and goes on. -/
theorem schedHandleTimers_succ {h : Heap TimerWait} {clock : Nat → Timespec} (hi : h.items ≠ 0)
    (hexp : timerExpiration (h.heap.cell 1) (clock 0) ≤ 0) (fuel : Nat) :
    schedHandleTimers (fuel + 1) h clock =
      (schedHandleTimers fuel (heapPopMin .block (heapMin h).2).2 fun n => clock (n + 1)).map
        fun w => ⟨w.heap, (h.heap.cell 1, clock 0) :: w.removed, (h.heap.cell 1).coro :: w.scheduled,
          clock 0 :: w.readings⟩ := by
  have hitems : (heapMin h).2.items ≠ 0 := by rw [heapMin, if_neg hi]; exact hi
  have hcell : (heapMin h).2.heap.cell 1 = h.heap.cell 1 := by rw [heapMin, if_neg hi]; rfl
  rw [schedHandleTimers]
  simp [heapEmpty, hi, heapMin_eq hi, hexp, heapPopMin_fst hitems, hcell]

/-- An iteration that finds a timer that has not expired is the last one. -/
theorem schedHandleTimers_stop {h : Heap TimerWait} {clock : Nat → Timespec} (hi : h.items ≠ 0)
    (hexp : ¬timerExpiration (h.heap.cell 1) (clock 0) ≤ 0) (fuel : Nat) :
    schedHandleTimers (fuel + 1) h clock = some ⟨(heapMin h).2, [], [], [clock 0]⟩ := by
  rw [schedHandleTimers]
  simp [heapEmpty, hi, heapMin_eq hi, hexp]

theorem schedHandleTimers_empty {h : Heap TimerWait} {clock : Nat → Timespec} (hi : h.items = 0)
    (fuel : Nat) : schedHandleTimers (fuel + 1) h clock = some ⟨h, [], [], []⟩ := by
  rw [schedHandleTimers]
  simp [heapEmpty, hi]

/-- A timer is removed only if it has expired at the reading taken for it, and its coroutine is
scheduled. -/
theorem removed_expired : ∀ {fuel : Nat} {h : Heap TimerWait} {clock : Nat → Timespec} {w : Sweep},
    schedHandleTimers fuel h clock = some w →
      w.scheduled = w.removed.map (·.1.coro) ∧ ∀ r ∈ w.removed, timerExpiration r.1 r.2 ≤ 0
  | 0, _, _, _, hw => by cases hw
  | fuel + 1, h, clock, w, hw => by
    by_cases hi : h.items = 0
    · rw [schedHandleTimers_empty hi] at hw
      cases hw
      exact ⟨rfl, nofun⟩
    · by_cases hexp : timerExpiration (h.heap.cell 1) (clock 0) ≤ 0
      · rw [schedHandleTimers_succ hi hexp] at hw
        obtain ⟨w', hw', rfl⟩ := Option.map_eq_some_iff.1 hw
        obtain ⟨hsched, hexpired⟩ := removed_expired hw'
        refine ⟨by rw [hsched]; rfl, fun r hr => ?_⟩
        rcases List.mem_cons.1 hr with rfl | hr
        · exact hexp
        · exact hexpired r hr
      · rw [schedHandleTimers_stop hi hexp] at hw
        cases hw
        exact ⟨rfl, nofun⟩

/-- One more iteration than there are timers is enough. -/
theorem schedHandleTimers_returns : ∀ (n : Nat) {h : Heap TimerWait} (clock : Nat → Timespec),
    h.items = n → ∃ w, schedHandleTimers (n + 1) h clock = some w
  | 0, h, clock, hi => ⟨_, schedHandleTimers_empty hi 0⟩
  | n + 1, h, clock, hi => by
    have hne : h.items ≠ 0 := by omega
    by_cases hexp : timerExpiration (h.heap.cell 1) (clock 0) ≤ 0
    · have hitems : (heapMin h).2.items = h.items := by rw [heapMin, if_neg hne]
      have hcount : (heapPopMin .block (heapMin h).2).2.items = n := by
        rw [(heapPopMin_cell (by omega)).2, hitems, hi]; rfl
      obtain ⟨w, hw⟩ := schedHandleTimers_returns n (fun i => clock (i + 1)) hcount
      exact ⟨_, by rw [schedHandleTimers_succ hne hexp, hw]; rfl⟩
    · exact ⟨_, schedHandleTimers_stop hne hexp _⟩

section

variable {S : Timespec → Prop} (hn : ∀ t, S t → t.Normalised)
  (hsign : ∀ t1 t2 : TimerWait, S t1.time → S t2.time →
    (timerCompare t1 t2).sign = (t1.time.nanos - t2.time.nanos).sign)

include hsign in
/-- The minimum of an ordered heap is an earliest timer. -/
theorem root_earliest {h : Heap TimerWait} (hv : h.Valid fun t => S t.time)
    (hcmp : h.compare = timerCompare) (hi : h.items ≠ 0) {e : TimerWait} (he : e ∈ h.bag) :
    (h.heap.cell 1).time.nanos ≤ e.time.nanos := by
  obtain ⟨hmem, hleast⟩ := hv.least hi
  have hle := hleast e he
  rw [hcmp, ← Int.sign_nonpos_iff, hsign _ _ (hv.mem _ hmem) (hv.mem _ he),
    Int.sign_nonpos_iff] at hle
  omega

omit hn hsign in
/-- The clock is read unless the heap is empty. -/
theorem clear_of_no_readings : ∀ {fuel : Nat} {h : Heap TimerWait} {clock : Nat → Timespec} {w : Sweep},
    schedHandleTimers fuel h clock = some w → w.readings = [] → w.heap.bag = 0
  | 0, _, _, _, hw, _ => by cases hw
  | fuel + 1, h, clock, w, hw, hr => by
    by_cases hi : h.items = 0
    · rw [schedHandleTimers_empty hi] at hw
      cases hw
      exact Multiset.card_eq_zero.1 (by rw [Heap.card_bag, hi])
    · by_cases hexp : timerExpiration (h.heap.cell 1) (clock 0) ≤ 0
      · rw [schedHandleTimers_succ hi hexp] at hw
        obtain ⟨w', -, rfl⟩ := Option.map_eq_some_iff.1 hw
        cases hr
      · rw [schedHandleTimers_stop hi hexp] at hw
        cases hw
        cases hr

omit hn hsign in
/-- A reading before the last one does not matter. -/
theorem clear_cons {fuel : Nat} {h : Heap TimerWait} {clock : Nat → Timespec} {w : Sweep}
    (hw : schedHandleTimers fuel h clock = some w) (removed : List (TimerWait × Timespec))
    (scheduled : List Nat) (now : Timespec) :
    (Sweep.mk w.heap removed scheduled (now :: w.readings)).Clear ↔ w.Clear := by
  unfold Sweep.Clear
  rcases hr : w.readings.getLast? with _ | last
  · have hempty := clear_of_no_readings hw (List.getLast?_eq_none_iff.1 hr)
    exact iff_of_true (.inl hempty) (.inl hempty)
  · rw [List.getLast?_cons, hr]
    rfl

include hn hsign in
/-- The earliest deadline is that of the heap's minimum. -/
theorem root_time {h : Heap TimerWait} (hv : h.Valid fun t => S t.time)
    (hcmp : h.compare = timerCompare) (hi : h.items ≠ 0) {d : Timespec} {ds : List Timespec}
    (hds : ((d :: ds : List Timespec) : Multiset Timespec) = h.bag.map (·.time))
    (hsorted : (d :: ds).Pairwise Timespec.le) : d = (h.heap.cell 1).time := by
  have hmem := Heap.cell_one_mem hi
  obtain ⟨e, he, rfl⟩ : ∃ e ∈ h.bag, e.time = d := by
    rw [← Multiset.mem_map, ← hds]
    exact Multiset.mem_coe.2 List.mem_cons_self
  refine nanos_inj (hn _ (hv.mem _ he)) (hn _ (hv.mem _ hmem)) (le_antisymm ?_ ?_)
  · have hroot : (h.heap.cell 1).time ∈ e.time :: ds := by
      rw [← Multiset.mem_coe, hds]
      exact Multiset.mem_map_of_mem _ hmem
    rcases List.mem_cons.1 hroot with heq | hroot
    · rw [heq]
    · exact (List.pairwise_cons.1 hsorted).1 _ hroot
  · exact root_earliest hsign hv hcmp hi he

omit hsign in
include hn in
/-- Where the loop stops at a minimum that is ahead, the rest is ahead when the later deadlines are. -/
theorem clear_stop {h h' : Heap TimerWait} {now : Timespec} {ds : List Timespec}
    (hmem : ∀ e ∈ h.bag, S e.time) (hi : h.items ≠ 0) (hnow : now.Normalised) (hbag : h'.bag = h.bag)
    (hds : (((h.heap.cell 1).time :: ds : List Timespec) : Multiset Timespec) = h.bag.map (·.time))
    (hfirst : 0 < timerExpiration (h.heap.cell 1) now) :
    (Sweep.mk h' [] [] [now]).Clear ↔ ∀ d ∈ ds, now.Ahead d := by
  have htimes : ∀ d', d' ∈ (h.heap.cell 1).time :: ds ↔ ∃ e ∈ h.bag, e.time = d' := by
    intro d'
    rw [← Multiset.mem_coe, hds, Multiset.mem_map]
  constructor
  · rintro (hz | ⟨now, hlast, hpos⟩) d' hd'
    · have hroot := Heap.cell_one_mem hi
      rw [← hbag, hz] at hroot
      cases hroot
    · cases hlast
      obtain ⟨e, he, rfl⟩ := (htimes d').1 (List.mem_cons_of_mem _ hd')
      exact (ahead_iff (hn _ (hmem _ he)) hnow).1 (hpos e (hbag ▸ he))
  · refine fun hall => .inr ⟨now, rfl, fun e he => ?_⟩
    rw [hbag] at he
    rcases List.mem_cons.1 ((htimes e.time).2 ⟨e, he, rfl⟩) with heq | hd'
    · rw [ahead_iff (hn _ (hmem _ he)) hnow, heq]
      exact (ahead_iff (hn _ (hmem _ (Heap.cell_one_mem hi))) hnow).1 hfirst
    · exact (ahead_iff (hn _ (hmem _ he)) hnow).2 (hall _ hd')

include hn hsign in
/-- The loop, by induction on the number of timers: all is right but for the timers that are left, and
that is right exactly when the deadlines behind the first one that is ahead are ahead. -/
theorem sweep_iff : ∀ (n : Nat) {h : Heap TimerWait} {clock : Nat → Timespec} {ds : List Timespec},
    h.Valid (fun t => S t.time) → h.compare = timerCompare → h.items = n → n < 2 ^ 30 →
    (∀ i, (clock i).Normalised) → (ds : Multiset Timespec) = h.bag.map (·.time) →
    ds.Pairwise Timespec.le →
    ∃ w, schedHandleTimers (n + 1) h clock = some w ∧
      w.removed.Pairwise (fun r r' => r.1.time.nanos ≤ r'.1.time.nanos) ∧
      (w.removed.map (·.1) : Multiset TimerWait) + w.heap.bag = h.bag ∧
      (w.Clear ↔ AheadBehind ds clock)
  | 0, h, clock, ds, _, _, hi, _, _, hds, _ => by
    have hbag : h.bag = 0 := Multiset.card_eq_zero.1 (by rw [Heap.card_bag, hi])
    obtain rfl : ds = [] := by
      rw [hbag] at hds
      exact (Multiset.coe_eq_zero ds).1 hds
    exact ⟨_, schedHandleTimers_empty hi _, List.Pairwise.nil, by simp,
      iff_of_true (.inl hbag) trivial⟩
  | n + 1, h, clock, [], _, _, hi, _, _, hds, _ => by
    have hcard := congrArg Multiset.card hds
    rw [Multiset.card_map, Heap.card_bag, hi] at hcard
    cases hcard
  | n + 1, h, clock, d :: ds, hv, hcmp, hi, hlt, hclock, hds, hsorted => by
    have hne : h.items ≠ 0 := by omega
    have hbag := heapMin_bag h
    -- `heap_min` changes nothing but the record of accesses
    obtain ⟨hitems, hcmp₁, hcell, hv₁⟩ : (heapMin h).2.items = h.items ∧
        (heapMin h).2.compare = h.compare ∧ (heapMin h).2.heap.cell 1 = h.heap.cell 1 ∧
        (heapMin h).2.Valid fun t => S t.time := by
      rw [heapMin, if_neg hne]
      exact ⟨rfl, rfl, rfl, hv.pre, hv.mem, hv.ordered⟩
    obtain rfl := root_time hn hsign hv hcmp hne hds hsorted
    have hmem := Heap.cell_one_mem hne
    have hahead := ahead_iff (hn _ (hv.mem _ hmem)) (hclock 0)
    by_cases hexp : timerExpiration (h.heap.cell 1) (clock 0) ≤ 0
    · have hpop := heapPopMin_bag (h := (heapMin h).2) (by omega) (by omega)
        fun x hx => hv₁.pre.refl (hv₁.mem x hx)
      rw [hcell, hbag] at hpop
      have hcount : (heapPopMin .block (heapMin h).2).2.items = n := by
        rw [(heapPopMin_cell (by omega)).2, hitems, hi]; rfl
      have hds' : (ds : Multiset Timespec) =
          (heapPopMin .block (heapMin h).2).2.bag.map (·.time) := by
        rw [← hpop, Multiset.map_cons, ← Multiset.cons_coe] at hds
        exact (Multiset.cons_inj_right _).1 hds
      obtain ⟨w, hw, hsorted', hleft, hclear⟩ := sweep_iff n (hv₁.popMin (by omega))
        ((heapPopMin_compare _).trans (hcmp₁.trans hcmp)) hcount (by omega)
        (fun i => hclock (i + 1)) hds' (List.pairwise_cons.1 hsorted).2
      refine ⟨_, (schedHandleTimers_succ hne hexp (n + 1)).trans (by rw [hw]; rfl), ?_, ?_, ?_⟩
      · refine List.Pairwise.cons (fun r hr => ?_) hsorted'
        refine root_earliest hsign hv hcmp hne ?_
        rw [← hpop, ← hleft]
        exact Multiset.mem_cons_of_mem
          (Multiset.mem_add.2 (.inl (Multiset.mem_coe.2 (List.mem_map_of_mem hr))))
      · rw [List.map_cons, ← Multiset.cons_coe, Multiset.cons_add, hleft, hpop]
      · rw [clear_cons hw, hclear, AheadBehind, if_neg fun h => hexp.not_gt (hahead.2 h)]
    · refine ⟨_, schedHandleTimers_stop hne hexp _, List.Pairwise.nil, by simp [hbag], ?_⟩
      rw [AheadBehind, if_pos (hahead.1 (not_le.1 hexp))]
      exact clear_stop hn hv.mem hne (hclock 0) hbag hds (not_le.1 hexp)

end

/-- Where nothing overflows, deadlines behind one that is ahead are ahead. -/
theorem aheadBehind_of_fits : ∀ {ds : List Timespec} {clock : Nat → Timespec},
    (∀ d ∈ ds, d.Normalised) → (∀ i, (clock i).Normalised) → ds.Pairwise Timespec.le →
    (∀ d ∈ ds, ∀ i < ds.length, (clock i).Fits d) → AheadBehind ds clock
  | [], _, _, _, _, _ => trivial
  | d :: ds, clock, hn, hclock, hsorted, hfits => by
    obtain ⟨hle, hsorted⟩ := List.pairwise_cons.1 hsorted
    have hsum : ∀ d' ∈ d :: ds, -2 ^ 63 ≤ (clock 0).millisTo d' ∧ (clock 0).millisTo d' < 2 ^ 63 :=
      fun d' hd' => (hfits d' hd' 0 (Nat.succ_pos _)).sum
    rw [AheadBehind]
    split
    · next hahead =>
      intro d' hd'
      have hmono := millisTo_mono (hn d List.mem_cons_self) (hn d' (List.mem_cons_of_mem _ hd'))
        (hclock 0) (hle d' hd')
      have h1 := hsum d' (List.mem_cons_of_mem _ hd')
      have h2 := hsum d List.mem_cons_self
      unfold Timespec.Ahead at hahead ⊢
      omega
    · exact aheadBehind_of_fits (fun d hd => hn d (List.mem_cons_of_mem _ hd))
        (fun i => hclock (i + 1)) hsorted fun d hd i hi =>
          hfits d (List.mem_cons_of_mem _ hd) (i + 1) (Nat.succ_lt_succ hi)

/-- **`sched_handle_timers` handles every timer that has expired**, in order. For deadlines in `S`,
normalised and mutually within `2^31` seconds, every timer heap that `heap_push` and `heap_pop_min`
make of them (with fewer than `2^30` timers at a time) and every sequence of clock readings, exactly
when the deadlines behind the first one that is ahead of its reading are ahead of that reading. They
are if `timer_expiration` does not overflow. -/
theorem handle_timers_sweeps (S : Timespec → Prop) (hn : ∀ t, S t → t.Normalised)
    (hnear : ∀ a b, S a → S b → a.tvSec - b.tvSec < 2 ^ 31) (garbage : Nat → TimerWait)
    (cs : List (Call TimerWait)) (hS : ∀ t, .push t ∈ cs → S t.time)
    (hb : Below (timerHeapInit garbage) cs) (clock : Nat → Timespec)
    (hclock : ∀ i, (clock i).Normalised) :
    (SweepRight (calls (timerHeapInit garbage) cs).2 clock ↔
      AheadBehind (deadlines (calls (timerHeapInit garbage) cs).2) clock) ∧
    ((∀ d ∈ deadlines (calls (timerHeapInit garbage) cs).2,
        ∀ i < (deadlines (calls (timerHeapInit garbage) cs).2).length, (clock i).Fits d) →
      AheadBehind (deadlines (calls (timerHeapInit garbage) cs).2) clock) := by
  have hsign := sign_of_near hn
    (fun a b ha hb => ⟨by have := hnear b a hb ha; omega, by have := hnear a b ha hb; omega⟩)
    (fun a b ha hb hlt => by have := hnear a b ha hb; omega)
  obtain ⟨hv, hcmp⟩ := calls_valid (h := timerHeapInit garbage) cs
    (heapInit_valid (signPreorder_of_sign hsign) garbage) hS hb
  refine ⟨?_, fun hfits => aheadBehind_of_fits (fun d hd => ?_) hclock (deadlines_sorted _) hfits⟩
  · obtain ⟨w, hw, hsorted, hleft, hclear⟩ := sweep_iff hn hsign _ hv hcmp rfl hb.last hclock
      (deadlines_coe _) (deadlines_sorted _)
    rw [← hclear]
    constructor
    · rintro ⟨w', hw', -, -, -, -, hclear'⟩
      cases hw.symm.trans hw'
      exact hclear'
    · exact fun h => ⟨w, hw, hsorted, hleft, (removed_expired hw).1, (removed_expired hw).2, h⟩
  · rw [← Multiset.mem_coe, deadlines_coe, Multiset.mem_map] at hd
    obtain ⟨e, he, rfl⟩ := hd
    exact hn _ (hv.mem e he)

/-- A timer that has expired, and one that has not, with a later reading that nobody takes. -/
theorem handle_timers_sweeps_two :
    SweepRight (calls (timerHeapInit fun _ => default) [.push ⟨⟨9, 0⟩, 1⟩, .push ⟨⟨5, 0⟩, 2⟩]).2
      fun i => if i < 2 then ⟨7, 0⟩ else ⟨9223372036854776, 0⟩ := by
  refine (handle_timers_sweeps (fun t => t = ⟨9, 0⟩ ∨ t = ⟨5, 0⟩) ?_ ?_ _ _ ?_ ?_ _ ?_).1.2 ?_
  · rintro t (rfl | rfl) <;> constructor <;> decide
  · rintro a b (rfl | rfl) (rfl | rfl) <;> decide
  · intro t ht
    simp only [List.mem_cons, Call.push.injEq, List.not_mem_nil, or_false] at ht
    rcases ht with rfl | rfl
    · exact .inl rfl
    · exact .inr rfl
  · simp only [Below, Along]
    decide
  · intro i
    split <;> constructor <;> decide
  · decide

example : (schedHandleTimers 3
    (calls (timerHeapInit fun _ => default) [.push ⟨⟨9, 0⟩, 1⟩, .push ⟨⟨5, 0⟩, 2⟩]).2
    fun _ => ⟨7, 0⟩).map (·.scheduled) = some [2] := by decide

/-- With one deadline just before, and one just after `2^63` milliseconds, the second wraps to the
past, and is left in the heap. -/
theorem sweep_overflow :
    ¬SweepRight (calls (timerHeapInit fun _ => default)
      [.push ⟨⟨9223372036854775, 0⟩, 1⟩, .push ⟨⟨9223372036854776, 0⟩, 2⟩]).2 fun _ => ⟨0, 0⟩ := by
  rintro ⟨w, hw, -, -, -, -, hlast⟩
  obtain ⟨h, hh, hbag⟩ : ∃ h, schedHandleTimers 3 (calls (timerHeapInit fun _ => default)
        [.push ⟨⟨9223372036854775, 0⟩, 1⟩, .push ⟨⟨9223372036854776, 0⟩, 2⟩]).2
        (fun _ => ⟨0, 0⟩) = some ⟨h, [], [], [⟨0, 0⟩]⟩ ∧
      (⟨⟨9223372036854776, 0⟩, 2⟩ : TimerWait) ∈ h.bag := by
    refine ⟨_, rfl, ?_⟩
    rw [heapMin_bag]
    simp only [calls, call, heapPush_bag]
    exact Multiset.mem_cons_self _ _
  cases Option.some.inj (hh.symm.trans hw)
  rcases hlast with hz | ⟨now, hnow, hpos⟩
  · rw [hz] at hbag; cases hbag
  · cases hnow
    exact absurd (hpos _ hbag) (by decide)

end Lwthread.Scheduler
