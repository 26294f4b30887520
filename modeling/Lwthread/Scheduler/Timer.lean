import Lwthread.Util.HeapQueue

/-!
# Timers of `scheduler.c`

`timer_compare` orders the timer heap. It subtracts the seconds as `long`s and returns the
difference through an `int`, which keeps its low 32 bits only: its sign is that of the chronological
order exactly when the distance of two deadlines in different seconds, modulo `2^32`, lies in
`[1, 2^31)` (`Near`), and this is also exactly when the heap's minimum is an earliest timer whatever
is pushed and popped (`timer_order_iff`).
-/

namespace Lwthread.Scheduler

open Lwthread.Util

/-- `struct timespec`. -/
structure Timespec where
  tvSec : Int
  tvNsec : Int
  deriving DecidableEq, Repr, Inhabited

namespace Timespec

/-- The fields are a `long` each and the nanoseconds make less than a second. -/
structure Normalised (t : Timespec) : Prop where
  sec_ge : -2 ^ 63 ≤ t.tvSec
  sec_lt : t.tvSec < 2 ^ 63
  nsec_ge : 0 ≤ t.tvNsec
  nsec_lt : t.tvNsec < 10 ^ 9

/-- The time in nanoseconds: the chronological order is the order of these. -/
def nanos (t : Timespec) : Int := t.tvSec * 10 ^ 9 + t.tvNsec

end Timespec

/-- `struct timer_wait`, with the timespec that its `time` points to. The coroutine is given by its
address. -/
structure TimerWait where
  time : Timespec
  coro : Nat
  deriving DecidableEq, Repr, Inhabited

/-- `timer_compare`. -/
def timerCompare (t1 t2 : TimerWait) : Int :=
  let seconds := CInt.long (t1.time.tvSec - t2.time.tvSec)
  if seconds ≠ 0 then CInt.int seconds
  else CInt.int (CInt.long (t1.time.tvNsec - t2.time.tvNsec))

/-- `timer_expiration`, at the clock reading `now`. -/
def timerExpiration (timer : TimerWait) (now : Timespec) : Int :=
  let millis := CInt.long (CInt.long (timer.time.tvSec - now.tvSec) * 1000)
  CInt.long (millis + (CInt.long (timer.time.tvNsec - now.tvNsec)).tdiv 1000000)

/-! ## The sign of `timer_compare` -/

/-- The distance of two deadlines in different seconds keeps its sign in 32 bits. -/
def Near (a b : Timespec) : Prop :=
  b.tvSec < a.tvSec → 0 < (a.tvSec - b.tvSec) % 2 ^ 32 ∧ (a.tvSec - b.tvSec) % 2 ^ 32 < 2 ^ 31

section Sign

variable {t1 t2 : TimerWait}

theorem timerCompare_of_lt (h1 : t2.time.tvSec < t1.time.tvSec)
    (hov : t1.time.tvSec - t2.time.tvSec < 2 ^ 63) :
    timerCompare t1 t2 = CInt.int (t1.time.tvSec - t2.time.tvSec) := by
  unfold timerCompare
  rw [CInt.long_eq_self (by omega) hov]
  dsimp only
  rw [if_pos (by omega)]

theorem timerCompare_of_gt (h1 : t1.time.tvSec < t2.time.tvSec)
    (hov : -2 ^ 63 ≤ t1.time.tvSec - t2.time.tvSec) :
    timerCompare t1 t2 = CInt.int (t1.time.tvSec - t2.time.tvSec) := by
  unfold timerCompare
  rw [CInt.long_eq_self hov (by omega)]
  dsimp only
  rw [if_pos (by omega)]

theorem timerCompare_of_eq (h1 : t1.time.tvSec = t2.time.tvSec) (n1 : t1.time.Normalised)
    (n2 : t2.time.Normalised) : timerCompare t1 t2 = t1.time.tvNsec - t2.time.tvNsec := by
  obtain ⟨-, -, h3, h4⟩ := n1
  obtain ⟨-, -, h5, h6⟩ := n2
  unfold timerCompare
  rw [h1, Int.sub_self]
  simp only [show CInt.long 0 = 0 from rfl, ne_eq, not_true_eq_false, if_false]
  rw [CInt.long_eq_self (by omega) (by omega), CInt.int_eq_self (by omega) (by omega)]

/-- In 32 bits a positive distance stays positive exactly when it is near. -/
theorem int_pos_iff {d : Int} : 0 < CInt.int d ↔ 0 < d % 2 ^ 32 ∧ d % 2 ^ 32 < 2 ^ 31 := by
  rw [CInt.int_eq_ite]
  split
  · omega
  · omega

theorem int_neg_iff {d : Int} : CInt.int (-d) < 0 ↔ 0 < d % 2 ^ 32 ∧ d % 2 ^ 32 ≤ 2 ^ 31 := by
  rw [CInt.int_eq_ite]
  split
  · omega
  · omega

/-- `timer_compare` has the sign of the chronological order, for deadlines that are near. -/
theorem timerCompare_sign (n1 : t1.time.Normalised) (n2 : t2.time.Normalised)
    (hov : -2 ^ 63 ≤ t1.time.tvSec - t2.time.tvSec ∧ t1.time.tvSec - t2.time.tvSec < 2 ^ 63)
    (h12 : Near t1.time t2.time) (h21 : Near t2.time t1.time) :
    (timerCompare t1 t2).sign = (t1.time.nanos - t2.time.nanos).sign := by
  obtain ⟨-, -, h3, h4⟩ := id n1
  obtain ⟨-, -, h5, h6⟩ := id n2
  unfold Timespec.nanos
  rcases lt_trichotomy t1.time.tvSec t2.time.tvSec with hlt | heq | hgt
  · rw [timerCompare_of_gt hlt hov.1, ← Int.neg_sub]
    rw [Int.sign_eq_neg_one_of_neg (int_neg_iff.2 ⟨(h21 hlt).1, (h21 hlt).2.le⟩),
      Int.sign_eq_neg_one_of_neg (by omega)]
  · rw [timerCompare_of_eq heq n1 n2, heq]
    congr 1
    omega
  · rw [timerCompare_of_lt hgt hov.2]
    rw [Int.sign_eq_one_of_pos (int_pos_iff.2 (h12 hgt)), Int.sign_eq_one_of_pos (by omega)]

end Sign

/-! ## The timer heap -/

/-- `heap_min` is `NULL` on the empty heap and an earliest timer on any other. -/
def MinIsEarliest (h : Heap TimerWait) : Prop :=
  match (heapMin h).1 with
  | none => h.bag = 0
  | some t => t ∈ h.bag ∧ ∀ t' ∈ h.bag, t.time.nanos ≤ t'.time.nanos

/-- The timer heap as `sched_new_global` initialises it. -/
def timerHeapInit (garbage : Nat → TimerWait) : Heap TimerWait :=
  (heapInit .block garbage timerCompare).2

section Order

variable {S : Timespec → Prop} (hn : ∀ t, S t → t.Normalised)
  (hov : ∀ a b, S a → S b → -2 ^ 63 ≤ a.tvSec - b.tvSec ∧ a.tvSec - b.tvSec < 2 ^ 63)

theorem signPreorder_of_sign (hsign : ∀ t1 t2 : TimerWait, S t1.time → S t2.time →
      (timerCompare t1 t2).sign = (t1.time.nanos - t2.time.nanos).sign) :
    SignPreorder (fun t => S t.time) timerCompare :=
  .of_key (fun t => t.time.nanos) hsign

include hn hov in
theorem sign_of_near (hnear : ∀ a b, S a → S b → Near a b) (t1 t2 : TimerWait) (h1 : S t1.time)
    (h2 : S t2.time) : (timerCompare t1 t2).sign = (t1.time.nanos - t2.time.nanos).sign :=
  timerCompare_sign (hn _ h1) (hn _ h2) (hov _ _ h1 h2) (hnear _ _ h1 h2) (hnear _ _ h2 h1)

include hov in
theorem near_of_pos {a b : Timespec} (ha : S a) (hb : S b)
    (hpos : b.tvSec < a.tvSec → 0 < timerCompare ⟨a, 0⟩ ⟨b, 0⟩) : Near a b := by
  intro hlt
  have h := hpos hlt
  have heq : timerCompare ⟨a, 0⟩ ⟨b, 0⟩ = CInt.int (a.tvSec - b.tvSec) :=
    timerCompare_of_lt hlt (hov a b ha hb).2
  rw [heq] at h
  exact int_pos_iff.1 h

/-- Over timers that `timer_compare` orders chronologically, the heap's minimum is earliest after
any sequence of calls. -/
theorem minIsEarliest_of_sign (hsign : ∀ t1 t2 : TimerWait, S t1.time → S t2.time →
      (timerCompare t1 t2).sign = (t1.time.nanos - t2.time.nanos).sign) :
    ∀ (cs : List (Call TimerWait)) {h : Heap TimerWait}, h.Valid (fun t => S t.time) →
      h.compare = timerCompare → (∀ t, .push t ∈ cs → S t.time) → Below h cs →
      MinIsEarliest (calls h cs).2
  | [], h, hv, hcmp, _, _ => by
    unfold MinIsEarliest heapMin
    by_cases hi : h.items = 0
    · simp only [calls, hi, if_true]
      exact Multiset.card_eq_zero.1 (by rw [Heap.card_bag, hi])
    · simp only [calls, hi, if_false]
      obtain ⟨hmem, hleast⟩ := hv.least hi
      refine ⟨hmem, fun t' ht' => ?_⟩
      have hle := hleast t' ht'
      rw [hcmp, ← Int.sign_nonpos_iff, hsign _ _ (hv.mem _ hmem) (hv.mem _ ht'),
        Int.sign_nonpos_iff] at hle
      omega
  | c :: cs, h, hv, hcmp, hS, hb => by
    have hc : ∀ item, c = .push item → S item.time :=
      fun item e => hS item (by rw [e]; exact List.mem_cons_self)
    obtain ⟨-, hv', hcmp'⟩ := call_refines hv hb.1 c hc
    exact minIsEarliest_of_sign hsign cs hv' (hcmp'.trans hcmp)
      (fun t ht => hS t (List.mem_cons_of_mem _ ht)) hb.2

/-- Pushing `b` after `a` makes it the minimum only if `timer_compare` puts it before `a`. -/
theorem pos_of_minIsEarliest (garbage : Nat → TimerWait) {a b : Timespec} (ha : a.Normalised)
    (hb : b.Normalised)
    (hmin : MinIsEarliest (calls (timerHeapInit garbage) [.push ⟨a, 0⟩, .push ⟨b, 0⟩]).2)
    (hlt : b.tvSec < a.tvSec) : 0 < timerCompare ⟨a, 0⟩ ⟨b, 0⟩ := by
  by_contra hle
  have hroot : (heapMin (calls (timerHeapInit garbage) [.push ⟨a, 0⟩, .push ⟨b, 0⟩]).2).1 =
      some ⟨a, 0⟩ := by
    simp [calls, call, heapPush, timerHeapInit, heapInit, INITIAL_SIZE, pushItem, siftUp, heapMin,
      hle]
  unfold MinIsEarliest at hmin
  rw [hroot] at hmin
  have hbag : (⟨b, 0⟩ : TimerWait) ∈
      (calls (timerHeapInit garbage) [.push ⟨a, 0⟩, .push ⟨b, 0⟩]).2.bag := by
    simp only [calls, call, heapPush_bag]
    exact Multiset.mem_cons_self _ _
  have := hmin.2 _ hbag
  obtain ⟨-, -, h1, h2⟩ := ha
  obtain ⟨-, -, h3, h4⟩ := hb
  simp only [Timespec.nanos] at this
  omega

end Order

/-- **The timer order.** For timers with deadlines in `S`, normalised and with differences that are
`long`s: the heap's minimum is an earliest timer after every sequence of calls (with fewer than
`2^30` timers at a time), and `timer_compare` is a total preorder with the sign of the chronological
order, exactly when any two deadlines in different seconds are near. -/
theorem timer_order_iff (S : Timespec → Prop) (hn : ∀ t, S t → t.Normalised)
    (hov : ∀ a b, S a → S b → -2 ^ 63 ≤ a.tvSec - b.tvSec ∧ a.tvSec - b.tvSec < 2 ^ 63)
    (garbage : Nat → TimerWait) :
    ((∀ cs, (∀ t, .push t ∈ cs → S t.time) → Below (timerHeapInit garbage) cs →
        MinIsEarliest (calls (timerHeapInit garbage) cs).2) ↔
      ∀ a b, S a → S b → Near a b) ∧
    ((SignPreorder (fun t => S t.time) timerCompare ∧
        ∀ t1 t2 : TimerWait, S t1.time → S t2.time →
          (timerCompare t1 t2).sign = (t1.time.nanos - t2.time.nanos).sign) ↔
      ∀ a b, S a → S b → Near a b) := by
  refine ⟨⟨fun hmin a b ha hb => ?_, fun hnear cs hS hb => ?_⟩, fun h a b ha hb => ?_,
    fun hnear => ?_⟩
  · refine near_of_pos hov ha hb (pos_of_minIsEarliest garbage (hn a ha) (hn b hb) (hmin _ ?_ ?_))
    · intro t ht
      simp only [List.mem_cons, Call.push.injEq, List.not_mem_nil, or_false] at ht
      rcases ht with rfl | rfl
      · exact ha
      · exact hb
    · simp [Below, Along, call, timerHeapInit, heapInit]
  · have hsign := sign_of_near hn hov hnear
    exact minIsEarliest_of_sign hsign cs (heapInit_valid (signPreorder_of_sign hsign) garbage) rfl
      hS hb
  · refine near_of_pos hov ha hb fun hlt => ?_
    obtain ⟨-, -, h1, h2⟩ := hn a ha
    obtain ⟨-, -, h3, h4⟩ := hn b hb
    have hs := h.2 ⟨a, 0⟩ ⟨b, 0⟩ ha hb
    rw [Int.sign_eq_one_of_pos (a := _ - _) (by simp only [Timespec.nanos]; omega)] at hs
    exact Int.sign_eq_one_iff_pos.1 hs
  · have hsign := sign_of_near hn hov hnear
    exact ⟨signPreorder_of_sign hsign, hsign⟩

/-- Two deadlines within a minute. -/
theorem timer_order_iff_minute :
    ((∀ cs, (∀ t, .push t ∈ cs → (t.time = ⟨60, 0⟩ ∨ t.time = ⟨0, 5⟩)) →
        Below (timerHeapInit fun _ => default) cs →
        MinIsEarliest (calls (timerHeapInit fun _ => default) cs).2) ↔
      ∀ a b : Timespec, a = ⟨60, 0⟩ ∨ a = ⟨0, 5⟩ → b = ⟨60, 0⟩ ∨ b = ⟨0, 5⟩ → Near a b) :=
  (timer_order_iff (fun t => t = ⟨60, 0⟩ ∨ t = ⟨0, 5⟩)
    (by rintro t (rfl | rfl) <;> constructor <;> decide)
    (by rintro a b (rfl | rfl) (rfl | rfl) <;> decide) (fun _ => default)).1

/-- Deadlines `2^31` seconds apart, the later one pushed first: the heap's minimum is the later
one, and `timer_compare` puts each of the two before the other. -/
theorem timer_order_far_apart :
    (heapMin (calls (timerHeapInit fun _ => default)
        [.push ⟨⟨2 ^ 31, 0⟩, 0⟩, .push ⟨⟨0, 0⟩, 1⟩]).2).1 = some ⟨⟨2 ^ 31, 0⟩, 0⟩ ∧
      ¬ MinIsEarliest (calls (timerHeapInit fun _ => default)
        [.push ⟨⟨2 ^ 31, 0⟩, 0⟩, .push ⟨⟨0, 0⟩, 1⟩]).2 ∧
      timerCompare ⟨⟨2 ^ 31, 0⟩, 0⟩ ⟨⟨0, 0⟩, 1⟩ < 0 ∧
      timerCompare ⟨⟨0, 0⟩, 1⟩ ⟨⟨2 ^ 31, 0⟩, 0⟩ < 0 := by
  have hroot : (heapMin (calls (timerHeapInit fun _ => default)
      [.push ⟨⟨2 ^ 31, 0⟩, 0⟩, .push ⟨⟨0, 0⟩, 1⟩]).2).1 = some ⟨⟨2 ^ 31, 0⟩, 0⟩ := by decide
  refine ⟨hroot, fun hmin => ?_, by decide, by decide⟩
  unfold MinIsEarliest at hmin
  rw [hroot] at hmin
  have hbag : (⟨⟨0, 0⟩, 1⟩ : TimerWait) ∈ (calls (timerHeapInit fun _ => default)
      [.push ⟨⟨2 ^ 31, 0⟩, 0⟩, .push ⟨⟨0, 0⟩, 1⟩]).2.bag := by
    simp only [calls, call, heapPush_bag]
    exact Multiset.mem_cons_self _ _
  exact absurd (hmin.2 _ hbag) (by decide)

end Lwthread.Scheduler
