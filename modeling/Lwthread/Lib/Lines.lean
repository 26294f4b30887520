import Mathlib.Data.Nat.Digits.Defs
import Mathlib.Data.List.Basic

/-!
# Lines and decimal numbers

Text in which a line ends with a carriage return and a line feed, an empty line ends a head, and
numbers are written in decimal. Whatever is written this way, from lines that contain no carriage
return, is read back: a line (`splitLine_append`), a head (`splitHead_append`), a number
(`parseDecimal_decimal`).
-/

namespace Lwthread.Lines

/-- The end of a line. -/
def crlf : List UInt8 := [13, 10]

/-! ## Lines -/

/-- The first line of a text, and what follows its end. -/
def splitLine : List UInt8 → Option (List UInt8 × List UInt8)
  | [] => none
  | b :: text =>
    if b = 13 ∧ text.head? = some 10 then some ([], text.tail)
    else (splitLine text).map fun r => (b :: r.1, r.2)

theorem splitLine_append {line : List UInt8} (h : 13 ∉ line) (rest : List UInt8) :
    splitLine (line ++ crlf ++ rest) = some (line, rest) := by
  induction line with
  | nil => rfl
  | cons b line ih =>
    have hb : b ≠ 13 := fun hb => h (hb ▸ List.mem_cons_self)
    rw [List.cons_append, List.cons_append, splitLine, if_neg fun hc => hb hc.1,
      ih fun hm => h (List.mem_cons_of_mem b hm)]
    rfl

/-! ## Heads -/

/-- The lines before the first empty one, and what follows it; a head has fewer lines than `fuel`. -/
def splitHead : Nat → List UInt8 → Option (List (List UInt8) × List UInt8)
  | 0, _ => none
  | fuel + 1, text =>
    match splitLine text with
    | none => none
    | some ([], rest) => some ([], rest)
    | some (b :: line, rest) => (splitHead fuel rest).map fun r => ((b :: line) :: r.1, r.2)

/-- Lines, each with its end. -/
def unlines (lines : List (List UInt8)) : List UInt8 := lines.flatMap (· ++ crlf)

/-- A line that may stand in a head. -/
def Line (line : List UInt8) : Prop := line ≠ [] ∧ 13 ∉ line

theorem splitHead_append {lines : List (List UInt8)} (h : ∀ line ∈ lines, Line line)
    (rest : List UInt8) {fuel : Nat} (hf : lines.length < fuel) :
    splitHead fuel (unlines lines ++ crlf ++ rest) = some (lines, rest) := by
  induction lines generalizing fuel with
  | nil =>
    obtain ⟨fuel, rfl⟩ : ∃ n, fuel = n + 1 := ⟨fuel - 1, by omega⟩
    rw [splitHead, unlines, List.flatMap_nil, splitLine_append List.not_mem_nil]
  | cons line lines ih =>
    obtain ⟨fuel, rfl⟩ : ∃ n, fuel = n + 1 := ⟨fuel - 1, by omega⟩
    obtain ⟨hne, hcr⟩ := h line List.mem_cons_self
    have htext : unlines (line :: lines) ++ crlf ++ rest =
        line ++ crlf ++ (unlines lines ++ crlf ++ rest) := by
      simp [unlines]
    rw [htext, splitHead, splitLine_append hcr]
    cases line with
    | nil => exact absurd rfl hne
    | cons b line =>
      dsimp only
      rw [ih (fun l hl => h l (List.mem_cons_of_mem _ hl)) (by simpa using hf)]
      rfl

theorem unlines_length {lines : List (List UInt8)} : lines.length ≤ (unlines lines).length := by
  induction lines with
  | nil => exact Nat.zero_le _
  | cons line lines ih =>
    have hcons : unlines (line :: lines) = line ++ crlf ++ unlines lines := by simp [unlines]
    rw [hcons]
    simp only [List.length_cons, List.length_append, crlf, List.length_nil]
    omega

/-! ## Numbers -/

/-- A number in decimal. -/
def decimal (n : Nat) : List UInt8 :=
  if n = 0 then [48] else (Nat.digits 10 n).reverse.map fun d => UInt8.ofNat (48 + d)

/-- The value of decimal digits. -/
def parseDecimal (bytes : List UInt8) : Option Nat :=
  if !bytes.isEmpty && bytes.all fun b => 48 ≤ b && b ≤ 57 then
    some (bytes.foldl (fun n b => 10 * n + (b.toNat - 48)) 0)
  else none

theorem digit_toNat {d : Nat} (hd : d < 10) : (UInt8.ofNat (48 + d)).toNat = 48 + d := by
  rw [UInt8.toNat_ofNat']
  omega

theorem foldl_digits (ds : List Nat) (h : ∀ d ∈ ds, d < 10) :
    (ds.reverse.map fun d => UInt8.ofNat (48 + d)).foldl (fun n b => 10 * n + (b.toNat - 48)) 0 =
      Nat.ofDigits 10 ds := by
  induction ds with
  | nil => rfl
  | cons d ds ih =>
    have hd : d < 10 := h d List.mem_cons_self
    rw [List.reverse_cons, List.map_append, List.foldl_append,
      ih fun e he => h e (List.mem_cons_of_mem d he), Nat.ofDigits_cons]
    have hb := digit_toNat hd
    simp only [List.map_cons, List.map_nil, List.foldl_cons, List.foldl_nil, hb,
      Nat.add_sub_cancel_left]
    omega

theorem digit_range {d : Nat} (hd : d < 10) :
    48 ≤ UInt8.ofNat (48 + d) ∧ UInt8.ofNat (48 + d) ≤ 57 := by
  rw [UInt8.le_iff_toNat_le, UInt8.le_iff_toNat_le, digit_toNat hd]
  exact ⟨Nat.le_add_right 48 d, by change 48 + d ≤ 57; omega⟩

theorem mem_decimal {n : Nat} {b : UInt8} (h : b ∈ decimal n) : 48 ≤ b ∧ b ≤ 57 := by
  unfold decimal at h
  split at h
  · rw [List.mem_singleton] at h
    rw [h]
    decide
  · obtain ⟨d, hd, rfl⟩ := List.mem_map.1 h
    exact digit_range (Nat.digits_lt_base (by decide) (List.mem_reverse.1 hd))

theorem decimal_ne_nil (n : Nat) : decimal n ≠ [] := by
  unfold decimal
  split
  · exact List.cons_ne_nil _ _
  · next hn => simpa [Nat.digits_ne_nil_iff_ne_zero] using hn

theorem cr_notMem_decimal (n : Nat) : 13 ∉ decimal n := by
  intro h
  exact absurd (mem_decimal h).1 (by decide)

theorem parseDecimal_decimal (n : Nat) : parseDecimal (decimal n) = some n := by
  have hdigits : ((decimal n).all fun b => 48 ≤ b && b ≤ 57) = true := by
    refine List.all_eq_true.2 fun b hb => ?_
    rw [Bool.and_eq_true, decide_eq_true_iff, decide_eq_true_iff]
    exact mem_decimal hb
  unfold parseDecimal
  rw [hdigits, if_pos (by simpa using decimal_ne_nil n)]
  unfold decimal
  split
  · next hn => rw [hn]; rfl
  · rw [foldl_digits _ fun d hd => Nat.digits_lt_base (by decide) hd, Nat.ofDigits_digits]

end Lwthread.Lines
