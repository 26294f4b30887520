import Mathlib.Algebra.Ring.Nat
import Mathlib.Data.Set.Basic
import Mathlib.Tactic.Common

/-!
# Byte memories

A memory of bytes with 64-bit addresses that wrap around, and values of several bytes in it, least
significant byte first. A store changes the bytes of its range only (`store_of_notMem`); a load sees a
store at the same address (`load_store_self`) and none that its range does not meet (`load_congr`).
-/

namespace Bytes

abbrev Addr := BitVec 64

abbrev Mem := Addr → BitVec 8

/-- The `n` bytes from `a` on. -/
def range (a : Addr) (n : Nat) : Set Addr := {x | (x - a).toNat < n}

/-- The value of the `n` bytes from `a` on. -/
def load (m : Mem) (a : Addr) : (n : Nat) → BitVec (8 * n)
  | 0 => 0#0
  | n + 1 => load m (a + 1) n ++ m a

/-- The memory with `v` in the bytes from `a` on. -/
def store (m : Mem) (a : Addr) {n : Nat} (v : BitVec (8 * n)) : Mem := fun x =>
  if (x - a).toNat < n then v.extractLsb' (8 * (x - a).toNat) 8 else m x

variable {m m' : Mem} {a b x : Addr} {n k : Nat} {v w : BitVec (8 * n)}

theorem mem_range : x ∈ range a n ↔ (x - a).toNat < n := Iff.rfl

theorem add_mem_range {i : Nat} (hi : i < n) (hn : n ≤ 2 ^ 64) : a + BitVec.ofNat 64 i ∈ range a n := by
  have hsub : a + BitVec.ofNat 64 i - a = BitVec.ofNat 64 i := by
    rw [BitVec.add_comm, BitVec.add_sub_cancel]
  rw [mem_range, hsub, BitVec.toNat_ofNat, Nat.mod_eq_of_lt (by omega)]
  exact hi

theorem store_of_notMem (h : x ∉ range a n) : store m a v x = m x := if_neg h

theorem mem_range_of_store_ne (h : store m a v x ≠ m x) : x ∈ range a n :=
  Classical.not_not.1 fun hx => h (store_of_notMem hx)

/-- A value is made of its bytes. -/
theorem eq_of_bytes (h : ∀ i < n, v.extractLsb' (8 * i) 8 = w.extractLsb' (8 * i) 8) : v = w := by
  refine BitVec.eq_of_getLsbD_eq fun j hj => ?_
  have hbyte := congrArg (BitVec.getLsbD · (j % 8)) (h (j / 8) (by omega))
  simp only [BitVec.getLsbD_extractLsb', Nat.mod_lt j (by omega : 8 > 0), decide_true,
    Bool.true_and, Nat.div_add_mod] at hbyte
  exact hbyte

theorem byte_load {i : Nat} (hi : i < n) :
    (load m a n).extractLsb' (8 * i) 8 = m (a + BitVec.ofNat 64 i) := by
  induction n generalizing a i with
  | zero => omega
  | succ n ih =>
    refine BitVec.eq_of_getLsbD_eq fun j hj => ?_
    rw [BitVec.getLsbD_extractLsb']
    simp only [load, hj, decide_true, Bool.true_and, BitVec.getLsbD_append]
    cases i with
    | zero =>
      simp only [Nat.mul_zero, Nat.zero_add, hj, if_true]
      rw [show BitVec.ofNat 64 0 = 0#64 from rfl, BitVec.add_zero]
    | succ i =>
      have hrest := congrArg (BitVec.getLsbD · j) (ih (a := a + 1) (Nat.lt_of_succ_lt_succ hi))
      simp only [BitVec.getLsbD_extractLsb', hj, decide_true, Bool.true_and] at hrest
      rw [if_neg (by omega), show 8 * (i + 1) + j - 8 = 8 * i + j by omega, hrest]
      congr 2
      rw [BitVec.add_assoc]
      congr 1
      rw [Nat.add_comm, BitVec.ofNat_add]
      rfl

/-- A load reads its own bytes only. -/
theorem load_congr (hn : n ≤ 2 ^ 64) (h : ∀ x ∈ range a n, m x = m' x) : load m a n = load m' a n := by
  refine eq_of_bytes fun i hi => ?_
  rw [byte_load hi, byte_load hi]
  exact h _ (add_mem_range hi hn)

theorem load_store_self (hn : n ≤ 2 ^ 64) : load (store m a v) a n = v := by
  refine eq_of_bytes fun i hi => ?_
  have hsub : (a + BitVec.ofNat 64 i - a).toNat = i := by
    rw [BitVec.add_comm, BitVec.add_sub_cancel, BitVec.toNat_ofNat, Nat.mod_eq_of_lt (by omega)]
  rw [byte_load hi]
  simp only [store, hsub, hi, if_true]

theorem load_store_of_disjoint (hk : k ≤ 2 ^ 64) (h : ∀ x ∈ range b k, x ∉ range a n) :
    load (store m a v) b k = load m b k :=
  load_congr hk fun x hx => store_of_notMem (h x hx)

theorem toNat_sub_add (x a : Addr) (i : Nat) :
    (x - (a + BitVec.ofNat 64 i)).toNat = ((x - a).toNat + (2 ^ 64 - i % 2 ^ 64)) % 2 ^ 64 := by
  simp only [BitVec.toNat_sub, BitVec.toNat_add, BitVec.toNat_ofNat]
  omega

/-- Two pieces of one block do not meet. -/
theorem range_add_disjoint {i j : Nat} (hij : i + n ≤ j ∨ j + k ≤ i) (hi : i + n ≤ 2 ^ 64)
    (hj : j + k ≤ 2 ^ 64) (hx : x ∈ range (a + BitVec.ofNat 64 j) k) :
    x ∉ range (a + BitVec.ofNat 64 i) n := by
  rw [mem_range, toNat_sub_add] at hx ⊢
  have hlt := (x - a).isLt
  omega

/-- A piece of a block is in it. -/
theorem range_add_subset {i : Nat} (hi : i + n ≤ k) (hk : k ≤ 2 ^ 64)
    (hx : x ∈ range (a + BitVec.ofNat 64 i) n) : x ∈ range a k := by
  rw [mem_range, toNat_sub_add] at hx
  rw [mem_range]
  have hlt := (x - a).isLt
  omega

end Bytes
