import Lwthread.Lib.Bytes
import Mathlib.Logic.Function.Basic

/-!
# A fragment of amd64

The instructions that a context switch is written in, over the general registers, the zero flag and a
byte memory. An instruction has at most one memory operand (`Instr.operand`); it writes no byte outside
it (`exec_frame`) and reads none (`exec_congr`). Operands are in the order of the AT&T syntax, source first. Labels are left open.
-/

namespace Amd64

open Bytes

abbrev Word := BitVec 64

inductive Reg where
  | rax | rbx | rcx | rdx | rsi | rdi | rbp | rsp
  | r8 | r9 | r10 | r11 | r12 | r13 | r14 | r15
  deriving DecidableEq, Repr

/-- The general registers and the zero flag. -/
structure Cpu where
  reg : Reg → Word
  zf : Bool

namespace Cpu

variable (c : Cpu) (r : Reg)

def set (v : Word) : Cpu := { c with reg := Function.update c.reg r v }

/-- The low half of a register. -/
def low : BitVec 32 := (c.reg r).setWidth 32

/-- A write to the low half of a register clears its high half. -/
def setLow (v : BitVec 32) : Cpu := c.set r (v.setWidth 64)

variable {c r}

@[simp] theorem set_self (v : Word) : (c.set r v).reg r = v := Function.update_self _ _ _

theorem set_ne {r' : Reg} (v : Word) (h : r' ≠ r) : (c.set r v).reg r' = c.reg r' :=
  Function.update_of_ne h _ _

end Cpu

/-- An instruction. A memory operand `off(base)` is given by its offset and register. -/
inductive Instr (ℓ : Type) where
  /-- `movq %src, off(%base)` -/
  | movqStore (src : Reg) (off : Nat) (base : Reg)
  /-- `movq $imm, off(%base)` -/
  | movqStoreImm (imm : Word) (off : Nat) (base : Reg)
  /-- `movq off(%base), %dst` -/
  | movqLoad (off : Nat) (base dst : Reg)
  /-- `subq $imm, %dst` -/
  | subqImm (imm : Word) (dst : Reg)
  /-- `movl %src, %dst` -/
  | movl (src dst : Reg)
  /-- `movl $imm, %dst` -/
  | movlImm (imm : BitVec 32) (dst : Reg)
  /-- `xorl %src, %dst` -/
  | xorl (src dst : Reg)
  /-- `lock cmpxchg %src, off(%base)`, of 32 bits -/
  | lockCmpxchg (src : Reg) (off : Nat) (base : Reg)
  | jz (label : ℓ)
  | ret

/-- Where an instruction goes on. -/
inductive Flow (ℓ : Type) where
  | next
  | jump (label : ℓ)
  | ret (rip : Word)

variable {ℓ : Type}

/-- The address `off(base)`. -/
def Cpu.ea (c : Cpu) (off : Nat) (base : Reg) : Addr := c.reg base + BitVec.ofNat 64 off

/-- The first byte and the length of what an instruction reads or writes in memory. -/
def Instr.operand (c : Cpu) : Instr ℓ → Addr × Nat
  | .movqStore _ off base => (c.ea off base, 8)
  | .movqStoreImm _ off base => (c.ea off base, 8)
  | .movqLoad off base _ => (c.ea off base, 8)
  | .lockCmpxchg _ off base => (c.ea off base, 4)
  | .ret => (c.reg .rsp, 8)
  | _ => (0, 0)

/-- The bytes that an instruction reads or writes. -/
def Instr.touches (i : Instr ℓ) (c : Cpu) : Set Addr := range (i.operand c).1 (i.operand c).2

/-- An instruction: the registers and the memory after it, and where it goes on. -/
def exec (c : Cpu) (m : Mem) : Instr ℓ → Cpu × Mem × Flow ℓ
  | .movqStore src off base => (c, store (n := 8) m (c.ea off base) (c.reg src), .next)
  | .movqStoreImm imm off base => (c, store (n := 8) m (c.ea off base) imm, .next)
  | .movqLoad off base dst => (c.set dst (load m (c.ea off base) 8), m, .next)
  | .subqImm imm dst => ({ c.set dst (c.reg dst - imm) with zf := c.reg dst - imm == 0 }, m, .next)
  | .movl src dst => (c.setLow dst (c.low src), m, .next)
  | .movlImm imm dst => (c.setLow dst imm, m, .next)
  | .xorl src dst =>
    ({ c.setLow dst (c.low dst ^^^ c.low src) with zf := c.low dst ^^^ c.low src == 0 }, m, .next)
  | .lockCmpxchg src off base =>
    if c.low .rax = load m (c.ea off base) 4 then
      ({ c with zf := true }, store (n := 4) m (c.ea off base) (c.low src), .next)
    else
      ({ c.setLow .rax (load m (c.ea off base) 4) with zf := false }, m, .next)
  | .jz label => (c, m, if c.zf then .jump label else .next)
  | .ret => (c.set .rsp (c.reg .rsp + 8), m, .ret (load m (c.reg .rsp) 8))

/-- An instruction writes its memory operand only. -/
theorem exec_frame (c : Cpu) (m : Mem) (i : Instr ℓ) {x : Addr} (hx : x ∉ i.touches c) :
    (exec c m i).2.1 x = m x := by
  cases i with
  | movqStore src off base => exact store_of_notMem hx
  | movqStoreImm imm off base => exact store_of_notMem hx
  | lockCmpxchg src off base =>
    simp only [exec]
    split
    · exact store_of_notMem hx
    · rfl
  | _ => rfl

/-- An instruction reads its memory operand only. -/
theorem exec_congr (c : Cpu) {m m' : Mem} (i : Instr ℓ) (h : ∀ x ∈ i.touches c, m x = m' x) :
    (exec c m i).1 = (exec c m' i).1 ∧ (exec c m i).2.2 = (exec c m' i).2.2 := by
  cases i with
  | movqLoad off base dst =>
    have hload : load m (c.ea off base) 8 = load m' (c.ea off base) 8 := load_congr (by omega) h
    simp only [exec, hload, and_self]
  | lockCmpxchg src off base =>
    have hload : load m (c.ea off base) 4 = load m' (c.ea off base) 4 := load_congr (by omega) h
    simp only [exec, hload]
    split
    · exact ⟨rfl, rfl⟩
    · exact ⟨rfl, rfl⟩
  | ret =>
    have hload : load m (c.reg .rsp) 8 = load m' (c.reg .rsp) 8 := load_congr (by omega) h
    simp only [exec, hload, and_self]
  | _ => exact ⟨rfl, rfl⟩

end Amd64
