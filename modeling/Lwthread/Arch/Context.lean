import Lwthread.Lib.Amd64
import Mathlib.Logic.Relation

/-!
# The context switch of `arch/context_gcc_amd64.S`

The four functions of the file, instruction by instruction, on any number of threads that share the
memory. A thread is inside one of the functions or executes other code, which is not modelled: it may
do anything to the registers, to the stack it executes on and to memory that is no context and no stack.

Beside the registers a thread carries what the statements about it speak of and no instruction reads:
whose stack it executes on, which coroutine it is switching to and which it has left, and the registers
with which its call was made. `State.saved` records for each coroutine where the latest `context_save`
into its context returned, or where `_context_create` has it start; there is no record while a call
writes the context.
-/

namespace Lwthread.Arch

open Bytes Amd64

/-! ## The text -/

inductive Fn where
  | contextCreate
  | contextSave
  | contextRestore
  | contextCmpxchgRestore
  deriving DecidableEq, Repr

/-- The instructions of each function. The label `.local_restore` is the start of `context_restore`. -/
def code : Fn → List (Instr Fn)
  | .contextCreate =>
    [.movqStore .rsi 56 .rdi,
      .subqImm 16 .rdx,
      .movqStoreImm 132 0 .rdx,
      .movqStore .rdx 16 .rdi,
      .ret]
  | .contextSave =>
    [.movqStore .rbx 0 .rdi,
      .movqStore .rbp 8 .rdi,
      .movqStore .rsp 16 .rdi,
      .movqStore .r12 24 .rdi,
      .movqStore .r13 32 .rdi,
      .movqStore .r14 40 .rdi,
      .movqStore .r15 48 .rdi,
      .movqLoad 0 .rsp .rax,
      .movqStore .rax 56 .rdi,
      .xorl .rax .rax,
      .ret]
  | .contextRestore =>
    [.movqLoad 0 .rdi .rbx,
      .movqLoad 8 .rdi .rbp,
      .movqLoad 16 .rdi .rsp,
      .movqLoad 24 .rdi .r12,
      .movqLoad 32 .rdi .r13,
      .movqLoad 40 .rdi .r14,
      .movqLoad 48 .rdi .r15,
      .movqLoad 56 .rdi .rax,
      .movqStore .rax 0 .rsp,
      .movlImm 1 .rax,
      .ret]
  | .contextCmpxchgRestore =>
    [.movl .rdx .rax,
      .lockCmpxchg .rcx 0 .rsi,
      .jz .contextRestore,
      .ret]

/-- The callee-saved registers, in the order of `struct context`. -/
def calleeSaved : List Reg := [.rbx, .rbp, .rsp, .r12, .r13, .r14, .r15]

/-! ## Coroutines -/

/-- Where the registers of each coroutine's `struct context` and its stack are. They are pairwise
disjoint, and the end of a stack is an address. -/
structure Layout (κ : Type) where
  context : κ → Addr
  stack : κ → Addr
  size : κ → Nat
  top : ∀ c, (stack c).toNat + size c < 2 ^ 64
  context_inj : ∀ {c d x}, x ∈ range (context c) 64 → x ∈ range (context d) 64 → c = d
  stack_inj : ∀ {c d x}, x ∈ range (stack c) (size c) → x ∈ range (stack d) (size d) → c = d
  apart : ∀ {c d x}, x ∈ range (context c) 64 → x ∉ range (stack d) (size d)

namespace Layout

variable {κ : Type} (L : Layout κ)

def contextBytes (c : κ) : Set Addr := range (L.context c) 64

def stackBytes (c : κ) : Set Addr := range (L.stack c) (L.size c)

/-- What code on the stack of `c` may write. -/
def Open (c : κ) (x : Addr) : Prop := (∀ d, x ∉ L.contextBytes d) ∧ ∀ d, x ∈ L.stackBytes d → d = c

/-- Memory that is no context and no stack. -/
def Outside (x : Addr) : Prop := ∀ d, x ∉ L.contextBytes d ∧ x ∉ L.stackBytes d

end Layout

/-- Where a coroutine goes on when its context is restored: the instruction and `%rsp` there, and the
registers, unless the context is fresh. -/
structure Snapshot where
  pc : Word
  rsp : Word
  regs : Option (Reg → Word)

/-- Where a thread executes: code outside the file, or the instruction `i` of a function. -/
inductive Pc where
  | out (rip : Word)
  | inside (f : Fn) (i : Nat)

structure Thread (κ : Type) where
  cpu : Cpu
  pc : Pc
  /-- the coroutine whose stack it executes on -/
  on : Option κ
  /-- the other coroutine that it is given the context of -/
  target : Option κ
  /-- the coroutine that it has left for `target` -/
  left : Option κ
  /-- the registers at the entry of the call -/
  entry : Cpu
  /-- the return address of the call -/
  back : Word
  /-- the value that its last `cmpxchg` has compared with -/
  found : BitVec 32

/-- A coroutine that the thread executes, or that it switches to. -/
def Thread.Holds {κ : Type} (th : Thread κ) (x : κ) : Prop := th.on = some x ∨ th.target = some x

structure State (τ κ : Type) where
  mem : Mem
  thread : τ → Thread κ
  saved : κ → Option Snapshot

section

variable {τ κ : Type} [DecidableEq τ] [DecidableEq κ]

/-! ## Calls -/

/-- The coroutine `d` is held by no thread but `t`. -/
def State.Free (s : State τ κ) (t : τ) (d : κ) : Prop := ∀ u, u ≠ t → ¬(s.thread u).Holds d

/-- What a caller on the stack of `c` owes a function that it passes the context of `d`. -/
def Args (L : Layout κ) (s : State τ κ) (t : τ) (c d : κ) : Fn → Prop
  | .contextCreate =>
    d ≠ c ∧ s.Free t d ∧ range ((s.thread t).cpu.reg .rdx - 16) 8 ⊆ L.stackBytes d
  | .contextSave => d = c
  | .contextRestore => s.Free t d ∧ s.saved d ≠ none
  | .contextCmpxchgRestore =>
    s.Free t d ∧ s.saved d ≠ none ∧ ∀ x ∈ range ((s.thread t).cpu.reg .rsi) 4, L.Outside x

/-- The thread `t`, in code outside, may call `f`. -/
structure Allowed (L : Layout κ) (s : State τ κ) (t : τ) (c d : κ) (f : Fn) : Prop where
  out : ∃ rip, (s.thread t).pc = .out rip
  on : (s.thread t).on = some c
  slot : range ((s.thread t).cpu.reg .rsp - 8) 8 ⊆ L.stackBytes c
  context : (s.thread t).cpu.reg .rdi = L.context d
  args : Args L s t c d f

/-- The thread after the call. A thread that enters `context_restore` has left its coroutine. -/
def Thread.call (th : Thread κ) (f : Fn) (d : κ) (back : Word) : Thread κ :=
  let cpu := th.cpu.set .rsp (th.cpu.reg .rsp - 8)
  { th with
    cpu := cpu
    pc := .inside f 0
    on := if f = .contextRestore then none else th.on
    target := if f = .contextSave then none else some d
    left := if f = .contextRestore then th.on else none
    entry := cpu
    back := back }

/-- The `call` instruction, with its return address. -/
def State.call (s : State τ κ) (t : τ) (f : Fn) (d : κ) (back : Word) : State τ κ where
  mem := store (n := 8) s.mem ((s.thread t).cpu.reg .rsp - 8) back
  thread := Function.update s.thread t ((s.thread t).call f d back)
  saved := if f = .contextCreate ∨ f = .contextSave then Function.update s.saved d none else s.saved

/-! ## Instructions -/

/-- The thread after an instruction `ins` of the memory `m` that does not return. A `cmpxchg` that
succeeds gives the coroutine up. -/
def Thread.advance (th : Thread κ) (m : Mem) (ins : Instr Fn) (cpu : Cpu) (pc : Pc) : Thread κ :=
  match ins with
  | .lockCmpxchg _ off base =>
    { th with
      cpu := cpu
      pc := pc
      on := if cpu.zf then none else th.on
      left := if cpu.zf then th.on else th.left
      found := load m (th.cpu.ea off base) 4 }
  | _ => { th with cpu := cpu, pc := pc }

/-- The thread after the function `f` has returned to `rip`. -/
def Thread.ret (th : Thread κ) (f : Fn) (cpu : Cpu) (rip : Word) : Thread κ :=
  { th with
    cpu := cpu
    pc := .out rip
    on := if f = .contextRestore then th.target else th.on
    target := none
    left := none }

/-- The records after that. -/
def Thread.record (th : Thread κ) (saved : κ → Option Snapshot) (f : Fn) (cpu : Cpu) (rip : Word) :
    κ → Option Snapshot :=
  match f, th.on, th.target with
  | .contextSave, some c, _ => Function.update saved c (some ⟨rip, cpu.reg .rsp, some cpu.reg⟩)
  | .contextCreate, _, some d =>
    Function.update saved d (some ⟨th.entry.reg .rsi, th.entry.reg .rdx - 8, none⟩)
  | _, _, _ => saved

/-- One instruction of a thread that is inside. -/
def State.instr (s : State τ κ) (t : τ) : Option (State τ κ) :=
  let th := s.thread t
  match th.pc with
  | .out _ => none
  | .inside f i =>
    match (code f)[i]? with
    | none => none
    | some ins =>
      match exec th.cpu s.mem ins with
      | (cpu, mem, .next) =>
        some ⟨mem, Function.update s.thread t (th.advance s.mem ins cpu (.inside f (i + 1))), s.saved⟩
      | (cpu, mem, .jump g) =>
        some ⟨mem, Function.update s.thread t (th.advance s.mem ins cpu (.inside g 0)), s.saved⟩
      | (cpu, mem, .ret rip) =>
        some ⟨mem, Function.update s.thread t (th.ret f cpu rip), th.record s.saved f cpu rip⟩

/-! ## Runs -/

/-- A step of a thread: of code outside, a call, or an instruction. -/
inductive Step (L : Layout κ) (s : State τ κ) : State τ κ → Prop
  | other {t c rip cpu rip'} {mem : Mem} (hpc : (s.thread t).pc = .out rip)
      (hon : (s.thread t).on = some c) (hmem : ∀ x, mem x ≠ s.mem x → L.Open c x) :
      Step L s { s with
        mem := mem
        thread := Function.update s.thread t { s.thread t with cpu := cpu, pc := .out rip' } }
  | call {t c d f} (back : Word) (h : Allowed L s t c d f) : Step L s (s.call t f d back)
  | instr {t s'} (h : s.instr t = some s') : Step L s s'

/-- No context is saved yet, and every thread executes other code on a stack of its own. The registers
and the memory are arbitrary. -/
structure Initial (s : State τ κ) : Prop where
  out : ∀ t, ∃ rip, (s.thread t).pc = .out rip
  on : ∀ t, (s.thread t).on ≠ none
  own : ∀ {t u}, (s.thread t).on = (s.thread u).on → t = u
  target : ∀ t, (s.thread t).target = none
  left : ∀ t, (s.thread t).left = none
  saved : ∀ c, s.saved c = none

/-- The states of the runs from `s₀`. -/
def Reach (L : Layout κ) (s₀ s : State τ κ) : Prop := Relation.ReflTransGen (Step L) s₀ s

end

end Lwthread.Arch
