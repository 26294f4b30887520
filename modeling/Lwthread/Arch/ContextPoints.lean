import Lwthread.Arch.Context

/-!
# The points of the context switch

What holds of a thread before each instruction of the four functions, with the memory of the coroutines
that it holds: how much of a context has been written or read. Other threads do not disturb it, since
they write to no context and no stack of these coroutines (`Point.frame`).
-/

namespace Lwthread.Arch

open Bytes Amd64

variable {τ κ : Type} {L : Layout κ} {m m' : Mem} {saved saved' : κ → Option Snapshot}
  {th th' : Thread κ} {c d : κ} {sn : Snapshot} {i j : Nat} {x : Addr}

/-! ## Contexts -/

/-- The register that the word `j` of a context is for. -/
def slotReg (j : Nat) : Reg := calleeSaved.getD j .rax

/-- The word `j` of the context of `c`. -/
def Layout.word (L : Layout κ) (c : κ) (j : Nat) : Addr := L.context c + BitVec.ofNat 64 (8 * j)

/-- What the context keeps for a register: `context_restore` returns from the stack pointer. -/
def Snapshot.word (sn : Snapshot) (r : Reg) : Option Word :=
  if r = .rsp then some (sn.rsp - 8) else sn.regs.map (· r)

/-- The context of `d` holds what the record says, and the record's return address is on its stack. -/
structure Stored (L : Layout κ) (m : Mem) (d : κ) (sn : Snapshot) : Prop where
  regs : ∀ {j v}, j < 7 → sn.word (slotReg j) = some v → load m (L.word d j) 8 = v
  pc : load m (L.word d 7) 8 = sn.pc
  slot : range (sn.rsp - 8) 8 ⊆ L.stackBytes d

theorem exists_slotReg {r : Reg} (hr : r ∈ calleeSaved) : ∃ j < 7, slotReg j = r := by
  revert r
  decide

theorem slotReg_inj {k : Nat} (hj : j < 7) (hk : k < 7) (h : slotReg j = slotReg k) : j = k := by
  revert k
  revert j
  decide

theorem slotReg_ne_rax (hj : j < 7) : slotReg j ≠ .rax := by
  revert j
  decide

theorem slotReg_ne_rdi (hj : j < 7) : slotReg j ≠ .rdi := by
  revert j
  decide

theorem word_subset (hj : j < 8) (hx : x ∈ range (L.word c j) 8) : x ∈ L.contextBytes c :=
  range_add_subset (by omega) (by omega) hx

theorem word_disjoint {k : Nat} (hj : j < 8) (hk : k < 8) (hne : j ≠ k) (hx : x ∈ range (L.word c j) 8) :
    x ∉ range (L.word c k) 8 :=
  range_add_disjoint (by omega) (by omega) (by omega) hx

theorem load_store_word {k : Nat} (hj : j < 8) (hk : k < 8) (hne : j ≠ k) (v : Word) :
    load (store (n := 8) m (L.word c k) v) (L.word c j) 8 = load m (L.word c j) 8 :=
  load_store_of_disjoint (by omega) fun _ hx => word_disjoint hj hk hne hx

/-- What is on a stack does not see a write to a context. -/
theorem load_store_stack {a : Addr} (hj : j < 8) (ha : range a 8 ⊆ L.stackBytes c) (v : Word) :
    load (store (n := 8) m (L.word d j) v) a 8 = load m a 8 :=
  load_store_of_disjoint (by omega) fun _ hx hx' => L.apart (word_subset hj hx') (ha hx)

theorem Stored.frame (h : Stored L m d sn) (hm : ∀ x ∈ L.contextBytes d, m x = m' x) :
    Stored L m' d sn where
  regs hj hv := (load_congr (by omega) fun _ hx => (hm _ (word_subset (by omega) hx)).symm).trans
    (h.regs hj hv)
  pc := (load_congr (by omega) fun _ hx => (hm _ (word_subset (by omega) hx)).symm).trans h.pc
  slot := h.slot

theorem Layout.only_context (L : Layout κ) {y : κ} (hx : x ∈ L.contextBytes c)
    (hy : x ∈ L.contextBytes y ∨ x ∈ L.stackBytes y) : y = c := by
  rcases hy with hy | hy
  · exact L.context_inj hy hx
  · exact absurd hy (L.apart hx)

theorem Layout.only_stack (L : Layout κ) {y : κ} (hx : x ∈ L.stackBytes c)
    (hy : x ∈ L.contextBytes y ∨ x ∈ L.stackBytes y) : y = c := by
  rcases hy with hy | hy
  · exact absurd hx (L.apart hy)
  · exact L.stack_inj hy hx

/-- The resumed stack pointer is an address above the return address. -/
theorem below_resumed {a : Addr} (h : range (a - 8) 8 ⊆ L.stackBytes c) (hx : x ∈ range (a - 8) 8) :
    x.toNat < a.toNat := by
  have htop := L.top c
  have ha : 8 ≤ a.toNat := by
    by_contra hlt
    -- otherwise the return address would be at the end of the address space, past every stack
    have hlast : (-1 : Addr) ∈ L.stackBytes c := h (by rw [mem_range]; bv_omega)
    unfold Layout.stackBytes at hlast
    rw [mem_range] at hlast
    bv_omega
  rw [mem_range] at hx
  bv_omega

/-! ## Points -/

/-- The frame of a call on the stack of `c`. -/
structure Framed (L : Layout κ) (m : Mem) (th : Thread κ) (c : κ) : Prop where
  on : th.on = some c
  slot : range (th.cpu.reg .rsp) 8 ⊆ L.stackBytes c
  back : load m (th.cpu.reg .rsp) 8 = th.back
  regs : ∀ r ∈ calleeSaved, th.cpu.reg r = th.entry.reg r

structure InCreate (L : Layout κ) (m : Mem) (saved : κ → Option Snapshot) (th : Thread κ) (i : Nat)
    (c d : κ) : Prop where
  le : i ≤ 4
  frame : Framed L m th c
  target : th.target = some d
  ne : d ≠ c
  left : th.left = none
  unsaved : saved d = none
  rdi : th.cpu.reg .rdi = L.context d
  rsi : th.cpu.reg .rsi = th.entry.reg .rsi
  rdx : th.cpu.reg .rdx = if i ≤ 1 then th.entry.reg .rdx else th.entry.reg .rdx - 16
  slot : range (th.entry.reg .rdx - 16) 8 ⊆ L.stackBytes d
  pc : 1 ≤ i → load m (L.word d 7) 8 = th.entry.reg .rsi
  rsp : 4 ≤ i → load m (L.word d 2) 8 = th.entry.reg .rdx - 16

structure InSave (L : Layout κ) (m : Mem) (saved : κ → Option Snapshot) (th : Thread κ) (i : Nat)
    (c : κ) : Prop where
  le : i ≤ 10
  frame : Framed L m th c
  target : th.target = none
  left : th.left = none
  unsaved : saved c = none
  rdi : th.cpu.reg .rdi = L.context c
  regs : ∀ j < 7, j < i → load m (L.word c j) 8 = th.cpu.reg (slotReg j)
  rax : i = 8 → th.cpu.reg .rax = th.back
  pc : 9 ≤ i → load m (L.word c 7) 8 = th.back
  zero : i = 10 → th.cpu.reg .rax = 0

structure InRestore (L : Layout κ) (m : Mem) (saved : κ → Option Snapshot) (th : Thread κ) (i : Nat)
    (d : κ) (sn : Snapshot) : Prop where
  le : i ≤ 10
  on : th.on = none
  target : th.target = some d
  saved : saved d = some sn
  rdi : th.cpu.reg .rdi = L.context d
  regs : ∀ {j v}, j < 7 → j < i → sn.word (slotReg j) = some v → th.cpu.reg (slotReg j) = v
  rax : i = 8 → th.cpu.reg .rax = sn.pc
  pc : 9 ≤ i → load m (sn.rsp - 8) 8 = sn.pc
  one : i = 10 → th.cpu.reg .rax = 1

/-- Its `cmpxchg` has found another value than the one it was given, and `%eax` holds that value. -/
structure Thread.Missed (th : Thread κ) : Prop where
  zf : th.cpu.zf = false
  ne : th.found ≠ th.entry.low .rdx
  rax : th.cpu.reg .rax = th.found.setWidth 64

/-- Before the `cmpxchg` the thread executes its coroutine, after one that succeeds no more. -/
structure InCmpxchg (L : Layout κ) (m : Mem) (saved : κ → Option Snapshot) (th : Thread κ) (i : Nat)
    (d : κ) (sn : Snapshot) : Prop where
  le : i ≤ 3
  target : th.target = some d
  saved : saved d = some sn
  rdi : th.cpu.reg .rdi = L.context d
  rsi : th.cpu.reg .rsi = th.entry.reg .rsi
  rcx : th.cpu.reg .rcx = th.entry.reg .rcx
  old : i ≤ 1 → th.cpu.low (if i = 0 then .rdx else .rax) = th.entry.low .rdx
  outside : ∀ x ∈ range (th.cpu.reg .rsi) 4, L.Outside x
  state : (∃ c, Framed L m th c ∧ th.left = none ∧ (2 ≤ i → th.Missed)) ∨
    i = 2 ∧ th.cpu.zf = true ∧ th.on = none

/-- What holds of a thread where it is. -/
def Point (L : Layout κ) (m : Mem) (saved : κ → Option Snapshot) (th : Thread κ) : Pc → Prop
  | .out _ => ∃ c, th.on = some c ∧ th.target = none ∧ th.left = none
  | .inside .contextCreate i => ∃ c d, InCreate L m saved th i c d
  | .inside .contextSave i => ∃ c, InSave L m saved th i c
  | .inside .contextRestore i => ∃ d sn, InRestore L m saved th i d sn
  | .inside .contextCmpxchgRestore i => ∃ d sn, InCmpxchg L m saved th i d sn

/-! ## Other threads -/

/-- The memory of a coroutine and its record stay as they are. -/
structure Same (L : Layout κ) (m m' : Mem) (saved saved' : κ → Option Snapshot) (y : κ) : Prop where
  context : ∀ x ∈ L.contextBytes y, m x = m' x
  stack : ∀ x ∈ L.stackBytes y, m x = m' x
  saved : saved' y = saved y

theorem Same.word {y : κ} (h : Same L m m' saved saved' y) (hj : j < 8) :
    load m' (L.word y j) 8 = load m (L.word y j) 8 :=
  load_congr (by omega) fun _ hx => (h.context _ (word_subset hj hx)).symm

theorem Same.slot {y : κ} {a : Addr} (h : Same L m m' saved saved' y)
    (ha : range a 8 ⊆ L.stackBytes y) : load m' a 8 = load m a 8 :=
  load_congr (by omega) fun _ hx => (h.stack _ (ha hx)).symm

theorem Framed.frame (h : Framed L m th c) (hs : Same L m m' saved saved' c) : Framed L m' th c :=
  { h with back := (hs.slot h.slot).trans h.back }

/-- **A thread is not disturbed** by what leaves the coroutines that it holds as they are. -/
theorem Point.frame {pc : Pc} (h : Point L m saved th pc)
    (hst : ∀ {d sn}, saved d = some sn → Stored L m d sn)
    (hs : ∀ y, th.Holds y → Same L m m' saved saved' y) : Point L m' saved' th pc := by
  match pc, h with
  | .out _, h => exact h
  | .inside .contextCreate i, ⟨c, d, h⟩ =>
    have hc := hs c (.inl h.frame.on)
    have hd := hs d (.inr h.target)
    exact ⟨c, d, { h with
      frame := h.frame.frame hc
      unsaved := hd.saved.trans h.unsaved
      pc := fun hi => (hd.word (by omega)).trans (h.pc hi)
      rsp := fun hi => (hd.word (by omega)).trans (h.rsp hi) }⟩
  | .inside .contextSave i, ⟨c, h⟩ =>
    have hc := hs c (.inl h.frame.on)
    exact ⟨c, { h with
      frame := h.frame.frame hc
      unsaved := hc.saved.trans h.unsaved
      regs := fun j hj hi => (hc.word (by omega)).trans (h.regs j hj hi)
      pc := fun hi => (hc.word (by omega)).trans (h.pc hi) }⟩
  | .inside .contextRestore i, ⟨d, sn, h⟩ =>
    have hd := hs d (.inr h.target)
    exact ⟨d, sn, { h with
      saved := hd.saved.trans h.saved
      pc := fun hi => (hd.slot (hst h.saved).slot).trans (h.pc hi) }⟩
  | .inside .contextCmpxchgRestore i, ⟨d, sn, h⟩ =>
    have hd := hs d (.inr h.target)
    refine ⟨d, sn, { h with saved := hd.saved.trans h.saved, state := h.state.imp_left ?_ }⟩
    rintro ⟨c, hf, hrest⟩
    exact ⟨c, hf.frame (hs c (.inl hf.on)), hrest⟩

end Lwthread.Arch
