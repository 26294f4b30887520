import Lwthread.Arch.ContextPoints
import Mathlib.Tactic.IntervalCases

/-!
# The instructions of the context switch

One lemma for each function: an instruction takes the thread to the next point and writes what its
function may write, and the last one returns.
-/

namespace Lwthread.Arch

open Bytes Amd64

variable {κ : Type} {L : Layout κ} {m : Mem} {saved : κ → Option Snapshot} {th : Thread κ} {c d : κ}
  {sn : Snapshot} {i : Nat}

/-- The instruction of `f` at `i` goes on to the next one. -/
structure Next (th : Thread κ) (m : Mem) (f : Fn) (i : Nat) (ins : Instr Fn) (cpu : Cpu) (m' : Mem) :
    Prop where
  code : (code f)[i]? = some ins
  exec : exec th.cpu m ins = (cpu, m', .next)

theorem Thread.advance_holds {ins : Instr Fn} {cpu : Cpu} {pc : Pc} {y : κ}
    (h : (th.advance m ins cpu pc).Holds y) : th.Holds y := by
  cases ins with
  | lockCmpxchg src off base =>
    refine h.imp_left fun hon => ?_
    have hon : (if cpu.zf then none else th.on) = some y := hon
    split at hon
    · cases hon
    · exact hon
  | _ => exact h

theorem Thread.advance_pc {ins : Instr Fn} {cpu : Cpu} {pc : Pc} :
    (th.advance m ins cpu pc).pc = pc := by
  cases ins <;> rfl

theorem ea_word {j : Nat} (h : th.cpu.reg .rdi = L.context c) :
    th.cpu.ea (8 * j) .rdi = L.word c j := by
  unfold Cpu.ea Layout.word
  rw [h]

theorem ea_zero (cpu : Cpu) (r : Reg) : cpu.ea 0 r = cpu.reg r := BitVec.add_zero _

/-- Registers that no function passes anything in keep their values. -/
theorem Framed.set {r : Reg} {v : Word} (h : Framed L m th c) (hr : r ∉ calleeSaved) (pc : Pc) :
    Framed L m { th with cpu := th.cpu.set r v, pc := pc } c := by
  have hkeep : ∀ r' ∈ calleeSaved, (th.cpu.set r v).reg r' = th.cpu.reg r' := fun r' hr' =>
    Cpu.set_ne v fun he => hr (he ▸ hr')
  have hrsp : (th.cpu.set r v).reg .rsp = th.cpu.reg .rsp := hkeep .rsp (by decide)
  refine ⟨h.on, ?_, ?_, fun r' hr' => (hkeep r' hr').trans (h.regs r' hr')⟩
  · show range ((th.cpu.set r v).reg .rsp) 8 ⊆ _
    rw [hrsp]
    exact h.slot
  · show load m ((th.cpu.set r v).reg .rsp) 8 = _
    rw [hrsp]
    exact h.back

/-! ## `context_save` -/

theorem code_save (hi : i < 7) :
    (code .contextSave)[i]? = some (.movqStore (slotReg i) (8 * i) .rdi) := by
  interval_cases i <;> rfl

/-- The word `i` of the context is written. -/
theorem InSave.storeWord {k : Nat} {v : Word} (h : InSave L m saved th i c) (hk : k < 8)
    (pc : Pc) : Framed L (store (n := 8) m (L.word c k) v) { th with pc := pc } c :=
  { h.frame with back := (load_store_stack hk h.frame.slot v).trans h.frame.back }

/-- An instruction of `context_save`. -/
theorem InSave.next (h : InSave L m saved th i c) (hi : i < 10) :
    ∃ ins cpu m', Next th m .contextSave i ins cpu m' ∧
      (∀ x, m' x ≠ m x → x ∈ L.contextBytes c) ∧
      InSave L m' saved (th.advance m ins cpu (.inside .contextSave (i + 1))) (i + 1) c := by
  by_cases h7 : i < 7
  · -- a register
    refine ⟨_, _, _, ⟨code_save h7, rfl⟩, ?_, ?_⟩
    · intro x hx
      have hmem := mem_range_of_store_ne hx
      rw [ea_word h.rdi] at hmem
      exact word_subset (by omega) hmem
    · rw [ea_word h.rdi]
      exact {
        le := by omega
        frame := h.storeWord (by omega) _
        target := h.target
        left := h.left
        unsaved := h.unsaved
        rdi := h.rdi
        regs := by
          intro j hj hji
          by_cases hjeq : j = i
          · subst hjeq
            exact load_store_self (by omega)
          · exact (load_store_word (by omega) (by omega) hjeq _).trans (h.regs j hj (by omega))
        rax := fun h' => by omega
        pc := fun h' => by omega
        zero := fun h' => by omega }
  · obtain rfl | rfl | rfl : i = 7 ∨ i = 8 ∨ i = 9 := by omega
    · -- the return address
      refine ⟨.movqLoad 0 .rsp .rax, _, m, ⟨rfl, rfl⟩, fun x hx => absurd rfl hx, ?_⟩
      exact {
        le := by omega
        frame := h.frame.set (by decide) _
        target := h.target
        left := h.left
        unsaved := h.unsaved
        rdi := h.rdi
        regs := fun j hj _ => (h.regs j hj (by omega)).trans (Cpu.set_ne _ (slotReg_ne_rax hj)).symm
        rax := by
          intro _
          show (th.cpu.set .rax _).reg .rax = _
          rw [Cpu.set_self, ea_zero]
          exact h.frame.back
        pc := fun h' => by omega
        zero := fun h' => by omega }
    · refine ⟨.movqStore .rax 56 .rdi, _, _, ⟨rfl, rfl⟩, ?_, ?_⟩
      · intro x hx
        have hmem := mem_range_of_store_ne hx
        rw [ea_word (j := 7) h.rdi] at hmem
        exact word_subset (by omega) hmem
      · rw [ea_word (j := 7) h.rdi]
        exact {
          le := by omega
          frame := h.storeWord (by omega) _
          target := h.target
          left := h.left
          unsaved := h.unsaved
          rdi := h.rdi
          regs := fun j hj _ =>
            (load_store_word (by omega) (by omega) (by omega) _).trans (h.regs j hj (by omega))
          rax := fun h' => by omega
          pc := fun _ => (load_store_self (by omega)).trans (h.rax rfl)
          zero := fun h' => by omega }
    · refine ⟨.xorl .rax .rax, _, m, ⟨rfl, rfl⟩, fun x hx => absurd rfl hx, ?_⟩
      have hframe := h.frame.set (r := .rax) (v := (th.cpu.low .rax ^^^ th.cpu.low .rax).setWidth 64)
        (by decide) (.inside .contextSave 10)
      exact {
        le := le_rfl
        frame := ⟨hframe.on, hframe.slot, hframe.back, hframe.regs⟩
        target := h.target
        left := h.left
        unsaved := h.unsaved
        rdi := h.rdi
        regs := fun j hj _ => (h.regs j hj (by omega)).trans (Cpu.set_ne _ (slotReg_ne_rax hj)).symm
        rax := fun h' => by omega
        pc := fun _ => h.pc (by omega)
        zero := by
          intro _
          show (th.cpu.set .rax _).reg .rax = _
          rw [Cpu.set_self, BitVec.xor_self]
          rfl }

/-- `context_save` returns: the context holds the registers at its return point. -/
theorem InSave.stored (h : InSave L m saved th 10 c) :
    Stored L m c ⟨th.back, th.cpu.reg .rsp + 8,
      some (th.cpu.set .rsp (th.cpu.reg .rsp + 8)).reg⟩ where
  regs := by
    intro j v hj hv
    rw [h.regs j hj (by omega)]
    unfold Snapshot.word at hv
    split at hv
    · next hr =>
      rw [hr, ← Option.some.inj hv, BitVec.add_sub_cancel]
    · next hr => exact (Cpu.set_ne _ hr).symm.trans (Option.some.inj hv)
  pc := h.pc (by omega)
  slot := by
    show range (th.cpu.reg .rsp + 8 - 8) 8 ⊆ _
    rw [BitVec.add_sub_cancel]
    exact h.frame.slot

/-! ## `_context_create` -/

/-- An instruction of `_context_create`. -/
theorem InCreate.next (h : InCreate L m saved th i c d) (hi : i < 4) :
    ∃ ins cpu m', Next th m .contextCreate i ins cpu m' ∧
      (∀ x, m' x ≠ m x → x ∈ L.contextBytes d ∨ x ∈ L.stackBytes d) ∧
      InCreate L m' saved (th.advance m ins cpu (.inside .contextCreate (i + 1))) (i + 1) c d := by
  have hframe : ∀ {a v pc}, (∀ x ∈ range a 8, x ∈ L.contextBytes d ∨ x ∈ L.stackBytes d) →
      Framed L (store (n := 8) m a v) { th with pc := pc } c := by
    intro a v pc ha
    -- the frame is on another stack
    have hback : load (store (n := 8) m a v) (th.cpu.reg .rsp) 8 = load m (th.cpu.reg .rsp) 8 := by
      refine load_store_of_disjoint (by omega) fun x hx hx' => ?_
      rcases ha x hx' with hctx | hstack
      · exact L.apart hctx (h.frame.slot hx)
      · exact h.ne (L.stack_inj hstack (h.frame.slot hx))
    exact { h.frame with back := hback.trans h.frame.back }
  obtain rfl | rfl | rfl | rfl : i = 0 ∨ i = 1 ∨ i = 2 ∨ i = 3 := by omega
  · have hword : ∀ x ∈ range (L.word d 7) 8, x ∈ L.contextBytes d := fun x => word_subset (by omega)
    refine ⟨.movqStore .rsi 56 .rdi, _, _, ⟨rfl, rfl⟩, ?_, ?_⟩
    · intro x hx
      have hmem := mem_range_of_store_ne hx
      rw [ea_word (j := 7) h.rdi] at hmem
      exact .inl (hword x hmem)
    · rw [ea_word (j := 7) h.rdi]
      exact { h with
        le := by omega
        frame := hframe fun x hx => .inl (hword x hx)
        pc := fun _ => (load_store_self (by omega)).trans h.rsi
        rsp := fun h' => by omega }
  · refine ⟨.subqImm 16 .rdx, _, m, ⟨rfl, rfl⟩, fun x hx => absurd rfl hx, ?_⟩
    have hset := h.frame.set (r := .rdx) (v := th.cpu.reg .rdx - 16) (by decide)
      (.inside .contextCreate 2)
    exact {
      le := by omega
      frame := ⟨hset.on, hset.slot, hset.back, hset.regs⟩
      target := h.target
      ne := h.ne
      left := h.left
      unsaved := h.unsaved
      rdi := h.rdi
      rsi := h.rsi
      rdx := by
        show (th.cpu.set .rdx _).reg .rdx = _
        rw [Cpu.set_self, h.rdx]
        rfl
      slot := h.slot
      pc := fun _ => h.pc (by omega)
      rsp := fun h' => by omega }
  · have hrdx : th.cpu.ea 0 .rdx = th.entry.reg .rdx - 16 := (ea_zero _ _).trans h.rdx
    refine ⟨.movqStoreImm 132 0 .rdx, _, _, ⟨rfl, rfl⟩, ?_, ?_⟩
    · intro x hx
      have hmem := mem_range_of_store_ne hx
      rw [hrdx] at hmem
      exact .inr (h.slot hmem)
    · rw [hrdx]
      exact { h with
        le := by omega
        frame := hframe fun x hx => .inr (h.slot hx)
        rdx := h.rdx
        pc := fun _ => (load_store_of_disjoint (by omega) fun x hx hx' =>
          L.apart (word_subset (by omega) hx) (h.slot hx')).trans (h.pc (by omega))
        rsp := fun h' => by omega }
  · have hword : ∀ x ∈ range (L.word d 2) 8, x ∈ L.contextBytes d := fun x => word_subset (by omega)
    refine ⟨.movqStore .rdx 16 .rdi, _, _, ⟨rfl, rfl⟩, ?_, ?_⟩
    · intro x hx
      have hmem := mem_range_of_store_ne hx
      rw [ea_word (j := 2) h.rdi] at hmem
      exact .inl (hword x hmem)
    · rw [ea_word (j := 2) h.rdi]
      exact { h with
        le := by omega
        frame := hframe fun x hx => .inl (hword x hx)
        rdx := h.rdx
        pc := fun _ => (load_store_word (by omega) (by omega) (by omega) _).trans (h.pc (by omega))
        rsp := fun _ => (load_store_self (by omega)).trans h.rdx }

/-- `_context_create` returns: the context starts at the function, below the top of its stack. -/
theorem InCreate.stored (h : InCreate L m saved th 4 c d) :
    Stored L m d ⟨th.entry.reg .rsi, th.entry.reg .rdx - 8, none⟩ := by
  have hsp : th.entry.reg .rdx - 8 - 8 = th.entry.reg .rdx - 16 := by bv_omega
  refine ⟨?_, h.pc (by omega), ?_⟩
  · intro j v hj hv
    unfold Snapshot.word at hv
    split at hv
    · next hr =>
      obtain rfl : j = 2 := slotReg_inj hj (by omega) hr
      rw [h.rsp le_rfl, ← Option.some.inj hv]
      exact hsp.symm
    · cases hv
  · show range (th.entry.reg .rdx - 8 - 8) 8 ⊆ _
    rw [hsp]
    exact h.slot

/-! ## `context_restore` -/

theorem code_restore (hi : i < 7) :
    (code .contextRestore)[i]? = some (.movqLoad (8 * i) .rdi (slotReg i)) := by
  interval_cases i <;> rfl

/-- The return address is on the stack that is resumed. -/
theorem InRestore.rsp (h : InRestore L m saved th i d sn) (hi : 3 ≤ i) :
    th.cpu.reg .rsp = sn.rsp - 8 :=
  h.regs (j := 2) (by omega) (by omega) rfl

/-- An instruction of `context_restore`. -/
theorem InRestore.next (h : InRestore L m saved th i d sn) (hst : Stored L m d sn) (hi : i < 10) :
    ∃ ins cpu m', Next th m .contextRestore i ins cpu m' ∧
      (∀ x, m' x ≠ m x → x ∈ range (sn.rsp - 8) 8) ∧
      InRestore L m' saved (th.advance m ins cpu (.inside .contextRestore (i + 1))) (i + 1) d sn := by
  by_cases h7 : i < 7
  · refine ⟨_, _, m, ⟨code_restore h7, rfl⟩, fun x hx => absurd rfl hx, ?_⟩
    rw [ea_word h.rdi]
    exact {
      le := by omega
      on := h.on
      target := h.target
      saved := h.saved
      rdi := (Cpu.set_ne _ (slotReg_ne_rdi h7).symm).trans h.rdi
      regs := by
        intro j v hj hji hv
        by_cases hjeq : j = i
        · subst hjeq
          exact (Cpu.set_self _).trans (hst.regs hj hv)
        · exact (Cpu.set_ne _ fun he => hjeq (slotReg_inj hj h7 he)).trans
            (h.regs hj (by omega) hv)
      rax := fun h' => by omega
      pc := fun h' => by omega
      one := fun h' => by omega }
  · obtain rfl | rfl | rfl : i = 7 ∨ i = 8 ∨ i = 9 := by omega
    · refine ⟨.movqLoad 56 .rdi .rax, _, m, ⟨rfl, rfl⟩, fun x hx => absurd rfl hx, ?_⟩
      rw [ea_word (j := 7) h.rdi]
      exact {
        le := by omega
        on := h.on
        target := h.target
        saved := h.saved
        rdi := h.rdi
        regs := fun hj _ hv => (Cpu.set_ne _ (slotReg_ne_rax hj)).trans (h.regs hj (by omega) hv)
        rax := fun _ => (Cpu.set_self _).trans hst.pc
        pc := fun h' => by omega
        one := fun h' => by omega }
    · -- the return address
      have hrsp : th.cpu.ea 0 .rsp = sn.rsp - 8 := (ea_zero _ _).trans (h.rsp (by omega))
      refine ⟨.movqStore .rax 0 .rsp, _, _, ⟨rfl, rfl⟩, ?_, ?_⟩
      · intro x hx
        have hmem := mem_range_of_store_ne hx
        rwa [hrsp] at hmem
      · rw [hrsp]
        exact {
          le := by omega
          on := h.on
          target := h.target
          saved := h.saved
          rdi := h.rdi
          regs := fun hj _ hv => h.regs hj (by omega) hv
          rax := fun h' => by omega
          pc := fun _ => (load_store_self (by omega)).trans (h.rax rfl)
          one := fun h' => by omega }
    · refine ⟨.movlImm 1 .rax, _, m, ⟨rfl, rfl⟩, fun x hx => absurd rfl hx, ?_⟩
      exact {
        le := le_rfl
        on := h.on
        target := h.target
        saved := h.saved
        rdi := h.rdi
        regs := fun hj _ hv => (Cpu.set_ne _ (slotReg_ne_rax hj)).trans (h.regs hj (by omega) hv)
        rax := fun h' => by omega
        pc := fun _ => h.pc (by omega)
        one := fun _ => Cpu.set_self _ }

/-! ## `context_cmpxchg_restore` -/

/-- The calling coroutine is left no sooner than the `cmpxchg`. -/
theorem InCmpxchg.framed (h : InCmpxchg L m saved th i d sn) (hi : i ≠ 2 ∨ th.cpu.zf = false) :
    ∃ c, Framed L m th c ∧ th.left = none ∧ (2 ≤ i → th.Missed) := by
  rcases h.state with hstate | ⟨h2, hzf, -⟩
  · exact hstate
  · rcases hi with hne | hzf'
    · exact absurd h2 hne
    · rw [hzf] at hzf'
      cases hzf'

/-- The `cmpxchg`. -/
theorem InCmpxchg.swap (h : InCmpxchg L m saved th 1 d sn) :
    exec th.cpu m (.lockCmpxchg .rcx 0 .rsi : Instr Fn) =
      if load m (th.entry.reg .rsi) 4 = th.entry.low .rdx then
        ({ th.cpu with zf := true }, store (n := 4) m (th.entry.reg .rsi) (th.entry.low .rcx), .next)
      else
        ({ th.cpu.setLow .rax (load m (th.entry.reg .rsi) 4) with zf := false }, m, .next) := by
  have hold : th.cpu.low .rax = th.entry.low .rdx := h.old le_rfl
  have hnew : th.cpu.low .rcx = th.entry.low .rcx := by
    unfold Cpu.low
    rw [h.rcx]
  simp only [exec, ea_zero, h.rsi, hold, hnew, eq_comm]

/-- An instruction of `context_cmpxchg_restore` that goes on. -/
theorem InCmpxchg.next (h : InCmpxchg L m saved th i d sn) (hi : i ≤ 2)
    (hzf : i = 2 → th.cpu.zf = false) :
    ∃ ins cpu m', Next th m .contextCmpxchgRestore i ins cpu m' ∧
      (∀ x, m' x ≠ m x → L.Outside x) ∧
      InCmpxchg L m' saved (th.advance m ins cpu (.inside .contextCmpxchgRestore (i + 1))) (i + 1) d
        sn := by
  obtain ⟨c, hf, hleft, hmissed⟩ := h.framed (by
    by_cases h2 : i = 2
    · exact .inr (hzf h2)
    · exact .inl h2)
  obtain rfl | rfl | rfl : i = 0 ∨ i = 1 ∨ i = 2 := by omega
  · refine ⟨.movl .rdx .rax, _, m, ⟨rfl, rfl⟩, fun x hx => absurd rfl hx, ?_⟩
    have hset := hf.set (r := .rax) (v := (th.cpu.low .rdx).setWidth 64) (by decide)
      (.inside .contextCmpxchgRestore 1)
    exact {
      le := by omega
      target := h.target
      saved := h.saved
      rdi := h.rdi
      rsi := h.rsi
      rcx := h.rcx
      old := by
        intro _
        show BitVec.setWidth 32 ((th.cpu.low .rdx).setWidth 64) = _
        rw [BitVec.setWidth_setWidth_of_le _ (by omega), BitVec.setWidth_eq]
        exact h.old (by omega)
      outside := h.outside
      state := .inl ⟨c, hset, hleft, fun h' => by omega⟩ }
  · have hea : th.cpu.ea 0 .rsi = th.entry.reg .rsi := (ea_zero _ _).trans h.rsi
    have hswap := h.swap
    split at hswap
    · refine ⟨.lockCmpxchg .rcx 0 .rsi, _, _, ⟨rfl, hswap⟩, fun x hx => ?_, ?_⟩
      · refine h.outside x ?_
        rw [h.rsi]
        exact mem_range_of_store_ne hx
      · exact {
          le := by omega
          target := h.target
          saved := h.saved
          rdi := h.rdi
          rsi := h.rsi
          rcx := h.rcx
          old := fun h' => by omega
          outside := h.outside
          state := .inr ⟨rfl, rfl, rfl⟩ }
    · next hne =>
      refine ⟨.lockCmpxchg .rcx 0 .rsi, _, m, ⟨rfl, hswap⟩, fun x hx => absurd rfl hx, ?_⟩
      have hset := hf.set (r := .rax) (v := BitVec.setWidth 64 (load m (th.entry.reg .rsi) 4))
        (by decide) (.inside .contextCmpxchgRestore 2)
      have hfound : load m (th.cpu.ea 0 .rsi) 4 = load m (th.entry.reg .rsi) 4 := by rw [hea]
      exact {
        le := by omega
        target := h.target
        saved := h.saved
        rdi := h.rdi
        rsi := h.rsi
        rcx := h.rcx
        old := fun h' => by omega
        outside := h.outside
        state := .inl ⟨c, ⟨hset.on, hset.slot, hset.back, hset.regs⟩, hleft, fun _ =>
          ⟨rfl, fun he => hne (hfound.symm.trans he), congrArg (BitVec.setWidth 64) hfound.symm⟩⟩ }
  · have hexec : exec th.cpu m (.jz .contextRestore : Instr Fn) = (th.cpu, m, .next) := by
      simp only [exec, hzf rfl, Bool.false_eq_true, if_false]
    refine ⟨.jz .contextRestore, _, m, ⟨rfl, hexec⟩, fun x hx => absurd rfl hx, ?_⟩
    have hm := hmissed le_rfl
    exact {
      le := by omega
      target := h.target
      saved := h.saved
      rdi := h.rdi
      rsi := h.rsi
      rcx := h.rcx
      old := fun h' => by omega
      outside := h.outside
      state := .inl ⟨c, ⟨hf.on, hf.slot, hf.back, hf.regs⟩, hleft, fun _ => ⟨hm.zf, hm.ne, hm.rax⟩⟩ }

/-- After a `cmpxchg` that succeeds the thread goes on in `context_restore`. -/
theorem InCmpxchg.jump (h : InCmpxchg L m saved th 2 d sn) (hzf : th.cpu.zf = true) :
    InRestore L m saved (th.advance m (.jz .contextRestore) th.cpu (.inside .contextRestore 0)) 0 d
      sn := by
  rcases h.state with ⟨c, -, -, hmissed⟩ | ⟨-, -, hon⟩
  · rw [(hmissed le_rfl).zf] at hzf
    cases hzf
  · exact {
      le := by omega
      on := hon
      target := h.target
      saved := h.saved
      rdi := h.rdi
      regs := fun _ h' _ => by omega
      rax := fun h' => by omega
      pc := fun h' => by omega
      one := fun h' => by omega }

end Lwthread.Arch
