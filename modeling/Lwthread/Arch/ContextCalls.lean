import Lwthread.Arch.ContextSwitch

/-!
# Calls of the context switch

A call of one of the functions runs from the `call` instruction to the return, and other threads run
between its instructions (`During`). `Outcome` says what the function has done then: it has returned to
its caller, or it has gone on where the context that it was given was recorded. For each function one
invariant of the call holds until it ends; `context_switch_sound` puts them together with what its
instructions do one by one.
-/

namespace Lwthread.Arch

open Bytes Amd64

variable {τ κ : Type} [DecidableEq τ] [DecidableEq κ] {L : Layout κ} {s s' s₀ s₁ : State τ κ} {t : τ}
  {f : Fn} {i : Nat} {c d : κ} {sn : Snapshot} {back : Word}

/-! ## Calls -/

/-- Instructions of a thread, each with the state before and after it. -/
abbrev Trace (τ κ : Type) := List (State τ κ × State τ κ)

/-- A call of the thread `t` that has begun at `s₁`: the instructions of the function so far, and the
state. The last one is the return. -/
inductive During (L : Layout κ) (t : τ) (s₁ : State τ κ) : Trace τ κ → State τ κ → Prop
  | enter : During L t s₁ [] s₁
  | instr {es s s'} (h : During L t s₁ es s) (hs : s.instr t = some s') :
      During L t s₁ (es ++ [(s, s')]) s'
  | others {es s s'} (h : During L t s₁ es s) (hpc : ∃ f i, (s.thread t).pc = .inside f i)
      (hs : Step L s s') (ht : s'.thread t = s.thread t) : During L t s₁ es s'

variable {es : Trace τ κ}

/-- The thread has returned to its caller on the stack of `c`, with the callee-saved registers that the
caller had. -/
structure Returned (s s' : State τ κ) (t : τ) (c : κ) (back : Word) : Prop where
  on : (s'.thread t).on = some c
  pc : (s'.thread t).pc = .out back
  regs : ∀ r ∈ calleeSaved, (s'.thread t).cpu.reg r = (s.thread t).cpu.reg r

/-- The thread has gone on in `d` as the record `sn` says, with 1, and its instructions have left the
stacks alone, from the stack pointer that is resumed on. -/
structure Resumed (L : Layout κ) (s' : State τ κ) (t : τ) (d : κ) (sn : Snapshot) (es : Trace τ κ) :
    Prop where
  on : (s'.thread t).on = some d
  pc : (s'.thread t).pc = .out sn.pc
  one : (s'.thread t).cpu.reg .rax = 1
  rsp : (s'.thread t).cpu.reg .rsp = sn.rsp
  regs : ∀ regs, sn.regs = some regs → ∀ r ∈ calleeSaved, r ≠ .rsp → (s'.thread t).cpu.reg r = regs r
  keeps : ∀ e ∈ es, ∀ y x, x ∈ L.stackBytes y → (y = d → sn.rsp.toNat ≤ x.toNat) →
    e.2.mem x = e.1.mem x

/-- The instructions write nothing. -/
def Quiet (es : Trace τ κ) : Prop := ∀ e ∈ es, e.2.mem = e.1.mem

/-- The instructions read and write no byte of the stack of `c`. -/
def Spares (L : Layout κ) (t : τ) (c : κ) (es : Trace τ κ) : Prop :=
  ∀ e ∈ es, ∀ f i ins, (e.1.thread t).pc = .inside f i → (code f)[i]? = some ins →
    ∀ x ∈ ins.touches (e.1.thread t).cpu, x ∉ L.stackBytes c

/-- What the call of `f` from `s`, on the stack of `c` and with the context of `d`, has done when it
ends at `s'`. `context_cmpxchg_restore` finds a value in one of its instructions. If that is the one it
was given, the same instruction stores the new one, no later one touches the stack of the caller, and
it goes on in `d`. Otherwise it writes nothing and returns the value. -/
def Outcome (L : Layout κ) (s s' : State τ κ) (t : τ) (c d : κ) (back : Word) (es : Trace τ κ) :
    Fn → Prop
  | .contextCreate => Returned s s' t c back ∧
    s'.saved d = some ⟨(s.thread t).cpu.reg .rsi, (s.thread t).cpu.reg .rdx - 8, none⟩
  | .contextSave => Returned s s' t c back ∧ (s'.thread t).cpu.reg .rax = 0 ∧
    s'.saved c = some ⟨back, (s.thread t).cpu.reg .rsp, some (s'.thread t).cpu.reg⟩
  | .contextRestore => ∃ sn, s.saved d = some sn ∧ Resumed L s' t d sn es
  | .contextCmpxchgRestore => ∃ es₁ p p' es₂, es = es₁ ++ (p, p') :: es₂ ∧ Quiet es₁ ∧
    let found := load p.mem ((s.thread t).cpu.reg .rsi) 4
    if found = (s.thread t).cpu.low .rdx then
      p'.mem = store (n := 4) p.mem ((s.thread t).cpu.reg .rsi) ((s.thread t).cpu.low .rcx) ∧
        (d ≠ c → Spares L t c es₂) ∧ ∃ sn, s.saved d = some sn ∧ Resumed L s' t d sn es
    else Quiet es ∧ Returned s s' t c back ∧ (s'.thread t).cpu.reg .rax = found.setWidth 64

/-! ## Other threads during a call -/

omit [DecidableEq τ] in
theorem record_ne {th : Thread κ} {saved : κ → Option Snapshot} {cpu : Cpu} {rip : Word} {y : κ}
    (h : th.record saved f cpu rip y ≠ saved y) : th.Holds y := by
  have hupdate : ∀ {z : κ} {v}, Function.update saved z v y ≠ saved y → y = z := by
    intro z v hz
    by_contra hne
    exact hz (Function.update_of_ne hne _ _)
  unfold Thread.record at h
  cases f with
  | contextSave =>
    cases hon : th.on with
    | none =>
      rw [hon] at h
      exact absurd rfl h
    | some c =>
      rw [hon] at h
      exact .inl (hupdate h ▸ hon)
  | contextCreate =>
    cases hd : th.target with
    | none =>
      rw [hd] at h
      exact absurd rfl h
    | some d =>
      rw [hd] at h
      exact .inr (hupdate h ▸ hd)
  | contextRestore => exact absurd rfl h
  | contextCmpxchgRestore => exact absurd rfl h

/-- A record changes only by the return of a thread that holds the coroutine. -/
theorem instr_saved {y : κ} (hs : s.instr t = some s') (hy : s'.saved y ≠ s.saved y) :
    (s.thread t).Holds y := by
  rcases hpc : (s.thread t).pc with rip | ⟨f, i⟩
  · simp only [State.instr, hpc] at hs
    cases hs
  · rcases hins : (code f)[i]? with _ | ins
    · simp only [State.instr, hpc, hins] at hs
      cases hs
    · rcases hexec : exec (s.thread t).cpu s.mem ins with ⟨cpu, m', _ | g | rip⟩ <;>
        simp only [State.instr, hpc, hins, hexec] at hs
      · cases hs
        exact absurd rfl hy
      · cases hs
        exact absurd rfl hy
      · cases hs
        exact record_ne hy

/-- The records of what a thread inside holds are not changed by the others. -/
theorem Inv.saved_held (hI : Inv L s) (hs : Step L s s') (hpc : (s.thread t).pc = .inside f i)
    (ht : s'.thread t = s.thread t) {y : κ} (hy : (s.thread t).Holds y) : s'.saved y = s.saved y := by
  by_contra hne
  cases hs with
  | other => exact hne rfl
  | @call u c d g back h =>
    have hut : u ≠ t := by
      rintro rfl
      obtain ⟨rip, hout⟩ := h.out
      rw [hpc] at hout
      cases hout
    have hyd : y = d := by
      by_contra hyd
      refine hne ?_
      show (if g = .contextCreate ∨ g = .contextSave then Function.update s.saved d none
        else s.saved) y = s.saved y
      split
      · exact Function.update_of_ne hyd _ _
      · rfl
    have hargs := h.args
    cases g with
    | contextCreate => exact hargs.2.1 t hut.symm (hyd ▸ hy)
    | contextSave =>
      obtain rfl : d = c := hargs
      exact hut (hI.alone (.inl h.on) (hyd ▸ hy))
    | contextRestore => exact hne rfl
    | contextCmpxchgRestore => exact hne rfl
  | @instr u s' h =>
    obtain rfl := hI.alone (instr_saved h hne) hy
    obtain ⟨s₂, h₂, -, hlt⟩ := hI.inside hpc
    cases Option.some.inj (h.symm.trans h₂)
    rw [ht] at hlt
    exact lt_irrefl _ hlt

/-- **The rule of calls**: what holds when the function is entered, and is kept by its instructions and
by the other threads until the function returns, gives what holds then. -/
theorem During.rule {P Q : Trace τ κ → State τ κ → Prop} (hI : Inv L s₁) (henter : P [] s₁)
    (hinside : ∀ {es s}, P es s → ∃ f i, (s.thread t).pc = .inside f i)
    (hinstr : ∀ {es s s'}, Inv L s → P es s → s.instr t = some s' →
      P (es ++ [(s, s')]) s' ∨ (∃ rip, (s'.thread t).pc = .out rip) ∧ Q (es ++ [(s, s')]) s')
    (hothers : ∀ {es s s'}, P es s → s'.thread t = s.thread t →
      (∀ y, (s.thread t).Holds y → s'.saved y = s.saved y) → P es s')
    (h : During L t s₁ es s) (hout : ∃ rip, (s.thread t).pc = .out rip) : Q es s := by
  have hruns : Inv L s ∧ (P es s ∨ (∃ rip, (s.thread t).pc = .out rip) ∧ Q es s) := by
    clear hout
    induction h with
    | enter => exact ⟨hI, .inl henter⟩
    | @instr es s s' h hs ih =>
      obtain ⟨hI, hmid | ⟨⟨rip, hpc⟩, -⟩⟩ := ih
      · exact ⟨hI.step (.instr hs), hinstr hI hmid hs⟩
      · simp only [State.instr, hpc] at hs
        cases hs
    | @others es s s' h hpc hs ht ih =>
      obtain ⟨f, i, hpc⟩ := hpc
      obtain ⟨hI, hmid | ⟨⟨rip, hpc'⟩, -⟩⟩ := ih
      · exact ⟨hI.step hs, .inl (hothers hmid ht fun y hy => hI.saved_held hs hpc ht hy)⟩
      · rw [hpc] at hpc'
        cases hpc'
  rcases hruns.2 with hmid | ⟨-, hres⟩
  · obtain ⟨f, i, hpc⟩ := hinside hmid
    obtain ⟨rip, hpc'⟩ := hout
    rw [hpc] at hpc'
    cases hpc'
  · exact hres

/-! ## What a thread keeps of its call -/

/-- The registers and the return address of the call from `s₀`. -/
structure Call (s₀ s : State τ κ) (t : τ) (back : Word) : Prop where
  entry : (s.thread t).entry = (s₀.thread t).cpu.set .rsp ((s₀.thread t).cpu.reg .rsp - 8)
  back : (s.thread t).back = back

namespace Call

theorem enter (s : State τ κ) (t : τ) (f : Fn) (d : κ) (back : Word) :
    Call s (s.call t f d back) t back := by
  constructor
  · simp only [State.call, Function.update_self, Thread.call]
  · simp only [State.call, Function.update_self, Thread.call]

omit [DecidableEq τ] [DecidableEq κ] in
theorem reg {r : Reg} (h : Call s₀ s t back) (hr : r ≠ .rsp) :
    (s.thread t).entry.reg r = (s₀.thread t).cpu.reg r := by
  rw [h.entry]
  exact Cpu.set_ne _ hr

omit [DecidableEq τ] [DecidableEq κ] in
theorem low {r : Reg} (h : Call s₀ s t back) (hr : r ≠ .rsp) :
    (s.thread t).entry.low r = (s₀.thread t).cpu.low r := by
  unfold Cpu.low
  rw [h.reg hr]

omit [DecidableEq τ] [DecidableEq κ] in
theorem others (h : Call s₀ s t back) (ht : s'.thread t = s.thread t) : Call s₀ s' t back :=
  ⟨ht ▸ h.entry, ht ▸ h.back⟩

omit [DecidableEq τ] [DecidableEq κ] in
theorem returned (h : Call s₀ s t back) (hint : (s.thread t).Intact (s'.thread t))
    (hon : (s'.thread t).on = some c) : Returned s₀ s' t c back := by
  obtain ⟨hregs, hrsp, hpc⟩ := hint
  refine ⟨hon, h.back ▸ hpc, fun r hr => ?_⟩
  by_cases hsp : r = .rsp
  · rw [hsp, hrsp, h.entry, Cpu.set_self, BitVec.sub_add_cancel]
  · rw [hregs r hr hsp, h.reg hsp]

end Call

/-- The state after an instruction that does not return. -/
def State.advanced (s : State τ κ) (t : τ) (ins : Instr Fn) (cpu : Cpu) (m' : Mem) (pc : Pc) :
    State τ κ :=
  ⟨m', Function.update s.thread t ((s.thread t).advance s.mem ins cpu pc), s.saved⟩

section

omit [DecidableEq κ]

variable {ins : Instr Fn} {cpu : Cpu} {m' : Mem} {pc : Pc}

theorem advanced_thread :
    (s.advanced t ins cpu m' pc).thread t = (s.thread t).advance s.mem ins cpu pc :=
  Function.update_self _ _ _

theorem advanced_pc : ((s.advanced t ins cpu m' pc).thread t).pc = pc := by
  rw [advanced_thread, Thread.advance_pc]

theorem advanced_target : ((s.advanced t ins cpu m' pc).thread t).target = (s.thread t).target := by
  rw [advanced_thread]
  cases ins <;> rfl

/-- Only a `cmpxchg` gives a coroutine up. -/
theorem advanced_on (h : ∀ src off base, ins ≠ .lockCmpxchg src off base) :
    ((s.advanced t ins cpu m' pc).thread t).on = (s.thread t).on ∧
      ((s.advanced t ins cpu m' pc).thread t).left = (s.thread t).left := by
  rw [advanced_thread]
  cases ins with
  | lockCmpxchg src off base => exact absurd rfl (h src off base)
  | _ => exact ⟨rfl, rfl⟩

theorem Call.advanced (h : Call s₀ s t back) : Call s₀ (s.advanced t ins cpu m' pc) t back := by
  constructor
  · rw [advanced_thread, ← h.entry]
    cases ins <;> rfl
  · rw [advanced_thread, ← h.back]
    cases ins <;> rfl

end

theorem cmpxchg_only {ins : Instr Fn} (hf : f ≠ .contextCmpxchgRestore) (hins : (code f)[i]? = some ins)
    (src : Reg) (off : Nat) (base : Reg) : ins ≠ .lockCmpxchg src off base := by
  rintro rfl
  have hmem := List.mem_of_getElem? hins
  cases f with
  | contextCmpxchgRestore => exact hf rfl
  | _ => simp [code] at hmem

/-! ## The functions one by one -/

theorem returned_on (hf : f ≠ .contextRestore) (hpc : (s.thread t).pc = .inside f i)
    (hcode : (code f)[i]? = some .ret) (hs : s.instr t = some s') :
    (s'.thread t).on = (s.thread t).on := by
  cases Option.some.inj (hs.symm.trans (instr_ret hpc hcode))
  simp only [State.returned, Function.update_self]
  exact if_neg hf

section

variable (hI : Inv L s) (hs : s.instr t = some s')

include hI hs

theorem saving (hpc : (s.thread t).pc = .inside .contextSave i) (hon : (s.thread t).on = some c)
    (hcall : Call s₀ s t back) :
    (∃ i, (s'.thread t).pc = .inside .contextSave i ∧ (s'.thread t).on = some c ∧ Call s₀ s' t back) ∨
      (∃ rip, (s'.thread t).pc = .out rip) ∧ Outcome L s₀ s' t c d back es .contextSave := by
  have hpoint := hI.points t
  rw [hpc] at hpoint
  obtain ⟨c', h⟩ := hpoint
  by_cases hi : i < 10
  · obtain ⟨ins, cpu, m', hn, -, -⟩ := h.next hi
    obtain rfl : s.advanced t ins cpu m' (.inside .contextSave (i + 1)) = s' :=
      Option.some.inj ((instr_next hpc hn).symm.trans hs)
    exact .inl ⟨i + 1, advanced_pc,
      (advanced_on (cmpxchg_only (f := .contextSave) nofun hn.code)).1.trans hon, hcall.advanced⟩
  · obtain rfl : i = 10 := le_antisymm h.le (by omega)
    obtain ⟨c'', hon', hint, hrax, hsaved⟩ := (hI.instrSound hs).saves hpc
    cases Option.some.inj (hon.symm.trans hon')
    have hret := hcall.returned hint ((returned_on (f := .contextSave) nofun hpc rfl hs).trans hon)
    refine .inr ⟨⟨_, hret.pc⟩, hret, hrax, ?_⟩
    rw [hsaved, hcall.back, hret.regs .rsp (by decide)]

theorem creating (hpc : (s.thread t).pc = .inside .contextCreate i) (hon : (s.thread t).on = some c)
    (htarget : (s.thread t).target = some d) (hcall : Call s₀ s t back) :
    (∃ i, (s'.thread t).pc = .inside .contextCreate i ∧ (s'.thread t).on = some c ∧
        (s'.thread t).target = some d ∧ Call s₀ s' t back) ∨
      (∃ rip, (s'.thread t).pc = .out rip) ∧ Outcome L s₀ s' t c d back es .contextCreate := by
  have hpoint := hI.points t
  rw [hpc] at hpoint
  obtain ⟨c', d', h⟩ := hpoint
  by_cases hi : i < 4
  · obtain ⟨ins, cpu, m', hn, -, -⟩ := h.next hi
    obtain rfl : s.advanced t ins cpu m' (.inside .contextCreate (i + 1)) = s' :=
      Option.some.inj ((instr_next hpc hn).symm.trans hs)
    exact .inl ⟨i + 1, advanced_pc,
      (advanced_on (cmpxchg_only (f := .contextCreate) nofun hn.code)).1.trans hon,
      advanced_target.trans htarget, hcall.advanced⟩
  · obtain rfl : i = 4 := le_antisymm h.le (by omega)
    obtain ⟨d'', hd, hint, hsaved⟩ := (hI.instrSound hs).creates hpc
    cases Option.some.inj (htarget.symm.trans hd)
    have hret := hcall.returned hint ((returned_on (f := .contextCreate) nofun hpc rfl hs).trans hon)
    refine .inr ⟨⟨_, hret.pc⟩, hret, ?_⟩
    rw [hsaved, hcall.reg (r := .rsi) nofun, hcall.reg (r := .rdx) nofun]

end

/-- What a switch to `d` keeps until it is there. -/
structure Switching (L : Layout κ) (s : State τ κ) (t : τ) (d : κ) (sn : Snapshot) (es : Trace τ κ) :
    Prop where
  target : (s.thread t).target = some d
  saved : s.saved d = some sn
  keeps : ∀ e ∈ es, ∀ y x, x ∈ L.stackBytes y → (y = d → sn.rsp.toNat ≤ x.toNat) →
    e.2.mem x = e.1.mem x

omit [DecidableEq τ] [DecidableEq κ] in
theorem Switching.others (h : Switching L s t d sn es) (ht : s'.thread t = s.thread t)
    (hsaved : ∀ y, (s.thread t).Holds y → s'.saved y = s.saved y) : Switching L s' t d sn es :=
  ⟨ht ▸ h.target, (hsaved d (.inr h.target)).trans h.saved, h.keeps⟩

section

variable (hI : Inv L s) (hs : s.instr t = some s') (hsw : Switching L s t d sn es)

include hI hs hsw

theorem Switching.snoc (hpc : (s.thread t).pc = .inside f i)
    (hf : f = .contextRestore ∨ f = .contextCmpxchgRestore) :
    ∀ e ∈ es ++ [(s, s')], ∀ y x, x ∈ L.stackBytes y → (y = d → sn.rsp.toNat ≤ x.toNat) →
      e.2.mem x = e.1.mem x := by
  intro e he y x hx hle
  rcases List.mem_append.1 he with he | he
  · exact hsw.keeps e he y x hx hle
  · obtain rfl := List.mem_singleton.1 he
    exact hI.switch_keeps hpc hf hsw.target hsw.saved hs hx hle

/-- `context_restore` goes on, or it is in `d`. -/
theorem restoring (hpc : (s.thread t).pc = .inside .contextRestore i) :
    ((∃ i, (s'.thread t).pc = .inside .contextRestore i) ∧
        (s'.thread t).left = (s.thread t).left ∧ Switching L s' t d sn (es ++ [(s, s')])) ∨
      (∃ rip, (s'.thread t).pc = .out rip) ∧ Resumed L s' t d sn (es ++ [(s, s')]) := by
  have hkeeps := hsw.snoc hI hs hpc (.inl rfl)
  have hpoint := hI.points t
  rw [hpc] at hpoint
  obtain ⟨d', sn', h⟩ := hpoint
  cases Option.some.inj (hsw.target.symm.trans h.target)
  cases Option.some.inj (hsw.saved.symm.trans h.saved)
  by_cases hi : i < 10
  · obtain ⟨ins, cpu, m', hn, -, -⟩ := h.next (hI.stored h.saved) hi
    obtain rfl : s.advanced t ins cpu m' (.inside .contextRestore (i + 1)) = s' :=
      Option.some.inj ((instr_next hpc hn).symm.trans hs)
    exact .inl ⟨⟨i + 1, advanced_pc⟩,
      (advanced_on (cmpxchg_only (f := .contextRestore) nofun hn.code)).2,
      advanced_target.trans h.target, h.saved, hkeeps⟩
  · obtain rfl : i = 10 := le_antisymm h.le (by omega)
    obtain ⟨d', sn', hd, hsn, hon, hout, hone, hrsp, hregs⟩ := hI.resumes hpc hs
    cases Option.some.inj (h.target.symm.trans hd)
    cases Option.some.inj (h.saved.symm.trans hsn)
    exact .inr ⟨⟨_, hout⟩, hon, hout, hone, hrsp, hregs, hkeeps⟩

end

/-- `context_cmpxchg_restore`, before its `cmpxchg`, after one that has not found the value it was
given, and after one that has. -/
inductive Comparing (L : Layout κ) (s₀ s : State τ κ) (t : τ) (c d : κ) (back : Word) :
    Trace τ κ → Prop
  | before {es : Trace τ κ} {i : Nat} (hi : i ≤ 1)
      (hpc : (s.thread t).pc = .inside .contextCmpxchgRestore i) (hon : (s.thread t).on = some c)
      (hcall : Call s₀ s t back) (hquiet : Quiet es) :
      Comparing L s₀ s t c d back es
  | missed {es₁ es₂ : Trace τ κ} {p p' : State τ κ} {i : Nat} (hi : 2 ≤ i)
      (hpc : (s.thread t).pc = .inside .contextCmpxchgRestore i) (hon : (s.thread t).on = some c)
      (hcall : Call s₀ s t back) (hquiet : Quiet (es₁ ++ (p, p') :: es₂))
      (hfound : (s.thread t).found = load p.mem ((s₀.thread t).cpu.reg .rsi) 4)
      (hne : (s.thread t).found ≠ (s₀.thread t).cpu.low .rdx) :
      Comparing L s₀ s t c d back (es₁ ++ (p, p') :: es₂)
  | hit {es₁ es₂ : Trace τ κ} {p p' : State τ κ} (hquiet : Quiet es₁)
      (hfound : load p.mem ((s₀.thread t).cpu.reg .rsi) 4 = (s₀.thread t).cpu.low .rdx)
      (hstore :
        p'.mem = store (n := 4) p.mem ((s₀.thread t).cpu.reg .rsi) ((s₀.thread t).cpu.low .rcx))
      (hpc : (s.thread t).pc = .inside .contextCmpxchgRestore 2 ∧ (s.thread t).on = none ∨
        ∃ i, (s.thread t).pc = .inside .contextRestore i)
      (hleft : (s.thread t).left = some c) (hspares : d ≠ c → Spares L t c es₂) :
      Comparing L s₀ s t c d back (es₁ ++ (p, p') :: es₂)

omit [DecidableEq τ] [DecidableEq κ] in
theorem Comparing.inside (h : Comparing L s₀ s t c d back es) : ∃ f i, (s.thread t).pc = .inside f i := by
  cases h with
  | before _ hpc => exact ⟨_, _, hpc⟩
  | missed _ hpc => exact ⟨_, _, hpc⟩
  | hit _ _ _ hpc =>
    rcases hpc with ⟨hpc, -⟩ | ⟨i, hpc⟩
    · exact ⟨_, _, hpc⟩
    · exact ⟨_, _, hpc⟩

omit [DecidableEq τ] [DecidableEq κ] in
theorem Comparing.others (h : Comparing L s₀ s t c d back es) (ht : s'.thread t = s.thread t) :
    Comparing L s₀ s' t c d back es := by
  cases h with
  | before hi hpc hon hcall hquiet => exact .before hi (ht ▸ hpc) (ht ▸ hon) (hcall.others ht) hquiet
  | missed hi hpc hon hcall hquiet hfound hne =>
    exact .missed hi (ht ▸ hpc) (ht ▸ hon) (hcall.others ht) hquiet (ht ▸ hfound) (ht ▸ hne)
  | hit hquiet hfound hstore hpc hleft hspares =>
    exact .hit hquiet hfound hstore (ht ▸ hpc) (ht ▸ hleft) hspares

omit [DecidableEq τ] [DecidableEq κ] in
theorem Quiet.snoc (h : Quiet es) (hm : s'.mem = s.mem) : Quiet (es ++ [(s, s')]) := by
  intro e he
  rcases List.mem_append.1 he with he | he
  · exact h e he
  · obtain rfl := List.mem_singleton.1 he
    exact hm

section

variable (hI : Inv L s) (hs : s.instr t = some s') (hsw : Switching L s t d sn es)

include hI hs hsw

omit [DecidableEq τ] [DecidableEq κ] hs in
/-- The instruction of a thread that has left `c` for `d`. -/
theorem Spares.snoc {es₂ : Trace τ κ} (h : d ≠ c → Spares L t c es₂)
    (hleft : (s.thread t).left = some c) : d ≠ c → Spares L t c (es₂ ++ [(s, s')]) := by
  intro hne e he f i ins hpc hins x hx
  rcases List.mem_append.1 he with he | he
  · exact h hne e he f i ins hpc hins x hx
  · obtain rfl := List.mem_singleton.1 he
    refine hI.untouched hpc hins hleft (fun heq => hne ?_) hx
    exact Option.some.inj (hsw.target.symm.trans heq)

/-- `context_cmpxchg_restore` up to its `cmpxchg`, which finds the value or does not. -/
theorem Comparing.step_before {i : Nat} (hi : i ≤ 1)
    (hpc : (s.thread t).pc = .inside .contextCmpxchgRestore i) (hon : (s.thread t).on = some c)
    (hcall : Call s₀ s t back) (hquiet : Quiet es) :
    Comparing L s₀ s' t c d back (es ++ [(s, s')]) ∧ Switching L s' t d sn (es ++ [(s, s')]) := by
  have hkeeps := hsw.snoc hI hs hpc (.inr rfl)
  have hpoint := hI.points t
  rw [hpc] at hpoint
  obtain ⟨d', sn', h⟩ := hpoint
  obtain rfl | rfl : i = 0 ∨ i = 1 := by omega
  · obtain rfl : s.advanced t (.movl .rdx .rax) _ s.mem (.inside .contextCmpxchgRestore 1) = s' :=
      Option.some.inj ((instr_next hpc ⟨rfl, rfl⟩).symm.trans hs)
    exact ⟨.before le_rfl advanced_pc ((advanced_on (by nofun)).1.trans hon) hcall.advanced
      (hquiet.snoc rfl), advanced_target.trans hsw.target, hsw.saved, hkeeps⟩
  · have hswap := h.swap
    have hresult := hI.swaps hpc hs
    rw [hcall.reg (r := .rsi) nofun, hcall.low (r := .rdx) nofun, hcall.low (r := .rcx) nofun]
      at hresult
    obtain ⟨hfound, hresult⟩ := hresult
    obtain ⟨cpu, m', rfl⟩ : ∃ cpu m', s.advanced t (.lockCmpxchg .rcx 0 .rsi) cpu m'
        (.inside .contextCmpxchgRestore 2) = s' := by
      split at hswap
      · exact ⟨_, _, Option.some.inj ((instr_next hpc ⟨rfl, hswap⟩).symm.trans hs)⟩
      · exact ⟨_, _, Option.some.inj ((instr_next hpc ⟨rfl, hswap⟩).symm.trans hs)⟩
    refine ⟨?_, advanced_target.trans hsw.target, hsw.saved, hkeeps⟩
    split at hresult
    · next heq =>
      obtain ⟨hm, hnone, hleft⟩ := hresult
      exact .hit hquiet (hfound.symm.trans heq) hm (.inl ⟨advanced_pc, hnone⟩)
        (hleft.trans hon) fun _ _ he => absurd he List.not_mem_nil
    · next hne =>
      obtain ⟨hm, hon'⟩ := hresult
      exact .missed le_rfl advanced_pc (hon'.trans hon) hcall.advanced (hquiet.snoc hm) hfound hne

omit hsw in
/-- After a `cmpxchg` that has not found the value: the jump is not taken, and the function returns. -/
theorem Comparing.step_missed {es₁ es₂ : Trace τ κ} {p p' : State τ κ} {i : Nat}
    (hsw : Switching L s t d sn (es₁ ++ (p, p') :: es₂)) (hi : 2 ≤ i)
    (hpc : (s.thread t).pc = .inside .contextCmpxchgRestore i) (hon : (s.thread t).on = some c)
    (hcall : Call s₀ s t back) (hquiet : Quiet (es₁ ++ (p, p') :: es₂))
    (hfound : (s.thread t).found = load p.mem ((s₀.thread t).cpu.reg .rsi) 4)
    (hne : (s.thread t).found ≠ (s₀.thread t).cpu.low .rdx) :
    Comparing L s₀ s' t c d back (es₁ ++ (p, p') :: (es₂ ++ [(s, s')])) ∧
        Switching L s' t d sn (es₁ ++ (p, p') :: (es₂ ++ [(s, s')])) ∨
      (∃ rip, (s'.thread t).pc = .out rip) ∧
        Outcome L s₀ s' t c d back (es₁ ++ (p, p') :: (es₂ ++ [(s, s')])) .contextCmpxchgRestore := by
  have hkeeps := hsw.snoc hI hs hpc (.inr rfl)
  have hsnoc := hquiet.snoc (hI.quiet hpc (by omega) hs)
  rw [List.append_assoc, List.cons_append] at hkeeps hsnoc
  have hpoint := hI.points t
  rw [hpc] at hpoint
  obtain ⟨d', sn', h⟩ := hpoint
  have hle := h.le
  obtain rfl | rfl : i = 2 ∨ i = 3 := by omega
  · have hzf : (s.thread t).cpu.zf = false := by
      rcases h.state with ⟨c', -, -, hmissed⟩ | ⟨-, -, hnone⟩
      · exact (hmissed le_rfl).zf
      · rw [hon] at hnone
        cases hnone
    have hjz := instr_jz hpc rfl
    rw [hzf] at hjz
    obtain rfl : s.advanced t (.jz .contextRestore) (s.thread t).cpu s.mem
        (.inside .contextCmpxchgRestore 3) = s' := Option.some.inj (hjz.symm.trans hs)
    have hsame : ((s.advanced t (.jz .contextRestore) (s.thread t).cpu s.mem
        (.inside .contextCmpxchgRestore 3)).thread t).found = (s.thread t).found := by
      rw [advanced_thread]
      rfl
    exact .inl ⟨.missed (by omega) advanced_pc ((advanced_on (by nofun)).1.trans hon) hcall.advanced
      hsnoc (hsame.trans hfound) (hsame ▸ hne), advanced_target.trans hsw.target, hsw.saved, hkeeps⟩
  · obtain ⟨-, hint, hon', hrax⟩ := (hI.instrSound hs).misses hpc
    have hret := hcall.returned hint (hon'.trans hon)
    refine .inr ⟨⟨_, hret.pc⟩, es₁, p, p', es₂ ++ [(s, s')], rfl, fun e he => hquiet e
      (List.mem_append_left _ he), ?_⟩
    dsimp only
    rw [← hfound, if_neg hne]
    exact ⟨hsnoc, hret, hrax⟩

omit hsw in
/-- After one that has: the jump is taken, and `context_restore` goes on to `d`. -/
theorem Comparing.step_hit {es₁ es₂ : Trace τ κ} {p p' : State τ κ}
    (hsw : Switching L s t d sn (es₁ ++ (p, p') :: es₂)) (hsaved : s₀.saved d = some sn)
    (hquiet : Quiet es₁)
    (hfound : load p.mem ((s₀.thread t).cpu.reg .rsi) 4 = (s₀.thread t).cpu.low .rdx)
    (hstore :
      p'.mem = store (n := 4) p.mem ((s₀.thread t).cpu.reg .rsi) ((s₀.thread t).cpu.low .rcx))
    (hpc : (s.thread t).pc = .inside .contextCmpxchgRestore 2 ∧ (s.thread t).on = none ∨
      ∃ i, (s.thread t).pc = .inside .contextRestore i)
    (hleft : (s.thread t).left = some c) (hspares : d ≠ c → Spares L t c es₂) :
    Comparing L s₀ s' t c d back (es₁ ++ (p, p') :: (es₂ ++ [(s, s')])) ∧
        Switching L s' t d sn (es₁ ++ (p, p') :: (es₂ ++ [(s, s')])) ∨
      (∃ rip, (s'.thread t).pc = .out rip) ∧
        Outcome L s₀ s' t c d back (es₁ ++ (p, p') :: (es₂ ++ [(s, s')])) .contextCmpxchgRestore := by
  have hspares' : d ≠ c → Spares L t c (es₂ ++ [(s, s')]) := Spares.snoc hI hsw hspares hleft
  rcases hpc with ⟨hpc, hon⟩ | ⟨i, hpc⟩
  · have hkeeps := hsw.snoc hI hs hpc (.inr rfl)
    have hpoint := hI.points t
    rw [hpc] at hpoint
    obtain ⟨d', sn', h⟩ := hpoint
    have hzf : (s.thread t).cpu.zf = true := by
      rcases h.state with ⟨c', hf, -, -⟩ | ⟨-, hzf, -⟩
      · have := hf.on
        rw [hon] at this
        cases this
      · exact hzf
    have hjz := instr_jz hpc rfl
    rw [hzf] at hjz
    obtain rfl : s.advanced t (.jz .contextRestore) (s.thread t).cpu s.mem
        (.inside .contextRestore 0) = s' := Option.some.inj (hjz.symm.trans hs)
    rw [List.append_assoc, List.cons_append] at hkeeps
    exact .inl ⟨.hit hquiet hfound hstore (.inr ⟨0, advanced_pc⟩)
      ((advanced_on (by nofun)).2.trans hleft) hspares', advanced_target.trans hsw.target, hsw.saved,
      hkeeps⟩
  · have hstep := restoring hI hs hsw hpc
    rw [List.append_assoc, List.cons_append] at hstep
    rcases hstep with ⟨hpc', hleft', hsw'⟩ | ⟨hout, hres⟩
    · exact .inl ⟨.hit hquiet hfound hstore (.inr hpc') (hleft'.trans hleft) hspares', hsw'⟩
    · refine .inr ⟨hout, es₁, p, p', es₂ ++ [(s, s')], rfl, hquiet, ?_⟩
      dsimp only
      rw [if_pos hfound]
      exact ⟨hstore, hspares', sn, hsaved, hres⟩

/-- An instruction of `context_cmpxchg_restore`, or of `context_restore` after it. -/
theorem Comparing.step (h : Comparing L s₀ s t c d back es) (hsaved : s₀.saved d = some sn) :
    Comparing L s₀ s' t c d back (es ++ [(s, s')]) ∧ Switching L s' t d sn (es ++ [(s, s')]) ∨
      (∃ rip, (s'.thread t).pc = .out rip) ∧
        Outcome L s₀ s' t c d back (es ++ [(s, s')]) .contextCmpxchgRestore := by
  cases h with
  | before hi hpc hon hcall hquiet =>
    exact .inl (Comparing.step_before hI hs hsw hi hpc hon hcall hquiet)
  | missed hi hpc hon hcall hquiet hfound hne =>
    rw [List.append_assoc, List.cons_append]
    exact Comparing.step_missed hI hs hsw hi hpc hon hcall hquiet hfound hne
  | hit hquiet hfound hstore hpc hleft hspares =>
    rw [List.append_assoc, List.cons_append]
    exact Comparing.step_hit hI hs hsw hsaved hquiet hfound hstore hpc hleft hspares

end

/-! ## Whole calls -/

/-- A call has the outcome of its function when it ends. -/
theorem Allowed.outcome (hI : Inv L s) (h : Allowed L s t c d f)
    (hd : During L t (s.call t f d back) es s') (hout : ∃ rip, (s'.thread t).pc = .out rip) :
    Outcome L s s' t c d back es f := by
  have hcall := Call.enter s t f d back
  have hpc : ((s.call t f d back).thread t).pc = .inside f 0 := by
    simp only [State.call, Function.update_self]
    rfl
  have hon : f ≠ .contextRestore → ((s.call t f d back).thread t).on = some c := by
    intro hf
    simp only [State.call, Function.update_self]
    exact (if_neg hf).trans h.on
  have htarget : f ≠ .contextSave → ((s.call t f d back).thread t).target = some d := by
    intro hf
    simp only [State.call, Function.update_self]
    exact if_neg hf
  have hI₁ : Inv L (s.call t f d back) := hI.call h
  cases f with
  | contextCreate =>
    refine hd.rule (P := fun _ s => ∃ i, (s.thread t).pc = .inside .contextCreate i ∧
        (s.thread t).on = some c ∧ (s.thread t).target = some d ∧ Call _ s t back)
      (Q := fun es s' => Outcome L s s' t c d back es _) hI₁
      ⟨0, hpc, hon nofun, htarget nofun, hcall⟩ (fun ⟨i, hpc, _⟩ => ⟨_, i, hpc⟩)
      (fun hI ⟨i, hpc, hon, htarget, hcall⟩ hs => creating hI hs hpc hon htarget hcall) ?_ hout
    exact fun ⟨i, hpc, hon, htarget, hcall⟩ ht _ =>
      ⟨i, ht ▸ hpc, ht ▸ hon, ht ▸ htarget, hcall.others ht⟩
  | contextSave =>
    refine hd.rule (P := fun _ s => ∃ i, (s.thread t).pc = .inside .contextSave i ∧
        (s.thread t).on = some c ∧ Call _ s t back)
      (Q := fun es s' => Outcome L s s' t c d back es _) hI₁
      ⟨0, hpc, hon nofun, hcall⟩ (fun ⟨i, hpc, _⟩ => ⟨_, i, hpc⟩)
      (fun hI ⟨i, hpc, hon, hcall⟩ hs => saving hI hs hpc hon hcall) ?_ hout
    exact fun ⟨i, hpc, hon, hcall⟩ ht _ => ⟨i, ht ▸ hpc, ht ▸ hon, hcall.others ht⟩
  | contextRestore =>
    obtain ⟨sn, hsn⟩ := Option.ne_none_iff_exists'.1 h.args.2
    refine hd.rule (P := fun es s => (∃ i, (s.thread t).pc = .inside .contextRestore i) ∧
        Switching L s t d sn es) (Q := fun es s' => Outcome L s s' t c d back es _) hI₁
      ⟨⟨0, hpc⟩, htarget nofun, hsn, fun _ he => absurd he List.not_mem_nil⟩
      (fun ⟨⟨i, hpc⟩, _⟩ => ⟨_, i, hpc⟩) (fun hI ⟨⟨i, hpc⟩, hsw⟩ hs => ?_) ?_ hout
    · rcases restoring hI hs hsw hpc with ⟨hpc', -, hsw'⟩ | ⟨hout, hres⟩
      · exact .inl ⟨hpc', hsw'⟩
      · exact .inr ⟨hout, sn, hsn, hres⟩
    · exact fun ⟨⟨i, hpc⟩, hsw⟩ ht hsaved => ⟨⟨i, ht ▸ hpc⟩, hsw.others ht hsaved⟩
  | contextCmpxchgRestore =>
    obtain ⟨sn, hsn⟩ := Option.ne_none_iff_exists'.1 h.args.2.1
    refine hd.rule (P := fun es s' => Comparing L s s' t c d back es ∧ Switching L s' t d sn es)
      (Q := fun es s' => Outcome L s s' t c d back es _) hI₁
      ⟨.before (Nat.zero_le 1) hpc (hon nofun) hcall fun _ he => absurd he List.not_mem_nil,
        htarget nofun, hsn, fun _ he => absurd he List.not_mem_nil⟩
      (fun ⟨hc, _⟩ => hc.inside) (fun hI ⟨hc, hsw⟩ hs => hc.step hI hs hsw hsn)
      (fun ⟨hc, hsw⟩ ht hsaved => ⟨hc.others ht, hsw.others ht hsaved⟩) hout

/-- **The context switch.** In every run of any number of threads on coroutines with disjoint contexts
and stacks, from any registers and any memory: a thread inside one of the functions goes on to its end,
what each of its instructions does is as said in `InstrSound`, and a call that is made has the outcome
of its function when it ends, whatever the other threads do meanwhile. -/
theorem context_switch_sound (L : Layout κ) {s₀ s : State τ κ} (hinit : Initial s₀)
    (h : Reach L s₀ s) (t : τ) :
    (∀ f i, (s.thread t).pc = .inside f i →
      ∃ s', s.instr t = some s' ∧ (s'.thread t).pc.rank < (s.thread t).pc.rank) ∧
    (∀ s', s.instr t = some s' → InstrSound L s s' t) ∧
    ∀ c d f, Allowed L s t c d f → ∀ back es s', During L t (s.call t f d back) es s' →
      (∃ rip, (s'.thread t).pc = .out rip) → Outcome L s s' t c d back es f := by
  have hI := h.inv hinit
  refine ⟨fun f i hpc => ?_, fun s' hs => hI.instrSound hs,
    fun c d f hcall back es s' hd hout => hcall.outcome hI hd hout⟩
  obtain ⟨s', hs, -, hrank⟩ := hI.inside hpc
  exact ⟨s', hs, hrank⟩


/-! ## A switch and back -/

/-- The state after `n` instructions of `t`, or as many as there are, and what they are. -/
def State.instrs (s : State τ κ) (t : τ) : Nat → Trace τ κ × State τ κ
  | 0 => ([], s)
  | n + 1 =>
    let r := s.instrs t n
    match r.2.instr t with
    | none => r
    | some s' => (r.1 ++ [(r.2, s')], s')

theorem During.instrs (L : Layout κ) (s : State τ κ) (t : τ) (n : Nat) :
    During L t s (s.instrs t n).1 (s.instrs t n).2 := by
  induction n with
  | zero => exact .enter
  | succ n ih =>
    rcases hs : (s.instrs t n).2.instr t with _ | s'
    · simp only [State.instrs, hs]
      exact ih
    · simp only [State.instrs, hs]
      exact ih.instr hs

theorem During.reach (h : During L t s₁ es s) (h₁ : Reach L s₀ s₁) : Reach L s₀ s := by
  induction h with
  | enter => exact h₁
  | instr _ hs ih => exact ih.tail (.instr hs)
  | others _ _ hs _ ih => exact ih.tail hs

/-- A call with the `n` instructions that follow it. -/
def State.calls (s : State τ κ) (t : τ) (f : Fn) (d : κ) (back : Word) (n : Nat) :
    Trace τ κ × State τ κ :=
  (s.call t f d back).instrs t n

theorem Reach.calls (h : Reach L s₀ s) (hc : Allowed L s t c d f) {n : Nat} :
    Reach L s₀ (s.calls t f d back n).2 :=
  (During.instrs ..).reach (h.tail (.call back hc))

/-- Two coroutines, `true` with a stack of a page that ends at `0x21000`. -/
def twoStacks : Layout Bool where
  context c := if c then 0x1040 else 0x1000
  stack c := if c then 0x20000 else 0x10000
  size _ := 0x1000
  top c := by cases c <;> decide
  context_inj := by
    intro c d x hc hd
    cases c <;> cases d <;> simp only [mem_range, if_true, Bool.false_eq_true, if_false] at hc hd <;>
      first | rfl | bv_omega
  stack_inj := by
    intro c d x hc hd
    cases c <;> cases d <;> simp only [mem_range, if_true, Bool.false_eq_true, if_false] at hc hd <;>
      first | rfl | bv_omega
  apart := by
    intro c d x hc hd
    cases c <;> cases d <;> simp only [mem_range, if_true, Bool.false_eq_true, if_false] at hc hd <;>
      bv_omega

/-- Code outside, on the thread `()`: registers change, and memory. -/
def State.code (s : State Unit Bool) (reg : Reg → Word) (m : Mem) : State Unit Bool :=
  { s with
    mem := m
    thread := Function.update s.thread ()
      { s.thread () with cpu := ⟨reg, false⟩, pc := .out 0x400000 } }

theorem Reach.code {s₀ s : State Unit Bool} {reg : Reg → Word} {m : Mem} {c : Bool}
    (h : Reach twoStacks s₀ s) (hpc : ∃ rip, (s.thread ()).pc = .out rip)
    (hon : (s.thread ()).on = some c) (hm : ∀ x, m x ≠ s.mem x → twoStacks.Open c x) :
    Reach twoStacks s₀ (s.code reg m) :=
  hpc.elim fun _ hpc => h.tail (.other hpc hon hm)

/-- Arguments of a call, with `%rsp` and `%rbx` as they are. -/
def State.args (s : State Unit Bool) (rdi rsi rdx rcx : Word) : Reg → Word
  | .rdi => rdi
  | .rsi => rsi
  | .rdx => rdx
  | .rcx => rcx
  | r => (s.thread ()).cpu.reg r

/-- One thread on the stack of `false`, about to create the context of `true`. -/
def twoStart : State Unit Bool where
  mem := fun x => if x = 0x3000 then 1 else 0
  thread := fun _ =>
    { cpu :=
        { reg := fun r => match r with
            | .rsp => 0x10800
            | .rbx => 17
            | .rdi => 0x1040
            | .rsi => 0x401000
            | .rdx => 0x21000
            | _ => 0
          zf := false }
      pc := .out 0x400000
      on := some false
      target := none
      left := none
      entry := ⟨fun _ => 0, false⟩
      back := 0
      found := 0 }
  saved := fun _ => none

theorem twoStart_initial : Initial twoStart where
  out _ := ⟨0x400000, rfl⟩
  on _ := nofun
  own _ := rfl
  target _ := rfl
  left _ := rfl
  saved _ := rfl

/-- The context of `true` is created. -/
def twoFresh : State Unit Bool := (twoStart.calls () .contextCreate true 0x400010 5).2

/-- About to try a switch to `true`, with 2 expected where there is 1. -/
def twoTry : State Unit Bool := twoFresh.code (twoFresh.args 0x1040 0x3000 2 4) twoFresh.mem

def twoMissed : Trace Unit Bool × State Unit Bool :=
  twoTry.calls () .contextCmpxchgRestore true 0x400020 4

/-- 2 is stored, and `false` is about to save its context. -/
def twoSave : State Unit Bool :=
  twoMissed.2.code (twoMissed.2.args 0x1000 0 0 0)
    (store (n := 4) twoMissed.2.mem 0x3000 (2 : BitVec 32))

def twoSaved : Trace Unit Bool × State Unit Bool := twoSave.calls () .contextSave false 0x400030 11

/-- About to switch to `true`. -/
def twoLeave : State Unit Bool := twoSaved.2.code (twoSaved.2.args 0x1040 0x3000 2 4) twoSaved.2.mem

def twoLeft : Trace Unit Bool × State Unit Bool :=
  twoLeave.calls () .contextCmpxchgRestore true 0x400040 14

/-- `true` is about to switch back. -/
def twoReturn : State Unit Bool := twoLeft.2.code (twoLeft.2.args 0x1000 0 0 0) twoLeft.2.mem

def twoBack : Trace Unit Bool × State Unit Bool := twoReturn.calls () .contextRestore false 0x401010 11

theorem range_below {a : Addr} (ha : a = 0x10800) : range (a - 8) 8 ⊆ twoStacks.stackBytes false := by
  intro x hx
  show (x - 0x10000).toNat < 0x1000
  rw [mem_range] at hx
  bv_omega

theorem outside_state {x : Addr} (hx : x ∈ range 0x3000 4) : twoStacks.Outside x := by
  rw [mem_range] at hx
  intro d
  cases d <;> constructor <;> intro h <;>
    simp only [Layout.contextBytes, Layout.stackBytes, twoStacks, mem_range, if_true,
      Bool.false_eq_true, if_false] at h <;> bv_omega

theorem twoStart_allowed : Allowed twoStacks twoStart () false true .contextCreate := by
  refine ⟨⟨_, rfl⟩, rfl, range_below rfl, rfl, nofun, fun _ hu => absurd rfl hu, fun x hx => ?_⟩
  show (x - 0x20000).toNat < 0x1000
  have hx : (x - (0x21000 - 16)).toNat < 8 := hx
  bv_omega

theorem twoFresh_reach : Reach twoStacks twoStart twoFresh :=
  Reach.calls .refl twoStart_allowed

theorem twoTry_reach : Reach twoStacks twoStart twoTry :=
  twoFresh_reach.code ⟨_, rfl⟩ (c := false) rfl fun _ hx => absurd rfl hx

theorem twoTry_allowed : Allowed twoStacks twoTry () false true .contextCmpxchgRestore :=
  ⟨⟨_, rfl⟩, rfl, range_below rfl, rfl, fun _ hu => absurd rfl hu, nofun, fun _ hx => outside_state hx⟩

theorem twoSave_reach : Reach twoStacks twoStart twoSave := by
  refine (twoTry_reach.calls twoTry_allowed).code ⟨_, rfl⟩ (c := false) rfl fun x hx => ?_
  have hout := outside_state (mem_range_of_store_ne hx)
  exact ⟨fun d => (hout d).1, fun d hd => absurd hd (hout d).2⟩

theorem twoSave_allowed : Allowed twoStacks twoSave () false false .contextSave :=
  ⟨⟨_, rfl⟩, rfl, range_below rfl, rfl, rfl⟩

theorem twoLeave_reach : Reach twoStacks twoStart twoLeave :=
  (twoSave_reach.calls twoSave_allowed).code ⟨_, rfl⟩ (c := false) rfl fun _ hx => absurd rfl hx

theorem twoLeave_allowed : Allowed twoStacks twoLeave () false true .contextCmpxchgRestore :=
  ⟨⟨_, rfl⟩, rfl, range_below rfl, rfl, fun _ hu => absurd rfl hu, nofun, fun _ hx => outside_state hx⟩

theorem twoReturn_reach : Reach twoStacks twoStart twoReturn :=
  (twoLeave_reach.calls twoLeave_allowed).code ⟨_, rfl⟩ (c := true) rfl fun _ hx => absurd rfl hx

theorem twoReturn_allowed : Allowed twoStacks twoReturn () true false .contextRestore := by
  refine ⟨⟨_, rfl⟩, rfl, fun x hx => ?_, rfl, fun _ hu => absurd rfl hu,
    Option.isSome_iff_ne_none.1 rfl⟩
  show (x - 0x20000).toNat < 0x1000
  have hx : (x - (0x21000 - 8 - 8)).toNat < 8 := hx
  bv_omega

/-- A comparison that fails returns 1, the value it has found. `context_save` returns 0, and a
comparison that succeeds starts `true` at its function, 8 below the top of its stack. When `true`
restores the context of `false`, `context_save` returns once more, with 1 and the registers it had. -/
theorem context_switch_sound_back :
    ((twoMissed.2.thread ()).pc = .out 0x400020 ∧ (twoMissed.2.thread ()).cpu.reg .rax = 1) ∧
    ((twoSaved.2.thread ()).pc = .out 0x400030 ∧ (twoSaved.2.thread ()).cpu.reg .rax = 0) ∧
    ((twoLeft.2.thread ()).pc = .out 0x401000 ∧ (twoLeft.2.thread ()).cpu.reg .rsp = 0x21000 - 8 ∧
      ∃ e ∈ twoLeft.1, load e.1.mem 0x3000 4 = 2 ∧
        e.2.mem = store (n := 4) e.1.mem 0x3000 (4 : BitVec 32)) ∧
    (twoBack.2.thread ()).pc = .out 0x400030 ∧ (twoBack.2.thread ()).cpu.reg .rax = 1 ∧
      (twoBack.2.thread ()).cpu.reg .rsp = 0x10800 ∧ (twoBack.2.thread ()).cpu.reg .rbx = 17 := by
  have hsound := fun {s} (h : Reach twoStacks twoStart s) =>
    (context_switch_sound twoStacks twoStart_initial h ()).2.2
  have hmiss := hsound twoTry_reach _ _ _ twoTry_allowed 0x400020 _ _ (During.instrs _ _ _ 4) ⟨_, rfl⟩
  have hsave := hsound twoSave_reach _ _ _ twoSave_allowed 0x400030 _ _ (During.instrs _ _ _ 11)
    ⟨_, rfl⟩
  have hhit := hsound twoLeave_reach _ _ _ twoLeave_allowed 0x400040 _ _ (During.instrs _ _ _ 14)
    ⟨_, rfl⟩
  have hback := hsound twoReturn_reach _ _ _ twoReturn_allowed 0x401010 _ _ (During.instrs _ _ _ 11)
    ⟨_, rfl⟩
  refine ⟨?_, ⟨hsave.1.pc, hsave.2.1⟩, ?_, ?_⟩
  · obtain ⟨es₁, p, p', es₂, hes, -, hres⟩ := hmiss
    have hall : ∀ e ∈ twoMissed.1, load e.1.mem 0x3000 4 = 1 := by decide
    have hfound : load p.mem ((twoTry.thread ()).cpu.reg .rsi) 4 = 1 :=
      hall (p, p') (hes ▸ List.mem_append_right _ List.mem_cons_self)
    dsimp only at hres
    rw [hfound, if_neg (show ¬(1 : BitVec 32) = (twoTry.thread ()).cpu.low .rdx by decide)] at hres
    exact ⟨hres.2.1.pc, hres.2.2⟩
  · obtain ⟨es₁, p, p', es₂, hes, -, hres⟩ := hhit
    dsimp only at hres
    split at hres
    · next hfound =>
      obtain ⟨hstore, -, sn, hsn, hres⟩ := hres
      obtain rfl : (⟨0x401000, 0x21000 - 8, none⟩ : Snapshot) = sn := Option.some.inj hsn
      exact ⟨hres.pc, hres.rsp, (p, p'), hes ▸ List.mem_append_right _ List.mem_cons_self, hfound,
        hstore⟩
    · -- then the function would have returned
      exact absurd (Pc.out.inj hres.2.1.pc) (show ¬(0x401000 : Word) = 0x400040 by decide)
  · obtain ⟨sn, hsn, hres⟩ := hback
    cases Option.some.inj (hsave.2.2.symm.trans hsn)
    exact ⟨hres.pc, hres.one, hres.rsp, (hres.regs _ rfl .rbx (by decide) nofun).trans
      (hsave.1.regs .rbx (by decide))⟩

end Lwthread.Arch
