import Lwthread.Arch.ContextSteps

/-!
# Runs of the context switch

No two threads hold a coroutine, the contexts hold what their records say, and every thread is at one of
the points: this is kept by every step, so it holds in every run (`Reach.inv`). `InstrSound` says what
follows for the instructions.
-/

namespace Lwthread.Arch

open Bytes Amd64

variable {τ κ : Type} {L : Layout κ} {s s' s₀ : State τ κ} {t : τ} {f : Fn} {i : Nat} {c d : κ}
  {sn : Snapshot}

/-! ## The invariant -/

structure Inv (L : Layout κ) (s : State τ κ) : Prop where
  alone : ∀ {t u y}, (s.thread t).Holds y → (s.thread u).Holds y → t = u
  stored : ∀ {d sn}, s.saved d = some sn → Stored L s.mem d sn
  points : ∀ t, Point L s.mem s.saved (s.thread t) (s.thread t).pc

theorem Inv.free (hI : Inv L s) {y : κ} (h : (s.thread t).Holds y) : s.Free t y :=
  fun _ hu h' => hu (hI.alone h' h)

/-- Contexts that are not written stay as they are recorded. -/
theorem Inv.stored_frame (hI : Inv L s) {m' : Mem}
    (hmem : ∀ x, m' x ≠ s.mem x → ∀ d, x ∈ L.contextBytes d → s.saved d = none)
    (h : s.saved d = some sn) : Stored L m' d sn := by
  refine (hI.stored h).frame fun x hx => ?_
  by_contra hne
  rw [hmem x (Ne.symm hne) d hx] at h
  cases h

theorem Inv.init (h : Initial s) : Inv L s where
  alone := by
    intro t u y ht hu
    have hon : ∀ {v}, (s.thread v).Holds y → (s.thread v).on = some y := fun {v} hv =>
      hv.resolve_right (by rw [h.target v]; exact nofun)
    exact h.own ((hon ht).trans (hon hu).symm)
  stored := by
    intro d sn hd
    rw [h.saved d] at hd
    cases hd
  points := by
    intro t
    obtain ⟨rip, hpc⟩ := h.out t
    obtain ⟨c, hc⟩ := Option.ne_none_iff_exists'.1 (h.on t)
    rw [hpc]
    exact ⟨c, hc, h.target t, h.left t⟩

variable [DecidableEq τ]

/-- **The rule of the steps**: a thread may change the memory and the records of coroutines that no
other thread holds. -/
theorem Inv.moved (hI : Inv L s) {m' : Mem} {th' : Thread κ} {saved' : κ → Option Snapshot}
    (hmem : ∀ x, m' x ≠ s.mem x → ∀ y, x ∈ L.contextBytes y ∨ x ∈ L.stackBytes y → s.Free t y)
    (hsaved : ∀ y, saved' y ≠ s.saved y → s.Free t y) (hholds : ∀ y, th'.Holds y → s.Free t y)
    (hstored : ∀ {d sn}, saved' d = some sn → Stored L m' d sn)
    (hpoint : Point L m' saved' th' th'.pc) :
    Inv L ⟨m', Function.update s.thread t th', saved'⟩ where
  stored := hstored
  alone := by
    intro u v y hu hv
    dsimp only at hu hv
    by_cases hut : u = t
    · by_cases hvt : v = t
      · rw [hut, hvt]
      · rw [hut, Function.update_self] at hu
        rw [Function.update_of_ne hvt] at hv
        exact absurd hv (hholds y hu v hvt)
    · rw [Function.update_of_ne hut] at hu
      by_cases hvt : v = t
      · rw [hvt, Function.update_self] at hv
        exact absurd hu (hholds y hv u hut)
      · rw [Function.update_of_ne hvt] at hv
        exact hI.alone hu hv
  points := by
    intro u
    by_cases hut : u = t
    · rw [hut]
      simp only [Function.update_self]
      exact hpoint
    · simp only [Function.update_of_ne hut]
      refine (hI.points u).frame hI.stored fun y hy => ⟨fun x hx => ?_, fun x hx => ?_, ?_⟩
      · by_contra hne
        exact hmem x (Ne.symm hne) y (.inl hx) u hut hy
      · by_contra hne
        exact hmem x (Ne.symm hne) y (.inr hx) u hut hy
      · by_contra hne
        exact hsaved y hne u hut hy

/-! ## Code outside and calls -/

theorem Inv.other {rip rip' : Word} {cpu : Cpu} {m' : Mem} (hI : Inv L s)
    (hpc : (s.thread t).pc = .out rip) (hon : (s.thread t).on = some c)
    (hmem : ∀ x, m' x ≠ s.mem x → L.Open c x) :
    Inv L { s with
      mem := m'
      thread := Function.update s.thread t { s.thread t with cpu := cpu, pc := .out rip' } } := by
  have hpoint := hI.points t
  rw [hpc] at hpoint
  refine hI.moved ?_ (fun y hy => absurd rfl hy) (fun y hy => hI.free hy) ?_ hpoint
  · intro x hx y hy
    obtain ⟨hctx, hstack⟩ := hmem x hx
    rcases hy with hy | hy
    · exact absurd hy (hctx y)
    · rw [hstack y hy]
      exact hI.free (.inl hon)
  · intro d sn h
    exact hI.stored_frame (fun x hx d hd => absurd hd ((hmem x hx).1 d)) h

/-- An instruction that goes on writes to coroutines that its thread holds, and to no context with a
record. -/
theorem Inv.advance {ins : Instr Fn} {cpu : Cpu} {m' : Mem} {pc : Pc} (hI : Inv L s)
    (hmem : ∀ x, m' x ≠ s.mem x →
      (∀ y, x ∈ L.contextBytes y ∨ x ∈ L.stackBytes y → (s.thread t).Holds y) ∧
        ∀ y, x ∈ L.contextBytes y → s.saved y = none)
    (hpoint : Point L m' s.saved ((s.thread t).advance s.mem ins cpu pc) pc) :
    Inv L ⟨m', Function.update s.thread t ((s.thread t).advance s.mem ins cpu pc), s.saved⟩ := by
  refine hI.moved (fun x hx y hy => hI.free ((hmem x hx).1 y hy)) (fun y hy => absurd rfl hy)
    (fun y hy => hI.free (Thread.advance_holds hy)) ?_ ?_
  · intro d sn h
    exact hI.stored_frame (fun x hx => (hmem x hx).2) h
  · rw [Thread.advance_pc]
    exact hpoint

variable [DecidableEq κ]

/-- The frame that a call makes. -/
theorem Allowed.framed {back : Word} (h : Allowed L s t c d f) (hf : f ≠ .contextRestore) :
    Framed L (s.call t f d back).mem ((s.thread t).call f d back) c where
  on := by
    show (if f = .contextRestore then none else (s.thread t).on) = some c
    rw [if_neg hf, h.on]
  slot := h.slot
  back := load_store_self (by omega)
  regs := fun _ _ => rfl

theorem Inv.call {back : Word} (hI : Inv L s) (h : Allowed L s t c d f) :
    Inv L (s.call t f d back) := by
  have hc : s.Free t c := hI.free (.inl h.on)
  have hslot : ∀ x, (s.call t f d back).mem x ≠ s.mem x → x ∈ L.stackBytes c := fun x hx =>
    h.slot (mem_range_of_store_ne hx)
  have hmem : ∀ x, (s.call t f d back).mem x ≠ s.mem x →
      ∀ y, x ∈ L.contextBytes y ∨ x ∈ L.stackBytes y → s.Free t y := by
    intro x hx y hy
    rcases hy with hy | hy
    · exact absurd (hslot x hx) (L.apart hy)
    · rw [L.stack_inj hy (hslot x hx)]
      exact hc
  have hstored : ∀ {d' sn}, s.saved d' = some sn → Stored L (s.call t f d back).mem d' sn := fun hsn =>
    hI.stored_frame (fun x hx d' hd' => absurd (hslot x hx) (L.apart hd')) hsn
  -- a function that writes the context of `d`
  have hsaved : s.Free t d → (f = .contextCreate ∨ f = .contextSave) →
      (∀ y, (s.call t f d back).saved y ≠ s.saved y → s.Free t y) ∧ (s.call t f d back).saved d = none ∧
        ∀ {d' sn}, (s.call t f d back).saved d' = some sn → Stored L (s.call t f d back).mem d' sn := by
    intro hd hf
    have heq : (s.call t f d back).saved = Function.update s.saved d none := if_pos hf
    refine ⟨fun y hy => ?_, by rw [heq, Function.update_self], fun {d' sn} hsn => ?_⟩
    · by_cases hyd : y = d
      · rw [hyd]
        exact hd
      · rw [heq, Function.update_of_ne hyd] at hy
        exact absurd rfl hy
    · rw [heq] at hsn
      by_cases hdd : d' = d
      · rw [hdd, Function.update_self] at hsn
        cases hsn
      · rw [Function.update_of_ne hdd] at hsn
        exact hstored hsn
  have hpoint := hI.points t
  obtain ⟨rip, hpc⟩ := h.out
  rw [hpc] at hpoint
  cases f with
  | contextCreate =>
    obtain ⟨hne, hd, hstack⟩ := h.args
    obtain ⟨hother, hnone, hst⟩ := hsaved hd (.inl rfl)
    refine hI.moved hmem hother ?_ hst ⟨c, d, ?_⟩
    · rintro y (hy | hy)
      · exact hI.free (.inl hy)
      · cases hy
        exact hd
    · exact {
        le := by omega
        frame := h.framed nofun
        target := rfl
        ne := hne
        left := rfl
        unsaved := hnone
        rdi := h.context
        rsi := rfl
        rdx := rfl
        slot := hstack
        pc := fun h' => by omega
        rsp := fun h' => by omega }
  | contextSave =>
    obtain rfl : d = c := h.args
    obtain ⟨hother, hnone, hst⟩ := hsaved hc (.inr rfl)
    refine hI.moved hmem hother ?_ hst ⟨d, ?_⟩
    · rintro y (hy | hy)
      · exact hI.free (.inl hy)
      · cases hy
    · exact {
        le := by omega
        frame := h.framed nofun
        target := rfl
        left := rfl
        unsaved := hnone
        rdi := h.context
        regs := fun _ _ h' => by omega
        rax := fun h' => by omega
        pc := fun h' => by omega
        zero := fun h' => by omega }
  | contextRestore =>
    obtain ⟨hd, hne⟩ := h.args
    obtain ⟨sn, hsn⟩ := Option.ne_none_iff_exists'.1 hne
    refine hI.moved hmem (fun y hy => absurd rfl hy) ?_ hstored ⟨d, sn, ?_⟩
    · rintro y (hy | hy)
      · cases hy
      · cases hy
        exact hd
    · exact {
        le := by omega
        on := rfl
        target := rfl
        saved := hsn
        rdi := h.context
        regs := fun _ h' _ => by omega
        rax := fun h' => by omega
        pc := fun h' => by omega
        one := fun h' => by omega }
  | contextCmpxchgRestore =>
    obtain ⟨hd, hne, hout⟩ := h.args
    obtain ⟨sn, hsn⟩ := Option.ne_none_iff_exists'.1 hne
    refine hI.moved hmem (fun y hy => absurd rfl hy) ?_ hstored ⟨d, sn, ?_⟩
    · rintro y (hy | hy)
      · exact hI.free (.inl hy)
      · cases hy
        exact hd
    · exact {
        le := by omega
        target := rfl
        saved := hsn
        rdi := h.context
        rsi := rfl
        rcx := rfl
        old := fun _ => rfl
        outside := hout
        state := .inl ⟨c, h.framed nofun, rfl, fun h' => by omega⟩ }

/-! ## Instructions -/

theorem instr_next {ins : Instr Fn} {cpu : Cpu} {m' : Mem} (hpc : (s.thread t).pc = .inside f i)
    (hn : Next (s.thread t) s.mem f i ins cpu m') :
    s.instr t = some ⟨m', Function.update s.thread t
      ((s.thread t).advance s.mem ins cpu (.inside f (i + 1))), s.saved⟩ := by
  simp only [State.instr, hpc, hn.code, hn.exec]

theorem instr_jz {g : Fn} (hpc : (s.thread t).pc = .inside f i) (hcode : (code f)[i]? = some (.jz g)) :
    s.instr t = some ⟨s.mem, Function.update s.thread t ((s.thread t).advance s.mem (.jz g)
      (s.thread t).cpu (if (s.thread t).cpu.zf then .inside g 0 else .inside f (i + 1))), s.saved⟩ := by
  rcases hzf : (s.thread t).cpu.zf with _ | _
  · simp [State.instr, hpc, hcode, exec, hzf]
  · simp [State.instr, hpc, hcode, exec, hzf]

/-- The state after the `ret` of a function. -/
def State.returned (s : State τ κ) (t : τ) (f : Fn) : State τ κ :=
  let th := s.thread t
  let cpu := th.cpu.set .rsp (th.cpu.reg .rsp + 8)
  let rip := load s.mem (th.cpu.reg .rsp) 8
  ⟨s.mem, Function.update s.thread t (th.ret f cpu rip), th.record s.saved f cpu rip⟩

theorem instr_ret (hpc : (s.thread t).pc = .inside f i) (hcode : (code f)[i]? = some .ret) :
    s.instr t = some (s.returned t f) := by
  simp only [State.instr, hpc, hcode, exec, State.returned]

/-- The instructions that a call has before it at most. -/
def Pc.rank : Pc → Nat
  | .out _ => 0
  | .inside .contextCreate i => 5 - i
  | .inside .contextSave i => 11 - i
  | .inside .contextRestore i => 11 - i
  | .inside .contextCmpxchgRestore i => 15 - i

theorem returned_pc :
    ((s.returned t f).thread t).pc = .out (load s.mem ((s.thread t).cpu.reg .rsp) 8) := by
  simp only [State.returned, Function.update_self]
  rfl

/-- A function that writes a context returns: the context holds what it is recorded to. -/
theorem Inv.recorded {y : κ} (hI : Inv L s) (hf : f ≠ .contextRestore) (hon : (s.thread t).on = some c)
    (hy : (s.thread t).Holds y) (hst : Stored L s.mem y sn)
    (hrec : (s.returned t f).saved = Function.update s.saved y (some sn)) :
    Inv L (s.returned t f) := by
  have hon' : ((s.thread t).ret f ((s.thread t).cpu.set .rsp ((s.thread t).cpu.reg .rsp + 8))
      (load s.mem ((s.thread t).cpu.reg .rsp) 8)).on = (s.thread t).on := if_neg hf
  refine hI.moved (fun x hx => absurd rfl hx) (fun z hz => ?_) ?_ ?_ ⟨c, hon'.trans hon, rfl, rfl⟩
  · change (s.returned t f).saved z ≠ _ at hz
    by_cases hzy : z = y
    · rw [hzy]
      exact hI.free hy
    · rw [hrec, Function.update_of_ne hzy] at hz
      exact absurd rfl hz
  · rintro z (hz | hz)
    · exact hI.free (.inl (hon'.symm.trans hz))
    · cases hz
  · intro z sn' hsn
    change (s.returned t f).saved z = _ at hsn
    rw [hrec] at hsn
    by_cases hzy : z = y
    · rw [hzy, Function.update_self] at hsn
      cases hsn
      rw [hzy]
      exact hst
    · rw [Function.update_of_ne hzy] at hsn
      exact hI.stored hsn

theorem Inv.create (hI : Inv L s) (hpc : (s.thread t).pc = .inside .contextCreate i) :
    ∃ s', s.instr t = some s' ∧ Inv L s' ∧ (s'.thread t).pc.rank < (s.thread t).pc.rank := by
  have hpoint := hI.points t
  rw [hpc] at hpoint ⊢
  obtain ⟨c, d, h⟩ := hpoint
  by_cases hi : i < 4
  · obtain ⟨ins, cpu, m', hn, hmem, hnext⟩ := h.next hi
    refine ⟨_, instr_next hpc hn, hI.advance (fun x hx => ?_) ⟨c, d, hnext⟩, ?_⟩
    · rcases hmem x hx with hctx | hstack
      · refine ⟨fun y hy => ?_, fun y hy => ?_⟩
        · rw [L.only_context hctx hy]
          exact .inr h.target
        · rw [L.context_inj hy hctx]
          exact h.unsaved
      · refine ⟨fun y hy => ?_, fun y hy => absurd hstack (L.apart hy)⟩
        rw [L.only_stack hstack hy]
        exact .inr h.target
    · simp only [Function.update_self, Thread.advance_pc, Pc.rank]
      omega
  · obtain rfl : i = 4 := le_antisymm h.le (by omega)
    refine ⟨_, instr_ret hpc rfl, ?_, by rw [returned_pc]; exact Nat.zero_lt_one⟩
    have hrec : (s.returned t .contextCreate).saved = Function.update s.saved d
        (some ⟨(s.thread t).entry.reg .rsi, (s.thread t).entry.reg .rdx - 8, none⟩) := by
      simp only [State.returned, Thread.record, h.target]
    exact hI.recorded nofun h.frame.on (.inr h.target) h.stored hrec

theorem Inv.save (hI : Inv L s) (hpc : (s.thread t).pc = .inside .contextSave i) :
    ∃ s', s.instr t = some s' ∧ Inv L s' ∧ (s'.thread t).pc.rank < (s.thread t).pc.rank := by
  have hpoint := hI.points t
  rw [hpc] at hpoint ⊢
  obtain ⟨c, h⟩ := hpoint
  by_cases hi : i < 10
  · obtain ⟨ins, cpu, m', hn, hmem, hnext⟩ := h.next hi
    refine ⟨_, instr_next hpc hn, hI.advance (fun x hx => ⟨fun y hy => ?_, fun y hy => ?_⟩) ⟨c, hnext⟩,
      ?_⟩
    · rw [L.only_context (hmem x hx) hy]
      exact .inl h.frame.on
    · rw [L.context_inj hy (hmem x hx)]
      exact h.unsaved
    · simp only [Function.update_self, Thread.advance_pc, Pc.rank]
      omega
  · obtain rfl : i = 10 := le_antisymm h.le (by omega)
    refine ⟨_, instr_ret hpc rfl, ?_, by rw [returned_pc]; exact Nat.zero_lt_one⟩
    have hrec : (s.returned t .contextSave).saved = Function.update s.saved c
        (some ⟨(s.thread t).back, (s.thread t).cpu.reg .rsp + 8,
          some ((s.thread t).cpu.set .rsp ((s.thread t).cpu.reg .rsp + 8)).reg⟩) := by
      simp only [State.returned, Thread.record, h.frame.on, h.frame.back, Cpu.set_self]
    exact hI.recorded nofun h.frame.on (.inl h.frame.on) h.stored hrec

theorem Inv.restore (hI : Inv L s) (hpc : (s.thread t).pc = .inside .contextRestore i) :
    ∃ s', s.instr t = some s' ∧ Inv L s' ∧ (s'.thread t).pc.rank < (s.thread t).pc.rank := by
  have hpoint := hI.points t
  rw [hpc] at hpoint ⊢
  obtain ⟨d, sn, h⟩ := hpoint
  have hst := hI.stored h.saved
  by_cases hi : i < 10
  · obtain ⟨ins, cpu, m', hn, hmem, hnext⟩ := h.next hst hi
    refine ⟨_, instr_next hpc hn, hI.advance (fun x hx => ⟨fun y hy => ?_, fun y hy => ?_⟩)
      ⟨d, sn, hnext⟩, ?_⟩
    · rw [L.only_stack (hst.slot (hmem x hx)) hy]
      exact .inr h.target
    · exact absurd (hst.slot (hmem x hx)) (L.apart hy)
    · simp only [Function.update_self, Thread.advance_pc, Pc.rank]
      omega
  · obtain rfl : i = 10 := le_antisymm h.le (by omega)
    refine ⟨_, instr_ret hpc rfl, ?_, by rw [returned_pc]; exact Nat.zero_lt_one⟩
    refine hI.moved (fun x hx => absurd rfl hx) (fun y hy => absurd rfl hy) ?_ hI.stored
      ⟨d, h.target, rfl, rfl⟩
    rintro y (hy | hy)
    · exact hI.free (.inr hy)
    · cases hy

/-- An instruction of `context_cmpxchg_restore` goes on, jumps to `context_restore` or returns. -/
theorem InCmpxchg.instr (h : InCmpxchg L s.mem s.saved (s.thread t) i d sn)
    (hpc : (s.thread t).pc = .inside .contextCmpxchgRestore i) :
    (∃ ins cpu m', s.instr t = some ⟨m', Function.update s.thread t ((s.thread t).advance s.mem ins cpu
          (.inside .contextCmpxchgRestore (i + 1))), s.saved⟩ ∧
        (∀ x, m' x ≠ s.mem x → L.Outside x) ∧
        InCmpxchg L m' s.saved ((s.thread t).advance s.mem ins cpu
          (.inside .contextCmpxchgRestore (i + 1))) (i + 1) d sn) ∨
      (i = 2 ∧ s.instr t = some ⟨s.mem, Function.update s.thread t ((s.thread t).advance s.mem
          (.jz .contextRestore) (s.thread t).cpu (.inside .contextRestore 0)), s.saved⟩ ∧
        InRestore L s.mem s.saved ((s.thread t).advance s.mem (.jz .contextRestore) (s.thread t).cpu
          (.inside .contextRestore 0)) 0 d sn) ∨
      i = 3 ∧ s.instr t = some (s.returned t .contextCmpxchgRestore) := by
  by_cases h3 : i = 3
  · subst h3
    exact .inr (.inr ⟨rfl, instr_ret hpc rfl⟩)
  · have h2 : i ≤ 2 := by have := h.le; omega
    by_cases hzf : i = 2 ∧ (s.thread t).cpu.zf = true
    · obtain ⟨rfl, hzf⟩ := hzf
      refine .inr (.inl ⟨rfl, ?_, h.jump hzf⟩)
      rw [instr_jz hpc rfl, hzf]
      rfl
    · have hzf' : i = 2 → (s.thread t).cpu.zf = false := fun hi =>
        Bool.eq_false_iff.2 fun h' => hzf ⟨hi, h'⟩
      obtain ⟨ins, cpu, m', hn, hmem, hnext⟩ := h.next h2 hzf'
      exact .inl ⟨ins, cpu, m', instr_next hpc hn, hmem, hnext⟩

theorem Inv.cmpxchg (hI : Inv L s) (hpc : (s.thread t).pc = .inside .contextCmpxchgRestore i) :
    ∃ s', s.instr t = some s' ∧ Inv L s' ∧ (s'.thread t).pc.rank < (s.thread t).pc.rank := by
  have hpoint := hI.points t
  rw [hpc] at hpoint ⊢
  obtain ⟨d, sn, h⟩ := hpoint
  have hle := h.le
  rcases h.instr hpc with ⟨ins, cpu, m', hinstr, hmem, hnext⟩ | ⟨rfl, hinstr, hrestore⟩ | ⟨rfl, hinstr⟩
  · refine ⟨_, hinstr, hI.advance (fun x hx => ⟨fun y hy => ?_, fun y hy => ?_⟩) ⟨d, sn, hnext⟩, ?_⟩
    · rcases hy with hy | hy
      · exact absurd hy (hmem x hx y).1
      · exact absurd hy (hmem x hx y).2
    · exact absurd hy (hmem x hx y).1
    · simp only [Function.update_self, Thread.advance_pc, Pc.rank]
      omega
  · refine ⟨_, hinstr, hI.advance (fun x hx => absurd rfl hx) ⟨d, sn, hrestore⟩, ?_⟩
    simp only [Function.update_self, Thread.advance_pc, Pc.rank]
    omega
  · obtain ⟨c, hf, -, -⟩ := h.framed (.inl (by omega))
    refine ⟨_, hinstr, ?_, by rw [returned_pc]; exact Nat.zero_lt_succ _⟩
    refine hI.moved (fun x hx => absurd rfl hx) (fun y hy => absurd rfl hy) ?_ hI.stored
      ⟨c, hf.on, rfl, rfl⟩
    rintro y (hy | hy)
    · exact hI.free (.inl hy)
    · cases hy

/-- An instruction of a thread that is inside. -/
theorem Inv.inside (hI : Inv L s) (hpc : (s.thread t).pc = .inside f i) :
    ∃ s', s.instr t = some s' ∧ Inv L s' ∧ (s'.thread t).pc.rank < (s.thread t).pc.rank := by
  cases f with
  | contextCreate => exact hI.create hpc
  | contextSave => exact hI.save hpc
  | contextRestore => exact hI.restore hpc
  | contextCmpxchgRestore => exact hI.cmpxchg hpc

/-! ## Runs -/

theorem Inv.step (hI : Inv L s) (h : Step L s s') : Inv L s' := by
  cases h with
  | other hpc hon hmem => exact hI.other hpc hon hmem
  | call back h => exact hI.call h
  | @instr t s' h =>
    rcases hpc : (s.thread t).pc with rip | ⟨f, i⟩
    · simp only [State.instr, hpc] at h
      cases h
    · obtain ⟨s₁, h₁, hI₁, -⟩ := hI.inside hpc
      cases Option.some.inj (h.symm.trans h₁)
      exact hI₁

/-- **The invariant of runs.** -/
theorem Reach.inv (hinit : Initial s₀) (h : Reach L s₀ s) : Inv L s := by
  induction h with
  | refl => exact .init hinit
  | tail _ hstep ih => exact ih.step hstep

/-! ## What the instructions do -/

/-- The registers after a return are those of the caller. -/
def Thread.Intact (th th' : Thread κ) : Prop :=
  (∀ r ∈ calleeSaved, r ≠ .rsp → th'.cpu.reg r = th.entry.reg r) ∧
    th'.cpu.reg .rsp = th.entry.reg .rsp + 8 ∧ th'.pc = .out th.back

/-- What the instruction of the thread `t` that takes `s` to `s'` does. -/
structure InstrSound (L : Layout κ) (s s' : State τ κ) (t : τ) : Prop where
  /-- `context_save` returns 0 to its caller, and the record is of the registers there -/
  saves : (s.thread t).pc = .inside .contextSave 10 → ∃ c, (s.thread t).on = some c ∧
    (s.thread t).Intact (s'.thread t) ∧ (s'.thread t).cpu.reg .rax = 0 ∧
    s'.saved c = some ⟨(s.thread t).back, (s'.thread t).cpu.reg .rsp, some (s'.thread t).cpu.reg⟩
  /-- `_context_create` records the function and the stack that it is given -/
  creates : (s.thread t).pc = .inside .contextCreate 4 → ∃ d, (s.thread t).target = some d ∧
    (s.thread t).Intact (s'.thread t) ∧
    s'.saved d = some ⟨(s.thread t).entry.reg .rsi, (s.thread t).entry.reg .rdx - 8, none⟩
  /-- a restored context goes on as recorded, with 1 -/
  resumes : (s.thread t).pc = .inside .contextRestore 10 → ∃ d sn, (s.thread t).target = some d ∧
    s.saved d = some sn ∧ (s'.thread t).on = some d ∧ (s'.thread t).pc = .out sn.pc ∧
    (s'.thread t).cpu.reg .rax = 1 ∧ (s'.thread t).cpu.reg .rsp = sn.rsp ∧
    ∀ regs, sn.regs = some regs →
      ∀ r ∈ calleeSaved, r ≠ .rsp → (s'.thread t).cpu.reg r = regs r
  /-- a switch leaves the stacks alone, from the stack pointer that is resumed on -/
  keeps : ∀ {f i d sn}, (s.thread t).pc = .inside f i →
    f = .contextRestore ∨ f = .contextCmpxchgRestore → (s.thread t).target = some d →
    s.saved d = some sn → ∀ e x, x ∈ L.stackBytes e → (e = d → sn.rsp.toNat ≤ x.toNat) →
    s'.mem x = s.mem x
  /-- the `cmpxchg` stores the new value and gives the coroutine up, or it does nothing -/
  swaps : (s.thread t).pc = .inside .contextCmpxchgRestore 1 →
    (s'.thread t).found = load s.mem ((s.thread t).entry.reg .rsi) 4 ∧
    if (s'.thread t).found = (s.thread t).entry.low .rdx then
      s'.mem = store (n := 4) s.mem ((s.thread t).entry.reg .rsi) ((s.thread t).entry.low .rcx) ∧
        (s'.thread t).on = none ∧ (s'.thread t).left = (s.thread t).on
    else s'.mem = s.mem ∧ (s'.thread t).on = (s.thread t).on
  /-- the other instructions of its function write nothing -/
  quiet : ∀ {i}, (s.thread t).pc = .inside .contextCmpxchgRestore i → i ≠ 1 → s'.mem = s.mem
  /-- on a mismatch the function returns the value that it has found -/
  misses : (s.thread t).pc = .inside .contextCmpxchgRestore 3 →
    (s.thread t).found ≠ (s.thread t).entry.low .rdx ∧ (s.thread t).Intact (s'.thread t) ∧
      (s'.thread t).on = (s.thread t).on ∧
      (s'.thread t).cpu.reg .rax = (s.thread t).found.setWidth 64
  /-- the stack of a coroutine that the thread has left for another is not touched -/
  untouched : ∀ {f i ins c}, (s.thread t).pc = .inside f i → (code f)[i]? = some ins →
    (s.thread t).left = some c → (s.thread t).target ≠ some c →
    ∀ x ∈ ins.touches (s.thread t).cpu, x ∉ L.stackBytes c
  /-- whatever it holds, the instruction does the same and leaves it as it is -/
  undisturbed : ∀ {f i ins c}, (s.thread t).pc = .inside f i → (code f)[i]? = some ins →
    (s.thread t).left = some c → (s.thread t).target ≠ some c →
    ∀ m : Mem, (∀ x, x ∉ L.stackBytes c → m x = s.mem x) →
      (exec (s.thread t).cpu m ins).1 = (exec (s.thread t).cpu s.mem ins).1 ∧
      (exec (s.thread t).cpu m ins).2.2 = (exec (s.thread t).cpu s.mem ins).2.2 ∧
      ∀ x ∈ L.stackBytes c, (exec (s.thread t).cpu m ins).2.1 x = m x

/-- A function that has kept its frame returns to its caller. -/
theorem Framed.intact (h : Framed L s.mem (s.thread t) c) (f : Fn) :
    (s.thread t).Intact ((s.returned t f).thread t) := by
  simp only [State.returned, Function.update_self]
  refine ⟨fun r hr hne => (Cpu.set_ne _ hne).trans (h.regs r hr), ?_, ?_⟩
  · show ((s.thread t).cpu.set .rsp _).reg .rsp = _
    rw [Cpu.set_self, h.regs .rsp (by decide)]
  · show Pc.out (load s.mem _ 8) = _
    rw [h.back]

section

variable (hI : Inv L s)

include hI

/-- The bytes that an instruction of a switch changes are below the stack pointer that is resumed, or
on no stack. -/
theorem Inv.switch_keeps (hpc : (s.thread t).pc = .inside f i)
    (hf : f = .contextRestore ∨ f = .contextCmpxchgRestore) (hd : (s.thread t).target = some d)
    (hsn : s.saved d = some sn) (h : s.instr t = some s') {e : κ} {x : Addr} (hx : x ∈ L.stackBytes e)
    (hle : e = d → sn.rsp.toNat ≤ x.toNat) : s'.mem x = s.mem x := by
  have hpoint := hI.points t
  rw [hpc] at hpoint
  rcases hf with rfl | rfl
  · obtain ⟨d', sn', hr⟩ := hpoint
    cases Option.some.inj (hd.symm.trans hr.target)
    cases Option.some.inj (hsn.symm.trans hr.saved)
    by_cases hi : i < 10
    · obtain ⟨ins, cpu, m', hn, hmem, -⟩ := hr.next (hI.stored hsn) hi
      cases Option.some.inj (h.symm.trans (instr_next hpc hn))
      by_contra hne
      have hslot := (hI.stored hsn).slot
      have hlt := below_resumed hslot (hmem x hne)
      have := hle (L.stack_inj hx (hslot (hmem x hne)))
      omega
    · obtain rfl : i = 10 := le_antisymm hr.le (by omega)
      cases Option.some.inj (h.symm.trans (instr_ret hpc rfl))
      rfl
  · obtain ⟨d', sn', hc⟩ := hpoint
    rcases hc.instr hpc with ⟨ins, cpu, m', hinstr, hmem, -⟩ | ⟨-, hinstr, -⟩ | ⟨-, hinstr⟩
    · cases Option.some.inj (h.symm.trans hinstr)
      by_contra hne
      exact (hmem x hne e).2 hx
    · cases Option.some.inj (h.symm.trans hinstr)
      rfl
    · cases Option.some.inj (h.symm.trans hinstr)
      rfl

theorem Inv.resumes (hpc : (s.thread t).pc = .inside .contextRestore 10) (h : s.instr t = some s') :
    ∃ d sn, (s.thread t).target = some d ∧ s.saved d = some sn ∧ (s'.thread t).on = some d ∧
      (s'.thread t).pc = .out sn.pc ∧ (s'.thread t).cpu.reg .rax = 1 ∧
      (s'.thread t).cpu.reg .rsp = sn.rsp ∧ ∀ regs, sn.regs = some regs →
        ∀ r ∈ calleeSaved, r ≠ .rsp → (s'.thread t).cpu.reg r = regs r := by
  have hpoint := hI.points t
  rw [hpc] at hpoint
  obtain ⟨d, sn, hr⟩ := hpoint
  have hrsp := hr.rsp (by omega)
  cases Option.some.inj (h.symm.trans (instr_ret hpc rfl))
  refine ⟨d, sn, hr.target, hr.saved, ?_⟩
  simp only [State.returned, Function.update_self]
  refine ⟨hr.target, ?_, hr.one rfl, ?_, fun regs hregs r hmem hne => ?_⟩
  · show Pc.out (load s.mem _ 8) = _
    rw [hrsp, hr.pc (by omega)]
  · show ((s.thread t).cpu.set .rsp _).reg .rsp = _
    rw [Cpu.set_self, hrsp, BitVec.sub_add_cancel]
  · obtain ⟨j, hj, rfl⟩ := exists_slotReg hmem
    refine (Cpu.set_ne _ hne).trans (hr.regs hj (by omega) ?_)
    simp only [Snapshot.word, if_neg hne, hregs, Option.map_some]

theorem Inv.swaps (hpc : (s.thread t).pc = .inside .contextCmpxchgRestore 1)
    (h : s.instr t = some s') :
    (s'.thread t).found = load s.mem ((s.thread t).entry.reg .rsi) 4 ∧
      if (s'.thread t).found = (s.thread t).entry.low .rdx then
        s'.mem = store (n := 4) s.mem ((s.thread t).entry.reg .rsi) ((s.thread t).entry.low .rcx) ∧
          (s'.thread t).on = none ∧ (s'.thread t).left = (s.thread t).on
      else s'.mem = s.mem ∧ (s'.thread t).on = (s.thread t).on := by
  have hpoint := hI.points t
  rw [hpc] at hpoint
  obtain ⟨d, sn, hc⟩ := hpoint
  have hea : (s.thread t).cpu.ea 0 .rsi = (s.thread t).entry.reg .rsi := (ea_zero _ _).trans hc.rsi
  have hswap := hc.swap
  split at hswap
  · next heq =>
    cases Option.some.inj (h.symm.trans (instr_next hpc ⟨rfl, hswap⟩))
    simp [Thread.advance, hea, heq]
  · next hne =>
    cases Option.some.inj (h.symm.trans (instr_next hpc ⟨rfl, hswap⟩))
    simp [Thread.advance, hea, hne]

theorem Inv.quiet (hpc : (s.thread t).pc = .inside .contextCmpxchgRestore i) (hi : i ≠ 1)
    (h : s.instr t = some s') : s'.mem = s.mem := by
  have hpoint := hI.points t
  rw [hpc] at hpoint
  obtain ⟨d, sn, hc⟩ := hpoint
  have hle := hc.le
  obtain rfl | rfl | rfl : i = 0 ∨ i = 2 ∨ i = 3 := by omega
  · cases Option.some.inj (h.symm.trans (instr_next hpc ⟨rfl, rfl⟩))
    rfl
  · cases Option.some.inj (h.symm.trans (instr_jz hpc rfl))
    rfl
  · cases Option.some.inj (h.symm.trans (instr_ret hpc rfl))
    rfl

omit [DecidableEq τ] [DecidableEq κ] in
/-- A thread that has left a coroutine reads contexts and the stack that it switches to. -/
theorem Inv.untouched {ins : Instr Fn} (hpc : (s.thread t).pc = .inside f i)
    (hins : (code f)[i]? = some ins) (hleft : (s.thread t).left = some c)
    (hne : (s.thread t).target ≠ some c) {x : Addr} (hx : x ∈ ins.touches (s.thread t).cpu) :
    x ∉ L.stackBytes c := by
  have hpoint := hI.points t
  rw [hpc] at hpoint
  cases f with
  | contextCreate =>
    obtain ⟨c', d, h⟩ := hpoint
    rw [h.left] at hleft
    cases hleft
  | contextSave =>
    obtain ⟨c', h⟩ := hpoint
    rw [h.left] at hleft
    cases hleft
  | contextCmpxchgRestore =>
    obtain ⟨d, sn, h⟩ := hpoint
    rcases h.state with ⟨c', -, hnone, -⟩ | ⟨rfl, -, -⟩
    · rw [hnone] at hleft
      cases hleft
    · -- the jump has no operand
      cases hins
      exact absurd hx (Nat.not_lt_zero _)
  | contextRestore =>
    obtain ⟨d, sn, h⟩ := hpoint
    have hle := h.le
    have hword : ∀ {j}, j < 8 → x ∈ range (L.word d j) 8 → x ∉ L.stackBytes c := fun hj hx =>
      L.apart (word_subset hj hx)
    have hslot : x ∈ range (sn.rsp - 8) 8 → x ∉ L.stackBytes c := by
      intro hx hc
      obtain rfl := L.stack_inj ((hI.stored h.saved).slot hx) hc
      exact hne h.target
    by_cases h7 : i < 7
    · rw [code_restore h7] at hins
      cases hins
      refine hword (j := i) (by omega) ?_
      rw [← ea_word h.rdi]
      exact hx
    · obtain rfl | rfl | rfl | rfl : i = 7 ∨ i = 8 ∨ i = 9 ∨ i = 10 := by omega
      · cases hins
        refine hword (j := 7) (by omega) ?_
        rw [← ea_word h.rdi]
        exact hx
      · cases hins
        refine hslot ?_
        rw [← h.rsp (by omega), ← ea_zero]
        exact hx
      · cases hins
        exact absurd hx (Nat.not_lt_zero _)
      · cases hins
        refine hslot ?_
        rw [← h.rsp (by omega)]
        exact hx

/-- What the instructions of a thread do. -/
theorem Inv.instrSound (h : s.instr t = some s') : InstrSound L s s' t where
  saves := by
    intro hpc
    have hpoint := hI.points t
    rw [hpc] at hpoint
    obtain ⟨c, hs⟩ := hpoint
    cases Option.some.inj (h.symm.trans (instr_ret hpc rfl))
    refine ⟨c, hs.frame.on, hs.frame.intact _, ?_, ?_⟩
    · simp only [State.returned, Function.update_self]
      exact hs.zero rfl
    · simp only [State.returned, Thread.record, hs.frame.on, hs.frame.back, Function.update_self]
      rfl
  creates := by
    intro hpc
    have hpoint := hI.points t
    rw [hpc] at hpoint
    obtain ⟨c, d, hc⟩ := hpoint
    cases Option.some.inj (h.symm.trans (instr_ret hpc rfl))
    refine ⟨d, hc.target, hc.frame.intact _, ?_⟩
    simp only [State.returned, Thread.record, hc.target, Function.update_self]
  resumes hpc := hI.resumes hpc h
  keeps hpc hf hd hsn _ _ hx hle := hI.switch_keeps hpc hf hd hsn h hx hle
  swaps hpc := hI.swaps hpc h
  quiet hpc hi := hI.quiet hpc hi h
  misses := by
    intro hpc
    have hpoint := hI.points t
    rw [hpc] at hpoint
    obtain ⟨d, sn, hc⟩ := hpoint
    obtain ⟨c, hf, -, hmissed⟩ := hc.framed (.inl (by omega))
    obtain ⟨-, hne, hrax⟩ := hmissed (by omega)
    cases Option.some.inj (h.symm.trans (instr_ret hpc rfl))
    refine ⟨hne, hf.intact _, ?_, ?_⟩
    · simp only [State.returned, Function.update_self]
      rfl
    · simp only [State.returned, Function.update_self]
      exact hrax
  untouched hpc hins hleft hne _ hx := hI.untouched hpc hins hleft hne hx
  undisturbed := by
    intro f i ins c hpc hins hleft hne m hm
    have hnot : ∀ x ∈ ins.touches (s.thread t).cpu, x ∉ L.stackBytes c := fun x hx =>
      hI.untouched hpc hins hleft hne hx
    obtain ⟨hcpu, hflow⟩ := exec_congr (s.thread t).cpu ins fun x hx => hm x (hnot x hx)
    exact ⟨hcpu, hflow, fun x hx => exec_frame _ _ _ fun hx' => hnot x hx' hx⟩

end

end Lwthread.Arch
