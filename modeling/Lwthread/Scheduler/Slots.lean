import Lwthread.Scheduler.EventLoop
import Mathlib.Data.Finset.Card

/-!
# Slots of `sched_new_coroutine`

`sched_new_coroutine` starts a thread for the new coroutine as long as there is a free slot of
`local_schedulers`. It looks at `local_count` first and takes a slot by an atomic increment after
that, so callers that have looked and not yet incremented may push the count past `local_size`. Each
of them executes on a thread of its own, and there are no more threads than slots: the count stays
below twice `local_size` and does not wrap, and every slot is taken once (`slots_exclusive`).

`SlotLog` notes along a run what its steps do to the state: the coroutines made, the slots that the
increments return, the entries of `local_schedulers` that change, and the run lists that change within
a call of `sched_new_coroutine`.
-/

namespace Lwthread.Scheduler

open Lwthread.Util Lwthread.Platform Custody

variable {s s' : SeqState} {t : Tid} {l : LocalSched Unit} {c d : Cid} {i : Input} {a : Act}

/-! ## The points of `sched_new_coroutine` -/

/-- The points of `sched_new_coroutine` before its enqueue, with the new coroutine. -/
inductive Phase where
  | load (x : Cid)
  | add (x : Cid)
  | make (x : Cid) (slot : Nat)
  | place (x : Cid) (sched : Tid)
  | fast (x : Cid)
  | push (x : Cid)

@[simp] def Phase.coro : Phase → Cid
  | .load x => x
  | .add x => x
  | .make x _ => x
  | .place x _ => x
  | .fast x => x
  | .push x => x

@[simp] def Pc.phase : Pc Unit Unit → Option Phase
  | .newLoad x => some (.load x)
  | .newFetchAdd x => some (.add x)
  | .newLocal x slot => some (.make x slot)
  | .newEnqueue x u _ => some (.place x u)
  | .scheduleXchg x .newCoroutine => some (.fast x)
  | .scheduleEnqueue x _ .newCoroutine => some (.push x)
  | _ => none

/-! ## What is noted along a run -/

/-- A change of a run list by a call of `sched_new_coroutine`: the new coroutine, the thread of the
caller, the thread of the run list, what the list held before and holds after, and whether its thread
had been started. -/
structure Enqueue where
  coro : Cid
  caller : Tid
  sched : Tid
  before : List Cid
  after : List Cid
  started : Bool

/-- The calls of `sched_new_coroutine` in a run, the latest first: the coroutines made, the slots that
the increments returned, the entries of `local_schedulers` that changed, and the changes of run lists. -/
structure SlotLog where
  created : List Cid
  obtained : List Nat
  written : List Nat
  enqueued : List Enqueue

def State.isStarted {Q ι δ : Type} (s : State Q ι δ) (t : Tid) : Bool := (s.sched t).any (·.started)

/-- The entries of `local_schedulers` that are not the same in `s'`. -/
def State.rewritten (s s' : SeqState) : List Nat :=
  (List.range s.localSize).filter fun slot => s'.localSchedulers slot ≠ s.localSchedulers slot

/-- The threads whose run lists are not the same in `s'`. -/
def State.requeued (s s' : SeqState) : List Tid :=
  (List.range s'.locals).filter fun u => s'.queues.list u ≠ s.queues.list u

/-- The step is a call of `sched_new_coroutine`. -/
def Pc.makes (i : Input) : Pc Unit Unit → Bool
  | .user =>
    match i with
    | .op .newCoroutine => true
    | _ => false
  | _ => false

/-- Note what a step of thread `t` from `s` to `s'` has done. -/
def SlotLog.note (s s' : SeqState) (t : Tid) (i : Input) (pc : Pc Unit Unit) (log : SlotLog) :
    SlotLog where
  created := if pc.makes i then s.coros :: log.created else log.created
  obtained := if s'.localCount = s.localCount then log.obtained else s.localCount :: log.obtained
  written := s.rewritten s' ++ log.written
  enqueued :=
    match pc.phase with
    | none => log.enqueued
    | some p => (s.requeued s').map
        (fun u => ⟨p.coro, t, u, s.queues.list u, s'.queues.list u, s.isStarted u⟩) ++ log.enqueued

/-- Note an action. -/
def noteSlots (s : SeqState) (a : Act) (log : SlotLog) : SlotLog :=
  match a, step seqOps false s a with
  | .tick t i, some s' =>
    match s.running t with
    | some (_, pc) => log.note s s' t i pc
    | none => log
  | _, _ => log

theorem noteSlots_of_running {log : SlotLog} {pc : Pc Unit Unit}
    (hs : step seqOps false s (.tick t i) = some s') (hr : s.running t = some (c, pc)) :
    noteSlots s (.tick t i) log = log.note s s' t i pc := by
  simp only [noteSlots, hs, hr]

theorem noteSlots_of_death {log : SlotLog} (hs : step seqOps false s (.tick t i) = some s')
    (hr : s.running t = none) : noteSlots s (.tick t i) log = log := by
  simp only [noteSlots, hs, hr]

/-- A list that is the same everywhere but for one entry. -/
theorem filter_range_update {α : Type} [DecidableEq α] {f : Nat → α} {n k : Nat} {x : α} (hk : k < n)
    (hx : x ≠ f k) : (List.range n).filter (fun m => Function.update f k x m ≠ f m) = [k] := by
  have hcongr : ∀ m ∈ List.range n, decide (Function.update f k x m ≠ f m) = (m == k) := by
    intro m _
    by_cases hm : m = k
    · subst hm
      simp [hx]
    · simp [hm]
  rw [List.filter_congr hcongr, List.filter_beq,
    List.count_eq_one_of_mem List.nodup_range (List.mem_range.2 hk), List.replicate_one]

theorem rewritten_same (h : s'.localSchedulers = s.localSchedulers) : s.rewritten s' = [] := by
  unfold State.rewritten
  rw [h]
  simp

theorem requeued_same (h : s'.queues.list = s.queues.list) : s.requeued s' = [] := by
  unfold State.requeued
  rw [h]
  simp

/-- A step that is no call, no increment and no write, and does not change the run lists within a call
of `sched_new_coroutine`. -/
theorem SlotLog.note_quiet {log : SlotLog} {pc : Pc Unit Unit} (hmakes : pc.makes i = false)
    (hcount : s'.localCount = s.localCount) (hslots : s'.localSchedulers = s.localSchedulers)
    (hq : pc.phase = none ∨ s'.queues.list = s.queues.list) : log.note s s' t i pc = log := by
  unfold SlotLog.note
  rw [hmakes, if_pos hcount, rewritten_same hslots]
  rcases hq with hq | hq
  · rw [hq]
    rfl
  · rw [requeued_same hq]
    cases log
    cases pc.phase <;> rfl

/-- What a step of the code of `c` does to the slots, and what is noted. -/
inductive SlotStep (s s' : SeqState) (t : Tid) (c : Cid) (log : SlotLog) : SlotLog → Prop
  | quiet (hpc : (s'.context c).pc.phase = (s.context c).pc.phase)
      (hcount : s'.localCount = s.localCount) (hlocals : s'.locals = s.locals)
      (hslots : s'.localSchedulers = s.localSchedulers) : SlotStep s s' t c log log
  | create (hpc : (s.context c).pc.phase = none)
      (hpc' : (s'.context c).pc.phase = some (.load s.coros))
      (hcoros : s'.coros = s.coros + 1) (hsched : s'.sched = s.sched)
      (hcount : s'.localCount = s.localCount) (hlocals : s'.locals = s.locals)
      (hslots : s'.localSchedulers = s.localSchedulers) :
      SlotStep s s' t c log { log with created := s.coros :: log.created }
  | full {x} (hpc : (s.context c).pc.phase = some (.load x))
      (hpc' : (s'.context c).pc.phase = some (.fast x)) (hcount : s'.localCount = s.localCount)
      (hlocals : s'.locals = s.locals) (hslots : s'.localSchedulers = s.localSchedulers) :
      SlotStep s s' t c log log
  | room {x} (hpc : (s.context c).pc.phase = some (.load x))
      (hpc' : (s'.context c).pc.phase = some (.add x)) (hlt : s.localCount < s.localSize)
      (hcount : s'.localCount = s.localCount) (hlocals : s'.locals = s.locals)
      (hslots : s'.localSchedulers = s.localSchedulers) : SlotStep s s' t c log log
  | add {x} (hpc : (s.context c).pc.phase = some (.add x))
      (hpc' : (s'.context c).pc.phase =
        some (if s.localCount ≥ s.localSize then .fast x else .make x s.localCount))
      (hcount : s'.localCount = (s.localCount + 1) % 2 ^ 32) (hlocals : s'.locals = s.locals)
      (hslots : s'.localSchedulers = s.localSchedulers) :
      SlotStep s s' t c log { log with obtained := s.localCount :: log.obtained }
  | make {x slot} (hpc : (s.context c).pc.phase = some (.make x slot))
      (hpc' : (s'.context c).pc.phase = some (.place x s.locals))
      (hlist : s'.queues.list s.locals = []) (hcount : s'.localCount = s.localCount)
      (hlocals : s'.locals = s.locals + 1)
      (hslots : s'.localSchedulers = Function.update s.localSchedulers slot (some s.locals)) :
      SlotStep s s' t c log { log with written := s.rewritten s' ++ log.written }
  | wake {x} (hpc : (s.context c).pc.phase = some (.fast x))
      (hpc' : (s'.context c).pc.phase = some (.push x)) (hcount : s'.localCount = s.localCount)
      (hlocals : s'.locals = s.locals) (hslots : s'.localSchedulers = s.localSchedulers) :
      SlotStep s s' t c log log
  | place {x u} (hpc : (s.context c).pc.phase = some (.place x u))
      (hpc' : (s'.context c).pc.phase = none) (hcount : s'.localCount = s.localCount)
      (hlocals : s'.locals = s.locals) (hslots : s'.localSchedulers = s.localSchedulers) :
      SlotStep s s' t c log
        { log with enqueued :=
            ⟨x, t, u, s.queues.list u, s.queues.list u ++ [x], s.isStarted u⟩ :: log.enqueued }
  | push {x} (hpc : (s.context c).pc.phase = some (.push x))
      (hpc' : (s'.context c).pc.phase = none) (hcount : s'.localCount = s.localCount)
      (hlocals : s'.locals = s.locals) (hslots : s'.localSchedulers = s.localSchedulers) :
      SlotStep s s' t c log
        { log with enqueued :=
            ⟨x, t, t, s.queues.list t, s.queues.list t ++ [x], s.isStarted t⟩ :: log.enqueued }

theorem SlotStep.of_note {log log' : SlotLog} {pc : Pc Unit Unit} (hn : log.note s s' t i pc = log')
    (h : SlotStep s s' t c log log') : SlotStep s s' t c log (log.note s s' t i pc) :=
  hn ▸ h

/-- The push of a new coroutine, as it is noted. -/
theorem SlotLog.note_push {log : SlotLog} {pc : Pc Unit Unit} {p : Phase} {u : Tid}
    (hmakes : pc.makes i = false) (hphase : pc.phase = some p)
    (hcount : s'.localCount = s.localCount) (hslots : s'.localSchedulers = s.localSchedulers)
    (hlist : s'.queues.list = Function.update s.queues.list u (s.queues.list u ++ [p.coro]))
    (hu : u < s'.locals) :
    log.note s s' t i pc = { log with enqueued :=
      ⟨p.coro, t, u, s.queues.list u, s.queues.list u ++ [p.coro], s.isStarted u⟩ :: log.enqueued } := by
  have hrequeued : s.requeued s' = [u] := by
    unfold State.requeued
    rw [hlist]
    exact filter_range_update hu (by simp)
  unfold SlotLog.note
  rw [hmakes, if_pos hcount, rewritten_same hslots, hphase, hrequeued, hlist]
  simp

section

variable {log : SlotLog} (hI : Inv false s) (hl : s.sched t = some l)

include hI

/-- A scheduler that is there has been allocated. -/
theorem Inv.lt_locals {u : Tid} {lu : LocalSched Unit} (hlu : s.sched u = some lu) : u < s.locals := by
  refine lt_of_not_ge fun hge => ?_
  rw [(hI.control.vacant hge).1] at hlu
  cases hlu

include hl

theorem Stride.slotStep (h : Stride seqOps false s t l c i (s.context c).pc s') :
    SlotStep s s' t c log (log.note s s' t i (s.context c).pc) := by
  have hmade : ∀ {x}, x ∈ (s.context c).pc.fresh → s.word x = some (STATE_BLOCKED, some .user) :=
    fun hx => hI.kept.made (p := c) hx
  have hstarts : ∀ {u}, (s.context c).pc.starts = some u → u < s.locals := fun hu => by
    obtain ⟨lu, -, hlu, -⟩ := hI.control.starts hu
    exact hI.lt_locals hlu
  generalize hpc : (s.context c).pc = pc at h hmade hstarts
  -- a step that moves `c` to another point of the same phase, and that nothing is noted of
  have hquiet : ∀ {s₀ : SeqState} {pc' : Pc Unit Unit}, s' = s₀.goto c pc' → pc.makes i = false →
      pc'.phase = pc.phase → s₀.localCount = s.localCount → s₀.locals = s.locals →
      s₀.localSchedulers = s.localSchedulers →
      pc.phase = none ∨ s₀.queues.list = s.queues.list →
      SlotStep s s' t c log (log.note s s' t i pc) := by
    rintro s₀ pc' rfl hmakes hphase hcount hlocals hslots hq
    refine .of_note (SlotLog.note_quiet hmakes hcount hslots hq) ?_
    exact .quiet (by rw [State.goto_pc, hpc]; exact hphase) hcount hlocals hslots
  have hto : ∀ {s₀ : SeqState} {pc' : Pc Unit Unit}, ((s₀.goto c pc').context c).pc.phase = pc'.phase :=
    by intro s₀ pc'; rw [State.goto_pc]
  cases h with
  | @resched r ret s₁ r' hy =>
    have hs₁ : s₁.localCount = s.localCount ∧ s₁.locals = s.locals ∧
        s₁.localSchedulers = s.localSchedulers := by
      cases hy <;> exact ⟨rfl, rfl, rfl⟩
    obtain ⟨h1, h2, h3⟩ := hs₁
    cases r' with
    | none => cases ret <;> exact hquiet rfl rfl rfl h1 h2 h3 (.inl rfl)
    | some r' => exact hquiet rfl rfl rfl h1 h2 h3 (.inl rfl)
  | flow hf =>
    cases hf with
    | resched hi => subst hi; exact hquiet rfl rfl rfl rfl rfl rfl (.inl rfl)
    | suspend hi => subst hi; exact hquiet rfl rfl rfl rfl rfl rfl (.inl rfl)
    | schedule hi => subst hi; exact hquiet rfl rfl rfl rfl rfl rfl (.inl rfl)
    | @scheduleAssert x ret => cases ret <;> exact hquiet rfl rfl rfl rfl rfl rfl (.inr rfl)
    | newFull =>
      refine .of_note (SlotLog.note_quiet rfl rfl rfl (.inr rfl)) ?_
      exact .full (by rw [hpc]; rfl) hto rfl rfl rfl
    | newRoom hlt =>
      refine .of_note (SlotLog.note_quiet rfl rfl rfl (.inr rfl)) ?_
      exact .room (by rw [hpc]; rfl) hto hlt rfl rfl rfl
    | timersNone => refine hquiet rfl rfl ?_ rfl rfl rfl (.inl rfl); unfold afterTimers; split <;> rfl
    | _ => exact hquiet rfl rfl rfl rfl rfl rfl (.inr rfl)
  | @trampoline k start => cases start <;> exact hquiet rfl rfl rfl rfl rfl rfl (.inl rfl)
  | setErrno hi =>
    subst hi
    refine .of_note (SlotLog.note_quiet rfl rfl rfl (.inl rfl)) ?_
    exact .quiet (by simp [State.modSched, hpc]) rfl rfl rfl
  | newCoroutine hi =>
    subst hi
    have hnote : ∀ {s₀ : SeqState}, s₀.localCount = s.localCount →
        s₀.localSchedulers = s.localSchedulers → log.note s s₀ t (.op .newCoroutine) .user =
          { log with created := s.coros :: log.created } := by
      intro s₀ hcount hslots
      unfold SlotLog.note
      rw [if_pos hcount, rewritten_same hslots]
      rfl
    refine .of_note (hnote rfl rfl) ?_
    exact .create (by rw [hpc]; rfl) hto rfl rfl rfl rfl rfl
  | wait hi => subst hi; exact hquiet rfl rfl rfl rfl rfl rfl (.inl rfl)
  | eventWait hi => subst hi; exact hquiet rfl rfl rfl rfl rfl rfl (.inl rfl)
  | ret hi =>
    subst hi
    refine .of_note (SlotLog.note_quiet rfl rfl rfl (.inl rfl)) ?_
    exact .quiet (by simp [State.modSched, State.setPreempt, hpc]) rfl rfl rfl
  | suspendPop hq => exact absurd hq seqOps_pop_ne
  | park =>
    refine .of_note (SlotLog.note_quiet rfl rfl rfl (.inl rfl)) ?_
    exact .quiet (by rw [hpc]; simp [State.modSched, State.goto]) rfl rfl rfl
  | suspendPush hq => rw [seqOps_push] at hq; cases hq
  | @suspendUnblock ret => cases ret <;> exact hquiet rfl rfl rfl rfl rfl rfl (.inl rfl)
  | @rouse x ret k hk hb =>
    cases ret with
    | newCoroutine =>
      have hword := hmade (x := x) (by simp)
      rw [State.word_of_coro _ hk] at hword
      exact absurd (congrArg Prod.fst (Option.some.inj hword)) hb
    | _ => exact hquiet rfl rfl rfl rfl rfl rfl (.inl rfl)
  | @wake x ret =>
    cases ret with
    | newCoroutine =>
      refine .of_note (SlotLog.note_quiet rfl rfl rfl (.inr rfl)) ?_
      exact .wake (by rw [hpc]; rfl) hto rfl rfl rfl
    | _ => exact hquiet rfl rfl rfl rfl rfl rfl (.inl rfl)
  | schedulePush hq => rw [seqOps_push] at hq; cases hq
  | @schedulePushed x p ret q hq =>
    cases ret with
    | newCoroutine =>
      rw [seqOps_push] at hq
      cases hq
      refine .of_note (SlotLog.note_push (p := .push x) (u := t) rfl rfl rfl rfl rfl (hI.lt_locals hl)) ?_
      exact .push (by rw [hpc]; rfl) hto rfl rfl rfl
    | _ => exact hquiet rfl rfl rfl rfl rfl rfl (.inl rfl)
  | @fetchAdd x =>
    have hne : (s.localCount + 1) % 2 ^ 32 ≠ s.localCount := by omega
    have hnote : ∀ {s₀ : SeqState}, s₀.localCount = (s.localCount + 1) % 2 ^ 32 →
        s₀.localSchedulers = s.localSchedulers → s₀.queues.list = s.queues.list →
        log.note s s₀ t i (.newFetchAdd x) =
          { log with obtained := s.localCount :: log.obtained } := by
      intro s₀ hcount hslots hq
      unfold SlotLog.note
      rw [if_neg (show ¬s₀.localCount = s.localCount from hcount ▸ hne), rewritten_same hslots,
        requeued_same hq]
      rfl
    refine .of_note (hnote rfl rfl rfl) ?_
    refine .add (by rw [hpc]; rfl) (hto.trans ?_) rfl rfl rfl
    split <;> rfl
  | @newLocal x slot state errno =>
    have hempty : ∀ {s₀ : SeqState}, s₀.queues.list = Function.update s.queues.list s.locals [] →
        s.requeued s₀ = [] := by
      intro s₀ hq
      rw [(hI.control.vacant (le_refl s.locals)).2.symm, Function.update_eq_self] at hq
      exact requeued_same hq
    have hnote : ∀ {s₀ : SeqState}, s₀.localCount = s.localCount →
        s₀.queues.list = Function.update s.queues.list s.locals [] →
        log.note s s₀ t i (.newLocal x slot) = { log with written := s.rewritten s₀ ++ log.written } := by
      intro s₀ hcount hq
      unfold SlotLog.note
      rw [if_pos hcount, hempty hq]
      rfl
    refine .of_note (hnote rfl rfl) ?_
    exact .make (by rw [hpc]; rfl) hto (Function.update_self _ _ _) rfl rfl rfl
  | newPush hq => rw [seqOps_push] at hq; cases hq
  | @newPushed x u p q hq =>
    rw [seqOps_push] at hq
    cases hq
    refine .of_note (SlotLog.note_push (p := .place x u) (u := u) rfl rfl rfl rfl rfl (hstarts rfl)) ?_
    exact .place (by rw [hpc]; rfl) hto rfl rfl rfl
  | eintr =>
    refine .of_note (SlotLog.note_quiet rfl rfl rfl (.inl rfl)) ?_
    exact .quiet rfl rfl rfl rfl
  | timersMin => refine hquiet rfl rfl ?_ rfl rfl rfl (.inl rfl); split <;> rfl
  | timersUnlock =>
    refine hquiet rfl rfl ?_ rfl rfl rfl (.inl rfl)
    unfold afterTimers
    split
    · rfl
    · split <;> rfl
  | _ => exact hquiet rfl rfl rfl rfl rfl rfl (.inl rfl)

end

/-! ## The invariant -/

@[simp] def Pc.adds : Pc Unit Unit → Bool
  | .newFetchAdd _ => true
  | _ => false

/-- The callers that have looked at `local_count` and not incremented it yet. -/
def adders (s : SeqState) : Finset Cid :=
  (Finset.range s.coros).filter fun c => (s.context c).pc.adds = true

/-- Slots are taken once, and there are not too many. -/
structure SlotInv (localSize : Nat) (s : SeqState) (log : SlotLog) : Prop where
  size : s.localSize = localSize
  pos : 1 ≤ s.localCount
  bound : s.localCount < localSize ∨ s.localCount + (adders s).card ≤ 2 * localSize - 1
  obtained : ∀ slot ∈ log.obtained, 1 ≤ slot ∧ slot < s.localCount
  once : log.obtained.Nodup
  pending : ∀ {c x slot}, (s.context c).pc.phase = some (.make x slot) →
    slot ∈ log.obtained ∧ slot ∉ log.written ∧ slot < localSize
  distinct : ∀ {c d x y slot}, (s.context c).pc.phase = some (.make x slot) →
    (s.context d).pc.phase = some (.make y slot) → c = d
  written : ∀ slot ∈ log.written, slot ∈ log.obtained ∧ slot < localSize
  writtenOnce : log.written.Nodup
  locals : s.locals = log.written.length + 1
  schedulers : ∀ slot, s.localSchedulers slot ≠ none ↔ slot = 0 ∨ slot ∈ log.written

/-- Every new coroutine is enqueued once. -/
structure MadeInv (s : SeqState) (log : SlotLog) : Prop where
  runs : ∀ {c p}, (s.context c).pc.phase = some p → ∃ t l, s.sched t = some l ∧ l.exec = .on c
  known : ∀ x ∈ log.created, x < s.coros
  making : ∀ {c p}, (s.context c).pc.phase = some p →
    p.coro ∈ log.created ∧ p.coro ∉ log.enqueued.map (·.coro)
  once : (log.enqueued.map (·.coro)).Nodup
  made : ∀ x ∈ log.enqueued.map (·.coro), x ∈ log.created
  all : ∀ x ∈ log.created, x ∈ log.enqueued.map (·.coro) ∨
    ∃ c p, (s.context c).pc.phase = some p ∧ p.coro = x
  vacant : ∀ {c x u}, (s.context c).pc.phase = some (.place x u) → s.queues.list u = []
  place : ∀ e ∈ log.enqueued, e.after = e.before ++ [e.coro] ∧
    (e.sched = e.caller ∨ e.before = [] ∧ e.started = false)

section

variable {localSize : Nat} {log : SlotLog}

theorem Pc.adds_iff {pc : Pc Unit Unit} : pc.adds = true ↔ ∃ x, pc.phase = some (.add x) := by
  cases pc with
  | scheduleXchg _ ret => cases ret <;> simp
  | scheduleEnqueue _ _ ret => cases ret <;> simp
  | _ => simp

theorem mem_adders (hI : Inv false s) :
    c ∈ adders s ↔ ∃ x, (s.context c).pc.phase = some (.add x) := by
  unfold adders
  rw [Finset.mem_filter, Finset.mem_range, ← Pc.adds_iff]
  refine ⟨fun h => h.2, fun h => ⟨lt_of_not_ge fun hge => ?_, h⟩⟩
  rw [hI.control.blank hge] at h
  cases h

/-- The coroutine that a thread executes, 0 when there is none. -/
def State.execOf (s : SeqState) (t : Tid) : Cid :=
  match s.sched t with
  | some l => match l.exec with
    | .on c => c
    | _ => 0
  | none => 0

/-- Each caller between the load and the increment executes on a thread of its own. -/
theorem card_adders_le (hI : Inv false s) (hM : MadeInv s log) : (adders s).card ≤ s.locals := by
  have hsub : adders s ⊆ (Finset.range s.locals).image s.execOf := by
    intro c hc
    obtain ⟨x, hx⟩ := (mem_adders hI).1 hc
    obtain ⟨t, l, hl, he⟩ := hM.runs hx
    refine Finset.mem_image.2 ⟨t, Finset.mem_range.2 (lt_of_not_ge fun hge => ?_), ?_⟩
    · rw [(hI.control.vacant hge).1] at hl
      cases hl
    · simp only [State.execOf, hl, he]
  calc (adders s).card ≤ ((Finset.range s.locals).image s.execOf).card := Finset.card_le_card hsub
    _ ≤ (Finset.range s.locals).card := Finset.card_image_le
    _ = s.locals := Finset.card_range _

/-- The caller of `sched_new_coroutine` keeps the new coroutine. -/
theorem phase_own {p : Phase} (hp : (s.context c).pc.phase = some p) :
    p.coro ∈ own s (.fresh c) ∨ p.coro ∈ own s (.woken c) := by
  simp only [own]
  generalize (s.context c).pc = pc at hp
  cases pc with
  | scheduleXchg x ret => cases ret <;> cases hp; exact .inl (by simp)
  | scheduleEnqueue x _ ret => cases ret <;> cases hp; exact .inr (by simp)
  | newLoad => cases hp; exact .inl (by simp)
  | newFetchAdd => cases hp; exact .inl (by simp)
  | newLocal => cases hp; exact .inl (by simp)
  | newEnqueue => cases hp; exact .inr (by simp)
  | _ => cases hp

theorem phase_inj (hI : Inv false s) {p q : Phase} (hp : (s.context c).pc.phase = some p)
    (hq : (s.context d).pc.phase = some q) (heq : p.coro = q.coro) : c = d := by
  rcases phase_own hp with h | h <;> rcases phase_own hq with h' | h' <;> rw [heq] at h
  · exact Holder.fresh.inj (hI.kept.excl.inj h h')
  · cases hI.kept.excl.inj h h'
  · cases hI.kept.excl.inj h h'
  · exact Holder.woken.inj (hI.kept.excl.inj h h')

theorem phase_not_mem (hI : Inv false s) {p : Phase} (hp : (s.context c).pc.phase = some p)
    {u : Tid} : p.coro ∉ s.queues.list u := by
  intro h
  have hu : p.coro ∈ own s (.thread u) := Multiset.mem_add.2 (.inr (Multiset.mem_coe.2 h))
  rcases phase_own hp with h' | h'
  · cases hI.kept.excl.inj hu h'
  · cases hI.kept.excl.inj hu h'

/-! ## Steps -/

section

variable {log' : SlotLog} (hI : Inv false s) (hI' : Inv false s')
  (hne : ∀ {d}, d ≠ c → (s'.context d).pc.phase = (s.context d).pc.phase)

include hI hI' hne

theorem adders_eq (hc : (∃ x, (s'.context c).pc.phase = some (.add x)) ↔
    ∃ x, (s.context c).pc.phase = some (.add x)) : adders s' = adders s := by
  ext d
  rw [mem_adders hI', mem_adders hI]
  by_cases hd : d = c
  · subst hd; exact hc
  · rw [hne hd]

/-- The increment takes its caller out of the callers that are about to increment. -/
theorem card_adders_add {x : Cid} (hc : (s.context c).pc.phase = some (.add x))
    (hc' : ∀ y, (s'.context c).pc.phase ≠ some (.add y)) :
    (adders s').card + 1 = (adders s).card := by
  have hmem : c ∈ adders s := (mem_adders hI).2 ⟨x, hc⟩
  have heq : adders s' = (adders s).erase c := by
    ext d
    rw [Finset.mem_erase, mem_adders hI', mem_adders hI]
    by_cases hd : d = c
    · subst hd; exact iff_of_false (fun ⟨y, hy⟩ => hc' y hy) fun h => h.1 rfl
    · rw [hne hd]; exact ⟨fun h => ⟨hd, h⟩, fun h => h.2⟩
  rw [heq, Finset.card_erase_of_mem hmem]
  have := Finset.card_pos.2 ⟨c, hmem⟩
  omega

/-- A step that takes no slot and writes none. -/
theorem SlotInv.keep (hS : SlotInv localSize s log) (hsize : s'.localSize = s.localSize)
    (hcount : s'.localCount = s.localCount) (hlocals : s'.locals = s.locals)
    (hslots : s'.localSchedulers = s.localSchedulers) (hob : log'.obtained = log.obtained)
    (hwr : log'.written = log.written)
    (hmake : ∀ {x slot}, (s'.context c).pc.phase = some (.make x slot) →
      (s.context c).pc.phase = some (.make x slot))
    (hadd : s.localCount < s.localSize ∨ ((∃ x, (s'.context c).pc.phase = some (.add x)) ↔
      ∃ x, (s.context c).pc.phase = some (.add x))) : SlotInv localSize s' log' := by
  have hmake' : ∀ {d x slot}, (s'.context d).pc.phase = some (.make x slot) →
      (s.context d).pc.phase = some (.make x slot) := by
    intro d x slot hd
    by_cases hdc : d = c
    · subst hdc; exact hmake hd
    · rwa [← hne hdc]
  refine ⟨hsize.trans hS.size, hcount ▸ hS.pos, ?_, ?_, hob ▸ hS.once, ?_, ?_, ?_, hwr ▸ hS.writtenOnce,
    ?_, ?_⟩
  · rw [hcount]
    rcases hadd with hlt | hiff
    · exact .inl (hS.size ▸ hlt)
    · rw [adders_eq hI hI' hne hiff]
      exact hS.bound
  · rw [hob, hcount]; exact hS.obtained
  · rw [hob, hwr]; exact fun h => hS.pending (hmake' h)
  · exact fun h h' => hS.distinct (hmake' h) (hmake' h')
  · rw [hob, hwr]; exact hS.written
  · rw [hlocals, hwr]; exact hS.locals
  · rw [hslots, hwr]; exact hS.schedulers

/-- The increment: it returns a slot that nobody has got, and the count does not wrap. -/
theorem SlotInv.add (hS : SlotInv localSize s log) (hM : MadeInv s log) (h31 : localSize ≤ 2 ^ 31)
    (hsize : s'.localSize = s.localSize) {x : Cid} (hpc : (s.context c).pc.phase = some (.add x))
    (hpc' : (s'.context c).pc.phase =
      some (if s.localCount ≥ s.localSize then .fast x else .make x s.localCount))
    (hcount : s'.localCount = (s.localCount + 1) % 2 ^ 32) (hlocals : s'.locals = s.locals)
    (hslots : s'.localSchedulers = s.localSchedulers) (hle : s.locals ≤ localSize) :
    SlotInv localSize s' { log with obtained := s.localCount :: log.obtained } := by
  have hcard := card_adders_add hI hI' hne hpc fun y hy => by
    rw [hpc'] at hy
    split at hy <;> cases hy
  have hthreads := card_adders_le hI hM
  have hlt : s.localCount < 2 * localSize := by
    rcases hS.bound with h | h <;> omega
  have hnowrap : s'.localCount = s.localCount + 1 := by
    rw [hcount]
    refine Nat.mod_eq_of_lt ?_
    rcases hS.bound with h | h <;> omega
  have hnew : s.localCount ∉ log.obtained := fun h => lt_irrefl _ (hS.obtained _ h).2
  have hmake : ∀ {d y slot}, (s'.context d).pc.phase = some (.make y slot) →
      (s.context d).pc.phase = some (.make y slot) ∨
        d = c ∧ slot = s.localCount ∧ s.localCount < s.localSize := by
    intro d y slot hd
    by_cases hdc : d = c
    · subst hdc
      rw [hpc'] at hd
      split at hd
      · cases hd
      · next hlt => cases hd; exact .inr ⟨rfl, rfl, not_le.1 hlt⟩
    · exact .inl (hne hdc ▸ hd)
  have hsz := hS.size
  refine ⟨hsize.trans hS.size, by omega, ?_, ?_, List.nodup_cons.2 ⟨hnew, hS.once⟩, ?_, ?_, ?_,
    hS.writtenOnce, hlocals ▸ hS.locals, hslots ▸ hS.schedulers⟩
  · rcases hS.bound with h | h
    · by_cases hlast : s.localCount + 1 < localSize
      · exact .inl (by omega)
      · exact .inr (by omega)
    · exact .inr (by omega)
  · intro slot hslot
    rcases List.mem_cons.1 hslot with rfl | hslot
    · exact ⟨hS.pos, by omega⟩
    · have := hS.obtained slot hslot
      exact ⟨this.1, by omega⟩
  · intro d y slot hd
    rcases hmake hd with hd | ⟨-, rfl, hlt⟩
    · obtain ⟨h1, h2, h3⟩ := hS.pending hd
      exact ⟨List.mem_cons_of_mem _ h1, h2, h3⟩
    · exact ⟨List.mem_cons_self, fun h => hnew (hS.written _ h).1, hsz ▸ hlt⟩
  · intro d e y z slot hd he
    rcases hmake hd with hd | ⟨rfl, rfl, -⟩ <;> rcases hmake he with he | ⟨rfl, hslot, -⟩
    · exact hS.distinct hd he
    · exact absurd (hslot ▸ (hS.pending hd).1) hnew
    · exact absurd (hS.pending he).1 hnew
    · rfl
  · intro slot hslot
    obtain ⟨h1, h2⟩ := hS.written slot hslot
    exact ⟨List.mem_cons_of_mem _ h1, h2⟩

/-- The write of a slot. -/
theorem SlotInv.make (hS : SlotInv localSize s log) (hsize : s'.localSize = s.localSize) {x : Cid}
    {slot : Nat} (hpc : (s.context c).pc.phase = some (.make x slot))
    (hpc' : (s'.context c).pc.phase = some (.place x s.locals))
    (hcount : s'.localCount = s.localCount) (hlocals : s'.locals = s.locals + 1)
    (hslots : s'.localSchedulers = Function.update s.localSchedulers slot (some s.locals)) :
    SlotInv localSize s' { log with written := s.rewritten s' ++ log.written } := by
  obtain ⟨hob, hwr, hlt⟩ := hS.pending hpc
  have hfree : s.localSchedulers slot = none := by
    by_contra h
    rcases (hS.schedulers slot).1 h with rfl | h
    · exact absurd (hS.obtained 0 hob).1 (by decide)
    · exact hwr h
  have hrewritten : s.rewritten s' = [slot] := by
    unfold State.rewritten
    rw [hslots]
    exact filter_range_update (hS.size ▸ hlt) (by rw [hfree]; nofun)
  rw [hrewritten]
  have hother : ∀ {d y slot'}, (s'.context d).pc.phase = some (.make y slot') →
      d ≠ c ∧ (s.context d).pc.phase = some (.make y slot') := by
    intro d y slot' hd
    have hdc : d ≠ c := by
      rintro rfl
      rw [hpc'] at hd
      cases hd
    exact ⟨hdc, hne hdc ▸ hd⟩
  have hadd : adders s' = adders s := adders_eq hI hI' hne <| by
    rw [hpc, hpc']
    exact iff_of_false (fun ⟨_, h⟩ => by cases h) fun ⟨_, h⟩ => by cases h
  refine ⟨hsize.trans hS.size, hcount ▸ hS.pos, by rw [hcount, hadd]; exact hS.bound,
    by rw [hcount]; exact hS.obtained, hS.once, ?_, ?_, ?_, List.nodup_cons.2 ⟨hwr, hS.writtenOnce⟩,
    by rw [hlocals, hS.locals]; rfl, fun slot' => ?_⟩
  · intro d y slot' hd
    obtain ⟨hdc, hd⟩ := hother hd
    obtain ⟨h1, h2, h3⟩ := hS.pending hd
    refine ⟨h1, fun h => ?_, h3⟩
    rcases List.mem_cons.1 h with rfl | h
    · exact hdc (hS.distinct hd hpc)
    · exact h2 h
  · exact fun hd he => hS.distinct (hother hd).2 (hother he).2
  · intro slot' h
    rcases List.mem_cons.1 h with rfl | h
    · exact ⟨hob, hlt⟩
    · exact hS.written slot' h
  · rw [hslots]
    by_cases heq : slot' = slot
    · subst heq
      rw [Function.update_self]
      exact iff_of_true nofun (.inr List.mem_cons_self)
    · rw [Function.update_of_ne heq, hS.schedulers slot']
      exact or_congr_right (by simp [heq])

end

/-- No more threads than slots. -/
theorem SlotInv.locals_le (hS : SlotInv localSize s log) (hpos : 1 ≤ localSize) :
    s.locals ≤ localSize := by
  have hsub : log.written.toFinset ⊆ Finset.Ico 1 localSize := by
    intro slot hslot
    obtain ⟨hob, hlt⟩ := hS.written slot (List.mem_toFinset.1 hslot)
    exact Finset.mem_Ico.2 ⟨(hS.obtained slot hob).1, hlt⟩
  have hcard := Finset.card_le_card hsub
  rw [List.toFinset_card_of_nodup hS.writtenOnce, Nat.card_Ico] at hcard
  have := hS.locals
  omega

/-- Every step keeps the invariant of the slots. -/
theorem SlotInv.step {log' : SlotLog} (hS : SlotInv localSize s log) (hM : MadeInv s log)
    (hI : Inv false s) (hI' : Inv false s') (hpos : 1 ≤ localSize) (h31 : localSize ≤ 2 ^ 31)
    (hne : ∀ {d}, d ≠ c → (s'.context d).pc.phase = (s.context d).pc.phase)
    (hsize : s'.localSize = s.localSize) (h : SlotStep s s' t c log log') :
    SlotInv localSize s' log' := by
  cases h with
  | quiet hpc hcount hlocals hslots =>
    exact hS.keep hI hI' hne hsize hcount hlocals hslots rfl rfl (fun h => hpc ▸ h) (.inr (by rw [hpc]))
  | create hpc hpc' hcoros hsched hcount hlocals hslots =>
    refine hS.keep hI hI' hne hsize hcount hlocals hslots rfl rfl (fun h => ?_) (.inr ?_)
    · rw [hpc'] at h; cases h
    · rw [hpc, hpc']; simp
  | full hpc hpc' hcount hlocals hslots =>
    refine hS.keep hI hI' hne hsize hcount hlocals hslots rfl rfl (fun h => ?_) (.inr ?_)
    · rw [hpc'] at h; cases h
    · rw [hpc, hpc']; simp
  | room hpc hpc' hlt hcount hlocals hslots =>
    refine hS.keep hI hI' hne hsize hcount hlocals hslots rfl rfl (fun h => ?_) (.inl hlt)
    rw [hpc'] at h; cases h
  | add hpc hpc' hcount hlocals hslots =>
    exact hS.add hI hI' hne hM h31 hsize hpc hpc' hcount hlocals hslots (hS.locals_le hpos)
  | make hpc hpc' hlist hcount hlocals hslots =>
    exact hS.make hI hI' hne hsize hpc hpc' hcount hlocals hslots
  | wake hpc hpc' hcount hlocals hslots =>
    refine hS.keep hI hI' hne hsize hcount hlocals hslots rfl rfl (fun h => ?_) (.inr ?_)
    · rw [hpc'] at h; cases h
    · rw [hpc, hpc']; simp
  | place hpc hpc' hcount hlocals hslots =>
    refine hS.keep hI hI' hne hsize hcount hlocals hslots rfl rfl (fun h => ?_) (.inr ?_)
    · rw [hpc'] at h; cases h
    · rw [hpc, hpc']; simp
  | push hpc hpc' hcount hlocals hslots =>
    refine hS.keep hI hI' hne hsize hcount hlocals hslots rfl rfl (fun h => ?_) (.inr ?_)
    · rw [hpc'] at h; cases h
    · rw [hpc, hpc']; simp

/-! ## New coroutines -/

section

variable (hI : Inv false s) (hl : s.sched t = some l) (hrun : l.started = true)
  (he : l.exec = .on c)

include hI hl he

theorem MadeInv.runs_next (hM : MadeInv s log) (hm : Moves seqOps false s t l (.tick t i) s')
    (hst : Stride seqOps false s t l c i (s.context c).pc s')
    (hne : ∀ {d}, d ≠ c → (s'.context d).pc.phase = (s.context d).pc.phase)
    (hc : (s.context c).pc.phase = none → (s'.context c).pc.phase ≠ none → s'.sched = s.sched)
    {d : Cid} {p : Phase} (hp : (s'.context d).pc.phase = some p) :
    ∃ u lu, s'.sched u = some lu ∧ lu.exec = .on d := by
  by_cases hd : d = c
  · subst hd
    rcases hphase : (s.context d).pc.phase with _ | q
    · refine ⟨t, l, ?_, he⟩
      rw [hc hphase (by rw [hp]; nofun)]
      exact hl
    · obtain ⟨l', hl'⟩ := Option.ne_none_iff_exists'.1 (hm.grows.sched (u := t) (by rw [hl]; nofun))
      refine ⟨t, l', hl', ?_⟩
      rcases hst.exec hl (hI.ne_locals hl) hl' with h | ⟨-, h⟩ | ⟨x, -, ⟨ret, h⟩ | ⟨e, ret, h⟩⟩
      · exact h.trans he
      all_goals
        rw [h] at hphase
        cases hphase
  · rw [hne hd] at hp
    obtain ⟨u, lu, hlu, heu⟩ := hM.runs hp
    have hut : u ≠ t := by
      rintro rfl
      cases Option.some.inj (hl.symm.trans hlu)
      exact hd (Exec.on.inj (heu.symm.trans he))
    obtain ⟨lu', hlu', he', -⟩ := hm.exec_ne hut (hI.ne_locals hlu) hlu
    exact ⟨u, lu', hlu', he'.trans heu⟩

omit hI hl he in
/-- At its enqueue on a new run list, `sched_new_coroutine` looks at the list before it pushes. -/
theorem Stride.place {x : Cid} {u : Tid} (hst : Stride seqOps false s t l c i (s.context c).pc s')
    (hpc : (s.context c).pc.phase = some (.place x u)) :
    s'.queues = s.queues ∨ (s'.context c).pc.phase = none := by
  obtain ⟨p, hp⟩ : ∃ p, (s.context c).pc = .newEnqueue x u p := by
    generalize (s.context c).pc = pc at hpc
    cases pc with
    | scheduleXchg _ ret => cases ret <;> cases hpc
    | scheduleEnqueue _ _ ret => cases ret <;> cases hpc
    | newEnqueue _ _ p => cases hpc; exact ⟨p, rfl⟩
    | _ => cases hpc
  rw [hp] at hst
  cases hst with
  | flow hf => exact .inl rfl
  | newPush hq => rw [seqOps_push] at hq; cases hq
  | newPushed => exact .inr (by rw [State.goto_pc]; rfl)

omit hI hl he in
theorem Pc.starts_of_place {pc : Pc Unit Unit} {x : Cid} {u : Tid}
    (h : pc.phase = some (.place x u)) : pc.starts = some u := by
  cases pc with
  | scheduleXchg _ ret => cases ret <;> cases h
  | scheduleEnqueue _ _ ret => cases ret <;> cases h
  | newEnqueue _ _ p => cases h; rfl
  | _ => cases h

omit he in
/-- The run list of a thread that is not started holds nothing before the new coroutine. -/
theorem MadeInv.vacant_next (hrun : l.started = true) (hM : MadeInv s log)
    (hm : Moves seqOps false s t l (.tick t i) s')
    (hself : ∀ {c x u}, l.exec = .on c → (s.context c).pc.phase = some (.place x u) →
      s'.queues = s.queues ∨ (s'.context c).pc.phase = none)
    {d x : Cid} {u : Tid} (hp : (s.context d).pc.phase = some (.place x u))
    (hp' : (s'.context d).pc.phase = some (.place x u)) : s'.queues.list u = [] := by
  have hstarts := Pc.starts_of_place hp
  obtain ⟨lu, e, hlu, hns, -⟩ := hI.control.starts hstarts
  have hut : u ≠ t := by
    rintro rfl
    rw [Option.some.inj (hl.symm.trans hlu), hns] at hrun
    cases hrun
  rcases hm.list_ne hut (hI.ne_locals hlu) with h | ⟨⟨c', hc', hpc⟩, -⟩
  · rw [h]; exact hM.vacant hp
  · cases hI.control.startsInj hstarts hpc
    rcases hself hc' hp with h | h
    · rw [h]; exact hM.vacant hp
    · rw [h] at hp'; cases hp'

end

section

variable {log' : SlotLog} (hM : MadeInv s log) (hcoros : s.coros ≤ s'.coros)
  (hne : ∀ {d}, d ≠ c → (s'.context d).pc.phase = (s.context d).pc.phase)
  (hruns : ∀ {d p}, (s'.context d).pc.phase = some p → ∃ t l, s'.sched t = some l ∧ l.exec = .on d)
  (hvac : ∀ {d x u}, (s'.context d).pc.phase = some (.place x u) → s'.queues.list u = [])

include hM hcoros hne hruns hvac

/-- A step within a call of `sched_new_coroutine`, or outside of all of them. -/
theorem MadeInv.keep (hcr : log'.created = log.created) (hen : log'.enqueued = log.enqueued)
    (hc : (s'.context c).pc.phase.map Phase.coro = (s.context c).pc.phase.map Phase.coro) :
    MadeInv s' log' := by
  have hmap : ∀ d, (s'.context d).pc.phase.map Phase.coro = (s.context d).pc.phase.map Phase.coro := by
    intro d
    by_cases hd : d = c
    · subst hd; exact hc
    · rw [hne hd]
  have hback : ∀ {d p}, (s'.context d).pc.phase = some p →
      ∃ q, (s.context d).pc.phase = some q ∧ q.coro = p.coro := by
    intro d p hp
    have := hmap d
    rw [hp, Option.map_some] at this
    exact Option.map_eq_some_iff.1 this.symm
  refine ⟨hruns, ?_, fun {d p} hp => ?_, hen ▸ hM.once, ?_, ?_, hvac, hen ▸ hM.place⟩
  · rw [hcr]; exact fun x hx => (hM.known x hx).trans_le hcoros
  · obtain ⟨q, hq, heq⟩ := hback hp
    rw [hcr, hen, ← heq]
    exact hM.making hq
  · rw [hcr, hen]; exact hM.made
  · rw [hcr, hen]
    intro x hx
    refine (hM.all x hx).imp_right fun ⟨d, p, hp, hpx⟩ => ?_
    have := hmap d
    rw [hp, Option.map_some] at this
    obtain ⟨q, hq, heq⟩ := Option.map_eq_some_iff.1 this
    exact ⟨d, q, hq, heq.trans hpx⟩

/-- `sched_new_coroutine` has made a coroutine. -/
theorem MadeInv.create (hpc : (s.context c).pc.phase = none)
    (hpc' : (s'.context c).pc.phase = some (.load s.coros)) (hlt : s.coros < s'.coros) :
    MadeInv s' { log with created := s.coros :: log.created } := by
  have hnew : s.coros ∉ log.created := fun h => lt_irrefl _ (hM.known _ h)
  refine ⟨hruns, fun x hx => ?_, fun {d p} hp => ?_, hM.once, fun x hx => ?_, fun x hx => ?_, hvac,
    hM.place⟩
  · rcases List.mem_cons.1 hx with rfl | hx
    · exact hlt
    · exact (hM.known x hx).trans_le hcoros
  · by_cases hd : d = c
    · subst hd
      rw [hpc'] at hp
      cases hp
      exact ⟨List.mem_cons_self, fun h => hnew (hM.made _ h)⟩
    · rw [hne hd] at hp
      obtain ⟨h1, h2⟩ := hM.making hp
      exact ⟨List.mem_cons_of_mem _ h1, h2⟩
  · exact List.mem_cons_of_mem _ (hM.made x hx)
  · rcases List.mem_cons.1 hx with rfl | hx
    · exact .inr ⟨c, _, hpc', rfl⟩
    · refine (hM.all x hx).imp_right fun ⟨d, p, hp, hpx⟩ => ⟨d, p, ?_, hpx⟩
      have hd : d ≠ c := by
        rintro rfl
        rw [hpc] at hp
        cases hp
      rw [hne hd, hp]

/-- `sched_new_coroutine` enqueues the new coroutine. -/
theorem MadeInv.enqueue (hI : Inv false s) {p : Phase} (hpc : (s.context c).pc.phase = some p)
    (hpc' : (s'.context c).pc.phase = none) {e : Enqueue} (hco : e.coro = p.coro)
    (hplace : e.after = e.before ++ [e.coro] ∧
      (e.sched = e.caller ∨ e.before = [] ∧ e.started = false)) :
    MadeInv s' { log with enqueued := e :: log.enqueued } := by
  obtain ⟨hcr, hnot⟩ := hM.making hpc
  have hother : ∀ {d q}, (s'.context d).pc.phase = some q →
      d ≠ c ∧ (s.context d).pc.phase = some q := by
    intro d q hq
    have hd : d ≠ c := by
      rintro rfl
      rw [hpc'] at hq
      cases hq
    exact ⟨hd, hne hd ▸ hq⟩
  refine ⟨hruns, fun x hx => (hM.known x hx).trans_le hcoros, fun {d q} hq => ?_, ?_, fun x hx => ?_,
    fun x hx => ?_, hvac, fun e' he' => ?_⟩
  · obtain ⟨hd, hq⟩ := hother hq
    obtain ⟨h1, h2⟩ := hM.making hq
    refine ⟨h1, fun h => ?_⟩
    rcases List.mem_cons.1 h with h | h
    · exact hd (phase_inj hI hq hpc (h.trans hco))
    · exact h2 h
  · have hnew : e.coro ∉ log.enqueued.map (·.coro) := hco ▸ hnot
    exact List.nodup_cons.2 ⟨hnew, hM.once⟩
  · rcases List.mem_cons.1 hx with rfl | hx
    · have hmem : e.coro ∈ log.created := hco ▸ hcr
      exact hmem
    · exact hM.made x hx
  · rcases hM.all x hx with h | ⟨d, q, hq, hqx⟩
    · exact .inl (List.mem_cons_of_mem _ h)
    · by_cases hd : d = c
      · subst hd
        rw [hpc] at hq
        cases hq
        exact .inl (List.mem_cons.2 (.inl (hqx.symm.trans hco.symm)))
      · exact .inr ⟨d, q, by rw [hne hd, hq], hqx⟩
  · rcases List.mem_cons.1 he' with rfl | he'
    · exact hplace
    · exact hM.place e' he'

end

theorem Moves.localSize_eq (hm : Moves seqOps false s t l a s') : s'.localSize = s.localSize := by
  cases hm with
  | stride _ _ _ hst =>
    generalize (s.context _).pc = pc at hst
    cases hst with
    | resched hy => cases hy <;> rfl
    | _ => rfl
  | handler _ _ _ hy => cases hy <;> rfl
  | death hdt =>
    generalize l.exec = e at hdt
    cases hdt <;> rfl
  | signal => rfl

/-- What is noted of a run, and the state that it has reached, agree. -/
structure Slots (localSize : Nat) (s : SeqState) (log : SlotLog) : Prop where
  slots : SlotInv localSize s log
  made : MadeInv s log

section

variable (hI : Inv false s) (hI' : Inv false s') (hl : s.sched t = some l) (hpos : 1 ≤ localSize)
  (h31 : localSize ≤ 2 ^ 31)

include hI hI' hl hpos h31

theorem Slots.stride {k : Coroutine} (hS : Slots localSize s log) (hrun : l.started = true)
    (he : l.exec = .on c) (hk : s.coro c = some k) (hsig : (s.context c).sig = [])
    (hst : Stride seqOps false s t l c i (s.context c).pc s') :
    Slots localSize s' (log.note s s' t i (s.context c).pc) := by
  obtain ⟨hS, hM⟩ := hS
  have hm : Moves seqOps false s t l (.tick t i) s' := .stride he hk hsig hst
  have hne : ∀ {d}, d ≠ c → (s'.context d).pc.phase = (s.context d).pc.phase := by
    intro d hd
    rcases hst.context_ne hd with h | ⟨rfl, -, h | ⟨u, h⟩⟩
    · rw [h]
    · rw [h, hI.control.blank le_rfl]; rfl
    · rw [h, hI.control.blank le_rfl]; rfl
  have hstep : SlotStep s s' t c log (log.note s s' t i (s.context c).pc) := hst.slotStep hI hl
  refine ⟨hS.step hM hI hI' hpos h31 hne hm.localSize_eq hstep, ?_⟩
  have hruns := fun hc {d p} hp => hM.runs_next hI hl he hm hst hne hc (d := d) (p := p) hp
  have hplace : ∀ {c' x u}, l.exec = .on c' → (s.context c').pc.phase = some (.place x u) →
      s'.queues = s.queues ∨ (s'.context c').pc.phase = none := by
    intro c' x u hc' hp
    cases he.symm.trans hc'
    exact hst.place hp
  have hquiet : (s.context c).pc.phase ≠ none → (s.context c).pc.phase = none →
      (s'.context c).pc.phase ≠ none → s'.sched = s.sched := fun h h' _ => absurd h' h
  -- the point of `c` after the step is no enqueue on a new run list, or it was that one before
  have hvac : (∀ {x u}, (s'.context c).pc.phase = some (.place x u) →
      (s.context c).pc.phase = some (.place x u)) →
      ∀ {d x u}, (s'.context d).pc.phase = some (.place x u) → s'.queues.list u = [] := by
    intro hc d x u hp
    refine hM.vacant_next hI hl hrun hm hplace (d := d) (x := x) ?_ hp
    by_cases hd : d = c
    · subst hd; exact hc hp
    · rw [← hne hd]; exact hp
  have hgrow := hm.grows.coros
  generalize log.note s s' t i (s.context c).pc = log' at hstep
  cases hstep with
  | quiet hpc =>
    exact hM.keep hgrow hne (hruns fun h h' => absurd (hpc.trans h) h') (hvac fun h => hpc ▸ h) rfl rfl
      (by rw [hpc])
  | create hpc hpc' hcoros hsched =>
    exact hM.create hgrow hne (hruns fun _ _ => hsched) (hvac fun h => by rw [hpc'] at h; cases h) hpc
      hpc' (hcoros ▸ Nat.lt_succ_self _)
  | full hpc hpc' =>
    exact hM.keep hgrow hne (hruns (hquiet (by rw [hpc]; nofun)))
      (hvac fun h => by rw [hpc'] at h; cases h) rfl rfl (by rw [hpc, hpc']; rfl)
  | room hpc hpc' =>
    exact hM.keep hgrow hne (hruns (hquiet (by rw [hpc]; nofun)))
      (hvac fun h => by rw [hpc'] at h; cases h) rfl rfl (by rw [hpc, hpc']; rfl)
  | add hpc hpc' =>
    refine hM.keep hgrow hne (hruns (hquiet (by rw [hpc]; nofun))) (hvac fun h => ?_) rfl rfl ?_
    · rw [hpc'] at h
      split at h <;> cases h
    · rw [hpc, hpc']
      split <;> rfl
  | @make x slot hpc hpc' hlist =>
    refine hM.keep hgrow hne (hruns (hquiet (by rw [hpc]; nofun))) (fun {d y u} h => ?_) rfl rfl
      (by rw [hpc, hpc']; rfl)
    by_cases hd : d = c
    · subst hd
      rw [hpc'] at h
      cases h
      exact hlist
    · exact hM.vacant_next hI hl hrun hm hplace (d := d) (x := y) (by rw [← hne hd]; exact h) h
  | wake hpc hpc' =>
    exact hM.keep hgrow hne (hruns (hquiet (by rw [hpc]; nofun)))
      (hvac fun h => by rw [hpc'] at h; cases h) rfl rfl (by rw [hpc, hpc']; rfl)
  | place hpc hpc' =>
    refine hM.enqueue hgrow hne (hruns (hquiet (by rw [hpc]; nofun)))
      (hvac fun h => by rw [hpc'] at h; cases h) hI hpc hpc' rfl ⟨rfl, .inr ⟨hM.vacant hpc, ?_⟩⟩
    obtain ⟨lu, -, hlu, hns, -⟩ := hI.control.starts (Pc.starts_of_place hpc)
    simp only [State.isStarted, hlu, Option.any_some, hns]
  | push hpc hpc' =>
    exact hM.enqueue hgrow hne (hruns (hquiet (by rw [hpc]; nofun)))
      (hvac fun h => by rw [hpc'] at h; cases h) hI hpc hpc' rfl ⟨rfl, .inl rfl⟩

omit hpos h31 in
/-- A step of `free_coro`. -/
theorem Slots.death (hS : Slots localSize s log) (hrun : l.started = true)
    (hm : Moves seqOps false s t l (.tick t .step) s') (hdt : Death seqOps s t l l.exec s') :
    Slots localSize s' log := by
  obtain ⟨hS, hM⟩ := hS
  have hnot : ∀ c, l.exec ≠ .on c := fun c => hdt.not_on
  have hctx := hdt.context_eq
  have hsame : s'.localCount = s.localCount ∧ s'.locals = s.locals ∧
      s'.localSchedulers = s.localSchedulers := by
    generalize l.exec = e at hdt
    cases hdt <;> exact ⟨rfl, rfl, rfl⟩
  have hne : ∀ {d : Cid}, d ≠ s.coros → (s'.context d).pc.phase = (s.context d).pc.phase := by
    intro d _
    rw [hctx]
  refine ⟨hS.keep hI hI' hne hm.localSize_eq hsame.1 hsame.2.1 hsame.2.2 rfl rfl (fun h => hctx ▸ h)
    (.inr (by rw [hctx])), hM.keep hm.grows.coros hne (fun {d p} hp => ?_) (fun {d x u} hp => ?_) rfl rfl
    (by rw [hctx])⟩
  · rw [hctx] at hp
    obtain ⟨u, lu, hlu, heu⟩ := hM.runs hp
    have hut : u ≠ t := by
      rintro rfl
      cases Option.some.inj (hl.symm.trans hlu)
      exact hnot d heu
    obtain ⟨lu', hlu', he', -⟩ := hm.exec_ne hut (hI.ne_locals hlu) hlu
    exact ⟨u, lu', hlu', he'.trans heu⟩
  · exact hM.vacant_next hI hl hrun hm (fun hc => absurd hc (hnot _)) (hctx ▸ hp) hp

theorem Slots.moves (hS : Slots localSize s log) (hrun : l.started = true)
    (hs : step seqOps false s a = some s') (hm : Moves seqOps false s t l a s') :
    Slots localSize s' (noteSlots s a log) := by
  cases hm with
  | stride he hk hsig hst =>
    rw [noteSlots_of_running hs (hI.running hl he)]
    exact hS.stride hI hI' hl hpos h31 hrun he hk hsig hst
  | @handler c _ _ _ _ _ _ _ hsig => rw [hI.control.quiet rfl c] at hsig; cases hsig
  | death hdt =>
    rw [noteSlots_of_death hs (hdt.running hl)]
    exact hS.death hI hI' hl hrun (.death hdt) hdt
  | signal hp => cases hp

end

/-! ## Runs -/

section

variable {garbage : Nat → TimerWait} {state errno threadErrno : Int}

theorem seqInit_slots (hpos : 1 ≤ localSize) :
    Slots localSize (seqInit localSize garbage state errno threadErrno) ⟨[], [], [], []⟩ := by
  have hphase : ∀ c, ((seqInit localSize garbage state errno threadErrno).context c).pc.phase =
      none := by
    intro c
    rw [seqInit_context]
    split <;> rfl
  have hno : ∀ {c p}, ((seqInit localSize garbage state errno threadErrno).context c).pc.phase ≠
      some p := by
    intro c p h
    rw [hphase] at h
    cases h
  have hcount : (seqInit localSize garbage state errno threadErrno).localCount = 1 := rfl
  have hadders : adders (seqInit localSize garbage state errno threadErrno) = ∅ :=
    Finset.eq_empty_of_forall_notMem fun c hc => by
      obtain ⟨x, hx⟩ := (mem_adders (Inv.init ..)).1 hc
      exact hno hx
  refine ⟨⟨rfl, le_rfl, ?_, nofun, List.nodup_nil, fun h => absurd h hno, fun h => absurd h hno,
    nofun, List.nodup_nil, rfl, fun slot => ?_⟩, ⟨fun h => absurd h hno, nofun,
    fun h => absurd h hno, List.nodup_nil, nofun, nofun, fun h => absurd h hno, nofun⟩⟩
  · rw [hcount, hadders, Finset.card_empty]
    omega
  · have hslots : (seqInit localSize garbage state errno threadErrno).localSchedulers =
        Function.update (fun _ => none) 0 (some 0) := rfl
    rw [hslots]
    by_cases h0 : slot = 0
    · simp [h0]
    · simp [h0]

/-- What `sched_new_coroutine` promises of slots, threads and new coroutines. -/
structure SlotsExclusive (localSize : Nat) (s : SeqState) (log : SlotLog) : Prop where
  /-- no two calls obtain the same slot -/
  obtained : log.obtained.Nodup
  /-- an entry of `local_schedulers` changes at most once, and each is in bounds -/
  written : log.written.Nodup
  bounds : ∀ slot ∈ log.written, 1 ≤ slot ∧ slot < localSize
  /-- the entries in use are the one of `sched_init` and those that have changed -/
  schedulers : ∀ slot, s.localSchedulers slot ≠ none ↔ slot = 0 ∨ slot ∈ log.written
  /-- beside the main thread, at most `local_size - 1` threads are started -/
  threads : ∀ us : Finset Tid, (∀ u ∈ us, u ≠ 0 ∧ s.isStarted u = true) → us.card ≤ localSize - 1
  count : s.localCount < 2 * localSize
  /-- a new coroutine is enqueued once, and not yet as long as its call has not come to that -/
  once : ∀ x ∈ log.created, (log.enqueued.map (·.coro)).count x = 1 ∨
    (log.enqueued.map (·.coro)).count x = 0 ∧
      (∀ u, x ∉ s.queues.list u) ∧
      ∃ t c p, s.running t = some (c, p) ∧ p.phase.map Phase.coro = some x
  /-- at the end of the run list of its caller, or as the first entry of a run list whose thread is not
  started -/
  place : ∀ e ∈ log.enqueued, e.coro ∈ log.created ∧ e.after = e.before ++ [e.coro] ∧
    (e.sched = e.caller ∨ e.before = [] ∧ e.started = false)

theorem Slots.exclusive (hI : Inv false s) (hpos : 1 ≤ localSize) (h : Slots localSize s log) :
    SlotsExclusive localSize s log := by
  obtain ⟨hS, hM⟩ := h
  refine ⟨hS.once, hS.writtenOnce, fun slot hslot => ?_, hS.schedulers, fun us hus => ?_, ?_,
    fun x hx => ?_, fun e he => ⟨hM.made _ (List.mem_map_of_mem he), hM.place e he⟩⟩
  · obtain ⟨hob, hlt⟩ := hS.written slot hslot
    exact ⟨(hS.obtained slot hob).1, hlt⟩
  · have hsub : us ⊆ Finset.Ico 1 s.locals := by
      intro u hu
      obtain ⟨h0, hst⟩ := hus u hu
      refine Finset.mem_Ico.2 ⟨Nat.one_le_iff_ne_zero.2 h0, lt_of_not_ge fun hge => ?_⟩
      rw [State.isStarted, (hI.control.vacant hge).1] at hst
      cases hst
    have hcard := Finset.card_le_card hsub
    rw [Nat.card_Ico] at hcard
    have := hS.locals_le hpos
    omega
  · rcases hS.bound with h | h <;> omega
  · rcases hM.all x hx with h | ⟨c, p, hp, rfl⟩
    · exact .inl (List.count_eq_one_of_mem hM.once h)
    · obtain ⟨t, l, hl, he⟩ := hM.runs hp
      refine .inr ⟨List.count_eq_zero.2 (hM.making hp).2, fun u => phase_not_mem hI hp, t, c,
        (s.context c).pc, ?_, ?_⟩
      · exact hI.running hl he
      · rw [hp]; rfl

/-- **Slots are exclusive.** In every state that a run of the default build reaches, with a number of
processors that `unsigned int` holds twice: no slot is obtained or written twice, the slots written
are within `local_schedulers`, `local_count` has not wrapped, no more threads than processors have
been started, and every new coroutine is enqueued once. -/
theorem slots_exclusive (hpos : 1 ≤ localSize) (h31 : localSize ≤ 2 ^ 31)
    (h : Noted seqOps false Proper noteSlots (seqInit localSize garbage state errno threadErrno)
      ⟨[], [], [], []⟩ s log) (hf : s.failure = none) : SlotsExclusive localSize s log := by
  have hinv : ∀ {s log}, Noted seqOps false Proper noteSlots
      (seqInit localSize garbage state errno threadErrno) ⟨[], [], [], []⟩ s log →
      s.failure = none → Inv false s := fun h hf =>
    (h.reach.mono fun hs hok => ⟨hok, default_safe hs⟩).inv hf
  have hslots : Slots localSize s log := by
    induction h with
    | init => exact seqInit_slots hpos
    | @next s s' a log h hok hs ih =>
      obtain ⟨hf₀, t, l, hl, hrun, hm⟩ := step_moves seqOps hs hf
      exact (ih hf₀).moves (hinv h hf₀) (hinv (h.next hok hs) hf) hl hpos h31 hrun hs hm
  exact hslots.exclusive (hinv h hf) hpos

end

end

/-- Two calls of `sched_new_coroutine` on a machine with two processors: the first starts a thread,
the second finds no slot. -/
def twoCalls : List Act :=
  let steps (n : Nat) : List Act := List.replicate n (.tick 0 .step)
  .tick 0 (.op .newCoroutine) :: steps 2 ++ [.tick 0 (.garbage 0 0)] ++ steps 3 ++
    [.tick 0 (.op .newCoroutine)] ++ steps 4

theorem slots_exclusive_two :
    ∃ s log, noteRun seqOps false (fun _ => Act.leavesAsleep) noteSlots
        (seqInit 2 (fun _ => ⟨⟨0, 0⟩, 0⟩) 0 0 0) ⟨[], [], [], []⟩ twoCalls = some (s, log) ∧
      log.created = [4, 2] ∧ log.written = [1] ∧
      log.enqueued = [⟨4, 0, 0, [1], [1, 4], true⟩, ⟨2, 0, 1, [], [2], false⟩] ∧
      SlotsExclusive 2 s log := by
  obtain ⟨s, log, hr, hcr, hwr, hen, hf⟩ :
      ∃ s log, noteRun seqOps false (fun _ => Act.leavesAsleep) noteSlots
          (seqInit 2 (fun _ => ⟨⟨0, 0⟩, 0⟩) 0 0 0) ⟨[], [], [], []⟩ twoCalls = some (s, log) ∧
        log.created = [4, 2] ∧ log.written = [1] ∧
        log.enqueued = [⟨4, 0, 0, [1], [1, 4], true⟩, ⟨2, 0, 1, [], [2], false⟩] ∧ s.failure = none :=
    ⟨_, _, rfl, rfl, rfl, rfl, rfl⟩
  exact ⟨s, log, hr, hcr, hwr, hen, slots_exclusive (by decide) (by decide)
    (Noted.run hr Act.leavesAsleep.proper .init) hf⟩

end Lwthread.Scheduler
