import Lwthread.Scheduler.Frame
import Lwthread.Util.ListSteps

/-!
# Run lists in memory

`ptrOps` keeps the run lists as `util/list.h` does, in linked nodes, and performs its operations
statement by statement. `State.forget` forgets the memory and how far the operations have come: what is
left is a state over sequences, in which an operation under way has not been performed yet. A step then
does nothing there, or it is a step of the same kind (`Moves.forget`).
-/

namespace Lwthread.Scheduler

open Lwthread.Util Rings

/-! ## Nodes -/

/-- A `struct list_node`: the run list of a scheduler, or the node of a coroutine. -/
inductive Node where
  | list (t : Tid)
  | item (c : Cid)
  deriving DecidableEq

/-- `LIST_ITEM`, which is the address of a coroutine only for the node of one. -/
def Node.coro : Node → Option Cid
  | .item c => some c
  | .list _ => none

/-- The operations of `util/list.h` on nodes. -/
def ptrOps : ListOps (Mem Node) (PushPc Node) (PopPc Node) where
  listInit m t := listInit m (.list t)
  listNodeInit m c := listNodeInit m (.item c)
  listEmpty m t := m.next (.list t) == some (.list t)
  listInList m c := listInList m (.item c)
  pushStart := .back
  push m t c p := pushStep m (.list t) (.item c) p
  popStart := .front
  pop m t p := ((popStep m (.list t) p).1, (popStep m (.list t) p).2.map id Node.coro)

/-- The state of the machine with the run lists in memory. -/
abbrev PtrState := State (Mem Node) (PushPc Node) (PopPc Node)

/-- A state after `sched_init`, in a memory that held `m`. -/
def ptrInit (m : Mem Node) (localSize : Nat) (garbage : Nat → TimerWait)
    (state errno threadErrno : Int) : PtrState :=
  schedInit ptrOps m localSize garbage state errno threadErrno

/-! ## What is left without the memory -/

section

variable {Q ι δ : Type}

@[simp] def EnqPc.forget : EnqPc ι → EnqPc Unit
  | .assert => .assert
  | .push _ => .push ()

@[simp] def ReschedPc.forget : ReschedPc ι δ → ReschedPc Unit Unit
  | .check => .check
  | .enqueue current p => .enqueue current p.forget
  | .dequeue _ => .dequeue ()
  | .switch coro => .switch coro
  | .resumed => .resumed

@[simp] def Pc.forget : Pc ι δ → Pc Unit Unit
  | .trampoline => .trampoline
  | .user => .user
  | .resched r ret => .resched r.forget ret
  | .waitLock wait => .waitLock wait
  | .waitPush wait => .waitPush wait
  | .waitUnlock => .waitUnlock
  | .eventRegister fd events => .eventRegister fd events
  | .eventUnregister fd => .eventUnregister fd
  | .suspendBlock ret => .suspendBlock ret
  | .suspendDequeue current _ ret => .suspendDequeue current () ret
  | .suspendCmpxchg current coro ret => .suspendCmpxchg current coro ret
  | .suspendEnqueue coro p ret => .suspendEnqueue coro p.forget ret
  | .suspendUnblock ret => .suspendUnblock ret
  | .scheduleXchg coro ret => .scheduleXchg coro ret
  | .scheduleEnqueue coro p ret => .scheduleEnqueue coro p.forget ret
  | .newLoad coro => .newLoad coro
  | .newFetchAdd coro => .newFetchAdd coro
  | .newLocal coro slot => .newLocal coro slot
  | .newEnqueue coro sched p => .newEnqueue coro sched p.forget
  | .newStart sched => .newStart sched
  | .loopTop sched => .loopTop sched
  | .loopMin sched => .loopMin sched
  | .loopExpire sched timer => .loopExpire sched timer
  | .pollWait sched timeout => .pollWait sched timeout
  | .pollEvents sched timeout batch full => .pollEvents sched timeout batch full
  | .timersEmpty sched timeout => .timersEmpty sched timeout
  | .timersLock sched timeout => .timersLock sched timeout
  | .timersMin sched timeout => .timersMin sched timeout
  | .timersExpire sched timeout timer => .timersExpire sched timeout timer
  | .timersPop sched timeout timer => .timersPop sched timeout timer
  | .timersUnlock sched timeout again => .timersUnlock sched timeout again

@[simp] def Exec.forget : Exec δ → Exec Unit
  | .on c => .on c
  | .free => .free
  | .dequeue _ => .dequeue ()
  | .restore next => .restore next

def Context.forget (x : Context ι δ) : Context Unit Unit := ⟨x.pc.forget, x.sig.map ReschedPc.forget⟩

def LocalSched.forget (l : LocalSched δ) : LocalSched Unit :=
  ⟨l.currentCoro, l.eventLoopCoro, l.preemptLock, l.errno, l.exec.forget, l.started⟩

/-- The state with the run lists `q`. -/
def State.forget (s : State Q ι δ) (q : Seq) : SeqState where
  localSize := s.localSize
  localCount := s.localCount
  localSchedulers := s.localSchedulers
  coros := s.coros
  locals := s.locals
  coro := s.coro
  context := fun c => (s.context c).forget
  sched := fun t => (s.sched t).map LocalSched.forget
  queues := q
  timerHeap := s.timerHeap
  lock := s.lock
  eventWait := s.eventWait
  poller := s.poller
  failure := s.failure

variable (s : State Q ι δ) (q : Seq) (t : Tid) (c : Cid)

theorem forget_goto (pc : Pc ι δ) : (s.goto c pc).forget q = (s.forget q).goto c pc.forget := by
  unfold State.goto State.forget
  congr 1
  funext d
  by_cases hd : d = c
  · subst hd
    simp [Context.forget]
  · simp [hd]

theorem forget_setSig (sig : List (ReschedPc ι δ)) :
    (s.setSig c sig).forget q = (s.forget q).setSig c (sig.map ReschedPc.forget) := by
  unfold State.setSig State.forget
  congr 1
  funext d
  by_cases hd : d = c
  · subst hd
    simp [Context.forget]
  · simp [hd]

theorem forget_modSched {f : LocalSched δ → LocalSched δ} {g : LocalSched Unit → LocalSched Unit}
    (hf : ∀ l, (f l).forget = g l.forget) :
    (s.modSched t f).forget q = (s.forget q).modSched t g := by
  unfold State.modSched State.forget
  congr 1
  funext u
  by_cases hu : u = t
  · subst hu
    rcases hl : s.sched u with _ | l
    · simp [hl]
    · simp [hl, hf]
  · simp [hu]

theorem forget_setPreempt (preemption b : Bool) :
    (s.setPreempt preemption t b).forget q = (s.forget q).setPreempt preemption t b := by
  unfold State.setPreempt
  split
  · exact forget_modSched s q t fun _ => rfl
  · rfl

theorem forget_makeCoro (ops : ListOps Q ι δ) (start : Start) :
    (schedMakeCoro ops s start).forget (seqOps.listNodeInit q s.coros) =
      schedMakeCoro seqOps (s.forget q) start := by
  unfold schedMakeCoro State.forget
  congr 1
  funext d
  by_cases hd : d = s.coros
  · subst hd
    simp [Context.forget]
  · simp [hd]

theorem forget_newLocal (ops : ListOps Q ι δ) (state errno : Int) :
    (schedNewLocal ops s state errno .loopTop).forget
        (seqOps.listNodeInit (seqOps.listInit q s.locals) s.coros) =
      schedNewLocal seqOps (s.forget q) state errno .loopTop := by
  unfold schedNewLocal State.forget
  congr 1
  · funext d
    by_cases hd : d = s.coros
    · subst hd
      simp [Context.forget]
    · simp [hd]
  · funext u
    by_cases hu : u = s.locals
    · subst hu
      simp [LocalSched.forget]
    · simp [hu]

theorem ReschedRet.forget_next (ret : ReschedRet) (r : Option (ReschedPc ι δ)) :
    (ret.next r).forget = ret.next (r.map ReschedPc.forget) := by
  cases r with
  | none => cases ret <;> rfl
  | some => rfl

theorem SuspendRet.forget_pc (ret : SuspendRet) : (ret.pc : Pc ι δ).forget = ret.pc := by
  cases ret <;> rfl

theorem ScheduleRet.forget_pc (ret : ScheduleRet) : (ret.pc : Pc ι δ).forget = ret.pc := by
  cases ret <;> rfl

theorem Start.forget_pc (start : Start) : (start.pc : Pc ι δ).forget = start.pc := by
  cases start <;> rfl

theorem afterTimers_forget (timeout : Int) :
    (afterTimers t timeout : Pc ι δ).forget = afterTimers t timeout := by
  unfold afterTimers
  split <;> rfl

theorem ReschedPc.forget_seat (r : ReschedPc ι δ) : r.forget.seat c = r.seat c := by
  cases r <;> rfl

theorem Pc.forget_seat (pc : Pc ι δ) : pc.forget.seat c = pc.seat c := by
  cases pc with
  | resched r => exact ReschedPc.forget_seat c r
  | _ => rfl

theorem Context.forget_seat (x : Context ι δ) : x.forget.seat c = x.seat c := by
  obtain ⟨pc, sig⟩ := x
  cases sig with
  | nil => exact Pc.forget_seat c pc
  | cons r => exact ReschedPc.forget_seat c r

theorem State.forget_sched {l : LocalSched δ} (hl : s.sched t = some l) :
    (s.forget q).sched t = some l.forget := by
  simp only [State.forget, hl, Option.map_some]

theorem LocalSched.forget_on {l : LocalSched δ} {c : Cid} (he : l.exec = .on c) :
    l.forget.exec = .on c := by
  simp only [LocalSched.forget, he, Exec.forget]

theorem State.forget_seat : (s.forget q).seat t = s.seat t := by
  rcases hl : s.sched t with _ | l
  · simp only [State.seat, State.forget, hl, Option.map_none]
  · simp only [State.seat, State.forget_sched s q t hl, hl, LocalSched.forget]
    cases l.exec with
    | on c => exact Context.forget_seat c (s.context c)
    | _ => rfl

theorem Pc.forget_starts (pc : Pc ι δ) : pc.forget.starts = pc.starts := by
  cases pc <;> rfl

theorem Pc.forget_fresh (pc : Pc ι δ) : pc.forget.fresh = pc.fresh := by
  cases pc <;> rfl

theorem ReschedPc.forget_asserts (r : ReschedPc ι δ) : r.forget.asserts = r.asserts := by
  cases r with
  | enqueue _ p => cases p <;> rfl
  | _ => rfl

theorem Pc.forget_asserts (pc : Pc ι δ) : pc.forget.asserts = pc.asserts := by
  cases pc with
  | resched r => exact r.forget_asserts
  | suspendEnqueue _ p => cases p <;> rfl
  | scheduleEnqueue _ p => cases p <;> rfl
  | newEnqueue _ _ p => cases p <;> rfl
  | _ => rfl

theorem State.forget_asserts : (s.forget q).asserts t = s.asserts t := by
  rcases hl : s.sched t with _ | l
  · simp only [State.asserts, State.forget, hl, Option.map_none]
  · simp only [State.asserts, State.forget_sched s q t hl, hl, LocalSched.forget]
    rcases l.exec with c | _ | p | x
    · have hsig : ((s.forget q).context c).sig = (s.context c).sig.map ReschedPc.forget := rfl
      simp only [Exec.forget, hsig]
      rcases (s.context c).sig with _ | ⟨r, rs⟩
      · exact Pc.forget_asserts _
      · exact r.forget_asserts
    all_goals rfl

theorem State.forget_dequeues {p : δ} (h : s.dequeues t = some p) :
    (s.forget q).dequeues t = some () := by
  have hresched : ∀ {r : ReschedPc ι δ}, r.dequeues = some p → r.forget.dequeues = some () := by
    intro r hr
    cases r with
    | dequeue => rfl
    | _ => cases hr
  rcases hl : s.sched t with _ | l
  · simp only [State.dequeues, hl] at h
    cases h
  · simp only [State.dequeues, hl] at h
    simp only [State.dequeues, State.forget_sched s q t hl, LocalSched.forget]
    rcases he : l.exec with c | _ | p' | x
    · simp only [he] at h
      have hsig' : ((s.forget q).context c).sig = (s.context c).sig.map ReschedPc.forget := rfl
      have hpc' : ((s.forget q).context c).pc = (s.context c).pc.forget := rfl
      simp only [Exec.forget, hsig', hpc']
      rcases hsig : (s.context c).sig with _ | ⟨r, rs⟩
      · simp only [hsig] at h
        generalize (s.context c).pc = pc at h
        cases pc with
        | resched r => exact hresched h
        | suspendDequeue => rfl
        | _ => cases h
      · simp only [hsig] at h
        exact hresched h
    · simp only [he] at h
      cases h
    · rfl
    · simp only [he] at h
      cases h

/-- A coroutine that goes on where it is. -/
theorem State.goto_eq_self {pc : Pc ι δ} (h : (s.context c).pc = pc) : s.goto c pc = s := by
  unfold State.goto
  rw [Function.update_eq_self_iff.2 (by rw [← h])]

end

end Lwthread.Scheduler
