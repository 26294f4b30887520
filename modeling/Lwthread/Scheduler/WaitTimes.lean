import Lwthread.Scheduler.EventRecords
import Lwthread.Scheduler.Expiry

/-!
# When timed waits return

A run notes the deadline of the call of `sched_wait` that every coroutine is in, the clock readings at
which `sched_handle_timers` has found the record of the call due, and every return of `sched_wait`
(`noteTimes`).

When user code wakes nobody that waits, a call returns only after its record has been found due, and
that has happened once. `timer_expiration` drops what is left of a millisecond, so a call may return
before its deadline, by less than that.
-/

namespace Lwthread.Scheduler

open Lwthread.Util Lwthread.Platform Custody

/-! ## What is noted along a run -/

/-- A call of `sched_wait`: its deadline, and the clock readings at which its record was found due. -/
structure WaitCall where
  coro : Cid
  time : Option Timespec
  due : List Timespec

/-- The record of the call was found due, once. -/
def WaitCall.Due (r : WaitCall) : Prop :=
  ∃ d now, r.time = some d ∧ r.due = [now] ∧ timerExpiration ⟨d, r.coro⟩ now ≤ 0

/-- The latest call of each coroutine, and the calls that have returned. -/
structure TimeLog where
  time : Cid → Option Timespec
  due : Cid → List Timespec
  returns : List WaitCall

def TimeLog.empty : TimeLog := ⟨fun _ => none, fun _ => [], []⟩

def TimeLog.call (n : TimeLog) (c : Cid) : WaitCall := ⟨c, n.time c, n.due c⟩

/-- What is noted of a step of the coroutine `c` at a point. -/
def Pc.noteTime (c : Cid) (i : Input) (n : TimeLog) : Pc Unit Unit → TimeLog
  | .user =>
    match i with
    | .op (.wait time) =>
      { n with time := Function.update n.time c (some time), due := Function.update n.due c [] }
    | _ => n
  | .timersExpire _ _ w =>
    match i with
    | .clock now =>
      if timerExpiration w now ≤ 0 then
        { n with due := Function.update n.due w.coro (n.due w.coro ++ [now]) }
      else n
    | _ => n
  | .suspendUnblock .wait => { n with returns := n.returns ++ [n.call c] }
  | _ => n

/-- The calls of `sched_wait`, the timers found due, and the returns. -/
def noteTimes (s : SeqState) (a : Act) (n : TimeLog) : TimeLog :=
  match a with
  | .signal _ => n
  | .tick t i =>
    match s.running t with
    | none => n
    | some (c, pc) => pc.noteTime c i n

variable {preemption : Bool} {s s' : SeqState} {t : Tid} {l : LocalSched Unit} {c d : Cid} {i : Input}
  {a : Act} {n : TimeLog}

theorem noteTimes_aside (h : Aside s a) : noteTimes s a n = n := by
  cases a with
  | signal => rfl
  | tick t i => simp only [noteTimes, h t i rfl]

theorem noteTimes_overlay {ds : Cid → List (ReschedPc Unit Unit)} (hfree : Free s ds a) :
    noteTimes (s.overlay ds) a n = noteTimes s a n := by
  cases a with
  | signal => rfl
  | tick t i =>
    have hrun : (s.overlay ds).running t = s.running t := running_overlay hfree
    simp only [noteTimes, hrun]

/-! ## What a step does to timed waits -/

/-- The record of a timed wait has been pushed. -/
@[simp] def WaitPhase.Timed : WaitPhase → Prop
  | .published .timer => True
  | .parked .timer => True
  | .woken .timer => True
  | _ => False

/-- The timer that `heap_pop_min` is about to take out of the heap. -/
@[simp] def Pc.pops : Pc Unit Unit → Option TimerWait
  | .timersPop _ _ w => some w
  | _ => none

/-- Nothing happens to timed waits between two points. -/
structure Pc.Still (pc pc' : Pc Unit Unit) : Prop where
  record : pc'.record = pc.record
  timed : pc'.wait.Timed → pc.wait.Timed
  pops : pc'.pops = pc.pops

theorem Pc.Still.refl (pc : Pc Unit Unit) : pc.Still pc := ⟨rfl, id, rfl⟩

/-- What a step of the coroutine `c` at a point does to timed waits. -/
inductive TimeStep (s s' : SeqState) (current c : Cid) (i : Input) : Pc Unit Unit → Prop
  | call {time} (hi : i = .op (.wait time)) (hheap : s'.timerHeap = s.timerHeap)
      (hpc : (s'.context c).pc = .waitLock ⟨time, current⟩) : TimeStep s s' current c i .user
  | push {w} (hbag : s'.timerHeap.bag = w ::ₘ s.timerHeap.bag)
      (hpc : (s'.context c).pc = .waitUnlock) : TimeStep s s' current c i (.waitPush w)
  | due {u v w now} (hi : i = .clock now) (hd : timerExpiration w now ≤ 0)
      (hheap : s'.timerHeap = s.timerHeap) (hpc : (s'.context c).pc = .timersPop u v w) :
      TimeStep s s' current c i (.timersExpire u v w)
  | pop {u v w} (hheap : s'.timerHeap = (heapPopMin .block s.timerHeap).2)
      (hpc : (s'.context c).pc = .scheduleXchg w.coro (.handleTimers u v)) :
      TimeStep s s' current c i (.timersPop u v w)
  | ret (hheap : s'.timerHeap = s.timerHeap) (hpc : (s'.context c).pc = .user) :
      TimeStep s s' current c i (.suspendUnblock .wait)
  | other {pc} (hn : ∀ n, pc.noteTime c i n = n) (hbag : s'.timerHeap.bag = s.timerHeap.bag)
      (hstill : pc.Still (s'.context c).pc) : TimeStep s s' current c i pc

theorem afterTimers_still {pc : Pc Unit Unit} (u : Tid) (v : Int) (h : pc.Still .user) :
    pc.Still (afterTimers u v) := by
  unfold afterTimers
  split
  · exact ⟨h.record, h.timed, h.pops⟩
  · exact ⟨h.record, h.timed, h.pops⟩

theorem Stride.timeStep (hst : Stride seqOps preemption s t l c i (s.context c).pc s') :
    TimeStep s s' l.currentCoro c i (s.context c).pc := by
  generalize hpc : (s.context c).pc = pc at hst
  have hgo : ∀ {s₀ : SeqState} {pc' : Pc Unit Unit}, (∀ n, pc.noteTime c i n = n) →
      s₀.timerHeap.bag = s.timerHeap.bag → pc.Still pc' →
      TimeStep s (s₀.goto c pc') l.currentCoro c i pc := by
    intro s₀ pc' hn hbag hstill
    refine .other hn hbag ?_
    rwa [State.goto_pc]
  have hstay : ∀ {s₀ : SeqState}, (∀ n, pc.noteTime c i n = n) → s₀.timerHeap = s.timerHeap →
      s₀.context = s.context → TimeStep s s₀ l.currentCoro c i pc := by
    intro s₀ hn hheap hctx
    refine .other hn (by rw [hheap]) ?_
    rw [hctx, hpc]
    exact .refl pc
  cases hst with
  | @resched r ret s₁ r' hy =>
    refine hgo (fun _ => rfl) (by rw [hy.timerHeap]) ?_
    cases r' with
    | none => cases ret <;> exact ⟨rfl, id, rfl⟩
    | some r' => exact ⟨rfl, id, rfl⟩
  | flow hf =>
    cases hf with
    | resched hi => subst hi; exact hgo (fun _ => rfl) rfl ⟨rfl, id, rfl⟩
    | suspend hi => subst hi; exact hgo (fun _ => rfl) rfl ⟨rfl, id, rfl⟩
    | schedule hi => subst hi; exact hgo (fun _ => rfl) rfl ⟨rfl, id, rfl⟩
    | timersNone => exact hgo (fun _ => rfl) rfl (afterTimers_still _ _ ⟨rfl, id, rfl⟩)
    | timersDue hi hd => exact .due hi hd rfl (State.goto_pc _ _)
    | timersLater hi hd => subst hi; exact hgo (fun _ => if_neg hd) rfl ⟨rfl, id, rfl⟩
    | _ => exact hgo (fun _ => rfl) rfl ⟨rfl, id, rfl⟩
  | @trampoline k start =>
    refine hgo (fun _ => rfl) (by rw [State.setPreempt_timerHeap]) ?_
    cases start <;> exact ⟨rfl, id, rfl⟩
  | setErrno hi => subst hi; exact hstay (fun _ => rfl) rfl rfl
  | newCoroutine hi => subst hi; exact hgo (fun _ => rfl) rfl ⟨rfl, id, rfl⟩
  | wait hi => exact .call hi rfl (State.goto_pc _ _)
  | eventWait hi => subst hi; exact hgo (fun _ => rfl) rfl ⟨rfl, id, rfl⟩
  | ret hi =>
    subst hi
    exact hstay (fun _ => rfl) (State.setPreempt_timerHeap true) (State.setPreempt_context true)
  | waitPush => exact .push (heapPush_bag _ _) (State.goto_pc _ _)
  | suspendBlock =>
    exact hgo (fun _ => rfl) (by rw [State.setPreempt_timerHeap]) ⟨rfl, id, rfl⟩
  | @park current x ret =>
    refine .other (fun _ => rfl) rfl ?_
    cases ret <;> exact ⟨by simp [State.modSched, State.goto], by simp [State.modSched, State.goto],
      by simp [State.modSched, State.goto]⟩
  | @abort current x ret => cases ret <;> exact hgo (fun _ => rfl) rfl ⟨rfl, id, rfl⟩
  | @suspendPushed x p ret => cases ret <;> exact hgo (fun _ => rfl) rfl ⟨rfl, id, rfl⟩
  | @suspendUnblock ret =>
    cases ret with
    | wait => exact .ret (State.setPreempt_timerHeap false) (State.goto_pc _ _)
    | user => exact hgo (fun _ => rfl) (by rw [State.setPreempt_timerHeap]) ⟨rfl, id, rfl⟩
    | eventWait fd => exact hgo (fun _ => rfl) (by rw [State.setPreempt_timerHeap]) ⟨rfl, id, rfl⟩
  | @rouse x ret => cases ret <;> exact hgo (fun _ => rfl) rfl ⟨rfl, id, rfl⟩
  | @schedulePushed x p ret => cases ret <;> exact hgo (fun _ => rfl) rfl ⟨rfl, id, rfl⟩
  | fetchAdd =>
    refine hgo (fun _ => rfl) rfl ?_
    split <;> exact ⟨rfl, id, rfl⟩
  | loopNone => exact hgo (fun _ => rfl) (heapMin_bag _) ⟨rfl, id, rfl⟩
  | loopMin => exact hgo (fun _ => rfl) (heapMin_bag _) ⟨rfl, id, rfl⟩
  | eintr => exact hstay (fun _ => rfl) rfl rfl
  | timersMin =>
    refine hgo (fun _ => rfl) (heapMin_bag _) ?_
    split <;> exact ⟨rfl, id, rfl⟩
  | timersPop => exact .pop rfl (State.goto_pc _ _)
  | @timersUnlock u v again =>
    refine hgo (fun _ => rfl) rfl ?_
    cases again
    · exact afterTimers_still u v ⟨rfl, id, rfl⟩
    · exact ⟨rfl, id, rfl⟩
  | _ => exact hgo (fun _ => rfl) rfl ⟨rfl, id, rfl⟩

/-- A step of `c` is nothing to the timed waits of the others. -/
theorem Stride.still_ne (hI : Inv preemption s)
    (hst : Stride seqOps preemption s t l c i (s.context c).pc s') (hd : d ≠ c) :
    (s.context d).pc.Still (s'.context d).pc := by
  rcases hst.context_ne hd with h | ⟨rfl, -, h⟩
  · rw [h]
    exact .refl _
  · rw [hI.control.blank le_rfl]
    rcases h with h | ⟨u, h⟩ <;> rw [h] <;> exact ⟨rfl, id, rfl⟩

/-! ## The invariant -/

/-- The clock readings noted for the calls that have not returned are those at which their records
were found due. -/
structure TimesNoted (s : SeqState) (n : TimeLog) : Prop where
  prepared : ∀ {c w}, (s.context c).pc.record = some w → n.time c = some w.time ∧ n.due c = []
  live : ∀ w ∈ s.timerHeap.bag, n.time w.coro = some w.time
  undue : ∀ w ∈ s.timerHeap.bag, (∀ d, (s.context d).pc.pops ≠ some w) → n.due w.coro = []
  chosen : ∀ {d w}, (s.context d).pc.pops = some w → (n.call w.coro).Due
  popped : ∀ {c}, (s.context c).pc.wait.Timed → (∀ w ∈ s.timerHeap.bag, w.coro ≠ c) → (n.call c).Due
  returned : ∀ r ∈ n.returns, r.Due

section

variable {w : TimerWait} (hW : Waking preemption s)

include hW

/-- A coroutine with a record in the heap is in `sched_wait`, and has not been woken. -/
theorem Waking.phase_of_mem (hw : w ∈ s.timerHeap.bag) :
    (s.context w.coro).pc.wait = .published .timer ∨
      (s.context w.coro).pc.wait = .parked .timer ∧ s.wake.word w.coro = some STATE_BLOCKED := by
  have htok : w.coro ∈ s.wake.held .heap := Multiset.mem_map_of_mem _ hw
  obtain ⟨k, hk, hphase⟩ := hW.sound.token htok
  cases k with
  | timer => exact hphase.imp And.left id
  | event fd => exact hk.elim

theorem Waking.coro_ne (hw : w ∈ s.timerHeap.bag) (hc : ¬(s.context c).pc.wait.Timed) :
    w.coro ≠ c := by
  rintro rfl
  rcases hW.phase_of_mem hw with h | ⟨h, -⟩ <;> exact hc (by rw [h]; trivial)

/-- A coroutine has one record in the heap at most. -/
theorem Waking.record_unique {w' : TimerWait} (hw : w ∈ s.timerHeap.bag) (hw' : w' ∈ s.timerHeap.bag)
    (h : w.coro = w'.coro) : w = w' := by
  have hnodup : (s.timerHeap.bag.map (·.coro)).Nodup := hW.sound.excl.nodup .heap
  exact Multiset.inj_on_of_nodup_map hnodup w hw w' hw' h

theorem Waking.mem_of_looks (h : (s.context d).pc.looks = some w) : w ∈ s.timerHeap.bag :=
  mem_bag_of_heapMin (hW.rooted d w h)

theorem Waking.mem_of_pops (h : (s.context d).pc.pops = some w) : w ∈ s.timerHeap.bag := by
  refine hW.mem_of_looks (d := d) ?_
  generalize (s.context d).pc = pc at h
  cases pc with
  | timersPop => exact h
  | _ => cases h

/-- Who has the lock keeps the others from `heap_pop_min`. -/
theorem Waking.pops_none (hc : (s.context c).pc.Locked) (hd : d ≠ c) : (s.context d).pc.pops = none := by
  by_contra hpops
  refine hd (Option.some.inj (((hW.holding.holder d).1 ?_).symm.trans ((hW.holding.holder c).1 hc)))
  generalize (s.context d).pc = pc at hpops
  cases pc with
  | timersPop => trivial
  | _ => exact absurd rfl hpops

end

section

variable (hN : TimesNoted s n)

include hN

/-- A step that is nothing to timed waits. -/
theorem TimesNoted.keep (hbag : s'.timerHeap.bag = s.timerHeap.bag)
    (hstill : ∀ d, (s.context d).pc.Still (s'.context d).pc) : TimesNoted s' n := by
  refine ⟨fun {c w} hc => ?_, fun w hw => ?_, fun w hw hno => ?_, fun {d w} hd => ?_,
    fun {c} hc hno => ?_, hN.returned⟩
  · exact hN.prepared ((hstill c).record ▸ hc)
  · exact hN.live w (hbag ▸ hw)
  · exact hN.undue w (hbag ▸ hw) fun d => (hstill d).pops ▸ hno d
  · exact hN.chosen ((hstill d).pops ▸ hd)
  · exact hN.popped ((hstill c).timed hc) (hbag ▸ hno)

variable (hW : Waking preemption s) (hst : Stride seqOps preemption s t l c i (s.context c).pc s')

include hW hst

/-- The call of `sched_wait`. -/
theorem TimesNoted.enter {time : Timespec} (hpc : (s.context c).pc = .user)
    (hheap : s'.timerHeap = s.timerHeap) (hpc' : (s'.context c).pc = .waitLock ⟨time, c⟩) :
    TimesNoted s' { n with
      time := Function.update n.time c (some time), due := Function.update n.due c [] } := by
  have hidle : ¬(s.context c).pc.wait.Timed := by rw [hpc]; exact id
  have hmem : ∀ {w}, w ∈ s.timerHeap.bag → w.coro ≠ c := fun hw => hW.coro_ne hw hidle
  have hcall : ∀ {x}, x ≠ c → (n.call x).Due → WaitCall.Due
      ⟨x, Function.update n.time c (some time) x, Function.update n.due c [] x⟩ := by
    intro x hx hdue
    rwa [Function.update_of_ne hx, Function.update_of_ne hx]
  have hpops : ∀ {d w}, (s'.context d).pc.pops = some w → (s.context d).pc.pops = some w := by
    intro d w hd
    by_cases hdc : d = c
    · rw [hdc, hpc'] at hd
      cases hd
    · exact (hst.still_ne hW.inv hdc).pops ▸ hd
  refine ⟨fun {d w} hd => ?_, fun w hw => ?_, fun w hw hno => ?_, fun {d w} hd => ?_,
    fun {d} hd hno => ?_, hN.returned⟩
  · by_cases hdc : d = c
    · subst hdc
      rw [hpc'] at hd
      cases hd
      exact ⟨Function.update_self _ _ _, Function.update_self _ _ _⟩
    · obtain ⟨htime, hdue⟩ := hN.prepared ((hst.still_ne hW.inv hdc).record ▸ hd)
      exact ⟨(Function.update_of_ne hdc _ _).trans htime, (Function.update_of_ne hdc _ _).trans hdue⟩
  · rw [hheap] at hw
    exact (Function.update_of_ne (hmem hw) _ _).trans (hN.live w hw)
  · rw [hheap] at hw
    refine (Function.update_of_ne (hmem hw) _ _).trans (hN.undue w hw fun d hd => ?_)
    by_cases hdc : d = c
    · rw [hdc, hpc] at hd
      cases hd
    · exact hno d ((hst.still_ne hW.inv hdc).pops.trans hd)
  · exact hcall (hmem (hW.mem_of_pops (hpops hd))) (hN.chosen (hpops hd))
  · have hdc : d ≠ c := by
      rintro rfl
      rw [hpc'] at hd
      exact hd
    rw [hheap] at hno
    exact hcall hdc (hN.popped ((hst.still_ne hW.inv hdc).timed hd) hno)

/-- `heap_push` in `sched_wait`. -/
theorem TimesNoted.push {w : TimerWait} (hpc : (s.context c).pc = .waitPush w)
    (hbag : s'.timerHeap.bag = w ::ₘ s.timerHeap.bag) (hpc' : (s'.context c).pc = .waitUnlock) :
    TimesNoted s' n := by
  have hwc : w.coro = c := by
    have hnamed := (hW.inv.control.named c).1
    rw [hpc] at hnamed
    exact hnamed
  obtain ⟨htime, hdue⟩ := hN.prepared (c := c) (w := w) (by rw [hpc]; rfl)
  have hpops : ∀ d, (s'.context d).pc.pops = (s.context d).pc.pops := by
    intro d
    by_cases hdc : d = c
    · rw [hdc, hpc', hpc]
      rfl
    · exact (hst.still_ne hW.inv hdc).pops
  refine ⟨fun {d w'} hd => ?_, fun w' hw' => ?_, fun w' hw' hno => ?_, fun {d w'} hd => ?_,
    fun {d} hd hno => ?_, hN.returned⟩
  · have hdc : d ≠ c := by
      rintro rfl
      rw [hpc'] at hd
      cases hd
    exact hN.prepared ((hst.still_ne hW.inv hdc).record ▸ hd)
  · rw [hbag] at hw'
    rcases Multiset.mem_cons.1 hw' with rfl | hw'
    · rw [hwc, htime]
    · exact hN.live w' hw'
  · rw [hbag] at hw'
    rcases Multiset.mem_cons.1 hw' with rfl | hw'
    · rw [hwc, hdue]
    · exact hN.undue w' hw' fun d => hpops d ▸ hno d
  · exact hN.chosen (hpops d ▸ hd)
  · rw [hbag] at hno
    have hdc : d ≠ c := by
      rintro rfl
      exact hno w (Multiset.mem_cons_self _ _) hwc
    exact hN.popped ((hst.still_ne hW.inv hdc).timed hd) fun w' hw' =>
      hno w' (Multiset.mem_cons_of_mem hw')

/-- `sched_handle_timers` finds the first timer due. -/
theorem TimesNoted.due {u : Tid} {v : Int} {w : TimerWait} {now : Timespec}
    (hpc : (s.context c).pc = .timersExpire u v w) (hd : timerExpiration w now ≤ 0)
    (hheap : s'.timerHeap = s.timerHeap) (hpc' : (s'.context c).pc = .timersPop u v w) :
    TimesNoted s' { n with due := Function.update n.due w.coro (n.due w.coro ++ [now]) } := by
  have hw : w ∈ s.timerHeap.bag := hW.mem_of_looks (d := c) (by rw [hpc]; rfl)
  have hnone : ∀ d, (s.context d).pc.pops = none := by
    intro d
    by_cases hdc : d = c
    · rw [hdc, hpc]
      rfl
    · exact hW.pops_none (c := c) (by rw [hpc]; trivial) hdc
  have hne : ∀ {x : Cid}, x ≠ w.coro →
      Function.update n.due w.coro (n.due w.coro ++ [now]) x = n.due x :=
    fun hx => Function.update_of_ne hx _ _
  refine ⟨fun {d w'} hd => ?_, fun w' hw' => ?_, fun w' hw' hno => ?_, fun {d w'} hd' => ?_,
    fun {d} hd hno => ?_, hN.returned⟩
  · have hdc : d ≠ c := by
      rintro rfl
      rw [hpc'] at hd
      cases hd
    have hrecord : (s.context d).pc.record = some w' := (hst.still_ne hW.inv hdc).record ▸ hd
    have hdw : d ≠ w.coro := by
      -- who has a record in the heap is not about to push it
      refine Ne.symm (hW.coro_ne hw ?_)
      generalize (s.context d).pc = pc at hrecord
      cases pc with
      | waitLock => exact id
      | waitPush => exact id
      | _ => cases hrecord
    obtain ⟨htime, hdue⟩ := hN.prepared hrecord
    exact ⟨htime, (hne hdw).trans hdue⟩
  · rw [hheap] at hw'
    exact hN.live w' hw'
  · rw [hheap] at hw'
    have hww : w'.coro ≠ w.coro := by
      intro heq
      obtain rfl := hW.record_unique hw' hw heq
      exact hno c (by rw [hpc']; rfl)
    refine (hne hww).trans (hN.undue w' hw' fun d hd => ?_)
    rw [hnone d] at hd
    cases hd
  · have hdc : d = c := by
      by_contra hdc
      rw [(hst.still_ne hW.inv hdc).pops, hnone d] at hd'
      cases hd'
    rw [hdc, hpc'] at hd'
    obtain rfl := Option.some.inj hd'
    have hundue : n.due w.coro = [] := hN.undue w hw fun d hd => by rw [hnone d] at hd; cases hd
    refine ⟨w.time, now, hN.live w hw, ?_, hd⟩
    change Function.update n.due w.coro (n.due w.coro ++ [now]) w.coro = [now]
    rw [Function.update_self, hundue, List.nil_append]
  · rw [hheap] at hno
    have hdc : d ≠ c := by
      rintro rfl
      rw [hpc'] at hd
      exact hd
    obtain ⟨d', now', htime, hdue, hexp⟩ := hN.popped ((hst.still_ne hW.inv hdc).timed hd) hno
    exact ⟨d', now', htime, (hne (hno w hw).symm).trans hdue, hexp⟩

/-- `heap_pop_min` in `sched_handle_timers`. -/
theorem TimesNoted.pop {u : Tid} {v : Int} {w : TimerWait} (hpc : (s.context c).pc = .timersPop u v w)
    (hheap : s'.timerHeap = (heapPopMin .block s.timerHeap).2)
    (hpc' : (s'.context c).pc = .scheduleXchg w.coro (.handleTimers u v)) : TimesNoted s' n := by
  have hw : w ∈ s.timerHeap.bag := hW.mem_of_pops (d := c) (by rw [hpc]; rfl)
  have hbag : w ::ₘ s'.timerHeap.bag = s.timerHeap.bag := by
    have hmin := hW.rooted c w (by rw [hpc]; rfl)
    have hi : s.timerHeap.items ≠ 0 := by
      intro h0
      simp [heapMin, h0] at hmin
    rw [heapMin_eq hi] at hmin
    rw [hheap, ← Option.some.inj hmin]
    exact hW.inv.heaped.bag_popMin hi
  have hold : ∀ {w'}, w' ∈ s'.timerHeap.bag → w' ∈ s.timerHeap.bag := by
    intro w' hw'
    rw [← hbag]
    exact Multiset.mem_cons_of_mem hw'
  have hout : ∀ w' ∈ s'.timerHeap.bag, w'.coro ≠ w.coro := by
    have hnodup : (s.timerHeap.bag.map (·.coro)).Nodup := hW.sound.excl.nodup .heap
    rw [← hbag, Multiset.map_cons, Multiset.nodup_cons] at hnodup
    intro w' hw' heq
    exact hnodup.1 (Multiset.mem_map.2 ⟨w', hw', heq⟩)
  have hnone : ∀ d, (s'.context d).pc.pops = none := by
    intro d
    by_cases hdc : d = c
    · rw [hdc, hpc']
      rfl
    · rw [(hst.still_ne hW.inv hdc).pops]
      exact hW.pops_none (c := c) (by rw [hpc]; trivial) hdc
  refine ⟨fun {d w'} hd => ?_, fun w' hw' => hN.live w' (hold hw'), fun w' hw' _ => ?_,
    fun {d w'} hd => ?_, fun {d} hd hno => ?_, hN.returned⟩
  · have hdc : d ≠ c := by
      rintro rfl
      rw [hpc'] at hd
      cases hd
    exact hN.prepared ((hst.still_ne hW.inv hdc).record ▸ hd)
  · refine hN.undue w' (hold hw') fun d hd => ?_
    by_cases hdc : d = c
    · rw [hdc, hpc] at hd
      obtain rfl := Option.some.inj hd
      exact hout w hw' rfl
    · rw [hW.pops_none (c := c) (by rw [hpc]; trivial) hdc] at hd
      cases hd
  · rw [hnone d] at hd
    cases hd
  · have hdc : d ≠ c := by
      rintro rfl
      rw [hpc'] at hd
      exact hd
    by_cases hdw : d = w.coro
    · rw [hdw]
      exact hN.chosen (d := c) (by rw [hpc]; rfl)
    · refine hN.popped ((hst.still_ne hW.inv hdc).timed hd) fun w' hw' => ?_
      rw [← hbag] at hw'
      rcases Multiset.mem_cons.1 hw' with rfl | hw'
      · exact Ne.symm hdw
      · exact hno w' hw'

/-- The return of `sched_wait`. -/
theorem TimesNoted.ret (hl : s.sched t = some l) (he : l.exec = .on c)
    (hpc : (s.context c).pc = .suspendUnblock .wait) (hheap : s'.timerHeap = s.timerHeap)
    (hpc' : (s'.context c).pc = .user) : TimesNoted s' { n with returns := n.returns ++ [n.call c] } := by
  have hparked : s.wake.phase c = .parked .timer := by simp only [State.wake, hpc]; rfl
  -- it executes, so it has been woken, so its record is not in the heap
  have hout : ∀ w ∈ s.timerHeap.bag, w.coro ≠ c := by
    rintro w hw rfl
    rcases hW.phase_of_mem hw with h | ⟨-, hword⟩
    · rw [hpc] at h
      cases h
    · rw [runnable_of_exec hW.sound hW.inv hl he hparked] at hword
      cases hword
  have hdue : (n.call c).Due := hN.popped (by rw [hpc]; trivial) hout
  have hstill : ∀ d, (s.context d).pc.Still (s'.context d).pc := by
    intro d
    by_cases hdc : d = c
    · rw [hdc, hpc, hpc']
      exact ⟨rfl, fun h => h.elim, rfl⟩
    · exact hst.still_ne hW.inv hdc
  have hkept := hN.keep (by rw [hheap]) hstill
  refine ⟨hkept.prepared, hkept.live, hkept.undue, hkept.chosen, hkept.popped, fun r hr => ?_⟩
  rcases List.mem_append.1 hr with hr | hr
  · exact hN.returned r hr
  · rw [List.mem_singleton.1 hr]
    exact hdue

theorem TimesNoted.stride (hl : s.sched t = some l) (he : l.exec = .on c)
    (hsig : (s.context c).sig = []) : TimesNoted s' (noteTimes s (.tick t i) n) := by
  have hrun : s.running t = some (c, (s.context c).pc) := by
    simp only [State.running, hl, he, hsig, List.isEmpty_nil, if_true]
  have hctx : s.context c = ⟨(s.context c).pc, []⟩ := by rw [← hsig]
  have hsit := hW.inv.control.sits hl
  simp only [Sits, he] at hsit
  have hcur := hsit.2.1
  simp only [noteTimes, hrun]
  have hstep := hst.timeStep
  generalize hpc : (s.context c).pc = pc at hstep
  rw [hctx, hpc] at hcur
  cases hstep with
  | call hi hheap hpc' =>
    subst hi
    have hcur : l.currentCoro = c := hcur
    rw [hcur] at hpc'
    exact hN.enter hW hst hpc hheap hpc'
  | push hbag hpc' => exact hN.push hW hst hpc hbag hpc'
  | due hi hd hheap hpc' =>
    subst hi
    simp only [Pc.noteTime, if_pos hd]
    exact hN.due hW hst hpc hd hheap hpc'
  | pop hheap hpc' => exact hN.pop hW hst hpc hheap hpc'
  | ret hheap hpc' => exact hN.ret hW hst hl he hpc hheap hpc'
  | other hn hbag hstill =>
    rw [hn]
    refine hN.keep hbag fun d => ?_
    by_cases hdc : d = c
    · rw [hdc, hpc]
      exact hstill
    · exact hst.still_ne hW.inv hdc

end

theorem TimesNoted.moves (hN : TimesNoted s n) (hW : Waking preemption s) (hl : s.sched t = some l)
    (hm : Moves seqOps preemption s t l a s') : TimesNoted s' (noteTimes s a n) := by
  rcases hm.stride_or_apart hl with ⟨c, k, i, rfl, he, -, hsig, hst⟩ | hA
  · exact hN.stride hW hst hl he hsig
  · rw [noteTimes_aside hA.running]
    refine hN.keep (by rw [hA.timerHeap]) fun d => ?_
    rw [hA.pc]
    exact .refl _

/-! ## Runs -/

section

variable {localSize : Nat} {garbage : Nat → TimerWait} {state errno threadErrno : Int}

theorem Noted.times
    (h : Noted seqOps preemption (fun s a => Undisturbed s a ∧ Safe s a) noteTimes
      (seqInit localSize garbage state errno threadErrno) .empty s n) (hf : s.failure = none) :
    TimesNoted s n := by
  induction h with
  | init =>
    have hbag : (seqInit localSize garbage state errno threadErrno).timerHeap.bag = 0 := rfl
    have hquiet : ∀ c, Pc.Still .user
        ((seqInit localSize garbage state errno threadErrno).context c).pc := by
      intro c
      rw [seqInit_context]
      split <;> exact ⟨rfl, id, rfl⟩
    refine ⟨fun {c w} hc => ?_, fun w hw => ?_, fun w hw => ?_, fun {d w} hd => ?_,
      fun {c} hc => ((hquiet c).timed hc).elim, fun r hr => absurd hr List.not_mem_nil⟩
    · rw [(hquiet c).record] at hc
      cases hc
    · rw [hbag] at hw
      cases hw
    · rw [hbag] at hw
      cases hw
    · rw [(hquiet d).pops] at hd
      cases hd
  | next h hok hs ih =>
    obtain ⟨hf₀, t, l, hl, -, hm⟩ := step_moves seqOps hs hf
    exact (ih hf₀).moves (h.reach.waking hf₀) hl hm

/-- **A call of `sched_wait` returns only after its deadline has come**, but for the last millisecond:
in every run, in either build and with signals at any point, in which user code wakes nobody that
waits, the record of each call that has returned was found due at one clock reading. -/
theorem wait_returns_due
    (h : Noted seqOps preemption Undisturbed noteTimes
      (seqInit localSize garbage state errno threadErrno) .empty s n) (hf : s.failure = none) :
    ∀ r ∈ n.returns, ∃ d now, r.time = some d ∧ r.due = [now] ∧
      timerExpiration ⟨d, r.coro⟩ now ≤ 0 ∧ (now.Fits d → d.nanos < now.nanos + 10 ^ 6) := by
  obtain ⟨s₀, ds, hN, -, rfl⟩ | hfail :=
    h.shadow And.left Undisturbed.overlay noteTimes_overlay noteTimes_aside
  · intro r hr
    obtain ⟨d, now, htime, hdue, hexp⟩ := (hN.times hf).returned r hr
    refine ⟨d, now, htime, hdue, hexp, fun hfits => ?_⟩
    have herror : |now.millisTo d * 10 ^ 6 - (d.nanos - now.nanos)| < 10 ^ 6 := millisTo_error
    have herror := abs_lt.1 herror
    rw [timerExpiration_eq hfits] at hexp
    have hexp : now.millisTo d ≤ 0 := hexp
    omega
  · rw [hfail] at hf
    cases hf

end

/-- The first call of the main coroutine has returned, the second has not. -/
theorem wait_returns_due_first :
    ∃ s n, noteRun seqOps false undisturbed noteTimes seqStart .empty waitTwice = some (s, n) ∧
      n.returns = [⟨0, some ⟨5, 0⟩, [⟨5, 0⟩]⟩] ∧ n.time 0 = some ⟨7, 0⟩ ∧
      ∀ r ∈ n.returns, ∃ d now, r.time = some d ∧ r.due = [now] ∧
        timerExpiration ⟨d, r.coro⟩ now ≤ 0 ∧ (now.Fits d → d.nanos < now.nanos + 10 ^ 6) := by
  obtain ⟨s, n, hr, hreturns, htime, hf⟩ :
      ∃ s n, noteRun seqOps false undisturbed noteTimes seqStart .empty waitTwice = some (s, n) ∧
        n.returns = [⟨0, some ⟨5, 0⟩, [⟨5, 0⟩]⟩] ∧ n.time 0 = some ⟨7, 0⟩ ∧ s.failure = none :=
    ⟨_, _, rfl, rfl, rfl, rfl⟩
  exact ⟨s, n, hr, hreturns, htime, wait_returns_due (Noted.run hr undisturbed.sound .init) hf⟩

end Lwthread.Scheduler
