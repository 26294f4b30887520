import Lwthread.Scheduler.Wakers

/-!
# The records of timed waits

`sched_wait` keeps its `struct timer_wait` on the stack of its caller, and the timer heap has a
pointer to it. Here a run notes the record of the call that every coroutine is in (`noteWaits`). The
records in the heap are those of calls that have not returned, as long as user code does not call
`sched_schedule` on a coroutine that waits. Such a call makes `sched_wait` return with its record in
the heap.
-/

namespace Lwthread.Scheduler

open Lwthread.Util Lwthread.Platform Custody

/-! ## What is noted along a run -/

section

variable {Q ι δ : Type}

/-- What a step of the coroutine `c` at a point makes of the record of its call of `sched_wait`: the
record is there from the call to the return. -/
def Pc.noteWait (c : Cid) (i : Input) (n : Cid → Option TimerWait) : Pc ι δ → Cid → Option TimerWait
  | .user =>
    match i with
    | .op (.wait time) => Function.update n c (some ⟨time, c⟩)
    | _ => n
  | .suspendUnblock .wait => Function.update n c none
  | _ => n

/-- The records of the calls of `sched_wait` that have not returned. -/
def noteWaits (s : State Q ι δ) (a : Act) (n : Cid → Option TimerWait) : Cid → Option TimerWait :=
  match a with
  | .signal _ => n
  | .tick t i =>
    match s.running t with
    | none => n
    | some (c, pc) => pc.noteWait c i n

/-- Every record in the timer heap is that of a call that has not returned, and is there once. -/
structure RecordsLive (s : State Q ι δ) (n : Cid → Option TimerWait) : Prop where
  live : ∀ w ∈ s.timerHeap.bag, n w.coro = some w
  once : (s.timerHeap.bag.map (·.coro)).Nodup

end

variable {preemption : Bool} {s s' : SeqState} {t : Tid} {l : LocalSched Unit} {c : Cid} {i : Input}
  {a : Act} {n : Cid → Option TimerWait}

section

variable {pc : Pc Unit Unit} (hrun : s.running t = some (c, pc))

include hrun

theorem noteWaits_ne {d : Cid} (hd : d ≠ c) : noteWaits s (.tick t i) n d = n d := by
  simp only [noteWaits, hrun, Pc.noteWait]
  split
  · split
    · exact Function.update_of_ne hd _ _
    · rfl
  · exact Function.update_of_ne hd _ _
  · rfl

theorem noteWaits_eq (huser : pc ≠ .user) (hret : pc ≠ .suspendUnblock .wait) :
    noteWaits s (.tick t i) n = n := by
  simp only [noteWaits, hrun]
  cases pc with
  | user => exact absurd rfl huser
  | suspendUnblock ret =>
    cases ret with
    | wait => exact absurd rfl hret
    | _ => rfl
  | _ => rfl

end

theorem noteWaits_aside (h : Aside s a) : noteWaits s a n = n := by
  cases a with
  | signal => rfl
  | tick t i => simp only [noteWaits, h t i rfl]

theorem noteWaits_overlay {ds : Cid → List (ReschedPc Unit Unit)} (hfree : Free s ds a) :
    noteWaits (s.overlay ds) a n = noteWaits s a n := by
  cases a with
  | signal => rfl
  | tick t i =>
    have hrun : (s.overlay ds).running t = s.running t := running_overlay hfree
    simp only [noteWaits, hrun]

/-! ## The invariant -/

/-- The record that `sched_wait` is about to push. -/
@[simp] def Pc.record : Pc Unit Unit → Option TimerWait
  | .waitLock w => some w
  | .waitPush w => some w
  | _ => none

theorem afterTimers_record (u : Tid) (v : Int) : (afterTimers u v : Pc Unit Unit).record = none := by
  unfold afterTimers
  split <;> rfl

/-- What a step of the code of `c` does to the record that it is about to push. -/
theorem Stride.record (hst : Stride seqOps preemption s t l c i (s.context c).pc s') :
    (s'.context c).pc.record = none ∨
      (s'.context c).pc.record = (s.context c).pc.record ∨
      ∃ time, (s.context c).pc = .user ∧ i = .op (.wait time) ∧
        (s'.context c).pc.record = some ⟨time, l.currentCoro⟩ := by
  generalize hpc : (s.context c).pc = pc at hst
  have hout : ∀ {s₀ : SeqState} {pc' : Pc Unit Unit}, pc'.record = none →
      ((s₀.goto c pc').context c).pc.record = none := by
    intro s₀ pc' h
    rw [State.goto_pc, h]
  cases hst with
  | @resched r ret s₁ r' hy =>
    cases r' with
    | none => cases ret <;> exact .inl (hout rfl)
    | some r' => exact .inl (hout rfl)
  | flow hf =>
    cases hf with
    | timersNone => exact .inl (hout (afterTimers_record _ _))
    | _ => exact .inl (hout rfl)
  | @trampoline k start => cases start <;> exact .inl (hout rfl)
  | setErrno => exact .inl (by simp [State.modSched, hpc])
  | wait hi => exact .inr (.inr ⟨_, rfl, hi, by rw [State.goto_pc]; rfl⟩)
  | ret => exact .inl (by simp [State.modSched, hpc])
  | waitLock => exact .inr (.inl (by rw [State.goto_pc]; rfl))
  | park => exact .inl (by simp [State.modSched, State.goto])
  | @suspendUnblock ret => cases ret <;> exact .inl (hout rfl)
  | @rouse x ret => cases ret <;> exact .inl (hout rfl)
  | @schedulePushed x p ret => cases ret <;> exact .inl (hout rfl)
  | fetchAdd => refine .inl (hout ?_); split <;> rfl
  | eintr => exact .inl (by rw [hpc]; rfl)
  | timersMin => refine .inl (hout ?_); split <;> rfl
  | @timersUnlock u v again =>
    refine .inl (hout ?_)
    cases again
    · exact afterTimers_record u v
    · rfl
  | _ => exact .inl (hout rfl)

/-- The records in the heap, and those about to be pushed there, are those of calls that have not
returned. -/
structure Recording (s : SeqState) (n : Cid → Option TimerWait) : Prop where
  writes : ∀ {c w}, (s.context c).pc.record = some w → n c = some w
  live : ∀ w ∈ s.timerHeap.bag, n w.coro = some w

section

variable (hW : Waking preemption s) (hl : s.sched t = some l)

include hW hl

theorem Recording.stride (hR : Recording s n) (he : l.exec = .on c) (hsig : (s.context c).sig = [])
    (hst : Stride seqOps preemption s t l c i (s.context c).pc s') :
    Recording s' (noteWaits s (.tick t i) n) := by
  have hrun : s.running t = some (c, (s.context c).pc) := by
    simp only [State.running, hl, he, hsig, List.isEmpty_nil, if_true]
  have hctx : s.context c = ⟨(s.context c).pc, []⟩ := by rw [← hsig]
  have hnamed := (hW.inv.control.named c).1
  refine ⟨fun {d w} hd => ?_, fun w hw => ?_⟩
  · by_cases hdc : d = c
    · subst hdc
      rcases hst.record with h | h | ⟨time, hpc, rfl, h⟩
      · rw [h] at hd; cases hd
      · rw [h] at hd
        rw [noteWaits_eq hrun (by rintro hpc; rw [hpc] at hd; cases hd)
          (by rintro hpc; rw [hpc] at hd; cases hd)]
        exact hR.writes hd
      · have hsit := hW.inv.control.sits hl
        simp only [Sits, he] at hsit
        have hcur : l.currentCoro = d := by rw [hsit.2.1, hctx, hpc]; rfl
        rw [h, hcur] at hd
        rw [hpc] at hrun
        simp only [noteWaits, hrun, Pc.noteWait, Function.update_self]
        exact hd
    · rw [noteWaits_ne hrun hdc]
      refine hR.writes ?_
      rcases hst.context_ne hdc with h | ⟨-, -, h | ⟨u, h⟩⟩
      · rw [← h]; exact hd
      · rw [h] at hd; cases hd
      · rw [h] at hd; cases hd
  · have hold : w ∈ s.timerHeap.bag → noteWaits s (.tick t i) n w.coro = some w := by
      intro hw
      by_cases hwc : w.coro = c
      · -- a coroutine with a timer in the heap is in `sched_wait`, and has not been woken
        have htok : c ∈ s.wake.held .heap := Multiset.mem_map.2 ⟨w, hw, hwc⟩
        obtain ⟨k, -, hphase⟩ := hW.sound.token htok
        have hphase' : (s.context c).pc.wait = .published k ∨ (s.context c).pc.wait = .parked k ∧
            s.wake.word c = some STATE_BLOCKED := hphase.imp And.left id
        rw [noteWaits_eq hrun]
        · exact hR.live w hw
        · intro hpc
          rcases hphase' with h | ⟨h, -⟩ <;> rw [hpc] at h <;> cases h
        · intro hpc
          rcases hphase' with h | ⟨h, hword⟩
          · rw [hpc] at h; cases h
          · rw [runnable_of_exec hW.sound hW.inv hl he h] at hword
            cases hword
      · rw [noteWaits_ne hrun hwc]
        exact hR.live w hw
    have hstep := hst.heapStep
    generalize hpc : (s.context c).pc = pc at hstep
    cases hstep with
    | same h => rw [h] at hw; exact hold hw
    | min h => rw [h, heapMin_bag] at hw; exact hold hw
    | pop h => rw [h] at hw; exact hold (hW.inv.heaped.mem_popMin hw)
    | @push w₀ hf h =>
      rw [h, heapPush_bag] at hw
      rcases Multiset.mem_cons.1 hw with rfl | hw
      · have hwc : w.coro = c := by rw [hpc] at hnamed; exact hnamed
        rw [hpc] at hrun
        rw [noteWaits_eq hrun (by rintro ⟨⟩) (by rintro ⟨⟩), hwc]
        exact hR.writes (by rw [hpc]; rfl)
      · exact hold hw

theorem Recording.moves (hR : Recording s n) (hm : Moves seqOps preemption s t l a s') :
    Recording s' (noteWaits s a n) := by
  rcases hm.stride_or_apart hl with ⟨c, k, i, rfl, he, -, hsig, hst⟩ | hA
  · exact hR.stride hW hl he hsig hst
  · rw [noteWaits_aside hA.running]
    exact ⟨fun {d w} hd => hR.writes (hA.pc d ▸ hd), fun w hw => hR.live w (hA.timerHeap ▸ hw)⟩

end

/-! ## Runs -/

section

variable {localSize : Nat} {garbage : Nat → TimerWait} {state errno threadErrno : Int}

theorem Noted.records
    (h : Noted seqOps preemption (fun s a => Undisturbed s a ∧ Safe s a) noteWaits
      (seqInit localSize garbage state errno threadErrno) (fun _ => none) s n)
    (hf : s.failure = none) : RecordsLive s n := by
  have hR : Recording s n := by
    induction h with
    | init =>
      refine ⟨fun {c w} hc => ?_, fun w hw => ?_⟩
      · rw [seqInit_context] at hc
        revert hc
        split <;> exact nofun
      · have hbag : (seqInit localSize garbage state errno threadErrno).timerHeap.bag = 0 := rfl
        rw [hbag] at hw
        cases hw
    | @next s s' a n h hok hs ih =>
      obtain ⟨hf, t, l, hl, -, hm⟩ := step_moves seqOps hs hf
      exact (ih hf).moves (h.reach.waking hf) hl hm
  exact ⟨hR.live, (h.reach.waking hf).sound.excl.nodup .heap⟩

/-- **Every record in the timer heap is that of a call of `sched_wait` that has not returned**, in
every state of a run in which user code does not call `sched_schedule` on a coroutine that is
`BLOCKING` or `BLOCKED`. -/
theorem timer_records_live
    (h : Noted seqOps preemption Undisturbed noteWaits
      (seqInit localSize garbage state errno threadErrno) (fun _ => none) s n)
    (hf : s.failure = none) : RecordsLive s n := by
  obtain ⟨s₀, ds, hN, -, rfl⟩ :=
    (h.shadow And.left Undisturbed.overlay noteWaits_overlay noteWaits_aside).resolve_right
      (by rw [hf]; nofun)
  have hR : RecordsLive s₀ n := hN.records hf
  exact ⟨hR.live, hR.once⟩

end

/-- A check on actions for `Undisturbed`: user code wakes nobody. -/
def undisturbed (s : SeqState) (a : Act) : Bool :=
  a.leavesAsleep &&
    match a with
    | .signal _ => true
    | .tick t _ =>
      match s.running t with
      | some (_, .scheduleXchg _ .user) => false
      | _ => true

theorem undisturbed.sound (s : SeqState) (a : Act) (h : undisturbed s a = true) :
    Undisturbed s a := by
  simp only [undisturbed, Bool.and_eq_true] at h
  refine ⟨Act.leavesAsleep.proper s a h.1, ?_⟩
  rintro ⟨t, i, c, x, rfl, hrun, -⟩
  simp [hrun] at h

/-- The main coroutine waits until second 5, its event loop finds the time come and wakes it, and it
waits again. -/
def waitTwice : List Act :=
  let steps (n : Nat) : List Act := List.replicate n (.tick 0 .step)
  .tick 0 (.op (.wait ⟨5, 0⟩)) :: steps 9 ++ [.tick 0 (.clock ⟨0, 0⟩), .tick 0 (.epoll (.ready []))] ++
    steps 4 ++ [.tick 0 (.clock ⟨5, 0⟩)] ++ steps 7 ++ [.tick 0 (.epoll (.ready []))] ++ steps 8 ++
    [.tick 0 (.op (.wait ⟨7, 0⟩))] ++ steps 3

theorem timer_records_live_again :
    ∃ s n, noteRun seqOps false undisturbed noteWaits seqStart (fun _ => none) waitTwice =
        some (s, n) ∧ s.timerHeap.bag = {⟨⟨7, 0⟩, 0⟩} ∧ n 0 = some ⟨⟨7, 0⟩, 0⟩ ∧ RecordsLive s n := by
  obtain ⟨s, n, hr, hbag, hn, hf⟩ :
      ∃ s n, noteRun seqOps false undisturbed noteWaits seqStart (fun _ => none) waitTwice =
          some (s, n) ∧ s.timerHeap.bag = {⟨⟨7, 0⟩, 0⟩} ∧ n 0 = some ⟨⟨7, 0⟩, 0⟩ ∧
        s.failure = none := ⟨_, _, rfl, rfl, rfl, rfl⟩
  exact ⟨s, n, hr, hbag, hn, timer_records_live (Noted.run hr undisturbed.sound .init) hf⟩

/-- The main coroutine makes a coroutine and yields; the event loop runs once; the new coroutine
waits until second 5. -/
def otherWaits : List Act :=
  let steps (n : Nat) : List Act := List.replicate n (.tick 0 .step)
  .tick 0 (.op .newCoroutine) :: steps 4 ++ [.tick 0 (.op .resched)] ++ steps 7 ++
    [.tick 0 (.epoll (.ready []))] ++ steps 8 ++ [.tick 0 (.op (.wait ⟨5, 0⟩))] ++ steps 7

/-- The main coroutine, which has called `sched_schedule` on the other, yields; the event loop finds
that second 5 has not come; the other coroutine returns from `sched_wait`. -/
def otherReturns : List Act :=
  let steps (n : Nat) : List Act := List.replicate n (.tick 0 .step)
  steps 3 ++ [.tick 0 (.op .resched)] ++ steps 7 ++ [.tick 0 (.epoll (.ready []))] ++ steps 4 ++
    [.tick 0 (.clock ⟨0, 0⟩)] ++ steps 7

/-- **`sched_schedule` on a coroutine that waits makes `sched_wait` return with its record in the
heap**: the coroutine 2 is in user code, in no call, and the heap has its record. -/
theorem schedule_leaves_record :
    ∃ s n, Noted seqOps false Proper noteWaits seqStart (fun _ => none) s n ∧ s.failure = none ∧
      (s.context 2).pc = .user ∧ ⟨⟨5, 0⟩, 2⟩ ∈ s.timerHeap.bag ∧ n 2 = none ∧ ¬RecordsLive s n := by
  obtain ⟨s₁, n₁, s₂, s, n, hr₁, hf₁, hword, hmem, hs, hr, hf, hpc, hbag, hn⟩ :
      ∃ s₁ n₁ s₂ s n,
        noteRun seqOps false (fun _ => Act.leavesAsleep) noteWaits seqStart (fun _ => none)
          otherWaits = some (s₁, n₁) ∧ s₁.failure = none ∧
        s₁.word 2 = some (STATE_BLOCKED, some .user) ∧ s₁.timerHeap.bag = {⟨⟨5, 0⟩, 2⟩} ∧
        step seqOps false s₁ (.tick 0 (.op (.schedule 2))) = some s₂ ∧
        noteRun seqOps false (fun _ => Act.leavesAsleep) noteWaits s₂
          (noteWaits s₁ (.tick 0 (.op (.schedule 2))) n₁) otherReturns = some (s, n) ∧
        s.failure = none ∧ (s.context 2).pc = .user ∧ s.timerHeap.bag = {⟨⟨5, 0⟩, 2⟩} ∧ n 2 = none :=
    ⟨_, _, _, _, _, rfl, rfl, rfl, rfl, rfl, rfl, rfl, rfl, rfl, rfl⟩
  have h₁ : Noted seqOps false Proper noteWaits seqStart (fun _ => none) s₁ n₁ :=
    Noted.run hr₁ Act.leavesAsleep.proper .init
  have hI : Inv false s₁ := (h₁.reach.mono fun hs hok => ⟨hok, default_safe hs⟩).inv hf₁
  have hwait : (⟨⟨5, 0⟩, 2⟩ : TimerWait) ∈ s.timerHeap.bag := by
    rw [hbag]; exact Multiset.mem_singleton_self _
  refine ⟨s, n, Noted.run hr Act.leavesAsleep.proper (h₁.next ?_ hs), hf, hpc, hwait, hn, fun h => ?_⟩
  · rintro t x ⟨⟩
    have hwait₁ : (⟨⟨5, 0⟩, 2⟩ : TimerWait) ∈ s₁.timerHeap.bag := by
      rw [hmem]; exact Multiset.mem_singleton_self _
    exact ⟨⟨_, hword⟩, fun c hc => hI.kept.new (p := c) hc (.timer hwait₁ rfl)⟩
  · have := h.live _ hwait
    rw [hn] at this
    cases this

end Lwthread.Scheduler
