import Lwthread.Scheduler.Frame

/-!
# Blocking in `epoll_wait`

`sched_loop` chooses a timeout other than 0 only when its run list is empty, and the list stays empty
until `epoll_wait` is entered. But `platform_poll_poll` calls `epoll_wait` again with that timeout
after a batch of `MAX_EVENTS` events, and the events may have put coroutines on the list. So a thread
may block with a run list that is not empty, and this is the only way: in runs in which no event of a
full batch finds its coroutine asleep (`Refills`), the list is empty whenever a thread blocks.
-/

namespace Lwthread.Scheduler

open Lwthread.Util Lwthread.Platform Custody

variable {preemption : Bool} {s s' : SeqState} {t : Tid} {l : LocalSched Unit} {c : Cid} {a : Act}

/-- Whenever a thread enters `epoll_wait` with a timeout other than 0, its run list is empty. -/
def BlocksIdle (s : SeqState) : Prop :=
  ∀ t l c u v, s.sched t = some l → l.started = true → l.exec = .on c →
    s.context c = ⟨.pollWait u v, []⟩ → v ≠ 0 → s.queues.list t = []

/-- The exchange in `sched_schedule` for an event of a full batch, got with a timeout other than 0,
is about to find its coroutine asleep. -/
def Refills (s : SeqState) (a : Act) : Prop :=
  ∃ t i l c x u v rest k, a = .tick t i ∧ s.sched t = some l ∧ l.exec = .on c ∧
    s.context c = ⟨.scheduleXchg x (.pollEvent u v rest true), []⟩ ∧ v ≠ 0 ∧ s.coro x = some k ∧
    k.state = STATE_BLOCKED

/-! ## The invariant -/

/-- The points between the choice of a timeout other than 0 and `epoll_wait`, with the handling of a
full batch. -/
@[simp] def Pc.Polls : Pc Unit Unit → Prop
  | .loopMin _ => True
  | .loopExpire _ _ => True
  | .pollWait _ v => v ≠ 0
  | .pollEvents _ v _ full => v ≠ 0 ∧ full = true
  | .scheduleXchg _ (.pollEvent _ v _ full) => v ≠ 0 ∧ full = true
  | _ => False

/-- A full batch has woken a coroutine. -/
@[simp] def Pc.Refilled : Pc Unit Unit → Prop
  | .scheduleEnqueue _ _ (.pollEvent _ v _ full) => v ≠ 0 ∧ full = true
  | _ => False

/-- A handler that has interrupted one of these points finds the run list empty, and no full batch
has woken a coroutine. -/
structure Context.Calm (x : Context Unit Unit) : Prop where
  handlers : x.pc.Polls → ∀ r ∈ x.sig, r = .check
  refilled : ¬x.pc.Refilled

/-- The run list is empty at these points. -/
def Drained (x : Context Unit Unit) (q : List Cid) : Prop := x.pc.Polls → q = []

theorem Context.Resumes.drained {x : Context Unit Unit} {q : List Cid} (h : x.Resumes)
    (hc : x.Calm) : Drained x q := by
  intro hp
  unfold Context.Resumes at h
  rcases hsig : x.sig with _ | ⟨r, rs⟩ <;> rw [hsig] at h
  · generalize x.pc = pc at h hp
    cases pc with
    | resched r ret => cases hp
    | trampoline => cases hp
    | suspendUnblock ret => cases hp
    | _ => cases h
  · have := hc.handlers hp r (by rw [hsig]; simp)
    simp only at h
    rw [this] at h
    cases h

/-! ## Steps -/

/-- A point outside all of this. -/
def Pc.Aloof (pc : Pc Unit Unit) : Prop := ¬pc.Polls ∧ ¬pc.Refilled

theorem ReschedRet.next_aloof (ret : ReschedRet) (r : Option (ReschedPc Unit Unit)) :
    (ret.next r).Aloof := by
  cases r <;> cases ret <;> simp [Pc.Aloof, ReschedRet.next, ReschedRet.pc]

theorem Start.pc_aloof (start : Start) : (start.pc : Pc Unit Unit).Aloof := by
  cases start <;> simp [Pc.Aloof, Start.pc]

theorem SuspendRet.pc_aloof (ret : SuspendRet) : (ret.pc : Pc Unit Unit).Aloof := by
  cases ret <;> simp [Pc.Aloof, SuspendRet.pc]

theorem ScheduleRet.pc_not_refilled (ret : ScheduleRet) : ¬(ret.pc : Pc Unit Unit).Refilled := by
  cases ret <;> simp [ScheduleRet.pc]

/-- `sched_poll_event` returns to the batch that it was called for. -/
theorem ScheduleRet.polls_of_pc {ret : ScheduleRet} (x : Cid) (p : EnqPc Unit)
    (h : (ret.pc : Pc Unit Unit).Polls) :
    (Pc.scheduleXchg x ret : Pc Unit Unit).Polls ∧
      (Pc.scheduleEnqueue x p ret : Pc Unit Unit).Refilled := by
  cases ret with
  | pollEvent u v rest full => exact ⟨h, h⟩
  | _ => cases h

theorem Pc.refilled_push {x : Cid} {p p' : EnqPc Unit} {ret : ScheduleRet}
    (h : (Pc.scheduleEnqueue x p ret : Pc Unit Unit).Refilled) :
    (Pc.scheduleEnqueue x p' ret : Pc Unit Unit).Refilled := by
  cases ret with
  | pollEvent u v rest full => exact h
  | _ => cases h

theorem afterTimers_aloof (u : Tid) (v : Int) : (afterTimers u v : Pc Unit Unit).Aloof := by
  unfold afterTimers
  split <;> simp [Pc.Aloof]

section

variable (hI : Inv preemption s) (hl : s.sched t = some l) (he : l.exec = .on c)

include hI hl he

/-- The event loop that a thread executes is its own. -/
theorem Inv.loop_self {u : Tid} (hloop : s.loopOf c = some u) : u = t :=
  Holder.thread.inj (hI.kept.excl.inj (hI.kept.home hloop) (hI.own_of_runs hl (.inl he)))

theorem Stride.drained {i : Input} (hsig : (s.context c).sig = [])
    (h : Stride seqOps preemption s t l c i (s.context c).pc s') (hC : (s.context c).Calm)
    (hD : Drained (s.context c) (s.queues.list t)) (hok : ¬Refills s (.tick t i)) :
    (s'.context c).Calm ∧ Drained (s'.context c) (s'.queues.list t) := by
  have hctx : s.context c = ⟨(s.context c).pc, []⟩ := by rw [← hsig]
  generalize hpc : (s.context c).pc = pc at h hctx
  have hsame := And.intro hC hD
  rw [hctx] at hC hD
  -- the step leaves these points
  have hout : ∀ {s₀ : SeqState} {pc' : Pc Unit Unit} {q : List Cid}, pc'.Aloof →
      ((s₀.goto c pc').context c).Calm ∧ Drained ((s₀.goto c pc').context c) q := by
    intro s₀ pc' q hp
    have hn : ¬((s₀.goto c pc').context c).pc.Polls := by rw [State.goto_pc]; exact hp.1
    exact ⟨⟨fun h => absurd h hn, by rw [State.goto_pc]; exact hp.2⟩, fun h => absurd h hn⟩
  -- the step goes from one of these points to another
  have hin : ∀ {s₀ : SeqState} {pc' : Pc Unit Unit}, s₀.context = s.context →
      s₀.queues = s.queues → (pc'.Polls → s.queues.list t = []) → ¬pc'.Refilled →
      ((s₀.goto c pc').context c).Calm ∧
        Drained ((s₀.goto c pc').context c) ((s₀.goto c pc').queues.list t) := by
    intro s₀ pc' h₀ hq hp hr
    rw [goto_context hsig h₀, Function.update_self, show (s₀.goto c pc').queues = _ from hq]
    exact ⟨⟨fun _ r hr => (List.not_mem_nil hr).elim, hr⟩, hp⟩
  cases h with
  | resched hy => exact hout (ReschedRet.next_aloof _ _)
  | flow hf =>
    cases hf with
    | @loopEmpty u hem =>
      refine hin rfl rfl (fun _ => ?_) (by simp)
      have hu := hI.loop_self hl he (u := u)
        (by rw [State.loopOf_of_pc (by rw [hpc]; simp), hpc]; rfl)
      subst hu
      simpa [seqOps] using hem
    | loopExpire => exact hin rfl rfl (fun _ => hD trivial) (by simp)
    | pollAgain => exact hin rfl rfl (fun h => hD ⟨h, rfl⟩) (by simp)
    | pollTaken => exact hin rfl rfl (fun h => hD h) (by simp)
    | timersNone => exact hout (afterTimers_aloof _ _)
    | scheduleAssert => exact hout ⟨by simp, fun h => hC.refilled (Pc.refilled_push h)⟩
    | _ => exact hout (by simp [Pc.Aloof])
  | setErrno => exact hsame
  | eintr => exact hsame
  | ret =>
    simp only [State.modSched, State.setPreempt_context, State.setPreempt_queues]
    exact hsame
  | trampoline => exact hout (Start.pc_aloof _)
  | suspendBlock => exact hout (by simp [Pc.Aloof])
  | suspendUnblock => exact hout (SuspendRet.pc_aloof _)
  | @park current x ret k hk hb =>
    exact @hout (s.modCoro current ({ · with state := STATE_BLOCKED })) (.suspendUnblock ret) _
      (by simp [Pc.Aloof])
  | @rouse x ret k hk hb =>
    exact hin rfl rfl (fun h => hD (ScheduleRet.polls_of_pc x .assert h).1) ret.pc_not_refilled
  | @wake x ret k hk hb =>
    refine hout ⟨by simp, fun h => hok ?_⟩
    cases ret with
    | pollEvent u v rest full =>
      obtain ⟨hv, rfl⟩ := h
      exact ⟨t, i, l, c, x, u, v, rest, k, rfl, hl, he, hctx, hv, hk, hb⟩
    | _ => cases h
  | @schedulePushed x p ret q hq =>
    exact hout ⟨fun h => hC.refilled (ScheduleRet.polls_of_pc x _ h).2, ret.pc_not_refilled⟩
  | schedulePush hq => rw [seqOps_push] at hq; cases hq
  | fetchAdd => exact hout (by split <;> simp [Pc.Aloof])
  | loopNone => exact hin rfl rfl (fun _ => hD trivial) (by simp)
  | loopMin => exact hin rfl rfl (fun _ => hD trivial) (by simp)
  | ready => exact hin rfl rfl (fun h => hD h.1) (by simp)
  | pollEvent => exact hin rfl rfl (fun h => hD h) (by simp)
  | timersMin => exact hout (by split <;> simp [Pc.Aloof])
  | timersUnlock =>
    refine hout ?_
    split
    · simp [Pc.Aloof]
    · exact afterTimers_aloof _ _
  | _ => exact hout (by simp [Pc.Aloof])

theorem Moves.drained (h : Moves seqOps preemption s t l a s') (hC : (s.context c).Calm)
    (hD : Drained (s.context c) (s.queues.list t)) (hok : ¬Refills s a) :
    (s'.context c).Calm ∧ Drained (s'.context c) (s'.queues.list t) := by
  cases h with
  | stride he' _ hsig hst =>
    cases he.symm.trans he'
    exact hst.drained hI hl he hsig hC hD hok
  | @handler d k r rs s₁ r' he' hk hsig hy =>
    cases he.symm.trans he'
    rw [State.setSig_self, hy.context_eq]
    by_cases hp : (s.context c).pc.Polls
    · -- the handler finds the run list empty and returns
      have hr := hC.handlers hp
      rw [hsig] at hr
      obtain rfl := hr r (by simp)
      cases hy with
      | idle => exact ⟨⟨fun _ r₁ hr₁ => hr r₁ (by simp at hr₁; simp [hr₁]), hC.refilled⟩, hD⟩
      | busy hne => simp [seqOps, hD hp] at hne
    · exact ⟨⟨fun h => absurd h hp, hC.refilled⟩, fun h => absurd h hp⟩
  | death hdt => rw [he] at hdt; cases hdt
  | signal _ _ he' =>
    cases he.symm.trans he'
    rw [State.setSig_self]
    refine ⟨⟨fun hp r hr => ?_, hC.refilled⟩, hD⟩
    rcases List.mem_cons.1 hr with rfl | hr
    · rfl
    · exact hC.handlers hp r hr

end

/-! ## Runs -/

/-- The condition on the runs: user code wakes only coroutines it got from `sched_new_coroutine`, no
signal comes between the enqueue and the switch of `sched_resched` (there is none in the default
build), and no event of a full batch finds its coroutine asleep. -/
def Unrefilled (s : SeqState) (a : Act) : Prop := Proper s a ∧ Safe s a ∧ ¬Refills s a

section

variable {localSize : Nat} {garbage : Nat → TimerWait} {state errno threadErrno : Int}

theorem Reach.drained
    (h : Reach seqOps preemption Unrefilled (seqInit localSize garbage state errno threadErrno) s)
    (hf : s.failure = none) : (∀ d, (s.context d).Calm) ∧
      ∀ {u lu d}, s.sched u = some lu → lu.started = true → lu.exec = .on d →
        Drained (s.context d) (s.queues.list u) := by
  induction h with
  | init =>
    constructor
    · intro d
      rw [seqInit_context]
      split <;> exact ⟨nofun, nofun⟩
    · intro u lu d _ _ _ hp
      rw [seqInit_context] at hp
      simp only at hp
      split at hp <;> cases hp
  | @next s s' a h hok hs ih =>
    obtain ⟨hf₀, t, l, hl, hrun, hm⟩ := step_moves seqOps hs hf
    obtain ⟨hI, hU⟩ := h.unstarted (fun h => ⟨h.1, h.2.1⟩) hf₀
    obtain ⟨hC, hD⟩ := ih hf₀
    have hC' : ∀ d, (s'.context d).Calm := by
      intro d
      by_cases hd : l.exec = .on d
      · exact (hm.drained hI hl hd (hC d) (hD hl hrun hd) hok.2.2).1
      · rcases hm.context_ne hd with h | ⟨-, -, h | ⟨u, h⟩⟩
        · rw [h]; exact hC d
        · rw [h]; exact ⟨nofun, nofun⟩
        · rw [h]; exact ⟨nofun, nofun⟩
    refine ⟨hC', fun hlu hst hed => ?_⟩
    exact hI.per_thread (P := fun _ _ => Drained) hl hm hU hD (fun _ => nofun)
      (fun hres => hres.drained (hC' _))
      (fun he hDc => (hm.drained hI hl he (hC _) hDc hok.2.2).2) hrun hlu hst hed

/-- **A thread blocks only with an empty run list**, in every state of a run in which no event of a
full batch finds its coroutine asleep. -/
theorem poll_blocks_idle
    (h : Reach seqOps preemption Unrefilled (seqInit localSize garbage state errno threadErrno) s)
    (hf : s.failure = none) : BlocksIdle s := by
  intro t l c u v hl hst he hctx hv
  refine (h.drained hf).2 hl hst he ?_
  rw [hctx]
  exact hv

end

/-- A check on actions for `Unrefilled`: no event of a full batch is handled, and no signal comes. -/
def unrefilled (s : SeqState) : Act → Bool
  | .signal _ => false
  | .tick t i => (Act.tick t i).leavesAsleep && match s.sched t with
    | none => true
    | some l => match l.exec with
      | .on c => match (s.context c).pc with
        | .scheduleXchg _ (.pollEvent _ _ _ true) => false
        | _ => true
      | _ => true

theorem unrefilled.sound (s : SeqState) (a : Act) (h : unrefilled s a = true) : Unrefilled s a := by
  cases a with
  | signal t => cases h
  | tick t i =>
    simp only [unrefilled, Bool.and_eq_true] at h
    refine ⟨Act.leavesAsleep.proper s _ h.1, nofun, ?_⟩
    rintro ⟨t', i', l, c, x, u, v, rest, k, ha, hl, he, hctx, -⟩
    cases ha
    simp [hl, he, hctx] at h

/-- The main coroutine waits for an event, and its thread blocks. -/
theorem poll_blocks_idle_event_wait :
    ∃ s l, run seqOps false unrefilled seqStart
        (.tick 0 (.op (.eventWait 3 1)) :: List.replicate 7 (.tick 0 .step)) = some s ∧
      s.sched 0 = some l ∧ s.context 1 = ⟨.pollWait 0 (-1), []⟩ ∧ s.queues.list 0 = [] := by
  obtain ⟨s, l, hr, hl, hst, he, hctx, hf⟩ :
      ∃ s l, run seqOps false unrefilled seqStart
          (.tick 0 (.op (.eventWait 3 1)) :: List.replicate 7 (.tick 0 .step)) = some s ∧
        s.sched 0 = some l ∧ l.started = true ∧ l.exec = .on 1 ∧
        s.context 1 = ⟨.pollWait 0 (-1), []⟩ ∧ s.failure = none :=
    ⟨_, _, rfl, rfl, rfl, rfl, rfl, rfl⟩
  exact ⟨s, l, hr, hl, hctx,
    poll_blocks_idle (Reach.run hr unrefilled.sound .init) hf 0 l 1 0 (-1) hl hst he hctx (by decide)⟩

/-! ## A full batch

The main coroutine makes 128 coroutines and waits for an event, and each of them waits for its own
descriptor. The event loop blocks, and all their events come in one batch. -/

/-- The actions of that run. -/
def fullBatch : List Act :=
  let steps (n : Nat) : List Act := List.replicate n (.tick 0 .step)
  let make : List Act := .tick 0 (.op .newCoroutine) :: steps 4
  let wait (fd : Nat) : List Act := .tick 0 (.op (.eventWait fd 1)) :: steps 4
  (List.replicate MAX_EVENTS make).flatten ++ wait 0 ++
    steps 2 ++ [.tick 0 (.epoll (.ready []))] ++ steps 7 ++
    ((List.range MAX_EVENTS).map fun j => steps 1 ++ wait (j + 2)).flatten ++
    steps 3 ++ [.tick 0 (.epoll (.ready ((List.range MAX_EVENTS).map fun j => (j + 2, 1))))] ++
    steps (4 * MAX_EVENTS + 1)

/-- The thread is about to block, and has a coroutine to run. -/
def blocksBusy (s : SeqState) : Bool :=
  s.failure.isNone && (s.sched 0).any fun l => l.started && match l.exec with
    | .on c => match s.context c with
      | ⟨.pollWait _ v, []⟩ => v ≠ 0 && !(s.queues.list 0).isEmpty
      | _ => false
    | _ => false

theorem blocksBusy.not_idle (h : blocksBusy s = true) : s.failure = none ∧ ¬BlocksIdle s := by
  simp only [blocksBusy, Bool.and_eq_true, Option.isNone_iff_eq_none, Option.any_eq_true] at h
  obtain ⟨hf, l, hl, hst, h⟩ := h
  refine ⟨hf, fun hidle => ?_⟩
  rcases he : l.exec with c | _ | d | x <;> simp only [he, Bool.false_eq_true] at h
  split at h
  · next u v hctx =>
    simp only [ne_eq, decide_not, Bool.and_eq_true, Bool.not_eq_true', decide_eq_false_iff_not] at h
    rw [hidle 0 l c u v hl hst he hctx h.1] at h
    simp at h
  · cases h

set_option maxRecDepth 10000 in
/-- **A thread may block although its run list is not empty.** -/
theorem poll_blocks_busy :
    ∃ s, Reach seqOps false Proper seqStart s ∧ s.failure = none ∧ ¬BlocksIdle s := by
  have hrun : (run seqOps false (fun _ => Act.leavesAsleep) seqStart fullBatch).any blocksBusy = true := by
    decide +kernel
  obtain ⟨s, hr, hs⟩ := Option.any_eq_true _ _ |>.1 hrun
  exact ⟨s, Reach.run hr Act.leavesAsleep.proper .init, blocksBusy.not_idle hs⟩

end Lwthread.Scheduler
