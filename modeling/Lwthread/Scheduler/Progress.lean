import Lwthread.Scheduler.Lock

/-!
# Progress

In the default build no thread is deadlocked on `gsched->lock`. A started thread that is not in
`epoll_wait` has a step of its own to take, or it waits for the lock, which is held by a coroutine that
another thread executes; and that thread, which is not in `epoll_wait`, has a step of its own to take
(`threads_progress`). The lock is held for a bounded number of steps: a thread that holds it gives it
back within seven steps of its own (`lock_given_back`). So no thread waits for the lock for ever, if the
others go on.

A step of its own may be the one that stops the program. Whether `epoll_wait` returns is not up to the
thread, and is left open here.
-/

namespace Lwthread.Scheduler

open Lwthread.Util Lwthread.Platform Custody

variable {preemption : Bool} {s s' : SeqState} {t u : Tid} {l lu : LocalSched Unit} {c d : Cid}
  {i : Input} {a : Act}

/-! ## Steps that are there to take -/

/-- Thread `t` has a step of its own to take, after which the program goes on. -/
def CanStep (s : SeqState) (t : Tid) : Prop :=
  ∃ i s', step seqOps false s (.tick t i) = some s' ∧ s'.failure = none ∧ ∀ o, i ≠ .epoll o

/-- The next step of thread `t` stops the program, whatever the environment chooses. -/
def Stops (s : SeqState) (t : Tid) : Prop :=
  (∃ i s', step seqOps false s (.tick t i) = some s') ∧
    ∀ i s', step seqOps false s (.tick t i) = some s' → s'.failure ≠ none

/-- A thread is in `epoll_wait`. -/
def InEpollWait (s : SeqState) (l : LocalSched Unit) : Prop :=
  ∃ c u v, l.exec = .on c ∧ (s.context c).pc = .pollWait u v

/-- A coroutine has a step to take at every point, but in `epoll_wait` and for a call of `glock` while
the lock is held. -/
theorem pcStep_enabled (k : Coroutine) (h : (s.context c).pc.Locks → s.lock = none)
    (hpoll : ∀ u v, (s.context c).pc ≠ .pollWait u v) :
    ∃ i, (pcStep seqOps preemption s t c k l i).isSome = true := by
  unfold pcStep
  generalize (s.context c).pc = pc at h hpoll
  cases pc with
  | user => exact ⟨.op .resched, rfl⟩
  | waitLock w => exact ⟨.step, by simp only [h trivial, if_true]; rfl⟩
  | timersLock u v => exact ⟨.step, by simp only [h trivial, if_true]; rfl⟩
  | waitPush w =>
    refine ⟨.step, ?_⟩
    dsimp only
    split <;> rfl
  | eventRegister fd events =>
    refine ⟨.step, ?_⟩
    dsimp only
    split <;> rfl
  | eventUnregister fd =>
    refine ⟨.step, ?_⟩
    dsimp only
    split
    · split
      · rfl
      · split <;> rfl
    · rfl
  | newLocal x slot => exact ⟨.garbage 0 0, rfl⟩
  | loopExpire u w => exact ⟨.clock ⟨0, 0⟩, rfl⟩
  | pollWait u v => exact absurd rfl (hpoll u v)
  | pollEvents u v batch full =>
    cases batch with
    | nil => exact ⟨.step, rfl⟩
    | cons e rest => exact ⟨.step, rfl⟩
  | timersExpire u v w => exact ⟨.clock ⟨0, 0⟩, rfl⟩
  | _ => exact ⟨.step, rfl⟩

/-- Only `epoll_wait` takes what it returns. -/
theorem pcStep_epoll {k : Coroutine} {o : Outcome Nat}
    (h : pcStep seqOps preemption s t c k l (.epoll o) = some s') :
    ∃ u v, (s.context c).pc = .pollWait u v := by
  unfold pcStep at h
  generalize (s.context c).pc = pc at h
  cases pc with
  | pollWait u v => exact ⟨u, v, rfl⟩
  | pollEvents u v batch full => cases batch <;> cases h
  | _ => cases h

theorem deathStep_enabled (he : ∀ c, l.exec ≠ .on c) :
    (deathStep seqOps s t l).isSome = true := by
  unfold deathStep
  rcases hl : l.exec with c | _ | p | x
  · exact absurd hl (he c)
  · dsimp only
    split <;> rfl
  · rfl
  · rfl

theorem step_tick (hf : s.failure = none) :
    step seqOps false s (.tick t i) = threadStep seqOps false s t i := by
  unfold Scheduler.step
  rw [hf]
  rfl

/-- A started thread has a step of its own to take, unless it is in `epoll_wait` or calls `glock` while
the lock is held. -/
theorem Inv.canStep (hI : Inv false s) (hf : s.failure = none) (hl : s.sched t = some l)
    (hrun : l.started = true) (hpoll : ¬InEpollWait s l)
    (h : ∀ c, l.exec = .on c → (s.context c).pc.Locks → s.lock = none) :
    CanStep s t ∨ Stops s t := by
  have henabled : ∃ i s', Scheduler.step seqOps false s (.tick t i) = some s' := by
    simp only [← Option.isSome_iff_exists, step_tick hf, threadStep, hl, hrun, if_true]
    rcases he : l.exec with c | _ | p | x
    · have hsits := hI.control.sits hl
      simp only [Sits, he] at hsits
      obtain ⟨k, hk⟩ : ∃ k, s.coro c = some k := by
        refine Option.ne_none_iff_exists'.1 fun hn => hsits.1 ?_
        unfold State.word
        rw [hn]
        rfl
      simp only [hk, hI.control.quiet rfl c]
      exact pcStep_enabled k (h c he) fun u v hpc => hpoll ⟨c, u, v, he, hpc⟩
    all_goals exact ⟨.step, deathStep_enabled fun c hc => by rw [he] at hc; cases hc⟩
  by_cases hstop : ∀ i s', Scheduler.step seqOps false s (.tick t i) = some s' → s'.failure ≠ none
  · exact .inr ⟨henabled, hstop⟩
  · push Not at hstop
    obtain ⟨i, s', hs, hf'⟩ := hstop
    refine .inl ⟨i, s', hs, hf', ?_⟩
    -- a thread that takes what `epoll_wait` returns is in `epoll_wait`
    rintro o rfl
    rw [step_tick hf] at hs
    simp only [threadStep, hl, hrun, if_true] at hs
    rcases he : l.exec with c | _ | p | x
    · simp only [he] at hs
      rcases hk : s.coro c with _ | k
      · rw [hk] at hs
        cases hs
      · simp only [hk, hI.control.quiet rfl c] at hs
        obtain ⟨u, v, hpc⟩ := pcStep_epoll hs
        exact hpoll ⟨c, u, v, he, hpc⟩
    all_goals
      rw [he] at hs
      cases hs

/-! ## Runs of the default build -/

section

variable {localSize : Nat} {garbage : Nat → TimerWait} {state errno threadErrno : Int}

/-- No signal, no handler that could preempt a holder. -/
theorem Inv.not_preemptsHolder (hI : Inv false s) : ¬PreemptsHolder seqOps s a := by
  rintro ⟨t, i, l, c, rs, -, -, -, hsig, -⟩
  rw [hI.control.quiet rfl c] at hsig
  cases hsig

theorem Reach.locking
    (h : Reach seqOps false Proper (seqInit localSize garbage state errno threadErrno) s)
    (hf : s.failure = none) : (Inv false s ∧ Unstarted s) ∧ Locking s := by
  have hR : Reach seqOps false (fun s a => Proper s a ∧ Safe s a)
      (seqInit localSize garbage state errno threadErrno) s :=
    h.mono fun hs hok => ⟨hok, default_safe hs⟩
  refine ⟨hR.unstarted id hf, ?_⟩
  clear h
  induction hR with
  | init => exact ⟨schedInit_holding, by rintro c ⟨⟩, by rintro c ⟨⟩⟩
  | @next s s' a h hok hs ih =>
    obtain ⟨hf₀, t, l, hl, -, hm⟩ := step_moves seqOps hs hf
    exact (ih hf₀).moves hl hm (h.inv hf₀).not_preemptsHolder

/-- What a started thread may wait for: the lock, held by a coroutine that another thread executes,
which has a step of its own to take. -/
def WaitsForLock (s : SeqState) (t : Tid) (l : LocalSched Unit) : Prop :=
  ∃ c d u lu, l.exec = .on c ∧ (s.context c).pc.Locks ∧ s.lock = some d ∧ u ≠ t ∧
    s.sched u = some lu ∧ lu.started = true ∧ lu.exec = .on d ∧ (CanStep s u ∨ Stops s u)

theorem Pc.not_locks_of_locked {pc : Pc Unit Unit} (h : pc.Locked) : ¬pc.Locks := by
  cases pc <;> first | exact id | exact h.elim

/-- **No deadlock on `gsched->lock`**: in every reachable state of the default build a started thread is
in `epoll_wait`, or has a step of its own to take, or waits for the lock while the thread that executes
its holder has one. -/
theorem threads_progress
    (h : Reach seqOps false Proper (seqInit localSize garbage state errno threadErrno) s)
    (hf : s.failure = none) (hl : s.sched t = some l) (hrun : l.started = true) :
    InEpollWait s l ∨ (CanStep s t ∨ Stops s t) ∨ WaitsForLock s t l := by
  obtain ⟨⟨hI, hU⟩, hL⟩ := h.locking hf
  by_cases hpoll : InEpollWait s l
  · exact .inl hpoll
  by_cases hfree : ∀ c, l.exec = .on c → (s.context c).pc.Locks → s.lock = none
  · exact .inr (.inl (hI.canStep hf hl hrun hpoll hfree))
  · refine .inr (.inr ?_)
    push Not at hfree
    obtain ⟨c, he, hpc, hne⟩ := hfree
    obtain ⟨d, hd⟩ := Option.ne_none_iff_exists'.1 hne
    obtain ⟨u, lu, hut, hlu, hed⟩ := hL.lockRuns.elsewhere hl he hpc hd
    have hlocked : (s.context d).pc.Locked := (hL.holder d).2 hd
    have hst : lu.started = true := by
      by_contra hns
      obtain ⟨e, hee, hctx⟩ := hU hlu (by simpa using hns)
      obtain rfl : d = e := Exec.on.inj (hed.symm.trans hee)
      rw [hctx] at hlocked
      exact hlocked
    refine ⟨c, d, u, lu, he, hpc, hd, hut, hlu, hst, hed, hI.canStep hf hlu hst ?_ ?_⟩
    · rintro ⟨e, v, w, hee, hwait⟩
      obtain rfl : d = e := Exec.on.inj (hed.symm.trans hee)
      rw [hwait] at hlocked
      exact hlocked
    · intro e hee hlocks
      obtain rfl : d = e := Exec.on.inj (hed.symm.trans hee)
      exact absurd hlocks (Pc.not_locks_of_locked hlocked)

/-! ## How long the lock is held -/

/-- How many steps of the holder of the lock are left at most until it gives the lock back. -/
@[simp] def Pc.lockLeft : Pc Unit Unit → Nat
  | .waitPush _ => 2
  | .waitUnlock => 1
  | .timersMin _ _ => 7
  | .timersExpire _ _ _ => 6
  | .timersPop _ _ _ => 5
  | .scheduleXchg _ _ => 4
  | .scheduleEnqueue _ .assert _ => 3
  | .scheduleEnqueue _ (.push _) _ => 2
  | .timersUnlock _ _ _ => 1
  | _ => 0

theorem Pc.lockLeft_pos {pc : Pc Unit Unit} (h : pc.Locked) : 0 < pc.lockLeft := by
  cases pc with
  | scheduleEnqueue x p ret => cases p <;> simp
  | _ => first | exact h.elim | simp

theorem Pc.lockLeft_le (pc : Pc Unit Unit) : pc.lockLeft ≤ 7 := by
  cases pc with
  | scheduleEnqueue x p ret => cases p <;> simp
  | _ => simp

/-- A step of the holder gives the lock back, or brings that closer. -/
theorem Stride.lockLeft (h : Stride seqOps preemption s t l c i (s.context c).pc s')
    (hlocked : (s.context c).pc.Locked) :
    s'.lock = none ∨
      s'.lock = s.lock ∧ (s'.context c).pc.lockLeft < (s.context c).pc.lockLeft := by
  generalize (s.context c).pc = pc at h hlocked
  have hgo : ∀ {s₀ : SeqState} {pc' : Pc Unit Unit}, s₀.lock = s.lock → pc'.lockLeft < pc.lockLeft →
      (s₀.goto c pc').lock = s.lock ∧ ((s₀.goto c pc').context c).pc.lockLeft < pc.lockLeft := by
    intro s₀ pc' hlock hlt
    rw [State.goto_pc]
    exact ⟨hlock, hlt⟩
  cases h with
  | flow hf =>
    cases hf with
    | scheduleAssert => exact .inr (hgo rfl (by simp))
    | timersDue => exact .inr (hgo rfl (by simp))
    | timersLater => exact .inr (hgo rfl (by simp))
    | _ => exact hlocked.elim
  | waitPush => exact .inr (hgo rfl (by simp))
  | waitUnlock => exact .inl rfl
  | @rouse x ret =>
    cases ret <;> first | exact hlocked.elim | exact .inr (hgo rfl (by simp [ScheduleRet.pc]))
  | wake => exact .inr (hgo rfl (by simp))
  | schedulePush hq => rw [seqOps_push] at hq; cases hq
  | @schedulePushed x p ret q hq =>
    cases ret <;> first | exact hlocked.elim | exact .inr (hgo rfl (by simp [ScheduleRet.pc]))
  | timersMin =>
    refine .inr (hgo rfl ?_)
    split <;> simp
  | timersPop => exact .inr (hgo rfl (by simp))
  | timersUnlock => exact .inl rfl
  | _ => exact hlocked.elim

/-- Count the steps of thread `u`. -/
def countSteps (u : Tid) (_ : SeqState) (a : Act) (n : Nat) : Nat :=
  if a.thread = u then n + 1 else n

/-- The holder `d` of the lock executes on thread `u`, which has taken `n` steps with the lock and
has few left. -/
structure Holds (d : Cid) (u : Tid) (n : Nat) (s : SeqState) : Prop where
  lock : s.lock = some d
  exec : ∃ lu, s.sched u = some lu ∧ lu.exec = .on d
  left : n + (s.context d).pc.lockLeft ≤ 7

theorem Holds.moves (hI : Inv false s) (hL : Locking s) {n : Nat} (hH : Holds d u n s)
    (hl : s.sched t = some l) (hm : Moves seqOps false s t l a s') :
    Holds d u (countSteps u s a n) s' ∨ s'.lock = none ∧ countSteps u s a n ≤ 7 := by
  obtain ⟨lu, hlu, hed⟩ := hH.exec
  have hlocked : (s.context d).pc.Locked := (hL.holder d).2 hH.lock
  have hat : a.thread = t := by cases hm <;> rfl
  by_cases hut : u = t
  · subst hut
    obtain rfl : l = lu := Option.some.inj (hl.symm.trans hlu)
    have hn : countSteps u s a n = n + 1 := if_pos hat
    have hpos := Pc.lockLeft_pos hlocked
    have hleft := hH.left
    cases hm with
    | @stride c k i _ he hk hsig hst =>
      obtain rfl : d = c := Exec.on.inj (hed.symm.trans he)
      rw [hn]
      rcases hst.lockLeft hlocked with hlock | ⟨hlock, hlt⟩
      · exact .inr ⟨hlock, by omega⟩
      · obtain ⟨l', hl'⟩ := Option.ne_none_iff_exists'.1
          (hst.grows.sched (u := u) (by rw [hl]; exact Option.some_ne_none l))
        exact .inl ⟨hlock.trans hH.lock,
          ⟨l', hl', hst.executes hl he (hL.ne_locals hl) (.inl hlocked) hl'⟩, by omega⟩
    | handler he hk hsig =>
      rw [hI.control.quiet rfl _] at hsig
      cases hsig
    | death hd => exact absurd hed hd.not_on
    | signal hp => cases hp
  · have hn : countSteps u s a n = n := if_neg fun h => hut (h.symm.trans hat)
    have hne : l.exec ≠ .on d := fun he => hut (hI.exec_inj hlu (.inl hed) hl (.inl he))
    obtain ⟨lu', hlu', he', -⟩ := hm.exec_ne hut (hL.ne_locals hlu) hlu
    have hctx := hI.frame_context hl hm hut hlu hed
    rw [hn]
    refine .inl ⟨((hL.toHolding.moves hm).holder d).1 ?_, ⟨lu', hlu', he'.trans hed⟩, ?_⟩
    · rw [hctx]
      exact hlocked
    · rw [hctx]
      exact hH.left

/-- **The lock is given back soon**: from any reachable state of the default build in which `d` holds
the lock on thread `u`, thread `u` takes at most seven steps before the lock is free, whatever the
other threads do. -/
theorem lock_given_back {n : Nat}
    (h : Reach seqOps false Proper (seqInit localSize garbage state errno threadErrno) s)
    (hlock : s.lock = some d) (hlu : s.sched u = some lu) (hed : lu.exec = .on d)
    (hN : Noted seqOps false (fun s a => Proper s a ∧ s.lock = some d) (countSteps u) s 0 s' n)
    (hf : s'.failure = none) : n ≤ 7 ∧ (n = 7 → s'.lock = none) := by
  have hreach : ∀ {s₁ n₁}, Noted seqOps false (fun s a => Proper s a ∧ s.lock = some d)
      (countSteps u) s 0 s₁ n₁ → Reach seqOps false Proper
        (seqInit localSize garbage state errno threadErrno) s₁ := by
    intro s₁ n₁ hN
    induction hN with
    | init => exact h
    | next _ hok hs ih => exact ih.next hok.1 hs
  have hholds : Holds d u n s' ∨ s'.lock = none ∧ n ≤ 7 := by
    induction hN with
    | init => exact .inl ⟨hlock, ⟨lu, hlu, hed⟩, by simpa using Pc.lockLeft_le _⟩
    | @next s₁ s₂ a n₁ hN hok hs ih =>
      obtain ⟨hf₀, t, l, hl, -, hm⟩ := step_moves seqOps hs hf
      obtain ⟨⟨hI, -⟩, hL⟩ := (hreach hN).locking hf₀
      rcases ih hf₀ with hH | ⟨hnone, -⟩
      · exact hH.moves hI hL hl hm
      · rw [hok.2] at hnone
        cases hnone
  rcases hholds with hH | ⟨hnone, hn⟩
  · have hpos := Pc.lockLeft_pos (((hreach hN).locking hf).2.toHolding.holder d |>.2 hH.lock)
    have hleft := hH.left
    exact ⟨by omega, by omega⟩
  · exact ⟨hn, fun _ => hnone⟩

end

/-- On a machine with two processors the main coroutine makes a coroutine, which a new thread
executes; that coroutine is about to wait, and the main coroutine takes the lock to wait too. -/
def bothWait : List Act :=
  let steps (t : Tid) (n : Nat) : List Act := List.replicate n (.tick t .step)
  .tick 0 (.op .newCoroutine) :: steps 0 2 ++ [.tick 0 (.garbage 0 0)] ++ steps 0 3 ++ steps 1 1 ++
    [.tick 1 (.epoll (.ready []))] ++ steps 1 8 ++ [.tick 1 (.op (.wait ⟨5, 0⟩))] ++
    [.tick 0 (.op (.wait ⟨5, 0⟩))] ++ steps 0 1

theorem threads_progress_both :
    ∃ s l, run seqOps false (fun _ => Act.leavesAsleep) (seqInit 2 (fun _ => ⟨⟨0, 0⟩, 0⟩) 0 0 0)
        bothWait = some s ∧ s.sched 1 = some l ∧ step seqOps false s (.tick 1 .step) = none ∧
      (InEpollWait s l ∨ (CanStep s 1 ∨ Stops s 1) ∨ WaitsForLock s 1 l) := by
  obtain ⟨s, l, hr, hf, hl, hrun, hn⟩ :
      ∃ s l, run seqOps false (fun _ => Act.leavesAsleep) (seqInit 2 (fun _ => ⟨⟨0, 0⟩, 0⟩) 0 0 0)
          bothWait = some s ∧ s.failure = none ∧ s.sched 1 = some l ∧ l.started = true ∧
        step seqOps false s (.tick 1 .step) = none := ⟨_, _, rfl, rfl, rfl, rfl, rfl⟩
  exact ⟨s, l, hr, hl, hn, threads_progress (Reach.run hr Act.leavesAsleep.proper .init) hf hl hrun⟩

theorem lock_given_back_wait :
    ∃ s s', run seqOps false (fun _ => Act.leavesAsleep) (seqInit 2 (fun _ => ⟨⟨0, 0⟩, 0⟩) 0 0 0)
        bothWait = some s ∧ s.lock = some 0 ∧
      noteRun seqOps false (fun s a => a.leavesAsleep && s.lock == some 0) (countSteps 0) s 0
        [.tick 0 .step, .tick 0 .step] = some (s', 2) ∧
      s'.lock = none ∧ 2 ≤ 7 ∧ (2 = 7 → s'.lock = none) := by
  obtain ⟨s, s', lu, hr, hlock, hN, hlu, hed, hf, hfree⟩ :
      ∃ s s' lu, run seqOps false (fun _ => Act.leavesAsleep)
          (seqInit 2 (fun _ => ⟨⟨0, 0⟩, 0⟩) 0 0 0) bothWait = some s ∧ s.lock = some 0 ∧
        noteRun seqOps false (fun s a => a.leavesAsleep && s.lock == some 0) (countSteps 0) s 0
          [.tick 0 .step, .tick 0 .step] = some (s', 2) ∧ s.sched 0 = some lu ∧ lu.exec = .on 0 ∧
        s'.failure = none ∧ s'.lock = none := ⟨_, _, _, rfl, rfl, rfl, rfl, rfl, rfl, rfl⟩
  refine ⟨s, s', hr, hlock, hN, hfree, ?_⟩
  refine lock_given_back (Reach.run hr Act.leavesAsleep.proper .init) hlock hlu hed
    (Noted.run hN (fun s a h => ?_) .init) hf
  rw [Bool.and_eq_true, beq_iff_eq] at h
  exact ⟨Act.leavesAsleep.proper s a h.1, h.2⟩

end Lwthread.Scheduler
