import Lwthread.Scheduler.Accounts
import Lwthread.Scheduler.EventRecords

/-!
# File descriptors that coroutines share

`sched_event_wait` registers its file descriptor with `EPOLL_CTL_ADD`, which fails for one that is
registered, and asserts that it does not. So two coroutines cannot wait on one file descriptor at a
time, one to read and one to write a socket: the second trips the assertion (`register_fails_shared`).
That is the only way to do so (`register_never_fails`).
-/

namespace Lwthread.Scheduler

open Lwthread.Util Lwthread.Platform Custody

variable {preemption : Bool} {s : SeqState}
  {localSize : Nat} {garbage : Nat → TimerWait} {state errno threadErrno : Int}

/-- User code waits for events, sleeps, yields and makes coroutines, and a call waits on a file
descriptor that no coroutine waits on. -/
def Separate (s : SeqState) (a : Act) : Prop := a.Plain ∧ Unshared s a

/-- A run can be noted. -/
theorem Reach.noted {N : Type} {ok : SeqState → Act → Prop} (note : SeqState → Act → N → N) (n₀ : N)
    {s₀ : SeqState} (h : Reach seqOps preemption ok s₀ s) :
    ∃ n, Noted seqOps preemption ok note s₀ n₀ s n := by
  induction h with
  | init => exact ⟨n₀, .init⟩
  | @next s s' a h hok hs ih =>
    obtain ⟨n, hn⟩ := ih
    exact ⟨note s a n, hn.next hok hs⟩

/-- What holds of the waits in runs whose signals are safe. -/
theorem Reach.separate
    (h : Reach seqOps preemption (fun s a => Separate s a ∧ Safe s a)
      (seqInit localSize garbage state errno threadErrno) s) :
    ∃ n, Noted seqOps preemption (fun s a => Orderly s a ∧ Safe s a) noteEvents
      (seqInit localSize garbage state errno threadErrno) .empty s n := by
  have hreach := (h.undisturbed fun hok => hok.1.1).1
  exact (hreach.mono fun _ hok => ⟨⟨hok.1, hok.2.1.2⟩, hok.2.2⟩).noted noteEvents .empty

/-- **No file descriptor is registered twice.** In every run in which user code waits for events only on
file descriptors that no coroutine waits on, the assertion after `platform_poll_register` holds, and no
two calls of `sched_event_wait` are for one file descriptor. -/
theorem register_never_fails
    (h : Reach seqOps preemption Separate (seqInit localSize garbage state errno threadErrno) s) :
    s.failure ≠ some .register ∧ (s.failure = none → ∀ {c d fd}, (s.context c).pc.wait.fd = some fd →
      (s.context d).pc.wait.fd = some fd → c = d) := by
  have hproper : ∀ {s : SeqState} {a : Act}, Separate s a → Proper s a :=
    fun hok t x hax => absurd hax ((hok.1 t).2 x)
  rcases h.shadow hproper (fun _ hok => hok) with ⟨s₀, ds, hR, -, rfl⟩ | hfail
  · obtain ⟨n, hN⟩ := hR.separate
    refine ⟨fun hf => ?_, fun hf => (hN.events hf).2.alone⟩
    cases hN with
    | init => cases hf
    | next hN hok hs =>
      obtain ⟨hf₀, t, l, hl, -, hfails⟩ := step_fails seqOps hs hf
      exact ((hN.events hf₀).2.fails (hN.events hf₀).1 hfails).1 rfl
  · rw [hfail]
    exact ⟨nofun, nofun⟩

/-- A check on actions for `Separate`: no call starts to wait for an event. -/
def separate (_ : SeqState) (a : Act) : Bool :=
  a.plain &&
    match a with
    | .tick _ (.op (.eventWait _ _)) => false
    | _ => true

theorem separate.sound (s : SeqState) (a : Act) (h : separate s a = true) : Separate s a := by
  simp only [separate, Bool.and_eq_true] at h
  refine ⟨Act.plain.sound s a h.1, ?_⟩
  rintro t fd events rfl
  cases h.2

/-- The main coroutine waits on the file descriptor 3 until its event comes. -/
theorem register_never_fails_once :
    ∃ s₁ s, step seqOps false seqStart (.tick 0 (.op (.eventWait 3 1))) = some s₁ ∧
      run seqOps false separate s₁ eventComes = some s ∧ s.failure ≠ some .register := by
  obtain ⟨s₁, s, hs, hr⟩ :
      ∃ s₁ s, step seqOps false seqStart (.tick 0 (.op (.eventWait 3 1))) = some s₁ ∧
        run seqOps false separate s₁ eventComes = some s := ⟨_, _, rfl, rfl⟩
  have hok : Separate seqStart (.tick 0 (.op (.eventWait 3 1))) := by
    refine ⟨Act.plain.sound seqStart _ rfl, ?_⟩
    rintro t fd events ⟨⟩ c hc
    unfold seqStart at hc
    rw [seqInit_context] at hc
    revert hc
    split <;> exact nofun
  exact ⟨s₁, s, hs, hr, (register_never_fails (Reach.run hr separate.sound (.next .init hok hs))).1⟩

/-- The main coroutine makes a coroutine and waits to read from the file descriptor 3; the event loop
runs once; the new coroutine waits to write to it. -/
def readAndWrite : List Act :=
  let steps (n : Nat) : List Act := List.replicate n (.tick 0 .step)
  .tick 0 (.op .newCoroutine) :: steps 4 ++ [.tick 0 (.op (.eventWait 3 1))] ++ steps 6 ++
    [.tick 0 (.epoll (.ready []))] ++ steps 8 ++ [.tick 0 (.op (.eventWait 3 4)), .tick 0 .step]

/-- **Two coroutines may not wait on one file descriptor**: the second trips the assertion. -/
theorem register_fails_shared : ∃ s, PlainReach s ∧ s.failure = some .register := by
  obtain ⟨s, hr, hf⟩ :
      ∃ s, run seqOps false (fun _ => Act.plain) seqStart readAndWrite = some s ∧
        s.failure = some .register := ⟨_, rfl, rfl⟩
  exact ⟨s, Reach.run hr Act.plain.sound .init, hf⟩

end Lwthread.Scheduler
