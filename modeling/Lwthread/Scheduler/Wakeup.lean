import Lwthread.Lib.Custody
import Lwthread.Scheduler.Step

/-!
# The wake-up protocol

What `sched_wait`, `sched_event_wait` and those who wake their callers do, away from threads, run
lists and control points. A caller stores `BLOCKING`, publishes its wait (in the timer heap, or with
the poller), and goes to sleep unless its word has been changed. The duty to wake it is a token, kept
by the timer heap or the poller first, then by the event loop that takes the timer or the event from
there, and spent at the exchange of the state word.

`Wake.Sound` says that a published wait has exactly one token until the exchange, and none after it;
so nobody is woken twice for one wait, and a wait that is over has left nothing behind. Every step of
the protocol keeps it (`Wake.Sound.step`). `Scheduler/Wakers.lean` shows that the scheduler follows
the protocol.
-/

namespace Lwthread.Scheduler

open Custody

/-! ## The state of the protocol -/

/-- What a coroutine waits for. -/
inductive WaitKind where
  | timer
  | event (fd : Nat)

/-- How far a call of `sched_wait` or `sched_event_wait` has come. -/
inductive WaitPhase where
  | idle
  /-- the word is `BLOCKING`, and nobody knows the wait yet -/
  | prepared (k : WaitKind)
  /-- the wait is in the heap or with the poller -/
  | published (k : WaitKind)
  /-- past `context_cmpxchg_restore` -/
  | parked (k : WaitKind)
  /-- the caller has found out that it is woken -/
  | woken (k : WaitKind)

/-- The file descriptor that is registered in a phase. -/
@[simp] def WaitPhase.registered : WaitPhase → Option Nat
  | .published (.event fd) => some fd
  | .parked (.event fd) => some fd
  | .woken (.event fd) => some fd
  | _ => none

/-- The file descriptor that is about to be registered. -/
@[simp] def WaitPhase.prepares : WaitPhase → Option Nat
  | .prepared (.event fd) => some fd
  | _ => none

/-- Who has the duty to wake a coroutine: the timer heap, the poller, or an event loop that has taken
a timer, has got a batch of events, or has taken the coroutine out of an event's record. -/
inductive Source where
  | heap
  | poller
  | due (c : Cid)
  | batch (c : Cid)
  | taken (c : Cid)
  deriving DecidableEq

/-- The waits that a source is for. -/
def Source.Of : Source → WaitKind → Prop
  | .heap, .timer => True
  | .due _, .timer => True
  | .poller, .event _ => True
  | .batch _, .event _ => True
  | .taken _, .event _ => True
  | _, _ => False

/-- The state of the protocol: where each coroutine is, its state word, the coroutines of the timers
in the heap, what the event loops have taken, the poller, and the `struct event_wait` of each call. -/
structure Wake where
  phase : Cid → WaitPhase
  word : Cid → Option Int
  timers : Multiset Cid
  due : Cid → Multiset Cid
  batch : Cid → List (Cid × Nat)
  taken : Cid → Multiset Cid
  regs : List Registration
  record : Cid → Option EventWait

/-- The keys of the armed registrations. -/
def armedKeys (regs : List Registration) : Multiset Cid :=
  ((regs.filter (·.armed)).map (·.key) : List Cid)

/-- The event of an armed registration disarms it, and no other. -/
theorem armedKeys_disarm : ∀ {regs : List Registration} {r : Registration},
    (regs.map (·.fd)).Nodup → r ∈ regs → r.armed = true →
    armedKeys regs = r.key ::ₘ
      armedKeys (regs.map fun r' => if r'.fd = r.fd then { r' with armed := false } else r')
  | [], _, _, hr, _ => by cases hr
  | r₀ :: regs, r, hnd, hr, har => by
    rw [List.map_cons, List.nodup_cons] at hnd
    rcases List.mem_cons.1 hr with rfl | hr
    · have hrest : regs.map (fun r' => if r'.fd = r.fd then { r' with armed := false } else r') =
          regs := by
        conv_rhs => rw [← List.map_id regs]
        refine List.map_congr_left fun r' hr' => ?_
        rw [if_neg fun heq => hnd.1 (List.mem_map.2 ⟨r', hr', heq⟩)]
        rfl
      rw [List.map_cons, hrest]
      simp [armedKeys, har]
    · have hne : r₀.fd ≠ r.fd := fun heq => hnd.1 (List.mem_map.2 ⟨r, hr, heq.symm⟩)
      have ih := armedKeys_disarm hnd.2 hr har
      rw [List.map_cons, if_neg hne]
      unfold armedKeys at ih ⊢
      by_cases har₀ : r₀.armed = true
      · rw [List.filter_cons_of_pos (by exact har₀), List.filter_cons_of_pos (by exact har₀),
          List.map_cons, List.map_cons, ← Multiset.cons_coe, ← Multiset.cons_coe, ih,
          Multiset.cons_swap]
      · rw [List.filter_cons_of_neg (by simpa using har₀),
          List.filter_cons_of_neg (by simpa using har₀), ih]

/-- What `epoll_wait` delivers: the keys pass from the armed registrations to the batch, and the
registrations stay. -/
theorem deliver_spec : ∀ {events : List (Nat × Nat)} {regs : List Registration}
    {d : List (Cid × Nat) × List Registration}, (regs.map (·.fd)).Nodup →
    deliver regs events = some d →
    armedKeys regs = armedKeys d.2 + ((d.1.map (·.1) : List Cid) : Multiset Cid) ∧
      d.2.map (fun r => (r.fd, r.key)) = regs.map (fun r => (r.fd, r.key)) ∧ ∀ e ∈ d.1, e.2 ≠ 0
  | [], regs, d, _, hd => by
    cases hd
    exact ⟨by simp, rfl, nofun⟩
  | (fd, mask) :: events, regs, d, hnd, hd => by
    unfold deliver at hd
    split at hd
    · cases hd
    · next r hfind =>
      split at hd
      · cases hd
      · next hmask =>
        obtain ⟨d', hd', rfl⟩ := Option.map_eq_some_iff.1 hd
        have hprop := List.find?_some hfind
        simp only [Bool.and_eq_true, beq_iff_eq] at hprop
        obtain ⟨rfl, har⟩ := hprop
        have hpairs : (regs.map fun r' => if r'.fd = r.fd then { r' with armed := false } else r').map
            (fun r => (r.fd, r.key)) = regs.map (fun r => (r.fd, r.key)) := by
          rw [List.map_map]
          refine List.map_congr_left fun r' _ => ?_
          simp only [Function.comp_apply]
          split <;> rfl
        have hfds : (regs.map fun r' => if r'.fd = r.fd then { r' with armed := false } else r').map
            (·.fd) = regs.map (·.fd) := by
          have := congrArg (List.map Prod.fst) hpairs
          simpa only [List.map_map, Function.comp_def] using this
        obtain ⟨h1, h2, h3⟩ := deliver_spec (by rw [hfds]; exact hnd) hd'
        refine ⟨?_, h2.trans hpairs, fun e he => ?_⟩
        · rw [armedKeys_disarm hnd (List.mem_of_find?_eq_some hfind) har, h1, List.map_cons,
            ← Multiset.cons_coe, Multiset.add_cons]
        · rcases List.mem_cons.1 he with rfl | he
          · exact hmask
          · exact h3 e he

namespace Wake

/-- The coroutines that a source is to wake. -/
def held (a : Wake) : Source → Multiset Cid
  | .heap => a.timers
  | .poller => armedKeys a.regs
  | .due c => a.due c
  | .batch c => ((a.batch c).map (·.1) : List Cid)
  | .taken c => a.taken c

/-! ## The steps of the protocol -/

/-- A step of the protocol. -/
inductive Step (a : Wake) : Wake → Prop
  /-- a word is set outside a wait -/
  | quiet {word} (h : ∀ x, a.phase x ≠ .idle → word x = a.word x) : Step a { a with word := word }
  | enterTimer {x} (hx : a.phase x = .idle) :
      Step a { a with
        phase := Function.update a.phase x (.prepared .timer)
        word := Function.update a.word x (some STATE_BLOCKING) }
  | enterEvent {x fd} (hx : a.phase x = .idle) :
      Step a { a with
        phase := Function.update a.phase x (.prepared (.event fd))
        word := Function.update a.word x (some STATE_BLOCKING)
        record := Function.update a.record x (some ⟨fd, 0, some x⟩) }
  | publishTimer {x} (hx : a.phase x = .prepared .timer) :
      Step a { a with
        phase := Function.update a.phase x (.published .timer)
        timers := x ::ₘ a.timers }
  | publishEvent {x fd} (hx : a.phase x = .prepared (.event fd)) (hfd : ∀ r ∈ a.regs, r.fd ≠ fd) :
      Step a { a with
        phase := Function.update a.phase x (.published (.event fd))
        regs := a.regs ++ [⟨fd, x, true⟩] }
  | park {x k} (hx : a.phase x = .published k) (hw : a.word x = some STATE_BLOCKING) :
      Step a { a with
        phase := Function.update a.phase x (.parked k)
        word := Function.update a.word x (some STATE_BLOCKED) }
  | abort {x k} (hx : a.phase x = .published k) (hw : a.word x ≠ some STATE_BLOCKING) :
      Step a { a with phase := Function.update a.phase x (.woken k) }
  /-- the successor that an aborted suspend has dequeued is enqueued again -/
  | requeue {x k} (hx : a.phase x = .woken k) :
      Step a { a with phase := Function.update a.phase x (.parked k) }
  | resume {x fd} (hx : a.phase x = .parked (.event fd)) (hw : a.word x = some STATE_RUNNABLE) :
      Step a { a with phase := Function.update a.phase x (.woken (.event fd)) }
  | leave {x} (hx : a.phase x = .parked .timer) (hw : a.word x = some STATE_RUNNABLE) :
      Step a { a with phase := Function.update a.phase x .idle }
  | unregister {x fd} (hx : a.phase x = .woken (.event fd)) :
      Step a { a with
        phase := Function.update a.phase x .idle
        regs := a.regs.filter (·.fd != fd)
        record := Function.update a.record x none }
  | pop {c x ts} (hd : a.due c = 0) (ht : a.timers = x ::ₘ ts) :
      Step a { a with timers := ts, due := Function.update a.due c {x} }
  | deliver {c events d} (hb : a.batch c = []) (hd : Scheduler.deliver a.regs events = some d) :
      Step a { a with regs := d.2, batch := Function.update a.batch c d.1 }
  | take {c key revents rest w x} (hb : a.batch c = (key, revents) :: rest) (ht : a.taken c = 0)
      (hw : a.record key = some w) (hx : w.coro = some x) :
      Step a { a with
        batch := Function.update a.batch c rest
        taken := Function.update a.taken c {x}
        record := Function.update a.record key (some { w with coro := none, events := revents }) }
  | wakeDue {c x} (hc : a.due c = {x}) :
      Step a { a with
        due := Function.update a.due c 0
        word := Function.update a.word x (some STATE_RUNNABLE) }
  | wakeTaken {c x} (hc : a.taken c = {x}) :
      Step a { a with
        taken := Function.update a.taken c 0
        word := Function.update a.word x (some STATE_RUNNABLE) }

/-! ## The invariant -/

/-- The word of `x` is `v`, and a source of the right kind is to wake it. -/
def Pending (a : Wake) (x : Cid) (k : WaitKind) (v : Int) : Prop :=
  a.word x = some v ∧ ∃ src, src.Of k ∧ x ∈ a.held src

/-- The wait of `x` is over: its word is `RUNNABLE`, and nobody is to wake it. -/
def Spent (a : Wake) (x : Cid) : Prop := a.word x = some STATE_RUNNABLE ∧ ¬Held a.held x

/-- The word of `x` and the tokens for it are as they should be in a phase. -/
def At (a : Wake) (x : Cid) : WaitPhase → Prop
  | .idle => ¬Held a.held x
  | .prepared _ => a.word x = some STATE_BLOCKING ∧ ¬Held a.held x
  | .published k => a.Pending x k STATE_BLOCKING ∨ a.Spent x
  | .parked k => a.Pending x k STATE_BLOCKED ∨ a.Spent x
  | .woken _ => a.Spent x

/-- The word of `x` and the tokens for it agree with its phase. -/
def Accounts (a : Wake) (x : Cid) : Prop := a.At x (a.phase x)

/-- The event for `x` has not come to `sched_poll_event` yet. -/
def Unread (a : Wake) (x : Cid) : Prop := x ∈ a.held .poller ∨ ∃ c, x ∈ a.held (.batch c)

/-- The `struct event_wait` of `x` agrees with its phase. -/
structure Recorded (a : Wake) (x : Cid) : Prop where
  prepares : ∀ {fd}, (a.phase x).prepares = some fd → a.record x = some ⟨fd, 0, some x⟩
  registered : ∀ {fd}, (a.phase x).registered = some fd → ∃ w, a.record x = some w ∧ w.fd = fd ∧
    (w.coro = some x ∧ a.Unread x ∨ w.coro = none ∧ w.events ≠ 0 ∧ ¬a.Unread x)

/-- The invariant of the protocol. -/
structure Sound (a : Wake) : Prop where
  excl : Exclusive a.held
  accounts : ∀ x, a.Accounts x
  recorded : ∀ x, a.Recorded x
  fds : (a.regs.map (·.fd)).Nodup
  reg : ∀ {r}, r ∈ a.regs → (a.phase r.key).registered = some r.fd
  regd : ∀ {x fd}, (a.phase x).registered = some fd → ∃ armed, ⟨fd, x, armed⟩ ∈ a.regs
  masks : ∀ {c e}, e ∈ a.batch c → e.2 ≠ 0

variable {a b : Wake} {x y : Cid}

/-! ## Frames -/

theorem Accounts.at {p : WaitPhase} (h : a.Accounts x) (hp : a.phase x = p) : a.At x p := hp ▸ h

theorem At.accounts {p : WaitPhase} (h : a.At x p) (hp : a.phase x = p) : a.Accounts x := by
  unfold Accounts
  rw [hp]
  exact h

/-- Tokens for `x` may pass to another source of the same kind. -/
theorem Accounts.frame (h : a.Accounts x) (hphase : b.phase x = a.phase x)
    (hword : b.word x = a.word x) (hback : Held b.held x → Held a.held x)
    (hpass : ∀ {src k}, src.Of k → x ∈ a.held src → ∃ src', src'.Of k ∧ x ∈ b.held src') :
    b.Accounts x := by
  have hpend : ∀ {k v}, a.Pending x k v → b.Pending x k v := by
    rintro k v ⟨hw, src, hk, hx⟩
    exact ⟨hword.trans hw, hpass hk hx⟩
  have hspent : a.Spent x → b.Spent x := fun ⟨hw, hn⟩ => ⟨hword.trans hw, fun hh => hn (hback hh)⟩
  refine At.accounts ?_ hphase
  unfold Accounts at h
  cases hp : a.phase x with
  | idle => rw [hp] at h; exact fun hh => h (hback hh)
  | prepared k => rw [hp] at h; exact ⟨hword.trans h.1, fun hh => h.2 (hback hh)⟩
  | published k => rw [hp] at h; exact h.imp hpend hspent
  | parked k => rw [hp] at h; exact h.imp hpend hspent
  | woken k => rw [hp] at h; exact hspent h

theorem Accounts.same (h : a.Accounts x) (hphase : b.phase x = a.phase x)
    (hword : b.word x = a.word x) (hheld : ∀ src, x ∈ b.held src ↔ x ∈ a.held src) :
    b.Accounts x :=
  h.frame hphase hword (fun ⟨src, hx⟩ => ⟨src, (hheld src).1 hx⟩)
    fun hk hx => ⟨_, hk, (hheld _).2 hx⟩

theorem Recorded.frame (h : a.Recorded x) (hphase : b.phase x = a.phase x)
    (hrecord : b.record x = a.record x) (hunread : b.Unread x ↔ a.Unread x) : b.Recorded x := by
  refine ⟨fun hp => ?_, fun hp => ?_⟩
  · rw [hrecord]
    exact h.prepares (hphase ▸ hp)
  · rw [hrecord, hunread]
    exact h.registered (hphase ▸ hp)

/-- A coroutine with a token waits, and is not woken yet. -/
theorem Sound.token {src : Source} (h : a.Sound) (hx : x ∈ a.held src) :
    ∃ k, src.Of k ∧ (a.phase x = .published k ∧ a.word x = some STATE_BLOCKING ∨
      a.phase x = .parked k ∧ a.word x = some STATE_BLOCKED) := by
  have hacc := h.accounts x
  have hheld : Held a.held x := ⟨src, hx⟩
  have hpend : ∀ {k v}, a.Pending x k v ∨ a.Spent x → src.Of k ∧ a.word x = some v := by
    rintro k v (⟨hw, src', hk, hx'⟩ | ⟨-, hn⟩)
    · rw [h.excl.inj hx hx']
      exact ⟨hk, hw⟩
    · exact absurd hheld hn
  unfold Accounts at hacc
  cases hp : a.phase x with
  | idle => rw [hp] at hacc; exact absurd hheld hacc
  | prepared k => rw [hp] at hacc; exact absurd hheld hacc.2
  | published k =>
    rw [hp] at hacc
    obtain ⟨hk, hw⟩ := hpend hacc
    exact ⟨k, hk, .inl ⟨rfl, hw⟩⟩
  | parked k =>
    rw [hp] at hacc
    obtain ⟨hk, hw⟩ := hpend hacc
    exact ⟨k, hk, .inr ⟨rfl, hw⟩⟩
  | woken k => rw [hp] at hacc; exact absurd hheld hacc.2

/-- Nobody waits, and nobody is to be woken. -/
theorem Sound.idle (hphase : ∀ x, a.phase x = .idle) (htimers : a.timers = 0) (hdue : a.due = 0)
    (hbatch : a.batch = fun _ => []) (htaken : a.taken = 0) (hregs : a.regs = []) : a.Sound := by
  have hheld : ∀ src, a.held src = 0 := by
    intro src
    cases src with
    | heap => exact htimers
    | poller => simp only [held, hregs]; rfl
    | due c => simp only [held, hdue]; rfl
    | batch c => simp only [held, hbatch]; rfl
    | taken c => simp only [held, htaken]; rfl
  have hnone : ∀ {x src}, x ∉ a.held src := fun {x src} hx => by
    rw [hheld] at hx
    exact Multiset.notMem_zero x hx
  refine ⟨⟨fun src => ?_, fun hi => absurd hi hnone⟩, fun x => ?_, fun x => ⟨fun hp => ?_, fun hp => ?_⟩,
    ?_, fun hr => ?_, fun {x fd} hp => ?_, fun {c e} he => ?_⟩
  · rw [hheld]; exact Multiset.nodup_zero
  · refine At.accounts (p := .idle) ?_ (hphase x)
    rintro ⟨src, hx⟩
    exact hnone hx
  · rw [hphase] at hp; cases hp
  · rw [hphase] at hp; cases hp
  · rw [hregs]; exact List.nodup_nil
  · rw [hregs] at hr; cases hr
  · rw [hphase] at hp; cases hp
  · rw [hbatch] at he; cases he

/-! ## Steps that leave the tokens alone -/

section

variable (h : a.Sound)

include h

/-- A coroutine passes to another phase, with the same file descriptor registered. -/
theorem Sound.shift {p : WaitPhase} {word : Cid → Option Int}
    (hword : ∀ y, y ≠ x → word y = a.word y) (hreg : p.registered = (a.phase x).registered)
    (hprep : p.prepares = none)
    (hacc : Accounts { a with phase := Function.update a.phase x p, word := word } x) :
    Sound { a with phase := Function.update a.phase x p, word := word } := by
  have hregs : ∀ y, (Function.update a.phase x p y).registered = (a.phase y).registered := by
    intro y
    by_cases hy : y = x
    · rw [hy, Function.update_self, hreg]
    · rw [Function.update_of_ne hy]
  refine ⟨h.excl, fun y => ?_, fun y => ⟨fun {fd} hy => ?_, fun {fd} hy => ?_⟩, h.fds, fun hr => ?_,
    fun {y fd} hy => ?_, h.masks⟩
  · by_cases hy : y = x
    · rw [hy]; exact hacc
    · exact (h.accounts y).same (Function.update_of_ne hy _ _) (hword y hy) fun _ => Iff.rfl
  · by_cases hyx : y = x
    · dsimp only at hy
      rw [hyx, Function.update_self, hprep] at hy
      cases hy
    · dsimp only at hy
      rw [Function.update_of_ne hyx] at hy
      exact (h.recorded y).prepares hy
  · exact (h.recorded y).registered ((hregs y).symm.trans hy)
  · exact (hregs _).trans (h.reg hr)
  · exact h.regd ((hregs y).symm.trans hy)

theorem Sound.quiet {word : Cid → Option Int} (hword : ∀ x, a.phase x ≠ .idle → word x = a.word x) :
    Sound { a with word := word } := by
  refine ⟨h.excl, fun y => ?_, fun y => ?_, h.fds, h.reg, h.regd, h.masks⟩
  · have hacc := h.accounts y
    by_cases hy : a.phase y = .idle
    · exact At.accounts (p := .idle) (hacc.at hy) hy
    · exact hacc.same rfl (hword y hy) fun _ => Iff.rfl
  · exact (h.recorded y).frame rfl rfl Iff.rfl

theorem Sound.enterTimer (hx : a.phase x = .idle) :
    Sound { a with
      phase := Function.update a.phase x (.prepared .timer)
      word := Function.update a.word x (some STATE_BLOCKING) } := by
  have hacc := (h.accounts x).at hx
  refine h.shift (fun y hy => Function.update_of_ne hy _ _) (by rw [hx]; rfl) rfl ?_
  refine At.accounts ?_ (Function.update_self _ _ _)
  exact ⟨Function.update_self _ _ _, hacc⟩

theorem Sound.enterEvent {fd : Nat} (hx : a.phase x = .idle) :
    Sound { a with
      phase := Function.update a.phase x (.prepared (.event fd))
      word := Function.update a.word x (some STATE_BLOCKING)
      record := Function.update a.record x (some ⟨fd, 0, some x⟩) } := by
  have hacc := (h.accounts x).at hx
  have hother : ∀ {y : Cid} {n : Nat},
      (Function.update a.phase x (.prepared (.event fd)) y).registered = some n →
      y ≠ x ∧ (a.phase y).registered = some n := by
    intro y n hy
    have hyx : y ≠ x := by
      rintro rfl
      rw [Function.update_self] at hy
      cases hy
    rw [Function.update_of_ne hyx] at hy
    exact ⟨hyx, hy⟩
  refine ⟨h.excl, fun y => ?_, fun y => ?_, h.fds, fun {r} hr => ?_, fun {y n} hy => ?_, h.masks⟩
  · by_cases hy : y = x
    · subst hy
      refine At.accounts ?_ (Function.update_self _ _ _)
      exact ⟨Function.update_self _ _ _, hacc⟩
    · exact (h.accounts y).same (Function.update_of_ne hy _ _) (Function.update_of_ne hy _ _)
        fun _ => Iff.rfl
  · by_cases hy : y = x
    · subst hy
      refine ⟨fun {n} hn => ?_, fun {n} hn => absurd rfl (hother hn).1⟩
      dsimp only at hn ⊢
      rw [Function.update_self] at hn ⊢
      cases hn
      rfl
    · exact (h.recorded y).frame (Function.update_of_ne hy _ _) (Function.update_of_ne hy _ _) Iff.rfl
  · have hreg := h.reg hr
    have hne : r.key ≠ x := by
      intro hk
      rw [hk, hx] at hreg
      cases hreg
    dsimp only
    rw [Function.update_of_ne hne]
    exact hreg
  · exact h.regd (hother hy).2

theorem Sound.park {k : WaitKind} (hx : a.phase x = .published k)
    (hw : a.word x = some STATE_BLOCKING) :
    Sound { a with
      phase := Function.update a.phase x (.parked k)
      word := Function.update a.word x (some STATE_BLOCKED) } := by
  have hacc := (h.accounts x).at hx
  refine h.shift (fun y hy => Function.update_of_ne hy _ _) (by rw [hx]; cases k <;> rfl) rfl ?_
  refine At.accounts ?_ (Function.update_self _ _ _)
  rcases hacc with ⟨-, hsrc⟩ | ⟨hw', -⟩
  · exact .inl ⟨Function.update_self _ _ _, hsrc⟩
  · rw [hw] at hw'
    exact absurd (Option.some.inj hw') (by decide)

theorem Sound.abort {k : WaitKind} (hx : a.phase x = .published k)
    (hw : a.word x ≠ some STATE_BLOCKING) :
    Sound { a with phase := Function.update a.phase x (.woken k) } := by
  have hacc := (h.accounts x).at hx
  refine h.shift (fun _ _ => rfl) (by rw [hx]; cases k <;> rfl) rfl ?_
  refine At.accounts ?_ (Function.update_self _ _ _)
  exact hacc.resolve_left fun hp => hw hp.1

theorem Sound.requeue {k : WaitKind} (hx : a.phase x = .woken k) :
    Sound { a with phase := Function.update a.phase x (.parked k) } := by
  have hacc := (h.accounts x).at hx
  refine h.shift (fun _ _ => rfl) (by rw [hx]; cases k <;> rfl) rfl ?_
  refine At.accounts ?_ (Function.update_self _ _ _)
  exact .inr hacc

omit h in
theorem Sound.spent (h : a.Sound) {k : WaitKind} (hx : a.phase x = .parked k)
    (hw : a.word x = some STATE_RUNNABLE) : a.Spent x := by
  have hacc := (h.accounts x).at hx
  refine hacc.resolve_left fun hp => ?_
  rw [hp.1] at hw
  exact absurd (Option.some.inj hw) (by decide)

theorem Sound.resume {fd : Nat} (hx : a.phase x = .parked (.event fd))
    (hw : a.word x = some STATE_RUNNABLE) :
    Sound { a with phase := Function.update a.phase x (.woken (.event fd)) } := by
  refine h.shift (fun _ _ => rfl) (by rw [hx]; rfl) rfl ?_
  refine At.accounts ?_ (Function.update_self _ _ _)
  exact h.spent hx hw

theorem Sound.leave (hx : a.phase x = .parked .timer) (hw : a.word x = some STATE_RUNNABLE) :
    Sound { a with phase := Function.update a.phase x .idle } := by
  refine h.shift (fun _ _ => rfl) (by rw [hx]; rfl) rfl ?_
  refine At.accounts ?_ (Function.update_self _ _ _)
  exact (h.spent hx hw).2

end

/-! ## Steps that move tokens -/

section

variable (h : a.Sound)

include h

/-- A file descriptor is registered once. -/
theorem Sound.reg_inj {r r' : Registration} (hr : r ∈ a.regs) (hr' : r' ∈ a.regs)
    (hfd : r.fd = r'.fd) : r = r' :=
  List.inj_on_of_nodup_map h.fds hr hr' hfd

theorem Sound.publishTimer (hx : a.phase x = .prepared .timer) :
    Sound { a with
      phase := Function.update a.phase x (.published .timer)
      timers := x ::ₘ a.timers } := by
  obtain ⟨hw, hn⟩ := (h.accounts x).at hx
  have hregs : ∀ y, (Function.update a.phase x (.published .timer) y).registered =
      (a.phase y).registered := by
    intro y
    by_cases hy : y = x
    · rw [hy, Function.update_self, hx]; rfl
    · rw [Function.update_of_ne hy]
  refine ⟨h.excl.add hn (i := .heap) rfl ?_, fun y => ?_, fun y => ⟨fun {fd} hy => ?_, fun hy => ?_⟩,
    h.fds, fun hr => (hregs _).trans (h.reg hr), fun hy => h.regd ((hregs _).symm.trans hy), h.masks⟩
  · intro src hsrc
    cases src with
    | heap => exact absurd rfl hsrc
    | _ => rfl
  · by_cases hy : y = x
    · subst hy
      refine At.accounts ?_ (Function.update_self _ _ _)
      exact .inl ⟨hw, .heap, trivial, Multiset.mem_cons_self _ _⟩
    · refine (h.accounts y).same (Function.update_of_ne hy _ _) rfl fun src => ?_
      cases src with
      | heap => exact Multiset.mem_cons.trans (or_iff_right hy)
      | _ => exact Iff.rfl
  · by_cases hyx : y = x
    · dsimp only at hy
      rw [hyx, Function.update_self] at hy
      cases hy
    · dsimp only at hy
      rw [Function.update_of_ne hyx] at hy
      exact (h.recorded y).prepares hy
  · exact (h.recorded y).registered ((hregs y).symm.trans hy)

theorem Sound.publishEvent {fd : Nat} (hx : a.phase x = .prepared (.event fd))
    (hfd : ∀ r ∈ a.regs, r.fd ≠ fd) :
    Sound { a with
      phase := Function.update a.phase x (.published (.event fd))
      regs := a.regs ++ [⟨fd, x, true⟩] } := by
  obtain ⟨hw, hn⟩ := (h.accounts x).at hx
  have harmed : armedKeys (a.regs ++ [⟨fd, x, true⟩]) = x ::ₘ armedKeys a.regs := by
    simp [armedKeys, ← Multiset.coe_add, add_comm]
  have hself : x ∈ armedKeys (a.regs ++ [⟨fd, x, true⟩]) := by
    rw [harmed]
    exact Multiset.mem_cons_self _ _
  have hmem : ∀ {y}, y ≠ x → (y ∈ armedKeys (a.regs ++ [⟨fd, x, true⟩]) ↔ y ∈ armedKeys a.regs) := by
    intro y hy
    rw [harmed, Multiset.mem_cons]
    exact or_iff_right hy
  refine ⟨h.excl.add hn (i := .poller) harmed ?_, fun y => ?_, fun y => ?_, ?_, fun {r} hr => ?_,
    fun {y n} hy => ?_, h.masks⟩
  · intro src hsrc
    cases src with
    | poller => exact absurd rfl hsrc
    | _ => rfl
  · by_cases hy : y = x
    · subst hy
      refine At.accounts ?_ (Function.update_self _ _ _)
      exact .inl ⟨hw, .poller, trivial, hself⟩
    · refine (h.accounts y).same (Function.update_of_ne hy _ _) rfl fun src => ?_
      cases src with
      | poller => exact hmem hy
      | _ => exact Iff.rfl
  · by_cases hy : y = x
    · subst hy
      have hrec : a.record y = some ⟨fd, 0, some y⟩ := (h.recorded y).prepares (by rw [hx]; rfl)
      refine ⟨fun {n} hn => ?_, fun {n} hn => ⟨_, hrec, ?_, .inl ⟨rfl, .inl hself⟩⟩⟩
      · dsimp only at hn
        rw [Function.update_self] at hn
        cases hn
      · dsimp only at hn
        rw [Function.update_self] at hn
        exact Option.some.inj hn
    · refine (h.recorded y).frame (Function.update_of_ne hy _ _) rfl ?_
      exact or_congr (hmem hy) Iff.rfl
  · rw [List.map_append]
    refine List.Nodup.append h.fds (List.nodup_singleton _) ?_
    intro n hn hn'
    obtain ⟨r, hr, rfl⟩ := List.mem_map.1 hn
    exact hfd r hr (List.mem_singleton.1 hn')
  · rcases List.mem_append.1 hr with hr | hr
    · have hreg := h.reg hr
      have hne : r.key ≠ x := by
        intro hk
        rw [hk, hx] at hreg
        cases hreg
      dsimp only
      rw [Function.update_of_ne hne]
      exact hreg
    · rw [List.mem_singleton.1 hr]
      dsimp only
      rw [Function.update_self]
      rfl
  · by_cases hyx : y = x
    · dsimp only at hy
      rw [hyx, Function.update_self] at hy
      cases hy
      exact ⟨true, List.mem_append.2 (.inr (by rw [hyx]; simp))⟩
    · dsimp only at hy
      rw [Function.update_of_ne hyx] at hy
      obtain ⟨armed, hm⟩ := h.regd hy
      exact ⟨armed, List.mem_append.2 (.inl hm)⟩

theorem Sound.unregister {fd : Nat} (hx : a.phase x = .woken (.event fd)) :
    Sound { a with
      phase := Function.update a.phase x .idle
      regs := a.regs.filter (·.fd != fd)
      record := Function.update a.record x none } := by
  obtain ⟨-, hn⟩ := (h.accounts x).at hx
  obtain ⟨armed, hreg⟩ : ∃ armed, ⟨fd, x, armed⟩ ∈ a.regs := h.regd (by rw [hx]; rfl)
  have hown : ∀ {r}, r ∈ a.regs → (r.fd ≠ fd ↔ r.key ≠ x) := by
    intro r hr
    refine ⟨fun hne hk => hne ?_, fun hne hf => hne (by rw [h.reg_inj hr hreg hf])⟩
    have := h.reg hr
    rw [hk, hx] at this
    exact (Option.some.inj this).symm
  have hkeep : armedKeys (a.regs.filter (·.fd != fd)) = armedKeys a.regs := by
    unfold armedKeys
    rw [List.filter_filter]
    congr 2
    refine List.filter_congr fun r hr => ?_
    by_cases har : r.armed = true
    · have hkey : r.key ≠ x := by
        rintro rfl
        refine hn ⟨.poller, ?_⟩
        exact List.mem_map.2 ⟨r, List.mem_filter.2 ⟨hr, har⟩, rfl⟩
      simpa [har] using (hown hr).2 hkey
    · simp [har]
  have hheld : ∀ src, Wake.held { a with
      phase := Function.update a.phase x .idle
      regs := a.regs.filter (·.fd != fd)
      record := Function.update a.record x none } src = a.held src := by
    intro src
    cases src with
    | poller => exact hkeep
    | _ => rfl
  refine ⟨h.excl.of_le fun src => (hheld src).le, fun y => ?_, fun y => ?_,
    h.fds.sublist (List.filter_sublist.map _), fun {r} hr => ?_, fun {y n} hy => ?_, h.masks⟩
  · by_cases hy : y = x
    · subst hy
      refine At.accounts ?_ (Function.update_self _ _ _)
      exact fun ⟨src, hs⟩ => hn ⟨src, hheld src ▸ hs⟩
    · exact (h.accounts y).same (Function.update_of_ne hy _ _) rfl fun src => by rw [hheld]
  · by_cases hy : y = x
    · subst hy
      refine ⟨fun {n} hn => ?_, fun {n} hn => ?_⟩
      all_goals
        dsimp only at hn
        rw [Function.update_self] at hn
        cases hn
    · refine (h.recorded y).frame (Function.update_of_ne hy _ _) (Function.update_of_ne hy _ _) ?_
      unfold Unread
      rw [hheld]
      exact Iff.rfl
  · obtain ⟨hr, hne⟩ := List.mem_filter.1 hr
    have hkey := (hown hr).1 (by simpa using hne)
    dsimp only
    rw [Function.update_of_ne hkey]
    exact h.reg hr
  · have hyx : y ≠ x := by
      rintro rfl
      dsimp only at hy
      rw [Function.update_self] at hy
      cases hy
    dsimp only at hy
    rw [Function.update_of_ne hyx] at hy
    obtain ⟨armed', hm⟩ := h.regd hy
    refine ⟨armed', List.mem_filter.2 ⟨hm, ?_⟩⟩
    simpa using (hown hm).2 hyx

/-- Tokens pass from one source to another of the same kind, and neither phases, words nor records
change. -/
theorem Sound.pass (hphase : b.phase = a.phase) (hword : b.word = a.word)
    (hrecord : ∀ y, b.record y = a.record y ∧ (b.Unread y ↔ a.Unread y) ∨ b.Recorded y)
    (hmasks : ∀ {c e}, e ∈ b.batch c → e.2 ≠ 0)
    (hregs : b.regs.map (fun r => (r.fd, r.key)) = a.regs.map (fun r => (r.fd, r.key)))
    {i j : Source} (hij : i ≠ j) (hkind : ∀ {k}, i.Of k → j.Of k)
    (hle : b.held i ≤ a.held i) (hsum : b.held i + b.held j = a.held i + a.held j)
    (ho : ∀ src, src ≠ i → src ≠ j → b.held src = a.held src) : b.Sound := by
  have hgain : a.held j ≤ b.held j := by
    refine Multiset.le_iff_count.2 fun y => ?_
    have h1 := congrArg (Multiset.count y) hsum
    have h2 := Multiset.le_iff_count.1 hle y
    rw [Multiset.count_add, Multiset.count_add] at h1
    omega
  have hpair : ∀ {r}, r ∈ b.regs → ∃ r' ∈ a.regs, r'.fd = r.fd ∧ r'.key = r.key := by
    intro r hr
    have hmem : (r.fd, r.key) ∈ b.regs.map (fun r => (r.fd, r.key)) := List.mem_map.2 ⟨r, hr, rfl⟩
    rw [hregs] at hmem
    obtain ⟨r', hr', heq⟩ := List.mem_map.1 hmem
    exact ⟨r', hr', congrArg Prod.fst heq, congrArg Prod.snd heq⟩
  refine ⟨h.excl.pass hij hsum ho, fun y => ?_, fun y => ?_, ?_, fun {r} hr => ?_,
    fun {y fd} hy => ?_, hmasks⟩
  · refine (h.accounts y).frame (by rw [hphase]) (by rw [hword]) ?_ fun {src k} hk hy => ?_
    · rintro ⟨src, hy⟩
      by_cases hi : src = i
      · exact ⟨i, Multiset.mem_of_le hle (hi ▸ hy)⟩
      · by_cases hj : src = j
        · have hm : y ∈ b.held i + b.held j := Multiset.mem_add.2 (.inr (hj ▸ hy))
          rw [hsum] at hm
          exact (Multiset.mem_add.1 hm).elim (fun hm => ⟨i, hm⟩) fun hm => ⟨j, hm⟩
        · exact ⟨src, ho src hi hj ▸ hy⟩
    · by_cases hi : src = i
      · have hm : y ∈ a.held i + a.held j := Multiset.mem_add.2 (.inl (hi ▸ hy))
        rw [← hsum] at hm
        rcases Multiset.mem_add.1 hm with hm | hm
        · exact ⟨i, hi ▸ hk, hm⟩
        · exact ⟨j, hkind (hi ▸ hk), hm⟩
      · by_cases hj : src = j
        · exact ⟨j, hj ▸ hk, Multiset.mem_of_le hgain (hj ▸ hy)⟩
        · exact ⟨src, hk, (ho src hi hj).symm ▸ hy⟩
  · rcases hrecord y with ⟨hrec, hun⟩ | hrec
    · exact (h.recorded y).frame (by rw [hphase]) hrec hun
    · exact hrec
  · have hfds := congrArg (List.map Prod.fst) hregs
    simp only [List.map_map, Function.comp_def] at hfds
    rw [hfds]
    exact h.fds
  · obtain ⟨r', hr', hfd, hkey⟩ := hpair hr
    rw [hphase, ← hkey, ← hfd]
    exact h.reg hr'
  · rw [hphase] at hy
    obtain ⟨armed, hm⟩ := h.regd hy
    have hmem : (fd, y) ∈ a.regs.map (fun r => (r.fd, r.key)) := List.mem_map.2 ⟨_, hm, rfl⟩
    rw [← hregs] at hmem
    obtain ⟨⟨fd', y', armed'⟩, hr', heq⟩ := List.mem_map.1 hmem
    cases heq
    exact ⟨armed', hr'⟩

theorem Sound.pop {c : Cid} {ts : Multiset Cid} (hd : a.due c = 0) (ht : a.timers = x ::ₘ ts) :
    Sound { a with timers := ts, due := Function.update a.due c {x} } := by
  refine h.pass rfl rfl (fun y => .inl ⟨rfl, Iff.rfl⟩) h.masks rfl (i := .heap) (j := .due c) nofun
    (fun {k} hk => by cases k <;> exact hk) ?_ ?_ fun src hi hj => ?_
  · simp only [held, ht]
    exact Multiset.le_cons_self ts x
  · simp only [held, Function.update_self, ht, hd, add_zero]
    rw [add_comm, Multiset.singleton_add]
  · cases src with
    | heap => exact absurd rfl hi
    | due d => exact Function.update_of_ne (fun h => hj (congrArg Source.due h)) _ _
    | _ => rfl

theorem Sound.deliver {c : Cid} {events : List (Nat × Nat)}
    {d : List (Cid × Nat) × List Registration} (hb : a.batch c = [])
    (hd : Scheduler.deliver a.regs events = some d) :
    Sound { a with regs := d.2, batch := Function.update a.batch c d.1 } := by
  obtain ⟨hkeys, hpairs, hmasks⟩ := deliver_spec h.fds hd
  have hother : ∀ {c'}, c' ≠ c → Function.update a.batch c d.1 c' = a.batch c' := fun hne =>
    Function.update_of_ne hne _ _
  refine h.pass rfl rfl (fun y => .inl ⟨rfl, ?_⟩) (fun {c' e} he => ?_) hpairs (i := .poller)
    (j := .batch c) nofun (fun {k} hk => by cases k <;> exact hk) ?_ ?_ fun src hi hj => ?_
  · -- the event for `y` is with the poller, with `c`, or with another event loop
    have hy : y ∈ armedKeys a.regs ↔ y ∈ armedKeys d.2 ∨ y ∈ ((d.1.map (·.1) : List Cid) : Multiset Cid) := by
      rw [hkeys, Multiset.mem_add]
    unfold Unread
    simp only [held]
    rw [hy]
    constructor
    · rintro (hp | ⟨c', hc'⟩)
      · exact .inl (.inl hp)
      · by_cases hcc : c' = c
        · rw [hcc, Function.update_self] at hc'
          exact .inl (.inr hc')
        · rw [hother hcc] at hc'
          exact .inr ⟨c', hc'⟩
    · rintro ((hp | hp) | ⟨c', hc'⟩)
      · exact .inl hp
      · exact .inr ⟨c, by rw [Function.update_self]; exact hp⟩
      · have hcc : c' ≠ c := by
          rintro rfl
          rw [hb] at hc'
          cases hc'
        exact .inr ⟨c', by rw [hother hcc]; exact hc'⟩
  · dsimp only at he
    by_cases hcc : c' = c
    · rw [hcc, Function.update_self] at he
      exact hmasks e he
    · rw [hother hcc] at he
      exact h.masks he
  · simp only [held, hkeys]
    exact Multiset.le_add_right _ _
  · simp only [held, Function.update_self, hb, hkeys]
    simp
  · cases src with
    | poller => exact absurd rfl hi
    | batch d => simp only [held]; rw [hother fun h => hj (h ▸ rfl)]
    | _ => rfl

/-- The record that an event's key names is that of its own coroutine. -/
theorem Sound.record_of_unread {key : Cid} {w : EventWait} (hu : a.Unread key)
    (hw : a.record key = some w) : w.coro = some key := by
  obtain ⟨fd, hreg⟩ : ∃ fd, (a.phase key).registered = some fd := by
    have : ∃ src, (src = .poller ∨ ∃ c, src = .batch c) ∧ key ∈ a.held src := by
      rcases hu with hu | ⟨c, hu⟩
      · exact ⟨_, .inl rfl, hu⟩
      · exact ⟨_, .inr ⟨c, rfl⟩, hu⟩
    obtain ⟨src, hsrc, hm⟩ := this
    obtain ⟨k, hk, hphase⟩ := h.token hm
    cases k with
    | timer => rcases hsrc with rfl | ⟨c, rfl⟩ <;> exact hk.elim
    | event fd => rcases hphase with ⟨hp, -⟩ | ⟨hp, -⟩ <;> exact ⟨fd, by rw [hp]; rfl⟩
  obtain ⟨w', hw', -, hor⟩ := (h.recorded key).registered hreg
  cases hw.symm.trans hw'
  rcases hor with ⟨hco, -⟩ | ⟨-, -, hnu⟩
  · exact hco
  · exact absurd hu hnu

theorem Sound.take {c key : Cid} {revents : Nat} {rest : List (Cid × Nat)} {w : EventWait}
    (hb : a.batch c = (key, revents) :: rest) (ht : a.taken c = 0) (hw : a.record key = some w)
    (hx : w.coro = some x) :
    Sound { a with
      batch := Function.update a.batch c rest
      taken := Function.update a.taken c {x}
      record := Function.update a.record key (some { w with coro := none, events := revents }) } := by
  have hkey : key ∈ a.held (.batch c) := by simp [held, hb]
  obtain rfl : key = x :=
    Option.some.inj ((h.record_of_unread (.inr ⟨c, hkey⟩) hw).symm.trans hx)
  have hother : ∀ {c'}, c' ≠ c → Function.update a.batch c rest c' = a.batch c' := fun hne =>
    Function.update_of_ne hne _ _
  -- the key is in the batch of `c` once, and nowhere else
  have honce : key ∉ rest.map (·.1) := by
    have hnd := h.excl.nodup (.batch c)
    simp only [held, hb, List.map_cons, Multiset.coe_nodup, List.nodup_cons] at hnd
    exact hnd.1
  refine h.pass rfl rfl (fun y => ?_) (fun {c' e} he => ?_) rfl (i := .batch c) (j := .taken c) nofun
    (fun {k} hk => by cases k <;> exact hk) ?_ ?_ fun src hi hj => ?_
  · by_cases hy : y = key
    · subst hy
      refine .inr ⟨fun {fd} hp => ?_, fun {fd} hp => ?_⟩
      · obtain ⟨k, -, hphase⟩ := h.token hkey
        dsimp only at hp
        rcases hphase with ⟨hq, -⟩ | ⟨hq, -⟩ <;> rw [hq] at hp <;> cases hp
      · obtain ⟨w', hw', hfd, -⟩ := (h.recorded y).registered hp
        cases hw.symm.trans hw'
        refine ⟨_, Function.update_self _ _ _, hfd, .inr ⟨rfl, h.masks (c := c) (e := (y, revents))
          (by rw [hb]; simp), ?_⟩⟩
        rintro (hp | ⟨c', hc'⟩)
        · cases h.excl.inj (i := .poller) hp hkey
        · simp only [held] at hc'
          by_cases hcc : c' = c
          · rw [hcc, Function.update_self] at hc'
            exact honce hc'
          · rw [hother hcc] at hc'
            exact hcc (Source.batch.inj (h.excl.inj (i := .batch c') hc' hkey))
    · refine .inl ⟨Function.update_of_ne hy _ _, or_congr Iff.rfl (exists_congr fun c' => ?_)⟩
      simp only [held]
      by_cases hcc : c' = c
      · rw [hcc, Function.update_self, hb]
        simp [hy]
      · rw [hother hcc]
  · dsimp only at he
    by_cases hcc : c' = c
    · rw [hcc, Function.update_self] at he
      exact h.masks (c := c) (by rw [hb]; exact List.mem_cons_of_mem _ he)
    · rw [hother hcc] at he
      exact h.masks he
  · simp only [held, Function.update_self, hb, List.map_cons]
    exact Multiset.le_cons_self _ _
  · simp only [held, Function.update_self, hb, ht, List.map_cons, add_zero]
    rw [add_comm, Multiset.singleton_add, Multiset.cons_coe]
  · cases src with
    | batch d => simp only [held]; rw [hother fun h => hi (h ▸ rfl)]
    | taken d => exact Function.update_of_ne (fun h => hj (congrArg Source.taken h)) _ _
    | _ => rfl

/-- The exchange of the word of `x` spends the token of `i`. -/
theorem Sound.wake {i : Source} (hphase : b.phase = a.phase)
    (hword : b.word = Function.update a.word x (some STATE_RUNNABLE)) (hrecord : b.record = a.record)
    (hregs : b.regs = a.regs) (hbatch : b.batch = a.batch) (hx : a.held i = {x}) (hi : b.held i = 0)
    (ho : ∀ src, src ≠ i → b.held src = a.held src) : b.Sound := by
  have hxi : x ∈ a.held i := by rw [hx]; exact Multiset.mem_singleton_self x
  have hle : ∀ src, b.held src ≤ a.held src := by
    intro src
    by_cases hsrc : src = i
    · rw [hsrc, hi]; exact Multiset.zero_le _
    · rw [ho src hsrc]
  have hmem : ∀ {y}, y ≠ x → ∀ src, y ∈ b.held src ↔ y ∈ a.held src := by
    intro y hy src
    by_cases hsrc : src = i
    · rw [hsrc, hi, hx, Multiset.mem_singleton]
      exact iff_of_false (Multiset.notMem_zero y) hy
    · rw [ho src hsrc]
  have hspent : b.Spent x := by
    refine ⟨by rw [hword, Function.update_self], fun ⟨src, hsrc⟩ => ?_⟩
    obtain rfl := h.excl.inj (Multiset.mem_of_le (hle src) hsrc) hxi
    rw [hi] at hsrc
    exact Multiset.notMem_zero x hsrc
  refine ⟨h.excl.of_le hle, fun y => ?_, fun y => ?_, by rw [hregs]; exact h.fds,
    by rw [hregs, hphase]; exact h.reg, by rw [hregs, hphase]; exact h.regd,
    by rw [hbatch]; exact h.masks⟩
  · by_cases hy : y = x
    · subst hy
      obtain ⟨k, -, ⟨hp, -⟩ | ⟨hp, -⟩⟩ := h.token hxi
      · exact At.accounts (p := .published k) (.inr hspent) (by rw [hphase, hp])
      · exact At.accounts (p := .parked k) (.inr hspent) (by rw [hphase, hp])
    · refine (h.accounts y).same (by rw [hphase]) ?_ (hmem hy)
      rw [hword, Function.update_of_ne hy]
  · refine (h.recorded y).frame (by rw [hphase]) (by rw [hrecord]) ?_
    unfold Unread
    simp only [held, hregs, hbatch]

/-- **Every step of the protocol keeps its invariant.** -/
theorem Sound.step (hs : a.Step b) : b.Sound := by
  cases hs with
  | quiet hword => exact h.quiet hword
  | enterTimer hx => exact h.enterTimer hx
  | enterEvent hx => exact h.enterEvent hx
  | publishTimer hx => exact h.publishTimer hx
  | publishEvent hx hfd => exact h.publishEvent hx hfd
  | park hx hw => exact h.park hx hw
  | abort hx hw => exact h.abort hx hw
  | requeue hx => exact h.requeue hx
  | resume hx hw => exact h.resume hx hw
  | leave hx hw => exact h.leave hx hw
  | unregister hx => exact h.unregister hx
  | pop hd ht => exact h.pop hd ht
  | deliver hb hd => exact h.deliver hb hd
  | take hb ht hw hx => exact h.take hb ht hw hx
  | @wakeDue c x hc =>
    refine h.wake (i := .due c) rfl rfl rfl rfl rfl hc (Function.update_self _ _ _) fun src hsrc => ?_
    cases src with
    | due d => exact Function.update_of_ne (fun h => hsrc (congrArg Source.due h)) _ _
    | _ => rfl
  | @wakeTaken c x hc =>
    refine h.wake (i := .taken c) rfl rfl rfl rfl rfl hc (Function.update_self _ _ _) fun src hsrc => ?_
    cases src with
    | taken d => exact Function.update_of_ne (fun h => hsrc (congrArg Source.taken h)) _ _
    | _ => rfl

end

end Wake

end Lwthread.Scheduler
