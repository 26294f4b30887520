import Lwthread.Webserver.EventLib

/-!
# Who owns a waiter

While an operation is pending, `eventlib.c` owns its waiter; the callback takes it over, and may start
another operation on it or close the socket and free it. So `handle_event` should either call the
callback or arm the waiter again. Its three handlers do both when the system call fails with something
else than `EAGAIN`: they report the error and go on to `arm_waiter` (`handle_event_iff`).

A connection is one waiter with what its client does in the callbacks (`Client`). It keeps the record
of the operations completed and of the uses of the waiter that should not be.
-/

namespace Lwthread.Webserver

open Lwthread.Platform

/-! ## One call -/

/-- The callback was called once and the waiter not armed, or the waiter armed once and no callback
called. -/
def ExactlyOne (es : List Effect) : Prop :=
  es.countP (· matches .callback _) = 1 ∧ es.count .arm = 0 ∨
    es.countP (· matches .callback _) = 0 ∧ es.count .arm = 1

/-- The event that `arm_waiter` asked for is there. -/
def Event.awaited (event : Event) : WaitType → Bool
  | .accept => event.epollin
  | .read => event.epollin
  | .write => event.epollout

/-- The event is an error of the socket, or the one asked for and the system call does not fail with
something else than `EAGAIN`. -/
def Event.Clean (event : Event) (type : WaitType) : Prop :=
  event.epollerr = true ∨ event.awaited type = true ∧ ¬event.answer.Hard

/-- What the handlers do with the answer of a system call that fails. -/
theorem exactlyOne_error (errno : ℕ+) :
    ExactlyOne ((if errno ≠ EAGAIN ∧ errno ≠ EWOULDBLOCK then [Effect.callback (-(errno : Nat))]
      else []) ++ [.arm]) ↔ ¬(Answer.error errno).Hard := by
  unfold Answer.Hard
  split
  · rename_i hhard
    exact iff_of_false (by simp [ExactlyOne]) (not_not.2 hhard)
  · rename_i hsoft
    exact iff_of_true (by simp [ExactlyOne]) hsoft

theorem exactlyOne_callback (result : Int) : ExactlyOne [.callback result] := by
  simp [ExactlyOne]

theorem not_exactlyOne_abort : ¬ExactlyOne [.abort] := by
  simp [ExactlyOne]

theorem handleAccept_iff (event : Event) (waiter : Waiter) :
    ExactlyOne (handleAccept event waiter).2 ↔ event.Clean .accept := by
  unfold handleAccept Event.Clean Event.awaited
  cases event.epollerr with
  | true => exact iff_of_true (exactlyOne_callback _) (.inl rfl)
  | false =>
    cases event.epollin with
    | false => exact iff_of_false not_exactlyOne_abort (by simp)
    | true =>
      cases event.answer with
      | value newSock => exact iff_of_true (exactlyOne_callback _) (.inr ⟨rfl, nofun⟩)
      | error errno =>
        -- `EAGAIN` and `EWOULDBLOCK` are one number, so the two negations say the same
        have hor : (errno ≠ EAGAIN ∨ errno ≠ EWOULDBLOCK) ↔ errno ≠ EAGAIN ∧ errno ≠ EWOULDBLOCK := by
          unfold EAGAIN EWOULDBLOCK
          rw [or_self, and_self]
        simpa [hor] using exactlyOne_error errno

theorem handleRead_iff (event : Event) (waiter : Waiter) :
    ExactlyOne (handleRead event waiter).2 ↔ event.Clean .read := by
  unfold handleRead Event.Clean Event.awaited
  cases event.epollerr with
  | true => exact iff_of_true (exactlyOne_callback _) (.inl rfl)
  | false =>
    cases event.epollin with
    | false => exact iff_of_false not_exactlyOne_abort (by simp)
    | true =>
      cases event.answer with
      | value n => exact iff_of_true (exactlyOne_callback _) (.inr ⟨rfl, nofun⟩)
      | error errno => simpa using exactlyOne_error errno

theorem handleWrite_iff (event : Event) (waiter : Waiter) :
    ExactlyOne (handleWrite event waiter).2 ↔ event.Clean .write := by
  unfold handleWrite Event.Clean Event.awaited
  cases event.epollerr with
  | true => exact iff_of_true (exactlyOne_callback _) (.inl rfl)
  | false =>
    cases event.epollout with
    | false => exact iff_of_false not_exactlyOne_abort (by simp)
    | true =>
      cases event.answer with
      | value n =>
        refine iff_of_true ?_ (.inr ⟨rfl, nofun⟩)
        dsimp only
        rw [if_neg Bool.false_ne_true, if_neg (by decide)]
        split <;> simp [ExactlyOne]
      | error errno => simpa using exactlyOne_error errno

theorem handleEvent_iff (event : Event) (waiter : Waiter) :
    ExactlyOne (handleEvent event waiter).2 ↔ event.Clean waiter.waitType := by
  unfold handleEvent
  split
  · rename_i h
    rw [h]
    exact handleAccept_iff event waiter
  · rename_i h
    rw [h]
    exact handleRead_iff event waiter
  · rename_i h
    rw [h]
    exact handleWrite_iff event waiter

/-! ## A connection -/

/-- An operation that a client asks for. -/
inductive Operation where
  | accept
  | recv (length : Nat)
  | send (buffer : List UInt8)

/-- `async_accept`, `async_recv` and `async_send`. -/
def Operation.start (answer : Answer) (waiter : Waiter) : Operation → Int × Waiter × List Effect
  | .accept => asyncAccept answer waiter
  | .recv length => asyncRecv answer length waiter
  | .send buffer => asyncSend answer buffer waiter

/-- What a client does with a waiter that it owns: nothing more, close the socket and free it, or start
an operation, with what the system call answers. If that is done or has failed at once, the client goes
on, in the callback or after the call. -/
inductive Client where
  | leave
  | free
  | start (operation : Operation) (answer : Answer) (next : Client)

/-- A use of the waiter that should not be. -/
inductive Misuse where
  /-- the library uses a waiter that has been freed -/
  | usedAfterFree
  /-- `EPOLL_CTL_ADD` of a socket that is registered -/
  | armedTwice
  /-- the event is not the one asked for -/
  | assertion
  deriving DecidableEq

/-- A waiter and its socket. `op` numbers the operations started, `completed` lists those whose callback
has been called. -/
structure Connection where
  waiter : Waiter
  live : Bool
  armed : Bool
  op : Nat
  completed : List Nat
  misuses : List Misuse

namespace Connection

/-- The library reads or writes the waiter. -/
def touch (c : Connection) : Connection :=
  if c.live then c else { c with misuses := .usedAfterFree :: c.misuses }

/-- `arm_waiter`. -/
def arm (c : Connection) : Connection :=
  let c := c.touch
  if c.armed then { c with misuses := .armedTwice :: c.misuses } else { c with armed := true }

/-- The callback of the current operation is called. -/
def complete (c : Connection) : Connection := { c with completed := c.op :: c.completed }

/-- The client acts; closing the socket takes it out of the epoll instance. -/
def serve : Client → Connection → Connection
  | .leave, c => c
  | .free, c => { c with live := false, armed := false }
  | .start operation answer next, c =>
    let c := c.touch
    let r := operation.start answer c.waiter
    let c := { c with waiter := r.2.1, op := c.op + 1 }
    if r.2.2.any (· matches .callback _) then serve next c.complete
    else if rearmed r.2.2 then c.arm
    else serve next c

/-- The effects of a handler take place; the client acts in the callback. -/
def perform (client : Client) : List Effect → Connection → Connection
  | [], c => c
  | .sent _ :: es, c => perform client es c
  | .callback _ :: es, c => perform client es (serve client c.complete)
  | .arm :: es, c => perform client es c.arm
  | .abort :: _, c => { c with misuses := .assertion :: c.misuses }

/-- `handle_event`, for a waiter that is registered; others have no events. -/
def handle (c : Connection) (event : Event) (client : Client) : Connection :=
  if c.armed then
    let c := { c.touch with armed := false }
    let r := handleEvent event c.waiter
    perform client r.2 { c with waiter := r.1 }
  else c

/-- One event after another, with what the client does in each callback. -/
def run (c : Connection) : List (Event × Client) → Connection
  | [] => c
  | (event, client) :: rest => run (c.handle event client) rest

/-- Every event that is handled is clean. -/
def CleanRun (c : Connection) : List (Event × Client) → Prop
  | [] => True
  | (event, client) :: rest =>
    (c.armed = true → event.Clean c.waiter.waitType) ∧ CleanRun (c.handle event client) rest

/-- A waiter after `async_init_waiter`. -/
def fresh (waiter : Waiter) : Connection := ⟨waiter, true, false, 0, [], []⟩

/-! ## The invariant -/

/-- Nothing has been misused, and the pending operation has not been completed. -/
structure Sound (c : Connection) : Prop where
  misuses : c.misuses = []
  once : c.completed.Nodup
  started : ∀ k ∈ c.completed, k ≤ c.op
  pending : c.armed = true → c.live = true ∧ c.op ∉ c.completed

theorem fresh_sound (waiter : Waiter) : (fresh waiter).Sound where
  misuses := rfl
  once := List.nodup_nil
  started := nofun
  pending := nofun

variable {c : Connection}

theorem touch_live (hl : c.live = true) : c.touch = c := if_pos hl

theorem arm_eq (hl : c.live = true) (ha : c.armed = false) : c.arm = { c with armed := true } := by
  unfold arm
  rw [touch_live hl]
  exact if_neg (by rw [ha]; decide)

/-- A client that owns the waiter leaves it sound. -/
theorem Sound.serve (client : Client) (hs : c.Sound) (hl : c.live = true) (ha : c.armed = false) :
    (serve client c).Sound := by
  induction client generalizing c with
  | leave => exact hs
  | free => exact ⟨hs.misuses, hs.once, hs.started, nofun⟩
  | start operation answer next ih =>
    have hnew : c.op + 1 ∉ c.completed := fun hin => absurd (hs.started _ hin) (by omega)
    have hlate : ∀ k ∈ c.completed, k ≤ c.op + 1 := fun k hk => (hs.started k hk).trans (by omega)
    unfold Connection.serve
    rw [touch_live hl]
    dsimp only
    split
    · refine ih ⟨hs.misuses, List.nodup_cons.2 ⟨hnew, hs.once⟩, ?_, ?_⟩ hl ha
      · exact List.forall_mem_cons.2 ⟨le_rfl, hlate⟩
      · exact fun harm => absurd (ha.symm.trans harm) (by decide)
    · split
      · rw [arm_eq (by exact hl) (by exact ha)]
        exact ⟨hs.misuses, hs.once, hlate, fun _ => ⟨hl, hnew⟩⟩
      · exact ih ⟨hs.misuses, hs.once, hlate, fun harm => absurd (ha.symm.trans harm) (by decide)⟩ hl ha

/-- The effects of a handler. -/
inductive Outcome : List Effect → Prop
  | abort : Outcome [.abort]
  | report (result : Int) : Outcome [.callback result]
  | again : Outcome [.arm]
  | both (result : Int) : Outcome [.callback result, .arm]
  | sentAll (bytes : List UInt8) (result : Int) : Outcome [.sent bytes, .callback result]
  | sentSome (bytes : List UInt8) : Outcome [.sent bytes, .arm]

theorem outcome_error (p : Prop) [Decidable p] (result : Int) :
    Outcome ((if p then [.callback result] else []) ++ [.arm]) := by
  split
  · exact .both result
  · exact .again

theorem handleAccept_outcome (event : Event) (waiter : Waiter) :
    Outcome (handleAccept event waiter).2 := by
  unfold handleAccept
  split
  · exact .report _
  · split
    · exact .abort
    · split
      · exact outcome_error _ _
      · exact .report _

theorem handleRead_outcome (event : Event) (waiter : Waiter) :
    Outcome (handleRead event waiter).2 := by
  unfold handleRead
  split
  · exact .report _
  · split
    · exact .abort
    · split
      · exact outcome_error _ _
      · exact .report _

theorem handleWrite_outcome (event : Event) (waiter : Waiter) :
    Outcome (handleWrite event waiter).2 := by
  unfold handleWrite
  split
  · exact .report _
  · split
    · exact .abort
    · dsimp only
      split
      · exact outcome_error _ _
      · split
        · exact .sentAll _ _
        · exact .sentSome _

theorem handleEvent_outcome (event : Event) (waiter : Waiter) :
    Outcome (handleEvent event waiter).2 := by
  unfold handleEvent
  split
  · exact handleAccept_outcome event waiter
  · exact handleRead_outcome event waiter
  · exact handleWrite_outcome event waiter

/-- Effects that are a callback or `arm_waiter`, and not both, keep the connection sound. -/
theorem Sound.perform {es : List Effect} (client : Client) (hs : c.Sound) (hl : c.live = true)
    (ha : c.armed = false) (hop : c.op ∉ c.completed) (ho : Outcome es) (hone : ExactlyOne es) :
    (perform client es c).Sound := by
  have hreport : (Connection.serve client c.complete).Sound := by
    refine Sound.serve client ⟨hs.misuses, List.nodup_cons.2 ⟨hop, hs.once⟩, ?_, ?_⟩ hl ha
    · exact List.forall_mem_cons.2 ⟨le_rfl, hs.started⟩
    · exact fun harm => absurd (ha.symm.trans harm) (by decide)
  have hagain : c.arm.Sound := by
    rw [arm_eq hl ha]
    exact ⟨hs.misuses, hs.once, hs.started, fun _ => ⟨hl, hop⟩⟩
  cases ho with
  | abort => exact absurd hone not_exactlyOne_abort
  | report result => exact hreport
  | again => exact hagain
  | both result => exact absurd hone (by simp [ExactlyOne])
  | sentAll bytes result => exact hreport
  | sentSome bytes => exact hagain

/-- **One event.** A clean event keeps the connection sound. -/
theorem Sound.handle (hs : c.Sound) {event : Event} (client : Client)
    (hclean : c.armed = true → event.Clean c.waiter.waitType) : (c.handle event client).Sound := by
  unfold Connection.handle
  split
  · rename_i harm
    obtain ⟨hl, hop⟩ := hs.pending harm
    have hone := (handleEvent_iff event c.waiter).2 (hclean harm)
    rw [touch_live hl]
    exact Sound.perform client ⟨hs.misuses, hs.once, hs.started, nofun⟩ hl rfl hop
      (handleEvent_outcome event c.waiter) hone
  · exact hs

/-- Clean events keep the connection sound. -/
theorem Sound.run (hs : c.Sound) {events : List (Event × Client)} (hclean : CleanRun c events) :
    (c.run events).Sound := by
  induction events generalizing c with
  | nil => exact hs
  | cons e events ih => exact ih (hs.handle e.2 hclean.1) hclean.2

end Connection

/-- **The waiter has one owner.** A call of `handle_event` calls the callback once or arms the waiter
once, and not both, exactly when the event is a socket error, or the one asked for with a system call
that does not fail with something else than `EAGAIN`. In every run of such events, from any first
operation and whatever the client does in its callbacks, each operation completes at most once, a freed
waiter is not used and a registered socket is not armed again. -/
theorem handle_event_iff (event : Event) (waiter : Waiter) (first : Client)
    (events : List (Event × Client)) :
    (ExactlyOne (handleEvent event waiter).2 ↔ event.Clean waiter.waitType) ∧
    ((Connection.serve first (.fresh waiter)).CleanRun events →
      ((Connection.serve first (.fresh waiter)).run events).completed.Nodup ∧
        ((Connection.serve first (.fresh waiter)).run events).misuses = []) := by
  refine ⟨handleEvent_iff event waiter, fun hclean => ?_⟩
  have hstart := (Connection.fresh_sound waiter).serve first rfl rfl
  have hrun := hstart.run hclean
  exact ⟨hrun.once, hrun.misuses⟩

/-- A read that is deferred, wakes up for nothing, and is answered and closed. -/
theorem handle_event_iff_read :
    let waiter : Waiter := ⟨.read, [], 512, 0⟩
    let connection := Connection.serve (.start (.recv 512) (.error EAGAIN) .leave) (.fresh waiter)
    let last := connection.run [(⟨false, true, false, .value 0, .error EAGAIN⟩, .leave),
      (⟨false, true, false, .value 0, .value 90⟩, .free)]
    last.completed = [1] ∧ last.completed.Nodup ∧ last.misuses = [] := by
  intro waiter connection last
  refine ⟨by decide, (handle_event_iff ⟨false, true, false, .value 0, .error EAGAIN⟩ waiter _ _).2
    ⟨fun _ => .inr ⟨rfl, ?_⟩, fun _ => .inr ⟨rfl, ?_⟩, trivial⟩⟩
  · decide
  · decide

/-- A read that is deferred and then fails with `ECONNRESET`: the client frees the waiter in the
callback, and `handle_read` arms it after that. -/
theorem handle_event_both :
    let waiter : Waiter := ⟨.read, [], 512, 0⟩
    let event : Event := ⟨false, true, false, .value 0, .error 104⟩
    let connection := Connection.serve (.start (.recv 512) (.error EAGAIN) .leave) (.fresh waiter)
    (handleEvent event waiter).2 = [.callback (-104), .arm] ∧
      ¬ExactlyOne (handleEvent event waiter).2 ∧
      (connection.run [(event, .free)]).misuses = [.usedAfterFree] ∧
      (connection.run [(event, .leave), (event, .leave)]).completed = [1, 1] := by
  intro waiter event connection
  refine ⟨by decide, ?_, by decide, by decide⟩
  unfold ExactlyOne
  decide

end Lwthread.Webserver
