import Lwthread.Webserver.EventServ
import Lwthread.Webserver.Pipelining

/-!
# The life of a connection of `eventserv.c`

A connection of the callback server is in one hand at a time: a callback runs, or the waiter is armed
and the poller has it, or it is closed and its request freed. This holds in every run in which each
event is clean, that is, an error comes with `EPOLLERR` or the system call for it does not fail with
something else than `EAGAIN` (`connection_in_one_hand`). Then no callback and no handler uses a request
that has been freed, no waiter is armed twice, a socket is closed once, and an open connection always
has its next callback or is armed, so that it does not fall silent.
-/

namespace Lwthread.Webserver

open Lwthread.Platform

variable {σ : Type} {http : HttpParser σ} {s s' : Serv σ} {i : ServInput} {cb : Cb}

/-! ## The library -/

namespace Serv

/-- The current callback has the connection. -/
structure Bare (s : Serv σ) : Prop where
  live : s.live = true
  armed : s.armed = false
  closes : s.closes = 0
  call : s.call = none
  rearm : s.rearm = false
  stop : s.stop = none

theorem neg_errno (errno : ℕ+) : -((errno : Nat) : Int) < 0 := by
  have := errno.pos
  omega

/-- The waiter after a call of `async_recv` that has to wait. -/
def awaitRead (s : Serv σ) : Serv σ :=
  { s with
    armed := true
    request := { s.request with
      waiter := { s.request.waiter with waitType := .read, length := READ_SIZE }, cb := .onRead } }

/-- The waiter after a call of `async_send` that has to wait. -/
def awaitWrite (s : Serv σ) (buffer : List UInt8) (onWrite : Cb) : Serv σ :=
  { s with
    armed := true
    request := { s.request with waiter := ⟨.write, buffer, buffer.length, 0⟩, cb := onWrite } }

/-- What `async_recv` does: it calls `on_read` with what it has read, returns an error, or arms the
waiter. -/
theorem asyncRecv_cases (hs : s.Bare) (received : Received) (onError : Int → Serv σ → Serv σ) :
    (∃ bytes, received = .data bytes ∧ s.asyncRecv received onError =
      { s with call := some ⟨.onRead, (min bytes.length READ_SIZE : Nat), bytes.take READ_SIZE⟩ }) ∨
    (∃ errno, received = .error errno ∧ (Answer.error errno).Hard ∧
      s.asyncRecv received onError = onError (-(errno : Nat)) s) ∨
    (∃ errno, received = .error errno ∧ ¬(Answer.error errno).Hard ∧
      s.asyncRecv received onError = s.awaitRead) := by
  cases received with
  | data bytes =>
    have hcall : Webserver.asyncRecv (Received.data bytes).answer READ_SIZE s.request.waiter =
        (((min bytes.length READ_SIZE : Nat) : Int), s.request.waiter,
          [.callback (min bytes.length READ_SIZE : Nat)]) := rfl
    refine .inl ⟨bytes, rfl, ?_⟩
    unfold asyncRecv
    rw [hcall]
    dsimp only
    rw [if_neg (Int.not_lt.2 (Int.natCast_nonneg _))]
    simp [rearmed, perform, hs.rearm, Received.bytes]
  | error errno =>
    by_cases hhard : (Answer.error errno).Hard
    · have hcall : Webserver.asyncRecv (Received.error errno).answer READ_SIZE s.request.waiter =
          (-((errno : Nat) : Int), s.request.waiter, []) := if_pos hhard
      refine .inr (.inl ⟨errno, rfl, hhard, ?_⟩)
      unfold asyncRecv
      rw [hcall]
      dsimp only
      rw [if_pos (neg_errno errno)]
      rfl
    · have hcall : Webserver.asyncRecv (Received.error errno).answer READ_SIZE s.request.waiter =
          (0, { s.request.waiter with waitType := .read, length := READ_SIZE }, [.arm]) := if_neg hhard
      refine .inr (.inr ⟨errno, rfl, hhard, ?_⟩)
      unfold asyncRecv
      rw [hcall]
      dsimp only
      rw [if_neg (Int.lt_irrefl 0)]
      simp [rearmed, perform, arm, hs.live, hs.armed, awaitRead]

/-- What `async_send` does: it calls the callback with what has been sent, returns an error, or arms the
waiter. -/
theorem asyncSend_cases (hs : s.Bare) (buffer : List UInt8) (answer : Answer) (onWrite : Cb)
    (onError : Int → Serv σ → Serv σ) :
    (∃ n, answer = .value n ∧ s.asyncSend buffer answer onWrite onError =
      { s with
        sent := s.sent ++ buffer.take (min n buffer.length)
        call := some ⟨onWrite, (min n buffer.length : Nat), []⟩ }) ∨
    (∃ errno, answer = .error errno ∧ answer.Hard ∧
      s.asyncSend buffer answer onWrite onError = onError (-(errno : Nat)) s) ∨
    (∃ errno, answer = .error errno ∧ ¬answer.Hard ∧
      s.asyncSend buffer answer onWrite onError = s.awaitWrite buffer onWrite) := by
  cases answer with
  | value n =>
    have hcall : Webserver.asyncSend (.value n) buffer s.request.waiter =
        (((min n buffer.length : Nat) : Int), s.request.waiter,
          [.sent (buffer.take (min n buffer.length)), .callback (min n buffer.length : Nat)]) := rfl
    refine .inl ⟨n, rfl, ?_⟩
    unfold asyncSend
    rw [hcall]
    dsimp only
    rw [if_neg (Int.not_lt.2 (Int.natCast_nonneg _))]
    simp [rearmed, perform, hs.rearm]
  | error errno =>
    by_cases hhard : (Answer.error errno).Hard
    · have hcall : Webserver.asyncSend (.error errno) buffer s.request.waiter =
          (-((errno : Nat) : Int), s.request.waiter, []) := if_pos hhard
      refine .inr (.inl ⟨errno, rfl, hhard, ?_⟩)
      unfold asyncSend
      rw [hcall]
      dsimp only
      rw [if_pos (neg_errno errno)]
      rfl
    · have hcall : Webserver.asyncSend (.error errno) buffer s.request.waiter =
          (0, ⟨.write, buffer, buffer.length, 0⟩, [.arm]) := if_neg hhard
      refine .inr (.inr ⟨errno, rfl, hhard, ?_⟩)
      unfold asyncSend
      rw [hcall]
      dsimp only
      rw [if_neg (Int.lt_irrefl 0)]
      simp [rearmed, perform, arm, hs.live, hs.armed, awaitWrite]

/-- The waiter's callback is called for an event. -/
def deliver (s : Serv σ) (result : Int) (data : List UInt8) : Serv σ :=
  { s with armed := false, call := some ⟨s.request.cb, result, data⟩ }

/-- `send` has accepted `n` bytes more of the waiter's buffer. -/
def wrote (s : Serv σ) (n : Nat) : Serv σ :=
  let w := s.request.waiter
  { s with
    sent := s.sent ++ (w.buffer.drop w.numWritten).take n
    request := { s.request with waiter := { w with numWritten := w.numWritten + n } } }

/-- The poller has the connection. -/
structure Armed (s : Serv σ) : Prop where
  live : s.live = true
  armed : s.armed = true
  closes : s.closes = 0
  call : s.call = none
  rearm : s.rearm = false
  stop : s.stop = none

theorem arm_again (hs : s.Armed) : { s with armed := false }.arm = s := by
  obtain ⟨hlive, harmed, -⟩ := hs
  cases s
  subst hlive harmed
  rfl

/-- What a clean event does to a connection that waits to read: it calls the callback with the error of
the socket or with what has been read, or the connection waits on. -/
theorem handleEvent_read (hs : s.Armed) (hw : s.request.waiter.waitType = .read)
    {epollerr epollin : Bool} {soError : Answer} {received : Received} (data : List UInt8)
    (hclean : (Event.mk epollerr epollin false soError received.answer).Clean .read) :
    let event : Event := ⟨epollerr, epollin, false, soError, received.answer⟩
    (epollerr = true ∧ s.handleEvent event data = s.deliver (socketErrno soError) data) ∨
    (epollerr = false ∧ ∃ bytes, received = .data bytes ∧ s.handleEvent event data =
      s.deliver (min bytes.length s.request.waiter.length : Nat) data) ∨
    (epollerr = false ∧ ∃ errno, received = .error errno ∧ ¬(Answer.error errno).Hard ∧
      s.handleEvent event data = s) := by
  intro event
  have hevent : Webserver.handleEvent event s.request.waiter = handleRead event s.request.waiter := by
    unfold Webserver.handleEvent
    rw [hw]
  unfold handleEvent
  rw [hevent]
  cases epollerr with
  | true =>
    refine .inl ⟨rfl, ?_⟩
    simp [event, handleRead, perform, rearmed, deliver, hs.rearm]
  | false =>
    obtain ⟨hin, hsoft⟩ := hclean.resolve_left Bool.false_ne_true
    have hin : epollin = true := hin
    subst hin
    cases received with
    | data bytes =>
      refine .inr (.inl ⟨rfl, bytes, rfl, ?_⟩)
      simp [event, handleRead, Received.answer, perform, rearmed, deliver, hs.rearm]
    | error errno =>
      have hcall : handleRead event s.request.waiter = (s.request.waiter, [.arm]) :=
        congrArg (fun es => (s.request.waiter, es ++ [Effect.arm])) (if_neg hsoft)
      refine .inr (.inr ⟨rfl, errno, rfl, hsoft, ?_⟩)
      rw [hcall]
      exact arm_again hs

/-- What a clean event does to a connection that waits to write: it calls the callback with the error of
the socket or after the last byte, or the connection waits on. -/
theorem handleEvent_write (hs : s.Armed) (hw : s.request.waiter.waitType = .write)
    {epollerr epollout : Bool} {soError answer : Answer}
    (hclean : (Event.mk epollerr false epollout soError answer).Clean .write) :
    let event : Event := ⟨epollerr, false, epollout, soError, answer⟩
    let remaining := s.request.waiter.length - s.request.waiter.numWritten
    (epollerr = true ∧ s.handleEvent event [] = s.deliver (socketErrno soError) []) ∨
    (epollerr = false ∧ ∃ n, answer = .value n ∧
      s.request.waiter.numWritten + min n remaining = s.request.waiter.length ∧
      s.handleEvent event [] = (s.wrote (min n remaining)).deliver (min n remaining : Nat) []) ∨
    (epollerr = false ∧ ∃ n, answer = .value n ∧
      s.request.waiter.numWritten + min n remaining ≠ s.request.waiter.length ∧
      s.handleEvent event [] = s.wrote (min n remaining)) ∨
    (epollerr = false ∧ ∃ errno, answer = .error errno ∧ ¬answer.Hard ∧
      s.handleEvent event [] = s) := by
  intro event remaining
  have hevent : Webserver.handleEvent event s.request.waiter = handleWrite event s.request.waiter := by
    unfold Webserver.handleEvent
    rw [hw]
  unfold handleEvent
  rw [hevent]
  cases epollerr with
  | true =>
    refine .inl ⟨rfl, ?_⟩
    simp [event, handleWrite, perform, rearmed, deliver, hs.rearm]
  | false =>
    obtain ⟨hout, hsoft⟩ := hclean.resolve_left Bool.false_ne_true
    have hout : epollout = true := hout
    subst hout
    cases answer with
    | value n =>
      by_cases hlast : s.request.waiter.numWritten + min n remaining = s.request.waiter.length
      · refine .inr (.inl ⟨rfl, n, rfl, hlast, ?_⟩)
        simp [event, handleWrite, hlast, remaining, perform, rearmed, deliver, wrote, hs.rearm]
      · refine .inr (.inr (.inl ⟨rfl, n, rfl, hlast, ?_⟩))
        simp [event, handleWrite, hlast, remaining, perform, wrote, arm, hs.live, hs.armed]
    | error errno =>
      have hcall : handleWrite event s.request.waiter = (s.request.waiter, [.arm]) :=
        congrArg (fun es => (s.request.waiter, es ++ [Effect.arm])) (if_neg hsoft)
      refine .inr (.inr (.inr ⟨rfl, errno, rfl, hsoft, ?_⟩))
      rw [hcall]
      exact arm_again hs

end Serv

/-! ## Whose hand -/

/-- A callback that may follow an operation of a request: `on_response_done` is set when
`send_http_response_helper` is to use it. -/
def ServRequest.Next (r : ServRequest σ) (cb : Cb) : Prop :=
  cb = .sendHttpResponseHelper → r.onResponseDone = .nextRequest ∨ r.onResponseDone = .requestDone

/-- The callback in the waiter is one of the operation that it waits for. -/
def ServRequest.Matched (r : ServRequest σ) : Prop :=
  r.waiter.waitType = .read ∧ r.waiter.length = READ_SIZE ∧ r.cb = .onRead ∨
    r.waiter.waitType = .write ∧ r.cb ≠ .onRead

/-- A connection is in one hand: a callback runs, the poller has it, or it has been closed once and its
request freed; or the program has ended. -/
inductive Hand (s : Serv σ) : Prop
  | called (call : Call) (hs : { s with call := none }.Bare) (hcall : s.call = some call)
      (hnext : s.request.Next call.cb)
  | armed (hs : s.Armed) (hmatched : s.request.Matched) (hnext : s.request.Next s.request.cb)
  | closed (live : s.live = false) (armed : s.armed = false) (closes : s.closes = 1)
      (call : s.call = none) (rearm : s.rearm = false) (stop : s.stop = none)
  | ended (stop : s.stop = some .exited ∨ s.stop = some .aborted) (closes : s.closes = 0)

namespace Serv.Bare

theorem requestDone (hs : s.Bare) (result : Int) : Hand (Webserver.requestDone result s) := by
  unfold Webserver.requestDone
  split
  · exact .ended (.inl rfl) hs.closes
  · exact .closed rfl hs.armed (congrArg (· + 1) hs.closes) hs.call hs.rearm hs.stop

theorem calls (hs : s.Bare) (call : Call) {sent : List UInt8} (hnext : s.request.Next call.cb) :
    Hand { s with call := some call, sent := sent } :=
  .called call ⟨hs.live, hs.armed, hs.closes, rfl, hs.rearm, hs.stop⟩ rfl hnext

theorem asyncRecv (hs : s.Bare) (received : Received) {onError : Int → Serv σ → Serv σ}
    (herror : ∀ result, Hand (onError result s)) : Hand (s.asyncRecv received onError) := by
  obtain ⟨bytes, -, h⟩ | ⟨errno, -, -, h⟩ | ⟨errno, -, -, h⟩ := asyncRecv_cases hs received onError
  · rw [h]
    exact hs.calls _ (by rintro ⟨⟩)
  · rw [h]
    exact herror _
  · rw [h]
    exact .armed ⟨hs.live, rfl, hs.closes, hs.call, hs.rearm, hs.stop⟩ (.inl ⟨rfl, rfl, rfl⟩) (by rintro ⟨⟩)

theorem asyncSend (hs : s.Bare) (buffer : List UInt8) (answer : Answer) {onWrite : Cb}
    (hwrite : onWrite ≠ .onRead) (hnext : s.request.Next onWrite) :
    Hand (s.asyncSend buffer answer onWrite Webserver.requestDone) := by
  obtain ⟨n, -, h⟩ | ⟨errno, -, -, h⟩ | ⟨errno, -, -, h⟩ :=
    asyncSend_cases hs buffer answer onWrite Webserver.requestDone
  · rw [h]
    exact hs.calls ⟨onWrite, _, []⟩ hnext
  · rw [h]
    exact hs.requestDone _
  · rw [h]
    exact .armed ⟨hs.live, rfl, hs.closes, hs.call, hs.rearm, hs.stop⟩ (.inr ⟨rfl, hwrite⟩) hnext

theorem setRequest (hs : s.Bare) (request : ServRequest σ) {answered : List (Answered × Timestr)} :
    { s with request := request, answered := answered }.Bare :=
  ⟨hs.live, hs.armed, hs.closes, hs.call, hs.rearm, hs.stop⟩

end Serv.Bare

/-! ## One step -/

theorem servStep_call {call : Call} (hstop : s.stop = none) (hlive : s.live = true)
    (hcall : s.call = some call) : servStep http s i = call.run http { s with call := none } i := by
  unfold servStep
  rw [if_neg (by rw [hstop]; decide), hcall]
  dsimp only
  rw [if_neg (by rw [hlive]; decide)]

/-- A step of a connection that the poller has: an event for what it waits for. -/
theorem servStep_armed (hs : s.Armed) (h : servStep http s i = some s') :
    (∃ epollerr epollin soError received, i = .readEvent epollerr epollin soError received ∧
      s.request.waiter.waitType = .read ∧
      s' = s.handleEvent ⟨epollerr, epollin, false, soError, received.answer⟩
        (received.bytes s.request.waiter.length)) ∨
    ∃ epollerr epollout soError answer, i = .writeEvent epollerr epollout soError answer ∧
      s.request.waiter.waitType = .write ∧
      s' = s.handleEvent ⟨epollerr, false, epollout, soError, answer⟩ [] := by
  unfold servStep at h
  rw [if_neg (by rw [hs.stop]; decide), hs.call] at h
  dsimp only at h
  rw [if_neg (by rw [hs.rearm]; decide), if_pos hs.armed] at h
  split at h
  · rename_i hw
    exact .inl ⟨_, _, _, _, rfl, hw, (Option.some.inj h).symm⟩
  · rename_i hw
    exact .inr ⟨_, _, _, _, rfl, hw, (Option.some.inj h).symm⟩
  · cases h

theorem sendHttpResponse_hand (hs : s.Bare) (answered : Answered) (timestr : Timestr) (answer : Answer)
    {onDone : Cb} (hdone : onDone = .nextRequest ∨ onDone = .requestDone) :
    Hand (sendHttpResponse answered timestr answer onDone s) :=
  (hs.setRequest _).asyncSend _ answer (by decide) fun _ => hdone

theorem onParsed_hand (hs : s.Bare) (h : onParsed http s i = some s') : Hand s' := by
  unfold onParsed at h
  dsimp only at h
  split at h
  · split at h
    · obtain rfl := Option.some.inj h
      exact hs.asyncRecv _ fun result => hs.requestDone result
    · cases h
  · split at h
    · split at h
      · obtain rfl := Option.some.inj h
        exact .ended (.inr rfl) hs.closes
      · cases h
    · split at h
      · obtain rfl := Option.some.inj h
        refine sendHttpResponse_hand hs _ _ _ ?_
        split
        · exact .inl rfl
        · exact .inr rfl
      · cases h

theorem onRead_hand {numRead : Int} {data : List UInt8} (hs : s.Bare)
    (h : onRead http numRead data s i = some s') : Hand s' := by
  unfold onRead at h
  split at h
  · split at h
    · obtain rfl := Option.some.inj h
      exact hs.requestDone 0
    · cases h
  · split at h
    · split at h
      · obtain rfl := Option.some.inj h
        exact .ended (.inl rfl) hs.closes
      · cases h
    · split at h
      · split at h
        · obtain rfl := Option.some.inj h
          exact hs.requestDone 0
        · cases h
      · rename_i fields parser _
        dsimp only at h
        split at h
        · split at h
          · obtain rfl := Option.some.inj h
            exact (hs.setRequest _).requestDone 0
          · cases h
        · exact onParsed_hand (hs.setRequest _) h

theorem sendHttpResponseHelper_hand {result : Int} (hs : s.Bare)
    (hnext : s.request.Next .sendHttpResponseHelper)
    (h : sendHttpResponseHelper result s i = some s') : Hand s' := by
  unfold sendHttpResponseHelper at h
  split at h
  · split at h
    · obtain rfl := Option.some.inj h
      exact .ended (.inl rfl) hs.closes
    · cases h
  · split at h
    · obtain rfl := Option.some.inj h
      obtain hdone | hdone := hnext rfl
      · exact hs.asyncSend _ _ (by rw [hdone]; decide) (by rw [hdone]; rintro ⟨⟩)
      · exact hs.asyncSend _ _ (by rw [hdone]; decide) (by rw [hdone]; rintro ⟨⟩)
    · cases h

theorem nextRequest_hand {result : Int} (hs : s.Bare) (h : nextRequest result s i = some s') :
    Hand s' := by
  unfold nextRequest at h
  split at h
  · split at h
    · obtain rfl := Option.some.inj h
      exact .ended (.inl rfl) hs.closes
    · cases h
  · split at h
    · obtain rfl := Option.some.inj h
      exact (hs.setRequest _).asyncRecv _ fun result => (hs.setRequest _).requestDone result
    · cases h

/-- A callback leaves the connection in one hand. -/
theorem Call.run_hand {call : Call} (hs : s.Bare) (hnext : s.request.Next call.cb)
    (h : call.run http s i = some s') : Hand s' := by
  obtain ⟨cb, result, data⟩ := call
  cases cb with
  | onRead => exact onRead_hand hs h
  | sendHttpResponseHelper => exact sendHttpResponseHelper_hand hs hnext h
  | nextRequest => exact nextRequest_hand hs h
  | requestDone =>
    unfold Call.run at h
    dsimp only at h
    split at h
    · obtain rfl := Option.some.inj h
      exact hs.requestDone result
    · cases h

theorem Serv.Armed.deliver (hs : s.Armed) (hnext : s.request.Next s.request.cb) (result : Int)
    (data : List UInt8) : Hand (s.deliver result data) :=
  .called ⟨s.request.cb, result, data⟩ ⟨hs.live, rfl, hs.closes, rfl, hs.rearm, hs.stop⟩ rfl hnext

theorem Serv.Armed.wrote (hs : s.Armed) (n : Nat) : (s.wrote n).Armed :=
  ⟨hs.live, hs.armed, hs.closes, hs.call, hs.rearm, hs.stop⟩

/-- The events of an input are clean. -/
def ServInput.Clean : ServInput → Prop
  | .readEvent epollerr epollin soError received =>
    (Event.mk epollerr epollin false soError received.answer).Clean .read
  | .writeEvent epollerr epollout soError answer =>
    (Event.mk epollerr false epollout soError answer).Clean .write
  | _ => True

instance (event : Event) (type : WaitType) : Decidable (event.Clean type) :=
  inferInstanceAs (Decidable (_ ∨ _ ∧ _))

instance : DecidablePred ServInput.Clean
  | .readEvent .. => inferInstanceAs (Decidable (Event.Clean _ _))
  | .writeEvent .. => inferInstanceAs (Decidable (Event.Clean _ _))
  | .recv _ => .isTrue trivial
  | .headers .. => .isTrue trivial
  | .send _ => .isTrue trivial
  | .close => .isTrue trivial
  | .ret => .isTrue trivial

/-- A clean event leaves the connection in one hand. -/
theorem Serv.Armed.step (hs : s.Armed) (hmatched : s.request.Matched)
    (hnext : s.request.Next s.request.cb) (hclean : i.Clean) (h : servStep http s i = some s') :
    Hand s' := by
  have hand : Hand s := .armed hs hmatched hnext
  obtain ⟨epollerr, epollin, soError, received, rfl, hw, rfl⟩ |
    ⟨epollerr, epollout, soError, answer, rfl, hw, rfl⟩ := servStep_armed hs h
  · obtain ⟨-, h⟩ | ⟨-, bytes, -, h⟩ | ⟨-, errno, -, -, h⟩ := handleEvent_read hs hw _ hclean
    · rw [h]
      exact hs.deliver hnext _ _
    · rw [h]
      exact hs.deliver hnext _ _
    · rwa [h]
  · obtain ⟨-, h⟩ | ⟨-, n, -, -, h⟩ | ⟨-, n, -, -, h⟩ | ⟨-, errno, -, -, h⟩ :=
      handleEvent_write hs hw hclean
    · rw [h]
      exact hs.deliver hnext _ _
    · rw [h]
      exact (hs.wrote _).deliver hnext _ _
    · rw [h]
      exact .armed (hs.wrote _) hmatched hnext
    · rwa [h]

/-- **One step.** A step whose event is clean leaves a connection in one hand. -/
theorem Hand.step (hand : Hand s) (hclean : i.Clean) (h : servStep http s i = some s') : Hand s' := by
  cases hand with
  | called call hs hcall hnext =>
    have hstop : s.stop = none := hs.stop
    have hlive : s.live = true := hs.live
    rw [servStep_call hstop hlive hcall] at h
    exact Call.run_hand hs hnext h
  | armed hs hmatched hnext => exact hs.step hmatched hnext hclean h
  | closed live armed closes call rearm stop =>
    unfold servStep at h
    rw [stop, call, rearm, armed] at h
    cases h
  | ended stop _ =>
    have hstop : s.stop.isSome = true := by
      obtain stop | stop := stop
      · rw [stop]
        rfl
      · rw [stop]
        rfl
    unfold servStep at h
    rw [if_pos hstop] at h
    cases h

theorem Hand.no_misuse (hand : Hand s) (m : Misuse) : s.stop ≠ some (.misuse m) := by
  intro hstop
  cases hand with
  | called call hs => cases hs.stop.symm.trans hstop
  | armed hs => cases hs.stop.symm.trans hstop
  | closed _ _ _ _ _ stop => cases stop.symm.trans hstop
  | ended stop _ =>
    rw [hstop] at stop
    obtain stop | stop := stop <;> cases stop

theorem Hand.closes_le (hand : Hand s) : s.closes ≤ 1 := by
  cases hand with
  | called call hs => exact hs.closes.trans_le zero_le_one
  | armed hs => exact hs.closes.trans_le zero_le_one
  | closed _ _ closes => exact closes.le
  | ended _ closes => exact closes.trans_le zero_le_one

/-! ## Going on -/

theorem onParsed_runs : ∃ i, ServInput.Clean i ∧ (onParsed http s i).isSome := by
  unfold onParsed
  dsimp only
  split
  · exact ⟨.recv (.data []), trivial, rfl⟩
  · split
    · exact ⟨.close, trivial, rfl⟩
    · exact ⟨.headers ⟨[], by simp, by simp⟩ (.value 0), trivial, rfl⟩

theorem onRead_runs {numRead : Int} {data : List UInt8} :
    ∃ i, ServInput.Clean i ∧ (onRead http numRead data s i).isSome := by
  unfold onRead
  split
  · exact ⟨.close, trivial, rfl⟩
  · split
    · exact ⟨.close, trivial, rfl⟩
    · split
      · exact ⟨.close, trivial, rfl⟩
      · dsimp only
        split
        · exact ⟨.close, trivial, rfl⟩
        · exact onParsed_runs

theorem Call.run_runs (call : Call) : ∃ i, ServInput.Clean i ∧ (call.run http s i).isSome := by
  obtain ⟨cb, result, data⟩ := call
  cases cb with
  | onRead => exact onRead_runs
  | sendHttpResponseHelper =>
    unfold Call.run sendHttpResponseHelper
    dsimp only
    split
    · exact ⟨.close, trivial, rfl⟩
    · exact ⟨.send (.value 0), trivial, rfl⟩
  | nextRequest =>
    unfold Call.run nextRequest
    dsimp only
    split
    · exact ⟨.close, trivial, rfl⟩
    · exact ⟨.recv (.data []), trivial, rfl⟩
  | requestDone => exact ⟨.close, trivial, rfl⟩

/-- An event of the awaited kind is handled. -/
theorem Serv.Armed.runs (hs : s.Armed) (hmatched : s.request.Matched) :
    ∃ i, ServInput.Clean i ∧ (servStep http s i).isSome := by
  have hstop : ¬s.stop.isSome = true := by rw [hs.stop]; decide
  have hrearm : ¬s.rearm = true := by rw [hs.rearm]; decide
  obtain ⟨hw, -⟩ | ⟨hw, -⟩ := hmatched
  · refine ⟨.readEvent true false (.value 0) (.data []), .inl rfl, ?_⟩
    unfold servStep
    rw [if_neg hstop, hs.call]
    dsimp only
    rw [if_neg hrearm, if_pos hs.armed, hw]
    rfl
  · refine ⟨.writeEvent true false (.value 0) (.value 0), .inl rfl, ?_⟩
    unfold servStep
    rw [if_neg hstop, hs.call]
    dsimp only
    rw [if_neg hrearm, if_pos hs.armed, hw]
    rfl

/-- A connection that is open, in a program that has not ended, goes on. -/
theorem Hand.runs (hand : Hand s) (hstop : s.stop = none) (hlive : s.live = true) :
    ∃ i, ServInput.Clean i ∧ (servStep http s i).isSome := by
  cases hand with
  | called call hs hcall hnext =>
    obtain ⟨i, hclean, hrun⟩ : ∃ i, ServInput.Clean i ∧ (call.run http { s with call := none } i).isSome :=
      call.run_runs
    refine ⟨i, hclean, ?_⟩
    rwa [servStep_call hstop hlive hcall]
  | armed hs hmatched hnext => exact hs.runs hmatched
  | closed live => exact absurd (live.symm.trans hlive) Bool.false_ne_true
  | ended stop _ =>
    rw [hstop] at stop
    obtain stop | stop := stop <;> cases stop

/-! ## Every run -/

theorem onAccept_hand (garbage : ServRequest σ) (received : Received) :
    Hand (onAccept http garbage received) := by
  unfold onAccept
  refine Serv.Bare.asyncRecv ⟨rfl, rfl, rfl, rfl, rfl, rfl⟩ received fun result => ?_
  exact .ended (.inl rfl) rfl

theorem ServRun.hand {garbage : ServRequest σ} {inputs : List ServInput}
    (h : ServRun http garbage (fun _ i => i.Clean) inputs s) : Hand s := by
  induction h with
  | accept received => exact onAccept_hand garbage received
  | step _ hclean hs hand => exact hand.step hclean hs

/-- **A connection is in one hand.** In every run of a connection of `eventserv.c` whose events are
clean, either a callback runs, with the waiter not armed, or the waiter is armed, with a callback that
belongs to the operation it waits for, or the socket has been closed once and the request freed, with
no callback to come and nothing armed; or the program has ended, by `exit_error_num` or the assertion of
`on_read`, but never by a use of a freed request or of a socket that is registered already. And a
connection that is open always goes on. -/
theorem connection_in_one_hand (http : HttpParser σ) (garbage : ServRequest σ)
    {inputs : List ServInput} {s : Serv σ}
    (h : ServRun http garbage (fun _ i => i.Clean) inputs s) :
    Hand s ∧ (∀ m, s.stop ≠ some (.misuse m)) ∧ s.closes ≤ 1 ∧
      (s.stop = none → s.live = true → ∃ i, i.Clean ∧ (servStep http s i).isSome) := by
  have hand := h.hand
  exact ⟨hand, hand.no_misuse, hand.closes_le, hand.runs⟩

/-- What `malloc` may leave in a request. -/
def blank : ServRequest LineParser :=
  ⟨⟨.read, [], 0, 0⟩, .onRead, zeroed, lineParser.init, response .HTTP_GET true, .onRead⟩

/-- A request that comes late, whose response goes out late and keeps the connection alive, after which
the client closes it. -/
def lateInputs : List ServInput :=
  [.readEvent false true (.value 0) (.error EAGAIN), .readEvent false true (.value 0) (.data getA),
    .headers ⟨[], by decide, by decide⟩ (.error EAGAIN), .writeEvent false true (.value 0) (.value 512),
    .send (.value 512), .recv (.data []), .close]

theorem connection_in_one_hand_late : ∃ inputs s,
    ServRun lineParser blank (fun _ i => i.Clean) inputs s ∧ s.live = false ∧ s.closes = 1 ∧ Hand s := by
  have accept := @ServRun.accept _ lineParser blank (fun _ i => i.Clean) (.error EAGAIN)
  have hlast : (servSteps lineParser (fun _ i => i.Clean) (onAccept lineParser blank (.error EAGAIN))
      lateInputs).map (fun s => (s.live, s.closes)) = some (false, 1) := by decide +kernel
  obtain ⟨s, hs, hlast⟩ := Option.map_eq_some_iff.1 hlast
  obtain ⟨hlive, hcloses⟩ := Prod.mk.inj hlast
  have hrun := accept.steps hs
  exact ⟨_, s, hrun, hlive, hcloses, (connection_in_one_hand lineParser blank hrun).1⟩

end Lwthread.Webserver
