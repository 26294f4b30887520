import Lwthread.Webserver.Response
import Lwthread.Webserver.Waiters

/-!
# The connections of `eventserv.c`

The callback server serves a connection in a chain of callbacks: `on_read` parses what has come and
reads on or answers, `send_http_response_helper` sends the body after the head, and `next_request` or
`request_done` follows the body. Each of them ends in a call of the library (`async_recv`,
`async_send`), which calls the next callback at once if the socket is ready and arms the waiter
otherwise; `handle_event` then calls it.

The machine takes one callback, or one event of an armed waiter, per step (`servStep`). The calls at
the end of a callback are not nested in the model: the callers look at a negative result only, and the
library has then not called the callback. The one place where something follows a callback is the
handlers of `eventlib.c`, which arm the waiter after they have reported an error (`rearm`).

`struct web_request` is freed by `request_done`; every later use of it, or of the waiter in it, stops
the machine.
-/

namespace Lwthread.Webserver

open Lwthread.Platform

/-! ## The state of a connection -/

/-- The callbacks of the waiter of a request. -/
inductive Cb where
  | onRead
  | sendHttpResponseHelper
  | nextRequest
  | requestDone
  deriving DecidableEq

/-- `struct web_request`, with the callback in its waiter. -/
structure ServRequest (σ : Type) where
  waiter : Waiter
  cb : Cb
  fields : WebRequest
  parser : σ
  response : Response
  onResponseDone : Cb

/-- Why the program stops: `exit_error` or `exit_error_num`, the assertion of `on_read`, or a use of the
waiter that should not be. -/
inductive ServStop where
  | exited
  | aborted
  | misuse (m : Misuse)
  deriving DecidableEq

/-- A call of a callback, with its result and what is in the buffer it has read into. -/
structure Call where
  cb : Cb
  result : Int
  data : List UInt8

/-- A connection: its request, until it is freed; whether its waiter is armed; the callback that is
called, and whether a handler is to arm the waiter after it; the bytes sent and the responses that
`send_http_response` was called for. -/
structure Serv (σ : Type) where
  request : ServRequest σ
  live : Bool
  armed : Bool
  closes : Nat
  call : Option Call
  rearm : Bool
  stop : Option ServStop
  sent : List UInt8
  answered : List (Answered × Timestr)

/-- What happens next: a callback whose call of the library makes a system call (`recv`, or `send` for a
head or for a body) or makes none (`close`), the return of a callback to the handler that called it, or
an event of the armed waiter, with the answers of its system calls. -/
inductive ServInput where
  | recv (received : Received)
  | headers (timestr : Timestr) (answer : Answer)
  | send (answer : Answer)
  | close
  | ret
  | readEvent (epollerr epollin : Bool) (soError : Answer) (received : Received)
  | writeEvent (epollerr epollout : Bool) (soError answer : Answer)

/-- `sizeof(request->read_buffer)`. -/
def READ_SIZE : Nat := 512

def Received.answer : Received → Answer
  | .data bytes => .value bytes.length
  | .error errno => .error errno

/-- What `recv` leaves in a buffer of `length` bytes. -/
def Received.bytes (length : Nat) : Received → List UInt8
  | .data bytes => bytes.take length
  | .error _ => []

/-! ## The library -/

namespace Serv

variable {σ : Type} (s : Serv σ)

def fail (stop : ServStop) : Serv σ := { s with stop := some stop }

/-- `arm_waiter`. -/
def arm : Serv σ :=
  if !s.live then s.fail (.misuse .usedAfterFree)
  else if s.armed then s.fail (.misuse .armedTwice)
  else { s with armed := true }

/-- The effects of a function of the library take place, with the callback `cb` on the bytes `data`. What
follows the callback waits for its return. -/
def perform (cb : Cb) (data : List UInt8) : List Effect → Serv σ → Serv σ
  | [], s => s
  | .sent bytes :: es, s => perform cb data es { s with sent := s.sent ++ bytes }
  | .callback result :: es, s => { s with call := some ⟨cb, result, data⟩, rearm := rearmed es }
  | .arm :: es, s => perform cb data es s.arm
  | .abort :: _, s => s.fail (.misuse .assertion)

/-- `async_recv` into the read buffer, with `on_read`, and what its caller does about an error. -/
def asyncRecv (received : Received) (onError : Int → Serv σ → Serv σ) : Serv σ :=
  let r := Webserver.asyncRecv received.answer READ_SIZE s.request.waiter
  let cb := if rearmed r.2.2 then .onRead else s.request.cb
  let s := { s with request := { s.request with waiter := r.2.1, cb := cb } }
  if r.1 < 0 then onError r.1 s else s.perform .onRead (received.bytes READ_SIZE) r.2.2

/-- `async_send`, and what its caller does about an error. -/
def asyncSend (buffer : List UInt8) (answer : Answer) (onWrite : Cb)
    (onError : Int → Serv σ → Serv σ) : Serv σ :=
  let r := Webserver.asyncSend answer buffer s.request.waiter
  let cb := if rearmed r.2.2 then onWrite else s.request.cb
  let s := { s with request := { s.request with waiter := r.2.1, cb := cb } }
  if r.1 < 0 then onError r.1 s else s.perform onWrite [] r.2.2

end Serv

/-! ## The callbacks of the parser -/

/-- `on_parse_url` and `on_parse_done`. -/
def Callback.parse (request : WebRequest) : Callback → Int × WebRequest
  | .url buffer => onUrl .eventserv request buffer
  | .messageComplete shouldKeepAlive => onDone .eventserv shouldKeepAlive request

/-- The calls one after the other, none if one fails. -/
def parseCallbacks (request : WebRequest) : List Callback → Option WebRequest
  | [] => some request
  | callback :: callbacks =>
    let r := callback.parse request
    if r.1 = 0 then parseCallbacks r.2 callbacks else none

section

variable {σ : Type} (http : HttpParser σ)

/-- `http_parser_execute` with these callbacks, none if it does not parse the whole buffer. -/
def parseExecute (request : WebRequest) (parser : σ) (buf : List UInt8) : Option (WebRequest × σ) :=
  let e := http.execute parser buf
  match parseCallbacks request e.callbacks with
  | none => none
  | some request => if e.parsed = buf.length then some (request, e.state) else none

/-! ## The callbacks of the waiter -/

/-- `request_done`; `close` succeeds. -/
def requestDone (result : Int) (s : Serv σ) : Serv σ :=
  if result < 0 ∧ result ≠ -(EPIPE : Nat) ∧ result ≠ -(ECONNRESET : Nat) then s.fail .exited
  else { s with live := false, closes := s.closes + 1 }

/-- `next_request`. -/
def nextRequest (result : Int) (s : Serv σ) (i : ServInput) : Option (Serv σ) :=
  if result < 0 then
    match i with
    | .close => some (s.fail .exited)
    | _ => none
  else
    match i with
    | .recv received =>
      let fields := { s.request.fields with urlLength := 0, done := false }
      let s := { s with request := { s.request with fields := fields } }
      some (s.asyncRecv received requestDone)
    | _ => none

/-- `send_http_response_helper`. -/
def sendHttpResponseHelper (result : Int) (s : Serv σ) (i : ServInput) : Option (Serv σ) :=
  if result < 0 then
    match i with
    | .close => some (s.fail .exited)
    | _ => none
  else
    match i with
    | .send answer =>
      some (s.asyncSend s.request.response.body answer s.request.onResponseDone requestDone)
    | _ => none

/-- `send_http_response`. -/
def sendHttpResponse (answered : Answered) (timestr : Timestr) (answer : Answer) (onDone : Cb)
    (s : Serv σ) : Serv σ :=
  let s := { s with
    request := { s.request with response := answered.response, onResponseDone := onDone }
    answered := s.answered ++ [(answered, timestr)] }
  s.asyncSend (sendf .eventserv (headersText answered.response timestr)) answer
    .sendHttpResponseHelper requestDone

/-- `on_read`, after the parser has run. -/
def onParsed (s : Serv σ) (i : ServInput) : Option (Serv σ) :=
  let fields := s.request.fields
  if fields.done = false then
    match i with
    | .recv received => some (s.asyncRecv received requestDone)
    | _ => none
  else if http.parseUrl fields.text ≠ 0 then
    match i with
    | .close => some (s.fail .aborted)
    | _ => none
  else
    match i with
    | .headers timestr answer =>
      let method := http.method s.request.parser
      let onDone := if fields.keepAlive then .nextRequest else .requestDone
      some (sendHttpResponse ⟨method, fields.text, response method fields.keepAlive⟩ timestr answer
        onDone s)
    | _ => none

/-- `on_read`. -/
def onRead (numRead : Int) (data : List UInt8) (s : Serv σ) (i : ServInput) : Option (Serv σ) :=
  if numRead = -(EPIPE : Nat) ∨ numRead = -(ECONNRESET : Nat) then
    match i with
    | .close => some (requestDone 0 s)
    | _ => none
  else if numRead < 0 then
    match i with
    | .close => some (s.fail .exited)
    | _ => none
  else
    match parseExecute http s.request.fields s.request.parser (data.take numRead.toNat) with
    | none =>
      match i with
      | .close => some (requestDone 0 s)
      | _ => none
    | some (fields, parser) =>
      let s := { s with request := { s.request with fields := fields, parser := parser } }
      if numRead = 0 ∧ fields.done = false then
        match i with
        | .close => some (requestDone 0 s)
        | _ => none
      else onParsed http s i

/-! ## One step -/

/-- A callback is called. -/
def Call.run (call : Call) (s : Serv σ) (i : ServInput) : Option (Serv σ) :=
  match call.cb with
  | .onRead => onRead http call.result call.data s i
  | .sendHttpResponseHelper => sendHttpResponseHelper call.result s i
  | .nextRequest => nextRequest call.result s i
  | .requestDone =>
    match i with
    | .close => some (requestDone call.result s)
    | _ => none

/-- `handle_event` for an armed waiter. -/
def Serv.handleEvent (s : Serv σ) (event : Event) (data : List UInt8) : Serv σ :=
  let r := Webserver.handleEvent event s.request.waiter
  let s := { s with armed := false, request := { s.request with waiter := r.1 } }
  s.perform s.request.cb data r.2

/-- One step of a connection. -/
def servStep (s : Serv σ) (i : ServInput) : Option (Serv σ) :=
  if s.stop.isSome then none
  else
    match s.call with
    | some call =>
      if !s.live then some (s.fail (.misuse .usedAfterFree)) else call.run http { s with call := none } i
    | none =>
      if s.rearm then
        match i with
        | .ret => some { s with rearm := false }.arm
        | _ => none
      else if s.armed then
        match i, s.request.waiter.waitType with
        | .readEvent epollerr epollin soError received, .read =>
          some (s.handleEvent ⟨epollerr, epollin, false, soError, received.answer⟩
            (received.bytes s.request.waiter.length))
        | .writeEvent epollerr epollout soError answer, .write =>
          some (s.handleEvent ⟨epollerr, false, epollout, soError, answer⟩ [])
        | _, _ => none
      else none

/-- `on_accept`, from its `malloc` on, with what that has left in the request. -/
def onAccept (garbage : ServRequest σ) (received : Received) : Serv σ :=
  let fields := { garbage.fields with urlLength := 0, done := false }
  let request := { garbage with fields := fields, parser := http.init }
  (⟨request, true, false, 0, none, false, none, [], []⟩ : Serv σ).asyncRecv received fun _ s =>
    s.fail .exited

/-- The runs of a connection in which every step meets `ok`, with their inputs; the first is what the
`recv` of `on_accept` returns. -/
inductive ServRun (garbage : ServRequest σ) (ok : Serv σ → ServInput → Prop) :
    List ServInput → Serv σ → Prop
  | accept (received : Received) : ServRun garbage ok [.recv received] (onAccept http garbage received)
  | step {is s i s'} (h : ServRun garbage ok is s) (hok : ok s i)
      (hs : servStep http s i = some s') : ServRun garbage ok (is ++ [i]) s'

/-- The steps of some inputs, if each of them meets `ok`. -/
def servSteps (ok : Serv σ → ServInput → Prop) [∀ s i, Decidable (ok s i)] :
    Serv σ → List ServInput → Option (Serv σ)
  | s, [] => some s
  | s, i :: is => if ok s i then (servStep http s i).bind (servSteps ok · is) else none

variable {http} in
theorem ServRun.steps {garbage : ServRequest σ} {ok : Serv σ → ServInput → Prop}
    [∀ s i, Decidable (ok s i)] {before after : List ServInput} {s s' : Serv σ}
    (h : ServRun http garbage ok before s) (hs : servSteps http ok s after = some s') :
    ServRun http garbage ok (before ++ after) s' := by
  induction after generalizing before s with
  | nil =>
    obtain rfl := Option.some.inj hs
    rwa [List.append_nil]
  | cons i is ih =>
    unfold servSteps at hs
    split at hs
    · rename_i hok
      obtain ⟨next, hstep, hrest⟩ := Option.bind_eq_some_iff.1 hs
      have hrun := ih (h.step hok hstep) hrest
      rwa [List.append_assoc] at hrun
    · cases hs

end

end Lwthread.Webserver
