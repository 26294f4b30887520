import Lwthread.Platform.Syscall
import Lwthread.Webserver.Url

/-!
# The connection handler of `main.c`

`server_handler_coro` serves one connection: it reads with `read_and_parse` until the parser has
reported the end of a message, answers, and starts again. The parser is the `http_parser` library,
which is not part of the repository: `HttpParser` has the functions of it that the server calls. A run
of the handler is given what `async_recv` returns, call after call; when nothing is left the peer has
closed the connection.
-/

namespace Lwthread.Webserver

open Lwthread.Platform

/-- `EPIPE`. -/
def EPIPE : ℕ+ := 32

/-- `ECONNRESET`. -/
def ECONNRESET : ℕ+ := 104

/-! ## The parser -/

/-- The method of a request. The server knows `HTTP_GET`. -/
inductive Method where
  | HTTP_GET
  | other (code : Nat)
  deriving DecidableEq

/-- A call that the parser makes; at the end of a message with the answer of
`http_should_keep_alive`. -/
inductive Callback where
  | url (buffer : Fragment)
  | messageComplete (shouldKeepAlive : Bool)

/-- What `http_parser_execute` does with a buffer if no callback fails: the calls it makes, the number
of bytes that it parses, and the parser after it. -/
structure Execution (σ : Type) where
  state : σ
  callbacks : List Callback
  parsed : Nat

/-- `http_parser_init`, `http_parser_execute`, the field `method` of a parser, and
`http_parser_parse_url`. -/
structure HttpParser (σ : Type) where
  init : σ
  execute : σ → List UInt8 → Execution σ
  method : σ → Method
  parseUrl : List UInt8 → Int

/-- A call of the server's callback. -/
def Callback.run (request : WebRequest) : Callback → Int × WebRequest
  | .url buffer => onUrl .main request buffer
  | .messageComplete shouldKeepAlive => onDone .main shouldKeepAlive request

/-- The calls one after the other, none if one fails: the parser stops there. -/
def runCallbacks (request : WebRequest) : List Callback → Option WebRequest
  | [] => some request
  | callback :: callbacks =>
    let r := callback.run request
    if r.1 = 0 then runCallbacks r.2 callbacks else none

section

variable {σ : Type} (http : HttpParser σ)

/-- `http_parser_execute` with the server's callbacks, none if it does not parse the whole buffer. -/
def httpParserExecute (request : WebRequest) (parser : σ) (buf : List UInt8) :
    Option (WebRequest × σ) :=
  let e := http.execute parser buf
  match runCallbacks request e.callbacks with
  | none => none
  | some request => if e.parsed = buf.length then some (request, e.state) else none

/-! ## `read_and_parse` -/

/-- What `async_recv` returns: bytes, or -1 with an `errno`. -/
inductive Received where
  | data (bytes : List UInt8)
  | error (errno : ℕ+)

/-- `read_and_parse` returns, or ends the program; what is left to receive is `rest`. -/
inductive ReadResult (σ : Type) where
  | exited
  | returned (result : Int) (request : WebRequest) (parser : σ) (rest : List Received)

/-- `read_and_parse`. -/
def readAndParse (request : WebRequest) (parser : σ) : List Received → ReadResult σ
  | [] =>
    match httpParserExecute http request parser [] with
    | none => .returned (-1) request parser []
    | some (request, parser) => .returned 0 request parser []
  | .error errno :: rest =>
    if errno = EPIPE ∨ errno = ECONNRESET then .returned (-1) request parser rest else .exited
  | .data buf :: rest =>
    match httpParserExecute http request parser buf with
    | none => .returned (-1) request parser rest
    | some (request, parser) =>
      if buf.length = 0 ∨ request.done = true then .returned buf.length request parser rest
      else readAndParse request parser rest

/-! ## `server_handler_coro` -/

/-- The arguments of `send_http_response`, apart from the socket. -/
structure Response where
  status : String
  data : String
  length : Nat
  contentType : String
  keepAlive : Bool
  deriving DecidableEq

def HTML : String :=
  "<html><head><title>Server</title></head><body><h1>they see me epollin', they hatin</h1></body></html>"

/-- The response for a method; `sizeof(HTML)` counts the terminator. -/
def response (method : Method) (keepAlive : Bool) : Response :=
  if method = .HTTP_GET then ⟨"200 Seek", HTML, HTML.length + 1, "text/html", keepAlive⟩
  else ⟨"405 Method Not Allowed", "", 0, "text/plain", keepAlive⟩

/-- A response with the method and the URL that it was computed from. -/
structure Answered where
  method : Method
  url : List UInt8
  response : Response
  deriving DecidableEq

/-- How the handler ends: it closes the connection, `exit_error` or an assertion ends the program, or
it is `running` after the passes that were looked at. -/
inductive Ending where
  | closed
  | exited
  | aborted
  | running
  deriving DecidableEq

/-- The first `url_length` bytes of `url`. -/
def WebRequest.text (request : WebRequest) : List UInt8 :=
  (List.range request.urlLength).map request.url

/-- The first statements of the loop. -/
def resetRequest (request : WebRequest) : WebRequest :=
  { storeUrl .main request 0 0 with urlLength := 0, done := false, keepAlive := false }

/-- A pass of the loop, from the return of `read_and_parse` on; `loop` are the passes after it. -/
def serverAnswer (loop : WebRequest → σ → List Received → List Answered × Ending) :
    ReadResult σ → List Answered × Ending
  | .exited => ([], .exited)
  | .returned result request parser rest =>
    if result = -1 ∨ result = 0 ∧ request.done = false then ([], .closed)
    else if request.done = false then ([], .aborted)
    else if http.parseUrl request.text ≠ 0 then ([], .aborted)
    else
      let answered : Answered :=
        ⟨http.method parser, request.text, response (http.method parser) request.keepAlive⟩
      let after := loop request parser rest
      (answered :: after.1, after.2)

/-- The loop of `server_handler_coro`, for a number of passes. -/
def serverLoop : Nat → WebRequest → σ → List Received → List Answered × Ending
  | 0, _, _, _ => ([], .running)
  | passes + 1, request, parser, received =>
    if request.keepAlive = true then
      serverAnswer http (serverLoop passes) (readAndParse http (resetRequest request) parser received)
    else ([], .closed)

/-- `server_handler_coro`, with what `malloc` has left in the request. Every pass but the last receives
something. -/
def serverHandlerCoro (garbage : WebRequest) (received : List Received) : List Answered × Ending :=
  serverLoop http (received.length + 1) { garbage with keepAlive := true } http.init received

end

end Lwthread.Webserver
