import Lwthread.Webserver.EventServRuns

/-!
# The two servers agree

`main.c` serves a connection in a loop of one coroutine and `eventserv.c` in a chain of callbacks. They
are to be the same server, and they are as long as the socket is kind: when `send` takes the whole of
what it is given or nothing, no operation fails after its event, and no URL fills its array, the callback
server closes the connection, exits or fails its assertion exactly where `server_handler_coro` does, for
the same responses, whatever comes in and in whatever way it is put off (`servers_agree`). The responses
arrive whole and in order: from the bytes sent a client reads back those responses.

The two have buffers of different sizes, and look at the end of a message only after a buffer: a chunk of
two messages that fills more than the smaller buffer gets one response from `eventserv.c` and may get two
from `main.c`. So every chunk is to fit the smaller one (`ChunksFit`).

The proof takes the two along together. What the callback server has received so far takes the loop to
a point of `read_and_parse` or of the loop's head (`Reached`), and what the two requests hold there is
the same (`Twin`).
-/

namespace Lwthread.Webserver

open Lwthread.Platform

/-! ## The conditions -/

/-- The error that `SO_ERROR` has for a socket. -/
def socketError : Answer → Option ℕ+
  | .value (error + 1) => some error.succPNat
  | _ => none

/-- `send` takes the whole of any buffer of the server, or has to be tried again. -/
def Answer.Takes : Answer → Prop
  | .value n => 512 ≤ n
  | .error errno => ¬(Answer.error errno).Hard

instance : DecidablePred Answer.Takes
  | .value _ => inferInstanceAs (Decidable (_ ≤ _))
  | .error _ => inferInstanceAs (Decidable (¬_))

/-- A kind input: an operation that is tried at once is done in whole or has to wait, or is a `recv`
that fails; an event of an error comes with the error and for a `recv`, and without one the operation
does not fail. -/
def ServInput.Kind : ServInput → Prop
  | .headers _ answer => Answer.Takes answer
  | .send answer => Answer.Takes answer
  | .readEvent true _ soError _ => (socketError soError).isSome = true
  | .readEvent false epollin _ received => epollin = true ∧ ¬received.answer.Hard
  | .writeEvent epollerr epollout _ answer => epollerr = false ∧ epollout = true ∧ ¬answer.Hard
  | _ => True

instance : DecidablePred ServInput.Kind
  | .headers _ answer => inferInstanceAs (Decidable (Answer.Takes answer))
  | .send answer => inferInstanceAs (Decidable (Answer.Takes answer))
  | .readEvent true _ _ _ => inferInstanceAs (Decidable (_ = _))
  | .readEvent false _ _ _ => inferInstanceAs (Decidable (_ ∧ ¬_))
  | .writeEvent .. => inferInstanceAs (Decidable (_ ∧ _ ∧ ¬_))
  | .recv _ => .isTrue trivial
  | .close => .isTrue trivial
  | .ret => .isTrue trivial

/-- What an input lets the server receive. -/
def ServInput.received : ServInput → List Received
  | .recv (.data bytes) => [.data (bytes.take READ_SIZE)]
  | .recv (.error errno) => if (Answer.error errno).Hard then [.error errno] else []
  | .readEvent true _ soError _ => (socketError soError).toList.map .error
  | .readEvent false _ _ (.data bytes) => [.data (bytes.take READ_SIZE)]
  | _ => []

/-- What the calls for a chunk may do to a URL of `n` bytes: no sum of lengths leaves `size_t`, and no
message ends with a URL that fills its array. -/
def Roomy (n : Nat) : List Callback → Prop
  | [] => True
  | .url f :: callbacks =>
    n + f.length < 2 ^ 64 ∧ (n + f.length ≤ URL_SIZE → Roomy (n + f.length) callbacks)
  | .messageComplete _ :: callbacks => n < URL_SIZE ∧ Roomy n callbacks

instance decidableRoomy : (n : Nat) → (callbacks : List Callback) → Decidable (Roomy n callbacks)
  | _, [] => .isTrue trivial
  | n, .url f :: callbacks =>
    have := decidableRoomy (n + f.length) callbacks
    inferInstanceAs (Decidable (_ ∧ (_ → _)))
  | n, .messageComplete _ :: callbacks =>
    have := decidableRoomy n callbacks
    inferInstanceAs (Decidable (_ ∧ _))

/-- The call of `on_read`, if there is one, is roomy. -/
def Serv.Roomy {σ : Type} (http : HttpParser σ) (s : Serv σ) : Prop :=
  ∀ call ∈ s.call, call.cb = .onRead → 0 ≤ call.result →
    Webserver.Roomy s.request.fields.urlLength
      (http.execute s.request.parser (call.data.take call.result.toNat)).callbacks

instance {σ : Type} (http : HttpParser σ) (s : Serv σ) : Decidable (s.Roomy http) :=
  inferInstanceAs (Decidable (∀ call ∈ s.call, _ → _ → _))

variable {σ : Type} {http : HttpParser σ} {q f : WebRequest} {callbacks : List Callback}

/-! ## The requests -/

/-- The requests of `main.c` and of `eventserv.c` hold the same URL, and the same answer about the
connection if the message has ended. -/
structure Twin (q f : WebRequest) : Prop where
  url : ∃ acc, Carries q acc ∧ Carries f acc
  done : q.done = f.done
  keepAlive : f.done = true → q.keepAlive = f.keepAlive

theorem Twin.text (h : Twin q f) : q.text = f.text := by
  obtain ⟨acc, hq, hf⟩ := h.url
  rw [hq.text, hf.text]

theorem Carries.complete {request : WebRequest} {acc : List UInt8} (server : Server)
    (shouldKeepAlive : Bool) (h : Carries request acc) (hroom : acc.length < URL_SIZE) :
    Carries (onDone server shouldKeepAlive request).2 acc := by
  have hstore : storeUrl server request request.urlLength 0 =
      { request with
        url := Function.update request.url request.urlLength 0
        writes := request.urlLength :: request.writes } :=
    storeUrl_inside (h.length.trans_lt hroom)
  unfold onDone
  rw [hstore]
  refine ⟨h.length, h.room, (List.map_congr_left fun k hk => ?_).trans h.bytes⟩
  rw [h.length]
  exact Function.update_of_ne (List.mem_range.1 hk).ne _ _

theorem resetRequest_twin {url : Nat → UInt8} {keepAlive : Bool} {writes : List Nat} :
    Twin (resetRequest q) ⟨url, 0, false, keepAlive, writes⟩ where
  url := ⟨[], resetRequest_carries, rfl, Nat.zero_le _, rfl⟩
  done := rfl
  keepAlive := by rintro ⟨⟩

/-- The callbacks of the two servers do the same. -/
theorem Twin.run (h : Twin q f) (hroom : Roomy f.urlLength callbacks) :
    runCallbacks q callbacks = none ∧ parseCallbacks f callbacks = none ∨
    ∃ q' f', runCallbacks q callbacks = some q' ∧ parseCallbacks f callbacks = some f' ∧ Twin q' f' := by
  induction callbacks generalizing q f with
  | nil => exact .inr ⟨q, f, rfl, rfl, h⟩
  | cons callback callbacks ih =>
    obtain ⟨⟨acc, hq, hf⟩, hdone, hkeep⟩ := h
    cases callback with
    | url fragment =>
      obtain ⟨hsum, hrest⟩ := hroom
      rw [hf.length] at hsum hrest
      by_cases hfit : acc.length + fragment.length ≤ URL_SIZE
      · obtain ⟨hq0, hq'⟩ := hq.accept .main hfit
        obtain ⟨hf0, hf'⟩ := hf.accept .eventserv hfit
        have htwin : Twin (onUrl .main q fragment).2 (onUrl .eventserv f fragment).2 := by
          refine ⟨⟨_, hq', hf'⟩, ?_, ?_⟩
          · rw [onUrl_flags.1, onUrl_flags.1, hdone]
          · rw [onUrl_flags.1, onUrl_flags.2, onUrl_flags.2]
            exact hkeep
        have hlen : (onUrl .eventserv f fragment).2.urlLength = acc.length + fragment.length := by
          rw [hf'.length, List.length_append]
          rfl
        unfold runCallbacks parseCallbacks
        dsimp only [Callback.run, Callback.parse]
        rw [if_pos hq0, if_pos hf0]
        exact ih htwin (by rw [hlen]; exact hrest hfit)
      · refine .inl ⟨?_, ?_⟩
        · unfold runCallbacks
          dsimp only [Callback.run]
          rw [hq.reject .main hsum (Nat.lt_of_not_le hfit)]
          rfl
        · unfold parseCallbacks
          dsimp only [Callback.parse]
          rw [hf.reject .eventserv hsum (Nat.lt_of_not_le hfit)]
          rfl
    | messageComplete shouldKeepAlive =>
      obtain ⟨hfree, hrest⟩ := hroom
      rw [hf.length] at hfree
      have hf' := hf.complete .eventserv shouldKeepAlive hfree
      have htwin : Twin (onDone .main shouldKeepAlive q).2 (onDone .eventserv shouldKeepAlive f).2 :=
        ⟨⟨acc, hq.complete .main shouldKeepAlive hfree, hf'⟩, rfl, fun _ => rfl⟩
      have hrest' : Roomy (onDone .eventserv shouldKeepAlive f).2.urlLength callbacks := by
        rwa [hf'.length, ← hf.length]
      exact ih htwin hrest'

/-- `http_parser_execute` does the same in the two servers. -/
theorem Twin.execute (h : Twin q f) {parser : σ} {buf : List UInt8}
    (hroom : Roomy f.urlLength (http.execute parser buf).callbacks) :
    httpParserExecute http q parser buf = none ∧ parseExecute http f parser buf = none ∨
    ∃ q' f' parser', httpParserExecute http q parser buf = some (q', parser') ∧
      parseExecute http f parser buf = some (f', parser') ∧ Twin q' f' := by
  unfold httpParserExecute parseExecute
  dsimp only
  obtain ⟨hq, hf⟩ | ⟨q', f', hq, hf, htwin⟩ := h.run hroom
  · rw [hq, hf]
    exact .inl ⟨rfl, rfl⟩
  · rw [hq, hf]
    dsimp only
    split
    · exact .inr ⟨q', f', _, rfl, rfl, htwin⟩
    · exact .inl ⟨rfl, rfl⟩

/-! ## Where the loop is -/

section

variable (http)

/-- What the loop of `main.c` does in `read_and_parse` and after it, with the passes that are left and
what is to be received. -/
def mainReads (q : WebRequest) (parser : σ) (n : Nat) (rest : List Received) :
    List Answered × Ending :=
  serverAnswer http (serverLoop http n) (readAndParse http q parser rest)

/-- With `log` received, the loop of `main.c` has sent the responses `answered` and goes on as `next`. -/
def Reached (garbage : WebRequest) (log : List Received) (answered : List Answered)
    (next : Nat → List Received → List Answered × Ending) : Prop :=
  ∀ n rest, serverLoop http (answered.length + 1 + n) { garbage with keepAlive := true } http.init
    (log ++ rest) = (answered ++ (next n rest).1, (next n rest).2)

end

section

variable {parser parser' : σ} {n : Nat} {buf : List UInt8} {q' : WebRequest} {rest log : List Received}
  {garbage : WebRequest} {answered : List Answered} {errno : ℕ+}
  {next next' : Nat → List Received → List Answered × Ending}

theorem mainReads_closed (h : errno = EPIPE ∨ errno = ECONNRESET) :
    mainReads http q parser n (.error errno :: rest) = ([], .closed) := by
  unfold mainReads readAndParse
  rw [if_pos h]
  rfl

theorem mainReads_exited (h : ¬(errno = EPIPE ∨ errno = ECONNRESET)) :
    mainReads http q parser n (.error errno :: rest) = ([], .exited) := by
  unfold mainReads readAndParse
  rw [if_neg h]
  rfl

theorem mainReads_bad (h : httpParserExecute http q parser buf = none) :
    mainReads http q parser n (.data buf :: rest) = ([], .closed) := by
  unfold mainReads readAndParse
  rw [h]
  rfl

theorem mainReads_more (h : httpParserExecute http q parser buf = some (q', parser'))
    (hbuf : buf.length ≠ 0) (hdone : q'.done = false) :
    mainReads http q parser n (.data buf :: rest) = mainReads http q' parser' n rest := by
  unfold mainReads
  rw [readAndParse, h]
  dsimp only
  rw [if_neg (by rw [hdone]; exact not_or.2 ⟨hbuf, Bool.false_ne_true⟩)]

theorem mainReads_eof (h : httpParserExecute http q parser buf = some (q', parser'))
    (hbuf : buf.length = 0) (hdone : q'.done = false) :
    mainReads http q parser n (.data buf :: rest) = ([], .closed) := by
  unfold mainReads readAndParse
  rw [h]
  dsimp only
  rw [if_pos (.inl hbuf), serverAnswer, if_pos (.inr ⟨by rw [hbuf]; rfl, hdone⟩)]

/-- A message has ended: the loop looks at its URL and answers. -/
theorem mainReads_done (h : httpParserExecute http q parser buf = some (q', parser'))
    (hdone : q'.done = true) :
    mainReads http q parser n (.data buf :: rest) =
      if http.parseUrl q'.text ≠ 0 then ([], .aborted)
      else
        (⟨http.method parser', q'.text, response (http.method parser') q'.keepAlive⟩ ::
          (serverLoop http n q' parser' rest).1, (serverLoop http n q' parser' rest).2) := by
  unfold mainReads readAndParse
  rw [h]
  dsimp only
  rw [if_pos (.inr hdone), serverAnswer, if_neg, if_neg]
  · rw [hdone]
    decide
  · rw [hdone]
    rintro (h | ⟨-, h⟩)
    · omega
    · cases h

theorem Reached.start (garbage : WebRequest) : Reached http garbage [] []
    (mainReads http (resetRequest { garbage with keepAlive := true }) http.init) := by
  intro n rest
  rw [List.length_nil, Nat.zero_add, Nat.add_comm, serverLoop, if_pos rfl]
  rfl

theorem Reached.receive (h : Reached http garbage log answered next) (r : Received) :
    Reached http garbage (log ++ [r]) answered fun n rest => next n (r :: rest) := by
  intro n rest
  rw [List.append_assoc]
  exact h n (r :: rest)

theorem Reached.goes (h : Reached http garbage log answered next)
    (heq : ∀ n rest, next n rest = next' n rest) : Reached http garbage log answered next' := by
  intro n rest
  rw [← heq]
  exact h n rest

/-- The loop answers, and is at its head again. -/
theorem Reached.answer (h : Reached http garbage log answered next) {a : Answered}
    (heq : ∀ n rest, next n rest =
      (a :: (serverLoop http n q parser rest).1, (serverLoop http n q parser rest).2)) :
    Reached http garbage log (answered ++ [a]) fun n rest => serverLoop http (n + 1) q parser rest := by
  intro n rest
  have hpasses : (answered ++ [a]).length + 1 + n = answered.length + 1 + (n + 1) := by
    rw [List.length_append, List.length_singleton]
    omega
  rw [hpasses, h, heq, List.append_assoc]
  rfl

/-- The loop has ended. -/
theorem Reached.ended {ending : Ending} (h : Reached http garbage log answered fun _ _ => ([], ending))
    (hcount : answered.length ≤ log.length) :
    serverHandlerCoro http garbage log = (answered, ending) := by
  have hpasses : answered.length + 1 + (log.length - answered.length) = log.length + 1 := by omega
  have hall := h (log.length - answered.length) []
  rwa [hpasses, List.append_nil, List.append_nil] at hall

end

/-! ## Sending -/

section

variable {s s' : Serv σ} {base text : List UInt8} {cb : Cb} {i : ServInput}

/-- The text is on its way, after `base`: the poller has the rest of it, or the callback is called after
its last byte. -/
inductive Sending (base text : List UInt8) (cb : Cb) (s : Serv σ) : Prop
  | armed (hs : s.Armed) (hcb : s.request.cb = cb) (type : s.request.waiter.waitType = .write)
      (buffer : s.request.waiter.buffer = text) (length : s.request.waiter.length = text.length)
      (written : s.request.waiter.numWritten ≤ text.length)
      (sent : s.sent = base ++ text.take s.request.waiter.numWritten)
  | called (result : Int) (data : List UInt8) (hs : { s with call := none }.Bare)
      (hcall : s.call = some ⟨cb, result, data⟩) (hresult : 0 ≤ result) (sent : s.sent = base ++ text)

/-- What a step of sending leaves as it is. -/
structure SameRequest (s s' : Serv σ) : Prop where
  fields : s'.request.fields = s.request.fields
  parser : s'.request.parser = s.request.parser
  response : s'.request.response = s.request.response
  onResponseDone : s'.request.onResponseDone = s.request.onResponseDone
  answered : s'.answered = s.answered

theorem asyncSend_sending (hs : s.Bare) (hsent : s.sent = base) (hsize : text.length ≤ 512)
    {answer : Answer} (htakes : Answer.Takes answer) (cb : Cb) (onError : Int → Serv σ → Serv σ) :
    Sending base text cb (s.asyncSend text answer cb onError) ∧
      SameRequest s (s.asyncSend text answer cb onError) := by
  obtain ⟨n, rfl, h⟩ | ⟨errno, rfl, hhard, -⟩ | ⟨errno, rfl, -, h⟩ :=
    Serv.asyncSend_cases hs text answer cb onError
  · have hmin : min n text.length = text.length := min_eq_right (hsize.trans htakes)
    rw [h, hmin, List.take_length, hsent]
    refine ⟨.called text.length [] ?_ rfl (Int.natCast_nonneg _) rfl, rfl, rfl, rfl, rfl, rfl⟩
    exact ⟨hs.live, hs.armed, hs.closes, rfl, hs.rearm, hs.stop⟩
  · exact absurd hhard htakes
  · rw [h]
    refine ⟨.armed ?_ rfl rfl rfl rfl (Nat.zero_le _) ?_, rfl, rfl, rfl, rfl, rfl⟩
    · exact ⟨hs.live, rfl, hs.closes, hs.call, hs.rearm, hs.stop⟩
    · exact hsent.trans (List.append_nil _).symm

/-- The bytes that `send` takes of the rest of a text follow those it has taken. -/
theorem take_rest (k n : Nat) : text.take k ++ (text.drop k).take n = text.take (k + n) :=
  (List.take_add ..).symm

theorem Sending.write (hs : s.Armed) (hcb : s.request.cb = cb)
    (type : s.request.waiter.waitType = .write) (buffer : s.request.waiter.buffer = text)
    (length : s.request.waiter.length = text.length)
    (written : s.request.waiter.numWritten ≤ text.length)
    (sent : s.sent = base ++ text.take s.request.waiter.numWritten) (hkind : i.Kind)
    (h : servStep http s i = some s') : Sending base text cb s' ∧ SameRequest s s' := by
  obtain ⟨_, _, _, _, rfl, hread, -⟩ | ⟨epollerr, epollout, soError, answer, rfl, -, rfl⟩ :=
    servStep_armed hs h
  · rw [type] at hread
    cases hread
  · obtain ⟨rfl, hout, hsoft⟩ := hkind
    have hsent (k : Nat) : (s.wrote k).sent =
        base ++ text.take (s.request.waiter.numWritten + k) := by
      unfold Serv.wrote
      dsimp only
      rw [sent, buffer, List.append_assoc, take_rest]
    have hclean : (Event.mk false false epollout soError answer).Clean .write := .inr ⟨hout, hsoft⟩
    obtain ⟨h, -⟩ | ⟨-, n, -, hlast, h⟩ | ⟨-, n, -, -, h⟩ | ⟨-, _, -, -, h⟩ :=
      Serv.handleEvent_write hs type hclean
    · cases h
    · rw [h]
      let k := min n (s.request.waiter.length - s.request.waiter.numWritten)
      refine ⟨.called k [] ?_ ?_ (Int.natCast_nonneg k) ?_, rfl, rfl, rfl, rfl, rfl⟩
      · exact ⟨hs.live, rfl, hs.closes, rfl, hs.rearm, hs.stop⟩
      · exact congrArg (fun cb => some (⟨cb, k, []⟩ : Call)) hcb
      · refine (hsent _).trans ?_
        rw [hlast, length, List.take_length]
    · rw [h]
      refine ⟨.armed (hs.wrote _) hcb type buffer length ?_ (hsent _), rfl, rfl, rfl, rfl, rfl⟩
      have hmin : min n (s.request.waiter.length - s.request.waiter.numWritten) ≤
          s.request.waiter.length - s.request.waiter.numWritten := min_le_right _ _
      unfold Serv.wrote
      dsimp only
      omega
    · rw [h]
      exact ⟨.armed hs hcb type buffer length written sent, rfl, rfl, rfl, rfl, rfl⟩

end

/-! ## The two together -/

/-- The bytes of some responses. -/
def bytesOf (answered : List (Answered × Timestr)) : List UInt8 :=
  answered.flatMap fun r => r.1.response.bytes r.2

/-- What `on_read` is called with is what `recv` returned. -/
def Received.Gives (result : Int) (data : List UInt8) : Received → Prop
  | .data bytes => result = bytes.length ∧ data.take result.toNat = bytes
  | .error errno => result = -(errno : Nat)

/-- How a connection has ended. -/
def Serv.ending (s : Serv σ) : Option Ending :=
  match s.stop with
  | some .exited => some .exited
  | some .aborted => some .aborted
  | some (.misuse _) => none
  | none => if s.live then none else some .closed

section

variable (http) (garbage : WebRequest) (log : List Received)

/-- The two servers have read the same of a request, and `main.c` goes on to receive `more`. -/
structure MidRequest (q : WebRequest) (more : List Received) (s : Serv σ) : Prop where
  twin : Twin q s.request.fields
  done : s.request.fields.done = false
  count : s.answered.length + more.length ≤ log.length
  reached : Reached http garbage log (s.answered.map Prod.fst) fun n rest =>
    mainReads http q s.request.parser n (more ++ rest)
  sent : s.sent = bytesOf s.answered

/-- The callback server sends the last of its responses, and `main.c` is at the head of its loop. -/
structure Answering (q : WebRequest) (before : List (Answered × Timestr)) (last : Answered × Timestr)
    (s : Serv σ) : Prop where
  answered : s.answered = before ++ [last]
  response : s.request.response = last.1.response
  known : ∃ method keepAlive, last.1.response = Webserver.response method keepAlive
  onResponseDone : s.request.onResponseDone = if q.keepAlive then .nextRequest else .requestDone
  count : s.answered.length ≤ log.length
  reached : Reached http garbage log (s.answered.map Prod.fst) fun n rest =>
    serverLoop http (n + 1) q s.request.parser rest

/-- Where the two servers are when they have received the same. -/
inductive Paired (s : Serv σ) : Prop
  | reading (q : WebRequest) (hs : s.Armed) (type : s.request.waiter.waitType = .read)
      (length : s.request.waiter.length = READ_SIZE) (cb : s.request.cb = .onRead)
      (h : MidRequest http garbage log q [] s)
  | read (q : WebRequest) (r : Received) (result : Int) (data : List UInt8)
      (hs : { s with call := none }.Bare) (hcall : s.call = some ⟨.onRead, result, data⟩)
      (hgives : r.Gives result data) (h : MidRequest http garbage log q [r] s)
  | head (q : WebRequest) (before : List (Answered × Timestr)) (last : Answered × Timestr)
      (h : Answering http garbage log q before last s)
      (hsend : Sending (bytesOf before) (headersText last.1.response last.2) .sendHttpResponseHelper s)
  | body (q : WebRequest) (before : List (Answered × Timestr)) (last : Answered × Timestr)
      (h : Answering http garbage log q before last s)
      (hsend : Sending (bytesOf before ++ headersText last.1.response last.2) last.1.response.body
        s.request.onResponseDone s)
  | ended (ending : Ending) (hend : s.ending = some ending) (count : s.answered.length ≤ log.length)
      (reached : Reached http garbage log (s.answered.map Prod.fst) fun _ _ => ([], ending))
      (sent : s.sent = bytesOf s.answered)

end

section

variable {garbage : WebRequest} {log : List Received} {s s' : Serv σ} {i : ServInput} {errno : ℕ+}

theorem neg_errno_inj {e : ℕ+} : -((errno : Nat) : Int) = -((e : Nat) : Int) ↔ errno = e := by
  rw [neg_inj, Nat.cast_inj, PNat.coe_inj]

theorem requestDone_exits (h : ¬(errno = EPIPE ∨ errno = ECONNRESET)) :
    requestDone (-((errno : Nat) : Int)) s = s.fail .exited := by
  obtain ⟨hpipe, hreset⟩ := not_or.1 h
  exact if_pos ⟨Serv.neg_errno errno, mt neg_errno_inj.1 hpipe, mt neg_errno_inj.1 hreset⟩

theorem requestDone_closes (h : errno = EPIPE ∨ errno = ECONNRESET) :
    requestDone (-((errno : Nat) : Int)) s = { s with live := false, closes := s.closes + 1 } := by
  refine if_neg ?_
  rintro ⟨-, hpipe, hreset⟩
  obtain rfl | rfl := h
  · exact hpipe rfl
  · exact hreset rfl

theorem ending_closed (hs : s.Bare) :
    Serv.ending { s with live := false, closes := s.closes + 1 } = some .closed := by
  unfold Serv.ending
  dsimp only
  rw [hs.stop]
  rfl

theorem socketErrno_eq {soError : Answer} (h : socketError soError = some errno) :
    socketErrno soError = -((errno : Nat) : Int) := by
  cases soError with
  | error _ => cases h
  | value n =>
    cases n with
    | zero => cases h
    | succ n =>
      obtain rfl := Option.some.inj h
      rfl

theorem gives_take (bytes : List UInt8) : (Received.data (bytes.take READ_SIZE)).Gives
    (min bytes.length READ_SIZE : Nat) (bytes.take READ_SIZE) := by
  refine ⟨?_, ?_⟩
  · rw [List.length_take, Nat.min_comm]
  · rw [Int.toNat_natCast, List.take_take, Nat.min_assoc, Nat.min_self, Nat.min_comm,
      ← List.take_take, List.take_length]

/-- Both servers are to receive: they receive the same, or `eventserv.c` waits. -/
theorem MidRequest.recv (hs : s.Bare) (h : MidRequest http garbage log q [] s) (received : Received)
    {onError : Int → Serv σ → Serv σ} (herror : ∀ errno, received = .error errno →
      onError (-((errno : Nat) : Int)) s = requestDone (-((errno : Nat) : Int)) s) :
    Paired http garbage (log ++ (ServInput.recv received).received) (s.asyncRecv received onError) := by
  have hcount : s.answered.length ≤ log.length := h.count
  obtain ⟨bytes, rfl, hrun⟩ | ⟨errno, rfl, hhard, hrun⟩ | ⟨errno, rfl, hsoft, hrun⟩ :=
    Serv.asyncRecv_cases hs received onError
  · rw [hrun]
    refine .read q (.data (bytes.take READ_SIZE)) _ _
      ⟨hs.live, hs.armed, hs.closes, rfl, hs.rearm, hs.stop⟩ rfl (gives_take bytes)
      ⟨h.twin, h.done, ?_, h.reached.receive _, h.sent⟩
    rw [List.length_append]
    exact Nat.add_le_add_right hcount 1
  · have hlog : (ServInput.recv (.error errno)).received = [.error errno] := if_pos hhard
    have hreached := h.reached.receive (.error errno)
    have hcount' : s.answered.length ≤ (log ++ [Received.error errno]).length := by
      rw [List.length_append]
      exact Nat.le_add_right_of_le hcount
    rw [hrun, herror errno rfl, hlog]
    by_cases hgone : errno = EPIPE ∨ errno = ECONNRESET
    · rw [requestDone_closes hgone]
      exact .ended .closed (ending_closed hs) hcount'
        (hreached.goes fun _ _ => mainReads_closed hgone) h.sent
    · rw [requestDone_exits hgone]
      exact .ended .exited rfl hcount' (hreached.goes fun _ _ => mainReads_exited hgone) h.sent
  · have hlog : (ServInput.recv (.error errno)).received = [] := if_neg hsoft
    rw [hrun, hlog, List.append_nil]
    exact .reading q ⟨hs.live, rfl, hs.closes, hs.call, hs.rearm, hs.stop⟩ rfl rfl rfl
      ⟨h.twin, h.done, h.count, h.reached, h.sent⟩

theorem bytesOf_append (before : List (Answered × Timestr)) (last : Answered × Timestr) :
    bytesOf (before ++ [last]) =
      bytesOf before ++ headersText last.1.response last.2 ++ last.1.response.body := by
  unfold bytesOf
  rw [List.flatMap_append, List.flatMap_singleton, Response.bytes, List.append_assoc]

/-- `eventserv.c` answers a request whose URL is good. -/
theorem Paired.answer (hs : s.Bare) (twin : Twin q s.request.fields)
    (hdone : s.request.fields.done = true) (hcount : s.answered.length < log.length)
    (hsent : s.sent = bytesOf s.answered)
    (hreached : Reached http garbage log (s.answered.map Prod.fst) fun n rest =>
      (⟨http.method s.request.parser, q.text, response (http.method s.request.parser) q.keepAlive⟩ ::
        (serverLoop http n q s.request.parser rest).1, (serverLoop http n q s.request.parser rest).2))
    (timestr : Timestr) {answer : Answer} (htakes : Answer.Takes answer) :
    Paired http garbage log (sendHttpResponse
      ⟨http.method s.request.parser, s.request.fields.text,
        response (http.method s.request.parser) s.request.fields.keepAlive⟩
      timestr answer (if s.request.fields.keepAlive then .nextRequest else .requestDone) s) := by
  let a : Answered := ⟨http.method s.request.parser, s.request.fields.text,
    response (http.method s.request.parser) s.request.fields.keepAlive⟩
  let onDone : Cb := if s.request.fields.keepAlive then .nextRequest else .requestDone
  let s₁ : Serv σ := { s with
    request := { s.request with response := a.response, onResponseDone := onDone }
    answered := s.answered ++ [(a, timestr)] }
  have hs₁ : s₁.Bare := hs.setRequest _
  have hhead : sendf .eventserv (headersText a.response timestr) = headersText a.response timestr :=
    sendf_headers _ _ _ timestr
  have hsize : (headersText a.response timestr).length ≤ 512 :=
    (headersText_fits _ _ timestr).le.trans (by decide)
  have hkeep := twin.keepAlive hdone
  have hnext := hreached.answer fun _ _ => rfl
  rw [twin.text, hkeep] at hnext
  obtain ⟨hsend, hsame⟩ := asyncSend_sending hs₁ hsent hsize htakes .sendHttpResponseHelper requestDone
  have heq : sendHttpResponse a timestr answer onDone s =
      s₁.asyncSend (headersText a.response timestr) answer .sendHttpResponseHelper requestDone := by
    unfold sendHttpResponse
    rw [hhead]
  rw [heq]
  refine .head q s.answered (a, timestr)
    ⟨hsame.answered, hsame.response, ⟨_, _, rfl⟩, ?_, ?_, ?_⟩ hsend
  · rw [hkeep]
    exact hsame.onResponseDone
  · rw [hsame.answered, List.length_append]
    exact hcount
  · rw [hsame.answered, hsame.parser, List.map_append]
    exact hnext

theorem requestDone_zero : requestDone 0 s = { s with live := false, closes := s.closes + 1 } :=
  if_neg fun h => absurd h.1 (lt_irrefl 0)

/-- Both servers end the connection, or the program. -/
theorem MidRequest.ends {r : Received} {ending : Ending} (h : MidRequest http garbage log q [r] s)
    (hanswered : s'.answered = s.answered) (hsent : s'.sent = s.sent) (hend : s'.ending = some ending)
    (heq : ∀ n rest, mainReads http q s.request.parser n (r :: rest) = ([], ending)) :
    Paired http garbage log s' := by
  refine .ended ending hend ?_ ?_ ?_
  · rw [hanswered]
    exact (Nat.le_add_right _ _).trans h.count
  · rw [hanswered]
    exact h.reached.goes heq
  · rw [hanswered, hsent]
    exact h.sent

/-- `on_read` does with an error what `read_and_parse` does. -/
theorem MidRequest.onRead_error (hs : s.Bare) (h : MidRequest http garbage log q [.error errno] s)
    {data : List UInt8} (hrun : onRead http (-((errno : Nat) : Int)) data s i = some s') :
    Paired http garbage (log ++ i.received) s' := by
  unfold Webserver.onRead at hrun
  split at hrun
  · rename_i hgone
    rw [neg_errno_inj, neg_errno_inj] at hgone
    split at hrun
    · obtain rfl := Option.some.inj hrun
      rw [requestDone_zero, show ServInput.received .close = [] from rfl, List.append_nil]
      exact h.ends rfl rfl (ending_closed hs) fun _ _ => mainReads_closed hgone
    · cases hrun
  · rename_i hother
    rw [neg_errno_inj, neg_errno_inj] at hother
    rw [if_pos (Serv.neg_errno errno)] at hrun
    split at hrun
    · obtain rfl := Option.some.inj hrun
      rw [show ServInput.received .close = [] from rfl, List.append_nil]
      exact h.ends rfl rfl rfl fun _ _ => mainReads_exited hother
    · cases hrun

/-- `on_read` does with a chunk what `read_and_parse` and the rest of the loop's pass do. -/
theorem MidRequest.onRead_data {buf data : List UInt8} (hs : s.Bare)
    (h : MidRequest http garbage log q [.data buf] s) (hdata : data.take buf.length = buf)
    (hkind : i.Kind)
    (hroom : Roomy s.request.fields.urlLength (http.execute s.request.parser buf).callbacks)
    (hrun : onRead http (buf.length : Nat) data s i = some s') :
    Paired http garbage (log ++ i.received) s' := by
  have hclose : ServInput.received .close = [] := rfl
  have hpipe : ((buf.length : Nat) : Int) ≠ -((EPIPE : Nat) : Int) := by
    have := EPIPE.pos
    omega
  have hreset : ((buf.length : Nat) : Int) ≠ -((ECONNRESET : Nat) : Int) := by
    have := ECONNRESET.pos
    omega
  unfold Webserver.onRead at hrun
  rw [if_neg (not_or.2 ⟨hpipe, hreset⟩), if_neg (by omega), Int.toNat_natCast, hdata] at hrun
  obtain ⟨hmain, hevent⟩ | ⟨q', f', parser', hmain, hevent, twin⟩ := h.twin.execute hroom
  · rw [hevent] at hrun
    dsimp only at hrun
    split at hrun
    · obtain rfl := Option.some.inj hrun
      rw [requestDone_zero, hclose, List.append_nil]
      exact h.ends rfl rfl (ending_closed hs) fun _ _ => mainReads_bad hmain
    · cases hrun
  · rw [hevent] at hrun
    dsimp only at hrun
    have hs₁ : { s with request := { s.request with fields := f', parser := parser' } }.Bare :=
      hs.setRequest _
    by_cases hdone : f'.done = true
    · rw [if_neg (by rw [hdone]; rintro ⟨-, ⟨⟩⟩)] at hrun
      unfold onParsed at hrun
      dsimp only at hrun
      rw [if_neg (by rw [hdone]; rintro ⟨⟩)] at hrun
      have hpass (n : Nat) (rest : List Received) :
          mainReads http q s.request.parser n (.data buf :: rest) = _ :=
        mainReads_done hmain (twin.done.trans hdone)
      split at hrun
      · rename_i hbad
        split at hrun
        · obtain rfl := Option.some.inj hrun
          rw [hclose, List.append_nil]
          refine h.ends rfl rfl rfl fun n rest => ?_
          rw [hpass, twin.text, if_pos hbad]
        · cases hrun
      · rename_i hgood
        split at hrun
        · obtain rfl := Option.some.inj hrun
          rw [show ServInput.received (.headers _ _) = [] from rfl, List.append_nil]
          refine Paired.answer hs₁ twin hdone h.count h.sent (h.reached.goes fun n rest => ?_) _ hkind
          exact (hpass n rest).trans (if_neg (by rwa [twin.text]))
        · cases hrun
    · have hdone : f'.done = false := Bool.eq_false_iff.2 hdone
      split at hrun
      · rename_i heof
        have hbuf : buf.length = 0 := by
          have := heof.1
          omega
        split at hrun
        · obtain rfl := Option.some.inj hrun
          rw [requestDone_zero, hclose, List.append_nil]
          exact h.ends rfl rfl (ending_closed hs₁) fun _ _ =>
            mainReads_eof hmain hbuf (twin.done.trans hdone)
        · cases hrun
      · rename_i hmore
        have hbuf : buf.length ≠ 0 := fun hbuf => hmore ⟨by rw [hbuf]; rfl, hdone⟩
        unfold onParsed at hrun
        dsimp only at hrun
        rw [if_pos hdone] at hrun
        split at hrun
        · obtain rfl := Option.some.inj hrun
          refine MidRequest.recv hs₁ ⟨twin, hdone, ?_, ?_, h.sent⟩ _ fun _ _ => rfl
          · exact (Nat.le_add_right _ _).trans h.count
          · exact h.reached.goes fun _ _ => mainReads_more hmain hbuf (twin.done.trans hdone)
        · cases hrun

theorem Answering.same {before : List (Answered × Timestr)} {last : Answered × Timestr}
    (h : Answering http garbage log q before last s) (hsame : SameRequest s s') :
    Answering http garbage log q before last s' where
  answered := by rw [hsame.answered, h.answered]
  response := by rw [hsame.response, h.response]
  known := h.known
  onResponseDone := by rw [hsame.onResponseDone, h.onResponseDone]
  count := by rw [hsame.answered]; exact h.count
  reached := by rw [hsame.answered, hsame.parser]; exact h.reached

/-- The last byte of a head is followed by the body, the last byte of a body by the next pass. -/
theorem Answering.helper {before : List (Answered × Timestr)} {last : Answered × Timestr} {result : Int}
    (hs : s.Bare) (h : Answering http garbage log q before last s) (hresult : 0 ≤ result)
    (hsent : s.sent = bytesOf before ++ headersText last.1.response last.2) (hkind : i.Kind)
    (hrun : sendHttpResponseHelper result s i = some s') :
    Paired http garbage (log ++ i.received) s' := by
  unfold sendHttpResponseHelper at hrun
  rw [if_neg (Int.not_lt.2 hresult)] at hrun
  split at hrun
  · obtain rfl := Option.some.inj hrun
    obtain ⟨method, keepAlive, hknown⟩ := h.known
    have hsize : last.1.response.body.length ≤ 512 := by
      rw [hknown]
      exact (body_fits method keepAlive).le.trans (by decide)
    rw [show ServInput.received (.send _) = [] from rfl, List.append_nil, h.response]
    obtain ⟨hsend, hsame⟩ :=
      asyncSend_sending hs hsent hsize hkind s.request.onResponseDone requestDone
    refine .body q before last (h.same hsame) ?_
    rw [hsame.onResponseDone]
    exact hsend
  · cases hrun

/-- After the body of a response that keeps the connection alive, both servers start again. -/
theorem Answering.nextRequest {before : List (Answered × Timestr)} {last : Answered × Timestr}
    {result : Int} (hs : s.Bare) (h : Answering http garbage log q before last s)
    (hkeep : q.keepAlive = true) (hresult : 0 ≤ result) (hsent : s.sent = bytesOf s.answered)
    (hrun : nextRequest result s i = some s') : Paired http garbage (log ++ i.received) s' := by
  unfold Webserver.nextRequest at hrun
  rw [if_neg (Int.not_lt.2 hresult)] at hrun
  split at hrun
  · obtain rfl := Option.some.inj hrun
    let fields : WebRequest := { s.request.fields with urlLength := 0, done := false }
    have hs₁ : { s with request := { s.request with fields := fields } }.Bare := hs.setRequest _
    refine MidRequest.recv hs₁ ⟨resetRequest_twin (q := q), rfl, h.count, ?_, hsent⟩ _
      fun _ _ => rfl
    refine h.reached.goes fun n rest => ?_
    rw [serverLoop, if_pos hkeep]
    rfl
  · cases hrun

/-- After the body of another response, both servers close the connection. -/
theorem Answering.requestDone {before : List (Answered × Timestr)} {last : Answered × Timestr}
    {result : Int} {data : List UInt8} (hs : s.Bare) (h : Answering http garbage log q before last s)
    (hkeep : q.keepAlive = false) (hresult : 0 ≤ result) (hsent : s.sent = bytesOf s.answered)
    (hrun : (⟨.requestDone, result, data⟩ : Call).run http s i = some s') :
    Paired http garbage (log ++ i.received) s' := by
  unfold Call.run at hrun
  dsimp only at hrun
  split at hrun
  · obtain rfl := Option.some.inj hrun
    have hdone : Webserver.requestDone result s = { s with live := false, closes := s.closes + 1 } :=
      if_neg fun h => absurd h.1 (Int.not_lt.2 hresult)
    rw [hdone, show ServInput.received .close = [] from rfl, List.append_nil]
    refine .ended .closed (ending_closed hs) h.count (h.reached.goes fun n rest => ?_) hsent
    rw [serverLoop, if_neg (by rw [hkeep]; exact Bool.false_ne_true)]
  · cases hrun

/-- A callback of `eventserv.c` and what `main.c` does at the same point. -/
theorem Paired.call {cb : Cb} {result : Int} {data : List UInt8} (h : Paired http garbage log s)
    (hs : { s with call := none }.Bare) (hcall : s.call = some ⟨cb, result, data⟩) (hkind : i.Kind)
    (hroom : s.Roomy http) (hrun : servStep http s i = some s') :
    Paired http garbage (log ++ i.received) s' := by
  have hstop : s.stop = none := hs.stop
  have hlive : s.live = true := hs.live
  rw [servStep_call hstop hlive hcall] at hrun
  cases h with
  | reading q harmed => cases hcall.symm.trans harmed.call
  | read q r result' data' _ hcall' hgives h =>
    cases hcall.symm.trans hcall'
    have h₁ : MidRequest http garbage log q [r] { s with call := none } :=
      ⟨h.twin, h.done, h.count, h.reached, h.sent⟩
    cases r with
    | error errno =>
      obtain rfl : result = -((errno : Nat) : Int) := hgives
      exact h₁.onRead_error hs hrun
    | data buf =>
      obtain ⟨rfl, hdata⟩ := hgives
      have hroom := hroom _ hcall rfl (Int.natCast_nonneg _)
      rw [Int.toNat_natCast] at hdata
      dsimp only at hroom
      rw [Int.toNat_natCast, hdata] at hroom
      exact h₁.onRead_data hs hdata hkind hroom hrun
  | head q before last h hsend =>
    have h₁ : Answering http garbage log q before last { s with call := none } :=
      ⟨h.answered, h.response, h.known, h.onResponseDone, h.count, h.reached⟩
    cases hsend with
    | armed harmed => cases hcall.symm.trans harmed.call
    | called result' data' _ hcall' hresult hsent =>
      cases hcall.symm.trans hcall'
      exact h₁.helper hs hresult hsent hkind hrun
  | body q before last h hsend =>
    have h₁ : Answering http garbage log q before last { s with call := none } :=
      ⟨h.answered, h.response, h.known, h.onResponseDone, h.count, h.reached⟩
    cases hsend with
    | armed harmed => cases hcall.symm.trans harmed.call
    | called result' data' _ hcall' hresult hsent =>
      obtain ⟨rfl, rfl, rfl⟩ := Call.mk.inj (Option.some.inj (hcall.symm.trans hcall'))
      rw [← bytesOf_append, ← h.answered] at hsent
      rw [h.onResponseDone] at hrun
      cases hkeep : q.keepAlive with
      | true =>
        rw [hkeep] at hrun
        exact h₁.nextRequest hs hkeep hresult hsent hrun
      | false =>
        rw [hkeep] at hrun
        exact h₁.requestDone hs hkeep hresult hsent hrun
  | ended ending hend =>
    unfold Serv.ending at hend
    rw [hstop, hlive] at hend
    cases hend

/-- An event of a socket that waits to read. -/
theorem MidRequest.event (hs : s.Armed) (type : s.request.waiter.waitType = .read)
    (length : s.request.waiter.length = READ_SIZE) (cb : s.request.cb = .onRead)
    (h : MidRequest http garbage log q [] s) (hkind : i.Kind) (hrun : servStep http s i = some s') :
    Paired http garbage (log ++ i.received) s' := by
  -- what `on_read` is called with is received now
  have hread (r : Received) (result : Int) (data : List UInt8) (hgives : r.Gives result data) :
      Paired http garbage (log ++ [r]) (s.deliver result data) := by
    refine .read q r result data ⟨hs.live, rfl, hs.closes, rfl, hs.rearm, hs.stop⟩ ?_ hgives
      ⟨h.twin, h.done, ?_, h.reached.receive r, h.sent⟩
    · exact congrArg (fun cb => some (⟨cb, result, data⟩ : Call)) cb
    · rw [List.length_append]
      exact Nat.add_le_add_right h.count 1
  obtain ⟨epollerr, epollin, soError, received, rfl, -, rfl⟩ | ⟨_, _, _, _, rfl, hwrite, -⟩ :=
    servStep_armed hs hrun
  · cases epollerr with
    | true =>
      obtain ⟨-, hevent⟩ | ⟨⟨⟩, -⟩ | ⟨⟨⟩, -⟩ := Serv.handleEvent_read hs type
        (received.bytes s.request.waiter.length)
        (show (Event.mk true epollin false soError received.answer).Clean .read from .inl rfl)
      rw [hevent]
      have hkind : (socketError soError).isSome = true := hkind
      obtain ⟨errno, herrno⟩ := Option.isSome_iff_exists.1 hkind
      have hlog : (ServInput.readEvent true epollin soError received).received = [.error errno] :=
        congrArg (fun o => o.toList.map Received.error) herrno
      rw [hlog]
      exact hread (.error errno) _ _ (socketErrno_eq herrno)
    | false =>
      obtain ⟨hin, hsoft⟩ := hkind
      obtain ⟨⟨⟩, -⟩ | ⟨-, bytes, rfl, hevent⟩ | ⟨-, errno, rfl, -, hevent⟩ :=
        Serv.handleEvent_read hs type (received.bytes s.request.waiter.length)
          (show (Event.mk false epollin false soError received.answer).Clean .read from
            .inr ⟨hin, hsoft⟩)
      · rw [hevent, length]
        exact hread (.data (bytes.take READ_SIZE)) _ _ (gives_take bytes)
      · rw [hevent, show ServInput.received (.readEvent false _ _ (.error _)) = [] from rfl,
          List.append_nil]
        exact .reading q hs type length cb h
  · rw [type] at hwrite
    cases hwrite

/-- A connection that has ended makes no step. -/
theorem Hand.ended_stuck {ending : Ending} (hand : Hand s) (h : s.ending = some ending) :
    servStep http s i = none := by
  unfold Serv.ending at h
  cases hand with
  | called call hs hcall hnext =>
    have hstop : s.stop = none := hs.stop
    have hlive : s.live = true := hs.live
    rw [hstop, hlive] at h
    cases h
  | armed hs =>
    rw [hs.stop, hs.live] at h
    cases h
  | closed live armed closes call rearm stop =>
    unfold servStep
    rw [if_neg (by rw [stop]; decide), call]
    dsimp only
    rw [if_neg (by rw [rearm]; decide), if_neg (by rw [armed]; decide)]
  | ended stop =>
    unfold servStep
    obtain stop | stop := stop
    · rw [stop]
      rfl
    · rw [stop]
      rfl

/-- **One step.** A kind step keeps the two servers together. -/
theorem Paired.step (h : Paired http garbage log s) (hand : Hand s) (hkind : i.Kind)
    (hroom : s.Roomy http)
    (hrun : servStep http s i = some s') : Paired http garbage (log ++ i.received) s' := by
  have hwrote (harmed : s.Armed) (type : s.request.waiter.waitType = .write) : i.received = [] := by
    obtain ⟨_, _, _, _, -, hread, -⟩ | ⟨_, _, _, _, rfl, -, -⟩ := servStep_armed harmed hrun
    · rw [type] at hread
      cases hread
    · rfl
  cases hpaired : h with
  | reading q hs type length cb h => exact h.event hs type length cb hkind hrun
  | read q r result data hs hcall hgives _ => exact h.call hs hcall hkind hroom hrun
  | head q before last hanswering hsend =>
    cases hsend with
    | called result data hs hcall => exact h.call hs hcall hkind hroom hrun
    | armed hs hcb type buffer length written sent =>
      obtain ⟨hsend, hsame⟩ := Sending.write hs hcb type buffer length written sent hkind hrun
      rw [hwrote hs type, List.append_nil]
      exact .head q before last (hanswering.same hsame) hsend
  | body q before last hanswering hsend =>
    cases hsend with
    | called result data hs hcall => exact h.call hs hcall hkind hroom hrun
    | armed hs hcb type buffer length written sent =>
      obtain ⟨hsend, hsame⟩ := Sending.write hs hcb type buffer length written sent hkind hrun
      rw [hwrote hs type, List.append_nil]
      refine .body q before last (hanswering.same hsame) ?_
      rwa [hsame.onResponseDone]
  | ended ending hend =>
    rw [hand.ended_stuck hend] at hrun
    cases hrun

/-! ## Every run -/

theorem ServInput.Kind.clean (h : i.Kind) : i.Clean := by
  cases i with
  | readEvent epollerr epollin soError received =>
    cases epollerr with
    | true => exact .inl rfl
    | false => exact .inr h
  | writeEvent epollerr epollout soError answer => exact .inr h.2
  | _ => trivial

/-- What a run lets the server receive. -/
def received (inputs : List ServInput) : List Received := inputs.flatMap ServInput.received

/-- The steps of a run are kind and roomy. -/
def Gentle (http : HttpParser σ) (s : Serv σ) (i : ServInput) : Prop := i.Kind ∧ s.Roomy http

instance (http : HttpParser σ) (s : Serv σ) (i : ServInput) : Decidable (Gentle http s i) :=
  inferInstanceAs (Decidable (_ ∧ _))

theorem ServRun.hand_of_gentle {start : ServRequest σ} {inputs : List ServInput}
    (h : ServRun http start (Gentle http) inputs s) : Hand s := by
  induction h with
  | accept received => exact onAccept_hand start received
  | step _ hok hs hand => exact hand.step hok.1.clean hs

/-- The first `recv` does not fail as if the client had gone: `on_accept` exits then. -/
def FirstKept (inputs : List ServInput) : Prop :=
  ∀ errno, inputs.head? = some (.recv (.error errno)) → ¬(errno = EPIPE ∨ errno = ECONNRESET)

theorem onAccept_paired (garbage : WebRequest) (start : ServRequest σ) {first : Received}
    (hfirst : FirstKept [.recv first]) :
    Paired http garbage (ServInput.recv first).received (onAccept http start first) := by
  unfold onAccept
  let fields : WebRequest := { start.fields with urlLength := 0, done := false }
  let s : Serv σ :=
    ⟨{ start with fields := fields, parser := http.init }, true, false, 0, none, false, none, [], []⟩
  have hs : s.Bare := ⟨rfl, rfl, rfl, rfl, rfl, rfl⟩
  have hmid : MidRequest http garbage [] _ [] s :=
    ⟨resetRequest_twin, rfl, Nat.le_refl 0, Reached.start garbage, rfl⟩
  refine MidRequest.recv hs hmid first fun errno h => ?_
  rw [requestDone_exits (hfirst errno (by rw [h]; rfl))]

theorem ServRun.paired (garbage : WebRequest) {start : ServRequest σ} {inputs : List ServInput}
    (h : ServRun http start (Gentle http) inputs s) (hfirst : FirstKept inputs) :
    Paired http garbage (received inputs) s := by
  induction h with
  | accept first =>
    have hpaired : Paired http garbage _ _ := onAccept_paired garbage start hfirst
    rwa [← List.append_nil (ServInput.received _)] at hpaired
  | @step inputs s i s' hrun hok hs ih =>
    have hfirst' : FirstKept inputs := by
      intro errno hhead
      refine hfirst errno ?_
      rw [List.head?_append, hhead]
      rfl
    have hpaired := (ih hfirst').step hrun.hand_of_gentle hok.1 hok.2 hs
    unfold received
    rwa [List.flatMap_append, List.flatMap_singleton]

theorem Paired.open_or_ended (h : Paired http garbage log s) :
    s.stop = none ∧ s.live = true ∨ ∃ ending, s.ending = some ending ∧
      s.answered.length ≤ log.length ∧ s.sent = bytesOf s.answered ∧
      Reached http garbage log (s.answered.map Prod.fst) fun _ _ => ([], ending) := by
  cases h with
  | reading q hs => exact .inl ⟨hs.stop, hs.live⟩
  | read q r result data hs => exact .inl ⟨hs.stop, hs.live⟩
  | head q before last h hsend =>
    cases hsend with
    | armed hs => exact .inl ⟨hs.stop, hs.live⟩
    | called result data hs => exact .inl ⟨hs.stop, hs.live⟩
  | body q before last h hsend =>
    cases hsend with
    | armed hs => exact .inl ⟨hs.stop, hs.live⟩
    | called result data hs => exact .inl ⟨hs.stop, hs.live⟩
  | ended ending hend count reached sent => exact .inr ⟨ending, hend, count, sent, reached⟩

/-- Every response of `main.c` can be read back. -/
theorem serverLoop_framed {n : Nat} {parser : σ} {rest : List Received} {a : Answered}
    (h : a ∈ (serverLoop http n q parser rest).1) : a.response.Framed := by
  induction n generalizing q parser rest with
  | zero => cases h
  | succ n ih =>
    unfold serverLoop at h
    split at h
    · unfold serverAnswer at h
      split at h
      · cases h
      · split at h
        · cases h
        · split at h
          · cases h
          · split at h
            · cases h
            · obtain rfl | h := List.mem_cons.1 h
              · exact response_framed _ _
              · exact ih h
    · cases h

end

/-- What `recv` into a buffer of `length` bytes makes of it. -/
def Received.upTo (length : Nat) : Received → Received
  | .data bytes => .data (bytes.take length)
  | .error errno => .error errno

/-- Every chunk that is received fits the buffer of `read_and_parse`. -/
def ChunksFit (log : List Received) : Prop := ∀ bytes, .data bytes ∈ log → bytes.length ≤ BUF_SIZE

theorem ChunksFit.upTo {log : List Received} (h : ChunksFit log) : log.map (.upTo BUF_SIZE) = log := by
  refine (List.map_congr_left fun r hr => ?_).trans (List.map_id log)
  cases r with
  | data bytes => exact congrArg Received.data (List.take_of_length_le (h bytes hr))
  | error => rfl

/-- **The two servers agree.** Take any run of a connection of `eventserv.c` in which `send` takes the
whole of what it is given or nothing, no operation fails after its event, no URL fills its array, the
first `recv` does not fail as if the client had gone, and every chunk fits the buffer of `main.c`. If the
connection has ended, by `close`, by `exit_error_num` or by the assertion of `on_read`, then
`server_handler_coro` of `main.c`, which receives the same chunks into its own buffer, ends in the same
way, with the same responses; and from the bytes that the callback server has sent a client reads back
these responses. -/
theorem servers_agree (http : HttpParser σ) (start : ServRequest σ) (garbage : WebRequest)
    {inputs : List ServInput} {s : Serv σ} {ending : Ending}
    (h : ServRun http start (Gentle http) inputs s) (hfirst : FirstKept inputs)
    (hfit : ChunksFit (received inputs)) (hend : s.ending = some ending) :
    serverHandlerCoro http garbage ((received inputs).map (.upTo BUF_SIZE)) =
        (s.answered.map Prod.fst, ending) ∧
      readResponses s.answered.length s.sent =
        some (s.answered.map fun r => r.1.response.reading r.2) := by
  rw [hfit.upTo]
  obtain ⟨hstop, hlive⟩ | ⟨ending', hend', hcount, hsent, hreached⟩ :=
    (h.paired garbage hfirst).open_or_ended
  · unfold Serv.ending at hend
    rw [hstop, hlive] at hend
    cases hend
  · obtain rfl := Option.some.inj (hend.symm.trans hend')
    have hmain : serverHandlerCoro http garbage (received inputs) = (s.answered.map Prod.fst, ending) :=
      hreached.ended (by rwa [List.length_map])
    refine ⟨hmain, ?_⟩
    have hframed : ∀ r ∈ s.answered.map (fun r => (r.1.response, r.2)), r.1.Framed := by
      intro r hr
      obtain ⟨⟨a, timestr⟩, ha, rfl⟩ := List.mem_map.1 hr
      have hin : a ∈ (serverHandlerCoro http garbage (received inputs)).1 := by
        rw [hmain]
        exact List.mem_map_of_mem ha
      exact serverLoop_framed hin
    have hback := responses_read_back _ hframed
    rw [List.length_map, List.flatMap_map, List.map_map] at hback
    rw [hsent]
    exact hback

/-- A request that comes late and in one piece, its answer, and the end of the connection. -/
theorem servers_agree_late : ∃ inputs s, ServRun lineParser blank (Gentle lineParser) inputs s ∧
    s.answered.map (fun r => r.1.url) = [[47, 97]] ∧ s.ending = some .closed ∧
    serverHandlerCoro lineParser zeroed ((received inputs).map (.upTo BUF_SIZE)) =
      (s.answered.map Prod.fst, .closed) := by
  have accept := @ServRun.accept _ lineParser blank (Gentle lineParser) (.error EAGAIN)
  have hlast : (servSteps lineParser (Gentle lineParser) (onAccept lineParser blank (.error EAGAIN))
      lateInputs).map (fun s => (s.answered.map (fun r => r.1.url), s.ending)) =
      some ([[47, 97]], some .closed) := by decide +kernel
  obtain ⟨s, hs, hlast⟩ := Option.map_eq_some_iff.1 hlast
  obtain ⟨hurls, hend⟩ := Prod.mk.inj hlast
  have hrun := accept.steps hs
  have hfirst : FirstKept ([.recv (.error EAGAIN)] ++ lateInputs) := by
    rintro errno ⟨⟩
    decide
  have hfit : ChunksFit (received ([.recv (.error EAGAIN)] ++ lateInputs)) := by
    have hlog : received ([.recv (.error EAGAIN)] ++ lateInputs) = [.data getA, .data []] := rfl
    intro bytes hbytes
    rw [hlog, List.mem_cons, List.mem_singleton, Received.data.injEq, Received.data.injEq] at hbytes
    rcases hbytes with rfl | rfl <;> decide
  exact ⟨_, s, hrun, hurls, hend, (servers_agree lineParser blank zeroed hrun hfirst hfit hend).1⟩

end Lwthread.Webserver
