import Lwthread.Webserver.TwoServers

/-!
# What `main.c` sends

`server_handler_coro` with its calls of `send_all`. The kernel takes what it is given in pieces of any
size, and a signal may interrupt a call. As long as no call fails in another way, the connection carries
the responses that the handler computes, byte for byte and one after the other
(`handler_sends_responses`). A head that cannot be sent ends the program, a body that cannot be sent
because the client has gone does not.
-/

namespace Lwthread.Webserver

open Lwthread.Platform Lines

/-! ## `send_all` -/

/-- How `send_all` ends: it returns 0, it returns -1 with an `errno`, or a call of `send` does not
return. -/
inductive SendEnd where
  | sent
  | failed (errno : ℕ+)
  | waits

/-- What `send_all` returns, if it returns. -/
def SendEnd.result : SendEnd → Option Int
  | .sent => some 0
  | .failed _ => some (-1)
  | .waits => none

/-- `send_all`, with the bytes that were accepted and the answers that are left. -/
def sendAllFrom (buffer : List UInt8) : List Answer → SendEnd × List UInt8 × List Answer
  | [] => if buffer = [] then (.sent, [], []) else (.waits, [], [])
  | answer :: answers =>
    if buffer = [] then (.sent, [], answer :: answers)
    else
      match answer with
      | .error errno =>
        if errno = EINTR then sendAllFrom buffer answers else (.failed errno, [], answers)
      | .value n =>
        let sent := min n buffer.length
        let rest := sendAllFrom (buffer.drop sent) answers
        (rest.1, buffer.take sent ++ rest.2.1, rest.2.2)

/-- `sendAllFrom` returns what `send_all` returns, and sends what it sends. -/
theorem sendAll_eq (buffer : List UInt8) (answers : List Answer) :
    sendAll buffer answers =
      ((sendAllFrom buffer answers).1.result, (sendAllFrom buffer answers).2.1) := by
  induction answers generalizing buffer with
  | nil =>
    unfold sendAll sendAllFrom
    split <;> rfl
  | cons answer answers ih =>
    unfold sendAll sendAllFrom
    split
    · rfl
    · cases answer with
      | error errno =>
        dsimp only
        split
        · exact ih buffer
        · rfl
      | value n =>
        dsimp only
        rw [ih]

/-- No call of `send` fails, unless a signal interrupts it. -/
def Unfailing (answers : List Answer) : Prop := ∀ errno, .error errno ∈ answers → errno = EINTR

/-- The call accepts something. -/
def Answer.accepts : Answer → Bool
  | .value n => decide (0 < n)
  | .error _ => false

/-- The calls have accepted the start of `all`, not the whole of it, with at least a byte for every
one that accepts something. -/
structure Short (answers : List Answer) (bytes all : List UInt8) : Prop where
  start : bytes <+: all
  length : bytes.length < all.length
  calls : answers.countP Answer.accepts ≤ bytes.length

/-- The calls that are left after others have accepted `bytes`. -/
theorem Short.append {answers rest : List Answer} {bytes bytes' all : List UInt8}
    (h : Short rest bytes' all)
    (hcalls : answers.countP Answer.accepts ≤ bytes.length + rest.countP Answer.accepts) :
    Short answers (bytes ++ bytes') (bytes ++ all) := by
  have hlength := h.length
  have hrest := h.calls
  refine ⟨(List.prefix_append_right_inj bytes).2 h.start, ?_, ?_⟩
  · rw [List.length_append, List.length_append]
    omega
  · rw [List.length_append]
    omega

theorem Short.weaken {answers : List Answer} {bytes all : List UInt8} (h : Short answers bytes all)
    (more : List UInt8) : Short answers bytes (all ++ more) := by
  have hlength := h.length
  refine ⟨h.start.trans (List.prefix_append _ _), ?_, h.calls⟩
  rw [List.length_append]
  omega

/-- `all` has been sent, and the calls in `rest` are left. -/
structure Whole (answers rest : List Answer) (all : List UInt8) : Prop where
  unfailing : Unfailing rest
  calls : answers.countP Answer.accepts ≤ all.length + rest.countP Answer.accepts

/-- **If no call fails**, `send_all` sends the buffer, or waits and has sent the start of it. -/
theorem sendAllFrom_unfailing (buffer : List UInt8) {answers : List Answer} (h : Unfailing answers) :
    (sendAllFrom buffer answers).1 = .sent ∧ (sendAllFrom buffer answers).2.1 = buffer ∧
        Whole answers (sendAllFrom buffer answers).2.2 buffer ∨
      (sendAllFrom buffer answers).1 = .waits ∧
        Short answers (sendAllFrom buffer answers).2.1 buffer := by
  induction answers generalizing buffer with
  | nil =>
    unfold sendAllFrom
    split
    · rename_i hnil
      exact .inl ⟨rfl, hnil.symm, h, Nat.zero_le _⟩
    · rename_i hnil
      exact .inr ⟨rfl, List.nil_prefix, List.length_pos_iff.2 hnil, le_rfl⟩
  | cons answer answers ih =>
    have htail : Unfailing answers := fun errno he => h errno (List.mem_cons_of_mem _ he)
    unfold sendAllFrom
    split
    · rename_i hnil
      exact .inl ⟨rfl, hnil.symm, h, Nat.le_add_left _ _⟩
    · rename_i hnil
      cases answer with
      | error errno =>
        have hcount : (Answer.error errno :: answers).countP Answer.accepts =
            answers.countP Answer.accepts := List.countP_cons_of_neg Bool.false_ne_true
        dsimp only
        rw [if_pos (h errno List.mem_cons_self)]
        rcases ih buffer htail with ⟨hend, hbytes, hw⟩ | ⟨hend, hs⟩
        · exact .inl ⟨hend, hbytes, hw.unfailing, hcount ▸ hw.calls⟩
        · exact .inr ⟨hend, hs.start, hs.length, hcount ▸ hs.calls⟩
      | value n =>
        -- a call that accepts something sends a byte at least
        have hcount : (Answer.value n :: answers).countP Answer.accepts ≤
            (buffer.take (min n buffer.length)).length + answers.countP Answer.accepts := by
          have hpos := List.length_pos_iff.2 hnil
          rw [List.countP_cons, List.length_take]
          by_cases hn : 0 < n
          · split <;> omega
          · have : Answer.accepts (.value n) = false := decide_eq_false hn
            rw [this]
            simp
        dsimp only
        rcases ih (buffer.drop (min n buffer.length)) htail with ⟨hend, hbytes, hw⟩ | ⟨hend, hs⟩
        · have hcalls := hw.calls
          refine .inl ⟨hend, ?_, hw.unfailing, ?_⟩
          · rw [hbytes, List.take_append_drop]
          · rw [List.length_drop] at hcalls
            rw [List.length_take] at hcount
            omega
        · have happend := hs.append hcount
          rw [List.take_append_drop] at happend
          exact .inr ⟨hend, happend⟩

/-! ## `send_http_response` -/

/-- How `send_http_response` ends: it returns, it ends the program, or a call of `send` does not
return. -/
inductive Responded where
  | returns
  | exits
  | waits

/-- `send_http_response` of `main.c`, with the bytes that were accepted and the answers that are
left. -/
def mainSendHttpResponse (r : Response) (timestr : Timestr) (answers : List Answer) :
    Responded × List UInt8 × List Answer :=
  let head := sendAllFrom (sendf .main (headersText r timestr)) answers
  match head.1 with
  | .waits => (.waits, head.2)
  | .failed _ => (.exits, head.2)
  | .sent =>
    let body := sendAllFrom r.body head.2.2
    let bytes := head.2.1 ++ body.2.1
    match body.1 with
    | .waits => (.waits, bytes, body.2.2)
    | .failed errno =>
      if errno ≠ ECONNRESET ∧ errno ≠ EPIPE then (.exits, bytes, body.2.2)
      else (.returns, bytes, body.2.2)
    | .sent => (.returns, bytes, body.2.2)

/-- If no call fails, `send_http_response` sends the response, or waits and has sent the start of it. -/
theorem mainSendHttpResponse_unfailing (method : Method) (keepAlive : Bool) (timestr : Timestr)
    {answers : List Answer} (h : Unfailing answers) {out : Responded × List UInt8 × List Answer}
    (hout : mainSendHttpResponse (response method keepAlive) timestr answers = out) :
    out.1 = .returns ∧ out.2.1 = (response method keepAlive).bytes timestr ∧
        Whole answers out.2.2 ((response method keepAlive).bytes timestr) ∨
      out.1 = .waits ∧ Short answers out.2.1 ((response method keepAlive).bytes timestr) := by
  unfold mainSendHttpResponse at hout
  rw [sendf_headers] at hout
  unfold Response.bytes
  rcases sendAllFrom_unfailing (headersText (response method keepAlive) timestr) h with
    ⟨hend, hbytes, hhead⟩ | ⟨hend, hhead⟩
  · simp only [hend, hbytes] at hout
    have hcalls := hhead.calls
    rcases sendAllFrom_unfailing (response method keepAlive).body hhead.unfailing with
      ⟨hend', hbytes', hbody⟩ | ⟨hend', hbody⟩
    · simp only [hend', hbytes'] at hout
      have hcalls' := hbody.calls
      rw [← hout]
      refine .inl ⟨rfl, rfl, hbody.unfailing, ?_⟩
      rw [List.length_append]
      dsimp only
      omega
    · simp only [hend'] at hout
      rw [← hout]
      exact .inr ⟨rfl, hbody.append hcalls⟩
  · simp only [hend] at hout
    rw [← hout]
    exact .inr ⟨rfl, hhead.weaken _⟩

/-! ## `server_handler_coro` -/

section

variable {σ : Type} (http : HttpParser σ) (times : Nat → Timestr)

/-- A pass of the loop, from the return of `read_and_parse` on, with the bytes that were accepted;
`loop` are the passes after it. It has no end if a call of `send` does not return. -/
def sendAnswer (loop : WebRequest → σ → List Received → List Answer → List UInt8 × Option Ending)
    (timestr : Timestr) (answers : List Answer) : ReadResult σ → List UInt8 × Option Ending
  | .exited => ([], some .exited)
  | .returned result request parser rest =>
    if result = -1 ∨ result = 0 ∧ request.done = false then ([], some .closed)
    else if request.done = false then ([], some .aborted)
    else if http.parseUrl request.text ≠ 0 then ([], some .aborted)
    else
      let r := mainSendHttpResponse (response (http.method parser) request.keepAlive) timestr answers
      match r.1 with
      | .returns =>
        let after := loop request parser rest r.2.2
        (r.2.1 ++ after.1, after.2)
      | .exits => (r.2.1, some .exited)
      | .waits => (r.2.1, none)

/-- The loop of `server_handler_coro`, for a number of passes, the first of them pass `n`. -/
def sendLoop : Nat → Nat → WebRequest → σ → List Received → List Answer →
    List UInt8 × Option Ending
  | 0, _, _, _, _, _ => ([], some .running)
  | passes + 1, n, request, parser, received, answers =>
    if request.keepAlive = true then
      sendAnswer http (sendLoop passes (n + 1)) (times n) answers
        (readAndParse http (resetRequest request) parser received)
    else ([], some .closed)

/-- `server_handler_coro`, with the time of each pass, what is received, and what each `send`
answers. -/
def serverHandlerSends (garbage : WebRequest) (received : List Received) (answers : List Answer) :
    List UInt8 × Option Ending :=
  sendLoop http times (received.length + 1) 0 { garbage with keepAlive := true } http.init received
    answers

/-- The responses with the times of their passes, the first of them pass `n`. -/
def timed : Nat → List Answered → List (Answered × Timestr)
  | _, [] => []
  | n, a :: answered => (a, times n) :: timed (n + 1) answered

/-- The connection carries the responses, or the start of them and a call of `send` does not return. -/
def OnWire (n : Nat) (full : List Answered × Ending) (answers : List Answer)
    (out : List UInt8 × Option Ending) : Prop :=
  out = (bytesOf (timed times n full.1), some full.2) ∨
    out.2 = none ∧ Short answers out.1 (bytesOf (timed times n full.1))

variable {http times}

/-- One more response, at the front. -/
theorem OnWire.cons {n : Nat} {full : List Answered × Ending} {out : List UInt8 × Option Ending}
    {answers rest : List Answer} (h : OnWire times (n + 1) full rest out) (a : Answered)
    {bytes : List UInt8} (hbytes : bytes = a.response.bytes (times n))
    (hw : Whole answers rest (a.response.bytes (times n))) :
    OnWire times n (a :: full.1, full.2) answers (bytes ++ out.1, out.2) := by
  subst hbytes
  rcases h with rfl | ⟨hnone, hshort⟩
  · exact .inl rfl
  · exact .inr ⟨hnone, hshort.append hw.calls⟩

theorem sendLoop_onWire {passes n : Nat} {request : WebRequest} {parser : σ}
    {received : List Received} {answers : List Answer} (h : Unfailing answers) :
    OnWire times n (serverLoop http passes request parser received) answers
      (sendLoop http times passes n request parser received answers) := by
  induction passes generalizing n request parser received answers with
  | zero => exact .inl rfl
  | succ passes ih =>
    unfold serverLoop sendLoop
    split
    · generalize readAndParse http (resetRequest request) parser received = result
      unfold serverAnswer sendAnswer
      cases result with
      | exited => exact .inl rfl
      | returned result request parser rest =>
        dsimp only
        split
        · exact .inl rfl
        · split
          · exact .inl rfl
          · split
            · exact .inl rfl
            · generalize hout : mainSendHttpResponse _ (times n) answers = out
              rcases mainSendHttpResponse_unfailing _ _ _ h hout with
                ⟨hend, hbytes, hw⟩ | ⟨hend, hshort⟩
              · rw [hend]
                exact (ih hw.unfailing).cons _ hbytes hw
              · rw [hend]
                exact .inr ⟨rfl, hshort.weaken _⟩
    · exact .inl rfl

theorem timed_map_fst (n : Nat) (answered : List Answered) :
    (timed times n answered).map Prod.fst = answered := by
  induction answered generalizing n with
  | nil => rfl
  | cons a answered ih => exact congrArg (a :: ·) (ih (n + 1))

end

/-- **The connection carries the responses.** For any parser, whatever is received, and however the
kernel takes what `send_all` gives it and signals interrupt the calls, as long as none fails in another
way: the handler of `main.c` ends as `server_handler_coro` does, and has sent the bytes of its responses,
from which a client reads them back; or a call of `send` does not return, then the connection carries the
start of these bytes, with at least a byte for every call that accepts something. So the handler ends if
there are as many of these calls as there are bytes. -/
theorem handler_sends_responses {σ : Type} (http : HttpParser σ) (times : Nat → Timestr)
    (garbage : WebRequest) (received : List Received) {answers : List Answer} {full : List Answered}
    {ending : Ending} (h : Unfailing answers)
    (hfull : serverHandlerCoro http garbage received = (full, ending)) :
    let out := serverHandlerSends http times garbage received answers
    (out = (bytesOf (timed times 0 full), some ending) ∧
      readResponses full.length out.1 =
        some ((timed times 0 full).map fun r => r.1.response.reading r.2)) ∨
      out.2 = none ∧ Short answers out.1 (bytesOf (timed times 0 full)) := by
  intro out
  have hwire : OnWire times 0 (full, ending) answers out := by
    rw [← hfull]
    exact sendLoop_onWire h
  have hfst : (timed times 0 full).map Prod.fst = full := timed_map_fst 0 full
  rcases hwire with hout | hwaits
  · refine .inl ⟨hout, ?_⟩
    have hframed : ∀ r ∈ (timed times 0 full).map (fun r => (r.1.response, r.2)), r.1.Framed := by
      intro r hr
      obtain ⟨⟨a, timestr⟩, ha, rfl⟩ := List.mem_map.1 hr
      have hin : a ∈ (serverHandlerCoro http garbage received).1 := by
        rw [hfull, ← hfst]
        exact List.mem_map_of_mem ha
      exact serverLoop_framed hin
    have hback := responses_read_back _ hframed
    have hlength : (timed times 0 full).length = full.length := by
      rw [← List.length_map (f := Prod.fst), hfst]
    rw [List.length_map, List.flatMap_map, List.map_map, hlength] at hback
    rw [hout]
    exact hback
  · exact .inr hwaits

/-- A signal interrupts the first call, and the kernel takes 70 bytes at a time. -/
def inPieces : List Answer := .error EINTR :: List.replicate 10 (.value 70)

theorem handler_sends_responses_pieces :
    ∃ times full, serverHandlerCoro lineParser zeroed chunkEach.received = (full, .closed) ∧
      full.length = 2 ∧
      readResponses 2 (serverHandlerSends lineParser times zeroed chunkEach.received inPieces).1 =
        some ((timed times 0 full).map fun r => r.1.response.reading r.2) := by
  let times : Nat → Timestr := fun _ => ⟨[], by decide, by decide⟩
  have hunfailing : Unfailing inPieces := by
    intro errno herrno
    obtain herrno | herrno := List.mem_cons.1 herrno
    · exact Answer.error.inj herrno
    · cases List.eq_of_mem_replicate herrno
  have hmain : (serverHandlerCoro lineParser zeroed chunkEach.received).2 = .closed ∧
      (serverHandlerCoro lineParser zeroed chunkEach.received).1.length = 2 := by decide +kernel
  have hends : (serverHandlerSends lineParser times zeroed chunkEach.received inPieces).2 =
      some .closed := by decide +kernel
  rcases hfull : serverHandlerCoro lineParser zeroed chunkEach.received with ⟨full, ending⟩
  rw [hfull] at hmain
  obtain ⟨rfl, hlength⟩ := hmain
  refine ⟨times, full, rfl, hlength, ?_⟩
  obtain ⟨-, hback⟩ | ⟨hnone, -⟩ :=
    handler_sends_responses lineParser times zeroed chunkEach.received hunfailing hfull
  · rwa [hlength] at hback
  · rw [hends] at hnone
    cases hnone

end Lwthread.Webserver
