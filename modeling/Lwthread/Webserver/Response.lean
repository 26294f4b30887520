import Lwthread.Lib.Lines
import Lwthread.Webserver.Handler
import Lwthread.Webserver.Send

/-!
# The bytes of a response

`send_http_headers` formats the head of a response into a buffer (`sendf`), which `send_http_response`
sends before the body. The buffers of the two servers differ in size and in what they send if the text
does not fit, but the head of a response of theirs always fits (`sendf_headers`), so both send the same
bytes (`Response.bytes`).

A client that reads a status line, header fields to an empty line, and as many bytes as
`Content-Length` says finds the responses in what a connection has sent, one after the other
(`responses_read_back`).
-/

namespace Lwthread.Webserver

open Lwthread.Platform Lines

/-- The bytes of a C string, without its terminator. -/
def ascii (s : String) : List UInt8 := s.toList.map Char.toUInt8

/-- The string of `asctime_r` in a buffer of 64 bytes, without its last character. -/
structure Timestr where
  bytes : List UInt8
  fits : bytes.length ≤ 62
  line : 13 ∉ bytes

/-! ## `send_http_headers` -/

/-- `HEADERS_KEEP_ALIVE_FORMAT` and `HEADERS_CLOSE_FORMAT`, with their arguments. -/
def headersText (r : Response) (timestr : Timestr) : List UInt8 :=
  ascii "HTTP/1.1 " ++ ascii r.status ++ ascii "\r\nDate: " ++ timestr.bytes ++
    ascii "\r\nContent-Type: " ++ ascii r.contentType ++ ascii "\r\nContent-Length: " ++
    decimal r.length ++
    if r.keepAlive then ascii "\r\n\r\n" else ascii "\r\nConnection: close\r\n\r\n"

/-- `vsnprintf`: the length of the text, and what is in a buffer of `size` bytes. -/
def vsnprintf (size : Nat) (text : List UInt8) : Nat × List UInt8 :=
  (text.length, text.take (size - 1) ++ [0])

/-- The bytes that `sendf` sends. -/
def sendf (server : Server) (text : List UInt8) : List UInt8 :=
  match server with
  | .main =>
    let r := vsnprintf 256 text
    r.2.take (if r.1 ≥ 256 then 255 else r.1)
  | .eventserv =>
    let r := vsnprintf 512 text
    r.2.take (if r.1 ≥ 512 then 512 else r.1)

/-- The body: `length` bytes from the start of the string, whose terminator may count. -/
def Response.body (r : Response) : List UInt8 := (ascii r.data ++ [0]).take r.length

/-- The bytes of a response. -/
def Response.bytes (r : Response) (timestr : Timestr) : List UInt8 := headersText r timestr ++ r.body

/-- A text that fits is sent as it is. -/
theorem sendf_fits (server : Server) {text : List UInt8} (h : text.length < 256) :
    sendf server text = text := by
  cases server with
  | main =>
    simp only [sendf, vsnprintf, ge_iff_le]
    rw [if_neg (by omega), List.take_of_length_le (by omega : text.length ≤ 256 - 1),
      List.take_append_of_le_length le_rfl, List.take_length]
  | eventserv =>
    simp only [sendf, vsnprintf, ge_iff_le]
    rw [if_neg (by omega), List.take_of_length_le (by omega : text.length ≤ 512 - 1),
      List.take_append_of_le_length le_rfl, List.take_length]

theorem headersText_length (r : Response) (timestr : Timestr) :
    (headersText r timestr).length ≤
      (ascii r.status).length + (ascii r.contentType).length + (decimal r.length).length + 136 := by
  have hfits := timestr.fits
  have h1 : (ascii "HTTP/1.1 ").length = 9 := by decide
  have h2 : (ascii "\r\nDate: ").length = 8 := by decide
  have h3 : (ascii "\r\nContent-Type: ").length = 16 := by decide
  have h4 : (ascii "\r\nContent-Length: ").length = 18 := by decide
  have h5 : (if r.keepAlive then ascii "\r\n\r\n"
      else ascii "\r\nConnection: close\r\n\r\n").length ≤ 23 := by
    cases r.keepAlive <;> decide
  simp only [headersText, List.length_append]
  omega

theorem headersText_fits (method : Method) (keepAlive : Bool) (timestr : Timestr) :
    (headersText (response method keepAlive) timestr).length < 256 := by
  refine (headersText_length _ timestr).trans_lt ?_
  unfold response
  split
  · dsimp only
    decide +kernel
  · dsimp only
    decide +kernel

theorem body_fits (method : Method) (keepAlive : Bool) :
    (response method keepAlive).body.length < 256 := by
  refine (List.length_take_le _ _).trans_lt ?_
  unfold response
  split
  · dsimp only
    decide +kernel
  · dsimp only
    decide

/-- **The head of every response fits into the buffer of either server.** -/
theorem sendf_headers (server : Server) (method : Method) (keepAlive : Bool) (timestr : Timestr) :
    sendf server (headersText (response method keepAlive) timestr) =
      headersText (response method keepAlive) timestr :=
  sendf_fits server (headersText_fits method keepAlive timestr)

/-! ## Reading responses -/

/-- What a client reads of a response. -/
structure Reading where
  status : List UInt8
  date : List UInt8
  contentType : List UInt8
  keepAlive : Bool
  body : List UInt8

/-- The text behind `start`, if `line` starts with it. -/
def after (start line : List UInt8) : Option (List UInt8) :=
  if start <+: line then some (line.drop start.length) else none

/-- The value of a header field. -/
def field (name : String) (lines : List (List UInt8)) : Option (List UInt8) :=
  lines.findSome? (after (ascii name ++ ascii ": "))

/-- A client reads one response. -/
def readResponse (text : List UInt8) : Option (Reading × List UInt8) :=
  match splitHead text.length text with
  | some (first :: lines, rest) => do
    let status ← after (ascii "HTTP/1.1 ") first
    let date ← field "Date" lines
    let contentType ← field "Content-Type" lines
    let length ← (field "Content-Length" lines).bind parseDecimal
    let keepAlive := field "Connection" lines ≠ some (ascii "close")
    if rest.length < length then none
    else some (⟨status, date, contentType, keepAlive, rest.take length⟩, rest.drop length)
  | _ => none

/-- A client reads responses to the end of the text. -/
def readResponses : Nat → List UInt8 → Option (List Reading)
  | 0, text => if text = [] then some [] else none
  | n + 1, text =>
    if text = [] then some []
    else (readResponse text).bind fun r => (readResponses n r.2).map (r.1 :: ·)

/-! ## Responses are read back -/

/-- The status and the content type have no line end, and the body is as long as announced. -/
structure Response.Framed (r : Response) : Prop where
  status : 13 ∉ ascii r.status
  contentType : 13 ∉ ascii r.contentType
  length : r.length ≤ (ascii r.data).length + 1

/-- What a client should read of a response. -/
def Response.reading (r : Response) (timestr : Timestr) : Reading :=
  ⟨ascii r.status, timestr.bytes, ascii r.contentType, r.keepAlive, r.body⟩

theorem response_framed (method : Method) (keepAlive : Bool) : (response method keepAlive).Framed := by
  unfold response
  split
  · cases keepAlive <;> exact ⟨by decide, by decide, by decide +kernel⟩
  · cases keepAlive <;> exact ⟨by decide, by decide, by decide⟩

section

variable {r : Response} {timestr : Timestr}

/-- The lines of a head. -/
def headLines (r : Response) (timestr : Timestr) : List (List UInt8) :=
  [ascii "HTTP/1.1 " ++ ascii r.status, ascii "Date" ++ ascii ": " ++ timestr.bytes,
    ascii "Content-Type" ++ ascii ": " ++ ascii r.contentType,
    ascii "Content-Length" ++ ascii ": " ++ decimal r.length] ++
  if r.keepAlive then [] else [ascii "Connection" ++ ascii ": " ++ ascii "close"]

theorem headersText_eq (r : Response) (timestr : Timestr) :
    headersText r timestr = unlines (headLines r timestr) ++ crlf := by
  have h2 : ascii "\r\nDate: " = crlf ++ (ascii "Date" ++ ascii ": ") := by decide
  have h3 : ascii "\r\nContent-Type: " = crlf ++ (ascii "Content-Type" ++ ascii ": ") := by decide
  have h4 : ascii "\r\nContent-Length: " = crlf ++ (ascii "Content-Length" ++ ascii ": ") := by decide
  have h5 : ascii "\r\n\r\n" = crlf ++ crlf := by decide
  have h6 : ascii "\r\nConnection: close\r\n\r\n" =
      crlf ++ (ascii "Connection" ++ ascii ": " ++ ascii "close") ++ crlf ++ crlf := by decide
  unfold headersText headLines unlines
  rw [h2, h3, h4, h5, h6]
  cases r.keepAlive <;> simp

theorem headLines_line (h : r.Framed) : ∀ line ∈ headLines r timestr, Line line := by
  have hnil : ∀ {s : String} {x : List UInt8}, ascii s ≠ [] → ascii s ++ x ≠ [] :=
    fun h hc => h (List.append_eq_nil_iff.1 hc).1
  have hcr : ∀ {s : String} {x : List UInt8}, 13 ∉ ascii s → 13 ∉ x → 13 ∉ ascii s ++ x :=
    fun h h' hc => (List.mem_append.1 hc).elim h h'
  intro line hline
  unfold headLines at hline
  simp only [List.append_assoc, List.mem_append, List.mem_cons, List.not_mem_nil, or_false] at hline
  rcases hline with (rfl | rfl | rfl | rfl) | hline
  · exact ⟨hnil (by decide), hcr (by decide) h.status⟩
  · exact ⟨hnil (by decide), hcr (by decide) (hcr (by decide) timestr.line)⟩
  · exact ⟨hnil (by decide), hcr (by decide) (hcr (by decide) h.contentType)⟩
  · exact ⟨hnil (by decide), hcr (by decide) (hcr (by decide) (cr_notMem_decimal _))⟩
  · split at hline
    · cases hline
    · rw [List.mem_singleton] at hline
      rw [hline]
      exact ⟨hnil (by decide), hcr (by decide) (hcr (by decide) (by decide))⟩

theorem after_append (start value : List UInt8) : after start (start ++ value) = some value := by
  unfold after
  rw [if_pos (List.prefix_append start value), List.drop_left]

/-- A line with another start. -/
theorem after_none {start other : List UInt8} (value : List UInt8)
    (h : ¬start <+: other ∧ ¬other <+: start) : after start (other ++ value) = none := by
  unfold after
  rw [if_neg]
  intro hp
  rcases List.prefix_or_prefix_of_prefix hp (List.prefix_append other value) with hc | hc
  · exact h.1 hc
  · exact h.2 hc

theorem field_date : field "Date" (headLines r timestr).tail = some timestr.bytes := by
  unfold field headLines
  simp only [List.cons_append, List.tail_cons, List.findSome?_cons, after_append]

theorem field_contentType :
    field "Content-Type" (headLines r timestr).tail = some (ascii r.contentType) := by
  unfold field headLines
  rw [List.cons_append, List.tail_cons, List.cons_append, List.findSome?_cons,
    after_none _ (by decide)]
  simp only [List.cons_append, List.findSome?_cons, after_append]

theorem field_contentLength :
    field "Content-Length" (headLines r timestr).tail = some (decimal r.length) := by
  unfold field headLines
  rw [List.cons_append, List.tail_cons, List.cons_append, List.findSome?_cons,
    after_none _ (by decide)]
  dsimp only
  rw [List.cons_append, List.findSome?_cons, after_none _ (by decide)]
  simp only [List.cons_append, List.findSome?_cons, after_append]

theorem field_connection :
    field "Connection" (headLines r timestr).tail =
      if r.keepAlive then none else some (ascii "close") := by
  unfold field headLines
  rw [List.cons_append, List.tail_cons, List.cons_append, List.findSome?_cons,
    after_none _ (by decide)]
  dsimp only
  rw [List.cons_append, List.findSome?_cons, after_none _ (by decide)]
  dsimp only
  rw [List.cons_append, List.findSome?_cons, after_none _ (by decide)]
  cases r.keepAlive with
  | true => rfl
  | false => simp only [Bool.false_eq_true, if_false, List.nil_append, List.findSome?_cons, after_append]

/-- A client reads a response and leaves what follows it. -/
theorem readResponse_bytes (h : r.Framed) (rest : List UInt8) :
    readResponse (r.bytes timestr ++ rest) = some (r.reading timestr, rest) := by
  have hbody : r.body.length = r.length := by
    unfold Response.body
    rw [List.length_take, List.length_append, List.length_singleton]
    exact min_eq_left h.length
  have htext : r.bytes timestr ++ rest =
      unlines (headLines r timestr) ++ crlf ++ (r.body ++ rest) := by
    rw [Response.bytes, headersText_eq, List.append_assoc]
  have hlen : (headLines r timestr).length < (r.bytes timestr ++ rest).length := by
    have hlines : (headLines r timestr).length ≤ (unlines (headLines r timestr)).length := unlines_length
    rw [htext]
    simp only [List.length_append, crlf, List.length_cons, List.length_nil]
    omega
  have hlines : ∀ line ∈ headLines r timestr, Line line := headLines_line h
  have hhead := splitHead_append hlines (r.body ++ rest) hlen
  rw [← htext] at hhead
  have hcons : headLines r timestr =
      (ascii "HTTP/1.1 " ++ ascii r.status) :: (headLines r timestr).tail := rfl
  unfold readResponse
  rw [hhead, hcons]
  dsimp only
  rw [after_append, field_date, field_contentType, field_contentLength, field_connection]
  simp only [Option.bind_eq_bind, Option.bind_some, parseDecimal_decimal]
  rw [if_neg (by rw [List.length_append, hbody]; omega), ← hbody, List.take_left, List.drop_left]
  cases hk : r.keepAlive <;> simp [Response.reading, hk]

/-- **Responses are read back**: from the bytes of any number of responses, one after the other, a
client reads those responses. -/
theorem responses_read_back (rs : List (Response × Timestr)) (h : ∀ r ∈ rs, r.1.Framed) :
    readResponses rs.length (rs.flatMap fun r => r.1.bytes r.2) =
      some (rs.map fun r => r.1.reading r.2) := by
  induction rs with
  | nil => rfl
  | cons r rs ih =>
    have hne : r.1.bytes r.2 ++ rs.flatMap (fun r => r.1.bytes r.2) ≠ [] := by
      rw [Response.bytes, headersText_eq]
      simp [crlf]
    rw [List.flatMap_cons, List.length_cons, readResponses, if_neg hne,
      readResponse_bytes (h r List.mem_cons_self), Option.bind_some,
      ih fun r hr => h r (List.mem_cons_of_mem _ hr)]
    rfl

end

end Lwthread.Webserver
