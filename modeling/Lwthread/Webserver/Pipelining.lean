import Lwthread.Webserver.Handler

/-!
# Requests and the chunks in which they come

`server_handler_coro` looks at the request only when `read_and_parse` returns, and that is after a
chunk in which a message has ended. The parser goes on to the next message within the chunk, and the
callbacks put what it reports of that into the same `struct web_request`, and the method into the
same parser. So the responses depend on how the bytes of the client are cut: with two requests in one
chunk there is one response. They are as they should be exactly when no chunk goes on after the end of
a request (`responses_agree_iff`).

The parser is assumed to report the messages of the stream in the same way for every cut.
-/

namespace Lwthread.Webserver

/-! ## What the parser reports -/

/-- What the parser reports, byte after byte: a byte of a URL, or the end of a message. -/
inductive Mark where
  | byte (b : UInt8)
  | complete (shouldKeepAlive : Bool)
  deriving DecidableEq

def Callback.marks : Callback → List Mark
  | .url buffer => buffer.bytes.map .byte
  | .messageComplete shouldKeepAlive => [.complete shouldKeepAlive]

/-- The marks of a list of calls, which do not tell how a URL is cut into fragments. -/
def marks (callbacks : List Callback) : List Mark := callbacks.flatMap Callback.marks

/-- A request of the client that is to keep the connection alive. -/
structure Request where
  method : Method
  url : List UInt8
  nonempty : url ≠ []

def Request.marks (r : Request) : List Mark := r.url.map .byte ++ [.complete true]

/-- The response that a request is to get. -/
def Request.answered (r : Request) : Answered := ⟨r.method, r.url, response r.method true⟩

/-- The size of `buf` in `read_and_parse`. -/
def BUF_SIZE : Nat := 256

/-- A way in which `async_recv` may return the bytes of a stream. -/
structure Segmentation (stream : List UInt8) where
  chunks : List (List UInt8)
  whole : chunks.flatten = stream
  sizes : ∀ c ∈ chunks, 0 < c.length ∧ c.length ≤ BUF_SIZE

def Segmentation.received {stream : List UInt8} (a : Segmentation stream) : List Received :=
  a.chunks.map .data

section

variable {σ : Type} (http : HttpParser σ)

/-- What the parser reports of the chunks, from a state on. -/
def HttpParser.reports : σ → List (List UInt8) → List Mark
  | _, [] => []
  | parser, c :: cs =>
    let e := http.execute parser c
    marks e.callbacks ++ HttpParser.reports e.state cs

/-- The parser parses every chunk to its end, passes fragments of the chunk, and makes no call when
the connection is closed after them. -/
def HttpParser.Parses : σ → List (List UInt8) → Prop
  | parser, [] => (http.execute parser []).callbacks = []
  | parser, c :: cs =>
    let e := http.execute parser c
    e.parsed = c.length ∧ (∀ f, .url f ∈ e.callbacks → f.length ≤ c.length) ∧
      HttpParser.Parses e.state cs

/-- What is assumed of the parser for the stream of some requests: however it is cut, the parser
reports the requests and nothing else. -/
def HttpParser.Consistent (requests : List Request) (stream : List UInt8) : Prop :=
  ∀ a : Segmentation stream, http.Parses http.init a.chunks ∧
    http.reports http.init a.chunks = requests.flatMap Request.marks

/-- No chunk goes on after the end of a request: in every chunk the parser reports bytes of one URL
only, or it reports the end of the request as the last thing and is left with the method of that
request. -/
def Separate : σ → List Request → List (List UInt8) → Prop
  | _, [], _ => True
  | _, _ :: _, [] => True
  | parser, r :: rs, c :: cs =>
    let e := http.execute parser c
    (∃ bytes : List UInt8, marks e.callbacks = bytes.map .byte ∧ Separate e.state (r :: rs) cs) ∨
    ∃ bytes : List UInt8, marks e.callbacks = bytes.map .byte ++ [.complete true] ∧
      http.method e.state = r.method ∧ Separate e.state rs cs

end

/-! ## The callbacks -/

section

variable {request next : WebRequest} {callbacks : List Callback} {u v : List UInt8}
  {shouldKeepAlive : Bool}

theorem storeUrl_flags {server : Server} {i : Nat} {b : UInt8} :
    (storeUrl server request i b).done = request.done ∧
      (storeUrl server request i b).keepAlive = request.keepAlive := by
  unfold storeUrl
  dsimp only
  split
  · exact ⟨rfl, rfl⟩
  · split <;> exact ⟨rfl, rfl⟩

theorem copyUrl_flags {server : Server} {i : Nat} {bs : List UInt8} :
    (copyUrl server request i bs).done = request.done ∧
      (copyUrl server request i bs).keepAlive = request.keepAlive := by
  induction bs generalizing request i with
  | nil => exact ⟨rfl, rfl⟩
  | cons b bs ih =>
    obtain ⟨hdone, hkeep⟩ := @ih (storeUrl server request i b) (i + 1)
    exact ⟨hdone.trans storeUrl_flags.1, hkeep.trans storeUrl_flags.2⟩

theorem onUrl_flags {server : Server} {f : Fragment} :
    (onUrl server request f).2.done = request.done ∧
      (onUrl server request f).2.keepAlive = request.keepAlive := by
  unfold onUrl
  split
  · exact ⟨rfl, rfl⟩
  · exact copyUrl_flags

theorem Carries.text (h : Carries request u) : request.text = u := by
  unfold WebRequest.text
  rw [h.length]
  exact h.bytes

theorem resetRequest_carries : Carries (resetRequest request) [] := ⟨rfl, Nat.zero_le _, rfl⟩

/-- The end of a message: `on_done` writes a terminator, which for a URL of 128 bytes clears the low
byte of `url_length`, and with it the URL. -/
theorem Carries.done (h : Carries request u) :
    Carries (onDone .main shouldKeepAlive request).2 (if u.length = URL_SIZE then [] else u) := by
  have hroom := h.room
  unfold onDone
  dsimp only
  rw [h.length]
  split
  · next hfull =>
    rw [hfull]
    refine ⟨?_, Nat.zero_le _, rfl⟩
    have hbyte : setByte 128 0 0 = 0 := by decide
    simp only [storeUrl, URL_SIZE, Server.padding, h.length, hfull]
    exact hbyte
  · next hlt =>
    have hlt : u.length < URL_SIZE := lt_of_le_of_ne hroom hlt
    rw [storeUrl_inside hlt]
    refine ⟨h.length, hroom, ?_⟩
    have hrange := range_update (i := u.length) (b := 0) request.url
    rw [List.range_succ, List.map_append, h.bytes] at hrange
    exact List.append_inj_left' hrange rfl

theorem runCallbacks_append (before after : List Callback) :
    runCallbacks request (before ++ after) =
      (runCallbacks request before).bind fun next => runCallbacks next after := by
  induction before generalizing request with
  | nil => rfl
  | cons callback before ih =>
    simp only [List.cons_append, runCallbacks]
    split
    · exact ih
    · rfl

/-- Bytes of a URL are added to those that are there, or there are too many of them. -/
theorem Carries.run_bytes (h : Carries request u)
    (hsmall : ∀ f, .url f ∈ callbacks → f.length ≤ BUF_SIZE)
    (hm : marks callbacks = v.map .byte) :
    (URL_SIZE < u.length + v.length ∧ runCallbacks request callbacks = none) ∨
    u.length + v.length ≤ URL_SIZE ∧ ∃ next, runCallbacks request callbacks = some next ∧
      Carries next (u ++ v) ∧ next.done = request.done ∧ next.keepAlive = request.keepAlive := by
  induction callbacks generalizing request u v with
  | nil =>
    obtain rfl : v = [] := List.map_eq_nil_iff.1 hm.symm
    exact .inr ⟨h.room, request, rfl, by rwa [List.append_nil], rfl, rfl⟩
  | cons callback callbacks ih =>
    cases callback with
    | messageComplete k =>
      cases v with
      | nil => cases hm
      | cons b v => cases (List.cons.inj hm).1
    | url f =>
      obtain ⟨v₁, v₂, rfl, hv₁, hv₂⟩ := List.map_eq_append_iff.1 hm.symm
      obtain rfl : v₁ = f.bytes := List.map_injective_iff.2 (fun _ _ h => by cases h; rfl) hv₁
      have hf : f.length ≤ BUF_SIZE := hsmall f List.mem_cons_self
      have hsmall : ∀ f, .url f ∈ callbacks → f.length ≤ BUF_SIZE :=
        fun f hf => hsmall f (List.mem_cons_of_mem _ hf)
      have hlen : (f.bytes ++ v₂).length = f.length + v₂.length := List.length_append
      have hroom := h.room
      by_cases hfit : u.length + f.length ≤ URL_SIZE
      · obtain ⟨hcode, hnext⟩ := h.accept .main hfit
        have hrun : runCallbacks request (.url f :: callbacks) =
            runCallbacks (onUrl .main request f).2 callbacks := by
          simp only [runCallbacks, Callback.run, hcode, if_true]
        rcases ih hnext hsmall hv₂.symm with ⟨hbig, hnone⟩ | ⟨hle, next, hsome, hc, hd, hk⟩
        · refine .inl ⟨?_, hrun.trans hnone⟩
          rw [List.length_append] at hbig
          change URL_SIZE < u.length + f.length + v₂.length at hbig
          omega
        · refine .inr ⟨?_, next, hrun.trans hsome, by rwa [← List.append_assoc],
            hd.trans onUrl_flags.1, hk.trans onUrl_flags.2⟩
          rw [List.length_append] at hle
          change u.length + f.length + v₂.length ≤ URL_SIZE at hle
          omega
      · refine .inl ⟨by omega, ?_⟩
        unfold BUF_SIZE at hf
        unfold URL_SIZE at hroom
        have hrej := h.reject .main (f := f) (by omega) (by omega)
        simp only [runCallbacks, Callback.run, hrej]
        rfl

/-- The calls up to the end of a message, that call, and those after it. -/
theorem marks_split {rest : List Mark}
    (hm : marks callbacks = v.map .byte ++ .complete shouldKeepAlive :: rest) :
    ∃ before after, callbacks = before ++ .messageComplete shouldKeepAlive :: after ∧
      marks before = v.map .byte ∧ marks after = rest := by
  induction callbacks generalizing v with
  | nil => cases v <;> cases hm
  | cons callback callbacks ih =>
    cases callback with
    | messageComplete k =>
      cases v with
      | nil =>
        obtain ⟨hk, hrest⟩ := List.cons.inj hm
        cases hk
        exact ⟨[], callbacks, rfl, rfl, hrest⟩
      | cons b v => cases (List.cons.inj hm).1
    | url f =>
      -- the fragment is a beginning of the bytes before the end
      have hm : f.bytes.map .byte ++ marks callbacks =
          v.map .byte ++ .complete shouldKeepAlive :: rest := hm
      rcases List.append_eq_append_iff.1 hm with ⟨w, hv, hw⟩ | ⟨w, hf, hw⟩
      · obtain ⟨v₁, v₂, rfl, hv₁, rfl⟩ := List.map_eq_append_iff.1 hv
        obtain ⟨before, after, rfl, hb, ha⟩ := ih hw
        refine ⟨.url f :: before, after, rfl, ?_, ha⟩
        rw [List.map_append, hv₁, ← hb]
        rfl
      · obtain ⟨-, f₂, -, -, hf₂⟩ := List.map_eq_append_iff.1 hf
        cases f₂ with
        | nil =>
          obtain rfl := hf₂
          obtain ⟨before, after, rfl, hb, ha⟩ := ih (v := []) hw.symm
          refine ⟨.url f :: before, after, rfl, ?_, ha⟩
          change f.bytes.map .byte ++ marks before = v.map .byte
          rw [hf, hb, List.map_nil, List.append_nil, List.append_nil]
        | cons b f₂ =>
          obtain rfl := hf₂
          cases (List.cons.inj hw).1

/-- The end of the request as the last thing. -/
theorem Carries.run_end (h : Carries request u)
    (hsmall : ∀ f, .url f ∈ callbacks → f.length ≤ BUF_SIZE)
    (hm : marks callbacks = v.map .byte ++ [.complete shouldKeepAlive]) :
    (URL_SIZE < u.length + v.length ∧ runCallbacks request callbacks = none) ∨
    u.length + v.length ≤ URL_SIZE ∧ ∃ next, runCallbacks request callbacks = some next ∧
      Carries next (if (u ++ v).length = URL_SIZE then [] else u ++ v) ∧ next.done = true ∧
      next.keepAlive = shouldKeepAlive := by
  obtain ⟨before, after, rfl, hbefore, hafter⟩ := marks_split hm
  rw [runCallbacks_append]
  rcases h.run_bytes (fun f hf => hsmall f (List.mem_append_left _ hf)) hbefore with
    ⟨hbig, hnone⟩ | ⟨hle, mid, hmid, hc, -⟩
  · exact .inl ⟨hbig, by rw [hnone]; rfl⟩
  · -- only empty fragments may follow
    have hdone := @Carries.done _ _ shouldKeepAlive hc
    have hroom := hdone.room
    rcases hdone.run_bytes (v := [])
        (fun f hf => hsmall f (List.mem_append_right _ (List.mem_cons_of_mem _ hf))) hafter with
      ⟨hbig, -⟩ | ⟨-, next, hnext, hcn, hd, hk⟩
    · rw [List.length_nil] at hbig
      omega
    · rw [List.append_nil] at hcn
      refine .inr ⟨hle, next, ?_, hcn, hd, hk⟩
      rw [hmid]
      exact hnext

/-- After the end of a message the request stays done. -/
theorem runCallbacks_done (hrun : runCallbacks request callbacks = some next)
    (hdone : request.done = true) : next.done = true := by
  induction callbacks generalizing request with
  | nil => cases hrun; exact hdone
  | cons callback callbacks ih =>
    simp only [runCallbacks] at hrun
    split at hrun
    · refine ih hrun ?_
      cases callback with
      | url f => exact onUrl_flags.1.trans hdone
      | messageComplete k => rfl
    · cases hrun

/-- The request is done only after the end of a message. -/
theorem complete_of_done (hrun : runCallbacks request callbacks = some next)
    (hdone : request.done = false) (hnext : next.done = true) :
    ∃ k, Mark.complete k ∈ marks callbacks := by
  induction callbacks generalizing request with
  | nil =>
    cases hrun
    rw [hdone] at hnext
    cases hnext
  | cons callback callbacks ih =>
    cases callback with
    | messageComplete k => exact ⟨k, List.mem_cons_self⟩
    | url f =>
      simp only [runCallbacks] at hrun
      split at hrun
      · obtain ⟨k, hk⟩ := ih hrun (onUrl_flags.1.trans hdone)
        exact ⟨k, List.mem_append_right _ hk⟩
      · cases hrun

theorem done_of_complete {rest : List Mark} (hrun : runCallbacks request callbacks = some next)
    (hm : marks callbacks = v.map .byte ++ .complete shouldKeepAlive :: rest) :
    next.done = true := by
  obtain ⟨before, after, rfl, -, -⟩ := marks_split hm
  rw [runCallbacks_append] at hrun
  obtain ⟨mid, -, hrun⟩ := Option.bind_eq_some_iff.1 hrun
  simp only [runCallbacks] at hrun
  split at hrun
  · exact runCallbacks_done hrun rfl
  · cases hrun

end

/-! ## A chunk -/

section

variable {σ : Type} (http : HttpParser σ) {request next : WebRequest} {parser : σ} {passes : Nat}
  {c : List UInt8} {cs : List (List UInt8)}

/-- A pass of the handler from inside `read_and_parse` on, and the passes after it. -/
def serve (passes : Nat) (request : WebRequest) (parser : σ) (chunks : List (List UInt8)) :
    List Answered × Ending :=
  serverAnswer http (serverLoop http passes) (readAndParse http request parser (chunks.map .data))

/-- The peer has closed the connection. -/
theorem serve_nil (hclose : (http.execute parser []).callbacks = []) (hdone : request.done = false) :
    serve http passes request parser [] = ([], .closed) := by
  simp only [serve, List.map_nil, readAndParse, httpParserExecute, hclose, runCallbacks]
  by_cases hparsed : (http.execute parser []).parsed = 0
  · simp [hparsed, serverAnswer, hdone]
  · simp [hparsed, serverAnswer]

/-- A callback fails. -/
theorem serve_stop (hrun : runCallbacks request (http.execute parser c).callbacks = none) :
    serve http passes request parser (c :: cs) = ([], .closed) := by
  simp [serve, readAndParse, httpParserExecute, hrun, serverAnswer]

section

variable (hparsed : (http.execute parser c).parsed = c.length) (hc : 0 < c.length)
  (hrun : runCallbacks request (http.execute parser c).callbacks = some next)

include hparsed hc hrun

/-- No message has ended: `read_and_parse` goes on. -/
theorem serve_more (hdone : next.done = false) :
    serve http passes request parser (c :: cs) =
      serve http passes next (http.execute parser c).state cs := by
  have hlen : ¬c.length = 0 := hc.ne'
  simp only [serve, List.map_cons, readAndParse, httpParserExecute, hrun, hparsed, if_true, hlen,
    hdone, Bool.false_eq_true, or_self, if_false]

/-- A message has ended: the handler answers. -/
theorem serve_answer (hdone : next.done = true) :
    serve http passes request parser (c :: cs) =
      if http.parseUrl next.text ≠ 0 then ([], .aborted)
      else
        let method := http.method (http.execute parser c).state
        let after := serverLoop http passes next (http.execute parser c).state (cs.map .data)
        (⟨method, next.text, response method next.keepAlive⟩ :: after.1, after.2) := by
  simp only [serve, List.map_cons, readAndParse, httpParserExecute, hrun, hparsed, if_true, hdone,
    or_true, serverAnswer, Bool.true_eq_false, and_false, or_false, if_false]
  rw [if_neg (by omega)]

end

theorem serverLoop_pass (hkeep : next.keepAlive = true) :
    serverLoop http (passes + 1) next parser (cs.map .data) =
      serve http passes (resetRequest next) parser cs := if_pos hkeep

end

/-! ## Counting ends of messages -/

def Mark.isComplete : Mark → Bool
  | .byte _ => false
  | .complete _ => true

/-- The number of ends of messages. -/
def ends (ms : List Mark) : Nat := ms.countP Mark.isComplete

theorem ends_append (a b : List Mark) : ends (a ++ b) = ends a + ends b := List.countP_append

theorem ends_bytes (v : List UInt8) : ends (v.map .byte) = 0 := by
  refine List.countP_eq_zero.2 fun m hm => ?_
  obtain ⟨b, -, rfl⟩ := List.mem_map.1 hm
  exact nofun

theorem ends_requests (rs : List Request) : ends (rs.flatMap Request.marks) = rs.length := by
  induction rs with
  | nil => rfl
  | cons r rs ih =>
    rw [List.flatMap_cons, ends_append, ih, Request.marks, ends_append, ends_bytes, List.length_cons]
    change 0 + 1 + rs.length = rs.length + 1
    omega

/-- Without the end of a message there are bytes of a URL only. -/
theorem bytes_of_no_end {ms : List Mark} (h : ends ms = 0) : ∃ v : List UInt8, ms = v.map .byte := by
  induction ms with
  | nil => exact ⟨[], rfl⟩
  | cons m ms ih =>
    cases m with
    | complete k =>
      rw [ends, List.countP_cons_of_pos rfl] at h
      cases h
    | byte b =>
      rw [ends, List.countP_cons_of_neg (by exact nofun)] at h
      obtain ⟨v, rfl⟩ := ih h
      exact ⟨b :: v, rfl⟩

/-- Bytes of a URL are not an end of a message. -/
theorem bytes_ne_end {a b : List Mark} {v : List UInt8} {k : Bool} :
    v.map .byte ≠ a ++ .complete k :: b := by
  intro h
  have hmem : Mark.complete k ∈ v.map .byte := h ▸ List.mem_append_right _ List.mem_cons_self
  obtain ⟨b, -, hb⟩ := List.mem_map.1 hmem
  cases hb

/-- A beginning of bytes of a URL and the end of its message: some of the bytes, or all and the end. -/
theorem marks_cut {a b rest : List Mark} {v : List UInt8} {k : Bool}
    (h : a ++ b = v.map .byte ++ .complete k :: rest) :
    (∃ v₁ v₂, v = v₁ ++ v₂ ∧ a = v₁.map .byte ∧ b = v₂.map .byte ++ .complete k :: rest) ∨
    ∃ w, a = v.map .byte ++ .complete k :: w ∧ rest = w ++ b := by
  rcases List.append_eq_append_iff.1 h with ⟨w, hv, hb⟩ | ⟨w, ha, hb⟩
  · obtain ⟨v₁, v₂, rfl, rfl, rfl⟩ := List.map_eq_append_iff.1 hv
    exact .inl ⟨v₁, v₂, rfl, rfl, hb⟩
  · cases w with
    | nil =>
      refine .inl ⟨v, [], (List.append_nil v).symm, by rw [ha, List.append_nil], ?_⟩
      exact hb.symm
    | cons m w =>
      obtain ⟨rfl, hrest⟩ := List.cons.inj hb
      exact .inr ⟨w, ha, hrest⟩

section

variable {σ : Type} {http : HttpParser σ} {request : WebRequest} {parser : σ} {passes : Nat}
  {chunks : List (List UInt8)}

/-- The passes that follow answer no more often than any pass that begins with these chunks. -/
theorem serverLoop_length {n : Nat}
    (h : ∀ {passes request}, request.done = false →
      (serve http passes request parser chunks).1.length ≤ n) :
    (serverLoop http passes request parser (chunks.map .data)).1.length ≤ n := by
  cases passes with
  | zero => exact Nat.zero_le _
  | succ passes =>
    rcases hkeep : request.keepAlive with _ | _
    · simp [serverLoop, hkeep]
    · rw [serverLoop_pass http hkeep]
      exact h rfl

/-- **There are no more responses than ends of messages.** -/
theorem serve_length (hp : http.Parses parser chunks)
    (hsizes : ∀ c ∈ chunks, 0 < c.length ∧ c.length ≤ BUF_SIZE) (hdone : request.done = false) :
    (serve http passes request parser chunks).1.length ≤ ends (http.reports parser chunks) := by
  induction chunks generalizing passes request parser with
  | nil =>
    rw [serve_nil http hp hdone]
    exact Nat.zero_le _
  | cons c cs ih =>
    obtain ⟨hparsed, -, hp⟩ := hp
    have hc : 0 < c.length := (hsizes c List.mem_cons_self).1
    have hsizes : ∀ c ∈ cs, 0 < c.length ∧ c.length ≤ BUF_SIZE :=
      fun c hc => hsizes c (List.mem_cons_of_mem _ hc)
    rw [HttpParser.reports, ends_append]
    rcases hrun : runCallbacks request (http.execute parser c).callbacks with _ | next
    · rw [serve_stop http hrun]
      exact Nat.zero_le _
    · rcases hnext : next.done with _ | _
      · rw [serve_more http hparsed hc hrun hnext]
        exact (ih hp hsizes hnext).trans (Nat.le_add_left _ _)
      · obtain ⟨k, hk⟩ := complete_of_done hrun hdone hnext
        have hone : 0 < ends (marks (http.execute parser c).callbacks) :=
          List.countP_pos_iff.2 ⟨_, hk, rfl⟩
        have hloop : (serverLoop http passes next (http.execute parser c).state
            (cs.map .data)).1.length ≤ ends (http.reports (http.execute parser c).state cs) :=
          serverLoop_length fun hdone => ih hp hsizes hdone
        rw [serve_answer http hparsed hc hrun hnext]
        split
        · exact Nat.zero_le _
        · simp only [List.length_cons]
          omega

end

/-! ## Responses as they should be -/

section

variable {σ : Type} {http : HttpParser σ} {request next : WebRequest} {parser : σ} {passes : Nat}
  {chunks : List (List UInt8)} {r : Request} {rs : List Request} {u v : List UInt8}

/-- The passes that follow have answered, so there was one. -/
theorem serverLoop_answers (h : (serverLoop http passes next parser (chunks.map .data)).1 =
    (r :: rs).map Request.answered) :
    ∃ passes', (serve http passes' (resetRequest next) parser chunks).1 =
      (r :: rs).map Request.answered := by
  cases passes with
  | zero => cases h
  | succ passes =>
    rcases hkeep : next.keepAlive with _ | _
    · simp [serverLoop, hkeep] at h
    · rw [serverLoop_pass http hkeep] at h
      exact ⟨passes, h⟩

/-- If the responses are as they should be, nothing of the URL of the request that is being read has
been lost, no URL fills the array, and no chunk goes on after the end of a request. -/
theorem separate_of_answers (hp : http.Parses parser chunks)
    (hsizes : ∀ c ∈ chunks, 0 < c.length ∧ c.length ≤ BUF_SIZE) (hcarry : Carries request u)
    (hdone : request.done = false)
    (hrep : http.reports parser chunks =
      v.map .byte ++ .complete true :: rs.flatMap Request.marks)
    (hans : (serve http passes request parser chunks).1 = (r :: rs).map Request.answered) :
    u ++ v = r.url ∧ (∀ q ∈ r :: rs, q.url.length < URL_SIZE) ∧
      Separate http parser (r :: rs) chunks := by
  induction chunks generalizing passes request parser u v r rs with
  | nil => cases v <;> cases hrep
  | cons c cs ih =>
    obtain ⟨hparsed, hsmall, hp⟩ := hp
    obtain ⟨hc, hbuf⟩ := hsizes c List.mem_cons_self
    have hsizes : ∀ c ∈ cs, 0 < c.length ∧ c.length ≤ BUF_SIZE :=
      fun c hc => hsizes c (List.mem_cons_of_mem _ hc)
    have hsmall : ∀ f, .url f ∈ (http.execute parser c).callbacks → f.length ≤ BUF_SIZE :=
      fun f hf => (hsmall f hf).trans hbuf
    rcases hrun : runCallbacks request (http.execute parser c).callbacks with _ | next
    · rw [serve_stop http hrun] at hans
      cases hans
    rcases marks_cut hrep with ⟨v₁, v₂, rfl, hm, hrest⟩ | ⟨w, hm, hrest⟩
    · -- the chunk has bytes of the URL only
      rcases hcarry.run_bytes hsmall hm with ⟨-, hnone⟩ | ⟨-, next', hsome, hcn, hdn, -⟩
      · rw [hrun] at hnone
        cases hnone
      · obtain rfl := Option.some.inj (hrun.symm.trans hsome)
        rw [hdone] at hdn
        rw [serve_more http hparsed hc hrun hdn] at hans
        obtain ⟨hurl, hroom, hsep⟩ := ih hp hsizes hcn hdn hrest hans
        exact ⟨by rw [← List.append_assoc, hurl], hroom, .inl ⟨v₁, hm, hsep⟩⟩
    · -- the request ends in the chunk
      have hdn : next.done = true := done_of_complete hrun hm
      rw [serve_answer http hparsed hc hrun hdn] at hans
      split at hans
      · cases hans
      obtain ⟨hhead, htail⟩ := List.cons.inj hans
      have hmethod : http.method (http.execute parser c).state = r.method :=
        congrArg Answered.method hhead
      have htext : next.text = r.url := congrArg Answered.url hhead
      have hno : ends w = 0 := by
        -- with another end in the chunk there are too few left
        have hle := congrArg List.length htail ▸
          serverLoop_length fun hdone => serve_length hp hsizes hdone
        rw [List.length_map] at hle
        have hends := ends_requests rs
        rw [hrest, ends_append] at hends
        omega
      obtain ⟨w, rfl⟩ := bytes_of_no_end hno
      cases w with
      | nil =>
        rcases hcarry.run_end hsmall hm with ⟨-, hnone⟩ | ⟨hle, next', hsome, hcn, -⟩
        · rw [hrun] at hnone
          cases hnone
        · obtain rfl := Option.some.inj (hrun.symm.trans hsome)
          rw [hcn.text] at htext
          split at htext
          · exact absurd htext.symm r.nonempty
          · next hne =>
            rw [List.length_append] at hne
            have hroom : r.url.length < URL_SIZE := by
              rw [← htext, List.length_append]
              omega
            have hlater : (∀ q ∈ rs, q.url.length < URL_SIZE) ∧
                Separate http (http.execute parser c).state rs cs := by
              cases rs with
              | nil => exact ⟨nofun, by unfold Separate; trivial⟩
              | cons r₂ rs =>
                obtain ⟨passes', hans⟩ := serverLoop_answers htail
                have hrep : http.reports (http.execute parser c).state cs =
                    r₂.url.map .byte ++ .complete true :: rs.flatMap Request.marks := by
                  rw [List.flatMap_cons, Request.marks, List.append_assoc] at hrest
                  exact hrest.symm
                exact (ih hp hsizes resetRequest_carries rfl hrep hans).2
            exact ⟨htext, List.forall_mem_cons.2 ⟨hroom, hlater.1⟩, .inr ⟨v, hm, hmethod, hlater.2⟩⟩
      | cons b w =>
        -- the beginning of the next URL is lost
        cases rs with
        | nil => cases hrest
        | cons r₂ rs =>
          obtain ⟨passes', hans⟩ := serverLoop_answers htail
          rw [List.flatMap_cons, Request.marks, List.append_assoc] at hrest
          rcases marks_cut hrest.symm with ⟨v₁, v₂, hurl, hv₁, hrep⟩ | ⟨w', hw, -⟩
          · have hlost := (ih hp hsizes resetRequest_carries rfl hrep hans).1
            obtain rfl : v₁ = [] := by simpa [hurl] using hlost
            cases hv₁
          · exact absurd hw bytes_ne_end

/-- Chunks in which nothing is reported get no response. -/
theorem serve_silent (hp : http.Parses parser chunks)
    (hsizes : ∀ c ∈ chunks, 0 < c.length ∧ c.length ≤ BUF_SIZE) (hcarry : Carries request u)
    (hdone : request.done = false) (hrep : http.reports parser chunks = []) :
    serve http passes request parser chunks = ([], .closed) := by
  induction chunks generalizing request parser u with
  | nil => exact serve_nil http hp hdone
  | cons c cs ih =>
    obtain ⟨hparsed, hsmall, hp⟩ := hp
    obtain ⟨hc, hbuf⟩ := hsizes c List.mem_cons_self
    have hsizes : ∀ c ∈ cs, 0 < c.length ∧ c.length ≤ BUF_SIZE :=
      fun c hc => hsizes c (List.mem_cons_of_mem _ hc)
    obtain ⟨hm, hrest⟩ := List.append_eq_nil_iff.1 hrep
    rcases hcarry.run_bytes (v := []) (fun f hf => (hsmall f hf).trans hbuf) hm with
      ⟨-, hnone⟩ | ⟨-, next, hsome, hcn, hdn, -⟩
    · exact serve_stop http hnone
    · rw [hdone] at hdn
      rw [serve_more http hparsed hc hsome hdn]
      exact ih hp hsizes hcn hdn hrest

/-- If no URL fills the array and no chunk goes on after the end of a request, the responses are as
they should be. -/
theorem answers_of_separate (hp : http.Parses parser chunks)
    (hsizes : ∀ c ∈ chunks, 0 < c.length ∧ c.length ≤ BUF_SIZE) (hcarry : Carries request u)
    (hdone : request.done = false)
    (hrep : http.reports parser chunks =
      v.map .byte ++ .complete true :: rs.flatMap Request.marks)
    (huv : u ++ v = r.url) (hroom : ∀ q ∈ r :: rs, q.url.length < URL_SIZE)
    (hurls : ∀ q ∈ r :: rs, http.parseUrl q.url = 0)
    (hsep : Separate http parser (r :: rs) chunks) (hpasses : chunks.length ≤ passes) :
    serve http passes request parser chunks = ((r :: rs).map Request.answered, .closed) := by
  induction chunks generalizing passes request parser u v r rs with
  | nil => cases v <;> cases hrep
  | cons c cs ih =>
    obtain ⟨hparsed, hsmall, hp⟩ := hp
    obtain ⟨hc, hbuf⟩ := hsizes c List.mem_cons_self
    have hsizes : ∀ c ∈ cs, 0 < c.length ∧ c.length ≤ BUF_SIZE :=
      fun c hc => hsizes c (List.mem_cons_of_mem _ hc)
    have hsmall : ∀ f, .url f ∈ (http.execute parser c).callbacks → f.length ≤ BUF_SIZE :=
      fun f hf => (hsmall f hf).trans hbuf
    have hlen : u.length + v.length < URL_SIZE := by
      rw [← List.length_append, huv]
      exact hroom r List.mem_cons_self
    rcases marks_cut hrep with ⟨v₁, v₂, rfl, hm, hrest⟩ | ⟨w, hm, hrest⟩
    · rw [List.length_append] at hlen
      rcases hsep with ⟨bytes, -, hsep⟩ | ⟨bytes, hm', -⟩
      · rcases hcarry.run_bytes hsmall hm with ⟨hbig, -⟩ | ⟨-, next, hsome, hcn, hdn, -⟩
        · omega
        · rw [hdone] at hdn
          rw [serve_more http hparsed hc hsome hdn]
          rw [List.length_cons] at hpasses
          exact ih hp hsizes hcn hdn hrest (by rw [List.append_assoc, huv]) hroom hurls hsep (by omega)
      · exact absurd (hm.symm.trans hm') bytes_ne_end
    · rcases hsep with ⟨bytes, hm', -⟩ | ⟨bytes, hm', hmethod, hsep⟩
      · exact absurd (hm'.symm.trans hm) bytes_ne_end
      obtain rfl : w = [] := by
        rcases marks_cut (hm'.symm.trans hm) with ⟨v₁, v₂, -, -, hw⟩ | ⟨w', hw, -⟩
        · cases v₂ with
          | nil => exact (List.cons.inj hw).2.symm
          | cons b v₂ => cases (List.cons.inj hw).1
        · exact absurd hw bytes_ne_end
      rcases hcarry.run_end hsmall hm with ⟨hbig, -⟩ | ⟨-, next, hsome, hcn, hdn, hkeep⟩
      · omega
      · have hne : ¬(u ++ v).length = URL_SIZE := by
          rw [List.length_append]
          exact hlen.ne
        rw [if_neg hne] at hcn
        have htext : next.text = r.url := hcn.text.trans huv
        obtain ⟨passes, rfl⟩ : ∃ n, passes = n + 1 := Nat.exists_eq_succ_of_ne_zero (by
          rw [List.length_cons] at hpasses
          omega)
        rw [List.length_cons] at hpasses
        have hurl : http.parseUrl next.text = 0 := htext ▸ hurls r List.mem_cons_self
        have hlater : serve http passes (resetRequest next) (http.execute parser c).state cs =
            (rs.map Request.answered, .closed) := by
          cases rs with
          | nil => exact serve_silent hp hsizes resetRequest_carries rfl hrest.symm
          | cons r₂ rs =>
            have hrep : http.reports (http.execute parser c).state cs =
                r₂.url.map .byte ++ .complete true :: rs.flatMap Request.marks := by
              rw [List.flatMap_cons, Request.marks, List.append_assoc] at hrest
              exact hrest.symm
            exact ih hp hsizes resetRequest_carries rfl hrep rfl
              (fun q hq => hroom q (List.mem_cons_of_mem _ hq))
              (fun q hq => hurls q (List.mem_cons_of_mem _ hq)) hsep (by omega)
        rw [serve_answer http hparsed hc hsome hdn, if_neg (not_not.2 hurl), serverLoop_pass http hkeep,
          hlater, htext, hkeep, hmethod]
        rfl

end

/-! ## The handler -/

section

variable {σ : Type} {http : HttpParser σ} {requests : List Request} {stream : List UInt8}

theorem serverHandlerCoro_eq (garbage : WebRequest) (a : Segmentation stream) :
    serverHandlerCoro http garbage a.received =
      serve http a.chunks.length (resetRequest { garbage with keepAlive := true }) http.init
        a.chunks := by
  unfold serverHandlerCoro Segmentation.received
  rw [List.length_map]
  exact serverLoop_pass http rfl

/-- One way of cutting the stream. -/
theorem responses_iff (hreports : http.Consistent requests stream)
    (hurls : ∀ r ∈ requests, http.parseUrl r.url = 0) (garbage : WebRequest)
    (a : Segmentation stream) :
    (serverHandlerCoro http garbage a.received).1 = requests.map Request.answered ↔
      (∀ r ∈ requests, r.url.length < URL_SIZE) ∧ Separate http http.init requests a.chunks := by
  obtain ⟨hp, hrep⟩ := hreports a
  rw [serverHandlerCoro_eq]
  cases requests with
  | nil =>
    rw [serve_silent hp a.sizes resetRequest_carries rfl hrep]
    exact iff_of_true rfl ⟨nofun, by unfold Separate; trivial⟩
  | cons r rs =>
    rw [List.flatMap_cons, Request.marks, List.append_assoc] at hrep
    constructor
    · intro hans
      exact (separate_of_answers hp a.sizes resetRequest_carries rfl hrep hans).2
    · rintro ⟨hroom, hsep⟩
      rw [answers_of_separate hp a.sizes resetRequest_carries rfl hrep rfl hroom hurls hsep le_rfl]

/-- **The responses depend on the cut.** For every stream of requests that the parser reports however
it is cut, and any two ways of cutting it: the handler sends the same responses for both, one for each
request in order, computed from its method and its URL, exactly when every URL leaves room for the
terminator and in neither cut a chunk goes on after the end of a request. -/
theorem responses_agree_iff (hreports : http.Consistent requests stream)
    (hurls : ∀ r ∈ requests, http.parseUrl r.url = 0) (garbage garbage' : WebRequest)
    (a b : Segmentation stream) :
    ((serverHandlerCoro http garbage a.received).1 = (serverHandlerCoro http garbage' b.received).1 ∧
      (serverHandlerCoro http garbage a.received).1 = requests.map Request.answered) ↔
    (∀ r ∈ requests, r.url.length < URL_SIZE) ∧ Separate http http.init requests a.chunks ∧
      Separate http http.init requests b.chunks := by
  have ha := responses_iff hreports hurls garbage a
  have hb := responses_iff hreports hurls garbage' b
  constructor
  · rintro ⟨heq, hans⟩
    obtain ⟨hroom, hsep⟩ := ha.1 hans
    exact ⟨hroom, hsep, (hb.1 (heq ▸ hans)).2⟩
  · rintro ⟨hroom, hsep, hsep'⟩
    have hans := ha.2 ⟨hroom, hsep⟩
    exact ⟨hans.trans (hb.2 ⟨hroom, hsep'⟩).symm, hans⟩

end

/-! ## A parser of plain requests -/

/-- Where the parser is: before a request, in its method, in its URL, or after that, with the number of
bytes of the empty line at the end that it has seen. -/
inductive Phase where
  | start
  | method
  | url
  | header (seen : Nat)

/-- A parser of requests `GET /.. HTTP/1.1` without a body, as `http_parser` reports them: it guesses
the method from the first byte. -/
structure LineParser where
  phase : Phase
  method : Method

def LineParser.step (p : LineParser) (b : UInt8) : LineParser × Option Mark :=
  match p.phase with
  | .start => (⟨.method, if b = 71 then .HTTP_GET else .other b.toNat⟩, none)
  | .method => (if b = 32 then ⟨.url, p.method⟩ else p, none)
  | .url => if b = 32 then (⟨.header 0, p.method⟩, none) else (p, some (.byte b))
  | .header seen =>
    let seen := if b = [13, 10, 13, 10].getD seen 0 then seen + 1 else if b = 13 then 1 else 0
    if seen = 4 then (⟨.start, p.method⟩, some (.complete true)) else (⟨.header seen, p.method⟩, none)

def LineParser.run : LineParser → List UInt8 → LineParser × List Mark
  | p, [] => (p, [])
  | p, b :: bs =>
    let r := p.step b
    let rest := LineParser.run r.1 bs
    (rest.1, r.2.toList ++ rest.2)

/-- Bytes of a URL that come in one chunk are one fragment. -/
def fragment (bytes : List UInt8) : List Callback :=
  if h : bytes.length < 2 ^ 64 then [.url ⟨bytes, h⟩]
  else bytes.map fun b => .url ⟨[b], by rw [List.length_singleton]; norm_num⟩

/-- The calls for the marks of a chunk, after bytes of a URL. -/
def calls (bytes : List UInt8) : List Mark → List Callback
  | [] => if bytes = [] then [] else fragment bytes
  | .byte b :: ms => calls (bytes ++ [b]) ms
  | .complete k :: ms =>
    (if bytes = [] then [] else fragment bytes) ++ .messageComplete k :: calls [] ms

def lineParser : HttpParser LineParser where
  init := ⟨.start, .other 0⟩
  execute p c := ⟨(p.run c).1, calls [] (p.run c).2, c.length⟩
  method := LineParser.method
  parseUrl url := if url.head? = some 47 then 0 else 1

theorem marks_append (a b : List Callback) : marks (a ++ b) = marks a ++ marks b :=
  List.flatMap_append

theorem fragment_marks (bytes : List UInt8) :
    marks (if bytes = [] then [] else fragment bytes) = bytes.map .byte := by
  split
  · next h => rw [h]; rfl
  · unfold fragment
    split
    · exact List.append_nil _
    · rw [marks, List.flatMap_map]
      exact List.flatMap_pure_eq_map Mark.byte bytes

theorem calls_marks (bytes : List UInt8) (ms : List Mark) :
    marks (calls bytes ms) = bytes.map .byte ++ ms := by
  induction ms generalizing bytes with
  | nil => rw [calls, fragment_marks, List.append_nil]
  | cons m ms ih =>
    cases m with
    | byte b => rw [calls, ih, List.map_append, List.append_assoc]; rfl
    | complete k =>
      rw [calls, marks_append, fragment_marks]
      exact congrArg (bytes.map .byte ++ .complete k :: ·) (ih [])

theorem fragment_length {bytes : List UInt8} {f : Fragment}
    (h : .url f ∈ if bytes = [] then [] else fragment bytes) : f.length ≤ bytes.length := by
  split at h
  · cases h
  · next hne =>
    unfold fragment at h
    split at h
    · cases List.mem_singleton.1 h
      exact le_rfl
    · obtain ⟨b, -, hb⟩ := List.mem_map.1 h
      cases hb
      exact List.length_pos_of_ne_nil hne

theorem calls_length {bytes : List UInt8} {ms : List Mark} {f : Fragment}
    (h : .url f ∈ calls bytes ms) : f.length ≤ bytes.length + ms.length := by
  induction ms generalizing bytes with
  | nil => exact fragment_length h
  | cons m ms ih =>
    cases m with
    | byte b =>
      have := ih h
      simp only [List.length_append, List.length_cons, List.length_nil] at this ⊢
      omega
    | complete k =>
      rw [List.length_cons]
      rcases List.mem_append.1 h with h | h
      · have := fragment_length h
        omega
      · rcases List.mem_cons.1 h with h | h
        · cases h
        · have := ih h
          rw [List.length_nil] at this
          omega

theorem LineParser.run_append (p : LineParser) (a b : List UInt8) :
    p.run (a ++ b) = (((p.run a).1.run b).1, (p.run a).2 ++ ((p.run a).1.run b).2) := by
  induction a generalizing p with
  | nil => rfl
  | cons x a ih =>
    simp only [List.cons_append, LineParser.run, ih, List.append_assoc]

theorem LineParser.run_length (p : LineParser) (bs : List UInt8) : (p.run bs).2.length ≤ bs.length := by
  induction bs generalizing p with
  | nil => exact le_rfl
  | cons b bs ih =>
    simp only [LineParser.run, List.length_append, List.length_cons]
    have hone : (p.step b).2.toList.length ≤ 1 := by
      cases (p.step b).2 <;> simp
    have := ih (p.step b).1
    omega

/-- What this parser reports does not depend on the cut. -/
theorem lineParser_reports (p : LineParser) (chunks : List (List UInt8)) :
    lineParser.Parses p chunks ∧ lineParser.reports p chunks = (p.run chunks.flatten).2 := by
  induction chunks generalizing p with
  | nil => exact ⟨rfl, rfl⟩
  | cons c cs ih =>
    obtain ⟨hp, hrep⟩ := ih (p.run c).1
    refine ⟨⟨rfl, fun f hf => ?_, hp⟩, ?_⟩
    · have := calls_length hf
      have := p.run_length c
      rw [List.length_nil] at *
      omega
    · rw [List.flatten_cons, LineParser.run_append]
      change marks (calls [] (p.run c).2) ++ lineParser.reports (p.run c).1 cs = _
      rw [calls_marks, hrep]
      rfl

/-- `GET /a HTTP/1.1` with its empty line. -/
def getA : List UInt8 := [71, 69, 84, 32, 47, 97, 32, 72, 84, 84, 80, 47, 49, 46, 49, 13, 10, 13, 10]

/-- `GET /b HTTP/1.1` with its empty line. -/
def getB : List UInt8 := [71, 69, 84, 32, 47, 98, 32, 72, 84, 84, 80, 47, 49, 46, 49, 13, 10, 13, 10]

def twoRequests : List Request := [⟨.HTTP_GET, [47, 97], nofun⟩, ⟨.HTTP_GET, [47, 98], nofun⟩]

theorem twoRequests_consistent : lineParser.Consistent twoRequests (getA ++ getB) := by
  intro a
  obtain ⟨hp, hrep⟩ := lineParser_reports lineParser.init a.chunks
  refine ⟨hp, hrep.trans ?_⟩
  rw [a.whole]
  decide +kernel

def oneChunk : Segmentation (getA ++ getB) := ⟨[getA ++ getB], rfl, by decide⟩

def chunkEach : Segmentation (getA ++ getB) := ⟨[getA, getB], rfl, by decide⟩

/-- The first request comes in two chunks, cut in its URL. -/
def cutInUrl : Segmentation (getA ++ getB) := ⟨[getA.take 5, getA.drop 5, getB], rfl, by decide⟩

def zeroed : WebRequest := ⟨fun _ => 0, 0, false, false, []⟩

theorem responses_agree_iff_two :
    (serverHandlerCoro lineParser zeroed chunkEach.received).1 =
        (serverHandlerCoro lineParser zeroed cutInUrl.received).1 ∧
      (serverHandlerCoro lineParser zeroed chunkEach.received).1 =
        twoRequests.map Request.answered := by
  refine (responses_agree_iff twoRequests_consistent (by decide) zeroed zeroed chunkEach
    cutInUrl).2 ⟨by decide, ?_, ?_⟩
  · exact .inr ⟨[47, 97], by decide +kernel, by decide +kernel,
      .inr ⟨[47, 98], by decide +kernel, by decide +kernel, by unfold Separate; trivial⟩⟩
  · exact .inl ⟨[47], by decide +kernel, .inr ⟨[97], by decide +kernel, by decide +kernel,
      .inr ⟨[47, 98], by decide +kernel, by decide +kernel, by unfold Separate; trivial⟩⟩⟩

/-- **Two requests in one chunk get one response**, for a URL made of both. -/
theorem responses_pipelined :
    lineParser.Consistent twoRequests (getA ++ getB) ∧
      (serverHandlerCoro lineParser zeroed oneChunk.received).1.map Answered.url =
        [[47, 97, 47, 98]] ∧
      (serverHandlerCoro lineParser zeroed chunkEach.received).1.map Answered.url =
        [[47, 97], [47, 98]] ∧
      (serverHandlerCoro lineParser zeroed oneChunk.received).1 ≠
        (serverHandlerCoro lineParser zeroed chunkEach.received).1 := by
  have hone : (serverHandlerCoro lineParser zeroed oneChunk.received).1.map Answered.url =
      [[47, 97, 47, 98]] := by decide +kernel
  have htwo : (serverHandlerCoro lineParser zeroed chunkEach.received).1.map Answered.url =
      [[47, 97], [47, 98]] := by decide +kernel
  refine ⟨twoRequests_consistent, hone, htwo, fun h => ?_⟩
  rw [h, htwo] at hone
  cases hone

end Lwthread.Webserver
