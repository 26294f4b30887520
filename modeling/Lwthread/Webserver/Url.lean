import Lwthread.Lib.CInt
import Mathlib.Data.List.Basic
import Mathlib.Logic.Function.Basic

/-!
# The request URL of the two web servers

Both servers collect the URL of a request in the `url` array of `struct web_request`: the parser calls
`on_url` (`on_parse_url`) with one fragment after another and `on_done` (`on_parse_done`) at the end of
the message. The fragments may fill all 128 bytes, and `on_done` writes its terminator behind them.

The bytes behind `url` are the padding that the server's struct has there and then `url_length`, so a
write past the array may change it. The struct keeps the record of the indices written.
-/

namespace Lwthread.Webserver

/-- The two programs with a `struct web_request`. -/
inductive Server where
  /-- `main.c` -/
  | main
  /-- `eventserv.c` -/
  | eventserv
  deriving DecidableEq

/-- The bytes between `url` and `url_length`: in `main.c` the array starts the struct, in `eventserv.c`
it follows an `int` at an offset that is a multiple of 8. -/
def Server.padding : Server → Nat
  | .main => 0
  | .eventserv => 4

/-- `sizeof(request->url)`. -/
def URL_SIZE : Nat := 128

/-- The fields of `struct web_request` that the callbacks use; `url` goes on into the padding. -/
structure WebRequest where
  url : Nat → UInt8
  urlLength : Nat
  done : Bool
  keepAlive : Bool
  writes : List Nat

/-- A fragment, whose length is a `size_t`. -/
structure Fragment where
  bytes : List UInt8
  fits : bytes.length < 2 ^ 64

/-- The length that the parser passes with the fragment. -/
def Fragment.length (f : Fragment) : Nat := f.bytes.length

/-- The integer `n` with byte `k` of its little-endian form replaced. -/
def setByte (n k : Nat) (b : UInt8) : Nat := n - n / 256 ^ k % 256 * 256 ^ k + b.toNat * 256 ^ k

/-- `request->url[i] = b`. -/
def storeUrl (server : Server) (request : WebRequest) (i : Nat) (b : UInt8) : WebRequest :=
  let request := { request with writes := i :: request.writes }
  let behind := URL_SIZE + server.padding
  if i < behind then { request with url := Function.update request.url i b }
  else if i < behind + 8 then
    { request with urlLength := setByte request.urlLength (i - behind) b }
  else request

/-- `memcpy(&request->url[i], ..)`. -/
def copyUrl (server : Server) (request : WebRequest) (i : Nat) : List UInt8 → WebRequest
  | [] => request
  | b :: bs => copyUrl server (storeUrl server request i b) (i + 1) bs

/-- `on_url` and `on_parse_url`. -/
def onUrl (server : Server) (request : WebRequest) (buffer : Fragment) : Int × WebRequest :=
  if CInt.size (request.urlLength + buffer.length) > URL_SIZE then (-1, request)
  else
    let request := copyUrl server request request.urlLength buffer.bytes
    (0, { request with urlLength := CInt.size (request.urlLength + buffer.length) })

/-- `on_done` and `on_parse_done`, with the answer of `http_should_keep_alive`. -/
def onDone (server : Server) (shouldKeepAlive : Bool) (request : WebRequest) : Int × WebRequest :=
  let request := storeUrl server request request.urlLength 0
  (0, { request with done := true, keepAlive := shouldKeepAlive })

/-- One call of `on_url` after another: their results and the last request. -/
def onUrls (server : Server) (request : WebRequest) : List Fragment → List Int × WebRequest
  | [] => ([], request)
  | f :: fs =>
    let r := onUrl server request f
    let rest := onUrls server r.2 fs
    (r.1 :: rest.1, rest.2)

/-- The request in which a message starts. -/
def startRequest (url : Nat → UInt8) (keepAlive : Bool) : WebRequest := ⟨url, 0, false, keepAlive, []⟩

/-! ## The condition -/

/-- From `n` bytes on: no sum of lengths leaves `size_t`, and the fragments that fit do not fill the
array to the last byte. -/
def Spare (n : Nat) : List Fragment → Prop
  | [] => n ≠ URL_SIZE
  | f :: fs => n + f.length < 2 ^ 64 ∧
      Spare (if n + f.length ≤ URL_SIZE then n + f.length else n) fs

/-- What the callbacks owe for the fragments `fs` and the end of the message: every byte goes into the
array; if nothing was rejected, the array holds the fragments and a terminator; and a fragment that
leaves no room for the terminator is rejected and changes nothing. -/
structure UrlKept (server : Server) (request : WebRequest) (shouldKeepAlive : Bool)
    (fs : List Fragment) : Prop where
  bounded : ∀ i ∈ (onDone server shouldKeepAlive (onUrls server request fs).2).2.writes, i < URL_SIZE
  stored : (∀ code ∈ (onUrls server request fs).1, code ≠ -1) →
    let last := (onDone server shouldKeepAlive (onUrls server request fs).2).2
    let whole := (fs.map Fragment.bytes).flatten
    last.urlLength = whole.length ∧ ((List.range (whole.length + 1)).map last.url) = whole ++ [0]
  rejected : ∀ before f after, fs = before ++ f :: after →
    let reached := (onUrls server request before).2
    URL_SIZE ≤ reached.urlLength + f.length → onUrl server reached f = (-1, reached)

/-! ## The copy -/

section

variable {server : Server} {request : WebRequest} {i j : Nat} {b : UInt8} {bs acc : List UInt8}

theorem size_sum {n k : Nat} (h : n + k < 2 ^ 64) : CInt.size (n + k) = n + k := by
  have := CInt.size_eq_self (x := (n + k : Int)) (by omega) (by omega)
  omega

/-- A sum of lengths that leaves `size_t` comes back below its first summand. -/
theorem size_sum_wraps {n k : Nat} (hn : n ≤ URL_SIZE) (hk : k < 2 ^ 64) (h : 2 ^ 64 ≤ n + k) :
    CInt.size (n + k) < n := by
  unfold URL_SIZE at hn
  unfold CInt.size
  omega

theorem storeUrl_writes : (storeUrl server request i b).writes = i :: request.writes := by
  unfold storeUrl
  dsimp only
  split
  · rfl
  · split <;> rfl

theorem storeUrl_inside (hi : i < URL_SIZE) :
    storeUrl server request i b =
      { request with url := Function.update request.url i b, writes := i :: request.writes } := by
  unfold storeUrl
  dsimp only
  rw [if_pos (by omega)]

theorem mem_copyUrl_writes :
    j ∈ (copyUrl server request i bs).writes ↔ j ∈ request.writes ∨ i ≤ j ∧ j < i + bs.length := by
  induction bs generalizing request i with
  | nil =>
    simp only [copyUrl, List.length_nil]
    constructor
    · exact .inl
    · rintro (h | h)
      · exact h
      · omega
  | cons b bs ih =>
    rw [copyUrl, ih, storeUrl_writes, List.mem_cons, List.length_cons]
    constructor
    · rintro ((rfl | h) | h)
      · exact .inr (by omega)
      · exact .inl h
      · exact .inr (by omega)
    · rintro (h | h)
      · exact .inl (.inr h)
      · by_cases hj : j = i
        · exact .inl (.inl hj)
        · exact .inr (by omega)

theorem range_update (url : Nat → UInt8) :
    (List.range (i + 1)).map (Function.update url i b) = (List.range i).map url ++ [b] := by
  rw [List.range_succ, List.map_append]
  congr 1
  · apply List.map_congr_left
    intro k hk
    exact Function.update_of_ne (List.mem_range.1 hk).ne _ _
  · simp

/-- A copy inside the array appends the bytes to those before it. -/
theorem copyUrl_url (h : i + bs.length ≤ URL_SIZE) :
    (List.range (i + bs.length)).map (copyUrl server request i bs).url =
      (List.range i).map request.url ++ bs := by
  induction bs generalizing request i with
  | nil => simp [copyUrl]
  | cons b bs ih =>
    rw [List.length_cons] at h
    have hstep : (List.range (i + 1 + bs.length)).map
          (copyUrl server (storeUrl server request i b) (i + 1) bs).url =
        (List.range (i + 1)).map (storeUrl server request i b).url ++ bs :=
      ih (by omega)
    rw [copyUrl, List.length_cons, show i + (bs.length + 1) = i + 1 + bs.length by omega, hstep,
      storeUrl_inside (by omega), range_update, List.append_assoc, List.singleton_append]

theorem copyUrl_urlLength (h : i + bs.length ≤ URL_SIZE) :
    (copyUrl server request i bs).urlLength = request.urlLength := by
  induction bs generalizing request i with
  | nil => rfl
  | cons b bs ih =>
    rw [List.length_cons] at h
    rw [copyUrl, ih (by omega), storeUrl_inside (by omega)]

/-! ## The callbacks -/

/-- The request holds the bytes `acc`, all written inside the array. -/
structure Holds (request : WebRequest) (acc : List UInt8) : Prop where
  length : request.urlLength = acc.length
  room : acc.length ≤ URL_SIZE
  bytes : (List.range acc.length).map request.url = acc
  inside : ∀ i ∈ request.writes, i < URL_SIZE

theorem startRequest_holds (url : Nat → UInt8) (keepAlive : Bool) :
    Holds (startRequest url keepAlive) [] where
  length := rfl
  room := Nat.zero_le _
  bytes := rfl
  inside := nofun

variable (server) {f : Fragment} {fs : List Fragment}

/-- The bytes `acc` are in the array, at its start. -/
structure Carries (request : WebRequest) (acc : List UInt8) : Prop where
  length : request.urlLength = acc.length
  room : acc.length ≤ URL_SIZE
  bytes : (List.range acc.length).map request.url = acc

theorem Holds.carries (h : Holds request acc) : Carries request acc := ⟨h.length, h.room, h.bytes⟩

/-- A fragment that does not fit is rejected. -/
theorem Carries.reject (h : Carries request acc) (hsum : acc.length + f.length < 2 ^ 64)
    (hbig : URL_SIZE < acc.length + f.length) : onUrl server request f = (-1, request) := by
  unfold onUrl
  rw [h.length, size_sum hsum, if_pos hbig]

/-- A fragment that fits is copied. -/
theorem Carries.copies (h : Carries request acc) (hfit : acc.length + f.length ≤ URL_SIZE) :
    onUrl server request f =
      (0, { copyUrl server request acc.length f.bytes with
            urlLength := acc.length + f.length }) := by
  have hsum : acc.length + f.length < 2 ^ 64 := by
    unfold URL_SIZE at hfit
    omega
  have hcopy : acc.length + f.bytes.length ≤ URL_SIZE := hfit
  unfold onUrl
  rw [h.length, size_sum hsum, if_neg (by omega)]
  dsimp only
  rw [copyUrl_urlLength hcopy, h.length, size_sum hsum]

/-- A fragment that fits is appended. -/
theorem Carries.accept (h : Carries request acc) (hfit : acc.length + f.length ≤ URL_SIZE) :
    (onUrl server request f).1 = 0 ∧ Carries (onUrl server request f).2 (acc ++ f.bytes) := by
  have hcopy : acc.length + f.bytes.length ≤ URL_SIZE := hfit
  rw [h.copies server hfit]
  refine ⟨rfl, ?_, ?_, ?_⟩
  · rw [List.length_append]
    rfl
  · rw [List.length_append]
    exact hcopy
  · rw [List.length_append]
    exact (copyUrl_url hcopy).trans (by rw [h.bytes])

theorem Holds.reject (h : Holds request acc) (hsum : acc.length + f.length < 2 ^ 64)
    (hbig : URL_SIZE < acc.length + f.length) : onUrl server request f = (-1, request) :=
  h.carries.reject server hsum hbig

/-- A fragment that fits is appended, inside the array. -/
theorem Holds.accept (h : Holds request acc) (hfit : acc.length + f.length ≤ URL_SIZE) :
    (onUrl server request f).1 = 0 ∧ Holds (onUrl server request f).2 (acc ++ f.bytes) := by
  obtain ⟨hcode, hnext⟩ := h.carries.accept server hfit
  refine ⟨hcode, hnext.length, hnext.room, hnext.bytes, ?_⟩
  rw [h.carries.copies server hfit]
  intro k hk
  rcases mem_copyUrl_writes.1 hk with hk | hk
  · exact h.inside k hk
  · have hcopy : acc.length + f.bytes.length ≤ URL_SIZE := hfit
    omega

/-- A fragment whose length takes the sum out of `size_t` is copied past the array. -/
theorem Holds.wrap (h : Holds request acc) (hsum : 2 ^ 64 ≤ acc.length + f.length) :
    ∃ k ∈ (onUrl server request f).2.writes, URL_SIZE ≤ k := by
  have hroom := h.room
  have hlt : CInt.size (acc.length + f.length) < acc.length := size_sum_wraps hroom f.fits hsum
  unfold onUrl
  rw [h.length, if_neg (by omega)]
  unfold URL_SIZE at *
  refine ⟨acc.length + f.length - 1, mem_copyUrl_writes.2 (.inr ⟨?_, ?_⟩), ?_⟩
  · omega
  · show _ < acc.length + f.length
    omega
  · omega

theorem onUrl_writes_mono (hj : j ∈ request.writes) : j ∈ (onUrl server request f).2.writes := by
  unfold onUrl
  split
  · exact hj
  · exact mem_copyUrl_writes.2 (.inl hj)

theorem onUrls_writes_mono (hj : j ∈ request.writes) : j ∈ (onUrls server request fs).2.writes := by
  induction fs generalizing request with
  | nil => exact hj
  | cons f fs ih => exact ih (onUrl_writes_mono server hj)

theorem onDone_writes (shouldKeepAlive : Bool) :
    (onDone server shouldKeepAlive request).2.writes = request.urlLength :: request.writes :=
  storeUrl_writes

/-- A full array stays full. -/
theorem not_spare_full (fs : List Fragment) : ¬Spare URL_SIZE fs := by
  induction fs with
  | nil => exact fun h => h rfl
  | cons f fs ih =>
    rintro ⟨-, hrest⟩
    split at hrest
    · rename_i hle
      rw [show f.length = 0 by omega, Nat.add_zero] at hrest
      exact ih hrest
    · exact ih hrest

/-- The bytes held after some of the fragments: all of them, if none was rejected. -/
theorem Holds.after (h : Holds request acc) {rest : List Fragment}
    (hspare : Spare acc.length (fs ++ rest)) :
    ∃ acc', Holds (onUrls server request fs).2 acc' ∧ Spare acc'.length rest ∧
      ((∀ code ∈ (onUrls server request fs).1, code ≠ -1) →
        acc' = acc ++ (fs.map Fragment.bytes).flatten) := by
  induction fs generalizing request acc with
  | nil => exact ⟨acc, h, hspare, fun _ => (List.append_nil acc).symm⟩
  | cons f fs ih =>
    obtain ⟨hsum, hspare⟩ := hspare
    by_cases hfit : acc.length + f.length ≤ URL_SIZE
    · rw [if_pos hfit] at hspare
      obtain ⟨-, hnext⟩ := h.accept server hfit
      obtain ⟨acc', hacc, hrest, hwhole⟩ :=
        ih hnext (by rw [List.length_append]; exact hspare)
      refine ⟨acc', hacc, hrest, fun hcodes => ?_⟩
      rw [hwhole fun code hcode => hcodes code (List.mem_cons_of_mem _ hcode), List.append_assoc]
      rfl
    · rw [if_neg hfit] at hspare
      have hrej := h.reject server hsum (by omega)
      obtain ⟨acc', hacc, hrest, -⟩ := ih h hspare
      refine ⟨acc', ?_, hrest, fun hcodes => ?_⟩
      · rw [onUrls, hrej]
        exact hacc
      · refine absurd rfl (hcodes (-1) ?_)
        rw [onUrls, hrej]
        exact List.mem_cons_self

/-- Every byte goes into the array exactly if the fragments leave room for the terminator. -/
theorem Holds.bounded_iff (h : Holds request acc) (shouldKeepAlive : Bool) :
    (∀ i ∈ (onDone server shouldKeepAlive (onUrls server request fs).2).2.writes, i < URL_SIZE) ↔
      Spare acc.length fs := by
  induction fs generalizing request acc with
  | nil =>
    rw [onDone_writes, onUrls, h.length, List.forall_mem_cons]
    constructor
    · rintro ⟨hlt, -⟩
      exact hlt.ne
    · exact fun hne => ⟨lt_of_le_of_ne h.room hne, h.inside⟩
  | cons f fs ih =>
    by_cases hsum : acc.length + f.length < 2 ^ 64
    · by_cases hfit : acc.length + f.length ≤ URL_SIZE
      · obtain ⟨-, hnext⟩ := h.accept server hfit
        rw [onUrls, Spare, if_pos hfit, and_iff_right hsum]
        have hlen : (acc ++ f.bytes).length = acc.length + f.length := List.length_append
        exact hlen ▸ ih hnext
      · rw [onUrls, h.reject server hsum (by omega), Spare, if_neg hfit, and_iff_right hsum]
        exact ih h
    · obtain ⟨k, hk, hlarge⟩ := h.wrap server (f := f) (by omega)
      constructor
      · intro hall
        have hin : k ∈ (onUrls server (onUrl server request f).2 fs).2.writes :=
          onUrls_writes_mono server hk
        rw [onDone_writes] at hall
        exact absurd (hall k (List.mem_cons_of_mem _ hin)) (by omega)
      · exact fun hspare => absurd hspare.1 hsum

end

/-- **The URL buffer.** In both servers, whatever the fragments, the callbacks write inside the array,
store the fragments with a terminator unless they reject one, and reject without a trace what does not
fit, exactly when no sum of lengths leaves `size_t` and the accepted fragments do not make exactly 128
bytes. -/
theorem url_kept_iff (server : Server) (url : Nat → UInt8) (keepAlive shouldKeepAlive : Bool)
    (fs : List Fragment) :
    UrlKept server (startRequest url keepAlive) shouldKeepAlive fs ↔ Spare 0 fs := by
  have hstart := startRequest_holds url keepAlive
  constructor
  · intro hkept
    exact (hstart.bounded_iff server shouldKeepAlive).1 hkept.bounded
  · intro hspare
    refine ⟨(hstart.bounded_iff server shouldKeepAlive).2 hspare, ?_, ?_⟩
    · intro hcodes
      obtain ⟨acc, hacc, hlast, hwhole⟩ :=
        hstart.after server (show Spare 0 (fs ++ []) by rwa [List.append_nil])
      have hlt : acc.length < URL_SIZE := lt_of_le_of_ne hacc.room hlast
      have heq : acc = (fs.map Fragment.bytes).flatten := hwhole hcodes
      rw [← heq]
      unfold onDone
      rw [hacc.length, storeUrl_inside hlt]
      exact ⟨hacc.length, by rw [range_update, hacc.bytes]⟩
    · intro before f after hfs reached hfull
      subst hfs
      obtain ⟨acc, hacc, ⟨hsum, hrest⟩, -⟩ := hstart.after server hspare
      have hlen : reached.urlLength = acc.length := hacc.length
      refine hacc.reject server hsum ?_
      -- a fragment that filled the array would leave no room later
      by_contra hle
      have heq : acc.length + f.length = URL_SIZE := by omega
      rw [heq, if_pos le_rfl] at hrest
      exact not_spare_full after hrest

/-- One fragment of 128 bytes. -/
def fullUrl : Fragment := ⟨List.replicate 128 47, by decide +kernel⟩

/-- The terminator of a URL of 128 bytes is written to index 128; in `main.c` that is the low byte of
`url_length`, which becomes 0. -/
theorem url_overrun :
    let last := fun server => (onDone server true (onUrls server (startRequest (fun _ => 0) true) [fullUrl]).2).2
    (onUrls .main (startRequest (fun _ => 0) true) [fullUrl]).1 = [0] ∧
      (∀ server, 128 ∈ (last server).writes) ∧
      (last .main).urlLength = 0 ∧ (last .eventserv).urlLength = 128 ∧
      ∀ server, ¬UrlKept server (startRequest (fun _ => 0) true) true [fullUrl] := by
  intro last
  have hwrites : ∀ server, 128 ∈ (last server).writes := by
    intro server
    cases server <;> decide +kernel
  refine ⟨by decide +kernel, hwrites, by decide +kernel, by decide +kernel, fun server hkept => ?_⟩
  exact absurd (hkept.bounded 128 (hwrites server)) (by decide)

end Lwthread.Webserver
