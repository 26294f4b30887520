import Lwthread.Webserver.EventLib

/-!
# When a buffer counts as sent

`send_all` of `main.c` returns 0 once every byte of its buffer has been accepted. `async_send` of
`eventlib.c` reports a buffer as sent to `on_write`, by a result that is not negative. On the deferred
path `handle_write` counts what has been accepted and reports the buffer with its last byte; on the
immediate path the first count is reported, short or not (`send_reports_iff`). A socket error that reads
as 0 is reported like a success.
-/

namespace Lwthread.Webserver

open Lwthread.Platform

/-- `send_all`, with what each `send` answers: what it returns, if it returns, and the bytes accepted. -/
def sendAll (buffer : List UInt8) : List Answer → Option Int × List UInt8
  | [] => if buffer = [] then (some 0, []) else (none, [])
  | answer :: answers =>
    if buffer = [] then (some 0, [])
    else
      match answer with
      | .error errno => if errno = EINTR then sendAll buffer answers else (some (-1), [])
      | .value n =>
        let sent := min n buffer.length
        let rest := sendAll (buffer.drop sent) answers
        (rest.1, buffer.take sent ++ rest.2)

/-- `async_send` and, if it arms the waiter, `handle_event` for one event after another. -/
def sendEffects (answer : Answer) (buffer : List UInt8) (waiter : Waiter) (events : List Event) :
    List Effect :=
  let r := asyncSend answer buffer waiter
  r.2.2 ++ if rearmed r.2.2 then handleEvents r.2.1 events else []

/-- From `accepted` on, a result that is not negative is reported only when the bytes accepted are those
of the buffer, in order and once. -/
def Truthful (buffer accepted : List UInt8) : List Effect → Prop
  | [] => True
  | .sent bytes :: es => Truthful buffer (accepted ++ bytes) es
  | .callback result :: es => (0 ≤ result → accepted = buffer) ∧ Truthful buffer accepted es
  | .arm :: es => Truthful buffer accepted es
  | .abort :: es => Truthful buffer accepted es

/-- No event reports a socket error that reads as 0 while `remaining` bytes are to be sent. -/
def NoSilentError (remaining : Nat) : List Event → Prop
  | [] => True
  | event :: events =>
    if event.epollerr then event.soError ≠ .value 0
    else if !event.epollout then True
    else
      match event.answer with
      | .error _ => NoSilentError remaining events
      | .value n => n < remaining → NoSilentError (remaining - n) events

/-- The first `send` takes the whole buffer or nothing, and if the write is deferred, no socket error
reads as 0 while bytes remain. -/
def SendsWhole (answer : Answer) (length : Nat) (events : List Event) : Prop :=
  match answer with
  | .value n => length ≤ n
  | .error errno => errno = EAGAIN ∨ errno = EWOULDBLOCK → NoSilentError length events

section

variable {buffer accepted : List UInt8} {waiter : Waiter}

/-- `send_all` succeeds only once the whole buffer has been accepted. -/
theorem sendAll_sent (answers : List Answer) (h : (sendAll buffer answers).1 = some 0) :
    (sendAll buffer answers).2 = buffer := by
  induction answers generalizing buffer with
  | nil =>
    unfold sendAll at h ⊢
    split at h
    · rename_i hnil
      rw [hnil]
      rfl
    · cases h
  | cons answer answers ih =>
    unfold sendAll at h ⊢
    by_cases hnil : buffer = []
    · rw [if_pos hnil, hnil]
    · rw [if_neg hnil] at h ⊢
      cases answer with
      | error errno =>
        dsimp only at h ⊢
        split at h
        · rename_i hint
          rw [if_pos hint]
          exact ih h
        · cases h
      | value n =>
        dsimp only at h ⊢
        rw [ih h, List.take_append_drop]

theorem socketErrno_nonneg_iff (a : Answer) : 0 ≤ socketErrno a ↔ a = .value 0 := by
  cases a with
  | value error => simp [socketErrno]
  | error errno =>
    have := errno.pos
    simp only [socketErrno, reduceCtorEq, iff_false]
    omega

/-- The pending write of `buffer`: the waiter knows how much has been accepted, and that is not all. -/
structure Pending (buffer : List UInt8) (waiter : Waiter) : Prop where
  type : waiter.waitType = .write
  data : waiter.buffer = buffer
  length : waiter.length = buffer.length
  short : waiter.numWritten < buffer.length

theorem Pending.handleEvent_eq (h : Pending buffer waiter) (event : Event) :
    handleEvent event waiter = handleWrite event waiter := by
  rw [handleEvent, h.type]

/-- An incomplete write has not sent the buffer. -/
theorem Pending.take_ne (h : Pending buffer waiter) : buffer.take waiter.numWritten ≠ buffer := by
  intro heq
  have hlen := congrArg List.length heq
  have := h.short
  rw [List.length_take] at hlen
  omega

section

variable {event : Event} {n : Nat}

/-- A short count leaves the write pending. -/
theorem Pending.advance (h : Pending buffer waiter) (hn : n < buffer.length - waiter.numWritten) :
    Pending buffer { waiter with numWritten := waiter.numWritten + n } where
  type := h.type
  data := h.data
  length := h.length
  short := by
    show waiter.numWritten + n < buffer.length
    omega

theorem Pending.handleWrite_short (h : Pending buffer waiter) (herr : event.epollerr ≠ true)
    (hout : (!event.epollout) ≠ true) (hans : event.answer = .value n)
    (hn : n < buffer.length - waiter.numWritten) :
    handleWrite event waiter = ({ waiter with numWritten := waiter.numWritten + n },
      [.sent ((buffer.drop waiter.numWritten).take n), .arm]) := by
  rw [handleWrite, if_neg herr, if_neg hout, hans]
  simp only [h.length, h.data, min_eq_left hn.le]
  rw [if_neg (by omega)]

theorem Pending.handleWrite_last (h : Pending buffer waiter) (herr : event.epollerr ≠ true)
    (hout : (!event.epollout) ≠ true) (hans : event.answer = .value n)
    (hn : buffer.length - waiter.numWritten ≤ n) :
    handleWrite event waiter = ({ waiter with numWritten := buffer.length },
      [.sent (buffer.drop waiter.numWritten), .callback (buffer.length - waiter.numWritten : Nat)]) := by
  have hshort := h.short
  have hall : (buffer.drop waiter.numWritten).take (buffer.length - waiter.numWritten) =
      buffer.drop waiter.numWritten :=
    List.take_of_length_le (by rw [List.length_drop])
  have hsum : waiter.numWritten + (buffer.length - waiter.numWritten) = buffer.length := by omega
  rw [handleWrite, if_neg herr, if_neg hout, hans]
  simp only [h.length, h.data, min_eq_right hn, hall, hsum]
  rw [if_pos trivial]

end

/-- **The deferred path** reports the buffer only with its last byte, unless a socket error reads as
0. -/
theorem Pending.truthful_iff (h : Pending buffer waiter) (events : List Event) :
    Truthful buffer (buffer.take waiter.numWritten) (handleEvents waiter events) ↔
      NoSilentError (buffer.length - waiter.numWritten) events := by
  induction events generalizing waiter with
  | nil => exact Iff.rfl
  | cons event events ih =>
    rw [handleEvents, h.handleEvent_eq, NoSilentError]
    by_cases herr : event.epollerr = true
    · have hne := h.take_ne
      rw [handleWrite, if_pos herr, if_pos herr]
      show (_ → _) ∧ True ↔ _
      rw [and_true, socketErrno_nonneg_iff]
      exact ⟨fun himp heq => hne (himp heq), fun hnot heq => absurd heq hnot⟩
    · rw [if_neg herr]
      by_cases hout : (!event.epollout) = true
      · rw [handleWrite, if_neg herr, if_pos hout, if_pos hout]
        exact Iff.rfl
      · rw [if_neg hout]
        cases hans : event.answer with
        | error errno =>
          have hpos := errno.pos
          rw [handleWrite, if_neg herr, if_neg hout, hans]
          dsimp only
          split
          · show (_ → _) ∧ Truthful buffer _ (handleEvents waiter events) ↔ _
            rw [ih h, and_iff_right (fun hle => by omega)]
          · exact ih h
        | value n =>
          by_cases hn : n < buffer.length - waiter.numWritten
          · have hnext := ih (h.advance hn)
            rw [h.handleWrite_short herr hout hans hn]
            show Truthful buffer (_ ++ _) (handleEvents _ events) ↔ _
            rw [← List.take_add, hnext, Nat.sub_add_eq]
            exact ⟨fun hs _ => hs, fun hs => hs hn⟩
          · rw [h.handleWrite_last herr hout hans (by omega)]
            show ((_ → _ ++ _ = buffer) ∧ True) ↔ _
            rw [List.take_append_drop]
            exact ⟨fun _ hlt => absurd hlt hn, fun _ => ⟨fun _ => rfl, trivial⟩⟩

end

/-- **When a buffer counts as sent.** `send_all` returns 0 only once the whole buffer has been accepted;
`async_send` and `handle_write` report a result that is not negative only then, exactly when the first
`send` does not take a part of the buffer and no socket error reads as 0 while a deferred write is
pending. -/
theorem send_reports_iff (buffer : List UInt8) (hn : 0 < buffer.length) :
    (∀ answers, (sendAll buffer answers).1 = some 0 → (sendAll buffer answers).2 = buffer) ∧
    ∀ answer waiter events, Truthful buffer [] (sendEffects answer buffer waiter events) ↔
      SendsWhole answer buffer.length events := by
  refine ⟨fun answers => sendAll_sent answers, fun answer waiter events => ?_⟩
  unfold sendEffects asyncSend SendsWhole
  cases answer with
  | value n =>
    show ((_ → _) ∧ True) ↔ _
    rw [and_true, List.nil_append]
    constructor
    · intro himp
      have hlen := congrArg List.length (himp (by omega))
      rw [List.length_take] at hlen
      omega
    · intro hle _
      rw [min_eq_right hle, List.take_length]
  | error errno =>
    dsimp only
    split
    · rename_i hhard
      refine iff_of_true trivial fun hsoft => ?_
      rcases hsoft with hsoft | hsoft
      · exact absurd hsoft hhard.1
      · exact absurd hsoft hhard.2
    · rename_i hsoft
      have hpend : Pending buffer ⟨.write, buffer, buffer.length, 0⟩ := ⟨rfl, rfl, rfl, hn⟩
      have hiff := hpend.truthful_iff events
      show Truthful buffer [] (handleEvents _ events) ↔ _
      rw [List.take_zero, Nat.sub_zero] at hiff
      rw [hiff]
      have hcond : errno = EAGAIN ∨ errno = EWOULDBLOCK := by
        by_contra hne
        rw [not_or] at hne
        exact hsoft hne
      exact ⟨fun h _ => h, fun h => h hcond⟩

/-- Three bytes: deferred, then accepted two and one. -/
theorem send_reports_iff_deferred :
    Truthful [1, 2, 3] [] (sendEffects (.error EAGAIN) [1, 2, 3] ⟨.read, [], 0, 0⟩
      [⟨false, false, true, .value 0, .value 2⟩, ⟨false, false, true, .value 0, .value 8⟩]) :=
  ((send_reports_iff [1, 2, 3] (by decide)).2 _ _ _).2 fun _ _ _ => trivial

/-- The first `send` takes one byte of three, and the buffer is reported. -/
theorem send_reports_short :
    sendEffects (.value 1) [1, 2, 3] ⟨.read, [], 0, 0⟩ [] = [.sent [1], .callback 1] ∧
      ¬Truthful [1, 2, 3] [] (sendEffects (.value 1) [1, 2, 3] ⟨.read, [], 0, 0⟩ []) := by
  refine ⟨by decide, fun h => ?_⟩
  exact absurd (h.1 (by decide)) (by decide)

end Lwthread.Webserver
