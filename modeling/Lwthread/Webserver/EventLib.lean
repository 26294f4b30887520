import Lwthread.Platform.Syscall
import Mathlib.Data.List.Basic

/-!
# The callback library of `eventlib.c`

An operation on a waiter is tried at once; if it would block, the waiter is armed and `handle_event`
finishes the operation when the socket is ready. The functions below list what a call does, in order
(`Effect`): bytes that the kernel accepts, calls of the waiter's callback, and `arm_waiter`. What a
callback does in turn is the business of its module.

A system call answers with a count or with an `errno`. A count stands for what the kernel has or has
room for, so that `send` and `recv` return the smaller of it and the length asked for. `flags` goes to
the system calls only and is left out.
-/

namespace Lwthread.Webserver

open Lwthread.Platform

/-- `enum wait_type`. -/
inductive WaitType where
  | accept
  | read
  | write
  deriving DecidableEq

/-- An event of `epoll_wait`, with what the system calls made for it answer: `getsockopt` for
`SO_ERROR`, and `accept4`, `recv` or `send`. -/
structure Event where
  epollerr : Bool
  epollin : Bool
  epollout : Bool
  soError : Answer
  answer : Answer
  deriving DecidableEq

/-- `struct waiter`, with the bytes that its buffer points to. -/
structure Waiter where
  waitType : WaitType
  buffer : List UInt8
  length : Nat
  numWritten : Nat
  deriving DecidableEq

/-- What a function of the library does to the world. -/
inductive Effect where
  /-- `send` has accepted the bytes -/
  | sent (bytes : List UInt8)
  /-- the waiter's callback is called -/
  | callback (result : Int)
  /-- `arm_waiter` -/
  | arm
  /-- an assertion fails -/
  | abort
  deriving DecidableEq

/-- `socket_errno`. -/
def socketErrno : Answer → Int
  | .value error => -error
  | .error errno => -(errno : Nat)

/-- `handle_accept`. -/
def handleAccept (event : Event) (waiter : Waiter) : Waiter × List Effect :=
  if event.epollerr then (waiter, [.callback (socketErrno event.soError)])
  else if !event.epollin then (waiter, [.abort])
  else
    match event.answer with
    | .error errno =>
      (waiter, (if errno ≠ EAGAIN ∨ errno ≠ EWOULDBLOCK then [.callback (-(errno : Nat))] else []) ++
        [.arm])
    | .value newSock => (waiter, [.callback newSock])

/-- `handle_read`. -/
def handleRead (event : Event) (waiter : Waiter) : Waiter × List Effect :=
  if event.epollerr then (waiter, [.callback (socketErrno event.soError)])
  else if !event.epollin then (waiter, [.abort])
  else
    match event.answer with
    | .error errno =>
      (waiter, (if errno ≠ EAGAIN ∧ errno ≠ EWOULDBLOCK then [.callback (-(errno : Nat))] else []) ++
        [.arm])
    | .value n => (waiter, [.callback (min n waiter.length : Nat)])

/-- `handle_write`. -/
def handleWrite (event : Event) (waiter : Waiter) : Waiter × List Effect :=
  if event.epollerr then (waiter, [.callback (socketErrno event.soError)])
  else if !event.epollout then (waiter, [.abort])
  else
    let remaining := waiter.length - waiter.numWritten
    match event.answer with
    | .error errno =>
      (waiter, (if errno ≠ EAGAIN ∧ errno ≠ EWOULDBLOCK then [.callback (-(errno : Nat))] else []) ++
        [.arm])
    | .value n =>
      let numWritten := min n remaining
      let sent := .sent ((waiter.buffer.drop waiter.numWritten).take numWritten)
      let waiter := { waiter with numWritten := waiter.numWritten + numWritten }
      if waiter.numWritten = waiter.length then (waiter, [sent, .callback numWritten])
      else (waiter, [sent, .arm])

/-- `handle_event`, after its `EPOLL_CTL_DEL`. -/
def handleEvent (event : Event) (waiter : Waiter) : Waiter × List Effect :=
  match waiter.waitType with
  | .accept => handleAccept event waiter
  | .read => handleRead event waiter
  | .write => handleWrite event waiter

/-- `async_accept`: the value returned, and what `handle_event` does. -/
def asyncAccept (answer : Answer) (waiter : Waiter) : Int × Waiter × List Effect :=
  match answer with
  | .value newSock => (newSock, waiter, [.callback newSock])
  | .error errno =>
    if errno ≠ EAGAIN ∧ errno ≠ EWOULDBLOCK then (-(errno : Nat), waiter, [])
    else (0, { waiter with waitType := .accept }, [.arm])

/-- `async_recv`. -/
def asyncRecv (answer : Answer) (length : Nat) (waiter : Waiter) : Int × Waiter × List Effect :=
  match answer with
  | .value n => ((min n length : Nat), waiter, [.callback (min n length : Nat)])
  | .error errno =>
    if errno ≠ EAGAIN ∧ errno ≠ EWOULDBLOCK then (-(errno : Nat), waiter, [])
    else (0, { waiter with waitType := .read, length := length }, [.arm])

/-- `async_send`. -/
def asyncSend (answer : Answer) (buffer : List UInt8) (waiter : Waiter) :
    Int × Waiter × List Effect :=
  match answer with
  | .value n =>
    let numWritten := min n buffer.length
    (numWritten, waiter, [.sent (buffer.take numWritten), .callback numWritten])
  | .error errno =>
    if errno ≠ EAGAIN ∧ errno ≠ EWOULDBLOCK then (-(errno : Nat), waiter, [])
    else (0, ⟨.write, buffer, buffer.length, 0⟩, [.arm])

/-- The waiter is armed after these effects. -/
def rearmed (es : List Effect) : Bool := es.contains .arm

/-- `handle_event` for one event after another, as long as it arms the waiter again. -/
def handleEvents (waiter : Waiter) : List Event → List Effect
  | [] => []
  | event :: events =>
    let r := handleEvent event waiter
    r.2 ++ if rearmed r.2 then handleEvents r.1 events else []

end Lwthread.Webserver
