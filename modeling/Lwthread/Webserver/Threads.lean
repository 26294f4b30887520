import Lwthread.Webserver.EventServRuns

/-!
# The threads of `eventserv.c`

The callback server runs `async_run_loop` on several threads that share one epoll descriptor, one
waiter for the listening socket, and the connections. `epoll_wait` hands the event of a registered
socket to one thread, which then serves its waiter until it is armed again (`EPOLLONESHOT`).

`on_accept` calls `async_accept` before it sets its own socket up, and `async_accept` calls
`on_accept` for the next socket that is there. So a thread may have any number of sockets that are
accepted and not set up, and sets the last one up first.

A step is a return of `epoll_wait`, the handler of an event, a callback of a connection (`servStep`),
a call of `async_accept`, or the set-up of a socket. Arming a waiter or closing a socket is the last
thing that a step does to it, so that another thread may go on with it at once.
-/

namespace Lwthread.Webserver

open Lwthread.Platform

/-! ## The state of the server -/

/-- Whose waiter `data.ptr` of an event is. A connection is named by its socket. -/
inductive Origin where
  | listener
  | connection (fd : Nat)
  deriving DecidableEq

/-- What a thread does: it is in `async_run_loop`, in `on_accept` (or `main`) before its call of
`async_accept`, in `on_accept` after it, or in the callbacks of a connection. -/
inductive Doing where
  | loop
  | accept
  | setUp
  | serve (fd : Nat)
  deriving DecidableEq

/-- A thread: the events that it has got and not handled, and the sockets of the calls of `on_accept`
that it is in, the innermost first. -/
structure Worker where
  batch : List Origin
  sockets : List Nat
  doing : Doing

/-- The server: the waiter of the listening socket and whether it is registered; the registrations whose
event has been delivered; the open descriptors; the connections, those that are closed too until their
descriptor is used again; the threads. -/
structure Pool (τ σ : Type) where
  waiter : Waiter
  listening : Bool
  delivered : Origin → Bool
  opened : Nat → Bool
  conns : Nat → Option (Serv σ)
  workers : τ → Worker
  stop : Option ServStop

/-- What a thread does next, with what the kernel answers. A step of a connection is one of its
callbacks, or the handler of its event. -/
inductive PoolInput (σ : Type) where
  | poll (events : List Origin)
  | pollError
  | event (event : Event)
  | accept (answer : Answer)
  | setUp (garbage : ServRequest σ) (received : Received)
  | serve (i : ServInput)

/-- `MAX_EVENTS` of `eventlib.c`. -/
def MAX_EVENTS : Nat := 128

/-! ## Steps -/

/-- The thread goes on with the next socket to set up, or with its loop. -/
def Worker.back (w : Worker) : Worker := { w with doing := if w.sockets = [] then .loop else .setUp }

/-- The connection that a thread is to go on with. -/
def Worker.connection (w : Worker) : Option Nat :=
  match w.doing, w.batch with
  | .serve fd, _ => some fd
  | .loop, .connection fd :: _ => some fd
  | _, _ => none

namespace Pool

variable {τ σ : Type} (p : Pool τ σ)

def fail (stop : ServStop) : Pool τ σ := { p with stop := some stop }

/-- The waiter is registered with the epoll descriptor. -/
def registered : Origin → Bool
  | .listener => p.listening
  | .connection fd => (p.conns fd).any (·.armed)

/-- `arm_waiter` for the listening socket. -/
def arm : Pool τ σ := if p.listening then p.fail (.misuse .armedTwice) else { p with listening := true }

/-- A descriptor that `accept4` returns has not been open. -/
def gives : Answer → Bool
  | .value newSock => !p.opened newSock
  | .error _ => true

variable [DecidableEq τ] (t : τ)

def setWorker (w : Worker) : Pool τ σ := { p with workers := Function.update p.workers t w }

/-- The thread takes the first event of its batch, and its waiter off the epoll descriptor. -/
def take (o : Origin) (rest : List Origin) : Pool τ σ :=
  { p with delivered := Function.update p.delivered o false }.setWorker t
    { p.workers t with batch := rest }

/-- A step of a connection has come to `s`. The thread goes on with it if a callback is called. -/
def settle (fd : Nat) (s : Serv σ) : Pool τ σ :=
  let w := p.workers t
  { p with
    opened := Function.update p.opened fd s.live
    conns := Function.update p.conns fd (some s)
    stop := s.stop }.setWorker t
      (if s.call.isSome || s.rearm then { w with doing := .serve fd } else w.back)

/-- `async_accept` and `handle_accept`, with `on_accept` up to its call of `async_accept`. What follows
a callback does not matter: it follows an error, and `on_accept` then ends the program. -/
def performAccept : List Effect → Pool τ σ → Pool τ σ
  | [], p => p.setWorker t (p.workers t).back
  | .callback sock :: _, p =>
    if sock < 0 then p.fail .exited
    else
      let w := p.workers t
      { p with opened := Function.update p.opened sock.toNat true }.setWorker t
        { w with sockets := sock.toNat :: w.sockets, doing := .accept }
  | .arm :: es, p => performAccept es p.arm
  | .sent _ :: es, p => performAccept es p
  | .abort :: _, p => p.fail (.misuse .assertion)

/-- `epoll_wait` returns events of registered sockets, each once. -/
def poll (events : List Origin) : Option (Pool τ σ) :=
  if events.Nodup ∧ events.length ≤ Webserver.MAX_EVENTS ∧
      ∀ o ∈ events, p.registered o = true ∧ p.delivered o = false then
    some ({ p with delivered := fun o => p.delivered o || decide (o ∈ events) }.setWorker t
      { p.workers t with batch := events })
  else none

/-- `handle_event` for the listening socket. -/
def handleAccept (rest : List Origin) (event : Event) : Option (Pool τ σ) :=
  if p.gives event.answer then
    let r := Webserver.handleAccept event p.waiter
    some (performAccept t r.2 { p.take t .listener rest with waiter := r.1, listening := false })
  else none

/-- `async_accept` in `on_accept`, or in `main`. -/
def asyncAccept (answer : Answer) : Option (Pool τ σ) :=
  if p.gives answer then
    let r := Webserver.asyncAccept answer p.waiter
    let p := { p with waiter := r.2.1 }
    some (if r.1 < 0 then p.fail .exited else p.performAccept t r.2.2)
  else none

/-- A step of the connection `fd`. -/
def serve (http : HttpParser σ) (fd : Nat) (i : ServInput) : Option (Pool τ σ) :=
  match p.conns fd with
  | none => some (p.fail (.misuse .usedAfterFree))
  | some s => (servStep http s i).map (p.settle t fd)

end Pool

section

variable {τ σ : Type} [DecidableEq τ] (http : HttpParser σ)

/-- One step of the thread `t`. -/
def poolStep (p : Pool τ σ) (t : τ) (i : PoolInput σ) : Option (Pool τ σ) :=
  let w := p.workers t
  if p.stop.isSome then none
  else
    match w.doing, i with
    | .loop, .poll events => if w.batch = [] then p.poll t events else none
    | .loop, .pollError => if w.batch = [] then some (p.fail .exited) else none
    | .loop, .event event =>
      match w.batch with
      | .listener :: rest =>
        -- `handle_event` asserts that the waiter was registered
        if p.listening then p.handleAccept t rest event else some (p.fail (.misuse .assertion))
      | _ => none
    | .loop, .serve i =>
      match w.batch with
      | .connection fd :: rest =>
        -- a waiter that is not registered is one that has been freed, or is not the one of the event
        if p.registered (.connection fd) then (p.take t (.connection fd) rest).serve t http fd i
        else some (p.fail (.misuse .usedAfterFree))
      | _ => none
    | .accept, .accept answer => p.asyncAccept t answer
    | .setUp, .setUp garbage received =>
      match w.sockets with
      | [] => none
      | fd :: rest =>
        some ((p.setWorker t { w with sockets := rest }).settle t fd (onAccept http garbage received))
    | .serve fd, .serve i => p.serve t http fd i
    | _, _ => none

/-- The start: the thread `main` calls `async_accept`, the others are in their loops, and the
descriptors `opened` are open. -/
def poolInit (waiter : Waiter) (opened : Nat → Bool) (main : τ) : Pool τ σ where
  waiter := waiter
  listening := false
  delivered := fun _ => false
  opened := opened
  conns := fun _ => none
  workers := fun t => ⟨[], [], if t = main then .accept else .loop⟩
  stop := none

/-- The events of the listening socket are `EPOLLIN` or `EPOLLERR`, the latter with an error, and the
steps of connections meet `ok`. -/
def PoolInput.Ok (ok : Serv σ → ServInput → Prop) (p : Pool τ σ) (t : τ) : PoolInput σ → Prop
  | .event e => (e.epollerr = true ∨ e.epollin = true) ∧ (e.epollerr = true → socketErrno e.soError < 0)
  | .serve i => ∀ fd s, (p.workers t).connection = some fd → p.conns fd = some s → ok s i
  | _ => True

inductive PoolRun (ok : Serv σ → ServInput → Prop) (waiter : Waiter) (opened : Nat → Bool) (main : τ) :
    Pool τ σ → Prop
  | init : PoolRun ok waiter opened main (poolInit waiter opened main)
  | step {p p' t i} (h : PoolRun ok waiter opened main p) (hok : i.Ok ok p t)
      (hs : poolStep http p t i = some p') : PoolRun ok waiter opened main p'

end

/-! ## In whose hands a waiter is -/

/-- Where a waiter is: registered, with its event to come; in the batch of a thread; not set up yet, in
a call of `on_accept`; or served by a thread. -/
inductive Place (τ : Type) where
  | epoll
  | batch (t : τ)
  | frame (t : τ)
  | serve (t : τ)

section

variable {τ σ : Type}

/-- What a thread does that has the waiter in its hands. -/
def Origin.doing : Origin → Doing
  | .listener => .accept
  | .connection fd => .serve fd

/-- The waiter is at the place. -/
def Pool.At (p : Pool τ σ) (o : Origin) : Place τ → Prop
  | .epoll => p.registered o = true ∧ p.delivered o = false
  | .batch t => o ∈ (p.workers t).batch
  | .frame t => ∃ fd ∈ (p.workers t).sockets, o = .connection fd
  | .serve t => (p.workers t).doing = o.doing

/-- Every waiter but `x` is at its place and nowhere else: the waiter of the listening socket, and those
of the descriptors that are open and have not been from the start. -/
structure Placed (opened : Nat → Bool) (x : Option Origin) (p : Pool τ σ)
    (place : Origin → Option (Place τ)) : Prop where
  at_iff : ∀ {o}, some o ≠ x → ∀ pl, p.At o pl ↔ place o = some pl
  listener : some .listener ≠ x → place .listener ≠ none
  open_iff : ∀ {fd}, some (.connection fd) ≠ x →
    (place (.connection fd) ≠ none ↔ p.opened fd = true ∧ opened fd = false)
  base : ∀ {fd}, opened fd = true → p.opened fd = true
  delivered : ∀ o, p.delivered o = true ↔ ∃ t, o ∈ (p.workers t).batch
  batched : ∀ {o t}, o ∈ (p.workers t).batch → p.registered o = true
  served : ∀ {t fd}, (p.workers t).doing = .serve fd → ∃ s, p.conns fd = some s ∧ s.live = true
  nodup : ∀ t, (p.workers t).batch.Nodup
  distinct : ∀ t, (p.workers t).sockets.Nodup
  running : ∀ {fd s}, p.conns fd = some s → s.stop = none

variable {opened : Nat → Bool} {x : Option Origin} {p p' : Pool τ σ} {place : Origin → Option (Place τ)}
  {o : Origin} {t : τ} {fd : Nat}

/-- What a step leaves as it is for a waiter. -/
theorem Pool.at_congr (hreg : p'.registered o = p.registered o) (hdel : p'.delivered o = p.delivered o)
    (hbatch : ∀ u, o ∈ (p'.workers u).batch ↔ o ∈ (p.workers u).batch)
    (hframe : ∀ u fd, o = .connection fd →
      (fd ∈ (p'.workers u).sockets ↔ fd ∈ (p.workers u).sockets))
    (hserve : ∀ u, (p'.workers u).doing = o.doing ↔ (p.workers u).doing = o.doing) (pl : Place τ) :
    p'.At o pl ↔ p.At o pl := by
  cases pl with
  | epoll =>
    change p'.registered o = true ∧ p'.delivered o = false ↔ _
    rw [hreg, hdel]
    exact Iff.rfl
  | batch u => exact hbatch u
  | frame u =>
    refine exists_congr fun fd => ⟨fun ⟨h, ho⟩ => ⟨(hframe u fd ho).1 h, ho⟩, fun ⟨h, ho⟩ => ?_⟩
    exact ⟨(hframe u fd ho).2 h, ho⟩
  | serve u => exact hserve u

/-- A waiter in a batch is nowhere else. -/
theorem Placed.place_of_batch (hP : Placed opened none p place) (ho : o ∈ (p.workers t).batch) :
    place o = some (.batch t) :=
  (hP.at_iff (by rintro ⟨⟩) (.batch t)).1 ho

/-- One may forget where a waiter is. -/
theorem Placed.drop (hP : Placed opened none p place) (o : Origin) : Placed opened (some o) p place :=
  ⟨fun _ => hP.at_iff (by rintro ⟨⟩), fun _ => hP.listener (by rintro ⟨⟩),
    fun _ => hP.open_iff (by rintro ⟨⟩), hP.base, hP.delivered, hP.batched, hP.served, hP.nodup, hP.distinct,
    hP.running⟩

/-- A waiter that is at one place is not at another. -/
theorem Placed.not_at (hP : Placed opened none p place) {pl : Place τ} (h : place o = some pl)
    (pl' : Place τ) (hne : pl' ≠ pl) : ¬p.At o pl' := by
  intro hat
  have heq := (hP.at_iff (by rintro ⟨⟩) pl').1 hat
  exact hne (Option.some.inj (heq.symm.trans h))

/-! ## What a thread has in its hands -/

/-- The thread `t` has the connection `fd` in its hands, and no other waiter. -/
structure Serves (p : Pool τ σ) (t : τ) (fd : Nat) : Prop where
  batch : ∀ u, .connection fd ∉ (p.workers u).batch
  frame : ∀ u, fd ∉ (p.workers u).sockets
  serve : ∀ u, u ≠ t → (p.workers u).doing ≠ .serve fd
  accept : (p.workers t).doing ≠ .accept
  only : ∀ {fd'}, (p.workers t).doing = .serve fd' → fd' = fd

/-- The thread `t` has the waiter of the listening socket in its hands, and serves no connection. -/
structure Accepts (p : Pool τ σ) (t : τ) : Prop where
  batch : ∀ u, .listener ∉ (p.workers u).batch
  listening : p.listening = false
  serve : ∀ u, u ≠ t → (p.workers u).doing ≠ .accept
  only : ∀ fd, (p.workers t).doing ≠ .serve fd

/-- Who is about to call `async_accept` has the listening socket in its hands. -/
theorem Placed.has_listener {waiter : Waiter} (hP : Placed opened none p place)
    (hd : (p.workers t).doing = .accept) : Accepts { p with waiter := waiter } t := by
  have hplace : place .listener = some (.serve t) := (hP.at_iff (by rintro ⟨⟩) (.serve t)).1 hd
  have hbatch : ∀ u, .listener ∉ (p.workers u).batch := fun u h =>
    hP.not_at hplace (.batch u) (by rintro ⟨⟩) h
  refine ⟨hbatch, ?_, fun u hu h => ?_, fun fd h => ?_⟩
  · change p.listening = false
    rw [Bool.eq_false_iff]
    intro hreg
    refine hP.not_at hplace .epoll (by rintro ⟨⟩) ⟨hreg, ?_⟩
    rw [Bool.eq_false_iff]
    intro hdel
    obtain ⟨u, hu⟩ := (hP.delivered _).1 hdel
    exact hbatch u hu
  · exact hP.not_at hplace (.serve u) (fun heq => hu (Place.serve.inj heq)) h
  · have h : (p.workers t).doing = .serve fd := h
    rw [hd] at h
    cases h

/-- Who serves a connection has it in its hands. -/
theorem Placed.has (hP : Placed opened none p place) (hd : (p.workers t).doing = .serve fd) :
    Serves p t fd ∧ opened fd = false := by
  have hplace : place (.connection fd) = some (.serve t) := (hP.at_iff (by rintro ⟨⟩) (.serve t)).1 hd
  refine ⟨⟨fun u h => ?_, fun u h => ?_, fun u hu h => ?_, ?_, fun {fd'} h => ?_⟩, ?_⟩
  · exact hP.not_at hplace (.batch u) (by rintro ⟨⟩) h
  · exact hP.not_at hplace (.frame u) (by rintro ⟨⟩) ⟨fd, h, rfl⟩
  · exact hP.not_at hplace (.serve u) (fun heq => hu (Place.serve.inj heq)) h
  · rw [hd]
    rintro ⟨⟩
  · rw [hd] at h
    exact (Doing.serve.inj h).symm
  · exact ((hP.open_iff (by rintro ⟨⟩)).1 (by rw [hplace]; rintro ⟨⟩)).2

theorem Placed.setWaiter (hP : Placed opened x p place) (waiter : Waiter) :
    Placed opened x { p with waiter := waiter } place :=
  ⟨hP.at_iff, hP.listener, hP.open_iff, hP.base, hP.delivered, hP.batched, hP.served, hP.nodup,
    hP.distinct, hP.running⟩

/-- The listening socket is taken off the epoll descriptor. -/
theorem Placed.unlisten (hP : Placed opened (some .listener) p place)
    (hbatch : ∀ u, .listener ∉ (p.workers u).batch) :
    Placed opened (some .listener) { p with listening := false } place := by
  refine ⟨fun {o'} hne pl => ?_, hP.listener, hP.open_iff, hP.base, hP.delivered, fun {o' u} h => ?_,
    hP.served, hP.nodup, hP.distinct, hP.running⟩
  · cases o' with
    | listener => exact absurd rfl hne
    | connection fd' => exact hP.at_iff hne pl
  · cases o' with
    | listener => exact absurd h (hbatch u)
    | connection fd' => exact hP.batched (o := .connection fd') h

/-! ## Soundness -/

variable {http : HttpParser σ} {ok : Serv σ → ServInput → Prop}

/-- The connections are those of runs of the machine with one connection, nothing is misused, and every
waiter is in one place. -/
structure PoolSound (http : HttpParser σ) (ok : Serv σ → ServInput → Prop) (opened : Nat → Bool)
    (p : Pool τ σ) : Prop where
  runs : ∀ {fd s}, p.conns fd = some s → ∃ garbage inputs, ServRun http garbage ok inputs s
  proper : ∀ m, p.stop ≠ some (.misuse m)
  placed : p.stop = none → ∃ place, Placed opened none p place

/-- The program ends. -/
theorem PoolSound.exits (hS : PoolSound http ok opened p) : PoolSound http ok opened (p.fail .exited) :=
  ⟨hS.runs, fun m => by rintro ⟨⟩, fun h => by cases h⟩

theorem ServRun.mono {ok' : Serv σ → ServInput → Prop} {garbage : ServRequest σ}
    {inputs : List ServInput} {s : Serv σ} (h : ServRun http garbage ok inputs s)
    (hok : ∀ {s i}, ok s i → ok' s i) : ServRun http garbage ok' inputs s := by
  induction h with
  | accept received => exact .accept received
  | step _ hi hs ih => exact ih.step (hok hi) hs

variable [DecidableEq τ]

theorem workers_update {β : Type} {w : Worker} (f : Worker → β) (h : f w = f (p.workers t)) (u : τ) :
    f (Function.update p.workers t w u) = f (p.workers u) := by
  by_cases hu : u = t
  · rw [hu, Function.update_self, h]
  · rw [Function.update_of_ne hu]

theorem Worker.back_doing (w : Worker) : w.back.doing = .loop ∨ w.back.doing = .setUp := by
  unfold Worker.back
  dsimp only
  split
  · exact .inl rfl
  · exact .inr rfl

theorem Worker.back_ne (w : Worker) (o : Origin) : w.back.doing ≠ o.doing := by
  rcases w.back_doing with h | h <;> rw [h] <;> cases o <;> rintro ⟨⟩

/-! ## Taking an event -/

theorem take_doing {rest : List Origin} :
    ∀ u, ((p.take t o rest).workers u).doing = (p.workers u).doing :=
  workers_update (·.doing) rfl

theorem take_sockets {rest : List Origin} :
    ∀ u, ((p.take t o rest).workers u).sockets = (p.workers u).sockets :=
  workers_update (·.sockets) rfl

theorem take_batch {rest : List Origin} (hP : Placed opened none p place)
    (hb : (p.workers t).batch = o :: rest) (u : τ) : o ∉ ((p.take t o rest).workers u).batch := by
  have hmem : o ∈ (p.workers t).batch := by
    rw [hb]
    exact List.mem_cons_self
  have hnodup := hP.nodup t
  rw [hb, List.nodup_cons] at hnodup
  unfold Pool.take Pool.setWorker
  dsimp only
  by_cases hu : u = t
  · rw [hu, Function.update_self]
    exact hnodup.1
  · rw [Function.update_of_ne hu]
    intro hin
    have hplace := (hP.place_of_batch hin).symm.trans (hP.place_of_batch hmem)
    exact hu (Place.batch.inj (Option.some.inj hplace))

theorem Placed.take {rest : List Origin} (hP : Placed opened none p place)
    (hb : (p.workers t).batch = o :: rest) : Placed opened (some o) (p.take t o rest) place := by
  have hsub : ∀ {o' u}, o' ∈ ((p.take t o rest).workers u).batch → o' ∈ (p.workers u).batch := by
    intro o' u
    unfold Pool.take Pool.setWorker
    dsimp only
    by_cases hu : u = t
    · rw [hu, Function.update_self, hb]
      exact List.mem_cons_of_mem o
    · rw [Function.update_of_ne hu]
      exact id
  have hsup : ∀ {o' u}, o' ≠ o → o' ∈ (p.workers u).batch →
      o' ∈ ((p.take t o rest).workers u).batch := by
    intro o' u hne
    unfold Pool.take Pool.setWorker
    dsimp only
    by_cases hu : u = t
    · rw [hu, Function.update_self, hb]
      exact fun h => (List.mem_cons.1 h).resolve_left hne
    · rw [Function.update_of_ne hu]
      exact id
  refine ⟨fun {o'} hne pl => ?_, fun _ => hP.listener (by rintro ⟨⟩), fun _ => hP.open_iff (by rintro ⟨⟩),
    hP.base, fun o' => ?_, fun {o' u} h => hP.batched (hsub h), fun {u fd} h => ?_, fun u => ?_,
    fun u => ?_, hP.running⟩
  · have hne : o' ≠ o := fun h => hne (congrArg some h)
    rw [← hP.at_iff (by rintro ⟨⟩) pl]
    have hreg : (p.take t o rest).registered o' = p.registered o' := rfl
    exact Pool.at_congr hreg (Function.update_of_ne hne _ _) (fun u => ⟨hsub, hsup hne⟩)
      (fun u fd _ => by rw [take_sockets]) (fun u => by rw [take_doing]) pl
  · by_cases hne : o' = o
    · subst hne
      refine iff_of_false ?_ ?_
      · change ¬Function.update p.delivered o' false o' = true
        rw [Function.update_self]
        exact Bool.false_ne_true
      · rintro ⟨u, hu⟩
        exact take_batch hP hb u hu
    · change Function.update p.delivered o false o' = true ↔ _
      rw [Function.update_of_ne hne, hP.delivered]
      exact ⟨fun ⟨u, hu⟩ => ⟨u, hsup hne hu⟩, fun ⟨u, hu⟩ => ⟨u, hsub hu⟩⟩
  · rw [take_doing] at h
    exact hP.served h
  · unfold Pool.take Pool.setWorker
    dsimp only
    by_cases hu : u = t
    · rw [hu, Function.update_self]
      have hnodup := hP.nodup t
      rw [hb, List.nodup_cons] at hnodup
      exact hnodup.2
    · rw [Function.update_of_ne hu]
      exact hP.nodup u
  · rw [take_sockets]
    exact hP.distinct u

/-! ## A step of a connection -/

/-- A connection of a program that has not ended: a callback is called, the waiter is armed, or the
socket has been closed. -/
theorem Hand.cases_of_running {s : Serv σ} (hand : Hand s) (hstop : s.stop = none) :
    ((s.call.isSome || s.rearm) = true ∧ s.armed = false ∧ s.live = true) ∨
      ((s.call.isSome || s.rearm) = false ∧ s.armed = true ∧ s.live = true) ∨
      ((s.call.isSome || s.rearm) = false ∧ s.armed = false ∧ s.live = false) := by
  cases hand with
  | called call hs hcall => exact .inl ⟨by rw [hcall]; rfl, hs.armed, hs.live⟩
  | armed hs => exact .inr (.inl ⟨by rw [hs.call, hs.rearm]; rfl, hs.armed, hs.live⟩)
  | closed live armed _ call rearm => exact .inr (.inr ⟨by rw [call, rearm]; rfl, armed, live⟩)
  | ended stop =>
    rw [hstop] at stop
    rcases stop with stop | stop <;> cases stop

theorem settle_doing (s : Serv σ) (u : τ) :
    ((p.settle t fd s).workers u).doing =
      if u = t then if (s.call.isSome || s.rearm) = true then .serve fd else (p.workers t).back.doing
      else (p.workers u).doing := by
  unfold Pool.settle Pool.setWorker
  dsimp only
  by_cases hu : u = t
  · rw [hu, Function.update_self, if_pos rfl]
    split <;> rfl
  · rw [Function.update_of_ne hu, if_neg hu]

theorem settle_batch (s : Serv σ) (u : τ) :
    ((p.settle t fd s).workers u).batch = (p.workers u).batch := by
  unfold Pool.settle Pool.setWorker
  refine workers_update (·.batch) ?_ u
  split <;> rfl

theorem settle_sockets (s : Serv σ) (u : τ) :
    ((p.settle t fd s).workers u).sockets = (p.workers u).sockets := by
  unfold Pool.settle Pool.setWorker
  refine workers_update (·.sockets) ?_ u
  split <;> rfl

theorem settle_registered (s : Serv σ) (ho : o ≠ .connection fd) :
    (p.settle t fd s).registered o = p.registered o := by
  cases o with
  | listener => rfl
  | connection fd' =>
    have hfd : fd' ≠ fd := fun h => ho (congrArg _ h)
    change (Function.update p.conns fd (some s) fd').any _ = _
    rw [Function.update_of_ne hfd]
    rfl

/-- **A step of a connection** leaves it with the thread, with the epoll descriptor, or closed. -/
theorem Placed.settle {s : Serv σ} (hP : Placed opened (some (.connection fd)) p place)
    (hH : Serves p t fd) (hbase : opened fd = false) (hand : Hand s) (hstop : s.stop = none) :
    ∃ place', Placed opened none (p.settle t fd s) place' := by
  have hdel : p.delivered (.connection fd) = false := by
    rw [Bool.eq_false_iff]
    intro h
    obtain ⟨u, hu⟩ := (hP.delivered _).1 h
    exact hH.batch u hu
  let new : Option (Place τ) :=
    if (s.call.isSome || s.rearm) = true then some (.serve t) else if s.armed then some .epoll else none
  -- the connection itself
  have hself : ∀ pl, (p.settle t fd s).At (.connection fd) pl ↔ new = some pl := by
    have hback : (p.workers t).back.doing ≠ .serve fd := (p.workers t).back_ne (.connection fd)
    have hreg : (p.settle t fd s).registered (.connection fd) = s.armed := by
      change (Function.update p.conns fd (some s) fd).any _ = _
      rw [Function.update_self]
      rfl
    have hserve : ∀ u, ((p.settle t fd s).workers u).doing = .serve fd ↔
        u = t ∧ (s.call.isSome || s.rearm) = true := by
      intro u
      rw [settle_doing]
      by_cases hu : u = t
      · rw [if_pos hu]
        split
        · exact iff_of_true rfl ⟨hu, ‹_›⟩
        · exact iff_of_false hback fun h => ‹¬_› h.2
      · rw [if_neg hu]
        exact iff_of_false (hH.serve u hu) fun h => hu h.1
    intro pl
    cases pl with
    | epoll =>
      change (p.settle t fd s).registered _ = true ∧ p.delivered _ = false ↔ _
      rw [hreg, hdel]
      rcases hand.cases_of_running hstop with ⟨h1, h2, -⟩ | ⟨h1, h2, -⟩ | ⟨h1, h2, -⟩ <;>
        simp [new, h1, h2]
    | batch u =>
      refine iff_of_false ?_ ?_
      · change ¬_ ∈ ((p.settle t fd s).workers u).batch
        rw [settle_batch]
        exact hH.batch u
      · simp only [new]
        split
        · rintro ⟨⟩
        · split <;> rintro ⟨⟩
    | frame u =>
      refine iff_of_false ?_ ?_
      · rintro ⟨fd', hfd', heq⟩
        rw [settle_sockets] at hfd'
        exact hH.frame u ((Origin.connection.inj heq) ▸ hfd')
      · simp only [new]
        split
        · rintro ⟨⟩
        · split <;> rintro ⟨⟩
    | serve u =>
      refine (hserve u).trans ?_
      simp only [new]
      split
      · rename_i h
        simp [h, eq_comm]
      · rename_i h
        refine iff_of_false (fun h' => h h'.2) ?_
        split <;> rintro ⟨⟩
  -- the others
  have hother : ∀ {o'}, o' ≠ .connection fd → ∀ pl, (p.settle t fd s).At o' pl ↔ place o' = some pl := by
    intro o' hne pl
    have hx : some o' ≠ some (.connection fd) := fun h => hne (Option.some.inj h)
    rw [← hP.at_iff hx pl]
    refine Pool.at_congr (settle_registered s hne) rfl (fun u => by rw [settle_batch])
      (fun u fd' _ => by rw [settle_sockets]) (fun u => ?_) pl
    rw [settle_doing]
    split
    · rename_i hu
      subst hu
      refine iff_of_false ?_ fun h => ?_
      · split
        · intro h
          cases o' with
          | listener => cases h
          | connection fd' => exact hne (congrArg _ (Doing.serve.inj h).symm)
        · exact (p.workers u).back_ne o'
      · cases o' with
        | listener => exact hH.accept h
        | connection fd' => exact hne (congrArg _ (hH.only h))
    · exact Iff.rfl
  refine ⟨Function.update place (.connection fd) new, fun {o'} _ pl => ?_, fun _ => ?_, fun {fd'} _ => ?_,
    fun {fd'} h => ?_, fun o' => ?_, fun {o' u} h => ?_, fun {u fd'} h => ?_, fun u => ?_, fun u => ?_,
    fun {fd' s'} h => ?_⟩
  · by_cases hne : o' = .connection fd
    · rw [hne, Function.update_self]
      exact hself pl
    · rw [Function.update_of_ne hne]
      exact hother hne pl
  · rw [Function.update_of_ne (by rintro ⟨⟩)]
    exact hP.listener (by rintro ⟨⟩)
  · change _ ↔ Function.update p.opened fd s.live fd' = true ∧ _
    by_cases hfd : fd' = fd
    · rw [hfd, Function.update_self, Function.update_self, hbase]
      rcases hand.cases_of_running hstop with ⟨h1, h2, h3⟩ | ⟨h1, h2, h3⟩ | ⟨h1, h2, h3⟩ <;>
        simp [new, h1, h2, h3]
    · rw [Function.update_of_ne fun h => hfd (Origin.connection.inj h), Function.update_of_ne hfd]
      exact hP.open_iff fun h => hfd (Origin.connection.inj (Option.some.inj h))
  · change Function.update p.opened fd s.live fd' = true
    have hfd : fd' ≠ fd := by
      rintro rfl
      rw [hbase] at h
      cases h
    rw [Function.update_of_ne hfd]
    exact hP.base h
  · refine (hP.delivered o').trans (exists_congr fun u => ?_)
    rw [settle_batch]
  · rw [settle_batch] at h
    have hne : o' ≠ .connection fd := fun heq => hH.batch u (heq ▸ h)
    rw [settle_registered s hne]
    exact hP.batched h
  · change ∃ s', Function.update p.conns fd (some s) fd' = some s' ∧ _
    rw [settle_doing] at h
    split at h
    · rename_i hu
      subst hu
      split at h
      · rename_i hcall
        obtain rfl := Doing.serve.inj h
        refine ⟨s, Function.update_self _ _ _, ?_⟩
        rcases hand.cases_of_running hstop with ⟨-, -, h3⟩ | ⟨h1, -, -⟩ | ⟨h1, -, -⟩
        · exact h3
        · exact absurd (h1.symm.trans hcall) Bool.false_ne_true
        · exact absurd (h1.symm.trans hcall) Bool.false_ne_true
      · exact absurd h ((p.workers u).back_ne (.connection fd'))
    · rename_i hu
      have hfd : fd' ≠ fd := by
        rintro rfl
        exact hH.serve u hu h
      rw [Function.update_of_ne hfd]
      exact hP.served h
  · rw [settle_batch]
    exact hP.nodup u
  · rw [settle_sockets]
    exact hP.distinct u
  · have h : Function.update p.conns fd (some s) fd' = some s' := h
    by_cases hfd : fd' = fd
    · rw [hfd, Function.update_self] at h
      obtain rfl := Option.some.inj h
      exact hstop
    · rw [Function.update_of_ne hfd] at h
      exact hP.running h

/-! ## Accepting -/

/-- The listening socket is armed, and the thread goes on. -/
theorem Placed.arms (hP : Placed opened (some .listener) p place) (hA : Accepts p t) :
    Placed opened none ({ p with listening := true }.setWorker t (p.workers t).back)
      (Function.update place .listener (some .epoll)) := by
  have hdel : p.delivered .listener = false := by
    rw [Bool.eq_false_iff]
    intro h
    obtain ⟨u, hu⟩ := (hP.delivered _).1 h
    exact hA.batch u hu
  have hbatch : ∀ u, (Function.update p.workers t (p.workers t).back u).batch = (p.workers u).batch :=
    workers_update (·.batch) rfl
  have hsockets : ∀ u,
      (Function.update p.workers t (p.workers t).back u).sockets = (p.workers u).sockets :=
    workers_update (·.sockets) rfl
  have hserve : ∀ {u fd}, (Function.update p.workers t (p.workers t).back u).doing = .serve fd ↔
      (p.workers u).doing = .serve fd := by
    intro u fd
    by_cases hu : u = t
    · rw [hu, Function.update_self]
      exact iff_of_false ((p.workers t).back_ne (.connection fd)) (hA.only fd)
    · rw [Function.update_of_ne hu]
  refine ⟨fun {o'} _ pl => ?_, fun _ => ?_, fun {fd} _ => ?_, hP.base, fun o' => ?_, fun {o' u} h => ?_,
    fun {u fd} h => hP.served (hserve.1 h), fun u => ?_, fun u => ?_, hP.running⟩
  · cases o' with
    | listener =>
      rw [Function.update_self]
      cases pl with
      | epoll => exact iff_of_true ⟨rfl, hdel⟩ rfl
      | batch u =>
        refine iff_of_false ?_ (by rintro ⟨⟩)
        change ¬_ ∈ (Function.update p.workers t (p.workers t).back u).batch
        rw [hbatch]
        exact hA.batch u
      | frame u =>
        refine iff_of_false ?_ (by rintro ⟨⟩)
        rintro ⟨fd, -, ⟨⟩⟩
      | serve u =>
        refine iff_of_false ?_ (by rintro ⟨⟩)
        change ¬(Function.update p.workers t (p.workers t).back u).doing = .accept
        by_cases hu : u = t
        · rw [hu, Function.update_self]
          exact (p.workers t).back_ne .listener
        · rw [Function.update_of_ne hu]
          exact hA.serve u hu
    | connection fd =>
      rw [Function.update_of_ne (by rintro ⟨⟩), ← hP.at_iff (by rintro ⟨⟩) pl]
      refine Pool.at_congr ?_ ?_ (fun u => ?_) (fun u fd' _ => ?_) (fun u => hserve) pl
      · rfl
      · rfl
      · change _ ∈ (Function.update p.workers t (p.workers t).back u).batch ↔ _
        rw [hbatch]
      · change fd' ∈ (Function.update p.workers t (p.workers t).back u).sockets ↔ fd' ∈ _
        rw [hsockets]
  · rw [Function.update_self]
    rintro ⟨⟩
  · rw [Function.update_of_ne (by rintro ⟨⟩)]
    exact hP.open_iff (by rintro ⟨⟩)
  · refine (hP.delivered o').trans (exists_congr fun u => ?_)
    change _ ↔ _ ∈ (Function.update p.workers t (p.workers t).back u).batch
    rw [hbatch]
  · change o' ∈ (Function.update p.workers t (p.workers t).back u).batch at h
    rw [hbatch] at h
    cases o' with
    | listener => rfl
    | connection fd => exact hP.batched h
  · change (Function.update p.workers t (p.workers t).back u).batch.Nodup
    rw [hbatch]
    exact hP.nodup u
  · change (Function.update p.workers t (p.workers t).back u).sockets.Nodup
    rw [hsockets]
    exact hP.distinct u

/-- The next call of `on_accept` has its socket. -/
theorem Placed.accepts {sock : Nat} (hP : Placed opened (some .listener) p place) (hA : Accepts p t)
    (hsock : p.opened sock = false) :
    ∃ place', Placed opened none
      ({ p with opened := Function.update p.opened sock true }.setWorker t
        { p.workers t with sockets := sock :: (p.workers t).sockets, doing := .accept }) place' := by
  generalize hw : ({ p.workers t with
    sockets := sock :: (p.workers t).sockets, doing := .accept } : Worker) = w
  have hfree : ∀ pl, ¬p.At (.connection sock) pl := by
    intro pl hat
    have hplace : place (.connection sock) ≠ none := by
      rw [(hP.at_iff (by rintro ⟨⟩) pl).1 hat]
      rintro ⟨⟩
    have hopen := ((hP.open_iff (by rintro ⟨⟩)).1 hplace).1
    rw [hsock] at hopen
    cases hopen
  have hbatch : ∀ u, (Function.update p.workers t w u).batch = (p.workers u).batch :=
    workers_update (·.batch) (by rw [← hw])
  have hself : Function.update p.workers t w t = w := Function.update_self _ _ _
  have hne : ∀ {u}, u ≠ t → Function.update p.workers t w u = p.workers u :=
    fun hu => Function.update_of_ne hu _ _
  have hserve : ∀ {u fd}, (Function.update p.workers t w u).doing = .serve fd ↔
      (p.workers u).doing = .serve fd := by
    intro u fd
    by_cases hu : u = t
    · rw [hu, hself, ← hw]
      exact iff_of_false (by rintro ⟨⟩) (hA.only fd)
    · rw [hne hu]
  have hdel : ∀ o', p.delivered o' = true ↔ ∃ u, o' ∈ (Function.update p.workers t w u).batch := by
    intro o'
    refine (hP.delivered o').trans (exists_congr fun u => ?_)
    rw [hbatch]
  refine ⟨Function.update (Function.update place .listener (some (.serve t))) (.connection sock)
    (some (.frame t)), fun {o'} _ pl => ?_, fun _ => ?_, fun {fd} _ => ?_, fun {fd} h => ?_, hdel,
    fun {o' u} h => ?_, fun {u fd} h => hP.served (hserve.1 h), fun u => ?_, fun u => ?_,
    hP.running⟩
  · by_cases ho : o' = .connection sock
    · subst ho
      rw [Function.update_self]
      cases pl with
      | epoll => exact iff_of_false (hfree .epoll) (by rintro ⟨⟩)
      | batch u =>
        refine iff_of_false ?_ (by rintro ⟨⟩)
        change ¬_ ∈ (Function.update p.workers t w u).batch
        rw [hbatch]
        exact hfree (.batch u)
      | frame u =>
        change (∃ fd ∈ (Function.update p.workers t w u).sockets, _) ↔ _
        by_cases hu : u = t
        · rw [hu, hself, ← hw]
          exact iff_of_true ⟨sock, List.mem_cons_self, rfl⟩ rfl
        · rw [hne hu]
          exact iff_of_false (hfree (.frame u)) fun h =>
            hu (Place.frame.inj (Option.some.inj h)).symm
      | serve u =>
        refine iff_of_false ?_ (by rintro ⟨⟩)
        change ¬(Function.update p.workers t w u).doing = .serve sock
        rw [hserve]
        exact hfree (.serve u)
    · rw [Function.update_of_ne ho]
      cases o' with
      | listener =>
        rw [Function.update_self]
        cases pl with
        | epoll =>
          refine iff_of_false ?_ (by rintro ⟨⟩)
          rintro ⟨hreg, -⟩
          have hreg : p.listening = true := hreg
          rw [hA.listening] at hreg
          cases hreg
        | batch u =>
          refine iff_of_false ?_ (by rintro ⟨⟩)
          change ¬_ ∈ (Function.update p.workers t w u).batch
          rw [hbatch]
          exact hA.batch u
        | frame u =>
          refine iff_of_false ?_ (by rintro ⟨⟩)
          rintro ⟨fd, -, ⟨⟩⟩
        | serve u =>
          change (Function.update p.workers t w u).doing = .accept ↔ _
          by_cases hu : u = t
          · rw [hu, hself, ← hw]
            exact iff_of_true rfl rfl
          · rw [hne hu]
            exact iff_of_false (hA.serve u hu) fun h =>
              hu (Place.serve.inj (Option.some.inj h)).symm
      | connection fd =>
        rw [Function.update_of_ne (by rintro ⟨⟩), ← hP.at_iff (by rintro ⟨⟩) pl]
        refine Pool.at_congr ?_ ?_ (fun u => ?_) (fun u fd' hfd => ?_) (fun u => hserve) pl
        · rfl
        · rfl
        · change _ ∈ (Function.update p.workers t w u).batch ↔ _
          rw [hbatch]
        · change fd' ∈ (Function.update p.workers t w u).sockets ↔ fd' ∈ _
          by_cases hu : u = t
          · rw [hu, hself, ← hw]
            refine ⟨fun h => (List.mem_cons.1 h).resolve_left ?_, List.mem_cons_of_mem sock⟩
            rintro rfl
            exact ho hfd
          · rw [hne hu]
  · rw [Function.update_of_ne (by rintro ⟨⟩), Function.update_self]
    rintro ⟨⟩
  · change _ ↔ Function.update p.opened sock true fd = true ∧ _
    by_cases hfd : fd = sock
    · have hbase : opened sock = false := by
        rw [Bool.eq_false_iff]
        intro h
        rw [hP.base h] at hsock
        cases hsock
      rw [hfd, Function.update_self, Function.update_self]
      exact iff_of_true (by rintro ⟨⟩) ⟨rfl, hbase⟩
    · rw [Function.update_of_ne fun h => hfd (Origin.connection.inj h),
        Function.update_of_ne (by rintro ⟨⟩), Function.update_of_ne hfd]
      exact hP.open_iff (by rintro ⟨⟩)
  · change Function.update p.opened sock true fd = true
    by_cases hfd : fd = sock
    · rw [hfd, Function.update_self]
    · rw [Function.update_of_ne hfd]
      exact hP.base h
  · change o' ∈ (Function.update p.workers t w u).batch at h
    rw [hbatch] at h
    exact hP.batched h
  · change (Function.update p.workers t w u).batch.Nodup
    rw [hbatch]
    exact hP.nodup u
  · change (Function.update p.workers t w u).sockets.Nodup
    by_cases hu : u = t
    · rw [hu, hself, ← hw]
      exact List.nodup_cons.2 ⟨fun h => hfree (.frame t) ⟨sock, h, rfl⟩, hP.distinct t⟩
    · rw [hne hu]
      exact hP.distinct u

/-! ## Polling -/

/-- `epoll_wait` hands waiters over to the thread. -/
theorem Placed.poll {events : List Origin} (hP : Placed opened none p place)
    (hb : (p.workers t).batch = []) (h : p.poll t events = some p') :
    ∃ place', Placed opened none p' place' := by
  unfold Pool.poll at h
  split at h
  swap
  · cases h
  rename_i hev
  obtain ⟨hnodup, -, hready⟩ := hev
  obtain rfl := Option.some.inj h
  clear h
  generalize hw : ({ p.workers t with batch := events } : Worker) = w
  have hself : Function.update p.workers t w t = w := Function.update_self _ _ _
  have hne : ∀ {u}, u ≠ t → Function.update p.workers t w u = p.workers u :=
    fun hu => Function.update_of_ne hu _ _
  have hsockets : ∀ u, (Function.update p.workers t w u).sockets = (p.workers u).sockets :=
    workers_update (·.sockets) (by rw [← hw])
  have hdoing : ∀ u, (Function.update p.workers t w u).doing = (p.workers u).doing :=
    workers_update (·.doing) (by rw [← hw])
  have hepoll : ∀ o ∈ events, place o = some .epoll := fun o ho =>
    (hP.at_iff (by rintro ⟨⟩) .epoll).1 (hready o ho)
  have hbatch : ∀ {o' u}, o' ∉ events →
      (o' ∈ (Function.update p.workers t w u).batch ↔ o' ∈ (p.workers u).batch) := by
    intro o' u ho
    by_cases hu : u = t
    · rw [hu, hself, hb, ← hw]
      exact iff_of_false ho List.not_mem_nil
    · rw [hne hu]
  have hin : ∀ {o' u}, o' ∈ events → (o' ∈ (Function.update p.workers t w u).batch ↔ u = t) := by
    intro o' u ho
    by_cases hu : u = t
    · rw [hu, hself, ← hw]
      exact iff_of_true ho rfl
    · rw [hne hu]
      refine iff_of_false (fun hmem => ?_) hu
      have := (hP.place_of_batch hmem).symm.trans (hepoll o' ho)
      cases this
  have hdel : ∀ {o'}, o' ∉ events → (p.delivered o' || decide (o' ∈ events)) = p.delivered o' := by
    intro o' ho
    rw [decide_eq_false ho, Bool.or_false]
  refine ⟨fun o => if o ∈ events then some (.batch t) else place o, fun {o'} _ pl => ?_, fun _ => ?_,
    fun {fd} _ => ?_, hP.base, fun o' => ?_, fun {o' u} h => ?_, fun {u fd} h => ?_, fun u => ?_,
    fun u => ?_, hP.running⟩
  · by_cases ho : o' ∈ events
    · rw [if_pos ho]
      have hnot : ∀ pl', pl' ≠ .epoll → ¬p.At o' pl' := fun pl' hpl => hP.not_at (hepoll o' ho) pl' hpl
      cases pl with
      | epoll =>
        refine iff_of_false ?_ (by rintro ⟨⟩)
        rintro ⟨-, hd⟩
        have hd : (p.delivered o' || decide (o' ∈ events)) = false := hd
        rw [decide_eq_true ho, Bool.or_true] at hd
        cases hd
      | batch u =>
        refine (hin ho).trans ?_
        constructor
        · rintro rfl
          rfl
        · rintro ⟨⟩
          rfl
      | frame u =>
        refine iff_of_false ?_ (by rintro ⟨⟩)
        rintro ⟨fd, hfd, heq⟩
        have hfd : fd ∈ (Function.update p.workers t w u).sockets := hfd
        rw [hsockets] at hfd
        exact hnot (.frame u) (by rintro ⟨⟩) ⟨fd, hfd, heq⟩
      | serve u =>
        refine iff_of_false ?_ (by rintro ⟨⟩)
        change ¬(Function.update p.workers t w u).doing = o'.doing
        rw [hdoing]
        exact hnot (.serve u) (by rintro ⟨⟩)
    · rw [if_neg ho, ← hP.at_iff (by rintro ⟨⟩) pl]
      refine Pool.at_congr ?_ (hdel ho) (fun u => hbatch ho) (fun u fd _ => ?_) (fun u => ?_) pl
      · rfl
      · change fd ∈ (Function.update p.workers t w u).sockets ↔ _
        rw [hsockets]
      · change (Function.update p.workers t w u).doing = o'.doing ↔ _
        rw [hdoing]
  · split
    · rintro ⟨⟩
    · exact hP.listener (by rintro ⟨⟩)
  · split
    · rename_i ho
      have hplace : place (.connection fd) ≠ none := by
        rw [hepoll _ ho]
        rintro ⟨⟩
      exact iff_of_true (by rintro ⟨⟩) ((hP.open_iff (by rintro ⟨⟩)).1 hplace)
    · exact hP.open_iff (by rintro ⟨⟩)
  · change (p.delivered o' || decide (o' ∈ events)) = true ↔
      ∃ u, o' ∈ (Function.update p.workers t w u).batch
    by_cases ho : o' ∈ events
    · rw [decide_eq_true ho, Bool.or_true]
      exact iff_of_true rfl ⟨t, (hin ho).2 rfl⟩
    · rw [hdel ho, hP.delivered]
      exact exists_congr fun u => (hbatch ho).symm
  · change o' ∈ (Function.update p.workers t w u).batch at h
    by_cases ho : o' ∈ events
    · exact (hready o' ho).1
    · exact hP.batched ((hbatch ho).1 h)
  · change (Function.update p.workers t w u).doing = _ at h
    rw [hdoing] at h
    exact hP.served h
  · change (Function.update p.workers t w u).batch.Nodup
    by_cases hu : u = t
    · rw [hu, hself, ← hw]
      exact hnodup
    · rw [hne hu]
      exact hP.nodup u
  · change (Function.update p.workers t w u).sockets.Nodup
    rw [hsockets]
    exact hP.distinct u

/-! ## What a thread takes into its hands -/

/-- Who takes the event of a connection has it in its hands. -/
theorem Placed.takes {rest : List Origin} (hP : Placed opened none p place)
    (hb : (p.workers t).batch = .connection fd :: rest) (hd : (p.workers t).doing = .loop) :
    Serves (p.take t (.connection fd) rest) t fd := by
  have hplace : place (.connection fd) = some (.batch t) :=
    hP.place_of_batch (by rw [hb]; exact List.mem_cons_self)
  refine ⟨take_batch hP hb, fun u h => ?_, fun u hu h => ?_, ?_, fun {fd'} h => ?_⟩
  · rw [take_sockets] at h
    exact hP.not_at hplace (.frame u) (by rintro ⟨⟩) ⟨fd, h, rfl⟩
  · rw [take_doing] at h
    exact hP.not_at hplace (.serve u) (by rintro ⟨⟩) h
  · rw [take_doing, hd]
    rintro ⟨⟩
  · rw [take_doing, hd] at h
    cases h

/-- Who takes the event of the listening socket has it in its hands. -/
theorem Placed.takes_listener {rest : List Origin} {waiter : Waiter} (hP : Placed opened none p place)
    (hb : (p.workers t).batch = .listener :: rest) (hd : (p.workers t).doing = .loop) :
    Accepts { p.take t .listener rest with waiter := waiter, listening := false } t := by
  have hplace : place .listener = some (.batch t) :=
    hP.place_of_batch (by rw [hb]; exact List.mem_cons_self)
  refine ⟨take_batch hP hb, rfl, fun u hu h => ?_, fun fd h => ?_⟩
  · have h : ((p.take t .listener rest).workers u).doing = .accept := h
    rw [take_doing] at h
    exact hP.not_at hplace (.serve u) (by rintro ⟨⟩) h
  · have h : ((p.take t .listener rest).workers t).doing = .serve fd := h
    rw [take_doing, hd] at h
    cases h

/-- Who sets a socket up has it in its hands. -/
theorem Placed.picks {rest : List Nat} (hP : Placed opened none p place)
    (hs : (p.workers t).sockets = fd :: rest) (hd : (p.workers t).doing = .setUp) :
    Placed opened (some (.connection fd)) (p.setWorker t { p.workers t with sockets := rest }) place ∧
      Serves (p.setWorker t { p.workers t with sockets := rest }) t fd ∧ opened fd = false := by
  have hat : p.At (.connection fd) (.frame t) := ⟨fd, by rw [hs]; exact List.mem_cons_self, rfl⟩
  have hplace : place (.connection fd) = some (.frame t) := (hP.at_iff (by rintro ⟨⟩) _).1 hat
  have hdistinct := hP.distinct t
  rw [hs, List.nodup_cons] at hdistinct
  generalize hw : ({ p.workers t with sockets := rest } : Worker) = w
  have hself : Function.update p.workers t w t = w := Function.update_self _ _ _
  have hne : ∀ {u}, u ≠ t → Function.update p.workers t w u = p.workers u :=
    fun hu => Function.update_of_ne hu _ _
  have hbatch : ∀ u, (Function.update p.workers t w u).batch = (p.workers u).batch :=
    workers_update (·.batch) (by rw [← hw])
  have hdoing : ∀ u, (Function.update p.workers t w u).doing = (p.workers u).doing :=
    workers_update (·.doing) (by rw [← hw])
  refine ⟨⟨fun {o'} hx pl => ?_, fun _ => hP.listener (by rintro ⟨⟩), fun _ => hP.open_iff (by rintro ⟨⟩),
    hP.base, fun o' => ?_, fun {o' u} h => ?_, fun {u fd'} h => ?_, fun u => ?_, fun u => ?_,
    hP.running⟩,
    ⟨fun u h => ?_, fun u h => ?_, fun u hu h => ?_, fun h => ?_, fun {fd'} h => ?_⟩, ?_⟩
  · rw [← hP.at_iff (by rintro ⟨⟩) pl]
    refine Pool.at_congr ?_ ?_ (fun u => ?_) (fun u fd' hfd => ?_) (fun u => ?_) pl
    · rfl
    · rfl
    · change _ ∈ (Function.update p.workers t w u).batch ↔ _
      rw [hbatch]
    · change fd' ∈ (Function.update p.workers t w u).sockets ↔ _
      by_cases hu : u = t
      · rw [hu, hself, hs, ← hw]
        refine ⟨List.mem_cons_of_mem fd, fun h => (List.mem_cons.1 h).resolve_left ?_⟩
        rintro rfl
        exact hx (congrArg some hfd)
      · rw [hne hu]
    · change (Function.update p.workers t w u).doing = _ ↔ _
      rw [hdoing]
  · refine (hP.delivered o').trans (exists_congr fun u => ?_)
    change _ ↔ o' ∈ (Function.update p.workers t w u).batch
    rw [hbatch]
  · change o' ∈ (Function.update p.workers t w u).batch at h
    rw [hbatch] at h
    exact hP.batched h
  · change (Function.update p.workers t w u).doing = _ at h
    rw [hdoing] at h
    exact hP.served h
  · change (Function.update p.workers t w u).batch.Nodup
    rw [hbatch]
    exact hP.nodup u
  · change (Function.update p.workers t w u).sockets.Nodup
    by_cases hu : u = t
    · rw [hu, hself, ← hw]
      exact hdistinct.2
    · rw [hne hu]
      exact hP.distinct u
  · change _ ∈ (Function.update p.workers t w u).batch at h
    rw [hbatch] at h
    exact hP.not_at hplace (.batch u) (by rintro ⟨⟩) h
  · change fd ∈ (Function.update p.workers t w u).sockets at h
    by_cases hu : u = t
    · rw [hu, hself, ← hw] at h
      exact hdistinct.1 h
    · rw [hne hu] at h
      exact hP.not_at hplace (.frame u) (fun heq => hu (Place.frame.inj heq)) ⟨fd, h, rfl⟩
  · change (Function.update p.workers t w u).doing = _ at h
    rw [hdoing] at h
    exact hP.not_at hplace (.serve u) (by rintro ⟨⟩) h
  · change (Function.update p.workers t w t).doing = _ at h
    rw [hdoing, hd] at h
    cases h
  · change (Function.update p.workers t w t).doing = _ at h
    rw [hdoing, hd] at h
    cases h
  · exact ((hP.open_iff (by rintro ⟨⟩)).1 (by rw [hplace]; rintro ⟨⟩)).2

/-! ## One step -/

/-- What the waiter of the listening socket comes to: it is armed, or `on_accept` gets a descriptor or
an error. -/
theorem handleAccept_effects {event : Event} (waiter : Waiter)
    (hready : event.epollerr = true ∨ event.epollin = true)
    (herr : event.epollerr = true → socketErrno event.soError < 0) :
    (handleAccept event waiter).2 = [.arm] ∨
      ∃ sock es, (handleAccept event waiter).2 = .callback sock :: es ∧
        (0 ≤ sock → ∃ n, event.answer = .value n ∧ sock = n) := by
  unfold handleAccept
  split
  · rename_i h
    exact .inr ⟨_, _, rfl, fun hpos => absurd (herr h) (not_lt.2 hpos)⟩
  · rename_i h
    have hin : event.epollin = true := hready.resolve_left h
    rw [if_neg (by rw [hin]; decide)]
    cases event.answer with
    | value n => exact .inr ⟨_, _, rfl, fun _ => ⟨n, rfl, rfl⟩⟩
    | error errno =>
      dsimp only
      split
      · exact .inr ⟨_, _, rfl, fun hpos => absurd (Serv.neg_errno errno) (not_lt.2 hpos)⟩
      · exact .inl rfl

theorem asyncAccept_effects {answer : Answer} {waiter : Waiter}
    (h : ¬(asyncAccept answer waiter).1 < 0) :
    (asyncAccept answer waiter).2.2 = [.arm] ∨
      ∃ n : Nat, (asyncAccept answer waiter).2.2 = [.callback n] ∧ answer = .value n := by
  unfold asyncAccept at h ⊢
  cases answer with
  | value n => exact .inr ⟨n, rfl, rfl⟩
  | error errno =>
    dsimp only at h ⊢
    split at h
    · exact absurd (Serv.neg_errno errno) h
    · rename_i hsoft
      rw [if_neg hsoft]
      exact .inl rfl

/-- The thread that has the listening socket in its hands goes on to the next call of `on_accept`, or
arms the waiter. -/
theorem PoolSound.accepts {es : List Effect}
    (hruns : ∀ {fd s}, p.conns fd = some s → ∃ garbage inputs, ServRun http garbage ok inputs s)
    (hstop : p.stop = none) (hP : Placed opened (some .listener) p place) (hA : Accepts p t)
    (hes : es = [.arm] ∨ ∃ sock rest, es = .callback sock :: rest ∧
      (0 ≤ sock → p.opened sock.toNat = false)) :
    PoolSound http ok opened (p.performAccept t es) := by
  rcases hes with rfl | ⟨sock, rest, rfl, hsock⟩
  · have harm : p.arm = { p with listening := true } := by
      unfold Pool.arm
      rw [if_neg (by rw [hA.listening]; decide)]
    simp only [Pool.performAccept, harm]
    refine ⟨hruns, fun m hm => ?_, fun _ => ⟨_, hP.arms hA⟩⟩
    cases hstop.symm.trans hm
  · simp only [Pool.performAccept]
    split
    · exact ⟨hruns, fun m => by rintro ⟨⟩, fun h => by cases h⟩
    · rename_i hpos
      refine ⟨hruns, fun m hm => ?_, fun _ => hP.accepts hA (hsock (not_lt.1 hpos))⟩
      cases hstop.symm.trans hm

/-- The thread that has a connection in its hands takes it to `s`. -/
theorem PoolSound.settles {s : Serv σ} (hclean : ∀ {s i}, ok s i → i.Clean)
    (hruns : ∀ {fd s}, p.conns fd = some s → ∃ garbage inputs, ServRun http garbage ok inputs s)
    (hP : Placed opened (some (.connection fd)) p place) (hH : Serves p t fd) (hbase : opened fd = false)
    (hrun : ∃ garbage inputs, ServRun http garbage ok inputs s) :
    PoolSound http ok opened (p.settle t fd s) := by
  have hand : Hand s := by
    obtain ⟨garbage, inputs, hrun⟩ := hrun
    exact (hrun.mono fun hi => hclean hi).hand
  refine ⟨fun {fd' s'} h => ?_, hand.no_misuse, fun hstop => hP.settle hH hbase hand hstop⟩
  have h : Function.update p.conns fd (some s) fd' = some s' := h
  by_cases hfd : fd' = fd
  · rw [hfd, Function.update_self] at h
    obtain rfl := Option.some.inj h
    exact hrun
  · rw [Function.update_of_ne hfd] at h
    exact hruns h

theorem PoolSound.serves {i : ServInput} (hclean : ∀ {s i}, ok s i → i.Clean)
    (hruns : ∀ {fd s}, p.conns fd = some s → ∃ garbage inputs, ServRun http garbage ok inputs s)
    (hP : Placed opened (some (.connection fd)) p place) (hH : Serves p t fd) (hbase : opened fd = false)
    (hlive : ∃ s, p.conns fd = some s) (hok : ∀ s, p.conns fd = some s → ok s i)
    (h : p.serve t http fd i = some p') : PoolSound http ok opened p' := by
  obtain ⟨s, hs⟩ := hlive
  unfold Pool.serve at h
  rw [hs] at h
  obtain ⟨s', hstep, rfl⟩ := Option.map_eq_some_iff.1 h
  obtain ⟨garbage, inputs, hrun⟩ := hruns hs
  exact .settles hclean hruns hP hH hbase ⟨garbage, _, hrun.step (hok s hs) hstep⟩

omit [DecidableEq τ] in
theorem Pool.opened_of_gives {n : Nat} (h : p.gives (.value n) = true) : p.opened n = false := by
  have h : (!p.opened n) = true := h
  rwa [Bool.not_eq_true'] at h

/-- **One step.** A step keeps every waiter in one place. -/
theorem PoolSound.step {i : PoolInput σ} (hclean : ∀ {s i}, ok s i → i.Clean)
    (hS : PoolSound http ok opened p) (hok : i.Ok ok p t) (h : poolStep http p t i = some p') :
    PoolSound http ok opened p' := by
  unfold poolStep at h
  dsimp only at h
  split at h
  · cases h
  rename_i hrunning
  have hstop : p.stop = none := Option.not_isSome_iff_eq_none.1 hrunning
  obtain ⟨place, hP⟩ := hS.placed hstop
  split at h
  · -- `epoll_wait` returns events
    split at h
    · rename_i hb
      obtain ⟨place', hP'⟩ := hP.poll hb h
      unfold Pool.poll at h
      split at h
      · obtain rfl := Option.some.inj h
        exact ⟨hS.runs, hS.proper, fun _ => ⟨place', hP'⟩⟩
      · cases h
    · cases h
  · -- `epoll_wait` fails
    split at h
    · obtain rfl := Option.some.inj h
      exact hS.exits
    · cases h
  · -- an event of the listening socket
    rename_i event hd
    split at h
    · rename_i rest hb
      obtain ⟨hev, herr⟩ := hok
      have hlistening : p.listening = true :=
        hP.batched (o := .listener) (t := t) (by rw [hb]; exact List.mem_cons_self)
      rw [if_pos hlistening] at h
      unfold Pool.handleAccept at h
      split at h
      · rename_i hgives
        obtain rfl := Option.some.inj h
        have hP₁ : Placed opened (some .listener)
            { p.take t .listener rest with
              waiter := (handleAccept event p.waiter).1, listening := false } place :=
          ((hP.take hb).unlisten (take_batch hP hb)).setWaiter _
        refine .accepts hS.runs hstop hP₁ (hP.takes_listener hb hd) ?_
        obtain heq | ⟨sock, es, heq, hsock⟩ := handleAccept_effects p.waiter hev herr
        · exact .inl heq
        · refine .inr ⟨sock, es, heq, fun hpos => ?_⟩
          obtain ⟨n, hanswer, rfl⟩ := hsock hpos
          rw [hanswer] at hgives
          exact Pool.opened_of_gives hgives
      · cases h
    · cases h
  · -- an event of a connection
    rename_i i hd
    split at h
    · rename_i fd rest hb
      have hmem : .connection fd ∈ (p.workers t).batch := by
        rw [hb]
        exact List.mem_cons_self
      have hreg := hP.batched hmem
      rw [if_pos hreg] at h
      have hplace := hP.place_of_batch hmem
      have hbase : opened fd = false :=
        ((hP.open_iff (by rintro ⟨⟩)).1 (by rw [hplace]; rintro ⟨⟩)).2
      have hlive : ∃ s, p.conns fd = some s := by
        obtain ⟨s, hs, -⟩ := (Option.any_eq_true _ _).1 hreg
        exact ⟨s, hs⟩
      have hconn : (p.workers t).connection = some fd := by
        unfold Worker.connection
        rw [hd, hb]
      exact PoolSound.serves (p := p.take t (.connection fd) rest) hclean hS.runs (hP.take hb)
        (hP.takes hb hd) hbase hlive (fun s hs => hok fd s hconn hs) h
    · cases h
  · -- `async_accept`
    rename_i answer hd
    unfold Pool.asyncAccept at h
    split at h
    · rename_i hgives
      obtain rfl := Option.some.inj h
      split
      · exact ⟨hS.runs, fun m => by rintro ⟨⟩, fun h => by cases h⟩
      · rename_i hpos
        refine .accepts hS.runs hstop ((hP.drop .listener).setWaiter _) (hP.has_listener hd) ?_
        obtain heq | ⟨n, heq, hanswer⟩ := asyncAccept_effects hpos
        · exact .inl heq
        · refine .inr ⟨n, [], heq, fun _ => ?_⟩
          rw [hanswer] at hgives
          exact Pool.opened_of_gives hgives
    · cases h
  · -- a socket is set up
    rename_i garbage received hd
    split at h
    · cases h
    · rename_i fd rest hs
      obtain rfl := Option.some.inj h
      obtain ⟨hP₁, hH, hbase⟩ := hP.picks hs hd
      exact .settles hclean hS.runs hP₁ hH hbase ⟨garbage, _, .accept received⟩
  · -- a callback of a connection
    rename_i fd i hd
    obtain ⟨hH, hbase⟩ := hP.has hd
    obtain ⟨s, hs, -⟩ := hP.served hd
    have hconn : (p.workers t).connection = some fd := by
      unfold Worker.connection
      rw [hd]
    exact .serves hclean hS.runs (hP.drop _) hH hbase ⟨s, hs⟩
      (fun s hs => hok fd s hconn hs) h
  · cases h

theorem poolInit_sound (waiter : Waiter) (opened : Nat → Bool) (main : τ) :
    PoolSound http ok opened (poolInit waiter opened main : Pool τ σ) := by
  have hloop : ∀ {t : τ} {fd}, (if t = main then Doing.accept else .loop) ≠ .serve fd := by
    intro t fd
    split <;> rintro ⟨⟩
  refine ⟨fun {fd s} h => ?_, fun m => ?_, fun _ => ⟨fun o =>
    if o = .listener then some (.serve main) else none, ⟨fun {o} _ pl => ?_, fun _ => ?_,
    fun {fd} _ => ?_, id, fun o => ?_, fun {o t} h => ?_, fun {t fd} h => absurd h hloop,
    fun t => List.nodup_nil, fun t => List.nodup_nil, fun {fd s} h => ?_⟩⟩⟩
  · cases h
  · rintro ⟨⟩
  · cases pl with
    | epoll =>
      refine iff_of_false ?_ ?_
      · rintro ⟨hreg, -⟩
        cases o <;> cases hreg
      · split <;> rintro ⟨⟩
    | batch t =>
      refine iff_of_false List.not_mem_nil ?_
      split <;> rintro ⟨⟩
    | frame t =>
      refine iff_of_false ?_ ?_
      · rintro ⟨fd, hfd, -⟩
        cases hfd
      · split <;> rintro ⟨⟩
    | serve t =>
      change (if t = main then Doing.accept else .loop) = o.doing ↔ _
      cases o with
      | listener =>
        by_cases ht : t = main
        · rw [if_pos ht, if_pos rfl, ht]
          exact iff_of_true rfl rfl
        · rw [if_neg ht, if_pos rfl]
          refine iff_of_false (by rintro ⟨⟩) fun h => ht ?_
          exact (Place.serve.inj (Option.some.inj h)).symm
      | connection fd =>
        have hne : Origin.connection fd ≠ .listener := by rintro ⟨⟩
        rw [if_neg hne]
        exact iff_of_false hloop (by rintro ⟨⟩)
  · rw [if_pos rfl]
    rintro ⟨⟩
  · rw [if_neg (by rintro ⟨⟩)]
    refine iff_of_false (fun h => h rfl) ?_
    rintro ⟨h, h'⟩
    cases h.symm.trans h'
  · refine iff_of_false (by rintro ⟨⟩) ?_
    rintro ⟨t, ht⟩
    cases ht
  · cases h
  · cases h

theorem PoolRun.sound {waiter : Waiter} {main : τ} (hclean : ∀ {s i}, ok s i → i.Clean)
    (h : PoolRun http ok waiter opened main p) : PoolSound http ok opened p := by
  induction h with
  | init => exact poolInit_sound waiter opened main
  | step _ hok hs ih => exact ih.step hclean hok hs

/-! ## Every thread goes on -/

/-- A thread that is to set a socket up has one. -/
def Worker.Ready (w : Worker) : Prop := w.doing = .setUp → w.sockets ≠ []

theorem Worker.back_ready (w : Worker) : w.back.Ready := by
  unfold Worker.Ready Worker.back
  dsimp only
  split
  · rintro ⟨⟩
  · exact fun _ => ‹_›

theorem ready_update {w : Worker} (hready : ∀ u, u ≠ t → (p.workers u).Ready) (hw : w.Ready) (u : τ) :
    (Function.update p.workers t w u).Ready := by
  by_cases hu : u = t
  · rw [hu, Function.update_self]
    exact hw
  · rw [Function.update_of_ne hu]
    exact hready u hu

theorem settle_ready (s : Serv σ) (hready : ∀ u, u ≠ t → (p.workers u).Ready) :
    ∀ u, ((p.settle t fd s).workers u).Ready := by
  refine ready_update hready ?_
  split
  · rintro ⟨⟩
  · exact Worker.back_ready _

theorem serve_ready {i : ServInput} (hready : ∀ u, (p.workers u).Ready)
    (h : p.serve t http fd i = some p') : ∀ u, (p'.workers u).Ready := by
  unfold Pool.serve at h
  split at h
  · obtain rfl := Option.some.inj h
    exact hready
  · obtain ⟨s', -, rfl⟩ := Option.map_eq_some_iff.1 h
    exact settle_ready s' fun u _ => hready u

omit [DecidableEq τ] in
theorem arm_workers : p.arm.workers = p.workers := by
  unfold Pool.arm
  split <;> rfl

theorem performAccept_ready {es : List Effect} (hready : ∀ u, (p.workers u).Ready) :
    ∀ u, ((p.performAccept t es).workers u).Ready := by
  induction es generalizing p with
  | nil => exact ready_update (fun u _ => hready u) (Worker.back_ready _)
  | cons e es ih =>
    cases e with
    | callback sock =>
      simp only [Pool.performAccept]
      split
      · exact hready
      · exact ready_update (fun u _ => hready u) (by rintro ⟨⟩)
    | arm =>
      refine ih fun u => ?_
      rw [arm_workers]
      exact hready u
    | sent bytes => exact ih hready
    | abort => exact hready

theorem take_ready {rest : List Origin} (hready : ∀ u, (p.workers u).Ready) :
    ∀ u, ((p.take t o rest).workers u).Ready :=
  ready_update (fun u _ => hready u) (hready t)

theorem poolStep_ready {i : PoolInput σ} (hready : ∀ u, (p.workers u).Ready)
    (h : poolStep http p t i = some p') : ∀ u, (p'.workers u).Ready := by
  unfold poolStep at h
  dsimp only at h
  split at h
  · cases h
  split at h
  · split at h
    · unfold Pool.poll at h
      split at h
      · obtain rfl := Option.some.inj h
        exact ready_update (fun u _ => hready u) (hready t)
      · cases h
    · cases h
  · split at h
    · obtain rfl := Option.some.inj h
      exact hready
    · cases h
  · split at h
    · split at h
      · unfold Pool.handleAccept at h
        split at h
        · obtain rfl := Option.some.inj h
          exact performAccept_ready (take_ready hready)
        · cases h
      · obtain rfl := Option.some.inj h
        exact hready
    · cases h
  · split at h
    · split at h
      · exact serve_ready (take_ready hready) h
      · obtain rfl := Option.some.inj h
        exact hready
    · cases h
  · unfold Pool.asyncAccept at h
    split at h
    · obtain rfl := Option.some.inj h
      split
      · exact hready
      · exact performAccept_ready hready
    · cases h
  · split at h
    · cases h
    · obtain rfl := Option.some.inj h
      refine settle_ready _ fun u hu => ?_
      change (Function.update p.workers t _ u).Ready
      rw [Function.update_of_ne hu]
      exact hready u
  · exact serve_ready hready h
  · cases h

theorem PoolRun.ready {waiter : Waiter} {main : τ} (h : PoolRun http ok waiter opened main p) :
    ∀ u, (p.workers u).Ready := by
  induction h with
  | init =>
    intro u hu
    have hu : (if u = main then Doing.accept else .loop) = .setUp := hu
    split at hu <;> cases hu
  | step _ _ hs ih => exact poolStep_ready ih hs

/-- The connection that a thread has in its hands goes on. -/
theorem serve_runs (http : HttpParser σ) {s : Serv σ} (hs : p.conns fd = some s) (hand : Hand s) (hstop : s.stop = none)
    (hlive : s.live = true) : ∃ i p', ServInput.Clean i ∧ p.serve t http fd i = some p' := by
  obtain ⟨i, hi, hrun⟩ : ∃ i, ServInput.Clean i ∧ (servStep http s i).isSome := hand.runs hstop hlive
  obtain ⟨s', hs'⟩ := Option.isSome_iff_exists.1 hrun
  refine ⟨i, p.settle t fd s', hi, ?_⟩
  unfold Pool.serve
  rw [hs]
  change (servStep http s i).map _ = _
  rw [hs']
  rfl

/-- **Every thread goes on.** A thread that is not to wait in `epoll_wait` has a step to take. -/
theorem PoolSound.goes_on (hclean : ∀ {s i}, ok s i → i.Clean) (hS : PoolSound http ok opened p)
    (hready : ∀ u, (p.workers u).Ready) (hstop : p.stop = none) (t : τ) :
    (p.workers t).doing = .loop ∧ (p.workers t).batch = [] ∨
      ∃ (i : PoolInput σ) (p' : Pool τ σ), i.Ok (fun _ i => i.Clean) p t ∧
        poolStep http p t i = some p' := by
  obtain ⟨place, hP⟩ := hS.placed hstop
  have hhand : ∀ {fd s}, p.conns fd = some s → Hand s := by
    intro fd s hs
    obtain ⟨garbage, inputs, hrun⟩ := hS.runs hs
    exact (hrun.mono fun hi => hclean hi).hand
  unfold poolStep
  dsimp only
  rw [hstop]
  cases hd : (p.workers t).doing with
  | loop =>
    cases hb : (p.workers t).batch with
    | nil => exact .inl ⟨rfl, rfl⟩
    | cons o rest =>
      right
      cases o with
      | listener =>
        have hreg : p.listening = true :=
          hP.batched (t := t) (o := .listener) (by rw [hb]; exact List.mem_cons_self)
        rw [hreg]
        exact ⟨.event ⟨false, true, false, .value 0, .error EAGAIN⟩, _,
          ⟨.inr rfl, by rintro ⟨⟩⟩, rfl⟩
      | connection fd =>
        have hreg := hP.batched (t := t) (o := .connection fd) (by rw [hb]; exact List.mem_cons_self)
        obtain ⟨s, hs, harmed⟩ := (Option.any_eq_true _ _).1 hreg
        have hrunning := hP.running hs
        have hlive : s.live = true := by
          rcases (hhand hs).cases_of_running hrunning with ⟨-, h, -⟩ | ⟨-, -, h⟩ | ⟨-, h, -⟩
          · exact absurd (h.symm.trans harmed) Bool.false_ne_true
          · exact h
          · exact absurd (h.symm.trans harmed) Bool.false_ne_true
        obtain ⟨i, p', hi, hp'⟩ := serve_runs (t := t) (p := p.take t (.connection fd) rest) http hs
          (hhand hs) hrunning hlive
        refine ⟨.serve i, p', fun _ _ _ _ => hi, ?_⟩
        dsimp only
        rw [if_neg (by rintro ⟨⟩), if_pos hreg]
        exact hp'
  | accept => exact .inr ⟨.accept (.error EAGAIN), _, trivial, rfl⟩
  | setUp =>
    right
    obtain ⟨fd, rest, hs⟩ := List.exists_cons_of_ne_nil (hready t hd)
    rw [hs]
    exact ⟨.setUp ⟨⟨.read, [], 0, 0⟩, .onRead, zeroed, http.init, response .HTTP_GET true, .onRead⟩
      (.error EAGAIN), _, trivial, rfl⟩
  | serve fd =>
    right
    obtain ⟨s, hs, hlive⟩ := hP.served hd
    obtain ⟨i, p', hi, hp'⟩ := serve_runs (t := t) http hs (hhand hs) (hP.running hs) hlive
    exact ⟨.serve i, p', fun _ _ _ _ => hi, hp'⟩

/-- **Every waiter is in one place.** In every run of the threads of `eventserv.c`, in any interleaving,
in which the steps of the connections are clean: as long as the program has not ended, each waiter is
registered with its event to come, or its event is in the batch of one thread, or one call of
`on_accept` is to set it up, or one thread serves it, and never two of these. The waiter of the
listening socket is always somewhere, and that of a connection as long as its socket is open. So a
connection goes through the threads as it would alone, nothing freed is used, nothing registered is
armed, and a thread that has something in its hands has a step to take. -/
theorem every_waiter_in_one_place (http : HttpParser σ) {ok : Serv σ → ServInput → Prop}
    (hclean : ∀ {s i}, ok s i → i.Clean) {waiter : Waiter} {main : τ}
    (h : PoolRun http ok waiter opened main p) :
    (∀ m, p.stop ≠ some (.misuse m)) ∧
      (∀ fd s, p.conns fd = some s → ∃ garbage inputs, ServRun http garbage ok inputs s) ∧
      (p.stop = none → ∃ place : Origin → Option (Place τ),
        (∀ o pl, p.At o pl ↔ place o = some pl) ∧ place .listener ≠ none ∧
          ∀ fd, place (.connection fd) ≠ none ↔ p.opened fd = true ∧ opened fd = false) ∧
      (p.stop = none → ∀ t, (p.workers t).doing = .loop ∧ (p.workers t).batch = [] ∨
        ∃ (i : PoolInput σ) (p' : Pool τ σ), i.Ok (fun _ i => i.Clean) p t ∧
          poolStep http p t i = some p') := by
  have hS := h.sound hclean
  refine ⟨hS.proper, fun fd s => hS.runs, fun hstop => ?_, hS.goes_on hclean h.ready⟩
  obtain ⟨place, hP⟩ := hS.placed hstop
  exact ⟨place, fun o => hP.at_iff (by rintro ⟨⟩), hP.listener (by rintro ⟨⟩),
    fun fd => hP.open_iff (by rintro ⟨⟩)⟩

/-- The steps of some inputs. -/
def poolSteps (http : HttpParser σ) : Pool τ σ → List (τ × PoolInput σ) → Option (Pool τ σ)
  | p, [] => some p
  | p, (t, i) :: is => (poolStep http p t i).bind (poolSteps http · is)

theorem PoolRun.steps {waiter : Waiter} {main : τ} {is : List (τ × PoolInput σ)}
    (h : PoolRun http ok waiter opened main p) (hok : ∀ ti ∈ is, ∀ p, ti.2.Ok ok p ti.1)
    (hs : poolSteps http p is = some p') : PoolRun http ok waiter opened main p' := by
  induction is generalizing p with
  | nil =>
    obtain rfl := Option.some.inj hs
    exact h
  | cons ti is ih =>
    obtain ⟨next, hstep, hrest⟩ := Option.bind_eq_some_iff.1 hs
    exact ih (h.step (hok ti List.mem_cons_self p) hstep)
      (fun ti hti => hok ti (List.mem_cons_of_mem _ hti)) hrest

/-- A connection that one thread accepts, and of which it gets the event, while another thread has got
the event of the next one. -/
def twoThreads : List (Bool × PoolInput LineParser) :=
  [(true, .accept (.error EAGAIN)), (false, .poll [.listener]),
    (false, .event ⟨false, true, false, .value 0, .value 7⟩), (false, .accept (.error EAGAIN)),
    (true, .poll [.listener]), (false, .setUp blank (.error EAGAIN)), (false, .poll [.connection 7])]

theorem every_waiter_in_one_place_two :
    ∃ (p : Pool Bool LineParser) (place : Origin → Option (Place Bool)),
      PoolRun lineParser (fun _ i => i.Clean) blank.waiter (fun fd => decide (fd < 5)) true p ∧
        (∀ o pl, p.At o pl ↔ place o = some pl) ∧
        place .listener = some (.batch true) ∧ place (.connection 7) = some (.batch false) := by
  have hlast : (poolSteps lineParser (poolInit blank.waiter (fun fd => decide (fd < 5)) true)
      twoThreads).map (fun p => (p.stop, (p.workers true).batch, (p.workers false).batch)) =
        some (none, [.listener], [.connection 7]) := by decide +kernel
  obtain ⟨p, hs, hlast⟩ := Option.map_eq_some_iff.1 hlast
  obtain ⟨hstop, htrue, hfalse⟩ : p.stop = none ∧ (p.workers true).batch = [.listener] ∧
      (p.workers false).batch = [.connection 7] := by simpa using hlast
  have hrun : PoolRun lineParser (fun _ i => i.Clean) blank.waiter (fun fd => decide (fd < 5)) true p := by
    refine PoolRun.init.steps (fun ti hti q => ?_) hs
    simp only [twoThreads, List.mem_cons, List.not_mem_nil, or_false] at hti
    rcases hti with rfl | rfl | rfl | rfl | rfl | rfl | rfl
    · trivial
    · trivial
    · exact ⟨.inr rfl, by rintro ⟨⟩⟩
    all_goals trivial
  obtain ⟨-, -, hplaces, -⟩ := every_waiter_in_one_place lineParser (fun h => h) hrun
  obtain ⟨place, hat, -⟩ := hplaces hstop
  refine ⟨p, place, hrun, hat, (hat _ (.batch true)).1 ?_, (hat _ (.batch false)).1 ?_⟩
  · change Origin.listener ∈ (p.workers true).batch
    rw [htrue]
    exact List.mem_cons_self
  · change Origin.connection 7 ∈ (p.workers false).batch
    rw [hfalse]
    exact List.mem_cons_self

end

end Lwthread.Webserver
