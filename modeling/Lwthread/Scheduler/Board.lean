import Lwthread.Lib.Dispatch
import Lwthread.Scheduler.Handover
import Lwthread.Scheduler.Refines

/-!
# The scheduler as a dispatcher

The machine over sequences, seen as a board (`board`): which coroutines there are, which one each
thread executes, and which ones are in line for it. A coroutine in `sched_resched` is in line from its
switch on, not from its enqueue on, and the coroutine that a thread has taken from its run list is the
first in line up to the switch to it. Between the exchange and the enqueue of `sched_schedule` the
woken coroutine is still asleep.

What a step shows on the board is read from the point of the code that it executes (`State.event`), the
same over sequences and over nodes, and the step does that and nothing else (`Moves.deed`). A run so
notes the events of its steps (`noteDispatch`).
-/

namespace Lwthread.Scheduler

open Lwthread.Util Lwthread.Platform Custody Rings Dispatch

/-! ## The board -/

/-- The coroutine that a thread executes. -/
@[simp] def Seat.running : Seat → Option Cid
  | .vacant => none
  | .on c => some c
  | .linked c => some c
  | .handing c _ => some c
  | .parking c _ => some c
  | .dying c => some c
  | .dead => none
  | .taken _ => none

/-- The coroutines in line for a thread with the run list `q`. -/
@[simp] def Seat.line (q : List Cid) : Seat → List Cid
  | .linked _ => q.dropLast
  | .handing _ x => x :: q.dropLast
  | .parking _ x => x :: q
  | .taken x => x :: q
  | _ => q

def State.live {Q ι δ : Type} (s : State Q ι δ) : Set Cid := {x | s.coro x ≠ none}

def board (s : SeqState) : Board Tid Cid where
  live := s.live
  running t := (s.seat t).running
  ready t := (s.seat t).line (s.queues.list t)

theorem board_running (s : SeqState) (t : Tid) : (board s).running t = (s.seat t).running := rfl

theorem board_ready (s : SeqState) (t : Tid) :
    (board s).ready t = (s.seat t).line (s.queues.list t) := rfl

/-- A coroutine that has enqueued itself in `sched_resched` is the last on the run list. -/
def Tailed (s : SeqState) : Prop :=
  ∀ {t c}, (s.seat t).entry = some c → ∃ q, s.queues.list t = q ++ [c]

/-! ## What a step shows -/

section

variable {Q ι δ : Type}

/-- What a step of `sched_resched` in the coroutine `current` shows. -/
def ReschedPc.event (t : Tid) (current : Cid) : ReschedPc ι δ → Option (Event Tid Cid)
  | .switch x => if x = current then none else some (.yield t current x)
  | _ => none

/-- What a step of the code of the coroutine `current` shows: it makes a coroutine or a thread, goes to
sleep if nobody has woken it, or ends an enqueue. -/
def Pc.event (ops : ListOps Q ι δ) (s : State Q ι δ) (t : Tid) (current : Cid) (i : Input) :
    Pc ι δ → Option (Event Tid Cid)
  | .user =>
    match i with
    | .op .newCoroutine => some (.make s.coros)
    | _ => none
  | .resched r _ => r.event t current
  | .suspendCmpxchg c x _ =>
    if (s.coro c).map (·.state) = some STATE_BLOCKING then some (.sleep t c x) else none
  | .suspendEnqueue x (.push p) _ =>
    if (ops.push s.queues t x p).2.isNone then some (.rotate t current x) else none
  | .scheduleEnqueue x (.push p) _ =>
    if (ops.push s.queues t x p).2.isNone then some (.wake t x) else none
  | .newLocal _ _ => some (.thread s.locals s.coros)
  | .newEnqueue x u (.push p) =>
    if (ops.push s.queues u x p).2.isNone then some (.wake u x) else none
  | _ => none

/-- What an action shows. -/
def State.event (ops : ListOps Q ι δ) (s : State Q ι δ) : Act → Option (Event Tid Cid)
  | .signal _ => none
  | .tick t i =>
    match s.sched t with
    | none => none
    | some l =>
      match l.exec with
      | .on c =>
        match (s.context c).sig with
        | [] => (s.context c).pc.event ops s t l.currentCoro i
        | r :: _ => r.event t l.currentCoro
      | .free => some (.exit t l.currentCoro)
      | .dequeue _ => none
      | .restore x => some (.next t x)

/-- A step that only goes on to another point shows nothing. -/
theorem Flow.event {ops : ListOps Q ι δ} {s : State Q ι δ} {t : Tid} {current : Cid} {i : Input}
    {pc pc' : Pc ι δ} (h : Flow ops s i pc pc') : pc.event ops s t current i = none := by
  cases h with
  | resched hi => subst hi; rfl
  | suspend hi => subst hi; rfl
  | schedule hi => subst hi; rfl
  | _ => rfl

/-- The events of the actions of a run, the first one first. -/
def noteDispatch (ops : ListOps Q ι δ) (s : State Q ι δ) (a : Act) (es : List (Event Tid Cid)) :
    List (Event Tid Cid) :=
  es ++ (s.event ops a).toList

end

/-! ## What a step does to the board -/

/-- What a step of the thread `t` does to its seat and its run list, and shows, if it makes no
coroutine, wakes none and frees none. -/
inductive SeatStep (t : Tid) : Seat → List Cid → Option (Event Tid Cid) → Seat → List Cid → Prop
  | stay {st q} : SeatStep t st q none st q
  | link {c q} : SeatStep t (.on c) q none (.linked c) (q ++ [c])
  | take {c x q} (hx : x ≠ c) : SeatStep t (.linked c) (x :: q) none (.handing c x) q
  | retake {c q} : SeatStep t (.linked c) (c :: q) none (.on c) q
  | switch {c x q} : SeatStep t (.handing c x) q (some (.yield t c x)) (.on x) q
  | pick {c x q} : SeatStep t (.on c) (x :: q) none (.parking c x) q
  | park {c x q} : SeatStep t (.parking c x) q (some (.sleep t c x)) (.on x) q
  | putBack {c x q} : SeatStep t (.parking c x) q (some (.rotate t c x)) (.on c) (q ++ [x])
  | die {c q} : SeatStep t (.on c) q none (.dying c) q
  | pop {x q} : SeatStep t .dead (x :: q) none (.taken x) q
  | restore {x q} : SeatStep t (.taken x) q (some (.next t x)) (.on x) q

/-- What a step of the thread `t` does, as far as the board goes, and what it shows. -/
inductive Deed (s s' : SeqState) (t : Tid) : Option (Event Tid Cid) → Prop
  | shift {o} (hshift : SeatStep t (s.seat t) (s.queues.list t) o (s'.seat t) (s'.queues.list t))
      (hseat : ∀ u, u ≠ t → s'.seat u = s.seat u)
      (hlist : ∀ u, u ≠ t → s'.queues.list u = s.queues.list u) (hlive : s'.live = s.live) :
      Deed s s' t o
  | make (hseat : ∀ u, s'.seat u = s.seat u) (hlist : ∀ u, s'.queues.list u = s.queues.list u)
      (hlive : s'.live = insert s.coros s.live) : Deed s s' t (some (.make s.coros))
  | thread (hnew : s'.seat s.locals = .on s.coros) (hseat : ∀ u, u ≠ s.locals → s'.seat u = s.seat u)
      (hlist : ∀ u, s'.queues.list u = s.queues.list u) (hlive : s'.live = insert s.coros s.live) :
      Deed s s' t (some (.thread s.locals s.coros))
  | wake {c d u x} (hx : x ∈ own s (.woken c)) (hu : s.seat u = .on d)
      (hseat : ∀ v, s'.seat v = s.seat v)
      (hlist : s'.queues.list = Function.update s.queues.list u (s.queues.list u ++ [x]))
      (hlive : s'.live = s.live) : Deed s s' t (some (.wake u x))
  | free {c} (hdying : s.seat t = .dying c) (hdead : s'.seat t = .dead)
      (hseat : ∀ u, u ≠ t → s'.seat u = s.seat u)
      (hlist : ∀ u, s'.queues.list u = s.queues.list u) (hlive : s'.live = s.live \ {c}) :
      Deed s s' t (some (.exit t c))

variable {preemption : Bool} {s s' : SeqState} {t u : Tid} {l : LocalSched Unit} {c d x : Cid}
  {i : Input} {a : Act} {o : Option (Event Tid Cid)}

theorem SeatStep.tailed {st st' : Seat} {q q' : List Cid} (h : SeatStep t st q o st' q')
    (hT : ∀ {c}, st.entry = some c → ∃ q₀, q = q₀ ++ [c]) (hc : st'.entry = some c) :
    ∃ q₀, q' = q₀ ++ [c] := by
  cases h with
  | stay => exact hT hc
  | link =>
    cases hc
    exact ⟨_, rfl⟩
  | take hx =>
    cases hc
    obtain ⟨_ | ⟨y, q₀⟩, hq⟩ := hT rfl
    · exact absurd (List.cons.inj hq).1 hx
    · exact ⟨q₀, (List.cons.inj hq).2⟩
  | _ => cases hc

theorem Deed.tailed (h : Deed s s' t o) (hT : Tailed s) : Tailed s' := by
  intro u c hc
  have hsame : s'.seat u = s.seat u → s'.queues.list u = s.queues.list u →
      ∃ q, s'.queues.list u = q ++ [c] := by
    intro hseat hlist
    rw [hlist]
    rw [hseat] at hc
    exact hT hc
  cases h with
  | shift hshift hseat hlist =>
    by_cases hu : u = t
    · subst hu
      exact hshift.tailed hT hc
    · exact hsame (hseat u hu) (hlist u hu)
  | make hseat hlist => exact hsame (hseat u) (hlist u)
  | thread hnew hseat hlist =>
    by_cases hu : u = s.locals
    · rw [hu, hnew] at hc
      cases hc
    · exact hsame (hseat u hu) (hlist u)
  | @wake _ d v x hx hv hseat hlist =>
    have huv : u ≠ v := by
      rintro rfl
      rw [hseat, hv] at hc
      cases hc
    exact hsame (hseat u) (by rw [hlist]; exact Function.update_of_ne huv _ _)
  | free hdying hdead hseat hlist =>
    by_cases hu : u = t
    · rw [hu, hdead] at hc
      cases hc
    · exact hsame (hseat u hu) (hlist u)

/-! ## The steps of the board -/

/-- The board after a change to the seat and the run list of one thread. -/
theorem board_update (hseat : ∀ u, u ≠ t → s'.seat u = s.seat u)
    (hlist : ∀ u, u ≠ t → s'.queues.list u = s.queues.list u) :
    board s' =
      { live := s'.live
        running := Function.update (board s).running t (s'.seat t).running
        ready := Function.update (board s).ready t ((s'.seat t).line (s'.queues.list t)) } := by
  have hrunning : (board s').running = Function.update (board s).running t (s'.seat t).running := by
    funext u
    by_cases hu : u = t
    · rw [hu, Function.update_self]
      rfl
    · rw [Function.update_of_ne hu]
      exact congrArg Seat.running (hseat u hu)
  have hready : (board s').ready =
      Function.update (board s).ready t ((s'.seat t).line (s'.queues.list t)) := by
    funext u
    by_cases hu : u = t
    · rw [hu, Function.update_self]
      rfl
    · rw [Function.update_of_ne hu]
      exact congrArg₂ (fun q st => Seat.line q st) (hlist u hu) (hseat u hu)
  rw [← hrunning, ← hready]
  rfl

/-- A step of a thread is the event that it shows. -/
theorem SeatStep.shows {b : Board Tid Cid} {st st' : Seat} {q q' : List Cid}
    (h : SeatStep t st q o st' q') (hnd : q.Nodup)
    (hT : ∀ {c}, st.entry = some c → ∃ q₀, q = q₀ ++ [c]) (hrunning : b.running t = st.running)
    (hready : b.ready t = st.line q) :
    Dispatch.Shows b o
      { b with
        running := Function.update b.running t st'.running
        ready := Function.update b.ready t (st'.line q') } := by
  have hstay : ∀ {r : Option Cid}, b.running t = r → Function.update b.running t r = b.running :=
    fun h => Function.update_eq_self_iff.2 h.symm
  -- a step that shows nothing
  have hkeep : ∀ {st' : Seat} {q' : List Cid}, st'.running = st.running → st'.line q' = st.line q →
      Dispatch.Shows b none
        { b with
          running := Function.update b.running t st'.running
          ready := Function.update b.ready t (st'.line q') } := by
    intro st' q' hrun hline
    change Board.mk _ _ _ = b
    rw [hrun, hline, hstay hrunning, Function.update_eq_self_iff.2 hready.symm]
  cases h with
  | stay => exact hkeep rfl rfl
  | link => exact hkeep rfl List.dropLast_concat
  | @take c x q hx =>
    obtain ⟨_ | ⟨y, q₀⟩, hq⟩ := hT rfl
    · exact absurd (List.cons.inj hq).1 hx
    · rw [List.cons_append, List.cons.injEq] at hq
      refine hkeep rfl (List.dropLast_cons_of_ne_nil ?_).symm
      rw [hq.2]
      exact List.concat_ne_nil c q₀
  | @retake c q =>
    -- a run list does not hold the caller twice
    obtain ⟨_ | ⟨y, q₀⟩, hq⟩ := hT rfl
    · obtain ⟨-, rfl⟩ := List.cons.inj hq
      exact hkeep rfl rfl
    · obtain ⟨-, rfl⟩ := List.cons.inj hq
      exact absurd (List.mem_append_right q₀ List.mem_cons_self) (List.nodup_cons.1 hnd).1
  | @switch c x q =>
    obtain ⟨q₀, rfl⟩ := hT rfl
    refine .yield hrunning ?_
    rw [hready, Seat.line, List.dropLast_concat]
  | pick => exact hkeep rfl rfl
  | park => exact .sleep hrunning hready
  | @putBack c x q =>
    rw [show (Seat.on c).running = (Seat.parking c x).running from rfl, hstay hrunning]
    exact .rotate hrunning hready
  | die => exact hkeep rfl rfl
  | pop => exact hkeep rfl rfl
  | restore => exact .next hrunning hready

/-- The coroutines on the board of a thread are kept by it. -/
theorem Seat.mem_board {st : Seat} {q : List Cid}
    (hT : ∀ {c}, st.entry = some c → ∃ q₀, q = q₀ ++ [c])
    (hx : st.running = some x ∨ x ∈ st.line q) : x ∈ st.tokens + (q : Multiset Cid) := by
  have htail : ∀ {c}, st.entry = some c → c ∈ q := by
    intro c hc
    obtain ⟨q₀, rfl⟩ := hT hc
    exact List.mem_append_right q₀ List.mem_cons_self
  have hinit : x ∈ q.dropLast → x ∈ q := List.mem_of_mem_dropLast
  rw [Multiset.mem_add, Multiset.mem_coe]
  cases st with
  | linked c =>
    rcases hx with hx | hx
    · cases hx
      exact .inr (htail rfl)
    · exact .inr (hinit hx)
  | handing c y =>
    rcases hx with hx | hx
    · cases hx
      exact .inr (htail rfl)
    · exact (List.mem_cons.1 hx).imp Multiset.mem_singleton.2 hinit
  | parking c y =>
    rcases hx with hx | hx
    · cases hx
      exact .inl (by simp)
    · exact (List.mem_cons.1 hx).imp_left fun hx => Multiset.mem_cons_of_mem (Multiset.mem_singleton.2 hx)
  | taken y =>
    rcases hx with hx | hx
    · cases hx
    · exact (List.mem_cons.1 hx).imp_left Multiset.mem_singleton.2
  | on c =>
    rcases hx with hx | hx
    · cases hx
      exact .inl (Multiset.mem_singleton_self _)
    · exact .inr hx
  | dying c =>
    rcases hx with hx | hx
    · cases hx
      exact .inl (Multiset.mem_singleton_self _)
    · exact .inr hx
  | vacant =>
    rcases hx with hx | hx
    · cases hx
    · exact .inr hx
  | dead =>
    rcases hx with hx | hx
    · cases hx
    · exact .inr hx

/-- The board, if no seat and no run list changes. -/
theorem board_live (hseat : ∀ u, s'.seat u = s.seat u)
    (hlist : ∀ u, s'.queues.list u = s.queues.list u) :
    board s' = { board s with live := s'.live } := by
  have hrunning : (board s').running = (board s).running :=
    funext fun u => congrArg Seat.running (hseat u)
  have hready : (board s').ready = (board s).ready :=
    funext fun u => congrArg₂ Seat.line (hlist u) (hseat u)
  change board s' = ⟨s'.live, (board s).running, (board s).ready⟩
  rw [← hrunning, ← hready]
  rfl

/-- **A step does on the board what it shows.** -/
theorem Deed.shows (hI : Inv preemption s) (hT : Tailed s) (h : Deed s s' t o) :
    Dispatch.Shows (board s) o (board s') := by
  have hfresh : s.coros ∉ (board s).live := by
    intro hlive
    refine lt_irrefl s.coros (hI.kept.known (.inr ?_))
    unfold State.word
    rwa [Ne, Option.map_eq_none_iff]
  cases h with
  | shift hshift hseat hlist hlive =>
    rw [board_update hseat hlist, hlive]
    exact hshift.shows (hI.list_nodup t) hT rfl rfl
  | make hseat hlist hlive =>
    change Dispatch.Step _ _ _
    rw [board_live hseat hlist, hlive]
    exact .make hfresh
  | thread hnew hseat hlist hlive =>
    obtain ⟨hnone, hempty⟩ := hI.control.vacant (le_refl s.locals)
    have hvacant : s.seat s.locals = .vacant := by simp only [State.seat, hnone]
    have hrunning : (board s).running s.locals = none := by
      rw [board_running, hvacant]
      rfl
    have hready : (board s).ready s.locals = [] := by
      rw [board_ready, hvacant]
      exact hempty
    rw [board_update hseat fun u _ => hlist u, hlive, hnew, hlist, hempty,
      show (Seat.on s.coros).line [] = (board s).ready s.locals from hready.symm,
      Function.update_eq_self]
    exact .thread hfresh hrunning hready
  | @wake c d u x hx hu hseat hlist hlive =>
    have hasleep : (board s).Asleep x := by
      refine ⟨fun hnone => ?_, fun v => not_or.1 fun hv => ?_⟩
      · exact hI.kept.live ⟨_, hx⟩ (State.word_eq_none hnone)
      · have hmem : x ∈ own s (.thread v) := Seat.mem_board hT hv
        cases hI.kept.excl.inj hmem hx
    rw [board_update (t := u) (fun v _ => hseat v)
      (fun v hv => by rw [hlist]; exact Function.update_of_ne hv _ _), hlive, hseat, hlist,
      Function.update_self, ← board_running, Function.update_eq_self, hu]
    have hready : (board s).ready u = s.queues.list u := by
      rw [board_ready, hu]
      rfl
    rw [show (Seat.on d).line (s.queues.list u ++ [x]) = (board s).ready u ++ [x] by rw [hready]; rfl]
    exact .wake hasleep
  | @free c hdying hdead hseat hlist hlive =>
    have hready : (board s).ready t = s.queues.list t := by
      rw [board_ready, hdying]
      rfl
    have hrunning : (board s).running t = some c := by
      rw [board_running, hdying]
      rfl
    rw [board_update hseat fun u _ => hlist u, hlive, hdead, hlist,
      show Seat.dead.line (s.queues.list t) = (board s).ready t from hready.symm,
      Function.update_eq_self]
    exact .exit hrunning

/-! ## The deeds of the machine -/

section

variable {Q ι δ : Type} {s₀ : State Q ι δ}

theorem State.live_modCoro (x : Cid) (f : Coroutine → Coroutine) : (s₀.modCoro x f).live = s₀.live := by
  ext y
  change Function.update s₀.coro x ((s₀.coro x).map f) y ≠ none ↔ s₀.coro y ≠ none
  by_cases hy : y = x
  · subst hy
    rw [Function.update_self, Ne, Option.map_eq_none_iff]
  · rw [Function.update_of_ne hy]

/-- A coroutine is made. -/
theorem State.live_insert {s₁ : State Q ι δ} {k : Coroutine}
    (h : s₁.coro = Function.update s₀.coro x (some k)) : s₁.live = insert x s₀.live := by
  ext y
  change s₁.coro y ≠ none ↔ y = x ∨ s₀.coro y ≠ none
  rw [h]
  by_cases hy : y = x
  · subst hy
    rw [Function.update_self]
    exact ⟨fun _ => .inl rfl, fun _ => Option.some_ne_none k⟩
  · rw [Function.update_of_ne hy]
    exact ⟨.inr, fun h => h.resolve_left hy⟩

end

section

variable (hI : Inv preemption s) (hl : s.sched t = some l) (hm : Moves seqOps preemption s t l a s')

include hI hl hm

theorem Moves.seat_else (hlocals : s'.locals = s.locals) (hu : u ≠ t) : s'.seat u = s.seat u := by
  by_cases hnew : u = s.locals
  · have hnone : s.sched u = none := (hI.control.vacant hnew.ge).1
    have hnone' : s'.sched u = none := by
      by_contra hsome
      rcases hm.grows.unsched hsome with h | h
      · exact h hnone
      · rw [hlocals, hnew] at h
        exact lt_irrefl _ h
    rw [State.seat, State.seat, hnone, hnone']
  · exact hm.seat_ne hI hl hu hnew

/-- A step that makes no thread and changes no run list but that of its own. -/
theorem Moves.shifts (hlocals : s'.locals = s.locals)
    (hlist : ∀ u, u ≠ t → s'.queues.list u = s.queues.list u) (hlive : s'.live = s.live)
    (h : SeatStep t (s.seat t) (s.queues.list t) o (s'.seat t) (s'.queues.list t)) :
    Deed s s' t o :=
  .shift h (fun _ hu => hm.seat_else hI hl hlocals hu) hlist hlive

variable (he : l.exec = .on c)

include he

/-- A step after which the thread still executes `c`. -/
theorem Moves.shifts_on {l' : LocalSched Unit} (hl' : s'.sched t = some l') (he' : l'.exec = .on c)
    (hlocals : s'.locals = s.locals) (hlist : ∀ u, u ≠ t → s'.queues.list u = s.queues.list u)
    (hlive : s'.live = s.live)
    (h : SeatStep t ((s.context c).seat c) (s.queues.list t) o ((s'.context c).seat c)
      (s'.queues.list t)) : Deed s s' t o := by
  refine hm.shifts hI hl hlocals hlist hlive ?_
  rw [seat_of_exec hl he, seat_of_exec hl' he']
  exact h

end

section

variable (hI : Inv preemption s) (hl : s.sched t = some l)

include hI hl

/-- A step of a coroutine's code to another point, with the run lists as they are. -/
theorem Moves.deed_goto {s₀ : SeqState} {l₀ : LocalSched Unit} {pc pc' : Pc Unit Unit}
    (hm : Moves seqOps preemption s t l a (s₀.goto c pc')) (he : l.exec = .on c)
    (hctx : s.context c = ⟨pc, []⟩) (hctx₀ : s₀.context = s.context) (hl₀ : s₀.sched t = some l₀)
    (he₀ : l₀.exec = .on c) (hlocals : s₀.locals = s.locals) (hq : s₀.queues = s.queues)
    (hlive : s₀.live = s.live) (hseat : pc'.seat c = pc.seat c) :
    Deed s (s₀.goto c pc') t none := by
  have hself : (s₀.goto c pc').context c = ⟨pc', []⟩ := by
    simp [State.goto, hctx₀, hctx]
  refine hm.shifts_on hI hl he hl₀ he₀ hlocals (fun u _ => congrArg (Seq.list · u) hq) hlive ?_
  rw [hself, hctx, show (s₀.goto c pc').queues = s.queues from hq]
  change SeatStep t (pc.seat c) _ none (pc'.seat c) _
  rw [hseat]
  exact .stay

/-- A step of `sched_resched`. -/
theorem Yield.deed {s₁ : SeqState} {r : ReschedPc Unit Unit} {r' : Option (ReschedPc Unit Unit)}
    {x' : Context Unit Unit} (he : l.exec = .on c) (hy : Yield seqOps preemption s t l r s₁ r')
    (hA : Activation c (s.context c) r x' r')
    (hs' : s' = { s₁ with context := Function.update s₁.context c x' })
    (hm : Moves seqOps preemption s t l a s') : Deed s s' t (r.event t l.currentCoro) := by
  have hsit := hI.control.sits hl
  simp only [Sits, he] at hsit
  have hcur : l.currentCoro = c := hsit.2.1.trans hA.current.1
  have hx' : s'.context c = x' := by rw [hs']; exact Function.update_self _ _ _
  have hstep : ∀ {q : List Cid} {o : Option (Event Tid Cid)}, s'.queues.list t = q →
      SeatStep t (r.seat c) (s.queues.list t) o (r'.elim (.on c) (·.seat c)) q →
      SeatStep t ((s.context c).seat c) (s.queues.list t) o ((s'.context c).seat c)
        (s'.queues.list t) := by
    intro q o hq h
    rw [hx', hA.seat, hA.seat', hq]
    exact h
  cases hy with
  | idle hem =>
    exact hm.shifts_on hI hl he (by rw [hs']; exact hl) he (by rw [hs'])
      (by rw [hs']; exact fun _ _ => rfl) (by rw [hs']; rfl) (hstep (by rw [hs']) .stay)
  | busy hem =>
    exact hm.shifts_on hI hl he (by rw [hs']; exact hl) he (by rw [hs'])
      (by rw [hs']; exact fun _ _ => rfl) (by rw [hs']; rfl) (hstep (by rw [hs']) .stay)
  | assert hn =>
    exact hm.shifts_on hI hl he (by rw [hs']; exact hl) he (by rw [hs'])
      (by rw [hs']; exact fun _ _ => rfl) (by rw [hs']; rfl) (hstep (by rw [hs']) .stay)
  | push hq => rw [seqOps_push] at hq; cases hq
  | @pushed d p q hq =>
    obtain rfl : d = c := hA.point
    rw [seqOps_push] at hq
    cases hq
    exact hm.shifts_on hI hl he (by rw [hs']; exact hl) he (by rw [hs'])
      (by rw [hs']; exact fun u hu => Function.update_of_ne hu _ _) (by rw [hs']; rfl)
      (hstep (by rw [hs']; exact Function.update_self _ _ _) .link)
  | pop hq => exact absurd hq seqOps_pop_ne
  | @popped p q x hq =>
    have hne := fun u (hu : u ≠ t) => pop_list_ne hq hu
    obtain ⟨xs, hx, rfl⟩ := seqOps_pop hq
    refine hm.shifts_on hI hl he (by rw [hs']; exact hl) he (by rw [hs']) (by rw [hs']; exact hne)
      (by rw [hs']; rfl) (hstep (q := xs) (by rw [hs']; exact Function.update_self _ _ _) ?_)
    rw [hx]
    by_cases hxc : x = c
    · subst hxc
      simpa [ReschedPc.event] using SeatStep.retake
    · simpa [ReschedPc.event, hxc] using SeatStep.take hxc
  | @switch x k hp hk =>
    rw [State.setPreempt_eq s t _ hl] at hs'
    obtain ⟨l', hl', he'⟩ : ∃ l', s'.sched t = some l' ∧ l'.exec = .on x := by
      rw [hs']
      simp [State.modSched, State.modCoro]
    have hseat : s'.seat t = .on x := by
      refine hm.seat_next hI hl hl' he' fun h => ?_
      rw [he] at h
      cases h
      rw [hx']
      exact hA.resumes rfl
    refine hm.shifts hI hl (by rw [hs']; rfl) (by rw [hs']; exact fun _ _ => rfl)
      (by rw [hs']; exact State.live_modCoro _ _) ?_
    rw [seat_of_exec hl he, hA.seat, hseat, show s'.queues = s.queues by rw [hs']; rfl]
    by_cases hxc : x = c
    · subst hxc
      simpa [ReschedPc.event, hcur] using SeatStep.stay
    · simpa [ReschedPc.event, hcur, hxc] using SeatStep.switch
  | resumed hp =>
    rw [State.setPreempt_eq s t _ hl] at hs'
    exact hm.shifts_on hI hl he (by rw [hs']; exact Function.update_self _ _ _) (by simpa using he)
      (by rw [hs']) (by rw [hs']; exact fun _ _ => rfl) (by rw [hs']; rfl) (hstep (by rw [hs']) .stay)

/-- A new thread, with its coroutine. -/
theorem Moves.deed_newLocal {slot : Nat} {state errno : Int} (he : l.exec = .on c)
    (hctx : s.context c = ⟨.newLocal x slot, []⟩) (hm : Moves seqOps preemption s t l a s')
    (hs' : s' = (State.modCoro
      { schedNewLocal seqOps s state errno .loopTop with
        localSchedulers := Function.update s.localSchedulers slot (some s.locals) } x
      ({ · with state := STATE_RUNNABLE })).goto c (.newEnqueue x s.locals .assert)) :
    Deed s s' t (some (.thread s.locals s.coros)) := by
  have hnl := hI.ne_locals hl
  have hcc := hI.exec_ne_coros hl he
  obtain ⟨lu, hlu, heu⟩ : ∃ lu, s'.sched s.locals = some lu ∧ lu.exec = .on s.coros := by
    rw [hs']
    exact ⟨_, Function.update_self _ _ _, rfl⟩
  have hnew : s'.context s.coros = ⟨.loopTop s.locals, []⟩ := by
    rw [hs']
    simp [State.goto, State.modCoro, schedNewLocal, Function.update_of_ne (Ne.symm hcc)]
  have hctx' : s'.context c = ⟨.newEnqueue x s.locals .assert, []⟩ := by
    rw [hs']
    simp [State.goto, State.modCoro, schedNewLocal, Function.update_of_ne hcc, hctx]
  have hl' : s'.sched t = some l := by
    rw [hs', ← hl]
    exact Function.update_of_ne hnl _ _
  refine .thread ?_ (fun u hu => ?_) (fun u => ?_) ?_
  · rw [seat_of_exec hlu heu, hnew]
    rfl
  · by_cases hut : u = t
    · rw [hut, seat_of_exec hl' he, seat_of_exec hl he, hctx, hctx']
      rfl
    · exact hm.seat_ne hI hl hut hu
  · rw [hs']
    by_cases hu : u = s.locals
    · rw [hu, (hI.control.vacant (le_refl s.locals)).2]
      exact Function.update_self _ _ _
    · exact Function.update_of_ne hu _ _
  · rw [hs']
    exact (State.live_modCoro x _).trans (State.live_insert rfl)

/-- `c` enqueues what it has woken or made, on the run list of its own thread or of a new one. -/
theorem Moves.deed_wake {q : Seq} {p : Unit} {pc pc' : Pc Unit Unit}
    (hm : Moves seqOps preemption s t l a (State.goto { s with queues := q } c pc'))
    (he : l.exec = .on c) (hctx : s.context c = ⟨pc, []⟩)
    (hq : seqOps.push s.queues u x p = (q, none)) (hwoken : pc.woken = {x})
    (hseat : pc'.seat c = pc.seat c) (hu : s.seat u = .on d) :
    Deed s (State.goto { s with queues := q } c pc') t (some (.wake u x)) := by
  have hseats : ∀ v, (State.goto { s with queues := q } c pc').seat v = s.seat v := by
    intro v
    by_cases hv : v = t
    · have hl' : (State.goto { s with queues := q } c pc').sched t = some l := hl
      have hself : (State.goto { s with queues := q } c pc').context c = ⟨pc', []⟩ := by
        simp [State.goto, hctx]
      rw [hv, seat_of_exec hl' he, seat_of_exec hl he, hctx, hself]
      exact hseat
    · exact hm.seat_else hI hl rfl hv
  rw [seqOps_push] at hq
  cases hq
  refine .wake (c := c) ?_ hu hseats rfl rfl
  rw [own, hctx, hwoken]
  exact Multiset.mem_singleton_self x

/-- What a step of a coroutine's code does to the board. -/
theorem Stride.deed {k : Coroutine} (hU : Unstarted s) (he : l.exec = .on c) (hk : s.coro c = some k)
    (hsig : (s.context c).sig = [])
    (hst : Stride seqOps preemption s t l c i (s.context c).pc s') :
    Deed s s' t ((s.context c).pc.event seqOps s t l.currentCoro i) := by
  have hm : Moves seqOps preemption s t l (.tick t i) s' := .stride he hk hsig hst
  have hsit := hI.control.sits hl
  simp only [Sits, he] at hsit
  have hcur := hsit.2.1
  have hnamed := (hI.control.named c).1
  generalize hpc : (s.context c).pc = pc at hst hnamed
  have hctx : s.context c = ⟨pc, []⟩ := by rw [← hpc, ← hsig]
  rw [hctx] at hcur
  cases hst with
  | resched hy =>
    refine hy.deed hI hl he (activation_call hsig hpc (hI.control.named c) _) ?_ hm
    rw [State.goto, hy.context_eq, hsig]
  | @flow pc pc' hf =>
    rw [hf.event]
    exact hm.deed_goto hI hl he hctx rfl hl he rfl rfl rfl hf.like.seat
  | @trampoline k start =>
    rw [State.setPreempt_eq s t _ hl] at hm ⊢
    exact hm.deed_goto hI hl he hctx rfl (Function.update_self _ _ _) (by simpa using he) rfl rfl rfl
      (start.plain c).seat
  | setErrno hi =>
    subst hi
    exact hm.shifts_on hI hl he (sched_modSched hl _) he rfl (fun _ _ => rfl) rfl .stay
  | newCoroutine hi =>
    subst hi
    have hcc := hI.exec_ne_coros hl he
    refine .make (fun u => ?_) (fun u => rfl) (State.live_insert rfl)
    by_cases hu : u = t
    · have hl' : ((schedMakeCoro seqOps s .user).goto c (.newLoad s.coros)).sched t = some l := hl
      rw [hu, seat_of_exec hl' he, seat_of_exec hl he, hctx]
      simp [State.goto, schedMakeCoro, Function.update_of_ne hcc, hctx, Context.seat]
    · exact hm.seat_else hI hl rfl hu
  | wait hi =>
    subst hi
    exact hm.deed_goto hI hl he hctx rfl hl he rfl rfl (State.live_modCoro _ _) rfl
  | eventWait hi =>
    subst hi
    exact hm.deed_goto hI hl he hctx rfl hl he rfl rfl (State.live_modCoro _ _) rfl
  | ret hi =>
    subst hi
    rw [State.setPreempt_eq s t _ hl] at hm ⊢
    refine hm.shifts hI hl rfl (fun _ _ => rfl) rfl ?_
    have hcur : l.currentCoro = c := hcur
    generalize hs' : State.modSched (Q := Seq) _ t _ = s' at hm ⊢
    have hseat : s'.seat t = .dying c := by
      rw [← hs']
      simp [State.seat, State.modSched, hcur]
    rw [hseat, seat_of_exec hl he, hctx, ← hs']
    exact .die
  | suspendBlock =>
    rw [State.setPreempt_eq s t _ hl] at hm ⊢
    exact hm.deed_goto hI hl he hctx rfl (Function.update_self _ _ _) (by simpa using he) rfl rfl rfl
      rfl
  | suspendPop hq => exact absurd hq seqOps_pop_ne
  | @suspendTake current p ret q x kx hq hkx =>
    have hne := fun u (hu : u ≠ t) => pop_list_ne hq hu
    obtain ⟨xs, hx, rfl⟩ := seqOps_pop hq
    refine hm.shifts_on hI hl he (sched_modSched (s := State.modCoro { s with queues := _ } _ _) hl _)
      he rfl hne (State.live_modCoro _ _) ?_
    rw [hctx, hx]
    simpa [Context.seat, State.goto, State.modSched, State.modCoro, hctx, Pc.event]
      using SeatStep.pick
  | @park current x ret kc hkc hb =>
    obtain rfl : current = c := hnamed
    have hevent : Pc.event seqOps s t l.currentCoro i (.suspendCmpxchg current x ret) =
        some (.sleep t current x) := by
      simp only [Pc.event, hkc, Option.map_some, hb, if_true]
    rw [hevent]
    refine hm.shifts hI hl rfl (fun _ _ => rfl) (State.live_modCoro _ _) ?_
    have hseat := hm.seat_next hI hl (x := x)
      (sched_modSched (s := State.goto (State.modCoro s _ _) _ _) hl _) rfl fun h => ?_
    · rw [hseat, seat_of_exec hl he, hctx]
      exact .park
    · cases he.symm.trans h
      simp [Context.Resumes, State.goto, State.modSched, State.modCoro, hctx]
  | @abort current x ret kc hkc hb =>
    have hevent : Pc.event seqOps s t l.currentCoro i (.suspendCmpxchg current x ret) = none := by
      simp only [Pc.event, hkc, Option.map_some, Option.some.injEq, if_neg hb]
    rw [hevent]
    exact hm.deed_goto hI hl he hctx rfl (sched_modSched hl _) he rfl rfl rfl rfl
  | suspendPush hq => rw [seqOps_push] at hq; cases hq
  | @suspendPushed x p ret q hq =>
    have hne := fun u (hu : u ≠ t) => push_list_ne hq hu
    rw [seqOps_push] at hq
    cases hq
    refine hm.shifts_on hI hl he hl he rfl hne rfl ?_
    rw [hctx]
    have hcur : l.currentCoro = c := hcur
    simpa [Context.seat, State.goto, hctx, Pc.event, seqOps_push, hcur] using SeatStep.putBack
  | @suspendUnblock ret =>
    rw [State.setPreempt_eq s t _ hl] at hm ⊢
    exact hm.deed_goto hI hl he hctx rfl (Function.update_self _ _ _) (by simpa using he) rfl rfl rfl
      (ret.plain c).seat
  | @rouse x ret kx hkx hb =>
    exact hm.deed_goto hI hl he hctx rfl hl he rfl rfl (State.live_modCoro _ _) (ret.plain c).seat
  | @wake x ret kx hkx hb =>
    exact hm.deed_goto hI hl he hctx rfl hl he rfl rfl (State.live_modCoro _ _) rfl
  | schedulePush hq => rw [seqOps_push] at hq; cases hq
  | @schedulePushed x p ret q hq =>
    refine hm.deed_wake hI hl he hctx hq rfl (ret.plain c).seat (d := c) ?_
    rw [seat_of_exec hl he, hctx]
    rfl
  | fetchAdd =>
    refine hm.deed_goto hI hl he hctx rfl hl he rfl rfl rfl ?_
    split <;> rfl
  | newLocal => exact hm.deed_newLocal hI hl he hctx rfl
  | newPush hq => rw [seqOps_push] at hq; cases hq
  | @newPushed x u p q hq =>
    obtain ⟨lu, d, hlu, hns, -⟩ := hI.control.starts (c := c) (u := u) (by rw [hctx]; rfl)
    obtain ⟨d, hed, hctxd⟩ := hU hlu hns
    refine hm.deed_wake hI hl he hctx hq rfl rfl (d := d) ?_
    rw [seat_of_exec hlu hed, hctxd]
    rfl
  | @newStart u =>
    by_cases hut : t = u
    · subst hut
      exact hm.deed_goto hI hl he hctx rfl (sched_modSched hl _) he rfl rfl rfl rfl
    · exact hm.deed_goto hI hl he hctx rfl ((Function.update_of_ne hut _ _).trans hl) he rfl rfl rfl rfl
  | eintr => exact hm.shifts hI hl rfl (fun _ _ => rfl) rfl .stay
  | timersMin =>
    refine hm.deed_goto hI hl he hctx rfl hl he rfl rfl rfl ?_
    split <;> rfl
  | @timersUnlock u v again =>
    refine hm.deed_goto hI hl he hctx rfl hl he rfl rfl rfl ?_
    cases again
    · exact (afterTimers_plain c u v).seat
    · rfl
  | _ => exact hm.deed_goto hI hl he hctx rfl hl he rfl rfl rfl rfl

theorem Death.deed (h : Death seqOps s t l l.exec s') :
    Deed s s' t (s.event seqOps (.tick t .step)) := by
  have hm : Moves seqOps preemption s t l (.tick t .step) s' := .death h
  have hno : ∀ d, l.exec ≠ .on d := fun d => h.not_on
  generalize hel : l.exec = e at h
  simp only [State.event, hl, hel]
  cases h with
  | free hn =>
    have hseat : s.seat t = .dying l.currentCoro := by simp only [State.seat, hl, hel]
    refine .free hseat ?_ (fun u hu => hm.seat_else hI hl rfl hu) (fun _ => rfl) ?_
    · simp [State.seat, State.modSched, hl]
    · ext y
      change Function.update s.coro l.currentCoro none y ≠ none ↔ s.coro y ≠ none ∧ y ≠ l.currentCoro
      by_cases hy : y = l.currentCoro
      · simp [hy]
      · simp [hy]
  | pop hq => exact absurd hq seqOps_pop_ne
  | @popped p q x hq =>
    have hne := fun u (hu : u ≠ t) => pop_list_ne hq hu
    obtain ⟨xs, hx, rfl⟩ := seqOps_pop hq
    refine hm.shifts hI hl rfl hne rfl ?_
    rw [hx]
    simpa [State.seat, State.modSched, hl, hel] using SeatStep.pop
  | @restore x =>
    have hseat : s.seat t = .taken x := by simp only [State.seat, hl, hel]
    have hseat' := hm.seat_next hI hl (sched_modSched hl _) rfl (x := x) fun he => absurd he (hno x)
    refine hm.shifts hI hl rfl (fun _ _ => rfl) rfl ?_
    rw [hseat, hseat']
    exact .restore

/-- **What a step does to the board**, if no signal comes between the enqueue and the switch of
`sched_resched`. -/
theorem Moves.deed (hU : Unstarted s) (hsafe : Safe s a)
    (hm : Moves seqOps preemption s t l a s') : Deed s s' t (s.event seqOps a) := by
  cases hm with
  | stride he hk hsig hst =>
    simp only [State.event, hl, he, hsig]
    exact hst.deed hI hl hU he hk hsig
  | @handler c k r rs s₁ r' he hk hsig hy =>
    simp only [State.event, hl, he, hsig]
    refine hy.deed hI hl he (activation_handler hsig (hI.control.named c) (hI.control.stacked c) _)
      ?_ (.handler he hk hsig hy)
    rw [State.setSig, hy.context_eq]
  | death hd => exact hd.deed hI hl
  | @signal c hp hlock he =>
    have hm : Moves seqOps preemption s t l (.signal t) (s.setSig c (.check :: (s.context c).sig)) :=
      .signal hp hlock he
    have hseat := (hI.seat_of_signal hl hp hlock he (hsafe t rfl)).1
    refine hm.shifts_on hI hl he hl he rfl (fun _ _ => rfl) rfl ?_
    rw [State.setSig_self, hseat]
    exact .stay

end

/-! ## Runs -/

/-- The board that `sched_init` leaves: the main coroutine runs, and its event loop is in line. -/
def startBoard : Board Tid Cid where
  live := {0, 1}
  running := Function.update (fun _ => none) 0 (some 0)
  ready := Function.update (fun _ => []) 0 [1]

section

variable {localSize : Nat} {garbage : Nat → TimerWait} {state errno threadErrno : Int}

theorem seqInit_seat (u : Tid) :
    (seqInit localSize garbage state errno threadErrno).seat u = if u = 0 then .on 0 else .vacant := by
  unfold State.seat
  rw [seqInit_sched]
  by_cases hu : u = 0
  · simp [hu, seqInit_context, Context.seat]
  · simp [hu]

theorem board_seqInit : board (seqInit localSize garbage state errno threadErrno) = startBoard := by
  have hlive : (seqInit localSize garbage state errno threadErrno).live = {0, 1} := by
    ext x
    have hword := seqInit_word localSize garbage state errno threadErrno x
    change (seqInit localSize garbage state errno threadErrno).coro x ≠ none ↔ x = 0 ∨ x = 1
    rw [Ne, ← Option.map_eq_none_iff (f := fun k : Coroutine => (k.state, k.start))]
    change State.word _ x ≠ none ↔ _
    rw [hword]
    by_cases h0 : x = 0
    · simp [h0]
    · by_cases h1 : x = 1
      · simp [h1]
      · simp [h0, h1]
  have hrunning : (board (seqInit localSize garbage state errno threadErrno)).running =
      startBoard.running := by
    funext u
    rw [board_running, seqInit_seat, startBoard]
    by_cases hu : u = 0
    · simp [hu]
    · simp [hu]
  have hready : (board (seqInit localSize garbage state errno threadErrno)).ready =
      startBoard.ready := by
    funext u
    rw [board_ready, seqInit_seat, seqInit_list, startBoard]
    by_cases hu : u = 0
    · simp [hu]
    · simp [hu]
  change Board.mk _ (board _).running (board _).ready = _
  rw [hlive, hrunning, hready]
  rfl

theorem Reach.tailed
    (h : Reach seqOps preemption (fun s a => Proper s a ∧ Safe s a)
      (seqInit localSize garbage state errno threadErrno) s) (hf : s.failure = none) : Tailed s := by
  induction h with
  | init =>
    intro u c hc
    rw [seqInit_seat] at hc
    split at hc <;> cases hc
  | @next s s' a h hoka hs ih =>
    obtain ⟨hf₀, t, l, hl, -, hm⟩ := step_moves seqOps hs hf
    obtain ⟨hI, hU⟩ := h.unstarted id hf₀
    exact (hm.deed hI hl hU hoka.2).tailed (ih hf₀)

/-- **A step of a run does on the board what it shows.** -/
theorem Reach.shows
    (h : Reach seqOps preemption (fun s a => Proper s a ∧ Safe s a)
      (seqInit localSize garbage state errno threadErrno) s)
    (hok : Proper s a ∧ Safe s a) (hs : step seqOps preemption s a = some s') (hf : s'.failure = none) :
    Dispatch.Shows (board s) (s.event seqOps a) (board s') := by
  obtain ⟨hf₀, t, l, hl, -, hm⟩ := step_moves seqOps hs hf
  obtain ⟨hI, hU⟩ := h.unstarted id hf₀
  exact (hm.deed hI hl hU hok.2).shows hI (h.tailed hf₀)

theorem Reach.trans {Q ι δ : Type} {ops : ListOps Q ι δ} {ok : State Q ι δ → Act → Prop}
    {s₀ s₁ s₂ : State Q ι δ} (h₁ : Reach ops preemption ok s₀ s₁)
    (h₂ : Reach ops preemption ok s₁ s₂) : Reach ops preemption ok s₀ s₂ := by
  induction h₂ with
  | init => exact h₁
  | next _ hok hs ih => exact ih.next hok hs

/-- **The events of a run of the scheduler are a run of the board.** -/
theorem Noted.dispatches {es : List (Event Tid Cid)}
    (h : Noted seqOps preemption (fun s a => Proper s a ∧ Safe s a) (noteDispatch seqOps)
      (seqInit localSize garbage state errno threadErrno) [] s es) (hf : s.failure = none) :
    Dispatch.Run startBoard es (board s) := by
  induction h with
  | init =>
    rw [board_seqInit]
    exact .init
  | @next s s' a es h hoka hs ih => exact (ih (step_failure seqOps hs)).shows (h.reach.shows hoka hs hf)

/-- **Nobody is overtaken.** A coroutine in line for a thread keeps its place: whatever the threads do,
those ahead of it are the last ones of those that were ahead of it before, until it is the first in
line and a step shows that it has its turn, which is that the thread switches to it or that
`sched_suspend` puts it back at the end of the line. No signal comes between the enqueue and the switch
of `sched_resched`. -/
theorem not_overtaken {pre post : List Cid}
    (h : Reach seqOps preemption (fun s a => Proper s a ∧ Safe s a)
      (seqInit localSize garbage state errno threadErrno) s)
    (h' : Reach seqOps preemption (fun s a => Proper s a ∧ Safe s a) s s') (hf : s'.failure = none)
    (hx : (board s).ready t = pre ++ x :: post) :
    (∃ n post', (board s').ready t = pre.drop n ++ x :: post') ∨
      ∃ s₁ s₂ a e, Reach seqOps preemption (fun s a => Proper s a ∧ Safe s a) s s₁ ∧
        step seqOps preemption s₁ a = some s₂ ∧
        Reach seqOps preemption (fun s a => Proper s a ∧ Safe s a) s₂ s' ∧
        s₁.event seqOps a = some e ∧ Dispatch.Turn (board s₁) e (board s₂) t x := by
  induction h' with
  | init => exact .inl ⟨0, post, hx⟩
  | @next s₁ s₂ a h₁ hoka hs ih =>
    rcases ih (step_failure seqOps hs) with ⟨n, post', hready⟩ | ⟨r, r', b, e, hr, hb, hr', he, hturn⟩
    · have hshows := (h.trans h₁).shows hoka hs hf
      rcases hshows.in_line hready with ⟨m, post'', hready'⟩ | ⟨e, he, hturn⟩
      · rw [List.drop_drop] at hready'
        exact .inl ⟨n + m, post'', hready'⟩
      · exact .inr ⟨s₁, s₂, a, e, h₁, hs, .init, he, hturn⟩
    · exact .inr ⟨r, r', b, e, hr, hb, hr'.next hoka hs, he, hturn⟩

end

/-- A check on actions for runs without signals in which user code wakes nobody. -/
def unsignalled (_ : SeqState) : Act → Bool
  | .signal _ => false
  | a => a.leavesAsleep

theorem unsignalled.sound (s : SeqState) (a : Act) (h : unsignalled s a = true) :
    Proper s a ∧ Safe s a := by
  cases a with
  | signal t => cases h
  | tick t i =>
    refine ⟨Act.leavesAsleep.proper s _ h, ?_⟩
    rintro u ⟨⟩

/-- The main coroutine makes a coroutine, which is in line behind the event loop. -/
def secondInLine : List Act :=
  .tick 0 (.op .newCoroutine) :: List.replicate 4 (.tick 0 .step)

/-- The main coroutine yields, to the event loop. -/
def yieldsToLoop : List Act :=
  .tick 0 (.op .resched) :: List.replicate 5 (.tick 0 .step)

theorem not_overtaken_second :
    ∃ s s', run seqOps false unsignalled seqStart secondInLine = some s ∧
      run seqOps false unsignalled s yieldsToLoop = some s' ∧
      (board s).ready 0 = [1] ++ 2 :: [] ∧ (board s').running 0 = some 1 ∧
      ((∃ n post', (board s').ready 0 = List.drop n [1] ++ 2 :: post') ∨
        ∃ s₁ s₂ a e, Reach seqOps false (fun s a => Proper s a ∧ Safe s a) s s₁ ∧
          step seqOps false s₁ a = some s₂ ∧
          Reach seqOps false (fun s a => Proper s a ∧ Safe s a) s₂ s' ∧
          s₁.event seqOps a = some e ∧ Dispatch.Turn (board s₁) e (board s₂) 0 2) := by
  obtain ⟨s, hr, hx, s', hr', hf, hrunning⟩ :
      ∃ s, run seqOps false unsignalled seqStart secondInLine = some s ∧
        (board s).ready 0 = [1] ++ 2 :: [] ∧
        ∃ s', run seqOps false unsignalled s yieldsToLoop = some s' ∧ s'.failure = none ∧
          (board s').running 0 = some 1 := ⟨_, rfl, rfl, _, rfl, rfl, rfl⟩
  exact ⟨s, s', hr, hr', hx, hrunning,
    not_overtaken (Reach.run hr unsignalled.sound .init) (Reach.run hr' unsignalled.sound .init) hf hx⟩

/-! ## The machine over nodes -/

/-- A point where a statement of an enqueue is next that ends with an event. -/
@[simp] def Pc.pushing {ι δ : Type} : Pc ι δ → Bool
  | .suspendEnqueue _ (.push _) _ => true
  | .scheduleEnqueue _ (.push _) _ => true
  | .newEnqueue _ _ (.push _) => true
  | _ => false

/-- Over sequences an enqueue is one step. -/
theorem Stride.not_pushing {pc : Pc Unit Unit} (hst : Stride seqOps preemption s t l c i pc s')
    (hp : pc.pushing = true) : (s'.context c).pc.pushing = false := by
  have hret : ∀ {s₀ : SeqState} {pc' : Pc Unit Unit}, pc'.pushing = false →
      ((s₀.goto c pc').context c).pc.pushing = false := by
    intro s₀ pc' h
    rwa [State.goto_pc]
  cases hst with
  | suspendPush hq => rw [seqOps_push] at hq; cases hq
  | suspendPushed => exact hret rfl
  | schedulePush hq => rw [seqOps_push] at hq; cases hq
  | @schedulePushed x p ret => exact hret (by cases ret <;> rfl)
  | newPush hq => rw [seqOps_push] at hq; cases hq
  | newPushed => exact hret rfl
  | flow hf => cases hf <;> cases hp
  | _ => cases hp

section

variable {s s' : PtrState} {q q' : Seq} {l : LocalSched (PopPc Node)}
  {pc : Pc (PushPc Node) (PopPc Node)}

theorem Pc.pushing_forget : pc.forget.pushing = pc.pushing := by
  cases pc with
  | suspendEnqueue _ p => cases p <;> rfl
  | scheduleEnqueue _ p => cases p <;> rfl
  | newEnqueue _ _ p => cases p <;> rfl
  | _ => rfl

theorem ReschedPc.event_forget {r : ReschedPc (PushPc Node) (PopPc Node)} {current : Cid} :
    r.forget.event t current = r.event t current := by
  cases r <;> rfl

/-- The code shows the same over nodes as over sequences, when the step ends the enqueue it is in. -/
theorem Stride.event_forget (hst : Stride ptrOps preemption s t l c i pc s')
    (hp : pc.pushing = true → (s'.context c).pc.pushing = false) :
    pc.forget.event seqOps (s.forget q) t l.currentCoro i = pc.event ptrOps s t l.currentCoro i := by
  cases hst with
  | resched => exact ReschedPc.event_forget
  | suspendPush =>
    have := hp rfl
    rw [State.goto_pc] at this
    cases this
  | suspendPushed hq => simp [Pc.event, seqOps_push, hq]
  | schedulePush =>
    have := hp rfl
    rw [State.goto_pc] at this
    cases this
  | schedulePushed hq => simp [Pc.event, seqOps_push, hq]
  | newPush =>
    have := hp rfl
    rw [State.goto_pc] at this
    cases this
  | newPushed hq => simp [Pc.event, seqOps_push, hq]
  | flow hf => cases hf <;> rfl
  | _ => rfl

/-- A step over nodes that is one over sequences shows the same there. -/
theorem Moves.event_forget (hm : Moves ptrOps preemption s t l a s') (hl : s.sched t = some l)
    (hseq : Moves seqOps preemption (s.forget q) t l.forget a (s'.forget q')) :
    (s.forget q).event seqOps a = s.event ptrOps a := by
  have hl' := s.forget_sched q t hl
  cases hm with
  | @stride c k i _ he hk hsig hst =>
    have he' := LocalSched.forget_on he
    have hctx : (s.forget q).context c = ⟨(s.context c).pc.forget, []⟩ := by
      simp only [State.forget, Context.forget, hsig, List.map_nil]
    have hpush : (s.context c).pc.pushing = true → (s'.context c).pc.pushing = false := by
      intro hp
      have hforget : (s'.context c).pc.forget.pushing = (s'.context c).pc.pushing := Pc.pushing_forget
      have hpc : ((s'.forget q').context c).pc = (s'.context c).pc.forget := rfl
      rw [← hforget, ← hpc]
      generalize s'.forget q' = s₂ at hseq
      cases hseq with
      | stride he₁ _ _ hst₁ =>
        obtain rfl := Exec.on.inj (he'.symm.trans he₁)
        rw [hctx] at hst₁
        exact hst₁.not_pushing (Pc.pushing_forget.trans hp)
      | handler he₁ _ hsig₁ =>
        obtain rfl := Exec.on.inj (he'.symm.trans he₁)
        rw [hctx] at hsig₁
        cases hsig₁
      | death hd => exact absurd he' hd.not_on
    simp only [State.event, hl, hl', he, he', hsig, hctx]
    exact hst.event_forget hpush
  | @handler c k r rs s₁ r' he hk hsig hy =>
    have he' := LocalSched.forget_on he
    have hctx : (s.forget q).context c =
        ⟨(s.context c).pc.forget, r.forget :: rs.map ReschedPc.forget⟩ := by
      simp only [State.forget, Context.forget, hsig, List.map_cons]
    simp only [State.event, hl, hl', he, he', hsig, hctx]
    exact ReschedPc.event_forget
  | death hd =>
    simp only [State.event, hl, hl', LocalSched.forget]
    generalize l.exec = e at hd
    cases hd <;> rfl
  | signal => rfl

/-- A switch of `sched_resched` to another coroutine changes the thread. -/
theorem Yield.event_stay {r : ReschedPc (PushPc Node) (PopPc Node)} {s₁ : PtrState}
    {r' : Option (ReschedPc (PushPc Node) (PopPc Node))}
    (hy : Yield ptrOps preemption s t l r s₁ r') (hl : s.sched t = some l)
    (hcur : ∀ {l'}, s₁.sched t = some l' → l'.currentCoro = l.currentCoro) :
    r.event t l.currentCoro = none := by
  cases hy with
  | @switch x k hp hk =>
    obtain ⟨l₁, hl₁⟩ : ∃ l₁, (s.setPreempt preemption t true).sched t = some l₁ := by
      unfold State.setPreempt
      split
      · exact ⟨_, sched_modSched hl _⟩
      · exact ⟨l, hl⟩
    have hx : x = l.currentCoro := hcur (sched_modSched hl₁ _)
    simp only [ReschedPc.event, hx, if_true]
  | _ => rfl

/-- A step over nodes that does nothing over sequences shows nothing. -/
theorem Moves.event_stay (hm : Moves ptrOps preemption s t l a s') (hl : s.sched t = some l)
    (h : s'.forget q' = s.forget q) : s.event ptrOps a = none := by
  have hsched : ∀ {l'}, s'.sched t = some l' → l'.forget = l.forget := by
    intro l' hl'
    have h := congrArg (fun s : SeqState => s.sched t) h
    simp only [s'.forget_sched q' t hl', s.forget_sched q t hl] at h
    exact Option.some.inj h
  have hcur : ∀ {l'}, s'.sched t = some l' → l'.currentCoro = l.currentCoro := fun hl' =>
    congrArg (fun l : LocalSched Unit => l.currentCoro) (hsched hl')
  have hcoros : s'.coros = s.coros := congrArg (fun s : SeqState => s.coros) h
  cases hm with
  | @stride c k i _ he hk hsig hst =>
    have hpc : (s'.context c).pc.forget = (s.context c).pc.forget :=
      congrArg (fun s : SeqState => (s.context c).pc) h
    simp only [State.event, hl, he, hsig]
    generalize (s.context c).pc = pc at hst hpc
    -- the point after a step that shows something
    have hgo : ∀ {s₀ : PtrState} {pc'}, s' = s₀.goto c pc' → pc'.forget = pc.forget := by
      rintro s₀ pc' rfl
      rwa [State.goto_pc] at hpc
    cases hst with
    | resched hy => exact hy.event_stay hl fun hl' => hcur hl'
    | flow hf => exact hf.event
    | setErrno hi => subst hi; rfl
    | newCoroutine => exact absurd hcoros (Nat.succ_ne_self _)
    | wait hi => subst hi; rfl
    | eventWait hi => subst hi; rfl
    | ret hi => subst hi; rfl
    | @park current x ret kc hkc hb =>
      simp [State.modSched, State.goto] at hpc
    | @abort current x ret kc hkc hb =>
      simp only [Pc.event, hkc, Option.map_some, Option.some.injEq, if_neg hb]
    | suspendPush hq => simp [Pc.event, hq]
    | suspendPushed => cases hgo rfl
    | schedulePush hq => simp [Pc.event, hq]
    | @schedulePushed x p ret =>
      have := hgo rfl
      cases ret <;> cases this
    | newLocal => exact absurd hcoros (Nat.succ_ne_self _)
    | newPush hq => simp [Pc.event, hq]
    | newPushed => cases hgo rfl
    | _ => rfl
  | handler he hk hsig hy =>
    simp only [State.event, hl, he, hsig]
    exact hy.event_stay hl fun hl' => hcur hl'
  | death hd =>
    simp only [State.event, hl]
    have hexec : ∀ {l'}, s'.sched t = some l' → l'.exec.forget = l.exec.forget := fun hl' =>
      congrArg (fun l : LocalSched Unit => l.exec) (hsched hl')
    generalize l.exec = e at hd hexec
    cases hd with
    | free => cases hexec (sched_modSched hl _)
    | restore => cases hexec (sched_modSched hl _)
    | _ => rfl
  | signal => rfl

end

/-- **The scheduler is a dispatcher.** Take any run of the machine over nodes, with any number of
threads and coroutines, in either build, with signals that come neither inside an operation on the run
list of their thread nor between the enqueue and the switch of `sched_resched`. The events that its
steps show are, in their order, a run of a dispatcher from the board of `sched_init` to the board of
the state that the run has reached: coroutines are made asleep, a thread runs one at a time, a woken
coroutine joins one line, at its end, a thread goes on with the first in its line when its coroutine
yields, sleeps or dies, and the first in line goes to its end when `sched_suspend` finds that its caller
has been woken. So those who leave a line leave in the order in which they have joined it. -/
theorem scheduler_dispatches {m : Mem Node} {localSize : Nat} {garbage : Nat → TimerWait}
    {state errno threadErrno : Int} {s : PtrState} {es : List (Event Tid Cid)}
    (h : Noted ptrOps preemption (fun s a => Proper s a ∧ Permitted s a) (noteDispatch ptrOps)
      (ptrInit m localSize garbage state errno threadErrno) [] s es) (hf : s.failure = none) :
    ∃ q, ListsSound s q ∧ Dispatch.Run startBoard es (board (s.forget q)) ∧
      ∀ t, startBoard.ready t ++ es.flatMap (·.joins t) =
        es.flatMap (·.leaves t) ++ (board (s.forget q)).ready t := by
  have hok {s : PtrState} {q : Seq} {a : Act} (h : Proper s a ∧ Permitted s a) :
      Proper (s.forget q) a ∧ Safe (s.forget q) a := ⟨h.1.forget, h.2.safe⟩
  obtain ⟨q, es', hN, hinv⟩ :
      ∃ q es', Noted seqOps preemption (fun s a => Proper s a ∧ Safe s a) (noteDispatch seqOps)
        (seqInit localSize garbage state errno threadErrno) [] (s.forget q) es' ∧ _ :=
    h.refines id hok
      (fun hm hl hforget => by
        rw [noteDispatch, hm.event_stay hl hforget, Option.toList_none, List.append_nil])
      fun hm hl hseq => by rw [noteDispatch, noteDispatch, hm.event_forget hl hseq]
  obtain ⟨rfl, hI, -, hS⟩ := hinv hf
  have hrun := hN.dispatches hf
  exact ⟨q, hS.sound hI, hrun, hrun.fifo⟩

theorem scheduler_dispatches_signal :
    ∃ s q es, noteRun ptrOps true permits (noteDispatch ptrOps) ptrStart [] signalInSchedule =
        some (s, es) ∧ ListsSound s q ∧ Dispatch.Run startBoard es (board (s.forget q)) ∧
      ∀ t, startBoard.ready t ++ es.flatMap (·.joins t) =
        es.flatMap (·.leaves t) ++ (board (s.forget q)).ready t := by
  obtain ⟨s, es, hr, hf⟩ :
      ∃ s es, noteRun ptrOps true permits (noteDispatch ptrOps) ptrStart [] signalInSchedule =
        some (s, es) ∧ s.failure = none := ⟨_, _, rfl, rfl⟩
  obtain ⟨q, hboard⟩ := scheduler_dispatches (Noted.run hr permits.sound .init) hf
  exact ⟨s, q, es, hr, hboard⟩

end Lwthread.Scheduler
