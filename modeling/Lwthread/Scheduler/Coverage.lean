import Lwthread.Scheduler.EventLoop
import Lwthread.Scheduler.Expiry

/-!
# Every timer is covered

The timer heap belongs to all threads, and a thread that pushes a timer wakes no other. Still some
thread looks at every timer in time: the event loop of the thread that pushes it is not in
`platform_poll_poll` then, because the thread executes the coroutine that calls `sched_wait`, and
before it polls again it calls `sched_poll_timeout` with the timer in the heap (`timers_covered`).

`Timeout` notes the last call of `sched_poll_timeout` of each event loop. The deadlines are such that
the milliseconds that remain are an `int`; then `timer_compare` orders them, and the minimum of the
heap expires first. `sched_poll_timeout` takes no lock: when it reads the clock, the minimum that it has
found may have left the heap, and timers that it has not seen may be there. What it has seen is still
later than the minimum (`Timeout.Foresees`), and the others are covered by the threads that have pushed
them.
-/

namespace Lwthread.Scheduler

open Lwthread.Util Lwthread.Platform Custody

/-! ## Deadlines within an `int` of milliseconds -/

/-- The milliseconds from `now` to `d` are an `int`. The nanoseconds of a deadline may make a whole
second, as those of `async_sleep_relative` do. -/
structure Timespec.IntMillis (now d : Timespec) : Prop where
  clock : 0 ≤ now.tvNsec ∧ now.tvNsec < 10 ^ 9
  nsec : 0 ≤ d.tvNsec ∧ d.tvNsec ≤ 10 ^ 9
  int : -2 ^ 31 ≤ now.millisTo d ∧ now.millisTo d < 2 ^ 31

/-- The order of the seconds, then of the nanoseconds. -/
def Timespec.key (d : Timespec) : Int := d.tvSec * (10 ^ 9 + 1) + d.tvNsec

section

variable {now d d' : Timespec} {w w' : TimerWait}

theorem Timespec.IntMillis.sec (h : now.IntMillis d) :
    -2147485 ≤ d.tvSec - now.tvSec ∧ d.tvSec - now.tvSec ≤ 2147485 := by
  obtain ⟨⟨h1, h2⟩, ⟨h3, h4⟩, h5, h6⟩ := h
  unfold millisTo at h5 h6
  rw [tdiv_million] at h5 h6
  constructor
  · split at h5 <;> omega
  · split at h6 <;> omega

theorem Timespec.IntMillis.fits (h : now.IntMillis d) : now.Fits d := by
  have hs := h.sec
  obtain ⟨⟨h1, h2⟩, ⟨h3, h4⟩, h5, h6⟩ := h
  constructor <;> constructor <;> omega

theorem Timespec.IntMillis.timerExpiration (h : now.IntMillis w.time) :
    timerExpiration w now = now.millisTo w.time := timerExpiration_eq h.fits

/-- `timer_compare` has the sign of the order. -/
theorem Timespec.IntMillis.compare (h : now.IntMillis w.time) (h' : now.IntMillis w'.time) :
    (timerCompare w w').sign = (w.time.key - w'.time.key).sign := by
  have hs := h.sec
  have hs' := h'.sec
  obtain ⟨-, ⟨h1, h2⟩, -⟩ := h
  obtain ⟨-, ⟨h3, h4⟩, -⟩ := h'
  unfold timerCompare key
  rw [CInt.long_eq_self (by omega) (by omega)]
  dsimp only
  split
  · next hne =>
    rw [CInt.int_eq_self (by omega) (by omega)]
    rcases lt_or_gt_of_ne hne with hlt | hgt
    · rw [Int.sign_eq_neg_one_of_neg hlt, Int.sign_eq_neg_one_of_neg (by omega)]
    · rw [Int.sign_eq_one_of_pos hgt, Int.sign_eq_one_of_pos (by omega)]
  · next heq =>
    rw [CInt.long_eq_self (by omega) (by omega), CInt.int_eq_self (by omega) (by omega)]
    congr 1
    omega

/-- What comes later in the order expires no earlier. -/
theorem Timespec.IntMillis.mono (hd : 0 ≤ d.tvNsec ∧ d.tvNsec ≤ 10 ^ 9) (h' : now.IntMillis d')
    (hle : d.key ≤ d'.key) : now.millisTo d ≤ now.millisTo d' := by
  obtain ⟨h3, h4⟩ := hd
  obtain ⟨⟨h1, h2⟩, ⟨h5, h6⟩, -⟩ := h'
  unfold key at hle
  unfold millisTo
  rw [tdiv_million, tdiv_million]
  split <;> split <;> omega

end

/-- There is a time from which the milliseconds to every timer of `ws` are an `int`. -/
def InReach (ws : Multiset TimerWait) : Prop := ∃ now, ∀ w ∈ ws, Timespec.IntMillis now w.time

/-- The timer heap is ordered, by a comparator that orders its items. -/
def Sorted (h : Heap TimerWait) : Prop := h.Valid (· ∈ h.bag)

section

variable {h : Heap TimerWait} {w : TimerWait} {now : Timespec}

theorem InReach.signPreorder {ws : Multiset TimerWait} (hr : InReach ws) :
    SignPreorder (· ∈ ws) timerCompare := by
  obtain ⟨now, hnow⟩ := hr
  exact .of_key (fun w => w.time.key) fun w w' hw hw' => (hnow w hw).compare (hnow w' hw')

theorem Sorted.push (hs : Sorted h) (hc : h.compare = timerCompare) (hr : InReach (w ::ₘ h.bag)) :
    Sorted (heapPush .block h w).2 := by
  have hv : h.Valid (· ∈ w ::ₘ h.bag) :=
    ⟨hc ▸ hr.signPreorder, fun x hx => Multiset.mem_cons_of_mem hx, hs.ordered⟩
  unfold Sorted
  rw [heapPush_bag]
  exact hv.push (Multiset.mem_cons_self w h.bag)

theorem Sorted.popMin (hs : Sorted h) (hlt : h.items ≤ 2 ^ 30) :
    Sorted (heapPopMin .block h).2 := by
  have hv := Heap.Valid.popMin hs hlt
  exact ⟨⟨fun x y hx hy => hv.pre.flip x y (hv.mem x hx) (hv.mem y hy),
    fun x y z hx hy hz => hv.pre.trans x y z (hv.mem x hx) (hv.mem y hy) (hv.mem z hz)⟩,
    fun x hx => hx, hv.ordered⟩

theorem Sorted.heapMin (hs : Sorted h) : Sorted (Util.heapMin h).2 := by
  unfold Util.heapMin
  split
  · exact hs
  · exact ⟨hs.pre, hs.mem, hs.ordered⟩

/-- The minimum of a sorted heap comes first in the order. -/
theorem Sorted.key_le (hs : Sorted h) (hc : h.compare = timerCompare) (hr : InReach h.bag)
    {m : TimerWait} (hm : (Util.heapMin h).1 = some m) (hw : w ∈ h.bag) :
    m ∈ h.bag ∧ m.time.key ≤ w.time.key := by
  have hi : h.items ≠ 0 := by
    intro hi
    unfold Util.heapMin at hm
    rw [if_pos hi] at hm
    cases hm
  obtain rfl := Option.some.inj ((heapMin_eq hi).symm.trans hm)
  obtain ⟨hmem, hleast⟩ := Heap.Valid.least hs hi
  obtain ⟨now, hnow⟩ := hr
  refine ⟨hmem, ?_⟩
  have hle := hleast w hw
  rw [hc, ← Int.sign_nonpos_iff, (hnow _ hmem).compare (hnow w hw), Int.sign_nonpos_iff] at hle
  omega

theorem InReach.of_le {ws ws' : Multiset TimerWait} (hr : InReach ws) (hle : ∀ w ∈ ws', w ∈ ws) :
    InReach ws' := by
  obtain ⟨now, hnow⟩ := hr
  exact ⟨now, fun w hw => hnow w (hle w hw)⟩

/-- What comes first in the order expires first, also when only the later one is an `int` of
milliseconds away. -/
theorem expires_first {m : TimerWait} (hr : InReach {m, w}) (hle : m.time.key ≤ w.time.key)
    (hw : now.IntMillis w.time) : timerExpiration m now ≤ timerExpiration w now := by
  obtain ⟨now', hnow'⟩ := hr
  have hm' := hnow' m (by simp)
  have hw' := hnow' w (by simp)
  have hsec := hw.sec
  have hsecm := hm'.sec
  have hsecw := hw'.sec
  obtain ⟨h1, h2⟩ := hm'.nsec
  obtain ⟨h3, h4⟩ := hw.clock
  have hfits : now.Fits m.time := by
    constructor
    · omega
    · omega
    · omega
    · unfold Timespec.millisTo
      rw [tdiv_million]
      split <;> omega
  rw [timerExpiration_eq hfits, hw.timerExpiration]
  exact hw.mono hm'.nsec hle

end

/-! ## What is noted along a run -/

/-- A call of `sched_poll_timeout`: the timers in the heap when it looked at the run list or for the
minimum, the clock reading of `timer_expiration` if it has taken one, and the timeout, which is -1
until then. -/
structure Timeout where
  timers : Multiset TimerWait
  now : Option Timespec
  value : Int

/-- What a step notes of a call of `sched_poll_timeout`, of which `last` is noted: it ends at
`list_empty` when the run list is not empty, at `heap_min` when there is no timer, and at the clock
reading otherwise. -/
def State.timeout (s : SeqState) (i : Input) (last : Option Timeout) : Pc Unit Unit → Option Timeout
  | .loopTop u => if (s.queues.list u).isEmpty then none else some ⟨s.timerHeap.bag, none, 0⟩
  | .loopMin _ => some ⟨s.timerHeap.bag, none, -1⟩
  | .loopExpire _ w =>
    match i with
    | .clock now => last.map fun v => { v with now := some now, value := max 0 (timerExpiration w now) }
    | _ => none
  | _ => none

/-- Note the last call of `sched_poll_timeout` of each coroutine. -/
def noteTimeouts (s : SeqState) (a : Act) (n : Cid → Option Timeout) : Cid → Option Timeout :=
  match a with
  | .signal _ => n
  | .tick t i =>
    match s.running t with
    | none => n
    | some (c, pc) =>
      match s.timeout i (n c) pc with
      | none => n
      | some v => Function.update n c (some v)

@[simp] def ScheduleRet.polling : ScheduleRet → Option Int
  | .pollEvent _ v _ _ => some v
  | _ => none

/-- The timeout of a point inside `platform_poll_poll`. -/
@[simp] def Pc.polling : Pc Unit Unit → Option Int
  | .pollWait _ v => some v
  | .pollEvents _ v _ _ => some v
  | .scheduleXchg _ ret => ret.polling
  | .scheduleEnqueue _ _ ret => ret.polling
  | _ => none

/-- A call of `sched_poll_timeout` takes the timer `w` into account. -/
structure Timeout.Minds (v : Timeout) (w : TimerWait) : Prop where
  mem : w ∈ v.timers
  nonneg : 0 ≤ v.value
  le : v.value = 0 ∨ ∃ now, v.now = some now ∧ v.value ≤ max 0 (timerExpiration w now)

/-- The event loop of thread `t` is not in `platform_poll_poll`, or it has called it with a timeout
that takes `w` into account. -/
def Covers (s : SeqState) (n : Cid → Option Timeout) (t : Tid) (w : TimerWait) : Prop :=
  ∃ l e, s.sched t = some l ∧ l.started = true ∧ l.eventLoopCoro = some e ∧
    ∀ v, (s.context e).pc.polling = some v → ∃ timeout, n e = some timeout ∧ timeout.value = v ∧
      timeout.Minds w

/-- Some thread covers each timer in the heap. -/
def Covered (s : SeqState) (n : Cid → Option Timeout) : Prop :=
  ∀ w ∈ s.timerHeap.bag, ∃ t, Covers s n t w

/-- The timer that `sched_poll_timeout` has found and not yet read the clock for. -/
@[simp] def Pc.expires : Pc Unit Unit → Option TimerWait
  | .loopExpire _ w => some w
  | _ => none

/-- `sched_poll_timeout` has seen `w` behind its minimum `m`. -/
structure Timeout.Foresees (v : Timeout) (m w : TimerWait) : Prop where
  mem : w ∈ v.timers
  le : m.time.key ≤ w.time.key
  reach : InReach {m, w}

/-- A coroutine at `pc`, with what is noted of its last call, does not miss `w`. -/
structure Minded (pc : Pc Unit Unit) (o : Option Timeout) (w : TimerWait) : Prop where
  polls : ∀ {v}, pc.polling = some v → ∃ timeout, o = some timeout ∧ timeout.value = v ∧
    timeout.Minds w
  expires : ∀ {m}, pc.expires = some m → ∃ timeout, o = some timeout ∧ timeout.Foresees m w

/-- The event loop of thread `t` does not miss `w`. -/
def Watches (s : SeqState) (n : Cid → Option Timeout) (t : Tid) (w : TimerWait) : Prop :=
  ∃ l e, s.sched t = some l ∧ l.started = true ∧ l.eventLoopCoro = some e ∧
    Minded (s.context e).pc (n e) w

/-- At each clock reading the milliseconds to the timers in the heap are an `int`, at a push those to
the new timer as well, and the heap has no more items than its indices allow. -/
structure Timely (s : SeqState) (a : Act) : Prop where
  clock : ∀ t now, a = .tick t (.clock now) → ∀ w ∈ s.timerHeap.bag, now.IntMillis w.time
  push : ∀ t i c w, a = .tick t i → s.running t = some (c, .waitPush w) →
    InReach (w ::ₘ s.timerHeap.bag)
  items : s.timerHeap.items ≤ 2 ^ 30

/-! ## Steps -/

variable {s s' : SeqState} {t u : Tid} {l : LocalSched Unit} {c d : Cid} {i : Input} {a : Act}
  {n : Cid → Option Timeout} {w : TimerWait}

/-- What a step of the code of `c` does to the timeout it polls with. -/
inductive PollStep (s s' : SeqState) (c : Cid) (i : Input) (last : Option Timeout) : Prop
  | out (h : (s'.context c).pc.polling = none) (he : (s'.context c).pc.expires = none)
  | stay (h : (s'.context c).pc.polling = (s.context c).pc.polling)
      (he : (s'.context c).pc.expires = (s.context c).pc.expires)
      (hn : s.timeout i last (s.context c).pc = none)
  | enter {v} (hn : s.timeout i last (s.context c).pc = some v)
      (h : (s'.context c).pc.polling = some v.value) (he : (s'.context c).pc.expires = none)
      (hv : v.timers = s.timerHeap.bag) (hval : v.value = 0 ∨ s.timerHeap.bag = 0)
  | look {v m} (hn : s.timeout i last (s.context c).pc = some v) (h : (s'.context c).pc.polling = none)
      (he : (s'.context c).pc.expires = some m) (hv : v.timers = s.timerHeap.bag)
      (hm : (heapMin s.timerHeap).1 = some m)
  | expire {m now} (hi : i = .clock now) (hpc : (s.context c).pc.expires = some m)
      (hn : s.timeout i last (s.context c).pc = last.map fun v =>
        { v with now := some now, value := max 0 (timerExpiration m now) })
      (h : (s'.context c).pc.polling = some (max 0 (timerExpiration m now)))
      (he : (s'.context c).pc.expires = none)

theorem Stride.pollStep (last : Option Timeout)
    (h : Stride seqOps false s t l c i (s.context c).pc s') : PollStep s s' c i last := by
  generalize hpc : (s.context c).pc = pc at h
  have hout : ∀ {s₀ : SeqState} {pc' : Pc Unit Unit}, s' = s₀.goto c pc' → pc'.polling = none →
      pc'.expires = none → PollStep s s' c i last := by
    rintro s₀ pc' rfl hpc' he
    exact .out (by rw [State.goto_pc]; exact hpc') (by rw [State.goto_pc]; exact he)
  have hstay : ∀ {s₀ : SeqState} {pc' : Pc Unit Unit}, s' = s₀.goto c pc' →
      pc'.polling = pc.polling → pc'.expires = pc.expires → s.timeout i last pc = none →
      PollStep s s' c i last := by
    rintro s₀ pc' rfl hpc' he hn
    exact .stay (by rw [State.goto_pc, hpc]; exact hpc') (by rw [State.goto_pc, hpc]; exact he)
      (by rw [hpc]; exact hn)
  cases h with
  | @resched r ret s₁ r' hy =>
    cases r' with
    | none => cases ret <;> exact hout rfl rfl rfl
    | some r' => exact hout rfl rfl rfl
  | flow hf =>
    cases hf with
    | scheduleAssert => exact hstay rfl rfl rfl rfl
    | @loopBusy u hne =>
      have hn : s.timeout i last (.loopTop u) = some ⟨s.timerHeap.bag, none, 0⟩ := by
        have : (s.queues.list u).isEmpty = false := hne
        simp [State.timeout, this]
      exact .enter (by rw [hpc]; exact hn) (by rw [State.goto_pc]; rfl) (by rw [State.goto_pc]; rfl)
        rfl (.inl rfl)
    | @loopExpire u m now hi =>
      subst hi
      have hval : (if timerExpiration m now < 0 then 0 else timerExpiration m now) =
          max 0 (timerExpiration m now) := by split <;> omega
      exact .expire rfl (by rw [hpc]; rfl) (by rw [hpc]; rfl)
        (by rw [State.goto_pc]; exact congrArg some hval) (by rw [State.goto_pc]; rfl)
    | pollAgain => exact hstay rfl rfl rfl rfl
    | pollTaken => exact hstay rfl rfl rfl rfl
    | timersNone => refine hout rfl ?_ ?_ <;> unfold afterTimers <;> split <;> rfl
    | _ => exact hout rfl rfl rfl
  | @trampoline k start => cases start <;> exact hout rfl rfl rfl
  | setErrno => exact .out (by simp [State.modSched, hpc]) (by simp [State.modSched, hpc])
  | ret =>
    exact .out (by simp [State.modSched, State.setPreempt, hpc])
      (by simp [State.modSched, State.setPreempt, hpc])
  | park => exact .out (by simp [State.modSched, State.goto]) (by simp [State.modSched, State.goto])
  | @suspendUnblock ret => cases ret <;> exact hout rfl rfl rfl
  | @rouse x ret => cases ret <;> exact hstay rfl rfl rfl rfl
  | @wake x ret => cases ret <;> exact hstay rfl rfl rfl rfl
  | schedulePush => exact hstay rfl rfl rfl rfl
  | @schedulePushed x p ret => cases ret <;> exact hstay rfl rfl rfl rfl
  | fetchAdd => refine hout rfl ?_ ?_ <;> split <;> rfl
  | @loopNone u hnone =>
    have hbag : s.timerHeap.bag = 0 := by
      unfold heapMin at hnone
      split at hnone
      · next hi => exact Multiset.card_eq_zero.1 (by rw [Heap.card_bag, hi])
      · cases hnone
    exact .enter (v := ⟨s.timerHeap.bag, none, -1⟩) (by rw [hpc]; rfl) (by rw [State.goto_pc]; rfl)
      (by rw [State.goto_pc]; rfl) rfl (.inr hbag)
  | @loopMin u m hm =>
    exact .look (v := ⟨s.timerHeap.bag, none, -1⟩) (by rw [hpc]; rfl) (by rw [State.goto_pc]; rfl)
      (by rw [State.goto_pc]; rfl) rfl hm
  | eintr => exact .stay rfl rfl (by rw [hpc]; rfl)
  | ready => exact hstay rfl rfl rfl rfl
  | pollEvent => exact hstay rfl rfl rfl rfl
  | timersMin => refine hout rfl ?_ ?_ <;> split <;> rfl
  | timersUnlock =>
    refine hout rfl ?_ ?_ <;> unfold afterTimers <;> split
    · rfl
    · split <;> rfl
    · rfl
    · split <;> rfl
  | _ => exact hout rfl rfl rfl

section

variable (hI : Inv false s) (hl : s.sched t = some l) (hrun : l.started = true)

include hI hl hrun

/-- A started thread keeps its event loop coroutine. -/
theorem Moves.eventLoopCoro (hm : Moves seqOps false s t l a s') {l' : LocalSched Unit}
    (hl' : s'.sched t = some l') : l'.eventLoopCoro = l.eventLoopCoro := by
  have hsame : s.sched t = some l' → l'.eventLoopCoro = l.eventLoopCoro := fun h => by
    rw [Option.some.inj (hl.symm.trans h)]
  have hmod : ∀ {s₀ : SeqState} {f : LocalSched Unit → LocalSched Unit},
      (s₀.modSched t f).sched t = some l' → s₀.sched t = s.sched t →
      (f l).eventLoopCoro = l.eventLoopCoro → l'.eventLoopCoro = l.eventLoopCoro := by
    intro s₀ f h hs₀ hf
    rw [modSched_some (s := s₀) (hs₀.trans hl) h, hf]
  cases hm with
  | @stride c k i _ he hk hsig hst =>
    generalize hpc : (s.context c).pc = pc at hst
    cases hst with
    | resched hy =>
      cases hy with
      | switch => exact hmod hl' rfl rfl
      | _ => exact hsame hl'
    | setErrno => exact hmod hl' rfl rfl
    | ret => exact hmod hl' rfl rfl
    | suspendTake => exact hmod hl' rfl rfl
    | park => exact hmod hl' rfl rfl
    | abort => exact hmod hl' rfl rfl
    | newLocal => exact hsame ((Function.update_of_ne (hI.ne_locals hl) _ _).symm.trans hl')
    | @newStart u =>
      -- the thread that is started is another one
      obtain ⟨lu, -, hlu, hns, -⟩ := hI.control.starts (c := c) (u := u) (by rw [hpc]; rfl)
      have hut : t ≠ u := by
        rintro rfl
        rw [Option.some.inj (hl.symm.trans hlu), hns] at hrun
        cases hrun
      exact hsame ((Function.update_of_ne hut _ _).symm.trans hl')
    | _ => exact hsame hl'
  | handler _ _ _ hy =>
    cases hy with
    | switch => exact hmod hl' rfl rfl
    | _ => exact hsame hl'
  | death hdt =>
    generalize l.exec = e at hdt
    cases hdt <;> exact hmod hl' rfl rfl
  | signal => exact hsame hl'

/-- The event loop that a step does not execute stays where it is, and its thread keeps it. -/
theorem Watches.moves (hm : Moves seqOps false s t l a s') (hC : Watches s n u w)
    {n' : Cid → Option Timeout} (hn : ∀ {e}, l.exec ≠ .on e → n' e = n e)
    (hself : ∀ {e}, l.exec = .on e → Minded (s.context e).pc (n e) w →
      Minded (s'.context e).pc (n' e) w) : Watches s' n' u w := by
  obtain ⟨lu, e, hlu, hst, hle, hminds⟩ := hC
  obtain ⟨e', hle', hloop⟩ := hI.control.loops hlu hst
  obtain rfl := Option.some.inj (hle.symm.trans hle')
  obtain ⟨lu', hlu', hst', hle'⟩ : ∃ lu', s'.sched u = some lu' ∧ lu'.started = true ∧
      lu'.eventLoopCoro = some e := by
    by_cases hut : u = t
    · subst hut
      obtain rfl := Option.some.inj (hl.symm.trans hlu)
      obtain ⟨l', hl'⟩ := Option.ne_none_iff_exists'.1 (hm.grows.sched (u := u) (by rw [hl]; nofun))
      exact ⟨l', hl', hm.started hl (hI.ne_locals hl) hrun hl',
        (hm.eventLoopCoro hI hl hrun hl').trans hle⟩
    · exact ⟨lu, (hI.frame hm hut hlu hst).1, hst, hle⟩
  refine ⟨lu', e, hlu', hst', hle', ?_⟩
  by_cases he : l.exec = .on e
  · exact hself he hminds
  · have hknown : e ≠ s.coros := by
      rintro rfl
      exact lt_irrefl _ (hI.kept.known (.inr (hI.kept.live ⟨_, hI.kept.home hloop⟩)))
    rw [(hm.context_ne he).eq hknown, hn he]
    exact hminds

/-- While a thread executes another coroutine, its event loop has been switched out. -/
theorem Inv.watches (he : l.exec = .on c) (hloop : s.loopOf c = none) : Watches s n t w := by
  obtain ⟨e, hle, hloope⟩ := hI.control.loops hl hrun
  have hres : (s.context e).Resumes := hI.resumes hl (hI.kept.home hloope) <| by
    rintro (h | ⟨h, -⟩)
    · cases he.symm.trans h
      rw [hloop] at hloope
      cases hloope
    · cases he.symm.trans h
  have hout : (s.context e).pc.polling = none ∧ (s.context e).pc.expires = none := by
    unfold Context.Resumes at hres
    rw [hI.control.quiet rfl e] at hres
    generalize (s.context e).pc = pc at hres
    cases pc <;> first | exact ⟨rfl, rfl⟩ | exact hres.elim
  refine ⟨l, e, hl, hrun, hle, fun hv => ?_, fun hm => ?_⟩
  · rw [hout.1] at hv; cases hv
  · rw [hout.2] at hm; cases hm

end

/-- The timer heap is sorted, and its timers are watched. -/
structure Coverage (s : SeqState) (n : Cid → Option Timeout) : Prop where
  sorted : Sorted s.timerHeap
  reach : InReach s.timerHeap.bag
  watched : ∀ w ∈ s.timerHeap.bag, ∃ t, Watches s n t w

theorem Coverage.covered (hC : Coverage s n) : Covered s n := by
  intro w hw
  obtain ⟨t, l, e, hl, hrun, hle, hminds⟩ := hC.watched w hw
  exact ⟨t, l, e, hl, hrun, hle, fun v hv => hminds.polls hv⟩

section

variable (hI : Inv false s) (hl : s.sched t = some l)

include hI hl

theorem noteTimeouts_tick (he : l.exec = .on c) :
    noteTimeouts s (.tick t i) n = (s.timeout i (n c) (s.context c).pc).elim n
      fun v => Function.update n c (some v) := by
  simp only [noteTimeouts, hI.running hl he]
  split <;> next h => rw [h]; rfl

omit hl in
/-- A timer in the heap after a step was there before, or the step has pushed it. -/
theorem Stride.mem_bag (hst : Stride seqOps false s t l c i (s.context c).pc s')
    (hw : w ∈ s'.timerHeap.bag) : w ∈ s.timerHeap.bag ∨ (s.context c).pc = .waitPush w := by
  have hstep := hst.heapStep
  generalize (s.context c).pc = pc at hstep
  cases hstep with
  | same h => rw [h] at hw; exact .inl hw
  | min h => rw [h, heapMin_bag] at hw; exact .inl hw
  | push hf h =>
    rw [h, heapPush_bag] at hw
    rcases Multiset.mem_cons.1 hw with rfl | hw
    · exact .inr rfl
    · exact .inl hw
  | pop h => rw [h] at hw; exact .inl (hI.heaped.mem_popMin hw)

/-- The heap stays sorted, and its timers within reach. -/
theorem Sorted.stride (he : l.exec = .on c) (hs : Sorted s.timerHeap) (hr : InReach s.timerHeap.bag)
    (hst : Stride seqOps false s t l c i (s.context c).pc s') (hok : Timely s (.tick t i)) :
    Sorted s'.timerHeap ∧ InReach s'.timerHeap.bag := by
  have hpush : ∀ {w}, (s.context c).pc = .waitPush w → InReach (w ::ₘ s.timerHeap.bag) := fun hpc =>
    hok.push t i c _ rfl (by rw [hI.running hl he, hpc])
  have hmem : ∀ w ∈ s'.timerHeap.bag, w ∈ s.timerHeap.bag ∨ (s.context c).pc = .waitPush w :=
    fun _ hw => hst.mem_bag hI hw
  have hstep := hst.heapStep
  generalize (s.context c).pc = pc at hstep hpush hmem
  have hreach : (∀ w, pc ≠ .waitPush w) → InReach s'.timerHeap.bag := fun hne =>
    hr.of_le fun w hw => (hmem w hw).resolve_right (hne w)
  cases hstep with
  | same h =>
    rw [h]
    exact ⟨hs, hr⟩
  | min h =>
    rw [h, heapMin_bag]
    exact ⟨hs.heapMin, hr⟩
  | push hf h =>
    rw [h, heapPush_bag]
    exact ⟨hs.push hI.heaped.compare (hpush rfl), hpush rfl⟩
  | pop h =>
    have hreach := hreach nofun
    rw [h] at hreach ⊢
    exact ⟨hs.popMin hok.items, hreach⟩

/-- A timer in the heap is not missed by a step of the event loop. -/
theorem Minded.stride (hC : Coverage s n) (he : l.exec = .on c) (hok : Timely s (.tick t i))
    (hst : Stride seqOps false s t l c i (s.context c).pc s')
    (hw : w ∈ s.timerHeap.bag ∨ (s.context c).pc = .waitPush w)
    (hM : Minded (s.context c).pc (n c) w) :
    Minded (s'.context c).pc (noteTimeouts s (.tick t i) n c) w := by
  rw [noteTimeouts_tick hI hl he]
  -- the steps that note something push nothing
  have hmem : ∀ {v}, s.timeout i (n c) (s.context c).pc = some v → w ∈ s.timerHeap.bag := by
    intro v hv
    refine hw.resolve_right fun hpc => ?_
    rw [hpc] at hv
    cases hv
  cases hst.pollStep (n c) with
  | out h he =>
    refine ⟨fun hv => ?_, fun hm => ?_⟩
    · rw [h] at hv; cases hv
    · rw [he] at hm; cases hm
  | stay h he hn =>
    rw [hn]
    exact ⟨fun hv => hM.polls (h ▸ hv), fun hm => hM.expires (he ▸ hm)⟩
  | @enter timeout hn h he htimers hval =>
    have hw := hmem hn
    rw [hn]
    have hzero : timeout.value = 0 := hval.resolve_right fun h => by rw [h] at hw; cases hw
    refine ⟨fun hv => ⟨timeout, Function.update_self _ _ _, Option.some.inj (h.symm.trans hv),
      htimers ▸ hw, hzero.ge, .inl hzero⟩, fun hm => ?_⟩
    rw [he] at hm; cases hm
  | @look timeout m hn h he htimers hmin =>
    have hw := hmem hn
    rw [hn]
    refine ⟨fun hv => ?_, fun hm => ?_⟩
    · rw [h] at hv; cases hv
    obtain rfl := Option.some.inj (he.symm.trans hm)
    obtain ⟨hmem, hle⟩ := hC.sorted.key_le hI.heaped.compare hC.reach hmin hw
    refine ⟨timeout, Function.update_self _ _ _, htimers ▸ hw, hle, hC.reach.of_le fun x hx => ?_⟩
    rcases Multiset.mem_cons.1 hx with rfl | hx
    · exact hmem
    · exact Multiset.mem_singleton.1 hx ▸ hw
  | @expire m now hi hpc hn h he =>
    subst hi
    obtain ⟨timeout, hlast, hforesees⟩ := hM.expires hpc
    have hn : s.timeout (.clock now) (n c) (s.context c).pc = some
        { timers := timeout.timers, now := some now, value := max 0 (timerExpiration m now) } := by
      rw [hn, hlast]; rfl
    have hw := hmem hn
    have hleft : max 0 (timerExpiration m now) ≤ max 0 (timerExpiration w now) := max_le_max le_rfl
      (expires_first hforesees.reach hforesees.le (hok.clock t now rfl w hw))
    rw [hn]
    refine ⟨fun hv => ⟨_, Function.update_self _ _ _, Option.some.inj (h.symm.trans hv),
      hforesees.mem, le_max_left _ _, .inr ⟨now, rfl, hleft⟩⟩, fun hm => ?_⟩
    rw [he] at hm; cases hm

theorem Coverage.stride {k : Coroutine} (hC : Coverage s n) (hrun : l.started = true)
    (he : l.exec = .on c) (hk : s.coro c = some k) (hsig : (s.context c).sig = [])
    (hst : Stride seqOps false s t l c i (s.context c).pc s') (hok : Timely s (.tick t i)) :
    Coverage s' (noteTimeouts s (.tick t i) n) := by
  obtain ⟨hsorted, hreach⟩ := hC.sorted.stride hI hl he hC.reach hst hok
  refine ⟨hsorted, hreach, fun w hw => ?_⟩
  have hm : Moves seqOps false s t l (.tick t i) s' := .stride he hk hsig hst
  have hmem := hst.mem_bag hI hw
  -- the timer was watched before, or the thread that pushes it watches it
  obtain ⟨u, hu⟩ : ∃ u, Watches s n u w := by
    rcases hmem with hw | hpc
    · exact hC.watched w hw
    · refine ⟨t, hI.watches hl hrun he ?_⟩
      rw [State.loopOf_of_pc (by rw [hpc]; nofun), hpc]
      rfl
  refine ⟨u, hu.moves hI hl hrun hm (fun {e} hne => ?_) fun {e} hec hminds => ?_⟩
  · rw [noteTimeouts_tick hI hl he]
    cases s.timeout i (n c) (s.context c).pc with
    | none => rfl
    | some v =>
      refine Function.update_of_ne ?_ _ _
      rintro rfl
      exact hne he
  · cases he.symm.trans hec
    exact hminds.stride hI hl hC he hok hst hmem

theorem Coverage.moves (hC : Coverage s n) (hrun : l.started = true)
    (hm : Moves seqOps false s t l a s') (hok : Timely s a) :
    Coverage s' (noteTimeouts s a n) := by
  cases hm with
  | stride he hk hsig hst => exact hC.stride hI hl hrun he hk hsig hst hok
  | @handler c _ _ _ _ _ _ _ hsig => rw [hI.control.quiet rfl c] at hsig; cases hsig
  | death hdt =>
    have hm : Moves seqOps false s t l (.tick t .step) s' := .death hdt
    have hn : noteTimeouts s (.tick t .step) n = n := by simp only [noteTimeouts, hdt.running hl]
    rw [hn]
    refine ⟨hdt.timerHeap ▸ hC.sorted, hdt.timerHeap ▸ hC.reach, fun w hw => ?_⟩
    rw [hdt.timerHeap] at hw
    obtain ⟨u, hu⟩ := hC.watched w hw
    exact ⟨u, hu.moves hI hl hrun hm (fun _ => rfl) fun he => absurd he hdt.not_on⟩
  | signal hp => cases hp

end

/-! ## Runs -/

section

variable {localSize : Nat} {garbage : Nat → TimerWait} {state errno threadErrno : Int}

/-- **Every timer is covered.** In every state that a run of the default build reaches, with deadlines
within an `int` of milliseconds and no more timers than the heap's indices allow, there is for every
timer in the heap a thread whose event loop is not in `platform_poll_poll`, or is in it with a timeout
that `sched_poll_timeout` computed with the timer in the heap, not negative and no greater than what
remained to that timer. -/
theorem timers_covered
    (h : Noted seqOps false (fun s a => Proper s a ∧ Timely s a) noteTimeouts
      (seqInit localSize garbage state errno threadErrno) (fun _ => none) s n)
    (hf : s.failure = none) : Covered s n := by
  have hC : Coverage s n := by
    induction h with
    | init =>
      have hbag : (seqInit localSize garbage state errno threadErrno).timerHeap.bag = 0 := rfl
      refine ⟨⟨⟨?_, ?_⟩, fun x hx => hx, ?_⟩, ⟨⟨0, 0⟩, fun w hw => ?_⟩, fun w hw => ?_⟩
      · intro x y hx; rw [hbag] at hx; cases hx
      · intro x y z hx; rw [hbag] at hx; cases hx
      · exact (heapInit_valid (P := fun _ => False) ⟨fun _ _ h => h.elim, fun _ _ _ h => h.elim⟩
          garbage).ordered
      · rw [hbag] at hw; cases hw
      · rw [hbag] at hw; cases hw
    | @next s s' a n h hok hs ih =>
      obtain ⟨hf₀, t, l, hl, hrun, hm⟩ := step_moves seqOps hs hf
      have hI : Inv false s :=
        (h.reach.mono fun hs hok => ⟨hok.1, default_safe hs⟩).inv hf₀
      exact (ih hf₀).moves hI hl hrun hm hok.2
  exact hC.covered

end

instance (now d : Timespec) : Decidable (now.IntMillis d) :=
  decidable_of_iff ((0 ≤ now.tvNsec ∧ now.tvNsec < 10 ^ 9) ∧ (0 ≤ d.tvNsec ∧ d.tvNsec ≤ 10 ^ 9) ∧
    -2 ^ 31 ≤ now.millisTo d ∧ now.millisTo d < 2 ^ 31)
    ⟨fun h => ⟨h.1, h.2.1, h.2.2⟩, fun h => ⟨h.clock, h.nsec, h.int⟩⟩

/-- A check on actions for `Timely`, with pushes at time 0. -/
def timely (s : SeqState) (a : Act) : Bool :=
  a.leavesAsleep && decide (s.timerHeap.items ≤ 2 ^ 30) &&
    match a with
    | .signal _ => true
    | .tick t i =>
      (match i with
        | .clock now => decide (∀ w ∈ s.timerHeap.bag, now.IntMillis w.time)
        | _ => true) &&
      match s.running t with
      | some (_, .waitPush w) =>
        decide (∀ w' ∈ w ::ₘ s.timerHeap.bag, Timespec.IntMillis ⟨0, 0⟩ w'.time)
      | _ => true

theorem timely.sound (s : SeqState) (a : Act) (h : timely s a = true) : Proper s a ∧ Timely s a := by
  simp only [timely, Bool.and_eq_true, decide_eq_true_eq] at h
  obtain ⟨⟨hasleep, hitems⟩, h⟩ := h
  refine ⟨Act.leavesAsleep.proper s a hasleep, ?_, ?_, hitems⟩
  · rintro t now rfl
    simp only [Bool.and_eq_true, decide_eq_true_eq] at h
    exact h.1
  · rintro t i c w rfl hpc
    simp only [hpc, Bool.and_eq_true, decide_eq_true_eq] at h
    exact ⟨⟨0, 0⟩, h.2⟩

/-- The main coroutine waits for five seconds, and its event loop polls. -/
def waitAndPoll : List Act :=
  .tick 0 (.op (.wait ⟨5, 0⟩)) :: List.replicate 9 (.tick 0 .step) ++ [.tick 0 (.clock ⟨0, 0⟩)]

theorem timers_covered_poll :
    ∃ s n, noteRun seqOps false timely noteTimeouts seqStart (fun _ => none) waitAndPoll =
        some (s, n) ∧ s.timerHeap.bag = {⟨⟨5, 0⟩, 0⟩} ∧ (s.context 1).pc = .pollWait 0 5000 ∧
      Covered s n := by
  obtain ⟨s, n, hr, hbag, hpc, hf⟩ :
      ∃ s n, noteRun seqOps false timely noteTimeouts seqStart (fun _ => none) waitAndPoll =
          some (s, n) ∧ s.timerHeap.bag = {⟨⟨5, 0⟩, 0⟩} ∧ (s.context 1).pc = .pollWait 0 5000 ∧
        s.failure = none := ⟨_, _, rfl, rfl, rfl, rfl⟩
  exact ⟨s, n, hr, hbag, hpc, timers_covered (Noted.run hr timely.sound .init) hf⟩

end Lwthread.Scheduler
