import NixKernel.LinkList
import NixKernel.SpinLock
import NixKernel.StepSystem

/-!
# Timers: `port/portclock.c`

Every processor has a list of timers, in the order in which they are due.  `timeradd` puts a
timer on the list of its processor, `timerdel` takes it off the list it is on, and the clock
interrupt, `timerintr`, takes off what is due, calls it, and puts it on again if it is periodic.

A timer has a lock that its adding and deleting take, and a list has one that is held for each
look at the list.  What is done under the lock of a list is one step here; taking and giving up
the lock of a timer and reading its `tt` are steps.  While a callback runs the list is not
locked.  The calls that it makes, of its own timer perhaps, are those of another thread.

`T` are the timers, `M` the processors, `W` whoever runs.  What `fastticks` and
`ns2fastticks` return is given with each step; that they agree is not needed.
-/

namespace Timers

open LinkList SpinLock StepSystem

variable {T M W : Type*}

/-- Where a thread is. -/
inductive Pc (T M : Type*)
  | idle
  /-- `timeradd` on processor `m`: at `ilock(nt)`. -/
  | addStart (nt : T) (m : M)
  /-- At `tt = nt->tt`. -/
  | addLocked (nt : T) (m : M)
  /-- At `ilock(tt)` of the list `k` that it saw. -/
  | addSeen (nt : T) (m k : M)
  /-- At `ilock(&timers[m->machno])`. -/
  | addGone (nt : T) (m : M)
  /-- At `iunlock(nt)`. -/
  | addDone (nt : T)
  /-- `timerdel`: at `ilock(dt)`. -/
  | delStart (dt : T)
  /-- At `tt = dt->tt`. -/
  | delLocked (dt : T)
  /-- At `ilock(tt)`. -/
  | delSeen (dt : T) (k : M)
  /-- At `iunlock(dt)`. -/
  | delDone (dt : T)
  /-- `timerintr` on processor `m`: at `t = tt->head`. -/
  | intr (m : M) (now : Int)
  /-- In `(*t->tf)(u, t)`. -/
  | call (m : M) (now : Int) (t : T)

/-- The timers, their lists and the threads.  `gone t` is set when a `timerdel` of `t` returns,
and reset when a `timeradd` of `t` gets its lock; `dead` is set when an assertion fires. -/
structure Sys (T M W : Type*) where
  next : T → Option T
  head : M → Option T
  tt : T → Option M
  twhen : T → Int
  tns : T → Int
  lk : T → Option W
  pc : W → Pc T M
  gone : T → Bool
  dead : Bool

/-- What starts, or which thread goes on, with `fastticks(nil)` and `ns2fastticks(t->tns)`. -/
inductive Act (T M W : Type*)
  | timeradd (w : W) (m : M) (nt : T) (tns : Int)
  | timerdel (w : W) (dt : T)
  | timerintr (w : W) (m : M) (now : Int)
  | go (w : W) (fast ticks : Int)

variable [DecidableEq T] [DecidableEq M] [DecidableEq W] [Fintype T]

open Function (update)

/-- A thread is somewhere else. -/
def Sys.at (s : Sys T M W) (w : W) (p : Pc T M) : Sys T M W := { s with pc := update s.pc w p }

/-- `tdel`. -/
def Sys.tdel (s : Sys T M W) (dt : T) : Option (Sys T M W) :=
  match s.tt dt with
  | none => some s
  | some k =>
    match search s.next (fun t => decide (t = dt)) (Fintype.card T + 1) none (s.head k) with
    | none => none
    | some (_, none) => some s
    | some (last, some t) =>
      let (head, next) := store last (s.next t) (s.head k) s.next
      some { s with next, head := update s.head k head, tt := update s.tt dt none }

/-- `if(nt->tns <= 0) nt->tns = 1` -/
def atLeastOne (tns : Int) : Int := if tns ≤ 0 then 1 else tns

section Kinds

-- which timers are periodic, and which have a callback
variable (periodic tf : T → Bool)

/-- The time from which the period of a timer is counted: its last time, or that of a timer
with the same period. -/
def Sys.base (s : Sys T M W) (m : M) (nt : T) (fast : Int) : Option Int :=
  if s.twhen nt = 0 then
    match search s.next (fun t => periodic t && decide (s.tns t = s.tns nt)) (Fintype.card T + 1) none
        (s.head m) with
    | none => none
    | some (_, some t) => some (s.twhen t)
    | some (_, none) => some fast
  else some (s.twhen nt)

/-- `nt->tns` and `nt->twhen` as `tadd` sets them. -/
def Sys.due (s : Sys T M W) (m : M) (nt : T) (fast ticks : Int) : Option (Int × Int) :=
  if periodic nt then
    (s.base periodic m nt fast).map fun b => (s.tns nt, b + if ticks = 0 then 1 else ticks)
  else some (atLeastOne (s.tns nt), fast + ticks)

/-- The end of `tadd`: before the first timer that is due later. -/
def Sys.enter (s : Sys T M W) (m : M) (nt : T) : Option (Sys T M W) :=
  match search s.next (fun t => decide (s.twhen t > s.twhen nt)) (Fintype.card T + 1) none (s.head m) with
  | none => none
  | some (last, t) =>
    let (head, next) := store last (some nt) (s.head m) (update s.next nt t)
    some { s with next, head := update s.head m head, tt := update s.tt nt (some m) }

/-- `tadd`. -/
def Sys.tadd (s : Sys T M W) (m : M) (nt : T) (fast ticks : Int) : Option (Sys T M W) :=
  if s.tt nt ≠ none then some { s with dead := true }
  else if periodic nt ∧ s.tns nt < 100000 then some { s with dead := true }
  else
    match s.due periodic m nt fast ticks with
    | none => none
    | some (tns, twhen) =>
      Sys.enter { s with tns := update s.tns nt tns, twhen := update s.twhen nt twhen } m nt

/-- `if(t->tmode == Tperiodic) tadd(tt, t)` -/
def Sys.rearm (s : Sys T M W) (m : M) (t : T) (fast ticks : Int) : Option (Sys T M W) :=
  if periodic t then s.tadd periodic m t fast ticks else some s

/-- `tt->head = t->tnext; t->tt = nil` -/
def Sys.unlink (s : Sys T M W) (m : M) (t : T) : Sys T M W :=
  { s with head := update s.head m (s.next t), tt := update s.tt t none }

/-- The next step of a thread. -/
def Sys.go (s : Sys T M W) (w : W) (fast ticks : Int) : Option (Sys T M W) :=
  match s.pc w with
  | .idle => none
  | .addStart nt m =>
    match s.lk nt with
    | none => some (Sys.at { s with lk := update s.lk nt (some w), gone := update s.gone nt false } w
        (.addLocked nt m))
    | some _ => none
  | .addLocked nt m =>
    match s.tt nt with
    | none => some (s.at w (.addGone nt m))
    | some k => some (s.at w (.addSeen nt m k))
  | .addSeen nt m _ => (s.tdel nt).map fun s => s.at w (.addGone nt m)
  | .addGone nt m => (s.tadd periodic m nt fast ticks).map fun s => s.at w (.addDone nt)
  | .addDone nt => some (Sys.at { s with lk := update s.lk nt none } w .idle)
  | .delStart dt =>
    match s.lk dt with
    | none => some (Sys.at { s with lk := update s.lk dt (some w) } w (.delLocked dt))
    | some _ => none
  | .delLocked dt =>
    match s.tt dt with
    | none => some (s.at w (.delDone dt))
    | some k => some (s.at w (.delSeen dt k))
  | .delSeen dt _ => (s.tdel dt).map fun s => s.at w (.delDone dt)
  | .delDone dt =>
    some (Sys.at { s with lk := update s.lk dt none, gone := update s.gone dt true } w .idle)
  | .intr m now =>
    match s.head m with
    | none => some (s.at w .idle)
    | some t =>
      if s.twhen t > now then some (s.at w .idle)
      else if s.tt t ≠ some m then some { s with dead := true }
      else if tf t then some ((s.unlink m t).at w (.call m now t))
      else ((s.unlink m t).rearm periodic m t fast ticks).map fun s => s.at w (.intr m now)
  | .call m now t => (s.rearm periodic m t fast ticks).map fun s => s.at w (.intr m now)

/-- One step.  `nt->tns` is set before `timeradd` is called. -/
def Sys.act (s : Sys T M W) : Act T M W → Option (Sys T M W)
  | .timeradd w m nt tns =>
    match s.pc w with
    | .idle => some (Sys.at { s with tns := update s.tns nt tns } w (.addStart nt m))
    | _ => none
  | .timerdel w dt =>
    match s.pc w with
    | .idle => some (s.at w (.delStart dt))
    | _ => none
  | .timerintr w m now =>
    match s.pc w with
    | .idle => some (s.at w (.intr m now))
    | _ => none
  | .go w fast ticks => s.go periodic tf w fast ticks

/-- Nothing runs, and no timer is on a list. -/
def Start (s : Sys T M W) : Prop :=
  (∀ m, s.head m = none) ∧ (∀ t, s.tt t = none) ∧ (∀ t, s.lk t = none) ∧ (∀ w, s.pc w = .idle) ∧
    (∀ t, s.gone t = false) ∧ s.dead = false ∧ ∀ t, periodic t = true → 100000 ≤ s.tns t

/-- "Periodic timers must have a period of at least 100µs." -/
def Proper : Act T M W → Prop
  | .timeradd _ _ nt tns => periodic nt = true → 100000 ≤ tns
  | _ => True

/-- A periodic timer is off its list for its callback. -/
def InFlight (s : Sys T M W) (t : T) : Prop :=
  periodic t = true ∧ ∃ w m now, s.pc w = .call m now t

/-- The timer whose list a thread is about to look for. -/
def Pc.looks : Pc T M → Option T
  | .addLocked nt _ | .addSeen nt _ _ => some nt
  | .delLocked dt | .delSeen dt _ => some dt
  | _ => none

/-- No `timeradd` and no `timerdel` looks for a periodic timer that is off for its callback. -/
def Quiet (s : Sys T M W) : Act T M W → Prop
  | .go w _ _ => ∀ t, (s.pc w).looks = some t → ¬ InFlight periodic s t
  | _ => True

/-- The states that runs reach in which no timer in flight is looked for. -/
def Reach : Sys T M W → Prop :=
  StepSystem.Reach (Start periodic) fun s a s' =>
    Proper periodic a ∧ Quiet periodic s a ∧ s.act periodic tf a = some s'

end Kinds

end Timers
