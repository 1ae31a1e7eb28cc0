import NixKernel.StepSystem
import NixKernel.Tod

/-!
# Setting and reading the clock: `todset`, `todget` and `todfix`

`todset` sets the time, or has it slewed: `delta` nanoseconds over a period, some at each tick, which
`todget` adds when it is called.  `todget` returns the time and never less than before.  `todfix`
moves `tod.last` on, and `tod.off` with it.  The first two hold the lock all along; `todfix` has read
the clock and looked at `tod.last` before it takes it, so these are steps of their own.

The frequency is set once.  The fast clock counts up to 2^63, and `sys->ticks` is an `ulong`.
-/

namespace TodRun

open TodClock (mul64fract)
open FixedPoint (scale)

def HZ : Int := 1000

def int (x : Int) : Int := x.bmod (2 ^ 32)
def ulong (x : Int) : Nat := (x % 2 ^ 32).toNat
def vlong (x : Int) : Int := x.bmod (2 ^ 64)
def uvlong (x : Int) : Nat := (x % 2 ^ 64).toNat

structure Tod where
  multiplier : UInt64
  hz : Nat
  last : Nat
  off : Int
  lasttime : Int
  delta : Int
  sstart : Nat
  send : Nat

/-- `n`, the ticks of a slew. -/
def period (delta n : Int) : Int :=
  let n := if n ≤ 0 then 1 else n
  let n := int (n * HZ)
  let n := if delta < 0 ∧ n > vlong (-delta) then int (vlong (-delta)) else n
  if delta > 0 ∧ n > delta then int delta else n

/-- `none` is the trap of a division by zero. -/
def todset (t delta n : Int) (fast ticks : Nat) (tod : Tod) : Option Tod :=
  if t ≥ 0 then some { tod with off := t, last := fast, lasttime := 0, delta := 0, sstart := tod.send }
  else
    let n := period delta n
    if n = 0 then none
    else some { tod with sstart := ulong ticks, send := ulong (ulong ticks + n), delta := delta.tdiv n }

/-- `t` in `todget`: the tick up to which a slew is added. -/
def Tod.upto (tod : Tod) (ticks : Nat) : Nat := if ulong ticks ≥ tod.send then tod.send else ulong ticks

/-- What the slew adds there. -/
def Tod.correction (tod : Tod) (ticks : Nat) : Int :=
  if tod.sstart ≠ tod.send then tod.delta * ulong (tod.upto ticks - tod.sstart) else 0

/-- Add in correction. -/
def Tod.correct (tod : Tod) (ticks : Nat) : Tod :=
  if tod.sstart ≠ tod.send then
    { tod with off := vlong (tod.off + tod.correction ticks), sstart := tod.upto ticks }
  else tod

/-- Convert to epoch. -/
def Tod.convert (tod : Tod) (diff : Int) : Nat :=
  uvlong ((mul64fract (UInt64.ofNat diff.toNat) tod.multiplier).toNat + tod.off)

/-- `todget` after the correction. -/
def Tod.read (tod : Tod) (fast : Nat) : Int × Tod :=
  let diff := vlong (fast - tod.last)
  let x := tod.convert (if diff < 0 then 0 else diff)
  -- time can't go backwards
  if x < uvlong tod.lasttime then (tod.lasttime, tod)
  else (vlong x, { tod with lasttime := vlong x })

def todget (fast ticks : Nat) (tod : Tod) : Int × Tod := (tod.correct ticks).read fast

/-- Where `todfix` is: it has read the clock, or found that it is to move `tod.last`. -/
inductive Fix
  | idle
  | read (ticks : Nat)
  | found (ticks : Nat) (diff : Int)
  deriving DecidableEq

/-- What `todfix` does under the lock. -/
def Tod.fix (tod : Tod) (ticks : Nat) (diff : Int) : Tod :=
  { tod with last := ticks, off := vlong (tod.convert diff) }

/-- A slew: what it is to change the clock by, and what it has. -/
structure Slew where
  due : Int
  done : Int

/-- What `todget` has returned, and the time that it was. -/
structure Reading where
  value : Int
  time : Int

/-- The clock, and since the time was set last: what to, when, the ticks that `todfix` has converted,
the slews, and what `todget` has returned, each with the latest first. -/
structure Sys where
  tod : Tod
  fast : Nat
  ticks : Nat
  fix : Fix
  trapped : Bool
  base : Int
  start : Nat
  pieces : List Nat
  slews : List Slew
  got : List Reading

inductive Op
  | clock (d : Nat)
  | tick (n : Nat)
  | todset (t delta : Int64) (n : Int32)
  | todget
  /-- A step of `todfix`. -/
  | todfix

/-- The nanoseconds of a number of ticks. -/
def converted (m : UInt64) (d : Nat) : Nat := scale (2 ^ 32) d m.toNat

/-- `tod.last`, as it ought to be. -/
def Sys.seen (s : Sys) : Nat := s.start + s.pieces.sum

/-- `tod.off`, as it ought to be: what was set, what the slews have added, and the ticks converted. -/
def Sys.epoch (s : Sys) : Int :=
  s.base + (s.slews.map Slew.done).sum + (s.pieces.map (converted s.tod.multiplier)).sum

/-- The time. -/
def Sys.time (s : Sys) : Int := s.epoch + converted s.tod.multiplier (s.fast - s.seen)

/-- The slew that `todget` adds. -/
def Sys.correct (s : Sys) : Sys :=
  { s with
    tod := s.tod.correct s.ticks
    slews := s.slews.modifyHead fun x => { x with done := x.done + s.tod.correction s.ticks } }

/-- (delta/n)*n for the `n` ticks of a slew, not more than there are nanoseconds. -/
def due (delta n : Int) : Int :=
  let n := (if n ≤ 0 then 1 else n) * HZ
  let n := if delta ≠ 0 ∧ |delta| < n then |delta| else n
  delta.tdiv n * n

def Sys.todset (s : Sys) (t delta n : Int) : Sys :=
  match TodRun.todset t delta n s.fast s.ticks s.tod with
  | none => { s with trapped := true }
  | some tod =>
    if t ≥ 0 then { s with tod, base := t, start := s.fast, pieces := [], slews := [], got := [] }
    else { s with tod, slews := ⟨due delta n, 0⟩ :: s.slews }

def Sys.todget (s : Sys) : Sys :=
  let r := TodRun.todget s.fast s.ticks s.tod
  { s.correct with tod := r.2, got := ⟨r.1, s.correct.time⟩ :: s.got }

def Sys.todfix (s : Sys) : Sys :=
  match s.fix with
  | .idle => { s with fix := .read s.fast }
  | .read ticks =>
    let diff := vlong (ticks - s.tod.last)
    { s with fix := if diff > s.tod.hz then .found ticks diff else .idle }
  | .found ticks diff =>
    { s with tod := s.tod.fix ticks diff, fix := .idle, pieces := s.pieces ++ [ticks - s.seen] }

def act (s : Sys) (op : Op) : Option Sys :=
  if s.trapped then none
  else
    match op with
    | .clock d => if s.fast + d < 2 ^ 63 then some { s with fast := s.fast + d } else none
    | .tick n => some { s with ticks := s.ticks + n }
    | .todset t delta n => some (s.todset t.toInt delta.toInt n.toInt)
    | .todget => some s.todget
    | .todfix => some s.todfix

/-- The clock after `todinit`. -/
structure Start (s : Sys) : Prop where
  off : s.tod.off = 0
  lasttime : s.tod.lasttime = 0
  last : s.tod.last = s.fast
  sstart : s.tod.sstart = 0
  send : s.tod.send = 0
  fast : s.fast < 2 ^ 63
  fix : s.fix = .idle
  trapped : s.trapped = false
  base : s.base = 0
  start : s.start = s.fast
  pieces : s.pieces = []
  slews : s.slews = []
  got : s.got = []

abbrev Reach : Sys → Prop := StepSystem.Reach Start fun s op t => act s op = some t

/-- **The clock is continuous**: no division by zero, no value less than one before, a slew that is
over has changed the clock by what it was to, and the first value is the time. -/
structure Continuous (s : Sys) : Prop where
  divides : s.trapped = false
  forward : s.got.Pairwise fun later earlier => earlier.value ≤ later.value
  slewed : s.tod.sstart = s.tod.send → ∀ x ∈ s.slews.head?, x.done = x.due
  first : ∀ r ∈ s.got.getLast?, r.value = r.time

/-- The period of a slew is no more than an `int` has ticks, or it does not matter. -/
def Scales (delta n : Int) : Prop :=
  let n := (if n ≤ 0 then 1 else n) * HZ
  (n < 2 ^ 31 ∧ delta ≠ -2 ^ 63) ∨ (delta ≠ 0 ∧ |delta| ≤ int n) ∨ (delta = 0 ∧ int n ≠ 0)

/-- The steps that keep the clock continuous. -/
def Regular (s : Sys) : Op → Prop
  | .todset t delta n =>
    if t.toInt ≥ 0 then ¬s.fix matches .found .. else Scales delta.toInt n.toInt
  | .todget =>
    (-2 ^ 63 ≤ s.correct.time ∧ s.correct.time < 2 ^ 63) ∧
    (s.correct.time < 0 → ∀ r ∈ s.got.head?, r.value < 0) ∧
    (s.tod.sstart < s.tod.send → s.tod.sstart ≤ ulong s.ticks)
  | .clock _ | .tick _ | .todfix => True

abbrev ReachRegular : Sys → Prop := StepSystem.Reach Start fun s op t => Regular s op ∧ act s op = some t

variable {s t : Sys} {op : Op} {delta n x y : Int} {tod : Tod}

theorem coe_ulong (x : Int) : (ulong x : Int) = x % 2 ^ 32 := by
  rw [ulong]
  omega

theorem coe_uvlong (x : Int) : (uvlong x : Int) = x % 2 ^ 64 := by
  rw [uvlong]
  omega

/-- Of numbers that are the same 64 bits a `vlong` is the same. -/
theorem vlong_congr (h : x % 2 ^ 64 = y % 2 ^ 64) : vlong x = vlong y := by
  rw [vlong, vlong, Int.bmod_def, Int.bmod_def]
  have hcast : ((2 ^ 64 : Nat) : Int) = 2 ^ 64 := by norm_num
  rw [hcast, h]

theorem vlong_emod (x : Int) : vlong x % 2 ^ 64 = x % 2 ^ 64 := Int.bmod_emod

theorem vlong_eq (hle : -2 ^ 63 ≤ x) (hlt : x < 2 ^ 63) : vlong x = x :=
  Int.bmod_eq_of_le (by omega) (by omega)

theorem int_eq (hle : -2 ^ 31 ≤ x) (hlt : x < 2 ^ 31) : int x = x :=
  Int.bmod_eq_of_le (by omega) (by omega)

/-- A positive number is no more as an `int` than it is. -/
theorem int_le (h : 0 ≤ x) : int x ≤ x ∧ int x < 2 ^ 31 := by
  rw [int, Int.bmod_def]
  have hcast : ((2 ^ 32 : Nat) : Int) = 2 ^ 32 := by norm_num
  rw [hcast]
  split <;> omega

/-- `n` is no more than there are nanoseconds to be added. -/
theorem period_eq (hne : delta ≠ 0) (hlow : -2 ^ 63 < delta) (hhigh : delta < 2 ^ 63) :
    period delta n = if |delta| < int ((if n ≤ 0 then 1 else n) * HZ) then |delta|
      else int ((if n ≤ 0 then 1 else n) * HZ) := by
  have hlt : int ((if n ≤ 0 then 1 else n) * HZ) < 2 ^ 31 := by
    refine (int_le ?_).2
    rw [HZ]
    split <;> omega
  rw [period]
  generalize int ((if n ≤ 0 then 1 else n) * HZ) = m at hlt
  rcases lt_or_gt_of_ne hne with hneg | hpos
  · rw [abs_of_neg hneg, vlong_eq (by omega) (by omega), if_neg (by omega)]
    by_cases hless : -delta < m
    · rw [if_pos ⟨hneg, hless⟩, if_pos hless, int_eq (by omega) (by omega)]
    · rw [if_neg (fun h => hless h.2), if_neg hless]
  · rw [abs_of_pos hpos, if_neg (show ¬(delta < 0 ∧ _) by omega)]
    by_cases hless : delta < m
    · rw [if_pos ⟨hpos, hless⟩, if_pos hless, int_eq (by omega) (by omega)]
    · rw [if_neg (fun h => hless h.2), if_neg hless]

/-- **The ticks of a slew** are what its period says, and make what is due. -/
theorem period_spec (hlow : -2 ^ 63 ≤ delta) (hhigh : delta < 2 ^ 63) (h : Scales delta n) :
    period delta n ≠ 0 ∧ delta.tdiv (period delta n) * ulong (period delta n) = due delta n := by
  have hpos : 0 < (if n ≤ 0 then 1 else n) * HZ := by
    rw [HZ]
    split <;> omega
  have hperiod := fun hne hlow => @period_eq delta n hne hlow hhigh
  have hint := int_le (Int.le_of_lt hpos)
  rw [Scales] at h
  by_cases hzero : delta = 0
  · subst hzero
    have hn : period 0 n = int ((if n ≤ 0 then 1 else n) * HZ) := by
      rw [period, if_neg (fun h => absurd h.1 (by decide)), if_neg (fun h => absurd h.1 (by decide))]
    rw [hn, due, Int.zero_tdiv, Int.zero_tdiv, zero_mul, zero_mul]
    refine ⟨?_, rfl⟩
    rcases h with ⟨hlt, _⟩ | ⟨hne, _⟩ | ⟨_, hne⟩
    · rw [int_eq (by omega) hlt]
      omega
    · exact absurd rfl hne
    · exact hne
  · rw [due]
    generalize (if n ≤ 0 then 1 else n) * HZ = m at h hpos hperiod hint ⊢
    have habs : 0 < |delta| := abs_pos.mpr hzero
    have hneg := neg_abs_le delta
    have hrange : -2 ^ 63 < delta := by omega
    rw [hperiod hzero hrange]
    have hsame : (if delta ≠ 0 ∧ |delta| < m then |delta| else m) =
        if |delta| < int m then |delta| else int m := by
      rcases h with ⟨hlt, _⟩ | ⟨_, hle⟩ | ⟨heq, _⟩
      · rw [int_eq (by omega) hlt]
        split <;> split <;> omega
      · split <;> split <;> omega
      · exact absurd heq hzero
    have hbounds : 0 < (if |delta| < int m then |delta| else int m) ∧
        (if |delta| < int m then |delta| else int m) < 2 ^ 31 := by
      rcases h with ⟨hlt, _⟩ | ⟨_, hle⟩ | ⟨heq, _⟩
      · rw [int_eq (by omega) hlt]
        split <;> omega
      · split <;> omega
      · exact absurd heq hzero
    rw [hsame, coe_ulong, Int.emod_eq_of_lt (by omega) (by omega)]
    exact ⟨by omega, rfl⟩

/-- **A correction** adds what of the slew is past, and leaves what is to come. -/
theorem correction_add (hsend : tod.send < 2 ^ 32) (hsstart : tod.sstart < 2 ^ 32) {ticks : Nat}
    (hticks : tod.sstart < tod.send → tod.sstart ≤ ulong ticks) :
    tod.correction ticks +
        (tod.correct ticks).delta * ulong ((tod.correct ticks).send - (tod.correct ticks).sstart) =
      tod.delta * ulong (tod.send - tod.sstart) := by
  rw [Tod.correction, Tod.correct]
  by_cases heq : tod.sstart = tod.send
  · rw [if_neg (not_not_intro heq), if_neg (not_not_intro heq), zero_add]
  · rw [if_pos heq, if_pos heq]
    dsimp only
    rw [← mul_add]
    congr 1
    rw [coe_ulong, coe_ulong, coe_ulong, Tod.upto]
    split <;> omega

end TodRun
