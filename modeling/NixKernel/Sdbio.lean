import Mathlib

/-!
# Partitions of a storage device: `sdbio`

`sdbio` moves bytes between a buffer and a partition.  It rounds the request to sectors, cuts it to what one
transfer may have and to the end of the partition, and goes through a buffer of its own, unless the bytes can go
straight to or from a kernel address.  A write of part of a sector reads the sectors first.

The medium is its bytes, the buffer is the memory from the address `a` on.  The driver's `bio` moves whole
sectors, as many as it likes of those it is asked for, or fails and moves none.  When the medium has gone, the
attempt is repeated once with what `sdinitpart` finds.
-/

namespace Sd

def sdMaxio : Nat := 2048 * 1024

/-- The first `n` bytes of `g` in the place of those of `f` from `a` on. -/
def paste (f : Nat → UInt8) (a n : Nat) (g : Nat → UInt8) : Nat → UInt8 :=
  fun i => if a ≤ i ∧ i < a + n then g (i - a) else f i

/-- The arguments of `sdbio`; `vers` is that of the channel's qid. -/
structure Req where
  write : Bool
  kaddr : Bool
  len : Nat
  off : Nat
  vers : Nat
  len_lt : len < 2 ^ 31
  off_lt : off < 2 ^ 64

/-- What `sdbio` finds: the unit and the partition of the channel.  `stop` is `pp->end`, `removable` the flag in
`inquiry[1]`, and `vers` is `unit->vers+pp->vers`.  The size of the medium is a `vlong`. -/
structure Medium where
  secsize : Nat
  start : Nat
  stop : Nat
  vers : Nat
  removable : Bool
  disc : Nat → UInt8
  secsize_lt : 1 < secsize ∧ secsize < 2 ^ 32
  ordered : start ≤ stop
  fits : stop * secsize < 2 ^ 63

/-- One attempt: the medium, the buffer that `sdmalloc` gives, how many sectors each of the two transfers moves
when it does not fail, and whether `unit->sectors` is 0 when an error is raised. -/
structure Turn where
  m : Medium
  mem : Option (Nat → UInt8)
  bio₁ : Option Nat
  bio₂ : Option Nat
  gone : Bool

inductive Err
  | enonexist
  | echange
  | eio
  | enomem
  deriving DecidableEq, Repr

/-- How a call ends.  It runs wild with a nil pointer, or with a negative count for `memmove`. -/
inductive Ending
  | returned (k : Nat)
  | raised (e : Err)
  | wild
  deriving DecidableEq, Repr

/-- What an attempt leaves: the bytes, how many were stored at `a`, the sectors asked for (first and number),
whether `unit->ctl` is held by the error handler of the loop, and the references taken and not released. -/
structure Run where
  ending : Ending
  disc : Nat → UInt8
  buf : Nat → UInt8
  stored : Nat
  asked : List (Nat × Nat)
  ctl : Bool
  refs : Nat

/-- `bno = (off/unit->secsize) + pp->start`. -/
def Req.bno (r : Req) (m : Medium) : Nat := (r.off / m.secsize + m.start) % 2 ^ 64

/-- The number of sectors, before it is cut. -/
def Req.wanted (r : Req) (m : Medium) : Nat :=
  ((r.off + r.len + m.secsize - 1) % 2 ^ 64 / m.secsize + m.start + 2 ^ 64 - r.bno m) % 2 ^ 64 % 2 ^ 32

/-- `nb`, cut to `SDmaxio` and to the partition. -/
def Req.nb (r : Req) (m : Medium) : Nat :=
  let max := sdMaxio / m.secsize
  let nb := if max < r.wanted m then max else r.wanted m
  if m.stop < (r.bno m + nb) % 2 ^ 64 then (m.stop + 2 ^ 64 - r.bno m) % 2 ^ 64 % 2 ^ 32 else nb

/-- There is nothing to transfer. -/
def Req.idle (r : Req) (m : Medium) : Bool := m.stop ≤ r.bno m ∨ r.nb m = 0

def Req.offset (r : Req) (m : Medium) : Nat := r.off % m.secsize

/-- `len`, cut to the sectors. -/
def Req.clip (r : Req) (m : Medium) : Nat :=
  if r.nb m * m.secsize < r.offset m + r.len then r.nb m * m.secsize - r.offset m else r.len

/-- `hard`: a write has to read first. -/
def Req.hard (r : Req) (m : Medium) : Bool := r.offset m ≠ 0 ∨ r.write = true ∧ r.clip m % m.secsize ≠ 0

/-- The bytes go straight to or from `a`. -/
def Req.direct (r : Req) (m : Medium) : Bool := r.kaddr && !r.hard m

/-- "if(l < offset) len = 0; else if(len > l - offset) len = l - offset;" -/
def within (l offset len : Nat) : Nat := if l < offset then 0 else if l - offset < len then l - offset else len

/-- An error: the handler of the transfer releases the device, unless that of the loop still does. -/
def failed (m : Medium) (buf : Nat → UInt8) (asked : List (Nat × Nat)) : Run :=
  ⟨.raised .eio, m.disc, buf, 0, asked, m.removable, if m.removable then 1 else 0⟩

/-- Reading; `b` is the buffer when the bytes do not go straight to `a`. -/
def readSectors (r : Req) (t : Turn) (buf : Nat → UInt8) (b : Option (Nat → UInt8)) : Run :=
  let m := t.m
  let nb := r.nb m
  let bno := r.bno m
  match t.bio₁ with
  | none => failed m buf [(bno, nb)]
  | some got =>
    let l := min got nb * m.secsize
    let len := within l (r.offset m) (r.clip m)
    let sectors := fun i => m.disc (bno * m.secsize + i)
    match b with
    | none => ⟨.returned len, m.disc, paste buf 0 l sectors, l, [(bno, nb)], false, 0⟩
    | some b =>
      let b := paste b 0 l sectors
      ⟨.returned len, m.disc, paste buf 0 len fun i => b (r.offset m + i), len, [(bno, nb)], false, 0⟩

/-- The last transfer of a write: `nb` sectors from `b`, of which `len` bytes from `offset` on are new. -/
def writeSectors (r : Req) (t : Turn) (buf b : Nat → UInt8) (nb len : Nat) (bio : Option Nat)
    (asked : List (Nat × Nat)) : Run :=
  let m := t.m
  let asked := asked ++ [(r.bno m, nb)]
  match bio with
  | none => failed m buf asked
  | some put =>
    let l := min put nb * m.secsize
    ⟨.returned (within l (r.offset m) len), paste m.disc (r.bno m * m.secsize) l b, buf, 0, asked, false, 0⟩

/-- `nb` of a hard write when `l` bytes were read: "if(l < (nb*unit->secsize)) nb = l/unit->secsize". -/
def Req.halfNb (r : Req) (m : Medium) (l : Nat) : Nat :=
  if l < r.nb m * m.secsize then l / m.secsize else r.nb m

/-- `len` of a hard write when `l` bytes were read: "l = nb*unit->secsize - offset; if(len > l) len = l;". -/
def Req.halfLen (r : Req) (m : Medium) (l : Nat) : Int :=
  if l < r.nb m * m.secsize then
    min (r.clip m : Int) (((l / m.secsize * m.secsize : Nat) : Int) - (r.offset m : Int))
  else r.clip m

/-- A hard write when `l` bytes were read.  It writes no more than it got. -/
def writeHard (r : Req) (t : Turn) (buf b : Nat → UInt8) (l : Nat) : Run :=
  -- a negative count for `memmove`
  if r.halfLen t.m l < 0 then ⟨.wild, t.m.disc, buf, 0, [(r.bno t.m, r.nb t.m)], t.m.removable, 1⟩
  else
    writeSectors r t buf
      (paste (paste b 0 l fun i => t.m.disc (r.bno t.m * t.m.secsize + i)) (r.offset t.m) (r.halfLen t.m l).toNat buf)
      (r.halfNb t.m l) (r.halfLen t.m l).toNat t.bio₂ [(r.bno t.m, r.nb t.m)]

/-- Writing by way of a buffer.  A hard one reads the sectors first. -/
def writeBuffered (r : Req) (t : Turn) (buf b : Nat → UInt8) : Run :=
  if r.hard t.m then
    match t.bio₁ with
    | none => failed t.m buf [(r.bno t.m, r.nb t.m)]
    | some got => writeHard r t buf b (min got (r.nb t.m) * t.m.secsize)
  else
    writeSectors r t buf (paste b (r.offset t.m) (r.clip t.m) buf) (r.nb t.m) (r.clip t.m) t.bio₁ []

/-- One turn of the loop in `sdbio`, with the transfer behind it. -/
def attempt (r : Req) (t : Turn) (buf : Nat → UInt8) : Run :=
  let m := t.m
  if m.vers ≠ r.vers then ⟨.raised .echange, m.disc, buf, 0, [], true, 1⟩
  else if r.idle m then
    if r.write then ⟨.raised .eio, m.disc, buf, 0, [], true, 1⟩
    else ⟨.returned 0, m.disc, buf, 0, [], false, 0⟩
  else if r.direct m then
    if r.write then writeSectors r t buf buf (r.nb m) (r.clip m) t.bio₁ [] else readSectors r t buf none
  else
    match t.mem with
    | none => ⟨.raised .enomem, m.disc, buf, 0, [], m.removable, 1⟩
    | some b => if r.write then writeBuffered r t buf b else readSectors r t buf (some b)

/-- What `sdgetdev` and the table of units have for the channel. -/
inductive Found
  | nodev
  | nounit
  | unit (t : Bool → Turn)

/-- "media change; go around again": an i/o error while the handler of the loop is in place and the medium is gone. -/
def again (t : Turn) (x : Run) : Bool := x.ending = .raised .eio ∧ x.ctl = true ∧ t.gone = true

/-- "other errors; give up": the handler of the loop, if it is still in place, unlocks and releases. -/
def giveUp (x : Run) : Run :=
  match x.ending with
  | .raised _ => if x.ctl then { x with ctl := false, refs := 0 } else x
  | _ => x

/-- The turn that decides: the second when the medium has gone at the first. -/
def deciding (r : Req) (t : Bool → Turn) (buf : Nat → UInt8) : Turn :=
  if again (t false) (attempt r (t false) buf) then t true else t false

/-- `sdbio`. -/
def sdbio (r : Req) (f : Found) (buf : Nat → UInt8) : Run :=
  match f with
  | .nodev => ⟨.raised .enonexist, fun _ => 0, buf, 0, [], false, 0⟩
  | .nounit => ⟨.wild, fun _ => 0, buf, 0, [], false, 1⟩
  | .unit t =>
    let x := attempt r (t false) buf
    if again (t false) x then giveUp (attempt r (t true) x.buf) else giveUp x

end Sd
