import Mathlib

/-!
# The buddy allocator for physical memory: `k10/physalloc.c`

A `Bal` manages the memory of one domain in blocks of `2^kval` bytes, `kval`
from `BKmin` to `BKmax`.  The block table is indexed relative to `memory`
(`BLOCK`), the links `next` and `prev` are indices from address 0 on (`INDEX`),
and 0 is nil.  As in the source, one line of `xphysalloc` uses a link as an index
into the table.

A result `none` is a panic or a trap.  Left out are the lock, the counts of
blocks for `physstats` and the tag kept for `phystag`.
-/

namespace Physalloc

open Function (update)

def bkmin : Nat := 21

def bkmax : Nat := 30

def ndomsMax : Nat := 16

/-- `b->bminsz`. -/
def bminsz : Nat := 2 ^ bkmin

/-- `struct Buddy`; `avail` is the tag. -/
@[ext]
structure Buddy where
  avail : Bool := false
  kval : Nat := 0
  next : Nat := 0
  prev : Nat := 0
  deriving DecidableEq, Repr

/-- `struct Bal`.  `avail k` is `avail[k].next`.  `kmin` is 0 until the first
`physinit`. -/
structure Bal where
  base : Nat := 0
  size : Nat := 0
  kmin : Nat := 0
  memory : Nat := 0
  blocks : Nat → Buddy := fun _ => {}
  avail : Nat → Nat := fun _ => 0

/-- `INDEX`. -/
def index (v : Nat) : Nat := v / bminsz

/-- `BLOCK`, for an index not below that of `memory`. -/
def Bal.block (b : Bal) (i : Nat) : Nat := i - index b.memory

/-- The table entry of index `i`. -/
def Bal.at (b : Bal) (i : Nat) : Buddy := b.blocks (b.block i)

/-- Change one entry of the table. -/
def Bal.set (b : Bal) (r : Nat) (f : Buddy → Buddy) : Bal :=
  { b with blocks := update b.blocks r (f (b.blocks r)) }

/-- `(1<<k)/b->bminsz`. -/
def units (k : Nat) : Nat := 2 ^ k / bminsz

/-- `log2ceil`. -/
def log2ceil (m : Nat) : Nat := Nat.log2 m + if m &&& (m - 1) ≠ 0 then 1 else 0

/-- Put block `i` of size `k` in front of its list: the end of `xphysfree` and
the body of the splitting loop. -/
def Bal.putOn (b : Bal) (k i : Nat) : Bal :=
  let n := b.avail k
  let b := b.set (b.block i) fun _ => { avail := true, kval := k, next := n, prev := 0 }
  let b := if n ≠ 0 then b.set (b.block n) fun l => { l with prev := i } else b
  { b with avail := update b.avail k i }

/-- The link to block `i` from the left: its predecessor is linked past it, or the
list is emptied when it has none. -/
def Bal.unlinkPrev (b : Bal) (i : Nat) : Bal :=
  let p := b.at i
  if p.prev ≠ 0 then
    (b.set (b.block p.prev) fun l => { l with next := p.next }).set (b.block i)
      fun l => { l with prev := 0 }
  else { b with avail := update b.avail p.kval 0 }

/-- The link to block `i` from the right. -/
def Bal.unlinkNext (b : Bal) (i : Nat) : Bal :=
  let p := b.at i
  if p.next ≠ 0 then
    (b.set (b.block p.next) fun l => { l with prev := p.prev }).set (b.block i)
      fun l => { l with next := 0 }
  else b

/-- "This removes block P from the avail list." -/
def Bal.takeOff (b : Bal) (i : Nat) : Bal :=
  let b := (b.unlinkPrev i).unlinkNext i
  b.set (b.block i) fun l => { l with avail := false }

/-- "Find buddy." -/
def Bal.buddy (b : Bal) (i : Nat) : Nat :=
  let u := units (b.at i).kval
  if (b.block i / u) % 2 = 1 then i - u else i + u

/-- "Can't merge if: this is the largest block; buddy isn't free; buddy has been
subsequently split again." -/
def Bal.stops (b : Bal) (i : Nat) : Bool :=
  let l := b.at i
  let p := b.at (b.buddy i)
  l.kval = bkmax || !p.avail || (p.avail && p.kval != l.kval)

/-- "Combine with buddy": the new state and the index of the larger block. -/
def Bal.merge (b : Bal) (i : Nat) : Bal × Nat :=
  let p := b.buddy i
  let b := b.takeOff p
  let i := min p i
  (b.set (b.block i) fun l => { l with kval := l.kval + 1 }, i)

/-- The loop `S1` of `xphysfree`.  `kval` grows with every turn up to `BKmax`, so
`BKmax + 1` turns are enough.  A block that was never given to the allocator has
`kval` 0, and the search for its buddy divides by zero. -/
def Bal.liberate : Nat → Bal → Nat → Option Bal
  | 0, _, _ => none
  | n + 1, b, i =>
    if units (b.at i).kval = 0 then none
    else if b.stops i then some (b.putOn (b.at i).kval i)
    else liberate n (b.merge i).1 (b.merge i).2

/-- `xphysfree`. -/
def Bal.xphysfree (b : Bal) (data : Nat) : Option Bal :=
  if data = 0 then some b else b.liberate (bkmax + 1) (index data)

/-- "Remove from list": the first block of list `j` becomes a used block of size
`k`.  The entry whose `prev` is cleared is found with the link, not with `BLOCK`
of the link. -/
def Bal.pop (b : Bal) (j k : Nat) : Bal :=
  let i := b.avail j
  let b := { b with avail := update b.avail j (b.at i).next }
  let b := b.set (b.avail j) fun l => { l with prev := 0 }
  b.set (b.block i) fun _ => { avail := false, kval := k, next := 0, prev := 0 }

/-- The splitting loop of `xphysalloc`, from size `k + n` down to `k`. -/
def Bal.split (b : Bal) (i k : Nat) : Nat → Bal
  | 0 => b
  | n + 1 => (b.putOn (k + n) (i + units (k + n))).split i k n

/-- The size of block that `xphysalloc` hands out for `size` bytes. -/
def blockKval (size : Nat) : Nat := log2ceil (if size < bminsz then bminsz else size)

/-- `xphysalloc`: the address, or 0 when no block is large enough. -/
def Bal.xphysalloc (b : Bal) (size : Nat) : Option (Bal × Nat) :=
  if b.size = 0 then none
  else
    let k := blockKval size
    match (List.range' k (bkmax + 1 - k)).find? fun j => b.avail j ≠ 0 with
    | none => some (b, 0)
    | some j =>
      let i := b.avail j
      let b := (b.pop j k).split i k (j - k)
      let m := b.memory + bminsz * b.block i
      if b.base ≤ m ∧ m < b.base + b.size then some (b, m) else none

/-- `plop`. -/
def Bal.plop (b : Bal) (a k : Nat) : Option Bal :=
  (b.set (b.block (index a)) fun l => { l with kval := k }).xphysfree a

/-- The first loop of `iimbchunk`, with `n` values of `k` to go before `BKmax`:
the blocks it plops, and where `a` and `k` end.  The size `s` is always `1<<k`. -/
def headChunks (e : Nat) : Nat → Nat → Nat → List (Nat × Nat) × Nat × Nat
  | 0, a, k => ([], a, k)
  | n + 1, a, k =>
    if a + 2 ^ k < e then
      if a &&& 2 ^ k ≠ 0 then
        let r := headChunks e n (a + 2 ^ k) (k + 1)
        ((a, k) :: r.1, r.2)
      else headChunks e n a (k + 1)
    else ([], a, k)

/-- `while(a+s <= e)`, for at most `n` turns. -/
def bodyChunks (e k : Nat) : Nat → Nat → List (Nat × Nat) × Nat
  | 0, a => ([], a)
  | n + 1, a =>
    if a + 2 ^ k ≤ e then
      let r := bodyChunks e k n (a + 2 ^ k)
      ((a, k) :: r.1, r.2)
    else ([], a)

/-- The last loop of `iimbchunk`: `k` goes down from `n - 1`. -/
def tailChunks (e : Nat) : Nat → Nat → List (Nat × Nat)
  | 0, _ => []
  | n + 1, a =>
    if a < e then
      if a + 2 ^ n ≤ e then (a, n) :: tailChunks e n (a + 2 ^ n)
      else tailChunks e n a
    else []

/-- The blocks that `iimbchunk` plops, in order. -/
def chunks (a e : Nat) : List (Nat × Nat) :=
  let a := (a + (bminsz - 1)) / bminsz * bminsz
  let e := e / bminsz * bminsz
  let h := headChunks e (bkmax - bkmin) a bkmin
  let b := bodyChunks e h.2.2 (e / 2 ^ h.2.2) h.2.1
  h.1 ++ b.1 ++ tailChunks e h.2.2 b.2

/-- Plop blocks one after another. -/
def Bal.plops : Bal → List (Nat × Nat) → Option Bal
  | b, [] => some b
  | b, (a, k) :: l => do
      let b ← b.plop a k
      b.plops l

/-- `iimbchunk`. -/
def Bal.iimbchunk (b : Bal) (a e : Nat) : Option Bal := b.plops (chunks a e)

/-- The part of `physinit` before the call of `iimbchunk`: the first range sets
the `Bal` up, later ones may only extend it upwards. -/
def Bal.grow (b : Bal) (pmstart addr len : Nat) : Option Bal :=
  if b.kmin = 0 then some { base := addr, size := len, kmin := bkmin, memory := pmstart }
  else if addr < b.base then none
  else if b.base + b.size < addr + len then some { b with size := addr - b.base + len }
  else some b

/-- `physinit` of one domain. -/
def Bal.physinit (b : Bal) (pmstart addr len : Nat) : Option Bal := do
  let b ← b.grow pmstart addr len
  b.iimbchunk addr (addr + len)

structure Phys where
  bal : Nat → Bal := fun _ => {}
  ndoms : Nat := 0

def Phys.setBal (s : Phys) (dom : Nat) (b : Bal) : Phys :=
  { s with bal := update s.bal dom b }

/-- The domain a range is booked under. -/
def domOf (dom : Int) : Nat := if dom < 0 ∨ (ndomsMax : Int) ≤ dom then 0 else dom.toNat

/-- "physinit: doms overlap", tested when a domain that exists is extended. -/
def Phys.domsOverlap (s : Phys) (dom : Nat) (b : Bal) : Bool :=
  (List.range ndomsMax).any fun i =>
    (s.bal i).kmin != 0 && i != dom && (s.bal i).base < b.base + b.size &&
      b.base + b.size < (s.bal i).base + (s.bal i).size

/-- `physinit`. -/
def Phys.physinit (s : Phys) (pmstart addr len : Nat) (dom : Int) : Option Phys := do
  let dom := domOf dom
  let b ← (s.bal dom).grow pmstart addr len
  if (s.bal dom).kmin ≠ 0 ∧ s.domsOverlap dom b then none
  else
    let b ← b.iimbchunk addr (addr + len)
    return { s.setBal dom b with ndoms := max s.ndoms (dom + 1) }

/-- `xphysalloc` on one domain, if it has memory. -/
def Phys.allocFrom (s : Phys) (dom size : Nat) : Option (Phys × Nat) :=
  if (s.bal dom).kmin = 0 then some (s, 0)
  else do
    let (b, m) ← (s.bal dom).xphysalloc size
    return (s.setBal dom b, m)

/-- The loop over all domains in `physalloc`, from domain `i` on: the address and
the domain it came from. -/
def Phys.allocAny (s : Phys) (size : Nat) (color : Int) : Nat → Nat → Option (Phys × Int × Nat)
  | 0, _ => some (s, color, 0)
  | n + 1, i => do
      let (s, m) ← s.allocFrom i size
      if m ≠ 0 then return (s, (i : Int), m) else s.allocAny size color n (i + 1)

/-- `physalloc`: the state, `*colorp` and the address. -/
def Phys.physalloc (s : Phys) (size : Nat) (color : Int) : Option (Phys × Int × Nat) :=
  if 0 ≤ color then
    if s.ndoms = 0 then none
    else do
      let dom := color.toNat % s.ndoms
      let color := if (s.bal dom).kmin = 0 then color else dom
      let (s, m) ← s.allocFrom dom size
      if m ≠ 0 then return (s, color, m) else s.allocAny size color s.ndoms 0
  else s.allocAny size color s.ndoms 0

/-- `physfree`: the first domain whose range has the address. -/
def Phys.physfree (s : Phys) (data : Nat) : Option Phys := do
  let dom ← (List.range ndomsMax).find? fun i =>
    (s.bal i).base ≤ data ∧ data < (s.bal i).base + (s.bal i).size
  let b ← (s.bal dom).xphysfree data
  return s.setBal dom b

end Physalloc
