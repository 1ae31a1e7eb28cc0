import Mathlib

/-!
# The IPv4 routing table: `ip/iproute.c`

The table is a forest of 1024 trees.  A node has a range of addresses; to its left
and right are the ranges before and after it, and below it (`mid`) those it
contains.  A route is in every tree that an address of its range hashes to.

Addresses and masks are 32-bit.  Left out are IPv6, the lock, the generation
counter, the notes to the interfaces (`ipifcaddroute`, `ipifcremroute`), the cached
interface of a route and the cached route of a conversation.
-/

namespace Iproute

/-- `Rv4`. -/
def rv4 : Nat := 1

/-- `Rifc`: "this route is a directly connected interface". -/
def rifc : Nat := 2

def lroot : Nat := 10

/-- The data of a route besides its range. -/
structure Entry where
  type : Nat
  gate : Nat
  tag : String
  ref : Int
  deriving DecidableEq, Repr

/-- A node of a tree without its links. -/
structure Route where
  address : Nat
  endaddress : Nat
  entry : Entry
  deriving DecidableEq, Repr

inductive Tree where
  | nil
  | node (p : Route) (depth : Nat) (left mid right : Tree)

inductive Compare where
  | preceeds
  | follows
  | equals
  | contains
  | contained
  deriving DecidableEq, Repr

/-- `rangecompare` of two ranges, for IPv4. -/
def rangecompare (sa ea : Nat) (b : Route) : Compare :=
  if ea < b.address then .preceeds
  else if sa > b.endaddress then .follows
  else if sa ≤ b.address ∧ ea ≥ b.endaddress then
    if sa = b.address ∧ ea = b.endaddress then .equals else .contains
  else .contained

def Tree.depth : Tree → Nat
  | .nil => 0
  | .node _ d _ _ _ => d

/-- `calcd`, for a node; a depth is a `uchar`. -/
def calcd (p : Route) (left mid right : Tree) : Tree :=
  .node p ((max (max left.depth right.depth) mid.depth + 1) % 256) left mid right

/-- `balancetree`: "if left and right are too out of balance, rotate tree node". -/
def balancetree : Tree → Tree
  | .nil => .nil
  | .node p d left mid right =>
    if left.depth > right.depth + 1 then
      match left with
      | .nil => .node p d left mid right
      | .node l _ ll lm lr => calcd l ll lm (calcd p lr mid right)
    else if right.depth > left.depth + 1 then
      match right with
      | .nil => .node p d left mid right
      | .node r _ rl rm rr => calcd r (calcd p left mid rl) rm rr
    else calcd p left mid right

/-- "Supercede the old entry if the old one isn't a local interface." -/
def supersede (old new : Entry) : Entry :=
  if old.type &&& rifc = 0 then { old with type := new.type, gate := new.gate }
  else if new.type &&& rifc ≠ 0 then { old with ref := old.ref + 1 }
  else old

/-- `addnode` of route `x` with the ranges `m` below it: the tree, and what is put on
the queue "to be merged into root". -/
def addnode (x : Route) (m : Tree) : Tree → Tree × List Tree
  | .nil => (.node x 1 .nil m .nil, [])
  | .node p d left mid right =>
    match rangecompare x.address x.endaddress p with
    | .preceeds =>
      let r := addnode x m left
      (balancetree (.node p d r.1 mid right), r.2)
    | .follows =>
      let r := addnode x m right
      (balancetree (.node p d left mid r.1), r.2)
    | .contains => (balancetree (.node x 1 .nil m .nil), [.node p d left mid right])
    | .equals =>
      let p := { p with entry := supersede p.entry x.entry }
      (balancetree (.node p d left mid right), [])
    | .contained =>
      let r := addnode x m mid
      (balancetree (.node p d left r.1 right), r.2)

/-- `walkadd`: "walk down a tree adding nodes back in". -/
def walkadd : Tree → Tree → Tree × List Tree
  | .nil, root => (root, [])
  | .node p _ left mid right, root =>
    let r₁ := addnode p mid root
    let r₂ := walkadd left r₁.1
    let r₃ := walkadd right r₂.1
    (r₃.1, r₃.2 ++ r₂.2 ++ r₁.2)

/-- `while(p = f->queue)`. -/
def Tree.drain (root : Tree) : List Tree → Option Tree
  | [] => some root
  | p :: queue =>
    let r := walkadd p root
    r.1 |>.drain (r.2 ++ queue)
partial_fixpoint

export Tree (drain)

/-- `addqueue`: nothing is queued for nil. -/
def addqueue (queue : List Tree) : Tree → List Tree
  | .nil => queue
  | .node p d left mid right => .node p d left mid right :: queue

/-- `looknode` and what `v4delroute` does to the node it finds: the tree, and what is
put on the queue. -/
def delnode (sa ea : Nat) : Tree → Tree × List Tree
  | .nil => (.nil, [])
  | .node p d left mid right =>
    match rangecompare sa ea p with
    | .contains => (.node p d left mid right, [])
    | .preceeds =>
      let r := delnode sa ea left
      (.node p d r.1 mid right, r.2)
    | .follows =>
      let r := delnode sa ea right
      (.node p d left mid r.1, r.2)
    | .contained =>
      let r := delnode sa ea mid
      (.node p d left r.1 right, r.2)
    | .equals =>
      if p.entry.ref - 1 = 0 then (.nil, addqueue (addqueue (addqueue [] left) mid) right)
      else
        (.node { p with entry := { p.entry with ref := p.entry.ref - 1 } } d left mid right, [])

/-- `f->v4root`. -/
def Forest : Type := Nat → Tree

/-- `V4H`. -/
def v4h (a : Nat) : Nat := (a &&& 0x07ffffff) >>> (32 - lroot - 5)

/-- The complement of a 32-bit mask. -/
def not32 (m : Nat) : Nat := m ^^^ 0xffffffff

def startOf (a mask : Nat) : Nat := a &&& mask

def endOf (a mask : Nat) : Nat := startOf a mask ||| not32 mask

/-- The trees that a range is in: `for(h=V4H(sa); h<=eh; h++)`. -/
def buckets (sa ea : Nat) : List Nat := List.range' (v4h sa) (v4h ea + 1 - v4h sa)

/-- Change the trees of a range one after another. -/
def Forest.change (f : Forest) (step : Tree → Tree × List Tree) : List Nat → Option Forest
  | [] => some f
  | h :: l => do
      let r := step (f h)
      let t ← drain r.1 r.2
      Forest.change (Function.update f h t) step l

/-- `v4addroute`. -/
def v4addroute (f : Forest) (tag : String) (a mask gate type : Nat) : Option Forest :=
  let sa := startOf a mask
  let ea := endOf a mask
  let p : Route :=
    { address := sa, endaddress := ea
      entry := { type := rv4 ||| type, gate := gate, tag := tag, ref := 1 } }
  f.change (addnode p .nil) (buckets sa ea)

/-- `v4delroute`. -/
def v4delroute (f : Forest) (a mask : Nat) : Option Forest :=
  let sa := startOf a mask
  let ea := endOf a mask
  f.change (delnode sa ea) (buckets sa ea)

/-- The loop of `v4lookup`, with the best route so far. -/
def Tree.lookup (la : Nat) : Tree → Option Route → Option Route
  | .nil, q => q
  | .node p _ left mid right, q =>
    if la ≥ p.address then
      if la ≤ p.endaddress then mid.lookup la (some p) else right.lookup la q
    else left.lookup la q

/-- The route that `v4lookup` selects. -/
def v4select (f : Forest) (la : Nat) : Option Route := (f (v4h la)).lookup la none

/-- `v4lookup` without a conversation: the route selected, if `findipifc` has an
interface for it. -/
def v4lookup (findipifc : Route → Bool) (f : Forest) (la : Nat) : Option Route :=
  (v4select f la).filter findipifc

end Iproute
