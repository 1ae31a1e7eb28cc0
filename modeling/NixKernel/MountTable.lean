import NixKernel.HashChain
import NixKernel.StepSystem

/-!
# The mount table of a process group

A mount point is a `Mhead`: the channel mounted upon, and the list of what is mounted there,
the union.  The heads hang in the hash chains of the `Pgrp`, by the path of the channel's qid.
`cmount` puts a channel, or all elements of the union that it heads, into the union of a mount
point, which it makes when there is none; `cunmount` takes one element out, or all.

A channel is what the mount table reads of it.  The heads are kept by address, because a
channel that came out of a union knows its head (`umh`), and that head need not be in the table
any more.  `smalloc` waits for memory, and a note interrupts the wait: `mem` says how many
calls succeed before that happens.
-/

namespace MountTable

open Function (update)

abbrev Addr := Nat

def qtdir : UInt8 := 0x80
def morder : Nat := 3
def mrepl : Nat := 0
def mbefore : Nat := 1
def mafter : Nat := 2
def mcreate : Nat := 4
def mnthash : Nat := 32

/-- What `eqchan` compares when it skips the version: `qid.path`, `dev->dc` and `devno`. -/
structure Ident where
  path : Nat
  dc : Nat
  devno : Nat
deriving Repr, DecidableEq

/-- What the mount table reads of a `Chan`: its identity, `qid.type`, the union it heads and
the identity of its `mchan`. -/
structure Chan where
  ident : Ident
  type : UInt8
  umh : Option Addr
  mchan : Option Ident
deriving Repr, DecidableEq

/-- `Mount`. -/
structure Mount where
  mountid : Nat
  «to» : Chan
  mflag : Nat
  spec : Option String
deriving Repr, DecidableEq

/-- `Mhead`. -/
structure Mhead where
  «from» : Chan
  mount : List Mount
deriving Repr, DecidableEq

/-- A `Pgrp`, all heads by address, and the counter of mount ids.  `ns` is set when the write
lock of the name space has been left held. -/
structure Pgrp where
  hash : Nat → List Addr
  mhead : Addr → Mhead
  mountid : Nat
  ns : Bool

inductive Err
  | Emount
  | Eunmount
  | Eunion
  | Eintr
deriving Repr, DecidableEq

/-- The chain of a path, `MOUNTH`. -/
def bucket (k : Ident) : Nat := k.path % mnthash

/-- What a head is for. -/
def Pgrp.key (s : Pgrp) (a : Addr) : Ident := (s.mhead a).from.ident

/-- The head of a channel: the loop at the start of `cmount`, `cunmount` and `findmount`. -/
def Pgrp.find (s : Pgrp) (k : Ident) : Option Addr := HashChain.lookup bucket s.key s.hash k

/-- `mh->mount = l`. -/
def Pgrp.setMount (s : Pgrp) (a : Addr) (l : List Mount) : Pgrp :=
  { s with mhead := update s.mhead a { s.mhead a with mount := l } }

/-- `newmhead(from)` at a new address, hung at the end of its chain. -/
def Pgrp.link (s : Pgrp) (a : Addr) (c : Chan) : Pgrp :=
  { s with
    mhead := update s.mhead a ⟨c, []⟩
    hash := update s.hash (bucket c.ident) (s.hash (bucket c.ident) ++ [a]) }

/-- `*l = mh->hash; mh->mount = nil`. -/
def Pgrp.unlink (s : Pgrp) (a : Addr) : Pgrp :=
  { s.setMount a [] with
    hash := update s.hash (bucket (s.key a)) ((s.hash (bucket (s.key a))).erase a) }

/-- The union that a channel heads. -/
def Pgrp.union (s : Pgrp) (c : Chan) : List Mount := (c.umh.map fun a => (s.mhead a).mount).getD []

/-- `smalloc`. -/
def smalloc : Option Nat → Option (Option Nat)
  | none => some none
  | some 0 => none
  | some (n + 1) => some (some n)

/-- `newmount`: the counter of mount ids, and the element unless a wait was interrupted. -/
def newmount (mem : Option Nat) (id : Nat) («to» : Chan) (flag : Nat) (spec : Option String) :
    Nat × Option (Option Nat × Mount) :=
  match smalloc mem with
  | none => (id, none)
  | some mem =>
    let m : Mount := ⟨id + 1, «to», flag, spec⟩
    if spec.isNone then (id + 1, some (mem, m))
    else
      match smalloc mem with
      | none => (id + 1, none)
      | some mem => (id + 1, some (mem, m))

/-- "copy a union when binding it onto a directory" -/
def copyUnion (mem : Option Nat) (id flg : Nat) :
    List Mount → Nat × Option (Option Nat × List Mount)
  | [] => (id, some (mem, []))
  | um :: l =>
    match newmount mem id um.«to» flg um.spec with
    | (id, none) => (id, none)
    | (id, some (mem, f)) =>
      match copyUnion mem id flg l with
      | (id, none) => (id, none)
      | (id, some (mem, l)) => (id, some (mem, f :: l))

/-- The flag of the copied elements. -/
def copyFlag (order : Nat) : Nat := if order = mrepl then mafter else order

/-- The new elements `nm` and the union that is there. -/
def arrange (order : Nat) (nm cur : List Mount) : List Mount :=
  let cur := if order = mrepl then [] else cur
  if cur ≠ [] ∧ order = mafter then cur ++ nm else nm ++ cur

/-- The second half of `cmount`, with the head's lock held. -/
def mountAt (s : Pgrp) (mem : Option Nat) (a : Addr) (new : Chan) (flag : Nat)
    (spec : Option String) : Pgrp × Except Err Nat :=
  let order := flag &&& morder
  match newmount mem s.mountid new flag spec with
  | (id, none) => ({ s with mountid := id }, .error .Eintr)
  | (id, some (mem, nm)) =>
    match copyUnion mem id (copyFlag order) (s.union new).tail with
    | (id, none) => ({ s with mountid := id }, .error .Eintr)
    | (id, some (_, l)) =>
      let nm := if flag &&& mcreate ≠ 0 then { nm with mflag := nm.mflag ||| mcreate } else nm
      ({ s with mountid := id }.setMount a (arrange order (nm :: l) (s.mhead a).mount),
        .ok nm.mountid)

/-- `cmount`.  An interrupted wait before the name space's lock is released leaves it held. -/
def cmount (s : Pgrp) (mem : Option Nat) (fresh : Addr) (new old : Chan) (flag : Nat)
    (spec : Option String) : Pgrp × Except Err Nat :=
  let order := flag &&& morder
  if (old.type ^^^ new.type) &&& qtdir ≠ 0 then (s, .error .Emount)
  else if old.type &&& qtdir = 0 ∧ order ≠ mrepl then (s, .error .Emount)
  else if flag &&& mcreate ≠ 0 ∧ (∃ m ∈ (s.union new).head?,
      (s.union new).tail ≠ [] ∨ m.mflag &&& mcreate = 0) then (s, .error .Emount)
  else
    match s.find old.ident with
    | some a => mountAt s mem a new flag spec
    | none =>
      match smalloc mem with
      | none => ({ s with ns := true }, .error .Eintr)
      | some mem =>
        let s := s.link fresh old
        if order ≠ mrepl then
          match newmount mem s.mountid old 0 none with
          | (id, none) => ({ s with mountid := id, ns := true }, .error .Eintr)
          | (id, some (mem, m)) =>
            mountAt ({ s with mountid := id }.setMount fresh [m]) mem fresh new flag spec
        else mountAt s mem fresh new flag spec

/-- `eqchan(f->to, mounted, 1)`, or the same of `f->to->mchan`. -/
def Mount.isTo (f : Mount) (mounted : Chan) : Bool :=
  f.«to».ident = mounted.ident || f.«to».mchan = some mounted.ident

/-- The union without its first element that is `mounted`. -/
def remove (mounted : Chan) : List Mount → Option (List Mount)
  | [] => none
  | f :: l => if f.isTo mounted then some l else (remove mounted l).map (f :: ·)

/-- `cunmount`: `mounted` nil takes everything away. -/
def cunmount (s : Pgrp) (mnt : Chan) (mounted : Option Chan) : Pgrp × Except Err Nat :=
  match s.find mnt.ident with
  | none => (s, .error .Eunmount)
  | some a =>
    match mounted with
    | none => (s.unlink a, .ok 0)
    | some c =>
      match remove c (s.mhead a).mount with
      | none => (s, .error .Eunion)
      | some [] => (s.unlink a, .ok 0)
      | some l => (s.setMount a l, .ok 0)

/-- What `findmount` comes to: no mount point, the head and the first element, or a nil
pointer. -/
inductive Found
  | miss
  | hit (a : Addr) («to» : Chan)
  | fault
deriving Repr, DecidableEq

/-- `findmount`. -/
def findmount (s : Pgrp) (k : Ident) : Found :=
  match s.find k with
  | none => .miss
  | some a =>
    match (s.mhead a).mount with
    | [] => .fault
    | m :: _ => .hit a m.«to»

/-- A call; a `cmount` comes with the address that `newmhead` would get. -/
inductive Op
  | cmount (mem : Option Nat) (fresh : Addr) (new old : Chan) (flag : Nat) (spec : Option String)
  | cunmount (mnt : Chan) (mounted : Option Chan)
deriving Repr, DecidableEq

/-- One call.  It does not return while the name space's lock is held. -/
def step (s : Pgrp) (op : Op) : Option (Pgrp × Except Err Nat) :=
  if s.ns then none
  else
    match op with
    | .cmount mem fresh new old flag spec => some (cmount s mem fresh new old flag spec)
    | .cunmount mnt mounted => some (cunmount s mnt mounted)

/-- The allocator's part: a new head is at an address that is not in use. -/
def Fresh (s : Pgrp) : Op → Prop
  | .cmount _ fresh new _ _ _ => (∀ b, fresh ∉ s.hash b) ∧ new.umh ≠ some fresh
  | .cunmount _ _ => True

/-- A `cmount` whose waits may be interrupted finds its mount point there. -/
def Quiet (s : Pgrp) : Op → Prop
  | .cmount mem _ _ old _ _ => mem = none ∨ s.find old.ident ≠ none
  | .cunmount _ _ => True

/-- A process group with an empty name space; the heads outside its table are arbitrary. -/
def Start (s : Pgrp) : Prop := s.hash = (fun _ => []) ∧ s.ns = false

/-- The states that runs reach in which no `cmount` of a new mount point is interrupted. -/
def Reach : Pgrp → Prop :=
  StepSystem.Reach Start fun s op t => Fresh s op ∧ Quiet s op ∧ ∃ r, step s op = some (t, r)

/-- An element of a union, for those who walk it. -/
structure Elem where
  «to» : Chan
  mflag : Nat
  spec : Option String
deriving Repr, DecidableEq

def Mount.elem (m : Mount) : Elem := ⟨m.«to», m.mflag, m.spec⟩

/-- The union of a mount point. -/
def Pgrp.view (s : Pgrp) (k : Ident) : Option (List Elem) :=
  (s.find k).map fun a => (s.mhead a).mount.map Mount.elem

/-- The elements of the source of a `cmount`: the channel itself, and the others of the union
that it heads. -/
def source (s : Pgrp) (new : Chan) (flag : Nat) (spec : Option String) : List Elem :=
  ⟨new, flag, spec⟩ ::
    (s.union new).tail.map fun m => ⟨m.«to», copyFlag (flag &&& morder), m.spec⟩

/-- **The meaning of the flags**: the source replaces the union, or goes behind it or before
it; in a new union the directory mounted upon comes first. -/
def mounted (order : Nat) (old : Chan) (src : List Elem) (cur : Option (List Elem)) : List Elem :=
  if order = mrepl then src
  else if order = mafter then cur.getD [⟨old, 0, none⟩] ++ src
  else src ++ cur.getD [⟨old, 0, none⟩]

/-- A union without its first element that is `c`. -/
def without (c : Chan) : List Elem → List Elem
  | [] => []
  | e :: l => if e.«to».ident = c.ident ∨ e.«to».mchan = some c.ident then l else e :: without c l

end MountTable
