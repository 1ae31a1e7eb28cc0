import NixKernel.Lexical
import NixKernel.Parsename
import NixKernel.StepSystem
import NixKernel.Tally

/-!
# The path of a channel: `newpath`, `addelem`

A `Path` has the name of a channel and, for the root and for each element of the name, the channel of the mount point
that was crossed there.  A path that is shared is copied before it is changed.

Memory is a list of bytes, and a write outside it makes a function `none`.  `cleanname` is in libc and is a parameter.
`smalloc` waits for memory; a wait that is interrupted raises an error, and then nothing is returned.  `got` and
`closed` are for the record: the channels that a path has taken a reference to, and those that have been closed.
-/

namespace Paths

open CString
open Parsename (slash dot)

def pathslop : Nat := 20
def pathmslop : Nat := 20

/-- `#`. -/
def hash : UInt8 := 0x23

def dotdot : List UInt8 := [dot, dot]

structure Path where
  ref : Nat
  s : List UInt8
  len : Nat
  alen : Nat
  mtpt : List (Option Nat)
  mlen : Nat
  malen : Nat
  deriving DecidableEq, Repr

/-- `memmove` to the position `i` of an allocation. -/
def store {α : Type} (mem : List α) (i : Nat) (b : List α) : Option (List α) :=
  if i + b.length ≤ mem.length then some (mem.take i ++ b ++ mem.drop (i + b.length)) else none

def newpath (name : List UInt8) : Option Path :=
  (store (List.replicate (name.length + pathslop) 0) 0 (name ++ [0])).map fun s =>
    ⟨1, s, name.length, name.length + pathslop, List.replicate pathmslop none, 1, pathmslop⟩

def copypath (p : Path) : Option Path := do
  let s ← store (List.replicate p.alen 0) 0 (p.s.take (p.len + 1))
  let mtpt ← store (List.replicate p.malen none) 0 (p.mtpt.take p.mlen)
  return { p with ref := 1, s := s, mtpt := mtpt }

/-- "The correct name is #i rather than #i/, but the correct name of #/ is #/." -/
def cutslash (s : List UInt8) (r : Nat) : Option (List UInt8) :=
  if read s r = [slash] ∧ s.getD 1 0 ≠ slash then store s r [0] else some s

section

variable (cleanname : List UInt8 → List UInt8)

def fixdotdotname (p : Path) : Option Path :=
  if p.s.getD 0 0 = hash then
    match strchr slash p.s with
    | none => some p
    | some r => do
        let s ← store p.s r (cleanname (read p.s r) ++ [0])
        let s ← cutslash s r
        return { p with s := s, len := strlen s }
  else do
    let s ← store p.s 0 (cleanname (read p.s 0) ++ [0])
    return { p with s := s, len := strlen s }

/-- Room for a slash and `i` more bytes. -/
def Path.grow (p : Path) (i : Nat) : Option Path :=
  if p.len + 1 + i + 1 > p.alen then
    let a := p.len + 1 + i + 1 + pathslop
    (store (List.replicate a 0) 0 (p.s.take (p.len + 1))).map fun t => { p with s := t, alen := a }
  else some p

/-- "don't insert extra slash if one is present". -/
def Path.addSlash (p : Path) (s : List UInt8) : Option Path :=
  if p.len > 0 ∧ p.s.getD (p.len - 1) 0 ≠ slash ∧ s.getD 0 0 ≠ slash then
    (store p.s p.len [slash]).map fun t => { p with s := t, len := p.len + 1 }
  else some p

/-- The end of `addelem` for `..`: the channel that is closed comes with the path. -/
def Path.drop (p : Path) : Path × Option Nat :=
  if p.mlen > 1 then
    match p.mtpt.getD (p.mlen - 1) none with
    | some c => ({ p with mlen := p.mlen - 1, mtpt := p.mtpt.set (p.mlen - 1) none }, some c)
    | none => ({ p with mlen := p.mlen - 1 }, none)
  else (p, none)

/-- Room for another slot. -/
def Path.growMtpt (p : Path) : Option Path :=
  if p.mlen ≥ p.malen then
    let malen := p.mlen + 1 + pathmslop
    (store (List.replicate malen none) 0 (p.mtpt.take p.mlen)).map fun tt => { p with mtpt := tt, malen := malen }
  else some p

/-- The end of `addelem` for another name. -/
def Path.push (p : Path) («from» : Option Nat) : Option Path := do
  let p ← p.growMtpt
  let mtpt ← store p.mtpt p.mlen [«from»]
  return { p with mtpt := mtpt, mlen := p.mlen + 1 }

/-- The name with `s` behind it. -/
def Path.append (p : Path) (s : List UInt8) : Option Path := do
  let p ← p.grow s.length
  let p ← p.addSlash s
  let t ← store p.s p.len (s ++ [0])
  return { p with s := t, len := p.len + s.length }

/-- What `addelem` does to a path that is not shared. -/
def Path.add (p : Path) (s : List UInt8) («from» : Option Nat) : Option (Path × Option Nat) := do
  let p ← p.append s
  if s = dotdot then
    let p ← fixdotdotname cleanname p
    return p.drop
  else
    let p ← p.push «from»
    return (p, none)

/-- All paths; those with `ref` zero have been freed. -/
structure State where
  path : List Path
  got : List Nat
  closed : List Nat
  deriving DecidableEq, Repr

def noPath : Path := ⟨0, [], 0, 0, [], 0, 0⟩

def State.get (s : State) (p : Nat) : Path := s.path.getD p noPath

def State.set (s : State) (p : Nat) (x : Path) : State := { s with path := s.path.set p x }

/-- The mount points that a path has a reference to. -/
def Path.held (x : Path) : List Nat := (x.mtpt.take x.mlen).filterMap id

def pathclose (s : State) (p : Nat) : State :=
  let x := s.get p
  if x.ref > 1 then s.set p { x with ref := x.ref - 1 }
  else { s.set p noPath with closed := s.closed ++ x.held }

/-- "copy on write". -/
def uniquepath (s : State) (p : Nat) : Option (State × Nat) :=
  if (s.get p).ref > 1 then
    (copypath (s.get p)).map fun new =>
      (pathclose { s with path := s.path ++ [new], got := s.got ++ new.held } p, s.path.length)
  else some (s, p)

def addelem (s : State) (p : Nat) (name : List UInt8) («from» : Option Nat) : Option (State × Nat) :=
  if name = [dot] then some (s, p)
  else do
    let (s, p) ← uniquepath s p
    let (x, c) ← (s.get p).add cleanname name «from»
    let got := if name = dotdot then [] else «from».toList
    return ({ s.set p x with got := s.got ++ got, closed := s.closed ++ c.toList }, p)

/-- `addelem`, again and again. -/
def addelems : State → Nat → List (List UInt8 × Option Nat) → Option (State × Nat)
  | s, p, [] => some (s, p)
  | s, p, n :: ns => (addelem cleanname s p n.1 n.2).bind fun r => addelems r.1 r.2 ns

inductive Act
  | newpath (name : List UInt8)
  | incref (p : Nat)
  | addelem (p : Nat) (name : List UInt8) («from» : Option Nat)
  | pathclose (p : Nat)
  deriving DecidableEq, Repr

def act (s : State) : Act → Option State
  | .newpath name => (newpath name).map fun x => { s with path := s.path ++ [x] }
  | .incref p => if 0 < (s.get p).ref then some (s.set p { s.get p with ref := (s.get p).ref + 1 }) else none
  | .addelem p name «from» => if 0 < (s.get p).ref then (addelem cleanname s p name «from»).map Prod.fst else none
  | .pathclose p => if 0 < (s.get p).ref then some (pathclose s p) else none

def init : State := ⟨[], [], []⟩

/-- A name that `newpath` is called with: `/`, `#/`, or the name of a device. -/
def Root (name : List UInt8) : Prop :=
  name = [slash] ∨ name = [hash, slash] ∨ ∃ spec, spec ≠ [] ∧ slash ∉ spec ∧ 0 ∉ spec ∧ name = hash :: spec

/-- The name of an element. -/
def Element (name : List UInt8) : Prop := Lexical.Name slash dot name ∧ 0 ∉ name

def Legal : Act → Prop
  | .newpath name => Root name
  | .addelem _ name _ => Element name ∨ name = [dot] ∨ name = dotdot
  | _ => True

def step (s : State) (a : Act) (t : State) : Prop := Legal a ∧ act cleanname s a = some t

end

def Path.name (x : Path) : List UInt8 := read x.s 0

/-- The slots in use. -/
def Path.slots (x : Path) : List (Option Nat) := x.mtpt.take x.mlen

/-- The elements of a name, behind its root. -/
def elements (name : List UInt8) : List (List UInt8) :=
  Lexical.elements slash dot (if name.head? = some hash then name.dropWhile (· ≠ slash) else name)

/-- **String and array are aligned**, and fit in what is allocated for them. -/
structure Aligned (x : Path) : Prop where
  slots : x.slots.length = (elements x.name).length + 1
  mlen : x.slots.length = x.mlen
  len : x.len = x.name.length
  fits : x.len < x.alen
  alen : x.s.length = x.alen
  malen : x.mtpt.length = x.malen

/-- Every reference to a channel that a path has taken is in one slot of one path, or has been given back. -/
def Balanced (s : State) : Prop :=
  ∀ c, s.got.count c = s.closed.count c + (s.path.map fun x => x.held.count c).sum

end Paths
