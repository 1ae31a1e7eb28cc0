import NixKernel.CString

/-!
# Cutting a name into its elements: `parsename`

`parsename` copies the name, cuts the copy at the slashes and records where each element begins and ends.  The arrays
`elems` and `off` are as long as `growparse` has made them; a read or a write outside them makes the function `none`.
-/

namespace Parsename

open CString

def slash : UInt8 := 0x2f

def dot : UInt8 := 0x2e

/-- What is stored into an `int`. -/
def int (n : Nat) : Int := Int.bmod n (2 ^ 32)

/-- The copy of the name, the positions of the elements in it, and the offsets. -/
structure Elemlist where
  name : List UInt8
  nelems : Nat
  elems : List Nat
  off : List Int
  mustbedir : Bool
  deriving DecidableEq, Repr

/-- `a[i] = x` for an array that ends where the list does. -/
def store {α : Type} (a : List α) (i : Nat) (x : α) : Option (List α) :=
  if i < a.length then some (a.set i x) else none

/-- How many bytes `skipslash` skips. -/
def skips : List UInt8 → Nat
  | [] => 0
  | c :: name =>
    if c = slash ∨ (c = dot ∧ (name.getD 0 0 = 0 ∨ name.getD 0 0 = slash)) then skips name + 1 else 0

def skipslash (mem : List UInt8) (name : Nat) : Nat := name + skips (mem.drop name)

/-- `utfrune` of a rune that is a byte. -/
def utfrune (mem : List UInt8) (name : Nat) (c : UInt8) : Option Nat := (strchr c (mem.drop name)).map (name + ·)

/-- `Delta` of `growparse`. -/
def delta : Nat := 8

def growparse (e : Elemlist) : Option Elemlist :=
  if e.nelems % delta = 0 then
    if e.nelems ≤ e.elems.length ∧ e.nelems + 1 ≤ e.off.length then
      some { e with
        elems := e.elems.take e.nelems ++ List.replicate delta 0
        off := e.off.take (e.nelems + 1) ++ List.replicate delta 0 }
    else none
  else some e

/-- The loop of `parsename`, from the pointer `name`. -/
def parse : Nat → Elemlist → Nat → Option Elemlist
  | 0, _, _ => none
  | fuel + 1, e, name => do
      let name := skipslash e.name name
      if e.name.getD name 0 = 0 then
        let off ← store e.off e.nelems (int (name + strlen (e.name.drop name)))
        return { e with off := off, mustbedir := true }
      else
        let e ← growparse e
        let elems ← store e.elems e.nelems name
        let e := { e with elems := elems, nelems := e.nelems + 1 }
        match utfrune e.name name slash with
        | none =>
          let off ← store e.off e.nelems (int (name + strlen (e.name.drop name)))
          return { e with off := off, mustbedir := false }
        | some p =>
          let off ← store e.off e.nelems (int p)
          let copy ← store e.name p (0 : UInt8)
          parse fuel { e with off := off, name := copy } (p + 1)

/-- `parsename`.  Each pass of the loop goes over at least one byte of the name. -/
def parsename (aname : List UInt8) : Option Elemlist := do
  let name := aname ++ [0]
  let off ← store [0] 0 (int (skipslash name 0))
  parse (aname.length + 1) ⟨name, 0, [], off, false⟩ 0

/-- A maximal substring `[i, j)` without slashes that is not empty and not `.`. -/
structure Component (s : Str) (i j : Nat) : Prop where
  start : i = 0 ∨ s.get (i - 1) = slash
  lt : i < j
  le : j ≤ s.length
  inside : ∀ q, i ≤ q → q < j → s.get q ≠ slash
  finish : j = s.length ∨ s.get j = slash
  notDot : ¬(j = i + 1 ∧ s.get i = dot)

/-- **What `parsename` computes.**  `l` is where the components begin and end. -/
structure Parsed (s : Str) (e : Elemlist) (l : List (Nat × Nat)) : Prop where
  components : ∀ i j, (i, j) ∈ l ↔ Component s i j
  order : l.Pairwise fun a b => a.2 < b.1
  nelems : e.nelems = l.length
  elems : (e.elems.take e.nelems).map (read e.name) = l.map fun a => (s.bytes.drop a.1).take (a.2 - a.1)
  off : e.off.take (e.nelems + 1) =
    (int (skipslash (s.bytes ++ [0]) 0) :: l.map (int ∘ Prod.snd)).take e.nelems ++ [int s.length]
  first : ∀ a, l.head? = some a → skipslash (s.bytes ++ [0]) 0 = a.1
  mustbedir : e.mustbedir = true ↔
    s.bytes = [] ∨ s.bytes = [dot] ∨ [slash] <:+ s.bytes ∨ [slash, dot] <:+ s.bytes

end Parsename
