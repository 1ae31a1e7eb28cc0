import NixKernel.Extents
import NixKernel.StepSystem

/-!
# The map of physical addresses

`adr.map` is an array of entries, the first `adr.nmap` of which say of what type each range of
physical addresses is and what it is used for.  `insert` adds a range, `adralloc` finds a free
one of the wanted type and cuts it out, `adrfree` gives it back and joins it with its
neighbours, and `adrlook` finds an entry by a binary search.

The array is kept as its entries and the slots behind them: a slot keeps what it held when
`nmap` last went past it, and `adrfree` looks at the first of them.
-/

namespace Adr

def amemory : UInt8 := 1
def mfree : UInt8 := 0
def mkpage : UInt8 := 2
def cnone : Int := -1

/-- Arithmetic on `uintmem`. -/
def uintmem (n : Nat) : Nat := n % 2 ^ 64

/-- An `int` among `uintmem`s. -/
def ofInt (i : Int) : Nat := (i % 2 ^ 64).toNat

/-- `~0ull`. -/
def nomem : Nat := 2 ^ 64 - 1

/-- `Adrmap`. -/
structure Adrmap where
  base : Nat
  len : Nat
  type : UInt8
  use : UInt8
  color : Int
  memflags : Nat
deriving Repr, DecidableEq

/-- `a->base + a->len`. -/
def Adrmap.fin (a : Adrmap) : Nat := a.base + a.len

/-- The first `l` bytes of an entry. -/
def Adrmap.upto (a : Adrmap) (l : Nat) : Adrmap := { a with len := l }

/-- What is left of an entry behind its first `l` bytes. -/
def Adrmap.behind (a : Adrmap) (l : Nat) : Adrmap :=
  { a with base := uintmem (a.base + l), len := uintmem (a.len + 2 ^ 64 - l) }

/-- The array: `map[0..nmap)`, and the slots behind. -/
structure Tab where
  map : List Adrmap
  rest : List Adrmap
deriving Repr, DecidableEq

/-- The entry of an array that has never been written. -/
def Adrmap.zero : Adrmap := ⟨0, 0, 0, 0, 0, 0⟩

/-- `adr` before the first `insert`. -/
def Tab.start : Tab := ⟨[], List.replicate 400 Adrmap.zero⟩

/-- `insert`: the entries that do not begin below the new one move up. -/
def insert (s : Tab) (a : Adrmap) : Tab :=
  match s.rest with
  | [] => s   -- "adr: map too small"
  | _ :: rest =>
    let above := fun e : Adrmap => decide (a.base ≤ e.base)
    ⟨s.map.rdropWhile above ++ a :: s.map.rtakeWhile above, rest⟩

/-- The binary search of `adrlook`: the index of the entry found. -/
def look (map : List Adrmap) (pa len tab n : Nat) : Option Nat :=
  if n = 0 then none
  else
    let i := n / 2
    match map[tab + i]? with
    | none => none
    | some m =>
      if m.base ≤ pa then
        if uintmem (pa + len - m.base) ≤ m.len then some (tab + i)
        else look map pa len (tab + i + 1) (n - (i + 1))
      else look map pa len tab i
termination_by n

/-- `adrlook`. -/
def adrlook (s : Tab) (pa len : Nat) : Option Nat := look s.map pa len 0 s.map.length

/-- `trymerge` of the entries `j` and `j + 1`: whether it did.  Moving what is behind the
second one down is a `memmove` of a negative count when there is no second one. -/
def trymerge (s : Tab) (j : Nat) : Option (Tab × Bool) :=
  match (s.map ++ s.rest)[j]?, (s.map ++ s.rest)[j + 1]? with
  | some a, some b =>
    if a.type = b.type ∧ a.use = b.use ∧ a.color = b.color ∧ uintmem a.fin = b.base then
      if j + 1 < s.map.length then
        some (⟨s.map.take j ++ { a with len := uintmem (a.len + b.len) } :: s.map.drop (j + 2),
          s.map.drop (s.map.length - 1) ++ s.rest⟩, true)
      else none
    else some (s, false)
  | _, _ => none

/-- `ROUNDUP(x, align)`, computed in `uintmem`. -/
def roundup (x : Nat) (align : Int) : Nat :=
  uintmem (uintmem (x + ofInt (align - 1)) / ofInt align * ofInt align)

/-- What aligning costs in front of a range that begins at `x`. -/
def slop (x : Nat) (align : Int) : Nat :=
  if align ≠ 0 then uintmem (roundup x align + 2 ^ 64 - x) else 0

/-- An entry taken into use. -/
def Adrmap.grant (a : Adrmap) (use : UInt8) (color : Int) (memflags : Nat) : Adrmap :=
  { a with use, memflags, color := if color ≠ cnone then color else a.color }

/-- The loop of `intadralloc` at the first of the entries `todo`. -/
def intadralloc (base len : Nat) (align type : Int) (use : UInt8) (color : Int) (memflags : Nat) :
    List Adrmap → List Adrmap → List Adrmap → Option (Tab × Nat)
  | done, [], rest => some (⟨done, rest⟩, nomem)
  | done, a :: todo, rest =>
    if (type ≠ -1 ∧ (a.type.toNat : Int) ≠ type) ∨ a.use ≠ mfree then
      intadralloc base len align type use color memflags (done ++ [a]) todo rest
    else if base ≠ 0 ∧ (uintmem a.fin < uintmem (base + len) ∨ base < a.base) then
      intadralloc base len align type use color memflags (done ++ [a]) todo rest
    else if base ≠ 0 ∧ a.base < base then
      match rest with
      | [] => none   -- panic
      | _ :: rest =>
        let l := base - a.base
        intadralloc base len align type use color memflags (done ++ [a.upto l])
          (a.behind l :: todo) rest
    else
      let adjlen := uintmem (len + slop a.base align)
      if a.len < adjlen then
        intadralloc base len align type use color memflags (done ++ [a]) todo rest
      else if adjlen < a.len then
        match rest with
        | [] => none   -- panic
        | _ :: rest =>
          some (⟨done ++ (a.upto adjlen).grant use color memflags :: a.behind adjlen :: todo,
            rest⟩, uintmem (a.base + slop a.base align))
      else
        some (⟨done ++ a.grant use color memflags :: todo, rest⟩,
          uintmem (a.base + slop a.base align))
termination_by _ todo rest => todo.length + rest.length

/-- `adralloc`. -/
def adralloc (s : Tab) (base len : Nat) (align type : Int) (use : UInt8) (memflags : Nat) :
    Option (Tab × Nat) :=
  intadralloc base len align type use cnone memflags [] s.map s.rest

/-- The first merge of `adrfree`: the entry's index, and the map. -/
def mergeLeft (s : Tab) (j : Nat) : Option (Tab × Nat) :=
  if 0 < j then do
    let (s, ok) ← trymerge s (j - 1)
    return (s, if ok then j - 1 else j)
  else some (s, j)

/-- `adrfree`. -/
def adrfree (s : Tab) (base len : Nat) : Option Tab :=
  match adrlook s base len with
  | none => some s   -- "should panic: bad adrfree"
  | some j =>
    match s.map[j]? with
    | none => some s
    | some m =>
      if m.use = mfree then some s
      else do
        let s := { s with map := s.map.set j { m with use := mfree, memflags := 0 } }
        let (s, j) ← mergeLeft s j
        if j < s.map.length then do
          let (s, _) ← trymerge s j
          return s
        else return s

/-- What the map says of an address: type, use and colour. -/
def Adrmap.attr (a : Adrmap) : UInt8 × UInt8 × Int := (a.type, a.use, a.color)

/-- Type, use and colour of address `p`, if an entry covers it. -/
def Tab.attr (s : Tab) (p : Nat) : Option (UInt8 × UInt8 × Int) :=
  Extents.view Adrmap.base Adrmap.fin Adrmap.attr s.map p

/-- A call. -/
inductive Op
  | insert (a : Adrmap)
  | adralloc (base len : Nat) (align type : Int) (use : UInt8) (memflags : Nat)
  | adrfree (base len : Nat)
deriving Repr, DecidableEq

/-- A range that `adralloc` returned, with the slop in front of it and its use. -/
structure Range where
  base : Nat
  len : Nat
  slop : Nat
  use : UInt8
deriving Repr, DecidableEq

/-- The first address of the slop, or of the range. -/
def Range.lo (g : Range) : Nat := g.base - g.slop

def Range.hi (g : Range) : Nat := g.base + g.len

/-- An address of the range, or of its slop. -/
def Range.Has (g : Range) (p : Nat) : Prop := g.lo ≤ p ∧ p < g.hi

/-- The map, and the results of `adralloc` that stand: not freed, and not handed out again
since (as a range may be that was allocated for the use `Mfree`). -/
structure Sys where
  tab : Tab
  held : List Range
deriving Repr, DecidableEq

/-- The range that `adralloc` has just returned: its slop is what the entry has in front. -/
def granted (s : Tab) (r len : Nat) (use : UInt8) : Range :=
  let entry := s.map.find? fun e => decide (e.base ≤ r ∧ r < e.fin)
  { base := r, len, slop := r - (entry.elim r Adrmap.base), use }

/-- The results that stand when `g` is handed out. -/
def Range.besides (g : Range) (held : List Range) : List Range :=
  held.filter fun h => decide (h.hi ≤ g.lo ∨ g.hi ≤ h.lo)

/-- One call, and what it returns. -/
def step (s : Sys) : Op → Option (Sys × Nat)
  | .insert a => some (⟨insert s.tab a, s.held⟩, 0)
  | .adralloc base len align type use memflags =>
    (adralloc s.tab base len align type use memflags).map fun (t, r) =>
      if r = nomem then (⟨t, s.held⟩, r)
      else
        let g := granted t r len use
        (⟨t, g :: g.besides s.held⟩, r)
  | .adrfree base len =>
    (adrfree s.tab base len).map fun t =>
      (⟨t, s.held.filter fun h => decide (¬ (h.base = base ∧ h.len = len))⟩, 0)

/-- The calls that the map is made for: an inserted range is apart from those present, is not
empty and ends below the last address; an allocation is not empty, and neither its end nor its
length with the slop overflows; what is freed is a result that stands.  The array is not
full. -/
def Allowed (s : Sys) : Op → Prop
  | .insert a => s.tab.rest ≠ [] ∧ 0 < a.len ∧ a.fin < 2 ^ 64 ∧
      ∀ e ∈ s.tab.map, e.fin ≤ a.base ∨ a.fin ≤ e.base
  | .adralloc base len align _ _ _ => s.tab.rest ≠ [] ∧ 0 < len ∧ base + len < 2 ^ 64 ∧
      len + slop base align < 2 ^ 64 ∧ ∀ e ∈ s.tab.map, len + slop e.base align < 2 ^ 64
  | .adrfree base len => s.tab.rest ≠ [] ∧ ∃ h ∈ s.held, h.base = base ∧ h.len = len

/-- The states that runs of such calls reach. -/
def Reach : Sys → Prop :=
  StepSystem.Reach (fun s => s = ⟨Tab.start, []⟩)
    fun s op t => Allowed s op ∧ ∃ r, step s op = some (t, r)

end Adr
