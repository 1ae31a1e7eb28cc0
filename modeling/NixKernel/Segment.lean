import Mathlib

/-!
# Segments: `port/segment.c`, `port/sysseg.c`

A `Segment` covers the addresses from `base` to `top` with pages of one size.  Its
map has a `Pte` for every GiB, each of them a table of `ptepertab` pages.
Addresses are 64-bit and wrap.

A process has `NSEG` slots for segments.  Segments may be shared between
processes, so the slots hold names of segments in a store.

A result `none` is a panic, a trap, a write outside of a table, or a loop without
end.  Left out are the locks, the semaphores, profiling, the flushing of TLBs and
the attributes of a segment other than its type.  `_globalsegattach` is nil, as no
file sets it.
-/

namespace Vmem

open Function (update)

def pgshift : Nat := 12

def bigpgshift : Nat := 21

def ptemapmem : Nat := 2 ^ 30

def ssegmapsize : Nat := 16

/-- `m->pgszlg2`.  1 GiB pages are there if the processor has them. -/
def pgszlg2 (gig : Bool) : List Nat := if gig then [12, 21, 30] else [12, 21]

/-- `m->pgsz[i]`. -/
def pgsz (gig : Bool) (i : Nat) : Nat := 2 ^ (pgszlg2 gig).getD i 0

/-- `getpgszi`, with `none` for -1. -/
def getpgszi (gig : Bool) (size : Nat) : Option Nat :=
  (pgszlg2 gig).findIdx? fun b => size == 2 ^ b

/-- 64-bit difference. -/
def sub64 (a b : Nat) : Nat := (a + (2 ^ 64 - b)) % 2 ^ 64

def howmany (x y : Nat) : Nat := (x + (y - 1)) % 2 ^ 64 / y

/-- `ROUNDUP` of an address. -/
def roundup (x y : Nat) : Nat := howmany x y * y % 2 ^ 64

/-- `segshift`. -/
def segshift (gig : Bool) (base top : Nat) : Nat :=
  ((pgszlg2 gig).reverse.find? fun b => (base ||| top) &&& (2 ^ b - 1) == 0).getD pgshift

inductive SegType where
  | text
  | data
  | bss
  | stack
  | shared
  | physical
  deriving DecidableEq, Repr

def okbigseg : SegType → Bool
  | .bss | .shared | .physical | .stack => true
  | .text | .data => false

/-- `NOCOLOR`. -/
def nocolor : Int := -1

structure Page where
  pa : Nat
  va : Nat
  pgszi : Nat
  color : Int
  deriving DecidableEq, Repr

/-- `struct Pte`, with `len` entries; `first` and `last` are indices. -/
structure Pte where
  len : Nat
  first : Nat
  last : Nat
  pages : Nat → Option Page

structure Segment where
  type : SegType
  base : Nat
  top : Nat
  size : Nat
  pgszi : Nat
  ptepertab : Nat
  mapsize : Nat
  map : Nat → Option Pte := fun _ => none
  ref : Nat := 1
  color : Int := nocolor
  image : Option Nat := none
  fstart : Nat := 0
  flen : Nat := 0
  flushme : Bool := false

/-- The page shift that `newseg` chooses. -/
def shiftFor (gig : Bool) (type : SegType) (base top : Nat) : Nat :=
  if okbigseg type then segshift gig base top else bigpgshift

/-- The map that `newseg` allots: the number of tables is an `int`, twice what is
needed if the map in the segment is too small. -/
def mapsizeFor (base top shift : Nat) : Nat :=
  let n := howmany (sub64 top base >>> shift) (ptemapmem >>> shift) % 2 ^ 32
  if ssegmapsize < n ∧ n < 2 ^ 31 then n * 2 else ssegmapsize

/-- `newseg`. -/
def newseg (gig : Bool) (type : SegType) (base top : Nat) : Option Segment :=
  if (base ||| top) &&& (2 ^ pgshift - 1) ≠ 0 then none
  else do
    let shift := shiftFor gig type base top
    let pgszi ← getpgszi gig (2 ^ shift)
    return {
      type := type
      base := base
      top := top
      size := sub64 top base >>> shift
      pgszi := pgszi
      ptepertab := ptemapmem >>> shift
      mapsize := mapsizeFor base top shift }

/-- `ptealloc`. -/
def ptealloc (s : Segment) : Pte :=
  { len := s.ptepertab, first := s.ptepertab, last := 0, pages := fun _ => none }

/-- A page is put at index `j`. -/
def Pte.put (t : Pte) (j : Nat) (p : Page) : Pte :=
  { t with
    pages := update t.pages j (some p)
    first := min t.first j
    last := max t.last j }

/-- The indices into the map and into a table of an address. -/
def Segment.mapIndex (s : Segment) (va : Nat) : Nat := sub64 va s.base / ptemapmem

def Segment.pageIndex (gig : Bool) (s : Segment) (va : Nat) : Nat :=
  sub64 va s.base % ptemapmem / pgsz gig s.pgszi

/-- The page that an address is mapped to. -/
def Segment.page (gig : Bool) (s : Segment) (va : Nat) : Option Page := do
  let t ← s.map (s.mapIndex va)
  t.pages (s.pageIndex gig va)

/-- `segpage`. -/
def Segment.segpage (gig : Bool) (s : Segment) (p : Page) : Option Segment :=
  if s.pgszi ≠ p.pgszi then none
  else if p.va < s.base ∨ s.top ≤ p.va then none
  else
    let i := s.mapIndex p.va
    let j := s.pageIndex gig p.va
    let t := (s.map i).getD (ptealloc s)
    if i < s.mapsize ∧ j < t.len then
      some { s with
        color := if s.color = nocolor then p.color else s.color
        map := update s.map i (some (t.put j p)) }
    else none

/-- A count of pages as an `int`. -/
def asInt (n : Nat) : Int := if n % 2 ^ 32 < 2 ^ 31 then (n % 2 ^ 32 : Nat) else (n % 2 ^ 32 : Nat) - 2 ^ 32

/-- The inner loop of `mfreeseg`, with `none` for an index outside of the table. -/
def Pte.mfree (t : Pte) : Nat → Nat → Int → Option (Pte × List Page × Int)
  | 0, _, pages => some (t, [], pages)
  | n + 1, j, pages =>
    if t.len ≤ j then none
    else
      let freed := (t.pages j).toList
      let t := { t with pages := update t.pages j none }
      if pages - 1 = 0 then some (t, freed, 0)
      else (t.mfree n (j + 1) (pages - 1)).map fun r => (r.1, freed ++ r.2.1, r.2.2)

/-- The outer loop of `mfreeseg`, for `n` tables from `i` on, an `int`, with `none` for an
index outside of the map. -/
def Segment.mfreeTables (s : Segment) : Nat → Int → Nat → Int → Option (Segment × List Page)
  | 0, _, _, _ => some (s, [])
  | n + 1, i, j, pages =>
    if pages ≤ 0 then some (s, [])
    else if i < 0 ∨ s.mapsize ≤ i then none
    else
      match s.map i.toNat with
      | none => s.mfreeTables n (i + 1) 0 (pages - (s.ptepertab - j : Nat))
      | some t =>
        (t.mfree (s.ptepertab - j) j pages).bind fun r =>
          let s := { s with map := update s.map i.toNat (some r.1) }
          (s.mfreeTables n (i + 1) 0 r.2.2).map fun q => (q.1, r.2.1 ++ q.2)

/-- `mfreeseg`: the segment, and the pages in the order they are taken out; `putpage` is
called once for each. -/
def Segment.mfreeseg (gig : Bool) (s : Segment) (start stop : Nat) :
    Option (Segment × List Page) :=
  let pages := asInt (sub64 stop start / pgsz gig s.pgszi)
  let i := asInt (sub64 start s.base / ptemapmem)
  s.mfreeTables (s.mapsize - i).toNat i (s.pageIndex gig start) pages

/-- The loop of `ptecpy`, for `n` entries from `j` on.  The counts of the pages
copied are raised. -/
def ptecpyLoop (old : Pte) : Nat → Nat → Pte → (Page → Nat) → Option (Pte × (Page → Nat))
  | 0, _, new, ref => some (new, ref)
  | n + 1, j, new, ref =>
    match old.pages j with
    | none => ptecpyLoop old n (j + 1) new ref
    | some p =>
      if j < new.len then
        ptecpyLoop old n (j + 1)
          { new with last := j, pages := update new.pages j (some p) }
          (update ref p (ref p + 1))
      else none

/-- `ptecpy`. -/
def ptecpy (s : Segment) (old : Pte) (ref : Page → Nat) : Option (Pte × (Page → Nat)) :=
  ptecpyLoop old (old.last + 1 - old.first) old.first { ptealloc s with first := old.first } ref

/-- The copying loop of `dupseg`, for `k` tables from `i` on. -/
def dupTables (s : Segment) : Nat → Nat → Segment → (Page → Nat) → Option (Segment × (Page → Nat))
  | 0, _, n, ref => some (n, ref)
  | k + 1, i, n, ref =>
    match s.map i with
    | none => dupTables s k (i + 1) n ref
    | some t => do
        let (t, ref) ← ptecpy n t ref
        if i < n.mapsize then
          dupTables s k (i + 1) { n with map := update n.map i (some t) } ref
        else none

/-- What `dupseg` returns: the segment itself, a text segment for the debugger, or a
copy. -/
inductive Dup where
  | same (s : Segment)
  | text (s : Segment)
  | copy (s : Segment)

/-- `data2txt`. -/
def data2txt (gig : Bool) (s : Segment) : Option Segment := do
  let ps ← newseg gig .text s.base s.top
  return { ps with image := s.image, fstart := s.fstart, flen := s.flen, flushme := true }

/-- The segment that is copied into. -/
def dupTarget (gig : Bool) (s : Segment) : Option Segment := do
  let n ← newseg gig s.type s.base s.top
  return if s.type = .data then
    { n with
      image := s.image, fstart := s.fstart, flen := s.flen
      pgszi := s.pgszi, color := s.color, ptepertab := s.ptepertab }
  else n

def sseg : Nat := 0

def tseg : Nat := 1

def dseg : Nat := 2

def bseg : Nat := 3

def hseg : Nat := 4

def eseg : Nat := 5

def nseg : Nat := 11

/-- Whether `dupseg` makes a copy of a segment of this type. -/
def copies (type : SegType) (segno : Nat) (share : Bool) : Bool :=
  match type with
  | .text | .shared | .physical => false
  | .stack => true
  | .bss => !share
  | .data => segno != tseg && !share

/-- `dupseg`. -/
def dupseg (gig : Bool) (s : Segment) (segno : Nat) (share : Bool) (ref : Page → Nat) :
    Option (Dup × (Page → Nat)) :=
  if copies s.type segno share then do
    let n ← dupTarget gig s
    let (n, ref) ← dupTables s s.mapsize 0 n ref
    return (.copy { n with flushme := s.flushme }, ref)
  else if s.type = .data ∧ segno = tseg then do
    let n ← data2txt gig s
    return (.text n, ref)
  else some (.same { s with ref := s.ref + 1 }, ref)

/-- A higher top: the map grows if it has to. -/
def Segment.grow (gig : Bool) (s : Segment) (newtop : Nat) : Segment :=
  let newpages := sub64 newtop s.base / pgsz gig s.pgszi
  let n := howmany newpages s.ptepertab % 2 ^ 32
  { s with
    top := newtop
    size := newpages
    mapsize := if s.mapsize < n ∧ n < 2 ^ 31 then n else s.mapsize }

/-- A lower top: the pages above it are freed. -/
def Segment.shrink (gig : Bool) (s : Segment) (newtop : Nat) : Option Segment :=
  (s.mfreeseg gig newtop s.top).map fun r =>
    { r.1 with
      top := newtop
      size := sub64 newtop s.base / pgsz gig s.pgszi }

/-- The segments and the slots of all processes. -/
structure Vm where
  segs : Nat → Segment
  next : Nat
  procs : Nat → Nat → Option Nat

def Vm.setSeg (v : Vm) (id : Nat) (s : Segment) : Vm :=
  { v with segs := update v.segs id s }

def Vm.setSlot (v : Vm) (p slot : Nat) (o : Option Nat) : Vm :=
  { v with procs := update v.procs p (update (v.procs p) slot o) }

/-- A new segment in a slot of a process. -/
def Vm.install (v : Vm) (p slot : Nat) (s : Segment) : Vm :=
  { (v.setSeg v.next s).setSlot p slot (some v.next) with next := v.next + 1 }

/-- `p->seg[slot]`. -/
def Vm.seg (v : Vm) (p slot : Nat) : Option Segment := (v.procs p slot).map v.segs

def gib : Nat := 2 ^ 30

def ebadarg : String := "bad arg in system call"

def enovmem : String := "virtual memory allocation failed"

def esoverlap : String := "segments overlap"

/-- The loop of `ibrk` over the other segments of the process. -/
def Vm.brkOverlap (v : Vm) (p id newtop : Nat) : Bool :=
  (List.range nseg).any fun i =>
    match v.procs p i with
    | none => false
    | some n => n != id && (v.segs n).base ≤ newtop && newtop < (v.segs n).top

/-- The address that `ibrk` goes by: "We may start with the bss overlapping the
data". -/
def Vm.brkAddr (v : Vm) (p slot : Nat) (s : Segment) (addr : Nat) : Option Nat :=
  if addr < s.base then
    match v.seg p dseg with
    | none => none
    | some d => if slot ≠ bseg ∨ addr < d.base then none else some s.base
  else some addr

/-- The end of `ibrk`: the other segments are looked at and the segment is extended. -/
def Vm.extend (gig : Bool) (v : Vm) (p id : Nat) (s : Segment) (newtop rtop : Nat) :
    Vm × Except String Nat :=
  if v.brkOverlap p id newtop then (v, .error esoverlap)
  else (v.setSeg id (s.grow gig newtop), .ok rtop)

/-- "brk the bss up to the 1G boundary, and create a new segment above 1G using 1G
pages": whether `ibrk` does that. -/
def brkHuge (gig : Bool) (slot : Nat) (s : Segment) (newtop : Nat) : Bool :=
  slot == bseg && (roundup s.top gib + gib) % 2 ^ 64 ≤ newtop && gig

/-- `ibrk`: the state, and the address or the error. -/
def Vm.ibrk (gig : Bool) (v : Vm) (p addr slot : Nat) : Option (Vm × Except String Nat) :=
  match v.procs p slot with
  | none => some (v, .error ebadarg)
  | some id =>
    let s := v.segs id
    if addr = 0 then some (v, .ok s.top)
    else
      match v.brkAddr p slot s addr with
      | none => some (v, .error enovmem)
      | some addr =>
        let newtop := roundup addr (pgsz gig s.pgszi)
        if newtop < s.top then (s.shrink gig newtop).map fun s => (v.setSeg id s, .ok newtop)
        else if brkHuge gig slot s newtop then do
          let rtop := roundup newtop gib
          let newtop := roundup s.top gib
          let ns ← newseg gig .bss newtop rtop
          return (v.install p hseg { ns with color := s.color }).extend gig p id s newtop rtop
        else some (v.extend gig p id s newtop newtop)

/-- The slot that `syssegbrk` finds for an address: "Ok to extend an empty segment". -/
def Vm.brkSlot (v : Vm) (p saddr : Nat) : Option Nat :=
  (List.range nseg).find? fun i =>
    match v.seg p i with
    | none => false
    | some s => s.base ≤ saddr && saddr ≤ s.top && !(saddr == s.top && s.base < s.top)

/-- `syssegbrk`. -/
def Vm.segbrk (gig : Bool) (v : Vm) (p saddr addr : Nat) : Option (Vm × Except String Nat) :=
  if saddr = 0 then do
    let s ← (v.seg p hseg).or (v.seg p bseg)
    return (v, .ok s.top)
  else
    match v.brkSlot p saddr with
    | none => some (v, .error ebadarg)
    | some i => do
        let s ← v.seg p i
        match s.type with
        | .text | .data | .stack => return (v, .error ebadarg)
        | .bss | .shared | .physical => v.ibrk gig p addr i

/-- `sysbrk_`. -/
def Vm.brk (gig : Bool) (v : Vm) (p addr : Nat) : Option (Vm × Except String Nat) :=
  v.ibrk gig p addr bseg

/-- `isoverlap`. -/
def Vm.isoverlap (v : Vm) (p va len : Nat) : Option Segment :=
  let newtop := (va + len) % 2 ^ 64
  (List.range nseg).findSome? fun i =>
    match v.seg p i with
    | none => none
    | some ns =>
      if (ns.base < newtop ∧ newtop ≤ ns.top) ∨ (ns.base ≤ va ∧ va < ns.top) then some ns
      else none

/-- "Find a hole in the address space." -/
def Vm.findHole (v : Vm) (p len va : Nat) : Option (Except String Nat) :=
  match v.isoverlap p va len with
  | none => some (.ok va)
  | some os =>
    if os.base < len then some (.error "cannot fit segment at virtual address")
    else v |>.findHole p len (os.base - len)
partial_fixpoint

structure Physseg where
  type : SegType
  name : String
  size : Nat
  pgszi : Nat
  gva : Nat := 0

def utzero : Nat := 2 * 2 ^ 20

def ustktop : Nat := 0x00007ffffffff000 / 2 ^ bigpgshift * 2 ^ bigpgshift - 16 * 1024 * 1024

/-- The slot that `segattach` takes. -/
def Vm.freeSlot (v : Vm) (p : Nat) : Option Nat :=
  (List.range nseg).find? fun i => (v.procs p i).isNone && i != eseg

/-- The address and the length that `segattach` asks for, or its error: the
arguments checked and rounded, and a hole found if no address is given. -/
def Vm.attachAt (gig : Bool) (v : Vm) (p : Nat) (ps : Physseg) (va len : Nat) :
    Option (Except String (Nat × Nat)) :=
  let global := va = 0 ∧ ps.gva ≠ 0
  let va := if global then ps.gva else va
  let len := if global ∧ len = 0 then 1 else len
  if len = 0 then some (.error "zero length")
  else
    let size := pgsz gig ps.pgszi
    let len := roundup len size
    if len = 0 then some (.error "length overflow")
    else do
      let found ← if va = 0 then do
          let stack ← v.seg p sseg
          v.findHole p len (sub64 stack.base len)
        else some (.ok va)
      match found with
      | .error e => return .error e
      | .ok va => return .ok (va / size * size, len)

/-- `segattach`. -/
def Vm.segattach (gig : Bool) (physseg : List Physseg) (v : Vm) (p : Nat) (name : String)
    (va len : Nat) : Option (Vm × Except String Nat) :=
  if (va ≠ 0 ∧ va < utzero) ∨ ustktop ≤ va then some (v, .error "virtual address in kernel")
  else
    match v.freeSlot p with
    | none => some (v, .error "too many segments in process")
    | some sno =>
      match physseg.find? (·.name == name) with
      | none => some (v, .error "segment not found")
      | some ps => do
          match ← v.attachAt gig p ps va len with
          | .error e => return (v, .error e)
          | .ok (va, len) =>
            if (v.isoverlap p va len).isSome then return (v, .error esoverlap)
            else if ps.size < len / pgsz gig ps.pgszi then
              return (v, .error "len > segment size")
            else do
              let s ← newseg gig ps.type va ((va + len) % 2 ^ 64)
              return (v.install p sno s, .ok va)

/-- `syssegdetach`. -/
def Vm.segdetach (v : Vm) (p addr : Nat) : Vm × Except String Nat :=
  match (List.range nseg).find? fun i =>
      match v.seg p i with
      | none => false
      | some s => (s.base ≤ addr && addr < s.top) || (s.top == s.base && addr == s.base) with
  | none => (v, .error ebadarg)
  | some i =>
    if v.procs p i = v.procs p sseg then (v, .error ebadarg)
    else (v.setSlot p i none, .ok 0)

end Vmem
