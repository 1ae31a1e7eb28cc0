import NixKernel.Mmu

/-!
# Walking the page tables: `mmuwalk`, `mmumap`, `mmuphysaddr`

`mmuwalk` goes down the tables of an address to a level.  It stops above at a larger page, and at an
entry that is absent unless it may allocate tables.  `mmumap` maps each part of a range with the
largest page that its physical address allows, and writes where the walk stopped.  `mmuphysaddr`
takes what is there for a page.

An entry is the word in memory.  The hardware reads the same words: what it makes of an address is
`translate`, with the flags as those of a small page.  The bits of a word from 52 up are never set.
-/

namespace Kmap

open Mmu (PTLX PTSHIFT PGSHIFT KSEG2)
open Function (update)

def PteP : Nat := 1
def PteRW : Nat := 2
def PteU : Nat := 4
def PtePS : Nat := 128
def Pte4KPAT : Nat := PtePS
def Pte2MPAT : Nat := 4096

/-- "(1<<(((l)*PTSHIFT)+PGSHIFT))", an `int`: the count of a shift is taken modulo 32. -/
def PGLSZ (l : Nat) : Nat := 2 ^ ((l * PTSHIFT + PGSHIFT) % 32)

/-- "((x)&~(PGSZ-1))"; `PGSZ` is an `uint`, and so is the mask. -/
def PPN (x : Nat) : Nat := x &&& 0xfffff000

/-- Where page tables come from: aligned pages of the kernel's memory that are not in use. -/
structure Walkalloc where
  get : List Nat → Option Nat
  fresh : ∀ used pa, get used = some pa → pa ∉ used
  aligned : ∀ used pa, get used = some pa → pa % 4096 = 0
  low : ∀ used pa, get used = some pa → pa < 2 ^ 32

/-- A table of the process, with the table above it and its index there. -/
structure Page where
  pa : Nat
  prev : Nat
  daddr : Nat
deriving DecidableEq

/-- The page tables of a processor: the words of each, the pages in use, and the tables of the
process by the level above. -/
structure Sys where
  mem : Nat → Nat → Nat
  pml4 : Nat
  used : List Nat
  npgsz : Nat
  mmuptp : Nat → List Page

def Sys.set (s : Sys) (t x e : Nat) : Sys :=
  { s with mem := update s.mem t (update (s.mem t) x e) }

/-- "memset(UINT2PTR(KADDR(pa)), 0, PTSZ);" -/
def Sys.table (s : Sys) (pa : Nat) : Sys :=
  { s with mem := update s.mem pa fun _ => 0, used := pa :: s.used }

/-- The loop of `mmuwalk` from a level and its table: where it stops. -/
def mmuwalk (alloc : Option Walkalloc) (va level : Nat) : Nat → Nat → Sys → Option (Nat × Nat × Sys)
  | 0, t, s => some (0, t, s)
  | l + 1, t, s =>
    let x := PTLX va (l + 1)
    if l + 1 = level then some (l + 1, t, s)
    else if s.mem t x &&& PteP = 0 then
      match alloc with
      | none => some (l + 1, t, s)
      | some w =>
        (w.get s.used).bind fun pa =>
          mmuwalk alloc va level l (PPN (pa ||| PteRW ||| PteP))
            ((s.table pa).set t x (pa ||| PteRW ||| PteP))
    else if s.mem t x &&& PtePS ≠ 0 then some (l + 1, t, s)
    else mmuwalk alloc va level l (PPN (s.mem t x)) s

/-- `memflagssz` -/
def memflagssz (flag ps : Nat) : Nat :=
  if flag &&& Pte4KPAT ≠ 0 ∧ ps > 4 * 1024 then (flag - Pte4KPAT) ||| (Pte2MPAT ||| PtePS)
  else if ps > 4 * 1024 then flag ||| PtePS
  else flag

/-- The page size that a turn of `mmumap` takes. -/
def pick (npgsz mem e : Nat) : Option Nat :=
  (List.range npgsz).reverse.find? fun i => mem &&& (PGLSZ i - 1) == 0 && mem + PGLSZ i ≤ e

/-- One turn that has found a size. -/
structure Turn where
  mem : Nat
  va : Nat
  i : Nat
deriving DecidableEq

/-- The turns of `mmumap`.  They do not depend on the tables. -/
def turns (npgsz e mem va : Nat) : List Turn :=
  if mem < e then
    match pick npgsz mem e with
    | some i => ⟨mem, va, i⟩ :: turns npgsz e (mem + PGLSZ i) (va + PGLSZ i)
    | none => turns npgsz e ((mem + PGLSZ 0) / PGLSZ 0 * PGLSZ 0) va
  else []
termination_by e - mem
decreasing_by
  · have hpos : 0 < PGLSZ i := Nat.two_pow_pos _
    omega
  · change e - (mem + 4096) / 4096 * 4096 < e - mem
    omega

/-- What a turn does: the walk, and "*pte = mem|memflagssz(basef, PGLSZ(l));". -/
def mappage (w : Walkalloc) (basef : Nat) (s : Sys) (r : Turn) : Option Sys :=
  (mmuwalk (some w) r.va r.i 3 s.pml4 s).map fun (l, t, s) =>
    s.set t (PTLX r.va l) (r.mem ||| memflagssz basef (PGLSZ l))

/-- `mmumap`.  A failed allocation is a panic. -/
def mmumap (w : Walkalloc) (s : Sys) (pa va len basef : Nat) : Option Sys :=
  (turns s.npgsz (pa + len) pa va).foldlM (mappage w basef) s

def kseg2map (w : Walkalloc) (s : Sys) (pa len basef : Nat) : Option Sys :=
  mmumap w s pa (KSEG2 + pa) len basef

def PTEVALID : Nat := 1
def PTEWRITE : Nat := 2
def PTEUNCACHED : Nat := 16
def PtePCD : Nat := 16

/-- `pteflags`, of bits that there are. -/
def pteflags (attr : Nat) : Nat :=
  (if attr &&& PTEVALID ≠ 0 then PteP else 0) ||| (if attr &&& PTEWRITE ≠ 0 then PteRW else 0) |||
    (if attr &&& PTEUNCACHED ≠ 0 then PtePCD else 0)

def lvltab : List Nat := [4096, 2 * 2 ^ 20, 1 * 2 ^ 30]

/-- A page that the process has in this place, or a new one.  A table is linked where there is none. -/
def putpage (w : Walkalloc) (s : Sys) (lvl k prev x : Nat) : Option (Nat × Sys) :=
  match (s.mmuptp lvl).find? fun page => page.prev == prev && page.daddr == x with
  | some page =>
    some (page.pa, if s.mem k x = 0 then s.set k x (PPN page.pa ||| (PteU ||| PteRW ||| PteP)) else s)
  | none =>
    (w.get s.used).map fun pa =>
      let s := (s.table pa).set k x (PPN pa ||| (PteU ||| PteRW ||| PteP))
      (pa, { s with mmuptp := update s.mmuptp lvl (⟨pa, prev, x⟩ :: s.mmuptp lvl) })

/-- The loop of `mmuput`.  It goes down any word but 0, which is a panic; where that is no table it
comes to write what is none either, and that is left out. -/
def putwalk (w : Walkalloc) (va pgsz : Nat) : Nat → Nat → Nat → Sys → Option (Nat × Nat × Sys)
  | 0, k, _, s => some (0, k, s)
  | l + 1, k, prev, s =>
    let x := PTLX va (l + 1)
    if lvltab[l + 1]? = some pgsz then some (l + 1, k, s)
    else
      (putpage w s (l + 1) k prev x).bind fun (page, s) =>
        let e := s.mem k x
        if e &&& PteP = 0 ∨ e &&& PtePS ≠ 0 then none
        else putwalk w va pgsz l (PPN e) page s

/-- `mmuput` of a page at `pa` of the size `pgszi`, for whose memory `adr.c` has the flags `memflags`. -/
def mmuput (w : Walkalloc) (s : Sys) (va pa pgszi attr memflags : Nat) : Option Sys :=
  let pgsz := PGLSZ pgszi
  if pa = 0 ∨ pa &&& (pgsz - 1) ≠ 0 then none
  else
    (putwalk w va pgsz 3 s.pml4 s.pml4 s).map fun (l, k, s) =>
      s.set k (PTLX va l) (pa ||| PteU ||| pteflags attr ||| memflagssz memflags pgsz)

/-- `mmuphysaddr`.  The walk does not return a level below 0. -/
def mmuphysaddr (s : Sys) (va : Nat) : Option Nat :=
  (mmuwalk none va 0 3 s.pml4 s).map fun (l, t, s) =>
    let mask := PGLSZ l - 1
    let e := s.mem t (PTLX va l)
    (e - (e &&& mask) + (va &&& mask)) % 2 ^ 64

/-- The bytes that an entry of a level is for. -/
def size (l : Nat) : Nat := 2 ^ (l * 9 + 12)

/-- The entry that an address comes to: its level and the word. -/
def Sys.leaf (s : Sys) (va : Nat) : Nat → Nat → Option (Nat × Nat)
  | 0, t =>
    let e := s.mem t (PTLX va 0)
    if e % 2 = 1 then some (0, e) else none
  | l + 1, t =>
    let e := s.mem t (PTLX va (l + 1))
    if e % 2 = 0 then none
    else if e / 128 % 2 = 1 then some (l + 1, e)
    else s.leaf va l (e % 2 ^ 52 / 4096 * 4096)

def Sys.lookup (s : Sys) (va : Nat) : Option (Nat × Nat) := s.leaf va 3 s.pml4

/-- The physical address and the flags of a page; a word with reserved bits is none. -/
def decode (va : Nat) : Nat × Nat → Option (Nat × Nat)
  | (0, e) => some (e % 2 ^ 52 / 4096 * 4096 + va % 4096, e % 4096)
  | (l + 1, e) =>
    if l + 1 = 3 ∨ e % 2 ^ 52 % size (l + 1) / 2 ^ 13 ≠ 0 then none
    else some (e % 2 ^ 52 / size (l + 1) * size (l + 1) + va % size (l + 1),
      e % 4096 - 128 + e / 4096 % 2 * 128)

def Canonical (va : Nat) : Prop := va < 2 ^ 47 ∨ (2 ^ 64 - 2 ^ 47 ≤ va ∧ va < 2 ^ 64)

instance (va : Nat) : Decidable (Canonical va) := inferInstanceAs (Decidable (_ ∨ _))

def Sys.translate (s : Sys) (va : Nat) : Option (Nat × Nat) :=
  if Canonical va then (s.lookup va).bind (decode va) else none

end Kmap
