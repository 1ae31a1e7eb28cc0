import NixKernel.StepSystem

/-!
# Page tables: `k10/mmu.c`

A processor has one top table, the pml4, and puts the tables of the process that it runs into it.
`mmuput` maps a page of the running process, with tables from a free list of the process; `mmuswitch`
changes the pml4 over, and takes the tables back first when the process must flush.

Frames of memory are those of the top tables, of the other page tables, and of the users' pages,
which the allocators keep apart.  An entry is nothing, a table, or a page with the attributes of
`mmuput`; what `adr.c` adds to them depends on the address only and is left out, and so are the
statistics and the reference count of a table, which is 1.  A step that would panic, or use the nil
page of a failed allocation, is none.
-/

namespace Mmu

open Function (update)

def KiB : Nat := 2 ^ 10
def MiB : Nat := 2 ^ 20
def GiB : Nat := 2 ^ 30
def PGSHIFT : Nat := 12
def PTSHIFT : Nat := 9
def KSEG2 : Nat := 0xfffffe0000000000

/-- The entries of a pml4 below are the user's. -/
def Nuser : Nat := 256

def PTEVALID : Nat := 1
def PTEWRITE : Nat := 2
def PTERONLY : Nat := 0
def PTEUNCACHED : Nat := 16

/-- "(((v)>>(((l)*PTSHIFT)+PGSHIFT)) & ((1<<PTSHIFT)-1))" -/
def PTLX (v l : Nat) : Nat := v / 2 ^ (l * PTSHIFT + PGSHIFT) % 2 ^ PTSHIFT

inductive Frame
  | pml4 (m : Nat)
  | tab (k : Nat)
  | user (pa : Nat)
deriving Repr, DecidableEq

inductive Pte
  | zero
  /-- "PPN(page->pa)|PteU|PteRW|PteP" -/
  | table (f : Frame)
  | leaf (pa attr : Nat)
deriving Repr, DecidableEq

/-- PteP -/
def Pte.present : Pte → Bool
  | zero => false
  | table _ => true
  | leaf _ attr => attr &&& PTEVALID != 0

/-- "PPN(*pte)" -/
def Pte.ppn : Pte → Option Frame
  | zero => none
  | table f => some f
  | leaf pa _ => some (.user pa)

structure Sys where
  mem : Frame → Nat → Pte
  /-- "m->pml4->daddr" -/
  high : Nat → Nat
  /-- The index of a table in the one above, and that table. -/
  daddr : Nat → Nat
  prev : Nat → Frame
  /-- `proc->mmuptp` -/
  mmuptp : Nat → Nat → List Nat
  newtlb : Nat → Bool
  mmuptpfreelist : List Nat
  /-- How many tables have been made. -/
  made : Nat
  /-- The process of every processor. -/
  proc : List (Option Nat)

def Sys.setpte (s : Sys) (f : Frame) (x : Nat) (e : Pte) : Sys :=
  { s with mem := update s.mem f (update (s.mem f) x e) }

/-- "memset(UINT2PTR(page->va), 0, PTSZ);" -/
def Sys.clear (s : Sys) (k : Nat) : Sys := { s with mem := update s.mem (.tab k) fun _ => .zero }

def Sys.setlist (s : Sys) (p l : Nat) (ks : List Nat) : Sys :=
  { s with mmuptp := update s.mmuptp p (update (s.mmuptp p) l ks) }

def Sys.at (s : Sys) (m : Nat) : Option Nat := s.proc.getD m none

/-- The entries up to `daddr` that are present are cleared: the "hack for vbox". -/
def Sys.unmap (s : Sys) (m : Nat) : Sys :=
  { s with
    mem := update s.mem (.pml4 m) fun i =>
      if i < s.high m ∧ (s.mem (.pml4 m) i).present then .zero else s.mem (.pml4 m) i
    high := update s.high m 0 }

/-- `mmuflushtlb` -/
def mmuflushtlb (s : Sys) (m : Nat) : Sys := if s.high m ≠ 0 then s.unmap m else s

/-- One table in `mmuptpfree`, with `clear` for those that are cleared. -/
def freepage (clear : Bool) (s : Sys) (k : Nat) : Sys :=
  (if clear then s.clear k else s).setpte (s.prev k) (s.daddr k) .zero

/-- One level in `mmuptpfree`. -/
def freelevel (s : Sys) (p : Nat) (clear : Bool) (l : Nat) : Sys :=
  let t := (s.mmuptp p l).foldl (freepage (decide (l ≤ 2) && clear)) s
  (t.setlist p 0 (t.mmuptp p l ++ t.mmuptp p 0)).setlist p l []

/-- `mmuptpfree`, on the processor `m`. -/
def mmuptpfree (s : Sys) (m p : Nat) (clear : Bool) : Sys :=
  let s := freelevel (freelevel (freelevel s p clear 1) p clear 2) p clear 3
  { s with high := update s.high m 0 }

/-- One table of the level below in `mmuswitch`. -/
def install (m : Nat) (s : Sys) (k : Nat) : Sys :=
  let s := s.setpte (.pml4 m) (s.daddr k) (.table (.tab k))
  { s with
    high := if s.daddr k ≥ s.high m then update s.high m (s.daddr k + 1) else s.high
    prev := update s.prev k (.pml4 m) }

def mmuswitch (s : Sys) (m p : Nat) : Sys :=
  let s := if s.newtlb p then
      { mmuptpfree s m p true with newtlb := update s.newtlb p false }
    else s
  let s := if s.high m ≠ 0 then s.unmap m else s
  (s.mmuptp p 3).foldl (install m) s

/-- `mmuflush`, of the process `p` that runs. -/
def mmuflush (s : Sys) (m p : Nat) : Sys :=
  mmuswitch { s with newtlb := update s.newtlb p true } m p

/-- `mmurelease` -/
def mmurelease (s : Sys) (m p : Nat) : Sys :=
  let s := mmuptpfree s m p false
  { s.setlist p 0 [] with mmuptpfreelist := (s.mmuptp p 0).reverse ++ s.mmuptpfreelist }

def mmuptpalloc (s : Sys) : Nat × Sys :=
  match s.mmuptpfreelist with
  | k :: l => (k, { s.clear k with mmuptpfreelist := l })
  | [] => (s.made, { s.clear s.made with made := s.made + 1 })

/-- A table from the free list of the process, or a new one. -/
def getpage (s : Sys) (p : Nat) : Nat × Sys :=
  match s.mmuptp p 0 with
  | k :: l => (k, s.setlist p 0 l)
  | [] => mmuptpalloc s

def findpage (s : Sys) (p lvl : Nat) (prev : Frame) (x : Nat) : Option Nat :=
  (s.mmuptp p lvl).find? fun k => s.prev k = prev ∧ s.daddr k = x

/-- A new table `k` in the entry `x` of `f`. -/
def hang (s : Sys) (m p lvl : Nat) (prev f : Frame) (x k : Nat) : Sys :=
  let s := { s with daddr := update s.daddr k x, prev := update s.prev k prev }
  let s := (s.setlist p lvl (k :: s.mmuptp p lvl)).setpte f x (.table (.tab k))
  if lvl = 3 ∧ x ≥ s.high m then { s with high := update s.high m (x + 1) } else s

/-- One turn of `mmuput`: the table below the entry `x` of `f`, where there is one now. -/
def descend (s : Sys) (m p lvl : Nat) (prev f : Frame) (x : Nat) : Nat × Sys :=
  match findpage s p lvl prev x with
  | some k => (k, if s.mem f x = .zero then s.setpte f x (.table (.tab k)) else s)
  | none =>
    let r := getpage s p
    (r.1, hang r.2 m p lvl prev f x r.1)

def lvltab : List Nat := [4 * KiB, 2 * MiB, 1 * GiB]

/-- The loop of `mmuput` from the level `lvl - 1` on: the entry to write. -/
def walk (m p va pgsz : Nat) : Nat → Sys → Frame → Frame → Option (Frame × Nat × Sys)
  | 0, _, _, _ => none
  | lvl + 1, s, prev, f =>
    if lvltab[lvl]? = some pgsz then some (f, PTLX va lvl, s)
    else
      let r := descend s m p lvl prev f (PTLX va lvl)
      (r.2.mem f (PTLX va lvl)).ppn.bind fun g => walk m p va pgsz lvl r.2 (.tab r.1) g

def mmuput (s : Sys) (m p va pa pgsz attr : Nat) : Option Sys :=
  if pa = 0 ∨ pa % pgsz ≠ 0 ∨ va ≥ KSEG2 ∨ attr &&& (PTEVALID ||| PTEWRITE ||| PTERONLY ||| PTEUNCACHED) ≠ attr then
    none
  else
    (walk m p va pgsz 4 s (.pml4 m) (.pml4 m)).map fun r => r.2.2.setpte r.1 r.2.1 (.leaf pa attr)

/-- What the processor makes of an address from a table of the level 3 on: the address in memory, and the attributes. -/
def look (s : Sys) (f : Frame) (va : Nat) : Option (Nat × Nat) :=
  match s.mem f (PTLX va 2) with
  | .leaf pa attr => if attr &&& PTEVALID ≠ 0 then some (pa + va % GiB, attr) else none
  | .table f =>
    match s.mem f (PTLX va 1) with
    | .leaf pa attr => if attr &&& PTEVALID ≠ 0 then some (pa + va % (2 * MiB), attr) else none
    | .table f =>
      match s.mem f (PTLX va 0) with
      | .leaf pa attr => if attr &&& PTEVALID ≠ 0 then some (pa + va % (4 * KiB), attr) else none
      | _ => none
    | .zero => none
  | .zero => none

/-- What it makes of an address of the user. -/
def translate (s : Sys) (m va : Nat) : Option (Nat × Nat) :=
  match s.mem (.pml4 m) (PTLX va 3) with
  | .table f => look s f va
  | _ => none

/-- The steps: those of the processor `m`, and "p->newtlb = 1;".  With `procsave m` the processor
leaves its process. -/
inductive Op
  | mmuswitch (m p : Nat)
  | mmuput (m va pa pgsz attr : Nat)
  | mmuflush (m : Nat)
  | mmurelease (m p : Nat)
  | procsave (m : Nat)
  | newtlb (p : Nat)
deriving Repr, DecidableEq

/-- Whether `p` is on another processor than `m`. -/
def elsewhere (s : Sys) (m p : Nat) : Bool := (s.proc.set m none).any (· == some p)

def run (s : Sys) (m : Nat) (p : Option Nat) : Sys := { s with proc := s.proc.set m p }

/-- One step; nothing when it is not possible. -/
def act (s : Sys) : Op → Option Sys
  | .mmuswitch m p =>
    if m < s.proc.length ∧ elsewhere s m p = false then some (mmuswitch (run s m (some p)) m p) else none
  | .mmuput m va pa pgsz attr => (s.at m).bind fun p => mmuput s m p va pa pgsz attr
  | .mmuflush m => (s.at m).map fun p => mmuflush s m p
  | .mmurelease m p =>
    if m < s.proc.length ∧ elsewhere s m p = false then some (mmurelease (run s m none) m p) else none
  | .procsave m => if m < s.proc.length then some (run (mmuflushtlb s m) m none) else none
  | .newtlb p => some { s with newtlb := update s.newtlb p true }

/-- Nothing is mapped but what the kernel has in the upper half of every pml4. -/
structure Start (s : Sys) : Prop where
  user : ∀ m x, x < Nuser → s.mem (.pml4 m) x = .zero
  proc : ∀ m, s.at m = none
  mmuptp : ∀ p l, s.mmuptp p l = []
  free : s.mmuptpfreelist = []

/-- The callers map pages of the users: 2 MiB or 1 GiB, at the users' addresses. -/
def Mapped : Op → Prop
  | .mmuput _ va _ pgsz _ => va < 2 ^ 47 ∧ (pgsz = 2 * MiB ∨ pgsz = GiB)
  | _ => True

/-- The table of the level 2 that the process has at `va` is hidden: a page of 1 GiB has been put over it. -/
def Hidden (s : Sys) (m va : Nat) : Prop :=
  ∃ p k j pa attr, s.at m = some p ∧ k ∈ s.mmuptp p 3 ∧ s.daddr k = PTLX va 3 ∧ j ∈ s.mmuptp p 2 ∧
    s.prev j = .tab k ∧ s.daddr j = PTLX va 2 ∧ s.mem (.tab k) (PTLX va 2) = .leaf pa attr

/-- No page of 4 KiB is put where its tables are hidden. -/
def Clear (s : Sys) : Op → Prop
  | .mmuput m va _ pgsz _ => pgsz = 4 * KiB → ¬ Hidden s m va
  | _ => True

/-- `sched` calls `procsave` before it switches to another process, and before a process is released. -/
def Saved (s : Sys) : Op → Prop
  | .mmuswitch m p => s.at m = none ∨ s.at m = some p
  | .mmurelease m p => s.at m = none ∨ s.at m = some p
  | _ => True

end Mmu
