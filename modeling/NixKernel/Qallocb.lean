import NixKernel.LinkList
import NixKernel.StepSystem

/-!
# Blocks of five sizes: `port/qallocb.c`

A class of blocks has a free list, and is filled from `physalloc` with 2 MiB at a time.  The
header of a block lies behind its space, in the last bytes of what it was carved from; the class
is not written anywhere, and `fre` finds it again from the distance between the header and its
`base`.

What `physalloc` returns, as an address of the kernel, is part of each allocation.  Who has got a
block may change its header, but not `base`; `free` is the number of a function that takes the
block in place of the free list.  The fields `live` and `chunks` are for the record: the blocks
that have been handed out, and what has come from `physalloc`, with its class.
-/

namespace Qallocb

open LinkList
open Function (update)

def Hdrspc : Nat := 64
def Align : Nat := 8
def MiB : Nat := 1048576
def BINTR : UInt16 := 1

/-- `sizeof(Block)`. -/
def sizeofBlock : Nat := 64

def HOWMANY (x y : Nat) : Nat := (x + (y - 1)) / y
def ROUNDUP (x y : Nat) : Nat := HOWMANY x y * y

structure Block where
  next : Option Nat
  list : Option Nat
  rp : Nat
  wp : Nat
  lim : Nat
  base : Nat
  free : Option Nat
  flag : UInt16
deriving Repr, DecidableEq

/-- The sizes of `qtab`. -/
def qtab : List Nat := [128, 1520, 9000, 16384, 65536]

def sz (i : Nat) : Nat := qtab.getD i 0

structure Pool where
  block : Nat → Block
  free : Nat → Option Nat
  bytes : UInt64
  ialloc : UInt64
  live : Nat → Bool
  chunks : List (Nat × Nat)

inductive Panic
  | binit
  | badsize
  | unsupported
  | nomemory
  | limited
  | assert
  | fault
deriving Repr, DecidableEq

def Pool.set (s : Pool) (b : Nat) (h : Block) : Pool := { s with block := update s.block b h }

/-- What a block of a class takes. -/
def bsz (size : Nat) : Nat := Align + ROUNDUP (size + Hdrspc) Align + sizeofBlock

/-- The header that `binit` writes. -/
def header (p b : Nat) (size : Nat) : Block :=
  let lim := b / Align * Align
  let rp := lim - ROUNDUP size Align
  ⟨none, none, rp, rp, lim, p, none, 0⟩

/-- `binit`; what comes `next` is at `p + bsz size`. -/
def Pool.binit (s : Pool) (p : Nat) (size : Nat) : Except Panic (Pool × Nat) :=
  let b := p + bsz size - sizeofBlock
  let h := header p b size
  if h.rp < h.base ∨ h.lim - h.rp < size then .error .binit
  else .ok (s.set b h, b)

def Pool.push (s : Pool) (i : Nat) (b : Nat) : Pool :=
  { s.set b { s.block b with next := s.free i } with free := update s.free i (some b) }

/-- "while(va<ve)", with `k` blocks between them. -/
def Pool.carve (s : Pool) (i : Nat) : Nat → Nat → Except Panic Pool
  | 0, _ => .ok s
  | k + 1, va =>
    match s.binit va (sz i) with
    | .error e => .error e
    | .ok (t, b) => (t.push i b).carve i k (va + bsz (sz i))

/-- The blocks that a chunk makes. -/
def count (i : Nat) : Nat := 2 * MiB / bsz (sz i)

/-- "if(q->free == nil)" -/
def Pool.fill (s : Pool) (i : Nat) (pa : Option Nat) : Except Panic (Option Pool) :=
  if s.free i = none then
    match pa with
    | none => .ok none
    | some va =>
      match Pool.carve { s with chunks := (va, i) :: s.chunks } i (count i) va with
      | .error e => .error e
      | .ok t => .ok (some t)
  else .ok (some s)

/-- "b = q->free; q->free = b->next;" and the last lines of `·allocb`. -/
def Pool.pop (s : Pool) (i : Nat) (size : Nat) : Except Panic (Option Nat × Pool) :=
  match s.free i with
  | none => .error .fault
  | some b =>
    let h := s.block b
    .ok (some b, { s.set b { h with next := none, lim := h.rp + size } with
      free := update s.free i h.next
      live := update s.live b true })

/-- `·allocb`. -/
def Pool.alloc (s : Pool) (size : UInt32) (pa : Option Nat) : Except Panic (Option Nat × Pool) :=
  match qtab.findIdx? fun sz => size.toNat ≤ sz with
  | none => .error .unsupported
  | some i =>
    match s.fill i pa with
    | .error e => .error e
    | .ok none => .ok (none, s)
    | .ok (some t) => t.pop i size.toNat

def Pool.allocb (s : Pool) (size : UInt32) (pa : Option Nat) : Except Panic (Option Nat × Pool) :=
  match s.alloc size pa with
  | .ok (none, _) => .error .nomemory
  | r => r

/-- `BALLOC`. -/
def Block.balloc (h : Block) : UInt64 := UInt64.ofNat h.lim - UInt64.ofNat h.base

def Pool.iallocb (s : Pool) (size : UInt32) (pa : Option Nat) : Except Panic (Option Nat × Pool) :=
  if s.bytes > s.ialloc then .error .limited
  else
    match s.alloc size pa with
    | .ok (some b, t) =>
      .ok (some b, { t.set b { t.block b with flag := BINTR } with
        bytes := t.bytes + (t.block b).balloc })
    | r => r

/-- The size that `fre` computes, an `uint`. -/
def Pool.size (s : Pool) (b : Nat) : Nat :=
  (((b : Int) - (s.block b).base - Hdrspc - Align) % 2 ^ 32).toNat

def Pool.fre (s : Pool) (b : Nat) : Except Panic Pool :=
  match qtab.findIdx? fun sz => s.size b ≤ sz with
  | none => .error .badsize
  | some i =>
    match s.binit (s.block b).base (sz i) with
    | .error e => .error e
    | .ok (t, a) => .ok { t.push i a with live := update t.live b false }

def Pool.freeb (s : Pool) (b : Nat) : Except Panic Pool :=
  let h := s.block b
  if h.free ≠ none then
    if h.flag &&& BINTR ≠ 0 then .error .assert else .ok (s.set b { h with flag := 0 })
  else if h.flag &&& BINTR ≠ 0 then Pool.fre { s with bytes := s.bytes - h.balloc } b
  else s.fre b

inductive Op
  | allocb (size : UInt32) (pa : Option Nat)
  | iallocb (size : UInt32) (pa : Option Nat)
  | freeb (b : Nat)
  /-- Who has the block changes its header. -/
  | set (b : Nat) (h : Block)

def act (s : Pool) : Op → Except Panic Pool
  | .allocb size pa => (s.allocb size pa).map Prod.snd
  | .iallocb size pa => (s.iallocb size pa).map Prod.snd
  | .freeb b => s.freeb b
  | .set b h => .ok (s.set b h)

/-- 2 MiB that are aligned, and apart from those that have been returned before. -/
def Fresh (s : Pool) (va : Nat) : Prop :=
  Align ∣ va ∧ ∀ c ∈ s.chunks, va + 2 * MiB ≤ c.1 ∨ c.1 + 2 * MiB ≤ va

/-- What callers and `physalloc` promise. -/
def Allowed (s : Pool) : Op → Prop
  | .allocb _ pa | .iallocb _ pa => ∀ va, pa = some va → Fresh s va
  | .freeb b => s.live b = true
  | .set b h => s.live b = true ∧ h.base = (s.block b).base

/-- Nothing has been allocated. -/
structure Start (s : Pool) : Prop where
  free : ∀ i, s.free i = none
  live : ∀ b, s.live b = false
  chunks : s.chunks = []

/-- The states that runs reach. -/
def Reach : Pool → Prop := StepSystem.Reach Start fun s op t => Allowed s op ∧ act s op = .ok t

/-- Block `b` is the `k`-th of a chunk of class `i` at `va`. -/
def blockAt (va : Nat) (i k : Nat) : Nat := va + (k + 1) * bsz (sz i) - sizeofBlock

/-- The block has been carved for class `i`. -/
def Pool.Carved (s : Pool) (b : Nat) (i : Nat) : Prop :=
  ∃ va k, (va, i) ∈ s.chunks ∧ k < count i ∧ b = blockAt va i k

end Qallocb
