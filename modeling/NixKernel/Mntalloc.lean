import NixKernel.BitTable
import NixKernel.LinkList
import NixKernel.StepSystem

/-!
# Headers and tags of 9P requests: `mntalloc`

A `Mntrpc` gets a tag when its header is allocated, and keeps it while it is on the free list.  `live` and `used` are
for the record: the addresses that `malloc` has given out and `free` has not taken back, and the headers that
`mntralloc` has returned and `mntfree` has not been called with.
-/

namespace MntTags

open LinkList
open Function (update)

def tagshift : Nat := 5

/-- The words of `tagmask`. -/
def nmask : Nat := 64 * 1024 / 2 ^ tagshift

structure Mntrpc where
  list : Option Nat
  tag : Nat
  rpclen : Nat
  deriving DecidableEq, Repr

structure Mntalloc where
  rpc : Nat → Mntrpc
  rpcfree : Option Nat
  nrpcfree : Int
  nrpcused : Int
  tagmask : Nat → BitVec 32
  live : Nat → Bool
  used : List Nat

/-- What is tested for each bit of a word that is not full. -/
def freebit (v : BitVec 32) : Option Nat := (List.range (2 ^ tagshift)).find? fun j => v &&& 1#32 <<< j = 0#32

/-- `alloctag`; it panics where it is `none`. -/
def alloctag (tagmask : Nat → BitVec 32) : Option (Nat × (Nat → BitVec 32)) :=
  (List.range nmask).findSome? fun i =>
    if tagmask i = BitVec.allOnes 32 then none
    else (freebit (tagmask i)).map fun j => (i * 2 ^ tagshift + j, BitTable.insert tagmask i j)

def freetag (tagmask : Nat → BitVec 32) (t : Nat) : Nat → BitVec 32 :=
  BitTable.erase tagmask (t / 2 ^ tagshift) (t % 2 ^ tagshift)

/-- A write to a header. -/
def Mntalloc.set (s : Mntalloc) (r : Nat) (h : Mntrpc) : Mntalloc := { s with rpc := update s.rpc r h }

/-- `mntralloc` where the free list is empty: `header` and `buffer` are whether `malloc` and `mallocz` have memory,
`new` is the header. -/
def Mntalloc.fresh (s : Mntalloc) (msize new : Nat) (header buffer : Bool) : Option Mntalloc :=
  if header = false ∨ buffer = false then some s
  else
    (alloctag s.tagmask).map fun (t, tagmask) =>
      { s.set new ⟨none, t, msize⟩ with
        tagmask := tagmask
        nrpcused := s.nrpcused + 1
        live := update s.live new true
        used := new :: s.used }

/-- `mntralloc` where the free list has the header `r`. -/
def Mntalloc.reuse (s : Mntalloc) (r msize : Nat) (buffer : Bool) : Mntalloc :=
  let h := s.rpc r
  let s := { s with rpcfree := h.list, nrpcfree := s.nrpcfree - 1 }
  if h.rpclen < msize then
    if buffer then
      { s.set r ⟨h.list, h.tag, msize⟩ with nrpcused := s.nrpcused + 1, used := r :: s.used }
    else { s with nrpcused := s.nrpcused - 1, live := update s.live r false }
  else { s with nrpcused := s.nrpcused + 1, used := r :: s.used }

/-- `mntralloc`, whether it returns or raises an error. -/
def Mntalloc.mntralloc (s : Mntalloc) (msize new : Nat) (header buffer : Bool) : Option Mntalloc :=
  match s.rpcfree with
  | none => s.fresh msize new header buffer
  | some r => some (s.reuse r msize buffer)

def Mntalloc.mntfree (s : Mntalloc) (r : Nat) : Mntalloc :=
  let h := s.rpc r
  if 16 ≤ s.nrpcfree then
    { s with
      tagmask := freetag s.tagmask h.tag
      nrpcused := s.nrpcused - 1
      live := update s.live r false
      used := s.used.erase r }
  else
    { s.set r ⟨s.rpcfree, h.tag, h.rpclen⟩ with
      rpcfree := some r
      nrpcfree := s.nrpcfree + 1
      nrpcused := s.nrpcused - 1
      used := s.used.erase r }

/-- A call.  `new` is what `malloc` returns. -/
inductive Act
  | mntralloc (msize new : Nat) (header buffer : Bool)
  | mntfree (r : Nat)
  deriving DecidableEq, Repr

/-- `malloc` returns memory that nobody has, and `mntfree` is called with a header that is in use. -/
def act (s : Mntalloc) : Act → Option Mntalloc
  | .mntralloc msize new header buffer => if s.live new then none else s.mntralloc msize new header buffer
  | .mntfree r => if r ∈ s.used then some (s.mntfree r) else none

/-- What `mntreset` leaves. -/
def init : Mntalloc where
  rpc _ := ⟨none, 0, 0⟩
  rpcfree := none
  nrpcfree := 0
  nrpcused := 0
  tagmask := update (update (fun _ => 0#32) 0 1#32) (nmask - 1) 0x80000000#32
  live _ := false
  used := []

/-- 0 and `NOTAG`. -/
def reserved : List Nat := [0, 65535]

/-- The free list. -/
def Mntalloc.Free (s : Mntalloc) (l : List Nat) : Prop := Path (fun r => (s.rpc r).list) s.rpcfree l none

def Mntalloc.tag (s : Mntalloc) (r : Nat) : Nat := (s.rpc r).tag

/-- **The accounts of tags.** -/
structure Accounted (s : Mntalloc) (l : List Nat) : Prop where
  free : s.Free l
  tags : ∀ t, BitTable.Mem s.tagmask t ↔ t ∈ reserved ++ (s.used ++ l).map s.tag
  distinct : (reserved ++ (s.used ++ l).map s.tag).Nodup
  nrpcfree : s.nrpcfree = l.length
  nrpcused : s.nrpcused = s.used.length

/-- **The call that loses a tag.**  The header that is taken from the free list has too small a buffer, and there is no
memory for a larger one. -/
def Lost (s : Mntalloc) (a : Act) : Prop :=
  ∃ msize new header r, a = .mntralloc msize new header false ∧ s.rpcfree = some r ∧ (s.rpc r).rpclen < msize

/-- No call of the run loses a tag. -/
def Spared : Mntalloc → List Act → Prop := StepSystem.Spared act Lost

end MntTags
