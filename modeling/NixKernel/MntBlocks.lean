import NixKernel.StepSystem
import NixKernel.Tally

/-!
# Who has the blocks of a 9P reply

The reader of a mount takes the blocks of every reply into its own `Mntrpc`.  `mountmux` hands them over to the one
that waits for them, if there is one.  `mntfree` frees what a `Mntrpc` has in `b`.

A block has a name and the length of its data.  `taken` and `freed` are for the record: the blocks that `qremove` has
taken off `mnt->q`, and those that have been freed after that.
-/

namespace MntBlocks

/-- A block, with `BLEN`. -/
abbrev Block := Nat × Nat

/-- A `Mntrpc`, with `request.tag` and `reply.tag`.  It is `live` from `mntralloc` to `mntfree`. -/
structure Mntrpc where
  tag : Nat
  reply : Nat
  done : Bool
  b : List Block
  live : Bool
  deriving DecidableEq, Repr

/-- A mount.  `reader` is the `Mntrpc` that `mntrpcread` has filled and `mountmux` is to be called with. -/
structure Mnt where
  rpc : List Mntrpc
  queue : List Nat
  q : List Block
  reader : Option Nat
  taken : List Nat
  freed : List Nat
  deriving DecidableEq, Repr

def noRpc : Mntrpc := ⟨0, 0, true, [], false⟩

def Mnt.get (s : Mnt) (r : Nat) : Mntrpc := s.rpc.getD r noRpc

def Mnt.set (s : Mnt) (r : Nat) (x : Mntrpc) : Mnt := { s with rpc := s.rpc.set r x }

def ids (l : List Block) : List Nat := l.map Prod.fst

/-- "hang the data off of the fcall struct": the blocks that are taken, and what is left in the queue.  The block that
the message ends in is split, and `nb` is the new one.  Nothing where the queue is too short. -/
def hang (nb : Nat) : Nat → Nat → List Block → Option (List Block × List Block)
  | _, _, [] => none
  | hlen, len, b :: q =>
    let i := b.2 - hlen
    let len := len - hlen
    if i ≤ len then
      if 0 < len - i then (hang nb 0 (len - i) q).map fun r => ((b.1, i) :: r.1, r.2)
      else some ([(b.1, i)], q)
    else some ([(b.1, len)], (nb, i - len) :: q)

/-- `bl2mem`, to memory that can be written: the blocks it frees, and those it returns. -/
def bl2mem : Nat → List Block → List Nat × List Block
  | _, [] => ([], [])
  | n, b :: l =>
    if n < b.2 then ([], (b.1, b.2 - n) :: l)
    else
      let r := bl2mem (n - b.2) l
      (b.1 :: r.1, r.2)

/-- `mntralloc`. -/
def Mnt.mntralloc (s : Mnt) (tag : Nat) : Mnt := { s with rpc := s.rpc ++ [⟨tag, 0, false, [], true⟩] }

/-- `mntrpcread` that returns 0, for a reply with the tag `tag`.  What was in `r->b` is not looked at. -/
def Mnt.mntrpcread (s : Mnt) (r hlen len tag nb : Nat) : Option Mnt :=
  (hang nb hlen len s.q).map fun (b, q) =>
    { s.set r { s.get r with reply := tag, b := b } with
      q := q
      reader := some r
      taken := s.taken ++ ids b }

/-- "look for a reply to a message". -/
def Mnt.look (s : Mnt) (r : Nat) : Option Nat := s.queue.find? fun q => (s.get q).tag = (s.get r).reply

/-- `mountmux`. -/
def Mnt.mountmux (s : Mnt) (r : Nat) : Mnt :=
  match s.look r with
  | none => { s with reader := none }
  | some q =>
    let s' : Mnt := { s with queue := s.queue.erase q, reader := none }
    if q ≠ r then
      -- Trade pointers to receive buffer.
      (s'.set q { s.get q with reply := (s.get r).reply, b := (s.get r).b, done := true }).set r
        { s.get r with b := [] }
    else s'.set r { s.get r with done := true }

/-- What is done to the `Mntrpc`s of a mount.  `input` is what `doread`, `pullupqueue` and `qdiscard` make of the
queue. -/
inductive Act
  | mntralloc (tag : Nat)
  | mountio (r : Nat)
  | input (q : List Block)
  | mntrpcread (r hlen len tag nb : Nat)
  | mountmux (r : Nat)
  | mntqrm (r : Nat)
  | bl2mem (r n : Nat)
  | mntfree (r : Nat)
  deriving DecidableEq, Repr

/-- One call.  No block comes into the queue that has been taken off it. -/
def act (s : Mnt) : Act → Option Mnt
  | .mntralloc tag => some (s.mntralloc tag)
  | .mountio r =>
    if (s.get r).live = true ∧ (s.get r).done = false ∧ r ∉ s.queue then some { s with queue := r :: s.queue } else none
  | .input q => if (ids q).Nodup ∧ ∀ a ∈ ids q, a ∉ s.taken then some { s with q := q } else none
  | .mntrpcread r hlen len tag nb =>
    if s.reader = none ∧ ((s.get r).live = true ∧ (s.get r).done = false ∧ r ∈ s.queue) ∧ nb ∉ s.taken ∧ nb ∉ ids s.q then
      s.mntrpcread r hlen len tag nb
    else none
  | .mountmux r => if s.reader = some r then some (s.mountmux r) else none
  | .mntqrm r =>
    if (s.get r).live = true ∧ s.reader ≠ some r then
      some ({ s with queue := s.queue.erase r }.set r { s.get r with done := true })
    else none
  | .bl2mem r n =>
    if (s.get r).live = true ∧ (s.get r).done = true then
      let u := bl2mem n (s.get r).b
      some { s.set r { s.get r with b := u.2 } with freed := s.freed ++ u.1 }
    else none
  | .mntfree r =>
    if (s.get r).live = true ∧ r ∉ s.queue ∧ s.reader ≠ some r then
      some { s.set r { s.get r with b := [], live := false } with freed := s.freed ++ ids (s.get r).b }
    else none

def init : Mnt := ⟨[], [], [], none, [], []⟩

/-- How often a block is in the `b` of some `Mntrpc`. -/
def Mnt.owned (s : Mnt) (a : Nat) : Nat := (s.rpc.map fun r => (ids r.b).count a).sum

/-- **Each block that was taken is in one place**: it has been freed once, or it is in one `b`, once. -/
def Accounted (s : Mnt) : Prop := s.taken.Nodup ∧ ∀ a ∈ s.taken, s.freed.count a + s.owned a = 1

/-- The call drops blocks: a reply is read into a `Mntrpc` that still has some, or is handed over to one that has. -/
def Lost (s : Mnt) : Act → Prop
  | .mntrpcread r _ _ _ _ => (s.get r).b ≠ []
  | .mountmux r => ∃ q ∈ s.look r, q ≠ r ∧ (s.get q).b ≠ []
  | _ => False

instance Lost.decidable (s : Mnt) : ∀ i, Decidable (Lost s i)
  | .mntrpcread r _ _ _ _ => inferInstanceAs (Decidable ((s.get r).b ≠ []))
  | .mountmux r => inferInstanceAs (Decidable (∃ q ∈ s.look r, q ≠ r ∧ (s.get q).b ≠ []))
  | .mntralloc _ | .mountio _ | .input _ | .mntqrm _ | .bl2mem _ _ | .mntfree _ => inferInstanceAs (Decidable False)

end MntBlocks
