import NixKernel.QioWrite
import NixKernel.StepSystem

/-!
# A queue and the processes that use it

The state is one queue, the block heap and at most one `qread` that is between
its two locked sections (`q->rlock` admits no second one).  Every operation is
one locked section; the unlocked copy of `qread` is a step of its own, and so is
its exit by `waserror` after a fault in that copy.  `env`
is any other use of the block heap: it leaves alone the blocks in the queue and
those of the read in progress.

`Allowed` is what the callers promise: a block list handed to the queue is not
linked in it already, nor in the hands of the read in progress.

Each step also reports the bytes it accepted from a writer and the bytes it
returned or discarded.
-/

namespace Qio

open HeapChain StepSystem

/-- A `qread` outside the lock: before or after its copy. -/
inductive Reading
  | taken (first : Addr) (n len : Nat)
  | copied (left : Option Addr) (n : Nat) (bytes : List UInt8)

structure Sys where
  st : Qs
  read : Option Reading

/-- The operations on a queue, by locked section. -/
inductive Op
  | qget
  | qdiscard (len : Nat)
  | qconsume (len : Nat)
  | qremove
  | qbread (al : Allocator) (len : Nat)
  | qreadTake (len : Nat)
  | qreadCopy
  | qreadFault (k : Nat)
  | qreadFinish
  | qpass (b : Addr)
  | qpassnolim (b : Addr)
  | qaddlist (b : Addr)
  | qputback (b : Addr)
  | qproduce (al : Allocator) (bytes : List UInt8)
  | qbwrite (b : Addr)
  | qbwriteFlow
  | qwrite (al : Allocator) (bytes : List UInt8)
  | qiwrite (al : Allocator) (bytes : List UInt8)
  | qflush
  | qclose
  | qhangup (msg : String)
  | qreopen
  | qsetlimit (limit : Int)
  | qnoblock (onoff : Bool)
  | env (heap : Heap)

/-- The bytes of a string of blocks. -/
def Heap.blockbytes (h : Heap) (p : Option Addr) : Option (List UInt8) :=
  match p with
  | none => some []
  | some a => do
      let b ← h a
      let bytes ← h |>.blockbytes b.next
      return b.val.data ++ bytes
partial_fixpoint

export Heap (blockbytes)

/-- The bytes of one block. -/
def databytes (h : Heap) (a : Addr) : List UInt8 :=
  match h a with
  | none => []
  | some b => b.val.data

/-- A step: the next state, the bytes accepted and the bytes given out. -/
structure Outcome where
  sys : Sys
  acc : List UInt8 := []
  out : List UInt8 := []

/-- The bytes returned with the block of a `qget`, `qremove` or `qbread`. -/
def givenOut (h : Heap) : Option Addr → List UInt8
  | none => []
  | some a => databytes h a

/-- The bytes accepted by `qbwrite`, by its result. -/
def Bwrite.accepted : Bwrite → List UInt8 → List UInt8
  | .queued _, bytes => bytes
  | _, _ => []

/-- The bytes accepted by one turn of `qiwrite`, by its result. -/
def Iwrite.accepted : Iwrite → List UInt8 → List UInt8
  | .wrote _, bytes => bytes
  | _, _ => []

/-- One operation. -/
def exec (s : Sys) : Op → Option Outcome
  | .qget => do
      let r ← Qio.qget s.st
      return { sys := { s with st := r.st }, out := givenOut r.st.heap r.val }
  | .qdiscard len => do
      let r ← Qio.qdiscard s.st len
      return { sys := { s with st := r.st }, out := r.val.2 }
  | .qconsume len => do
      let r ← Qio.qconsume s.st len
      return { sys := { s with st := r.st }, out := r.val.getD [] }
  | .qremove => do
      let (st, b) ← Qio.qremove s.st
      return { sys := { s with st }, out := givenOut st.heap b }
  | .qbread al len => do
      let r ← Qio.qbread al s.st len
      return { sys := { s with st := r.st },
               out := match r.val with
                 | .block a => databytes r.st.heap a
                 | _ => [] }
  | .qreadTake len => do
      let (st, r) ← Qio.qreadTake s.st len
      match r with
      | .blocks first n => return { sys := ⟨st, some (.taken first n len)⟩ }
      | _ => return { sys := { s with st } }
  | .qreadCopy =>
    match s.read with
    | some (.taken first n len) => do
        let (heap, bytes, left) ← bl2mem s.st.heap (some first) len
        return { sys := ⟨{ s.st with heap }, some (.copied left n bytes)⟩ }
    | _ => none
  | .qreadFault k =>
    match s.read with
    | some (.taken first _ len) => do
        let heap ← bl2memFault s.st.heap (some first) len k
        return { sys := ⟨{ s.st with heap }, none⟩ }
    | _ => none
  | .qreadFinish =>
    match s.read with
    | some (.copied left n bytes) => do
        let r ← Qio.qreadFinish s.st n left
        return { sys := ⟨r.st, none⟩, out := bytes.take r.val.toNat }
    | _ => none
  | .qpass b => do
      let bytes ← blockbytes s.st.heap (some b)
      let r ← Qio.qpass s.st b
      return { sys := { s with st := r.st }, acc := if s.st.q.passes then bytes else [] }
  | .qpassnolim b => do
      let bytes ← blockbytes s.st.heap (some b)
      let r ← Qio.qpassnolim s.st b
      return { sys := { s with st := r.st }, acc := if s.st.q.state.closed then [] else bytes }
  | .qaddlist b => do
      let bytes ← blockbytes s.st.heap (some b)
      let st ← Qio.qaddlist s.st b
      return { sys := { s with st }, acc := bytes }
  | .qputback b => do
      let st ← Qio.qputback s.st b
      return { sys := { s with st } }
  | .qproduce al bytes => do
      let r ← Qio.qproduce al s.st bytes
      return { sys := { s with st := r.st }, acc := if r.val = bytes.length then bytes else [] }
  | .qbwrite b => do
      let r ← qbwritePut s.st b
      return { sys := { s with st := r.st },
               acc := r.val.accepted (databytes s.st.heap b) }
  | .qbwriteFlow =>
    some { sys := { s with st := { s.st with q := Qio.qbwriteFlow s.st.q } } }
  | .qwrite al bytes => do
      let r ← qwritePut al s.st bytes
      return { sys := { s with st := r.st },
               acc := r.val.accepted (bytes.take maxatomic) }
  | .qiwrite al bytes => do
      let r ← qiwritePut al s.st bytes
      return { sys := { s with st := r.st },
               acc := r.val.accepted (bytes.take maxatomic) }
  | .qflush => do
      let r ← Qio.qflush s.st
      return { sys := { s with st := r.st } }
  | .qclose => do
      let r ← Qio.qclose s.st
      return { sys := { s with st := r.st } }
  | .qhangup msg => some { sys := { s with st := (Qio.qhangup s.st msg).st } }
  | .qreopen => some { sys := { s with st := { s.st with q := Qio.qreopen s.st.q } } }
  | .qsetlimit limit =>
    some { sys := { s with st := { s.st with q := Qio.qsetlimit s.st.q limit } } }
  | .qnoblock onoff =>
    some { sys := { s with st := { s.st with q := Qio.qnoblock s.st.q onoff } } }
  | .env heap => some { sys := { s with st := { s.st with heap } } }

/-- The pointer to the private list of the read in progress. -/
def Sys.private (s : Sys) : Option Addr :=
  match s.read with
  | none => none
  | some (.taken first _ _) => some first
  | some (.copied left _ _) => left

/-- The caller owns the block list from `b`: none of its blocks is in the queue
or in the private list of the read in progress. -/
def Sys.Owns (s : Sys) (b : Addr) : Prop :=
  ∃ r, Chain s.st.heap (some b) r ∧
    (∀ l, Chain s.st.heap s.st.q.bfirst l → (addrs l).Disjoint (addrs r)) ∧
    (∀ k, Chain s.st.heap s.private k → (addrs k).Disjoint (addrs r))

/-- What the callers promise.  `q->rlock` keeps out a second `qread` or
`qbread`. -/
def Allowed (s : Sys) : Op → Prop
  | .qbread _ _ => s.read = none
  | .qreadTake _ => s.read = none
  | .qreadCopy => ∃ first n len, s.read = some (.taken first n len)
  | .qreadFault k => ∃ first n len, s.read = some (.taken first n len) ∧
      bl2memFault s.st.heap (some first) len k ≠ none
  | .qreadFinish => ∃ left n bytes, s.read = some (.copied left n bytes)
  | .qpass b => s.Owns b
  | .qpassnolim b => s.Owns b
  | .qaddlist b => s.Owns b
  | .qputback b => s.Owns b
  | .qbwrite b => s.Owns b
  | .env heap =>
    (∀ l, Chain s.st.heap s.st.q.bfirst l → ∀ a ∈ addrs l, heap a = s.st.heap a) ∧
    (∀ k, Chain s.st.heap s.private k → ∀ a ∈ addrs k, heap a = s.st.heap a)
  | _ => True

/-- The `allocb` of the operation finds no memory. -/
def NoMemory (s : Sys) : Op → Prop
  | .qbread al len => ∃ a b, s.st.q.bfirst = some a ∧ s.st.heap a = some b ∧ len < b.val.blen ∧
      s.st.q.state.msg = false ∧ allocb al (headOff s.st a b.val) (b.val.blen - len) = none
  | .qwrite al bytes => allocb al s.st.heap (min bytes.length maxatomic) = none
  | _ => False

/-- The copy of a `qread` to user memory faults. -/
def Op.Faults : Op → Prop
  | .qreadFault _ => True
  | _ => False

/-- A state of the system: `l` is in the queue and `k` in the hands of the read
in progress. -/
structure Holds (s : Sys) (l k : Cells) : Prop where
  rep : Rep s.st l
  priv : Chain s.st.heap s.private k
  disj : (addrs k).Disjoint (addrs l)
  frame : match s.read with
    | none => True
    | some (.taken _ n len) => n = sumBlen k ∧ (bl2memRest len k).length ≤ 1
    | some (.copied _ n bytes) => n = bytes.length + sumBlen k ∧ k.length ≤ 1

/-- The bytes taken off the queue by the read in progress. -/
def Sys.held (s : Sys) (k : Cells) : List UInt8 :=
  match s.read with
  | some (.copied _ _ bytes) => bytes ++ flat k
  | _ => flat k

/-- A queue that keeps every byte: open, and without message boundaries. -/
def Sys.ByteQueue (s : Sys) : Prop :=
  s.st.q.state.msg = false ∧ s.st.q.state.closed = false

/-- The operations after which a byte queue still has every byte: nothing is
emptied or hung up, nothing is put back from outside, no copy faults, and blocks
are taken off only while no `qread` holds earlier ones. -/
def Keeps (s : Sys) : Op → Prop
  | .qget => s.read = none
  | .qdiscard _ => s.read = none
  | .qconsume _ => s.read = none
  | .qremove => s.read = none
  | .qreadFault _ => False
  | .qputback _ => False
  | .qflush => False
  | .qclose => False
  | .qhangup _ => False
  | _ => True

/-- One operation keeps the representation, and a byte queue loses nothing:
what is given out, held and queued afterwards is what was held and queued
before and what was accepted. -/
def Sound (s : Sys) (l k : Cells) (op : Op) (o : Outcome) : Prop :=
  ∃ l' k', Holds o.sys l' k' ∧
    (Keeps s op → s.ByteQueue → o.sys.ByteQueue ∧
      o.out ++ o.sys.held k' ++ flat l' = s.held k ++ flat l ++ o.acc)

end Qio
