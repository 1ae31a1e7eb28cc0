import NixKernel.HeapChain

/-!
# IO queues: `port/qio.c`

Blocks live in a heap and are threaded through their `next` pointers; a queue
holds the first and last pointer of its chain and two byte counts kept by
hand.  A function of the source becomes a function on the heap and the queue.
A result `none` means that the code does not return: it follows a nil or
freed pointer, frees a block twice, or loops for ever.

A block is stored by its extents: `hd` bytes between `base` and `rp`, the
bytes `data` from `rp` to `wp`, and `room` bytes up to `lim`.  So
`base ≤ rp ≤ wp ≤ lim` holds by construction.  The counts of a queue are C
`int`s: every store keeps what `int32` keeps, and they wrap.

Functions that release the queue's lock in the middle are given section by
section: `qread` is `qreadTake`, `bl2mem` outside the lock, `qreadFinish`, or
`bl2memFault` when the copy faults and the process leaves by `waserror`;
`qbwrite` is `qbwritePut` and then the loop of `qbwriteGoes` and `qbwriteFlow`.
-/

namespace Qio

open Function (update)

abbrev Addr := Nat

/-- What an `int` keeps of a number. -/
def int32 (n : Int) : Int := n.bmod (2 ^ 32)

@[simp] theorem int32_add_int32 (a b : Int) : int32 (int32 a + b) = int32 (a + b) :=
  Int.bmod_add_bmod

@[simp] theorem int32_sub_int32 (a b : Int) : int32 (int32 a - b) = int32 (a - b) :=
  Int.bmod_sub_bmod

theorem int32_eq {n : Int} (hlo : 0 ≤ n) (hhi : n < 2 ^ 31) : int32 n = n :=
  Int.bmod_eq_of_le (by omega) (by omega)

@[simp] theorem int32_zero : int32 0 = 0 := rfl

theorem int32_le (n : Nat) : int32 n ≤ n := by
  rw [int32, Int.bmod_def]
  omega

theorem int32_lt (n : Int) : int32 n < 2 ^ 31 := by
  rw [int32, Int.bmod_def]
  omega

/-- The buffer of a `struct Block`, by its extents. -/
structure Buf where
  hd : Nat
  data : List UInt8
  room : Nat
  deriving DecidableEq, Repr

/-- `BLEN`: the bytes between `rp` and `wp`. -/
def Buf.blen (b : Buf) : Nat := b.data.length

/-- `BALLOC`: the bytes between `base` and `lim`. -/
def Buf.balloc (b : Buf) : Nat := b.hd + b.data.length + b.room

/-- `b->rp += n`, for `n` at most `BLEN`. -/
def Buf.pull (b : Buf) (n : Nat) : Buf :=
  { b with hd := b.hd + min n b.data.length, data := b.data.drop n }

/-- `b->wp = b->rp + n`, for `n` at most `BLEN`. -/
def Buf.cut (b : Buf) (n : Nat) : Buf :=
  { b with data := b.data.take n, room := b.room + (b.data.length - n) }

/-- `memmove(b->wp, p, n); b->wp += n`, for `n` bytes that fit. -/
def Buf.fill (b : Buf) (bytes : List UInt8) : Buf :=
  { b with data := b.data ++ bytes, room := b.room - bytes.length }

/-- A `struct Block`: its buffer and its `next` pointer. -/
abbrev Block := HeapChain.Cell Addr Buf

abbrev Heap := Addr → Option Block

/-- Where the block allocator puts a block of a given size: its address and
its header space.  `none` is an allocation that fails.  An address in use is
never handed out. -/
structure Allocator where
  pick : Heap → Nat → Option (Addr × Nat)
  fresh : ∀ {h n a hd}, pick h n = some (a, hd) → h a = none

/-- `iallocb`: an empty block with room for `size` bytes, or nil. -/
def iallocb (al : Allocator) (h : Heap) (size : Nat) : Option (Addr × Heap) :=
  (al.pick h size).map fun p =>
    (p.1, update h p.1 (some ⟨none, ⟨p.2, [], size⟩⟩))

/-- `allocb`: like `iallocb`, but the kernel panics when there is no memory. -/
def allocb (al : Allocator) (h : Heap) (size : Nat) : Option (Addr × Heap) :=
  iallocb al h size

/-- `freeb` of a block that is in use. -/
def freeb (h : Heap) (a : Addr) : Option Heap := do
  let _ ← h a
  return update h a none

/-- `freeblist`. -/
def Heap.freeblist (h : Heap) (p : Option Addr) : Option Heap :=
  match p with
  | none => some h
  | some a => do
      let b ← h a
      let h ← freeb (update h a (some { b with next := none })) a
      h |>.freeblist b.next
partial_fixpoint

/-- `blocklen`: the bytes in a string of blocks. -/
def Heap.blocklen (h : Heap) (p : Option Addr) : Option Nat :=
  match p with
  | none => some 0
  | some a => do
      let b ← h a
      let n ← h |>.blocklen b.next
      return b.val.blen + n
partial_fixpoint

/-- `blockalloclen`: the space in a string of blocks. -/
def Heap.blockalloclen (h : Heap) (p : Option Addr) : Option Nat :=
  match p with
  | none => some 0
  | some a => do
      let b ← h a
      let n ← h |>.blockalloclen b.next
      return b.val.balloc + n
partial_fixpoint

/-- The last block of a string of blocks: `while(b->next) b = b->next;`. -/
def Heap.lastblock (h : Heap) (a : Addr) : Option Addr := do
  let b ← h a
  match b.next with
  | none => return a
  | some a' => h |>.lastblock a'
partial_fixpoint

export Heap (freeblist blocklen blockalloclen lastblock)

/-- The bits of `q->state`. -/
structure QState where
  starve : Bool := false
  msg : Bool := false
  closed : Bool := false
  flow : Bool := false
  coalesce : Bool := false
  kick : Bool := false
  deriving DecidableEq, Repr

/-- `struct Queue`, without its locks, Rendez and callback argument.  `kick`
and `bypass` only say whether a callback is installed. -/
structure Queue where
  bfirst : Option Addr := none
  blast : Option Addr := none
  len : Int := 0
  dlen : Int := 0
  limit : Int
  inilim : Int
  state : QState
  noblock : Bool := false
  eof : Nat := 0
  kick : Bool := false
  bypass : Bool := false
  err : String := ""

/-- `qopen`. -/
def qopen (limit : Int) (msg : QState) (kick : Bool) : Queue :=
  { limit, inilim := limit, state := { msg with starve := true }, kick }

/-- `qbypass`: a queue to be bypassed. -/
def qbypass : Queue := { limit := 0, inilim := 0, state := {}, bypass := true }

/-- The heap together with one queue. -/
structure Qs where
  heap : Heap
  q : Queue

/-- What an operation leaves behind: the state, its value, and which of
`wakeup(&q->rr)` and `wakeup(&q->wr)` it calls once the lock is released. -/
structure Ret (α : Type) where
  st : Qs
  val : α
  rr : Bool := false
  wr : Bool := false

def ehungup : String := "i/o on hungup channel"

/-- "if writer flow controlled, restart", the end of every reading section. -/
def restart (q : Queue) : Queue × Bool :=
  if q.state.flow ∧ q.len < q.limit.tdiv 2 then
    ({ q with state := { q.state with flow := false } }, true)
  else (q, false)

/-- `if(q->bfirst) q->blast->next = b; else q->bfirst = b;` -/
def linkTail (s : Qs) (a : Addr) : Option Qs :=
  match s.q.bfirst with
  | none => some { s with q := { s.q with bfirst := some a } }
  | some _ => do
      let l ← s.q.blast
      let lb ← s.heap l
      return { s with heap := update s.heap l (some { lb with next := some a }) }

/-- Take the first block off: the common body of `qget` and `qremove`. -/
def qremove (s : Qs) : Option (Qs × Option Addr) :=
  match s.q.bfirst with
  | none => some (s, none)
  | some a => do
      let b ← s.heap a
      return ({ heap := update s.heap a (some { b with next := none }),
                q := { s.q with
                  bfirst := b.next
                  dlen := int32 (s.q.dlen - b.val.blen)
                  len := int32 (s.q.len - b.val.balloc) } }, some a)

/-- `qget`. -/
def qget (s : Qs) : Option (Ret (Option Addr)) := do
  match s.q.bfirst with
  | none =>
    return { st := { s with q := { s.q with state := { s.q.state with starve := true } } },
             val := none }
  | some _ =>
    let (s, b) ← qremove s
    let (q, dowakeup) := restart s.q
    return { st := { s with q }, val := b, wr := dowakeup }

/-- The loop of `qdiscard`.  `gone` records the bytes thrown away. -/
def Qs.qdiscardLoop (s : Qs) (len sofar : Nat) (gone : List UInt8) :
    Option (Qs × Nat × List UInt8) :=
  if sofar < len then
    match s.q.bfirst with
    | none => some (s, sofar, gone)
    | some a => do
        let b ← s.heap a
        if b.val.blen ≤ len - sofar then
          let (s, _) ← qremove s
          let h ← freeb s.heap a
          ({ s with heap := h } : Qs) |>.qdiscardLoop len (sofar + b.val.blen) (gone ++ b.val.data)
        else
          let n := len - sofar
          ({ heap := update s.heap a (some { b with val := b.val.pull n }),
             q := { s.q with dlen := int32 (s.q.dlen - n) } } : Qs)
            |>.qdiscardLoop len (sofar + n) (gone ++ b.val.data.take n)
  else some (s, sofar, gone)
partial_fixpoint

export Qs (qdiscardLoop)

/-- `qdiscard`: the number of bytes thrown away, with the bytes. -/
def qdiscard (s : Qs) (len : Nat) : Option (Ret (Nat × List UInt8)) := do
  let (s, sofar, gone) ← qdiscardLoop s len 0 []
  let (q, dowakeup) := restart s.q
  return { st := { s with q }, val := (sofar, gone), wr := dowakeup }

/-- The loop at the start of `qconsume`: empty blocks move to `tofree`. -/
def Qs.qconsumeSkip (s : Qs) (tofree : Option Addr) : Option (Qs × Option Addr) :=
  match s.q.bfirst with
  | none => some (s, tofree)
  | some a => do
      let b ← s.heap a
      if 0 < b.val.blen then return (s, tofree)
      else
        ({ heap := update s.heap a (some { b with next := tofree }),
           q := { s.q with bfirst := b.next, len := int32 (s.q.len - b.val.balloc) } } : Qs)
          |>.qconsumeSkip (some a)
partial_fixpoint

export Qs (qconsumeSkip)

/-- `qconsume`: `none` for -1, else the bytes copied out.  On an empty queue
the blocks in `tofree` are not freed, as in the source. -/
def qconsume (s : Qs) (len : Nat) : Option (Ret (Option (List UInt8))) := do
  let (s, tofree) ← qconsumeSkip s none
  match s.q.bfirst with
  | none =>
    return { st := { s with q := { s.q with state := { s.q.state with starve := true } } },
             val := none }
  | some a =>
    let b ← s.heap a
    let n := b.val.blen
    let len := min n len
    let out := b.val.data.take len
    let b := { b with val := b.val.pull len }
    let q := { s.q with dlen := int32 (s.q.dlen - len) }
    if s.q.state.msg ∨ len = n then
      let q := { q with
        bfirst := b.next
        len := int32 (q.len - b.val.balloc)
        dlen := int32 (q.dlen - b.val.blen) }
      let (q, dowakeup) := restart q
      let h ← freeblist (update s.heap a (some { b with next := tofree })) (some a)
      return { st := ⟨h, q⟩, val := some out, wr := dowakeup }
    else
      let (q, dowakeup) := restart q
      let h ← freeblist (update s.heap a (some b)) tofree
      return { st := ⟨h, q⟩, val := some out, wr := dowakeup }

/-- "make sure other end gets awakened". -/
def unstarve (q : Queue) : Queue × Bool :=
  if q.state.starve then
    ({ q with state := { q.state with starve := false } }, true)
  else (q, false)

/-- `qaddlist`, for a non-nil list. -/
def qaddlist (s : Qs) (a : Addr) : Option Qs := do
  let s ← linkTail s a
  let len ← blockalloclen s.heap (some a)
  let dlen ← blocklen s.heap (some a)
  let last ← lastblock s.heap a
  return { s with q := { s.q with
    len := int32 (s.q.len + len)
    dlen := int32 (s.q.dlen + dlen)
    blast := some last } }

/-- The part of `qpass` and `qpassnolim` behind their checks: the block list
is added as in `qaddlist`. -/
def qpassAdd (s : Qs) (a : Addr) : Option (Ret Int) := do
  let len ← blockalloclen s.heap (some a)
  let s ← qaddlist s a
  let q := if s.q.limit.tdiv 2 ≤ s.q.len then
      { s.q with state := { s.q.state with flow := true } } else s.q
  let (q, dowakeup) := unstarve q
  return { st := { s with q }, val := int32 len, rr := dowakeup }

/-- `qpassnolim`. -/
def qpassnolim (s : Qs) (a : Addr) : Option (Ret Int) := do
  if s.q.state.closed then
    let b ← s.heap a
    let h ← freeblist s.heap (some a)
    return { st := { s with heap := h }, val := b.val.balloc }
  else qpassAdd s a

/-- `qpass`. -/
def qpass (s : Qs) (a : Addr) : Option (Ret Int) := do
  if s.q.limit ≤ s.q.len then
    let h ← freeblist s.heap (some a)
    return { st := { s with heap := h }, val := -1 }
  else qpassnolim s a

/-- Append one block and count it, as `qproduce`, `qbwrite` and `qiwrite` do. -/
def qaddblock (s : Qs) (a : Addr) : Option Qs := do
  let b ← s.heap a
  let s ← linkTail s a
  return { heap := update s.heap a (some { b with next := none }),
           q := { s.q with
             blast := some a
             len := int32 (s.q.len + b.val.balloc)
             dlen := int32 (s.q.dlen + b.val.blen) } }

/-- `qproduce`: -1 on a full queue, 0 without memory. -/
def qproduce (al : Allocator) (s : Qs) (bytes : List UInt8) : Option (Ret Int) := do
  if s.q.limit ≤ s.q.len then
    return { st := { s with q := { s.q with state := { s.q.state with flow := true } } },
             val := -1 }
  else
    match iallocb al s.heap bytes.length with
    | none => return { st := s, val := 0 }
    | some (a, h) =>
      let b ← h a
      let s ← qaddblock { s with heap := update h a (some { b with val := b.val.fill bytes }) } a
      let (q, dowakeup) := unstarve s.q
      let q := if q.limit ≤ q.len then
          { q with state := { q.state with flow := true } } else q
      return { st := { s with q }, val := bytes.length, rr := dowakeup }

/-- What `qwait` finds under the lock. -/
inductive Qwait
  | data
  | closed
  | err
  | sleep
  deriving DecidableEq, Repr

/-- One turn of the loop of `qwait`: `closed` is its result 0, `err` its result
-1, and `sleep` releases the lock and sleeps on `q->rr` until `notempty`. -/
def qwait (q : Queue) : Queue × Qwait :=
  if q.bfirst.isSome then (q, .data)
  else if q.state.closed then
    let q := { q with eof := q.eof + 1 }
    if 3 < q.eof then (q, .err)
    else if q.err ≠ "" ∧ q.err ≠ ehungup then (q, .err)
    else (q, .closed)
  else ({ q with state := { q.state with starve := true } }, .sleep)

/-- `notempty`, the condition a reader sleeps on. -/
def notempty (q : Queue) : Bool := q.state.closed || q.bfirst.isSome

/-- `qputback`. -/
def qputback (s : Qs) (a : Addr) : Option Qs := do
  let b ← s.heap a
  return { heap := update s.heap a (some { b with next := s.q.bfirst }),
           q := { s.q with
             blast := if s.q.bfirst.isNone then some a else s.q.blast
             bfirst := some a
             len := int32 (s.q.len + b.val.balloc)
             dlen := int32 (s.q.dlen + b.val.blen) } }

/-- `bl2mem`: the bytes copied and the first unconsumed block. -/
def Heap.bl2mem (h : Heap) (p : Option Addr) (n : Nat) :
    Option (Heap × List UInt8 × Option Addr) :=
  match p with
  | none => some (h, [], none)
  | some a => do
      let b ← h a
      if n < b.val.blen then
        return (update h a (some { b with val := b.val.pull n }), b.val.data.take n, some a)
      else
        let h ← freeb (update h a (some { b with val := b.val.pull b.val.blen })) a
        let (h, bytes, p) ← h |>.bl2mem b.next (n - b.val.blen)
        return (h, b.val.data ++ bytes, p)
partial_fixpoint

/-- `bl2mem` left by a fault in the copy to user memory: `k` blocks are copied
and freed, and the next one has bytes to copy.  `none` when the copy ends
before. -/
def Heap.bl2memFault (h : Heap) (p : Option Addr) (n : Nat) : Nat → Option Heap
  | 0 => do
    let a ← p
    let b ← h a
    if 0 < min b.val.blen n then return h else none
  | k + 1 => do
    let a ← p
    let b ← h a
    if n < b.val.blen then none
    else
      let h ← freeb (update h a (some { b with val := b.val.pull b.val.blen })) a
      h |>.bl2memFault b.next (n - b.val.blen) k

export Heap (bl2mem bl2memFault)

/-- The outcome of the first locked section of `qread`. -/
inductive Taken
  | blocks (first : Addr) (n : Nat)
  | closed
  | err
  | sleep
  deriving DecidableEq, Repr

/-- "grab the first block and as many following blocks as will partially fit
in the read", linking each one behind the last one taken. -/
def Qs.qreadGrab (s : Qs) (len : Nat) (last : Addr) (n : Nat) : Option (Qs × Nat) :=
  if len ≤ n then some (s, n)
  else
    match s.q.bfirst with
    | none => some (s, n)
    | some a => do
        let b ← s.heap a
        let (s, _) ← qremove s
        let lb ← s.heap last
        ({ s with heap := update s.heap last (some { lb with next := some a }) } : Qs)
          |>.qreadGrab len a (n + b.val.blen)
partial_fixpoint

export Qs (qreadGrab)

/-- `qread` from `ilock(q)` to the `iunlock(q)` before the copy; `sleep` when
`qwait` goes to sleep, after which the section starts again. -/
def Qs.qreadTake (s : Qs) (len : Nat) : Option (Qs × Taken) :=
  match qwait s.q with
  | (q, .sleep) => some ({ s with q }, .sleep)
  | (q, .closed) => some ({ s with q }, .closed)
  | (q, .err) => some ({ s with q }, .err)
  | (_, .data) =>
    match s.q.bfirst with
    | none => none
    | some a => do
        let b ← s.heap a
        if s.q.state.coalesce then
          -- when coalescing, 0 length blocks just go away
          if b.val.blen = 0 then
            let (s, _) ← qremove s
            let h ← freeb s.heap a
            ({ s with heap := h } : Qs) |>.qreadTake len
          else
            let (s, _) ← qremove s
            let (s, n) ← qreadGrab s len a b.val.blen
            return (s, .blocks a n)
        else
          let (s, _) ← qremove s
          return (s, .blocks a b.val.blen)
partial_fixpoint

export Qs (qreadTake)

/-- `qwakeup_iunlock`. -/
def qwakeupIunlock (s : Qs) : Qs × Bool :=
  let (q, dowakeup) := restart s.q
  ({ s with q }, dowakeup)

/-- "take care of any left over partial block". -/
def qreadLeft (s : Qs) (a : Addr) : Option Qs :=
  if s.q.state.msg then do
    let h ← freeb s.heap a
    return { s with heap := h }
  else qputback s a

/-- `qread` after the copy: put back what is left over, restart the writer and
return the count. -/
def qreadFinish (s : Qs) (n : Nat) (left : Option Addr) : Option (Ret Int) := do
  match left with
  | none =>
    let (s, dowakeup) := qwakeupIunlock s
    return { st := s, val := n, wr := dowakeup }
  | some a =>
    let b ← s.heap a
    let s ← qreadLeft s a
    let (s, dowakeup) := qwakeupIunlock s
    return { st := s, val := n - b.val.blen, wr := dowakeup }

/-- The outcome of `qbread`. -/
inductive Bread
  | block (b : Addr)
  | closed
  | err
  | sleep
  deriving DecidableEq, Repr

/-- "split block if it's too big and this is not a message queue"; a message is
cut short. -/
def qbreadSplit (al : Allocator) (s : Qs) (a : Addr) (nb : Block) (len : Nat) : Option Qs := do
  if len < nb.val.blen then
    if s.q.state.msg then
      return { s with heap := update s.heap a (some { nb with val := nb.val.cut len }) }
    else
      let (a', h) ← allocb al s.heap (nb.val.blen - len)
      let b ← h a'
      let s ← qputback
        { s with heap := update h a' (some { b with val := b.val.fill (nb.val.data.drop len) }) } a'
      return { s with heap := update s.heap a (some { nb with val := nb.val.cut len }) }
  else return s

/-- `qbread`. -/
def qbread (al : Allocator) (s : Qs) (len : Nat) : Option (Ret Bread) := do
  match qwait s.q with
  | (q, .sleep) => return { st := { s with q }, val := .sleep }
  | (q, .closed) => return { st := { s with q }, val := .closed }
  | (q, .err) => return { st := { s with q }, val := .err }
  | (_, .data) =>
    let (s, first) ← qremove s
    let a ← first
    let nb ← s.heap a
    let s ← qbreadSplit al s a nb len
    let (s, dowakeup) := qwakeupIunlock s
    return { st := s, val := .block a, wr := dowakeup }

/-- `qnotfull`, the condition a writer sleeps on. -/
def qnotfull (q : Queue) : Bool := q.len < q.limit || q.state.closed

/-- What the first locked section of `qbwrite` did with the block. -/
inductive Bwrite
  | queued (n : Nat)
  | dropped (n : Nat)
  | bypassed (n : Nat)
  | err (msg : String)
  deriving DecidableEq, Repr

/-- `qbwrite` up to the wakeup of the reader: the block is queued, handed to
the bypass, dropped by a full nonblocking queue, or freed by the error path. -/
def qbwritePut (s : Qs) (a : Addr) : Option (Ret Bwrite) := do
  let b ← s.heap a
  if s.q.bypass then return { st := s, val := .bypassed b.val.blen }
  else if s.q.state.closed then
    let h ← freeb s.heap a
    return { st := { s with heap := h }, val := .err s.q.err }
  else if s.q.limit ≤ s.q.len ∧ s.q.noblock then
    let h ← freeb s.heap a
    return { st := { s with heap := h }, val := .dropped b.val.blen }
  else
    let s ← qaddblock s a
    let (q, dowakeup) := unstarve s.q
    return { st := { s with q }, val := .queued b.val.blen, rr := dowakeup }

/-- The test of the flow-control loop at the end of `qbwrite`, made without the
lock: whether the writer may go on. -/
def qbwriteGoes (q : Queue) : Bool := q.noblock || qnotfull q

/-- The locked section of that loop, after which the writer sleeps on `q->wr`
until `qnotfull`. -/
def qbwriteFlow (q : Queue) : Queue :=
  { q with state := { q.state with flow := true } }

def maxatomic : Nat := 64 * 1024

/-- One turn of the loop of `qwrite`: allocate a block of at most `Maxatomic`
bytes, copy the next bytes into it and hand it to `qbwrite`. -/
def qwritePut (al : Allocator) (s : Qs) (bytes : List UInt8) : Option (Ret Bwrite) := do
  let (a, h) ← allocb al s.heap (min bytes.length maxatomic)
  let b ← h a
  qbwritePut { s with heap := update h a (some { b with val := b.val.fill (bytes.take maxatomic) }) } a

/-- How one turn of the loop of `qiwrite` ends: the loop goes on only after
`wrote`; `closed` makes the result -1. -/
inductive Iwrite
  | wrote (n : Nat)
  | nomem
  | closed
  | full
  deriving DecidableEq, Repr

/-- One turn of the loop of `qiwrite`.  The block of the closed path is not
freed, as in the source. -/
def qiwritePut (al : Allocator) (s : Qs) (bytes : List UInt8) : Option (Ret Iwrite) := do
  match iallocb al s.heap (min bytes.length maxatomic) with
  | none => return { st := s, val := .nomem }
  | some (a, h) =>
    let b ← h a
    let s : Qs := { s with heap := update h a (some { b with val := b.val.fill (bytes.take maxatomic) }) }
    if s.q.state.closed then return { st := s, val := .closed }
    else if 16 * 1024 ≤ s.q.dlen then
      let h ← freeb s.heap a
      return { st := { s with heap := h }, val := .full }
    else
      let s ← qaddblock s a
      let (q, dowakeup) := unstarve s.q
      return { st := { s with q }, val := .wrote (min bytes.length maxatomic), rr := dowakeup }

/-- `qclose`. -/
def qclose (s : Qs) : Option (Ret Unit) := do
  let h ← freeblist s.heap s.q.bfirst
  return { st := { heap := h,
                   q := { s.q with
                     state := { s.q.state with closed := true, flow := false, starve := false }
                     err := ehungup
                     bfirst := none
                     len := 0
                     dlen := 0
                     noblock := false } },
           val := (), rr := true, wr := true }

/-- `qhangup`; an error text is cut to `ERRMAX-1` characters. -/
def qhangup (s : Qs) (msg : String) : Ret Unit :=
  { st := { s with q := { s.q with
              state := { s.q.state with closed := true }
              err := if msg = "" then ehungup else (msg.take 127).toString } },
    val := (), rr := true, wr := true }

/-- `qflush`. -/
def qflush (s : Qs) : Option (Ret Unit) := do
  let h ← freeblist s.heap s.q.bfirst
  return { st := { heap := h, q := { s.q with bfirst := none, len := 0, dlen := 0 } },
           val := (), wr := true }

/-- `qreopen`. -/
def qreopen (q : Queue) : Queue :=
  { q with
    state := { q.state with closed := false, starve := true }
    eof := 0
    limit := q.inilim }

/-- `qsetlimit`. -/
def qsetlimit (q : Queue) (limit : Int) : Queue := { q with limit }

/-- `qnoblock`. -/
def qnoblock (q : Queue) (onoff : Bool) : Queue := { q with noblock := onoff }

end Qio
