import NixKernel.QioStep

/-!
# Sleep and wakeup on a queue

`q->rlock` and `q->wlock` admit one process each to the bodies of `qread` and
`qbread` and of `qbwrite`; what these two processes are doing is the state of
the protocol, next to the queue itself.  All others use `qget`, `qconsume` and
`qdiscard`, or close the queue.  A wakeup is called after the lock is released,
so between the two it is pending: it belongs to the reader or writer (state
`waking`) or is counted among those of the other processes.

`sleep` tests its condition and commits under the lock of the Rendez, which
`wakeup` takes too: `drowsy` is the state after the queue is unlocked and before
that test.
-/

namespace Qio

open HeapChain StepSystem

/-- The call of the process that holds `q->rlock`. -/
inductive Rd
  | qread (len : Nat)
  | qbread (al : Allocator) (len : Nat)

inductive Reader
  | idle
  | ready (call : Rd)
  | drowsy (call : Rd)
  | asleep (call : Rd)
  | reading (r : Reading)
  | waking

/-- The writer after `qbwritePut`: it wakes the reader, tests `qbwriteGoes`,
sets `Qflow` and sleeps. -/
inductive Writer
  | idle
  | waking
  | testing
  | flowing
  | drowsy
  | asleep
  deriving DecidableEq

structure Proto where
  st : Qs
  rd : Reader
  wr : Writer
  rrs : Nat
  wrs : Nat

/-- The steps.  `intr` is a note that interrupts a sleep, and `readFault` the exit
by `waserror` after a fault in the copy to user memory. -/
inductive Act
  | read (call : Rd)
  | readLocked
  | readCopy
  | readFault (k : Nat)
  | readFinish
  | readSleep
  | readIntr
  | readWakeup
  | write (b : Addr)
  | writeWakeup
  | writeTest
  | writeFlow
  | writeSleep
  | writeIntr
  | qget
  | qconsume (len : Nat)
  | qdiscard (len : Nat)
  | qclose
  | qhangup (msg : String)
  | wakeupRr
  | wakeupWr
  | env (heap : Heap)

def Reader.reads : Reader → Option Reading
  | .reading r => some r
  | _ => none

/-- The queue and the read in progress. -/
def Proto.sys (p : Proto) : Sys := ⟨p.st, p.rd.reads⟩

/-- `wakeup(&q->rr)`: the sleeper goes back to the loop of `qwait`. -/
def Reader.woken : Reader → Reader
  | .asleep call => .ready call
  | rd => rd

/-- `wakeup(&q->wr)`: the sleeper goes back to the loop of `qbwrite`. -/
def Writer.woken : Writer → Writer
  | .asleep => .testing
  | wr => wr

/-- The reader after a section that ends in `qwakeup_iunlock`. -/
def Reader.ended (dowakeup : Bool) : Reader := if dowakeup then .waking else .idle

/-- The reader after the first section of `qread`. -/
def Taken.reader (len : Nat) : Taken → Reader
  | .blocks first n => .reading (.taken first n len)
  | .sleep => .drowsy (.qread len)
  | _ => .idle

/-- The reader after `qbread`. -/
def Bread.reader (al : Allocator) (len : Nat) (dowakeup : Bool) : Bread → Reader
  | .block _ => .ended dowakeup
  | .sleep => .drowsy (.qbread al len)
  | _ => .idle

/-- The writer after its block is queued or given up. -/
def Bwrite.writer (dowakeup : Bool) : Bwrite → Writer
  | .queued _ => if dowakeup then .waking else .testing
  | _ => .idle

/-- One step. -/
def act (p : Proto) : Act → Option Proto
  | .read call =>
    match p.rd with
    | .idle => some { p with rd := .ready call }
    | _ => none
  | .readLocked =>
    match p.rd with
    | .ready (.qread len) => do
        let (st, r) ← qreadTake p.st len
        return { p with st, rd := r.reader len }
    | .ready (.qbread al len) => do
        let r ← qbread al p.st len
        return { p with st := r.st, rd := r.val.reader al len r.wr }
    | _ => none
  | .readCopy =>
    match p.rd with
    | .reading (.taken first n len) => do
        let (heap, bytes, left) ← bl2mem p.st.heap (some first) len
        return { p with st := { p.st with heap }, rd := .reading (.copied left n bytes) }
    | _ => none
  | .readFault k =>
    match p.rd with
    | .reading (.taken first _ len) => do
        let heap ← bl2memFault p.st.heap (some first) len k
        return { p with st := { p.st with heap }, rd := .idle }
    | _ => none
  | .readFinish =>
    match p.rd with
    | .reading (.copied left n _) => do
        let r ← qreadFinish p.st n left
        return { p with st := r.st, rd := .ended r.wr }
    | _ => none
  | .readSleep =>
    match p.rd with
    | .drowsy call => some { p with rd := if notempty p.st.q then .ready call else .asleep call }
    | _ => none
  | .readIntr =>
    match p.rd with
    | .drowsy _ => some { p with rd := .idle }
    | .asleep _ => some { p with rd := .idle }
    | _ => none
  | .readWakeup =>
    match p.rd with
    | .waking => some { p with rd := .idle, wr := p.wr.woken }
    | _ => none
  | .write b =>
    match p.wr with
    | .idle => do
        let r ← qbwritePut p.st b
        return { p with st := r.st, wr := r.val.writer r.rr }
    | _ => none
  | .writeWakeup =>
    match p.wr with
    | .waking => some { p with wr := .testing, rd := p.rd.woken }
    | _ => none
  | .writeTest =>
    match p.wr with
    | .testing => some { p with wr := if qbwriteGoes p.st.q then .idle else .flowing }
    | _ => none
  | .writeFlow =>
    match p.wr with
    | .flowing => some { p with st := { p.st with q := qbwriteFlow p.st.q }, wr := .drowsy }
    | _ => none
  | .writeSleep =>
    match p.wr with
    | .drowsy => some { p with wr := if qnotfull p.st.q then .testing else .asleep }
    | _ => none
  | .writeIntr =>
    match p.wr with
    | .drowsy => some { p with wr := .idle }
    | .asleep => some { p with wr := .idle }
    | _ => none
  | .qget => do
      let r ← Qio.qget p.st
      return { p with st := r.st, wrs := p.wrs + r.wr.toNat }
  | .qconsume len => do
      let r ← Qio.qconsume p.st len
      return { p with st := r.st, wrs := p.wrs + r.wr.toNat }
  | .qdiscard len => do
      let r ← Qio.qdiscard p.st len
      return { p with st := r.st, wrs := p.wrs + r.wr.toNat }
  | .qclose => do
      let r ← Qio.qclose p.st
      return { p with st := r.st, rrs := p.rrs + 1, wrs := p.wrs + 1 }
  | .qhangup msg =>
    some { p with st := (Qio.qhangup p.st msg).st, rrs := p.rrs + 1, wrs := p.wrs + 1 }
  | .wakeupRr => if 0 < p.rrs then some { p with rrs := p.rrs - 1, rd := p.rd.woken } else none
  | .wakeupWr => if 0 < p.wrs then some { p with wrs := p.wrs - 1, wr := p.wr.woken } else none
  | .env heap => some { p with st := { p.st with heap } }

/-- What the callers promise, as in `Allowed`. -/
def Proto.Allowed (p : Proto) : Act → Prop
  | .write b => p.sys.Owns b
  | .env heap => Qio.Allowed p.sys (.env heap)
  | _ => True

/-- A queue just opened, with nobody using it. -/
def Proto.Opened (p : Proto) : Prop :=
  (∃ limit msg kick, 2 ≤ limit ∧ p.st.q = qopen limit msg kick) ∧
    p.rd = .idle ∧ p.wr = .idle ∧ p.rrs = 0 ∧ p.wrs = 0

def Proto.Step (p : Proto) (a : Act) (p' : Proto) : Prop :=
  p.Allowed a ∧ act p a = some p'

/-- A wakeup of `q->rr` is about to be called. -/
def Proto.RrPending (p : Proto) : Prop := 0 < p.rrs ∨ p.wr = .waking

/-- A wakeup of `q->wr` is about to be called, or a `qread` has still to reach
the test for one, in `qwakeup_iunlock`. -/
def Proto.WrPending (p : Proto) : Prop :=
  0 < p.wrs ∨ p.rd = .waking ∨ ∃ r, p.rd = .reading r

/-- No wakeup is lost: whoever sleeps although it could go on will be woken. -/
def Proto.NoLostWakeup (p : Proto) : Prop :=
  (p.wr = .asleep → p.st.q.len < p.st.q.limit.tdiv 2 → p.WrPending) ∧
    ∀ call, p.rd = .asleep call → notempty p.st.q = true → p.RrPending

/-- What `qconsume` leaves of the blocks in the queue. -/
def consumeCells (msg : Bool) (len : Nat) (l : Cells) : Cells :=
  match skipEmpty l with
  | [] => []
  | (a, v) :: t => consumeRest msg len a v t

/-- A reader has set `Qstarve`, a writer has cleared it, and the reader is not
asleep yet. -/
def Proto.StarveTaken (p : Proto) : Prop :=
  (∃ call, p.rd = .drowsy call) ∧ p.st.q.state.starve = false ∧ p.st.q.state.closed = false

/-- A writer has set `Qflow`, a reader has cleared it, and the writer is not
asleep yet. -/
def Proto.FlowTaken (p : Proto) : Prop :=
  p.wr = .drowsy ∧ p.st.q.state.flow = false ∧ p.st.q.state.closed = false

/-- A writer sleeps on a queue with blocks but no bytes. -/
def Proto.OnlyEmpty (p : Proto) : Prop :=
  p.wr = .asleep ∧ ¬ p.WrPending ∧ p.st.q.bfirst ≠ none ∧ p.st.q.dlen = 0

/-- The blocks in the queue have less space than an `int` can count. -/
def Proto.Fits (p : Proto) : Prop :=
  ∀ l, Chain p.st.heap p.st.q.bfirst l → sumBalloc l < 2 ^ 31

/-- The steps after which a wakeup may be lost are left out:
taking the last block while `StarveTaken`, filling the queue by putting a block
back while `FlowTaken`, dropping zero-length blocks until nothing is left
while `OnlyEmpty`, and leaving `qread` by a fault while a writer waits for it. -/
def Proto.Safe (p : Proto) : Act → Prop
  | .qget => p.StarveTaken → ∀ l, Chain p.st.heap p.st.q.bfirst l → l.length ≠ 1
  | .qdiscard len => p.StarveTaken →
      ∀ l, Chain p.st.heap p.st.q.bfirst l → l ≠ [] → discardCells len l ≠ []
  | .qconsume len =>
    (p.StarveTaken → ∀ l, Chain p.st.heap p.st.q.bfirst l → l ≠ [] →
      consumeCells p.st.q.state.msg len l ≠ []) ∧ ¬ p.OnlyEmpty
  | .readLocked =>
    match p.rd with
    | .ready (.qread _) => p.st.q.state.coalesce = true → ¬ p.OnlyEmpty
    | .ready (.qbread al len) => p.FlowTaken → ∀ a b, p.st.q.bfirst = some a →
        p.st.heap a = some b → p.st.q.len - b.val.balloc +
          sumBalloc (cutBack al (headOff p.st a b.val) p.st.q.state.msg b.val len) < p.st.q.limit
    | _ => True
  | .readFault _ =>
    p.wr = .asleep → p.st.q.len < p.st.q.limit.tdiv 2 → 0 < p.wrs
  | .readFinish =>
    match p.rd with
    | .reading (.copied (some a) _ _) => p.FlowTaken → p.st.q.state.msg = false →
        ∀ b, p.st.heap a = some b → p.st.q.len + b.val.balloc < p.st.q.limit
    | _ => True
  | _ => True

-- the equations of `act` are made here, and not by the first proofs that need them
attribute [local simp] act

end Qio
