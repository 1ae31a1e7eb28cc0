import NixKernel.Reseq
import NixKernel.TcpTimer

/-!
# The receive window: `ip/tcp.c`

`rcv.nxt` is the next byte a connection waits for and `rcv.wptr` the end of the window it has
offered.  `tcprcvwin` computes the window anew from the room in the receive queue, wherever
the connection is about to look at it: before `tcptrim` cuts a segment to the window, and in
each round of `tcpoutput`.  The reader takes bytes off the queue meanwhile, without a lock.

So the connection is a machine whose steps are the parts of `tcpiput` between which others
may run: a segment arrives, is cut to the window and put aside or delivered, and the segments
that were put aside follow when their turn comes.  What the sending half decides, and whether
there is memory for a segment that is put aside, comes with the step.
-/

namespace Rcvwin

open Tcp
open Rto (State)
open TcpCodec (Block bytes blocklen trimblock)

def FIN : UInt8 := 0x01
def SYN : UInt8 := 0x02
def RST : UInt8 := 0x04
def ACK : UInt8 := 0x10
def URG : UInt8 := 0x20

/-- `flags & flag`. -/
def has (flags flag : UInt8) : Bool := flags &&& flag != 0

structure Rcv where
  nxt : UInt32
  wnd : UInt32
  wsnt : UInt32
  wptr : UInt32
  urg : UInt32
  ackptr : UInt32
  blocked : Bool
  scale : UInt8

/-- `pullblock`: `count` bytes off the front; blocks that it empties are freed. -/
def pullblock : List Block → Nat → List Block
  | [], _ => []
  | bp :: next, count =>
    if count = 0 then bp :: next
    else
      let n := min bp.data.length count
      if bp.data.length - n = 0 then pullblock next (count - n)
      else { bp with
        rp := bp.rp + n
        head := bp.head ++ bp.data.take n
        data := bp.data.drop n } :: next

def inwindow (rcv : Rcv) (seq : UInt32) : Bool := seq_within seq rcv.nxt (rcv.nxt + rcv.wnd - 1)

/-- The places a segment takes in the sequence space. -/
def seglen (seg : TcpCodec.Tcp) (length : UInt16) : UInt16 :=
  length + (if has seg.flags SYN then 1 else 0) + (if has seg.flags FIN then 1 else 0)

/-- "Some part of the segment should be in the window". -/
def acceptable (rcv : Rcv) (seg : TcpCodec.Tcp) (len : UInt16) : Bool :=
  rcv.wnd ≠ 0 && (inwindow rcv seg.seq || (len ≠ 0 &&
    (inwindow rcv (seg.seq + len.toUInt32 - 1) || seq_within rcv.nxt seg.seq (seg.seq + len.toUInt32 - 1))))

/-- A segment on its way through `tcpiput`. -/
structure Incoming where
  seg : TcpCodec.Tcp
  bp : List Block
  length : UInt16

/-- The SYN of a segment of which `dupcnt` places lie before the window. -/
def dropsyn (seg : TcpCodec.Tcp) (dupcnt : UInt32) : TcpCodec.Tcp × UInt32 :=
  if has seg.flags SYN then
    let flags := seg.flags &&& ~~~SYN
    ({ seg with
      seq := seg.seq + 1
      flags := if seg.urg > 1 then flags else flags &&& ~~~URG
      urg := if seg.urg > 1 then seg.urg - 1 else seg.urg }, dupcnt - 1)
  else (seg, dupcnt)

/-- The part of `tcptrim` that cuts off what lies before the window. -/
def trimdup (rcv : Rcv) (p : Incoming) : Incoming :=
  let dupcnt := rcv.nxt - p.seg.seq
  if toInt dupcnt > 0 then
    let (seg, dupcnt) := dropsyn p.seg dupcnt
    if toInt dupcnt > 0 then
      { seg := { seg with
          seq := seg.seq + dupcnt
          flags := if seg.urg.toNat > dupcnt.toNat then seg.flags else seg.flags &&& ~~~URG
          urg := if seg.urg.toNat > dupcnt.toNat then seg.urg - dupcnt.toUInt16 else 0 }
        bp := pullblock p.bp dupcnt.toUInt16.toNat
        length := p.length - dupcnt.toUInt16 }
    else { p with seg := seg }
  else p

/-- What `tcptrim` returns; "presotto is a boofhead" is a panic. -/
inductive Trim
  | reject
  | panic
  | accept (p : Incoming)

/-- The part of `tcptrim` that cuts off what lies behind the window. -/
def trimexcess (rcv : Rcv) (p : Incoming) : Trim :=
  let excess := p.seg.seq + p.length.toUInt32 - (rcv.nxt + rcv.wnd)
  if toInt excess > 0 then
    let length := p.length - excess.toUInt16
    match trimblock p.bp 0 length.toNat with
    | none => .panic
    | some bp => .accept { seg := { p.seg with flags := p.seg.flags &&& ~~~FIN }, bp := bp, length := length }
  else .accept p

def tcptrim (rcv : Rcv) (p : Incoming) : Trim :=
  let len := seglen p.seg p.length
  if rcv.wnd = 0 ∧ len = 0 ∧ p.seg.seq = rcv.nxt then .accept p
  else if acceptable rcv p.seg len = false then .reject
  else trimexcess rcv (trimdup rcv p)

/-- Where `tcpiput` is. -/
inductive Phase
  | idle
  | arrived (p : Incoming)
  | deliver (p : Incoming)
  | adjacent
  | again (p : Incoming)

/-- The receiving half of a `Tcpctl`, with the number of bytes in the queue `rq`. -/
structure Conn where
  state : State
  rcv : Rcv
  reseq : Resequencer
  qlen : Nat
  phase : Phase

/-- The `w` that `tcprcvwin` arrives at: "do not move right edge of window left". -/
def rcvwnd (c : Conn) : UInt32 :=
  let w := UInt32.ofNat c.reseq.window - UInt32.ofNat c.qlen
  let w := if toInt w < 0 then 0 else w
  if seq_lt (c.rcv.nxt + w) c.rcv.wptr then c.rcv.wptr - c.rcv.nxt else w

/-- The connection offers a window of `w` bytes. -/
def offer (w : UInt32) (blocked : Bool) (c : Conn) : Conn :=
  { c with rcv.blocked := blocked, rcv.wnd := w, rcv.wptr := c.rcv.nxt + w }

def tcprcvwin (c : Conn) : Conn :=
  let w := rcvwnd c
  let narrow := toInt w >>> c.rcv.scale.toNat = 0 ∨
    (c.reseq.window > 4 * c.reseq.mss.toNat ∧ toInt w < (c.reseq.mss.toNat / 4 : Nat))
  offer w (if w ≠ c.rcv.wnd ∧ narrow then true else c.rcv.blocked) c

def localclose (c : Conn) : Conn := { c with state := .Closed, reseq := c.reseq.dumpreseq.2 }

def tcpsetscale (rcvscale : UInt16) (c : Conn) : Conn :=
  tcprcvwin { c with
    rcv.scale := rcvscale.toUInt8
    reseq := { c.reseq with
      qscale := if rcvscale.toNat > Maxqscale then Maxqscale else rcvscale.toNat
      qscale_le := by split <;> omega } }

def procsyn (seg : TcpCodec.Tcp) (c : Conn) : Conn :=
  { c with
    rcv.nxt := seg.seq + 1
    rcv.wptr := seg.seq + 1
    rcv.wsnt := 0
    rcv.urg := seg.seq + 1
    reseq := { c.reseq with
      mss := if seg.mss ≠ 0 ∧ seg.mss < c.reseq.mss then seg.mss else c.reseq.mss
      mss_ne := by
        split
        next h => exact h.1
        next => exact c.reseq.mss_ne } }

/-- What the sending half tells the receiving: whether the ack is of something sent, and
whether all that was sent is acked. -/
structure Sender where
  acked : Bool
  drained : Bool

/-- A segment for the connection, up to where it is cut to the window. -/
def arrive (o : Sender) (p : Incoming) (c : Conn) : Conn :=
  match c.state with
  | .Closed | .Listen => c
  | .Syn_sent =>
    if has p.seg.flags ACK && !o.acked then c
    else if has p.seg.flags RST then (if has p.seg.flags ACK then localclose c else c)
    else if has p.seg.flags SYN then
      let c := procsyn p.seg c
      let c :=
        if has p.seg.flags ACK then tcpsetscale p.seg.ws { c with state := .Established }
        else { c with state := .Syn_received }
      if p.length ≠ 0 || has p.seg.flags FIN then { c with phase := .arrived p } else c
    else c
  | _ => { c with phase := .arrived p }

/-- The segment that `tcptrim` has accepted is put aside, or its delivery begins. -/
def sort (malloc : Bool) (p : Incoming) (c : Conn) : Conn :=
  if p.length ≠ 0 ∧ c.state = .Closed then { c with phase := .idle }
  else if p.seg.seq ≠ c.rcv.nxt ∧ (p.length ≠ 0 ∨ has p.seg.flags SYN ∨ has p.seg.flags FIN) then
    { c with reseq := (c.reseq.addreseq malloc p.seg p.bp p.length).2, phase := .idle }
  else { c with phase := .deliver p }

/-- What `tcpiput` does with the verdict of `tcptrim`; `none` is the panic. -/
def trimmed (o : Sender) (malloc : Bool) (p : Incoming) (c : Conn) : Option Conn :=
  match tcptrim c.rcv p with
  | .panic => none
  | .reject => some { c with
      phase := .idle
      state := if o.drained ∧ c.state = .Closing then .Time_wait else c.state }
  | .accept p => some (sort malloc p c)

/-- "Cut the data to fit the receive window". -/
def cut (o : Sender) (malloc : Bool) (p : Incoming) (c : Conn) : Option Conn :=
  trimmed o malloc p (tcprcvwin c)

/-- The switch over the states that the ack of a segment goes through; `none` when `tcpiput`
stops there. -/
def ackstate (o : Sender) (c : Conn) : Option Conn :=
  match c.state with
  | .Syn_received => if o.acked then some { c with state := .Established } else none
  | .Finwait1 => some (if o.drained then { c with state := .Finwait2 } else c)
  | .Closing => some (if o.drained then { c with state := .Time_wait } else c)
  | .Last_ack => if o.drained then none else some c
  | _ => some c

/-- The urgent pointer, whose bytes are taken out of the data. -/
def urgent (p : Incoming) (c : Conn) : List Block × Conn :=
  if has p.seg.flags URG && p.seg.urg ≠ 0 then
    if seq_gt (p.seg.urg.toUInt32 + p.seg.seq) c.rcv.urg then
      (pullblock p.bp p.seg.urg.toNat, { c with rcv.urg := p.seg.urg.toUInt32 + p.seg.seq })
    else (p.bp, c)
  else if seq_gt c.rcv.nxt c.rcv.urg then (p.bp, { c with rcv.urg := c.rcv.nxt })
  else (p.bp, c)

/-- The data of a segment goes to the receive queue, in the states where somebody reads it. -/
def data (length : UInt16) (bp : List Block) (c : Conn) : Conn :=
  match c.state with
  | .Syn_received | .Established | .Finwait1 =>
    if length = 0 then c
    else { c with qlen := c.qlen + blocklen bp, rcv.nxt := c.rcv.nxt + length.toUInt32 }
  | _ => c

def fin (o : Sender) (c : Conn) : Conn :=
  match c.state with
  | .Syn_received | .Established => { c with rcv.nxt := c.rcv.nxt + 1, state := .Close_wait }
  | .Finwait1 => { c with
      rcv.nxt := c.rcv.nxt + 1
      state := if o.drained then .Time_wait else .Closing }
  | .Finwait2 => { c with rcv.nxt := c.rcv.nxt + 1, state := .Time_wait }
  | _ => c

/-- A round of the loop that delivers. -/
def deliver (o : Sender) (p : Incoming) (c : Conn) : Conn :=
  if has p.seg.flags RST then { localclose c with phase := .idle }
  else if has p.seg.flags ACK = false then { c with phase := .idle }
  else match ackstate o c with
    | none => if c.state = .Last_ack then { localclose c with phase := .idle } else { c with phase := .idle }
    | some c =>
      let (bp, c) := urgent p c
      if p.length ≠ 0 ∧ c.state = .Finwait2 then { c with phase := .idle }
      else
        let c := data p.length bp c
        let c := if has p.seg.flags FIN then fin o c else c
        { c with phase := .adjacent }

/-- "Get next adjacent segment from the resequence queue". -/
def adjacent (c : Conn) : Conn :=
  match c.reseq.getreseq with
  | (none, _) => { c with phase := .idle }
  | (some rp, reseq) =>
    if seq_ge c.rcv.nxt rp.seg.seq = false then { c with phase := .idle }
    else { c with reseq := reseq, phase := .again ⟨rp.seg, rp.bp, rp.length⟩ }

/-- What it does with the verdict on a segment that was put aside. -/
def retrimmed (p : Incoming) (c : Conn) : Option Conn :=
  match tcptrim c.rcv p with
  | .panic => none
  | .reject => some { c with phase := .adjacent }
  | .accept p => some { c with phase := .deliver p }

/-- "Dump/trim any overlapping segments". -/
def recut (p : Incoming) (c : Conn) : Option Conn := retrimmed p (tcprcvwin c)

/-- The next part of `tcpiput`. -/
def tcpiput (o : Sender) (malloc : Bool) (c : Conn) : Option Conn :=
  match c.phase with
  | .idle => some c
  | .arrived p => cut o malloc p c
  | .deliver p => some (deliver o p c)
  | .adjacent => some (adjacent c)
  | .again p => recut p c

/-- A segment with the ack and the window goes out. -/
def sendwin (c : Conn) : Conn := { c with rcv.ackptr := c.rcv.nxt, rcv.wsnt := c.rcv.wptr }

/-- A round of `tcpoutput`, as far as the window goes. -/
def tcpoutput (sent : Bool) (c : Conn) : Conn :=
  match c.state with
  | .Listen | .Closed | .Finwait2 => c
  | _ => if sent then sendwin (tcprcvwin c) else tcprcvwin c

/-- `tcpsendka`, which does not note the window it sends. -/
def tcpsendka (c : Conn) : Conn := tcprcvwin { c with rcv.ackptr := c.rcv.nxt }

def tcpclose (c : Conn) : Conn :=
  match c.state with
  | .Listen | .Closed | .Syn_sent => localclose c
  | .Syn_received | .Established => { c with state := .Finwait1 }
  | .Close_wait => { c with state := .Last_ack }
  | _ => c

/-- `inittcpctl`, up to its `tcpsetscale`. -/
def inittcpctl (mss : UInt16) (h : mss ≠ 0) : Conn where
  state := .Closed
  rcv := ⟨0, 0, 0, 0, 0, 0, false, 0⟩
  reseq := ⟨0, mss, [], 0, 0, by decide, h⟩
  qlen := 0
  phase := .idle

/-- A connection that `tcpstart` has opened, up to its `tcpoutput`. -/
def tcpstart (mss : UInt16) (h : mss ≠ 0) : Conn :=
  { tcpsetscale 0 (inittcpctl mss h) with state := .Syn_sent }

/-- The connection that `tcpincoming` makes of a call in limbo. -/
def tcpincoming (mss : UInt16) (h : mss ≠ 0) (irs : UInt32) (rcvscale : UInt16) : Conn :=
  let c := inittcpctl mss h
  { tcpsetscale rcvscale { c with rcv.nxt := irs + 1, rcv.wptr := irs + 1, rcv.wsnt := 0, rcv.urg := irs + 1 } with
    state := .Established }

end Rcvwin
