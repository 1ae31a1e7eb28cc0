import NixKernel.TcpSeq
import NixKernel.StepSystem

/-!
# The retransmission timer: `ip/tcp.c`

A connection keeps two numbers about its unacknowledged data: `backoff` counts the timeouts since
the last ack that got anywhere, and `backedoff` adds up the milliseconds they took.  `tcptimeout`
gives the connection up once `backedoff` reaches `MAXBACKMS`, and otherwise calls `tcpsettimer`,
which shifts the round trip estimate by `backoff`, all in `int`.

This file has what of a `Tcpctl` these functions read and write, and the functions.  The
congestion window and the queues do not reach the timer and are left out; the round of
`tcpoutput` that a call makes is the caller's to choose.
-/

namespace Rto

open Tcp

def LOGAGAIN : Nat := 3
def LOGDGAIN : Nat := 2
def MSPTICK : Int := 50
def MAX_TIME : Int := 1048576
def MAXBACKMS : Int := 9 * 60 * 1000
def MSL2 : Int := 10
def tcp_irtt : Int := 500
def SYNACK_RXTIMER : UInt32 := 250

inductive State
  | Closed | Listen | Syn_sent | Syn_received | Established | Finwait1 | Finwait2
  | Close_wait | Closing | Last_ack | Time_wait
  deriving DecidableEq

inductive Clock
  | TcptimerOFF | TcptimerON | TcptimerDONE
  deriving DecidableEq

structure Tcptimer where
  state : Clock
  start : Int
  count : Int
  deriving DecidableEq

structure Snd where
  una : UInt32
  nxt : UInt32
  ptr : UInt32
  wnd : UInt32
  wl2 : UInt32
  dupacks : UInt32
  partialack : UInt32
  recovery : Bool
  rxt : UInt32
  deriving DecidableEq

/-- `Tcpctl`; `retran` and `synack` are bits of its `flags`. -/
structure Tcpctl where
  state : State
  snd : Snd
  backoff : UInt8
  backedoff : Int
  retran : Bool
  synack : Bool
  timer : Tcptimer
  rtt_timer : Tcptimer
  rttseq : UInt32
  srtt : Int
  mdev : Int
  sndsyntime : UInt32
  deriving DecidableEq

/-- What `update` reads of a `Tcp`. -/
structure Segment where
  ack : UInt32
  wnd : UInt32
  update : Bool

/-- One round of the loop of `tcpoutput`: how much of the sequence space it sent, whether
that was a segment of `mss` bytes, and whether `ipoput` found a route. -/
structure Round where
  ssize : UInt32
  full : Bool
  routed : Bool

/-- The value of an `int` expression, if an `int` can hold it. -/
def int (x : Int) : Option Int := if -2 ^ 31 ≤ x ∧ x < 2 ^ 31 then some x else none

def tcpgo (t : Tcptimer) : Tcptimer :=
  if t.start = 0 then t else { t with count := t.start, state := .TcptimerON }

def tcphalt (t : Tcptimer) : Tcptimer := { t with state := .TcptimerOFF }

/-- What a tick of `tcpackproc` does to a timer that has no function to call. -/
def tick (t : Tcptimer) : Tcptimer :=
  if t.state = .TcptimerON then
    { t with count := t.count - 1, state := if t.count - 1 = 0 then .TcptimerDONE else .TcptimerON }
  else t

/-- `1 << n`. -/
def backoff (n : UInt8) : Option Int := int (2 ^ n.toNat)

def tcpsettimer (tcb : Tcpctl) : Option Tcpctl := do
  let factor ← backoff tcb.backoff
  let trip ← int (tcb.mdev + tcb.srtt >>> LOGAGAIN)
  let trip ← int (trip + MSPTICK)
  let product ← int (factor * trip)
  let x := product.tdiv MSPTICK
  let x := if x < 300 / MSPTICK then 300 / MSPTICK else if x > 64000 / MSPTICK then 64000 / MSPTICK else x
  some { tcb with timer.start := x }

def localclose (tcb : Tcpctl) : Tcpctl :=
  { tcb with state := .Closed, timer := tcphalt tcb.timer, rtt_timer := tcphalt tcb.rtt_timer }

/-- "Start the transmission timers if there is new data and we expect acknowledges". -/
def starttimers (retransmit full : Bool) (tcb : Tcpctl) : Tcpctl :=
  let tcb := if tcb.timer.state = .TcptimerON then tcb else { tcb with timer := tcpgo tcb.timer }
  if retransmit = false ∧ tcb.rtt_timer.state ≠ .TcptimerON ∧ full = true then
    { tcb with rtt_timer := tcpgo tcb.rtt_timer, rttseq := tcb.snd.ptr }
  else tcb

/-- A round of `tcpoutput`. -/
def tcpoutput (retransmit : Bool) (r : Round) (tcb : Tcpctl) : Tcpctl :=
  match tcb.state with
  | .Listen | .Closed | .Finwait2 => tcb
  | _ =>
    let ptr := tcb.snd.ptr + r.ssize
    let nxt := if seq_gt ptr tcb.snd.nxt then ptr else tcb.snd.nxt
    let tcb := { tcb with snd.ptr := ptr, snd.nxt := nxt }
    let tcb := if r.ssize = 0 then tcb else starttimers retransmit r.full tcb
    if r.routed then tcb else localclose tcb

/-- "Retransmit (at most) one segment at snd.una, preserve cwind & snd.ptr". -/
def tcprxmit (r : Round) (tcb : Tcpctl) : Tcpctl :=
  let sent := tcpoutput true r { tcb with retran := true, snd.ptr := tcb.snd.una }
  { sent with snd.ptr := tcb.snd.ptr }

def tcptimeout (r : Round) (tcb : Tcpctl) : Option Tcpctl :=
  match tcb.state with
  | .Time_wait => some (localclose tcb)
  | .Closed => some tcb
  | _ =>
    let tcb := { tcb with
      backoff := tcb.backoff + 1
      backedoff := tcb.backedoff + tcb.timer.start * MSPTICK }
    let maxback := if tcb.state = .Syn_sent then MAXBACKMS / 2 else MAXBACKMS
    if tcb.backedoff ≥ maxback then some (localclose tcb)
    else (tcpsettimer tcb).map fun tcb =>
      let tcb := tcprxmit r tcb
      let tcb := { tcb with snd.ptr := tcb.snd.una }
      if tcb.snd.recovery then
        { tcb with snd.dupacks := 0, snd.recovery := false, snd.rxt := tcb.snd.nxt }
      else tcb

/-- The part of `update` from the label `recovery`. -/
def recover (r : Round) (seg : Segment) (tcb : Tcpctl) : Tcpctl :=
  if tcb.snd.recovery then tcb
  else if seq_le tcb.snd.rxt seg.ack then
    tcprxmit r { tcb with snd.recovery := true, snd.partialack := 0, snd.rxt := tcb.snd.nxt }
  else tcb

/-- "Catch zero-window updates, update window & recover", and "newreno fast retransmit". -/
def fastretransmit (r : Round) (seg : Segment) (tcb : Tcpctl) : Tcpctl :=
  if tcb.snd.wnd = 0 ∧ seg.wnd > 0 ∧ seq_lt seg.ack tcb.snd.ptr then
    recover r seg { tcb with snd.wnd := seg.wnd }
  else if seg.ack = tcb.snd.una ∧ tcb.snd.una ≠ tcb.snd.nxt then
    let tcb := { tcb with snd.dupacks := tcb.snd.dupacks + 1 }
    if tcb.snd.dupacks = 3 then recover r seg tcb else tcb
  else tcb

/-- "Update window". -/
def window (seg : Segment) (tcb : Tcpctl) : Tcpctl :=
  if seq_gt seg.ack tcb.snd.wl2 ∨ (tcb.snd.wl2 = seg.ack ∧ seg.wnd > tcb.snd.wnd) then
    { tcb with
      snd.dupacks := if tcb.snd.wl2 ≠ seg.ack then 0 else tcb.snd.dupacks
      snd.wnd := seg.wnd
      snd.wl2 := seg.ack }
  else tcb

/-- "Congestion control", as far as the recovery flag goes. -/
def congestion (seg : Segment) (tcb : Tcpctl) : Tcpctl :=
  if tcb.snd.recovery then
    if seq_ge seg.ack tcb.snd.rxt then { tcb with snd.dupacks := 0, snd.recovery := false }
    else { tcb with snd.partialack := tcb.snd.partialack + 1 }
  else tcb

/-- The estimates after a round trip of `rtt` milliseconds. -/
def estimate (rtt : Int) (tcb : Tcpctl) : Option Tcpctl :=
  if tcb.srtt = 0 then do
    let srtt ← int (rtt <<< LOGAGAIN)
    let mdev ← int (rtt <<< LOGDGAIN)
    some { tcb with srtt := srtt, mdev := mdev }
  else do
    let delta ← int (rtt - tcb.srtt >>> LOGAGAIN)
    let srtt ← int (tcb.srtt + delta)
    let delta ← int (delta.natAbs - tcb.mdev >>> LOGDGAIN)
    let mdev ← int (tcb.mdev + delta)
    some { tcb with srtt := if srtt ≤ 0 then 1 else srtt, mdev := if mdev ≤ 0 then 1 else mdev }

/-- How many ticks the round trip timer has run for. -/
def elapsed (tcb : Tcpctl) : Int := tcb.rtt_timer.start - tcb.rtt_timer.count

/-- "Adjust the timers according to the round trip time". -/
def adjust (seg : Segment) (tcb : Tcpctl) : Option Tcpctl :=
  if tcb.rtt_timer.state = .TcptimerON ∧ seq_ge seg.ack tcb.rttseq then
    let tcb := { tcb with rtt_timer := tcphalt tcb.rtt_timer }
    if tcb.retran then some tcb
    else
      let tcb := { tcb with backoff := 0, backedoff := 0 }
      let rtt := if elapsed tcb = 0 then 1 else elapsed tcb
      (int (rtt * MSPTICK)).bind fun rtt => (estimate rtt tcb).bind tcpsettimer
  else some tcb

/-- The part of `update` from the label `done`. -/
def done (r : Round) (seg : Segment) (tcb : Tcpctl) : Tcpctl :=
  let tcb := { tcb with snd.una := seg.ack }
  let tcb := if tcb.snd.recovery then tcprxmit r tcb else tcb
  let tcb :=
    if tcb.snd.una ≠ tcb.snd.nxt then
      if tcb.snd.recovery = false ∨ tcb.snd.partialack = 1 then { tcb with timer := tcpgo tcb.timer } else tcb
    else { tcb with timer := tcphalt tcb.timer }
  { tcb with
    snd.ptr := if seq_lt tcb.snd.ptr tcb.snd.una then tcb.snd.una else tcb.snd.ptr
    retran := tcb.snd.recovery && tcb.retran
    backoff := 0
    backedoff := 0 }

/-- The first part of `update`, before the ack is looked at. -/
def prepare (r : Round) (seg : Segment) (tcb : Tcpctl) : Tcpctl := window seg (fastretransmit r seg tcb)

/-- "Don't let us hangup if sending into a closed window and we're still getting acks". -/
def shut (seg : Segment) (tcb : Tcpctl) : Bool :=
  !seq_gt seg.ack tcb.snd.una && tcb.retran && tcb.snd.wnd == 0

/-- `update`; it may retransmit twice. -/
def update (r r' : Round) (seg : Segment) (tcb : Tcpctl) : Option Tcpctl :=
  if seg.update then some tcb
  else
    let tcb := prepare r seg tcb
    if seq_gt seg.ack tcb.snd.una = false then
      some (if shut seg tcb then { tcb with backedoff := MAXBACKMS / 4 } else tcb)
    else if tcb.synack = false then some (done r' seg { tcb with synack := true })
    else (adjust seg (congestion seg tcb)).map (done r' seg)

def tcpsynackrtt (now : UInt32) (tcb : Tcpctl) : Option Tcpctl := do
  let delta := toInt (now - tcb.sndsyntime)
  let srtt ← int (delta <<< LOGAGAIN)
  let mdev ← int (delta <<< LOGDGAIN)
  some { tcb with srtt := srtt, mdev := mdev, rtt_timer := tcphalt tcb.rtt_timer }

def inittcpctl : Tcpctl where
  state := .Closed
  snd := ⟨0, 0, 0, 0, 0, 0, 0, false, 0⟩
  backoff := 0
  backedoff := 0
  retran := false
  synack := false
  timer := ⟨.TcptimerOFF, tcp_irtt / MSPTICK, 0⟩
  rtt_timer := ⟨.TcptimerOFF, MAX_TIME, 0⟩
  rttseq := 0
  srtt := tcp_irtt <<< LOGAGAIN
  mdev := 0
  sndsyntime := 0

/-- `tcpstart` of an outgoing call, with `tcpsndsyn`, up to its `tcpoutput`. -/
def tcpstart (iss now : UInt32) : Tcpctl :=
  { inittcpctl with
    state := .Syn_sent
    snd := { inittcpctl.snd with wl2 := iss, una := iss, rxt := iss, ptr := iss, nxt := iss }
    rttseq := iss
    sndsyntime := now }

/-- The call in limbo that an ack takes out of it. -/
structure Limbo where
  iss : UInt32
  lastsend : UInt32
  rexmits : UInt8

/-- `tcpincoming`, up to its `tcpsynackrtt`; the control block is a copy of the listener's. -/
def tcpincoming (lp : Limbo) (seg : Segment) : Tcpctl :=
  let next := lp.iss + 1
  { inittcpctl with
    state := .Listen
    snd := { inittcpctl.snd with wl2 := lp.iss, una := next, ptr := next, nxt := next, rxt := next, wnd := seg.wnd }
    synack := true
    rttseq := lp.iss
    sndsyntime := lp.lastsend + lp.rexmits.toUInt32 * SYNACK_RXTIMER }

end Rto
