import NixKernel.StepSystem

/-!
# IL: `ip/il.c`

A message that is written gets the next id, goes out as a data packet, and a copy of it stays on
the list of unacknowledged blocks until an acknowledgement for its id or a later one comes.  The
receiver sorts the messages of its window onto a list, and passes those that are next to its
`rq`.  A query, sent when an acknowledgement is late, is answered by a state message; it tells
the sender whether to send its first unacknowledged message again, as a dataquery.

A packet is what the peer can read of it, and a block its id and its data; the checks of
`iliput` that hold of every packet sent by the peer are left out, and so is the measurement of
round trips.  The packets that a side has sent stay: the network delivers any of them, any
number of times, in any order, or never.  What the clock says is given with each look at it.
Ids are numbers that do not wrap.  Blocks of more than 64K are dropped by `ipoput4`.
-/

namespace Il

open Function (update)

abbrev Msg := List UInt8

def headers : Nat := 20 + 18
def ipMax : Nat := 64 * 1024
def Nqt : Nat := 8
def MaxRexmit : Nat := 16
def Defaultwin : Nat := 20

/-- Connection state. -/
inductive State
  | closed
  | syncer
  | syncee
  | established
  | listening
  | closing
deriving Repr, DecidableEq

/-- Packet types. -/
inductive Iltype
  | sync
  | data
  | dataquery
  | ack
  | query
  | state
  | close
deriving Repr, DecidableEq

structure Pkt where
  type : Iltype
  id : Nat
  ack : Nat
  spec : Nat
  data : Msg
deriving Repr, DecidableEq

/-- A block on one of the lists. -/
structure Blk where
  id : Nat
  data : Msg
deriving Repr, DecidableEq

def Blk.len (b : Blk) : Nat := headers + b.data.length

/-- An `Ilcb` and its `Conv`.  `rq` is all that has been passed to the read queue, `hungup` says
that this queue is closed, `out` is all that has been sent.  `kicking` are the messages in
`ilkick` behind its first look at the state.  Three fields are for the record: `wrote`, the
messages that have got an id; `acked`, the last id acknowledged; `freed`, whether `ilfreeq` has
been called. -/
structure Conv where
  state : State
  unacked : List Blk
  unackedbytes : Nat
  outoforder : List Blk
  next : Nat
  recvd : Nat
  acksent : Nat
  start : Nat
  rstart : Nat
  window : Nat
  rexmit : Nat
  qt : Nat → Nat
  qtx : Nat
  hungup : Bool
  rq : List Msg
  out : List Pkt
  kicking : List Msg
  wrote : List Msg
  acked : Nat
  freed : Bool

/-- `ipoput4`. -/
def Conv.ipoput (c : Conv) (p : Pkt) : Conv :=
  if headers + p.data.length ≥ ipMax then c else { c with out := c.out ++ [p] }

/-- `ilsendctl` without a packet to answer. -/
def Conv.sendctl (c : Conv) (type : Iltype) (id ack spec : Nat) : Conv :=
  Conv.ipoput { c with acksent := ack } ⟨type, id, ack, spec, []⟩

/-- `ilreject`, and `ilsendctl` with a packet to answer. -/
def Conv.reject (c : Conv) (inih : Pkt) : Conv := c.ipoput ⟨.close, inih.ack, inih.id, 0, []⟩

/-- The first lines of `ilkick`. -/
def Conv.kick (c : Conv) (m : Msg) : Conv :=
  match c.state with
  | .closed | .listening | .closing => { c with hungup := true }
  | _ => { c with kicking := m :: c.kicking }

/-- `ilackq`. -/
def Conv.ackq (c : Conv) (b : Blk) : Conv :=
  { c with unacked := c.unacked ++ [b], unackedbytes := c.unackedbytes + b.len }

/-- The rest of `ilkick`. -/
def Conv.kicked (c : Conv) (m : Msg) : Conv :=
  let c' := { c with
    next := c.next + 1
    acksent := c.recvd
    kicking := c.kicking.erase m
    wrote := c.wrote ++ [m] }
  (c'.ackq ⟨c.next, m⟩).ipoput ⟨.data, c.next, c.recvd, 0, m⟩

/-- `ilnextqt`. -/
def Conv.nextqt (c : Conv) : Conv × Nat :=
  let x := if c.qtx + 1 > Nqt then 1 else c.qtx + 1
  ({ c with
    qtx := x
    qt := update (update c.qt x (c.next - 1)) 0 (c.next - 1) }, x)

/-- `ilbackoff`, the times apart. -/
def Conv.backoff (c : Conv) : Conv := { c with rexmit := c.rexmit + 1 }

/-- `ilrexmit`. -/
def Conv.ilrexmit (c : Conv) : Conv :=
  match c.unacked with
  | [] => c
  | b :: _ => (c.nextqt.1.backoff).ipoput ⟨.dataquery, b.id, c.recvd, c.nextqt.2, b.data⟩

/-- A query. -/
def Conv.query (c : Conv) : Conv := c.nextqt.1.sendctl .query c.next c.recvd c.nextqt.2

/-- The loop of `ilackto`. -/
def Conv.release (ackto : Nat) : List Blk → Conv → Conv
  | [], c => { c with unacked := [] }
  | b :: l, c =>
    if ackto < b.id then { c with unacked := b :: l }
    else Conv.release ackto l { c with unackedbytes := c.unackedbytes - b.len, rexmit := 0 }

/-- `ilackto`. -/
def Conv.ilackto (c : Conv) (ackto : Nat) : Conv :=
  Conv.release ackto c.unacked { c with acked := max c.acked ackto }

/-- The place of a block on the list of `iloutoforder`; a duplicate is dropped. -/
def insert (b : Blk) : List Blk → List Blk
  | [] => [b]
  | f :: l =>
    if b.id < f.id then b :: f :: l
    else if b.id = f.id then f :: l
    else f :: insert b l

/-- `iloutoforder`. -/
def Conv.iloutoforder (c : Conv) (b : Blk) : Conv :=
  if b.id ≤ c.recvd ∨ b.id > c.recvd + c.window then c
  else { c with outoforder := insert b c.outoforder }

/-- `qpassnolim`. -/
def Conv.pass (c : Conv) (m : Msg) : Conv := if c.hungup then c else { c with rq := c.rq ++ [m] }

/-- The loop of `ilpullup`. -/
def Conv.pull : List Blk → Conv → Conv
  | [], c => { c with outoforder := [] }
  | b :: l, c =>
    if b.id ≤ c.recvd then Conv.pull l c
    else if b.id ≠ c.recvd + 1 then { c with outoforder := b :: l }
    else Conv.pull l (Conv.pass { c with recvd := b.id } b.data)

/-- `ilpullup`. -/
def Conv.ilpullup (c : Conv) : Conv :=
  if c.state ≠ .established then c else Conv.pull c.outoforder c

/-- `ilhangup`. -/
def Conv.ilhangup (c : Conv) : Conv := { c with state := .closed, hungup := true }

/-- `illocalclose`. -/
def Conv.localclose (c : Conv) : Conv := { c with state := .closed }

/-- `ilfreeq`. -/
def Conv.ilfreeq (c : Conv) : Conv := { c with unacked := [], outoforder := [], freed := true }

/-- `_ilprocess` in the state `Ilestablished`; `full` says that there is no window left in the
read queue. -/
def Conv.established (c : Conv) (p : Pkt) (full : Bool) : Conv :=
  match p.type with
  | .sync => if p.id ≠ c.rstart then c.ilhangup else c.sendctl .ack c.next c.rstart 0
  | .data =>
    if full then c else ((c.ilackto p.ack).iloutoforder ⟨p.id, p.data⟩).ilpullup
  | .dataquery =>
    let c := ((c.ilackto p.ack).iloutoforder ⟨p.id, p.data⟩).ilpullup
    c.sendctl .state c.next c.recvd p.spec
  | .ack => c.ilackto p.ack
  | .query =>
    let c := c.ilackto p.ack
    c.sendctl .state c.next c.recvd p.spec
  | .state =>
    let c := c.ilackto p.ack
    if c.qt (if p.spec > Nqt then 0 else p.spec) > p.ack then c.ilrexmit else c
  | .close =>
    if p.ack < c.start ∨ p.ack > c.next then c
    else
      Conv.ilfreeq { Conv.sendctl { c with recvd := p.id } .close c.next p.id 0 with state := .closing }

/-- `ic->state = Ilestablished` in the state `Ilsyncee`. -/
def Conv.establish (c : Conv) : Conv := { c with state := .established, rexmit := 0 }

/-- `_ilprocess`. -/
def Conv.ilprocess (c : Conv) (p : Pkt) (full : Bool) : Conv :=
  match c.state with
  | .closed | .listening => c
  | .syncer =>
    match p.type with
    | .sync =>
      if p.ack ≠ c.start then c.ilhangup
      else
        Conv.ilpullup (Conv.establish
          (Conv.sendctl { c with recvd := p.id, rstart := p.id } .ack c.next p.id 0))
    | .close => if p.ack = c.start then c.ilhangup else c
    | _ => c
  | .syncee =>
    match p.type with
    | .sync =>
      if p.id ≠ c.rstart ∨ p.ack ≠ 0 then c.localclose
      else Conv.sendctl { c with recvd := p.id } .sync c.start p.id 0
    | .ack => if p.ack = c.start then c.establish.ilpullup else c
    | .data => if p.ack = c.start then c.establish.established p full else c
    | .close => if p.ack = c.start then c.ilhangup else c
    | _ => c
  | .established => c.established p full
  | .closing =>
    match p.type with
    | .close =>
      let c := Conv.sendctl { c with recvd := p.id } .close c.next p.id 0
      if p.ack = c.next then c.ilhangup else c
    | _ => c

/-- `Fsnewcall` and `ilcbinit`: the conversation that a listener gets. -/
def Conv.newcall (c : Conv) (start rstart : Nat) : Conv :=
  { c with
    state := .syncee
    unacked := []
    unackedbytes := 0
    outoforder := []
    next := start + 1
    recvd := 0
    start
    rstart
    window := Defaultwin
    rexmit := 0
    qtx := 1
    hungup := false
    rq := []
    kicking := []
    wrote := []
    acked := start
    freed := false }

/-- `iliput` behind its checks.  A conversation that is closed is not found.  `call` is the
start id of a new call, if there can be one. -/
def Conv.iliput (c : Conv) (p : Pkt) (full : Bool) (call : Option Nat) : Conv :=
  match c.state with
  | .closed => if p.type = .sync then c.reject p else c
  | .listening =>
    if p.type ≠ .sync then c.reject p
    else
      match call with
      | none => c.reject p
      | some start => (c.newcall start p.id).ilprocess p full
  | _ => c.ilprocess p full

/-- `ilclose`. -/
def Conv.ilclose (c : Conv) : Conv :=
  let c := { c with hungup := true }
  match c.state with
  | .closing | .closed => c.ilfreeq
  | .listening => c.localclose.ilfreeq
  | _ => (Conv.sendctl { c with state := .closing } .close c.next c.recvd 0).ilfreeq

/-- What `later` says of the times of a conversation. -/
structure Late where
  ack : Bool
  query : Bool
  death : Bool
  timeout : Bool
deriving Repr, DecidableEq

/-- "if(ic->recvd != ic->acksent) if(later(NOW, ic->acktime, "acktime"))" -/
def Conv.tickack (c : Conv) (late : Late) : Conv :=
  if c.recvd ≠ c.acksent ∧ late.ack then c.sendctl .ack c.next c.recvd 0 else c

/-- "if(ic->unacked != nil) if(later(NOW, ic->timeout, "timeout2"))" -/
def Conv.tickquery (c : Conv) (late : Late) : Conv :=
  if c.unacked ≠ [] ∧ late.timeout then
    if c.rexmit > MaxRexmit then c.ilhangup else c.query.backoff
  else c

/-- What `ilackproc` does for a conversation. -/
def Conv.tick (c : Conv) (late : Late) : Conv :=
  match c.state with
  | .closed | .listening => c
  | .closing =>
    if late.timeout then
      if c.rexmit > MaxRexmit then c.ilhangup
      else (c.sendctl .close c.next c.recvd 0).backoff
    else c
  | .syncee | .syncer =>
    if late.timeout then
      if c.rexmit > MaxRexmit then c.ilhangup
      else (c.sendctl .sync c.start c.recvd 0).backoff
    else c
  | .established =>
    let c := c.tickack late
    if late.query then
      if late.death then c.ilhangup else c.query.tickquery late
    else c.tickquery late

/-- `iladvise`. -/
def Conv.advise (c : Conv) : Conv := if c.state = .syncer then c.ilhangup else c

/-- The two sides. -/
abbrev Sys := Bool → Conv

inductive Op
  | write (i : Bool) (m : Msg)
  | kick (i : Bool) (m : Msg)
  | recv (i : Bool) (p : Pkt) (full : Bool) (call : Option Nat)
  | tick (i : Bool) (late : Late)
  | close (i : Bool)
  | advise (i : Bool)
deriving Repr, DecidableEq

def act (s : Sys) : Op → Option Sys
  | .write i m => some (update s i ((s i).kick m))
  | .kick i m => if m ∈ (s i).kicking then some (update s i ((s i).kicked m)) else none
  | .recv i p full call =>
    if p ∈ (s !i).out then some (update s i ((s i).iliput p full call)) else none
  | .tick i late => some (update s i ((s i).tick late))
  | .close i => some (update s i (s i).ilclose)
  | .advise i => some (update s i (s i).advise)

/-- Nothing has been written, sent or received but for a first sync. -/
structure Blank (c : Conv) : Prop where
  unacked : c.unacked = []
  unackedbytes : c.unackedbytes = 0
  outoforder : c.outoforder = []
  next : c.next = c.start + 1
  recvd : c.recvd = 0
  rq : c.rq = []
  kicking : c.kicking = []
  wrote : c.wrote = []
  acked : c.acked = c.start
  freed : c.freed = false
  hungup : c.hungup = false

/-- Each side has called `ilconnect`, or listens; a side that listens has no conversation yet. -/
def Start (s : Sys) : Prop :=
  ∀ i, Blank (s i) ∧
    ((s i).state = .syncer ∧ (s i).out = [⟨.sync, (s i).start, 0, 0, []⟩] ∨
      (s i).state = .listening ∧ (s i).out = [] ∧ (s i).start = 0)

/-- The states that runs reach. -/
def Reach : Sys → Prop := StepSystem.Reach Start fun s op t => act s op = some t

/-- The messages of a side as blocks, in the order of their ids. -/
def blocks : Nat → List Msg → List Blk
  | _, [] => []
  | id, m :: l => ⟨id, m⟩ :: blocks (id + 1) l

/-- The messages that have been written. -/
def Conv.messages (c : Conv) : List Blk := blocks (c.start + 1) c.wrote

end Il
