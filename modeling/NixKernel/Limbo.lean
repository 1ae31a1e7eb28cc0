import NixKernel.HeapChain
import NixKernel.StepSystem

/-!
# Calls in limbo: `ip/tcp.c`

A SYN for a listener puts a call into limbo: an entry of the hash table `lht` that
waits for the ACK of the SYN ACK.  The entries are threaded through their `next`
fields, and the code walks along them with a pointer to the link it came by: a
`Slot`.  A result `none` means that the code follows a freed pointer or loops for
ever.

What the code asks of the rest of the kernel is an argument of the step: the address
`malloc` gives, the outcome of `sndsynack`, the time, random numbers and whether
`Fsnewcall` makes a conversation.  All of it runs with the protocol locked.
-/

namespace TcpLimbo

open HeapChain StepSystem

open Function (update)

abbrev Addr := Nat

abbrev Ip := Fin 16 → UInt8

inductive Version
  | v4
  | v6
  deriving DecidableEq

/-- The fields of a segment that are read here. -/
structure Tcp where
  source : UInt16
  dest : UInt16
  seq : UInt32
  ack : UInt32
  flags : UInt8
  mss : UInt16
  ws : UInt16

def SYN : UInt8 := 0x02
def ACK : UInt8 := 0x10

/-- `struct Limbo`, without its `next`. -/
structure Limbo where
  laddr : Ip
  raddr : Ip
  lport : UInt16
  rport : UInt16
  irs : UInt32
  iss : UInt32
  mss : UInt16
  rcvscale : UInt16
  sndscale : UInt16
  lastsend : UInt32
  version : Version
  rexmits : UInt8

/-- What tells one call from another. -/
structure Call where
  laddr : Ip
  lport : UInt16
  raddr : Ip
  rport : UInt16
  version : Version
  deriving DecidableEq

def Limbo.call (v : Limbo) : Call := ⟨v.laddr, v.lport, v.raddr, v.rport, v.version⟩

/-- What `malloc` returns is zeroed. -/
def zeroed : Limbo := ⟨fun _ => 0, fun _ => 0, 0, 0, 0, 0, 0, 0, 0, 0, .v4, 0⟩

def Maxlimbo : Int := 1000
def NLHT : Nat := 256
def LHTMASK : Nat := NLHT - 1
def SYNACK_RXTIMER : UInt32 := 250

theorem byte14_lt : 14 < 16 := by decide

theorem byte15_lt : 15 < 16 := by decide

def hashipa (a : Ip) (p : UInt16) : Nat := ((a ⟨14, byte14_lt⟩).toNat + (a ⟨15, byte15_lt⟩).toNat + p.toNat) &&& LHTMASK

/-- The limbo part of `Tcppriv`, and the memory of the entries. -/
structure Tcppriv where
  nlimbo : Int
  lht : Nat → Option Addr
  mem : Addr → Option (Cell Addr Limbo)

/-- A `Limbo**`: a head of the table or the `next` field of an entry. -/
inductive Slot
  | head (h : Nat)
  | next (a : Addr)

/-- `*l`. -/
def Tcppriv.load (s : Tcppriv) : Slot → Option (Option Addr)
  | .head h => some (s.lht h)
  | .next a => (s.mem a).map Cell.next

/-- `*l = p`. -/
def Tcppriv.store (s : Tcppriv) (l : Slot) (p : Option Addr) : Tcppriv :=
  match l with
  | .head h => { s with lht := update s.lht h p }
  | .next a => { s with mem := update s.mem a ((s.mem a).map fun c => { c with next := p }) }

/-- Assignments to the fields of an entry. -/
def Tcppriv.set (s : Tcppriv) (a : Addr) (f : Limbo → Limbo) : Tcppriv :=
  { s with mem := update s.mem a ((s.mem a).map fun c => { c with val := f c.val }) }

def Tcppriv.free (s : Tcppriv) (a : Addr) : Tcppriv := { s with mem := update s.mem a none }

/-- The loop that looks for a call: it ends at the link to its entry, or at the last link. -/
def Tcppriv.find (s : Tcppriv) (k : Call) (l : Slot) : Option Slot := do
  match ← s.load l with
  | none => return l
  | some a =>
    let c ← s.mem a
    if c.val.call = k then return l else s |>.find k (.next a)
partial_fixpoint

/-- `*l = lp->next; tpriv->nlimbo--; free(lp)`. -/
def Tcppriv.discard (s : Tcppriv) (l : Slot) (a : Addr) : Option Tcppriv := do
  let c ← s.mem a
  return ({ s.store l c.next with nlimbo := s.nlimbo - 1 }).free a

/-- What `sndsynack` leaves when it succeeds: the window scale of the interface and the
time.  It fails, `none`, when there is no block for the segment. -/
structure Sent where
  scale : UInt16
  now : UInt32

/-- The fields that `sndsynack` sets. -/
def Sent.stamp (t : Sent) (v : Limbo) : Limbo :=
  { v with sndscale := if v.rcvscale = 0 then 0 else t.scale, lastsend := t.now }

/-- The call a segment from `source` to `dest` belongs to. -/
def Tcp.call (seg : Tcp) (source dest : Ip) (version : Version) : Call :=
  ⟨dest, seg.dest, source, seg.source, version⟩

/-- The fields that `limbo` sets for a new call. -/
def Tcp.fill (seg : Tcp) (source dest : Ip) (version : Version) (iss : UInt32) (v : Limbo) : Limbo :=
  { v with
    version := version
    laddr := dest
    raddr := source
    lport := seg.dest
    rport := seg.source
    mss := seg.mss
    rcvscale := seg.ws
    irs := seg.seq
    iss := iss }

/-- The end of `limbo`: the SYN ACK is sent, or the entry goes. -/
def Tcppriv.answer (s : Tcppriv) (l : Slot) (a : Addr) (send : Option Sent) : Option Tcppriv :=
  match send with
  | some t => some (s.set a t.stamp)
  | none => s.discard l a

/-- `limbo`: put a call into limbo and respond with a SYN ACK. -/
def Tcppriv.limbo (s : Tcppriv) (source dest : Ip) (seg : Tcp) (version : Version) (iss : UInt32)
    (malloc : Option Addr) (send : Option Sent) : Option Tcppriv := do
  let h := hashipa source seg.source
  let l ← s.find (seg.call source dest version) (.head h)
  match ← s.load l with
  | some a => (s.set a fun v => { v with irs := seg.seq }).answer l a send
  | none =>
    match if Maxlimbo ≤ s.nlimbo then s.lht h else none with
    | some a =>
      -- the first entry of the chain is used again
      let c ← s.mem a
      let s := s.store (.head h) c.next
      let s := s.store (.next a) none
      ((s.store l (some a)).set a (seg.fill source dest version iss)).answer l a send
    | none =>
      match malloc with
      | none => return s
      | some a =>
        let s := { s with nlimbo := s.nlimbo + 1, mem := update s.mem a (some ⟨none, zeroed⟩) }
        ((s.store l (some a)).set a (seg.fill source dest version iss)).answer l a send

/-- The inner loop of `limborexmit`.  An entry that is not due, or that is not answered
because of an attack, is looked at again until `seen` reaches `nlimbo`. -/
def Tcppriv.rexmitChain (s : Tcppriv) (now : UInt32) (send : Nat → Option Sent) (seen : Nat)
    (l : Slot) : Option (Tcppriv × Nat) := do
  match ← s.load l with
  | none => return (s, seen)
  | some a =>
    if seen < s.nlimbo then
      let c ← s.mem a
      if now - c.val.lastsend < (c.val.rexmits.toUInt32 + 1) * SYNACK_RXTIMER then
        s |>.rexmitChain now send (seen + 1) l
      else
        let s := s.set a fun v => { v with rexmits := v.rexmits + 1 }
        if 5 < c.val.rexmits + 1 then
          let s ← s.discard l a
          s |>.rexmitChain now send (seen + 1) l
        else if 100 < s.nlimbo then s |>.rexmitChain now send (seen + 1) l
        else
          match send seen with
          | none =>
            let s ← s.discard l a
            s |>.rexmitChain now send (seen + 1) l
          | some t => s.set a t.stamp |>.rexmitChain now send (seen + 1) (.next a)
    else return (s, seen)
partial_fixpoint

/-- The outer loop of `limborexmit`. -/
def Tcppriv.rexmitFrom (now : UInt32) (send : Nat → Option Sent) :
    List Nat → Tcppriv → Nat → Option Tcppriv
  | [], s, _ => some s
  | h :: hs, s, seen =>
    if seen < s.nlimbo then do
      let (s, seen) ← s.rexmitChain now send seen (.head h)
      rexmitFrom now send hs s seen
    else some s

/-- `limborexmit`: resend SYN ACKs. -/
def Tcppriv.limborexmit (s : Tcppriv) (now : UInt32) (send : Nat → Option Sent) : Option Tcppriv :=
  Tcppriv.rexmitFrom now send (List.range NLHT) s 0

/-- `limborst`: a call that is reset leaves limbo. -/
def Tcppriv.limborst (s : Tcppriv) (segp : Tcp) (src dst : Ip) (version : Version) :
    Option Tcppriv := do
  let l ← s.find (segp.call src dst version) (.head (hashipa src segp.source))
  match ← s.load l with
  | none => return s
  | some a =>
    let c ← s.mem a
    -- RST can only follow the SYN
    if segp.seq = c.val.irs + 1 then s.discard l a else return s

/-- `tcpincoming`, as far as limbo goes: the entry of an acknowledged call is unlinked, and
freed if `Fsnewcall` makes a conversation of it. -/
def Tcppriv.tcpincoming (s : Tcppriv) (segp : Tcp) (src dst : Ip) (version : Version)
    (newcall : Bool) : Option Tcppriv := do
  if segp.flags &&& SYN ≠ 0 ∨ segp.flags &&& ACK = 0 then return s
  let l ← s.find (segp.call src dst version) (.head (hashipa src segp.source))
  match ← s.load l with
  | none => return s
  | some a =>
    let c ← s.mem a
    if segp.seq ≠ c.val.irs + 1 ∨ segp.ack ≠ c.val.iss + 1 then return s
    else
      let s := { s.store l c.next with nlimbo := s.nlimbo - 1 }
      if newcall then return s.free a else return s

inductive Act
  | limbo (source dest : Ip) (seg : Tcp) (version : Version) (iss : UInt32) (malloc : Option Addr)
      (send : Option Sent)
  | limborst (segp : Tcp) (src dst : Ip) (version : Version)
  | tcpincoming (segp : Tcp) (src dst : Ip) (version : Version) (newcall : Bool)
  | limborexmit (now : UInt32) (send : Nat → Option Sent)

def Tcppriv.act (s : Tcppriv) : Act → Option Tcppriv
  | .limbo source dest seg version iss malloc send => s.limbo source dest seg version iss malloc send
  | .limborst segp src dst version => s.limborst segp src dst version
  | .tcpincoming segp src dst version newcall => s.tcpincoming segp src dst version newcall
  | .limborexmit now send => s.limborexmit now send

/-- `malloc` gives memory that is not in use. -/
def Tcppriv.Allowed (s : Tcppriv) : Act → Prop
  | .limbo _ _ _ _ _ (some a) _ => s.mem a = none
  | _ => True

def Tcppriv.Step (s : Tcppriv) (i : Act) (s' : Tcppriv) : Prop := s.Allowed i ∧ s.act i = some s'

/-- The table as `malloc` leaves it in `tcpinit`. -/
def Tcppriv.Fresh (s : Tcppriv) : Prop := s.nlimbo = 0 ∧ ∀ h, s.lht h = none

/-- The table holds the entries `L`: those of each chain in order, in the chain of their
hash, no call twice; and `nlimbo` counts them. -/
structure Tcppriv.Holds (s : Tcppriv) (L : Nat → List (Addr × Limbo)) : Prop where
  chain : ∀ h < NLHT, Chain s.mem (s.lht h) (L h)
  hash : ∀ h < NLHT, ∀ c ∈ L h, hashipa c.2.raddr c.2.rport = h
  once : ∀ h < NLHT, ((L h).map fun c => c.2.call).Nodup
  count : s.nlimbo = ∑ h ∈ Finset.range NLHT, ((L h).length : Int)

end TcpLimbo
