import NixKernel.OnesSum

/-!
# Putting a TCP header on the wire and taking it off

`htontcp4` and `htontcp6` write a `Tcp` and a prototype header in front of the data, with
the options of a SYN and the checksum over pseudo header, header and data.  `tcpiput` checks
the sum of what arrives, has `ntohtcp4` or `ntohtcp6` read the header back, and trims the
packet to the size that its IP header claims.

A block is its bytes with the memory before and behind them, at an address: the parity of
the address decides how `ptclbsum` takes its sum.  Byte order is a parameter.
-/

namespace TcpCodec

open OnesSum

/-- A `Block`: the bytes from `base` to `rp`, from `rp` to `wp`, and from `wp` to `lim`. -/
structure Block where
  rp : Nat
  head : List UInt8
  data : List UInt8
  tail : List UInt8
deriving Repr

/-- What `allocb(size)` gives: no bytes yet, and room for `size`. -/
abbrev Fresh (size : Nat) := { b : Block // b.data = [] ∧ size ≤ b.tail.length }

/-- `allocb` waits, or panics; it never returns nil. -/
abbrev Allocb := (size : Nat) → Fresh size

/-- What becomes of a call that gives no packet. -/
inductive Drop
  | panic
  | fault
  | csumErrs
  | hlenErrs
  | lenErrs
deriving Repr, DecidableEq

/-- The bytes of a list of blocks. -/
def bytes (bp : List Block) : List UInt8 := (bp.map Block.data).flatten

/-- `blocklen`. -/
def blocklen (bp : List Block) : Nat := (bp.map fun b => b.data.length).sum

/-- The bytes of the first block. -/
def firstlen : List Block → Nat
  | [] => 0
  | b :: _ => b.data.length

/-- `b->wp += n` on a new block: the memory there is what it was. -/
def Fresh.take {size : Nat} (b : Fresh size) (n : Nat) : Block :=
  { b.val with data := b.val.tail.take n, tail := b.val.tail.drop n }

/-- `padblock` for a positive `size`: room for a header before the data. -/
def padblock (al : Allocb) (size : Nat) : List Block → Except Drop (List Block)
  | [] => .error .fault
  | bp :: next =>
    if size ≤ bp.head.length then
      let n := bp.head.length - size
      .ok ({ bp with
        rp := bp.rp - size
        head := bp.head.take n
        data := bp.head.drop n ++ bp.data } :: next)
    else if next.isEmpty then
      let nbp := (al (size + bp.data.length)).val
      .ok [{ nbp with
        data := nbp.tail.take size ++ bp.data
        tail := nbp.tail.drop (size + bp.data.length) }]
    else .error .panic

/-- The copying loop of `pullupblock`, `n` bytes to go. -/
def pullupLoop (bp : Block) (n : Nat) : List Block → Option (List Block)
  | [] => none
  | nbp :: next =>
    let i := nbp.data.length
    if n < i then
      some ({ bp with data := bp.data ++ nbp.data.take n, tail := bp.tail.drop n } ::
        { nbp with
          rp := nbp.rp + n
          head := nbp.head ++ nbp.data.take n
          data := nbp.data.drop n } :: next)
    else
      let bp := { bp with data := bp.data ++ nbp.data, tail := bp.tail.drop i }
      if n - i = 0 then some (bp :: next) else pullupLoop bp (n - i) next

/-- `pullupblock`: nil when there are fewer than `n` bytes.  Also tells whether the first
block is still the one it was. -/
def pullupblock (al : Allocb) (n : Nat) : List Block → Option (Bool × List Block)
  | [] => none
  | bp :: next =>
    if n ≤ bp.data.length then some (true, bp :: next)
    else if bp.data.length + bp.tail.length < n then
      (pullupLoop (al n).val n (bp :: next)).map fun l => (false, l)
    else (pullupLoop bp (n - bp.data.length) next).map fun l => (true, l)

/-- The first loop of `trimblock`: `offset` bytes off the front. -/
def trimFront (offset : Nat) : List Block → List Block
  | [] => []
  | b :: next =>
    if b.data.length < offset then trimFront (offset - b.data.length) next
    else { b with
      rp := b.rp + offset
      head := b.head ++ b.data.take offset
      data := b.data.drop offset } :: next

/-- The second loop of `trimblock`: all but `len` bytes off the end. -/
def trimBack (len : Nat) : List Block → List Block
  | [] => []
  | b :: next =>
    if b.data.length < len then b :: trimBack (len - b.data.length) next
    else [{ b with data := b.data.take len, tail := b.data.drop len ++ b.tail }]

/-- `trimblock`. -/
def trimblock (bp : List Block) (offset len : Nat) : Option (List Block) :=
  if blocklen bp < offset + len then none else some (trimBack len (trimFront offset bp))

/-- `ptclbsum`: the sum of `len` bytes at `addr`, read in the machine's own 16-bit words.
The source's first loop is its second one unrolled eight times. -/
def ptclbsum (little : Bool) (addr : Nat) (l : List UInt8) : Nat :=
  if addr % 2 = 1 then
    let hisum := (l.headD 0).toNat
    let l := l.tail
    let losum := oddByte l
    if little then carry (losum + swapSum l + swap hisum)
    else carry (losum + swap (hisum + pairSum l))
  else
    let hisum := oddByte l
    if little then carry (swap (hisum + swapSum l))
    else carry (pairSum l + swap hisum)

/-- The loop of `ptclcsum` over the blocks: the low and the high sum. -/
def csumLoop (little : Bool) : List (Nat × List UInt8) → Nat → Bool → Nat × Nat → Nat × Nat
  | [], _, _, sums => sums
  | (addr, l) :: next, len, odd, (losum, hisum) =>
    if len = 0 then (losum, hisum)
    else
      let x := min l.length len
      let csum := ptclbsum little addr (l.take x)
      csumLoop little next (len - x) (odd ^^ decide (x % 2 = 1))
        (if odd then (losum, hisum + csum) else (losum + csum, hisum))

/-- "Correct to front of data area". -/
def csumFront (offset : Nat) : List Block → List (Nat × List UInt8)
  | [] => []
  | b :: next =>
    if offset ≠ 0 ∧ b.data.length ≤ offset then csumFront (offset - b.data.length) next
    else (b.rp + offset, b.data.drop offset) :: next.map fun b => (b.rp, b.data)

/-- `ptclcsum`: the complement of the sum of `len` bytes at `offset`. -/
def ptclcsum (little : Bool) (bp : List Block) (offset len : Nat) : Nat :=
  match csumFront offset bp with
  | [] => 0
  | [(addr, l)] => 65535 - ptclbsum little addr (l.take len)
  | l =>
    let (losum, hisum) := csumLoop little l len false (0, 0)
    65535 - carry (losum + swap hisum)

/-- `hnputs`. -/
def hnputs (n : Nat) : Vector UInt8 2 := #v[UInt8.ofNat (n / 2 ^ 8), UInt8.ofNat n]

/-- `hnputl`. -/
def hnputl (n : Nat) : Vector UInt8 4 :=
  #v[UInt8.ofNat (n / 2 ^ 24), UInt8.ofNat (n / 2 ^ 16), UInt8.ofNat (n / 2 ^ 8), UInt8.ofNat n]

/-- `nhgets`. -/
def nhgets (p : Vector UInt8 2) : Nat := p[0].toNat * 2 ^ 8 + p[1].toNat

theorem zero_lt_two : 0 < 2 := by decide

theorem zero_lt_four : 0 < 4 := by decide

theorem one_lt_four : 1 < 4 := by decide

theorem two_lt_four : 2 < 4 := by decide

theorem three_lt_four : 3 < 4 := by decide

/-- `nhgetl`. -/
def nhgetl (p : Vector UInt8 4) : Nat :=
  (getElem p 0 zero_lt_four).toNat * 2 ^ 24 + (getElem p 1 one_lt_four).toNat * 2 ^ 16 +
    (getElem p 2 two_lt_four).toNat * 2 ^ 8 + (getElem p 3 three_lt_four).toNat

def tcp4Iplen : Nat := 8
def tcp4Phdrsize : Nat := 12
def tcp4Hdrsize : Nat := 20
def tcp4Pkt : Nat := tcp4Iplen + tcp4Phdrsize
def tcp6Iplen : Nat := 0
def tcp6Phdrsize : Nat := 40
def tcp6Hdrsize : Nat := 20
def tcp6Pkt : Nat := tcp6Iplen + tcp6Phdrsize

def ipVer4 : UInt8 := 0x40
def ipVer6 : UInt8 := 0x60
def ipTcpproto : UInt8 := 6
def ipMax : Nat := 64 * 1024

def eolopt : UInt8 := 0
def noopopt : UInt8 := 1
def mssopt : UInt8 := 2
def mssLength : Nat := 4
def wsopt : UInt8 := 3
def wsLength : Nat := 3

def SYN : UInt8 := 0x02

/-- The part of both headers that is TCP's own, `tcpsport` to `tcpurg`. -/
structure Tcphdr where
  tcpsport : Vector UInt8 2
  tcpdport : Vector UInt8 2
  tcpseq : Vector UInt8 4
  tcpack : Vector UInt8 4
  tcpflag : Vector UInt8 2
  tcpwin : Vector UInt8 2
  tcpcksum : Vector UInt8 2
  tcpurg : Vector UInt8 2
deriving Repr, DecidableEq

/-- `Tcp4hdr`. -/
structure Tcp4hdr extends Tcphdr where
  vihl : UInt8
  tos : UInt8
  length : Vector UInt8 2
  id : Vector UInt8 2
  frag : Vector UInt8 2
  unused : UInt8
  proto : UInt8
  tcplen : Vector UInt8 2
  tcpsrc : Vector UInt8 4
  tcpdst : Vector UInt8 4
deriving Repr, DecidableEq

/-- `Tcp6hdr`. -/
structure Tcp6hdr extends Tcphdr where
  vcf : Vector UInt8 4
  ploadlen : Vector UInt8 2
  proto : UInt8
  ttl : UInt8
  tcpsrc : Vector UInt8 16
  tcpdst : Vector UInt8 16
deriving Repr, DecidableEq

/-- The bytes of the fields before `tcpcksum`. -/
def Tcphdr.front (h : Tcphdr) : List UInt8 :=
  h.tcpsport.toList ++ h.tcpdport.toList ++ h.tcpseq.toList ++ h.tcpack.toList ++
    h.tcpflag.toList ++ h.tcpwin.toList

def Tcphdr.bytes (h : Tcphdr) : List UInt8 :=
  h.front ++ h.tcpcksum.toList ++ h.tcpurg.toList

/-- The bytes of the IP header before the pseudo header of the checksum. -/
def Tcp4hdr.ip (h : Tcp4hdr) : List UInt8 :=
  [h.vihl, h.tos] ++ h.length.toList ++ h.id.toList ++ h.frag.toList

/-- The bytes of the pseudo header. -/
def Tcp4hdr.pseudo (h : Tcp4hdr) : List UInt8 :=
  [h.unused, h.proto] ++ h.tcplen.toList ++ h.tcpsrc.toList ++ h.tcpdst.toList

def Tcp4hdr.bytes (h : Tcp4hdr) : List UInt8 := h.ip ++ h.pseudo ++ h.toTcphdr.bytes

def Tcp6hdr.pseudo (h : Tcp6hdr) : List UInt8 :=
  h.vcf.toList ++ h.ploadlen.toList ++ [h.proto, h.ttl] ++ h.tcpsrc.toList ++ h.tcpdst.toList

def Tcp6hdr.bytes (h : Tcp6hdr) : List UInt8 := h.pseudo ++ h.toTcphdr.bytes

/-- The next field of `n` bytes, and what is behind it. -/
def field (n : Nat) (l : List UInt8) : Option (Vector UInt8 n × List UInt8) :=
  if h : n ≤ l.length then some (⟨(l.take n).toArray, by simpa using h⟩, l.drop n) else none

/-- The cast of a pointer into a block to a header: some bytes may be missing. -/
def Tcphdr.ofBytes (l : List UInt8) : Option Tcphdr := do
  let (tcpsport, l) ← field 2 l
  let (tcpdport, l) ← field 2 l
  let (tcpseq, l) ← field 4 l
  let (tcpack, l) ← field 4 l
  let (tcpflag, l) ← field 2 l
  let (tcpwin, l) ← field 2 l
  let (tcpcksum, l) ← field 2 l
  let (tcpurg, _) ← field 2 l
  return ⟨tcpsport, tcpdport, tcpseq, tcpack, tcpflag, tcpwin, tcpcksum, tcpurg⟩

def Tcp4hdr.ofBytes (l : List UInt8) : Option Tcp4hdr := do
  let (v, l) ← field 2 l
  let (length, l) ← field 2 l
  let (id, l) ← field 2 l
  let (frag, l) ← field 2 l
  let (p, l) ← field 2 l
  let (tcplen, l) ← field 2 l
  let (tcpsrc, l) ← field 4 l
  let (tcpdst, l) ← field 4 l
  let h ← Tcphdr.ofBytes l
  return ⟨h, v[0], v[1], length, id, frag, p[0], p[1], tcplen, tcpsrc, tcpdst⟩

def Tcp6hdr.ofBytes (l : List UInt8) : Option Tcp6hdr := do
  let (vcf, l) ← field 4 l
  let (ploadlen, l) ← field 2 l
  let (p, l) ← field 2 l
  let (tcpsrc, l) ← field 16 l
  let (tcpdst, l) ← field 16 l
  let h ← Tcphdr.ofBytes l
  return ⟨h, vcf, ploadlen, p[0], p[1], tcpsrc, tcpdst⟩

/-- Bytes written over the front of a packet, which lies in its first block. -/
def store (l : List UInt8) : List Block → List Block
  | [] => []
  | b :: next => { b with data := l ++ b.data.drop l.length } :: next

/-- `Tcp`. -/
structure Tcp where
  source : UInt16
  dest : UInt16
  seq : UInt32
  ack : UInt32
  flags : UInt8
  update : UInt8
  ws : UInt16
  wnd : UInt32
  urg : UInt16
  mss : UInt16
  len : UInt16
deriving Repr, DecidableEq

/-- What the codec reads of `Tcpctl`: `snd.scale` and `nochecksum`. -/
structure Tcpctl where
  scale : Nat
  nochecksum : Bool
deriving Repr, DecidableEq

/-- The prototype header of a conversation, of `sndrst` and of `sndsynack`: cleared, with
version, protocol, ports and addresses filled in. -/
def proto4hdr (tcpsrc tcpdst : Vector UInt8 4) (lport rport : UInt16) : Tcp4hdr :=
  { vihl := ipVer4, tos := 0, length := hnputs 0, id := hnputs 0, frag := hnputs 0, unused := 0
    proto := ipTcpproto, tcplen := hnputs 0, tcpsrc, tcpdst
    tcpsport := hnputs lport.toNat, tcpdport := hnputs rport.toNat
    tcpseq := hnputl 0, tcpack := hnputl 0, tcpflag := hnputs 0, tcpwin := hnputs 0
    tcpcksum := hnputs 0, tcpurg := hnputs 0 }

def proto6hdr (tcpsrc tcpdst : Vector UInt8 16) (lport rport : UInt16) : Tcp6hdr :=
  { vcf := #v[ipVer6, 0, 0, 0], ploadlen := hnputs 0, proto := ipTcpproto, ttl := 0, tcpsrc, tcpdst
    tcpsport := hnputs lport.toNat, tcpdport := hnputs rport.toNat
    tcpseq := hnputl 0, tcpack := hnputl 0, tcpflag := hnputs 0, tcpwin := hnputs 0
    tcpcksum := hnputs 0, tcpurg := hnputs 0 }

/-- `tcph->flags & SYN`. -/
def Tcp.syn (tcph : Tcp) : Bool := tcph.flags &&& SYN ≠ 0

/-- The length of a header with options: `offer` tells whether the window scale is offered. -/
def hdrlen (hdrsize : Nat) (offer : Bool) (tcph : Tcp) : Nat :=
  if tcph.syn then
    let hdrlen := hdrsize
    let hdrlen := if tcph.mss ≠ 0 then hdrlen + mssLength else hdrlen
    let hdrlen := if offer then hdrlen + wsLength else hdrlen
    let optpad := hdrlen % 4
    let optpad := if optpad ≠ 0 then 4 - optpad else optpad
    hdrlen + optpad
  else hdrsize

/-- "always offer.  rfc1323 §2.2" -/
def hdrlen4 (tcph : Tcp) : Nat := hdrlen tcp4Hdrsize true tcph

def hdrlen6 (tcph : Tcp) : Nat := hdrlen tcp6Hdrsize (tcph.ws ≠ 0) tcph

/-- The option bytes, padded to the header's length. -/
def options (offer : Bool) (tcph : Tcp) : List UInt8 :=
  if tcph.syn then
    let opt := if tcph.mss ≠ 0 then
        [mssopt, UInt8.ofNat mssLength] ++ (hnputs tcph.mss.toNat).toList
      else []
    let opt := if offer then opt ++ [wsopt, UInt8.ofNat wsLength, UInt8.ofNat tcph.ws.toNat] else opt
    opt ++ List.replicate ((4 - opt.length % 4) % 4) noopopt
  else []

/-- "copy in variable bits". -/
def Tcphdr.setBits (h : Tcphdr) (tcph : Tcp) (hdrlen : Nat) (tcb : Option Tcpctl) : Tcphdr :=
  { h with
    tcpseq := hnputl tcph.seq.toNat
    tcpack := hnputl tcph.ack.toNat
    tcpflag := hnputs (hdrlen * 2 ^ 10 ||| tcph.flags.toNat)
    tcpwin := hnputs (tcph.wnd.toNat / 2 ^ (tcb.elim 0 Tcpctl.scale))
    tcpurg := hnputs tcph.urg.toNat }

def nochecksum (tcb : Option Tcpctl) : Bool := tcb.elim false Tcpctl.nochecksum

/-- Room for `n` bytes of header before the data, and the length of the data. -/
def headroom (al : Allocb) (n : Nat) : Option (List Block) → Except Drop (Nat × List Block)
  | some data => do
      let bp ← padblock al n data
      return (blocklen data, bp)
  | none => .ok (0, [(al (n + 64)).take n])   -- "the 64 pad is to meet mintu's"

/-- `htontcp4`. -/
def htontcp4 (little : Bool) (al : Allocb) (tcph : Tcp) (data : Option (List Block))
    (ph : Tcp4hdr) (tcb : Option Tcpctl) : Except Drop (List Block) := do
  let hdrlen := hdrlen4 tcph
  let (dlen, data) ← headroom al (hdrlen + tcp4Pkt) data
  let h := { ph with
    toTcphdr := ph.toTcphdr.setBits tcph hdrlen tcb
    tcplen := hnputs (hdrlen + dlen) }
  let data := store (h.bytes ++ options true tcph) data
  let csum := if nochecksum tcb then 0
    else ptclcsum little data tcp4Iplen (hdrlen + dlen + tcp4Phdrsize)
  return store { h with tcpcksum := hnputs csum }.bytes data

/-- `htontcp6`: the version, length and protocol are cleared for the sum and put back. -/
def htontcp6 (little : Bool) (al : Allocb) (tcph : Tcp) (data : Option (List Block))
    (ph : Tcp6hdr) (tcb : Option Tcpctl) : Except Drop (List Block) := do
  let hdrlen := hdrlen6 tcph
  let (dlen, data) ← headroom al (hdrlen + tcp6Pkt) data
  let h := { ph with
    toTcphdr := ph.toTcphdr.setBits tcph hdrlen tcb
    vcf := hnputl (hdrlen + dlen)
    ploadlen := #v[0, 0]
    proto := 0
    ttl := ph.proto }
  let data := store (h.bytes ++ options (tcph.ws ≠ 0) tcph) data
  let csum := if nochecksum tcb then 0
    else ptclcsum little data tcp6Iplen (hdrlen + dlen + tcp6Phdrsize)
  return store { h with
    tcpcksum := hnputs csum
    vcf := #v[ipVer6, 0, 0, 0]
    ploadlen := hnputs (hdrlen + dlen)
    proto := ph.proto }.bytes data

/-- The loop over the options, `n` bytes of them to go. -/
def tcpopt : Nat → Nat → List UInt8 → Tcp → Tcp
  | 0, _, _, tcph => tcph
  | fuel + 1, n, optr, tcph =>
    match optr with
    | [] => tcph
    | kind :: rest =>
      if n = 0 ∨ kind = eolopt then tcph
      else if kind = noopopt then tcpopt fuel (n - 1) rest tcph
      else
        let optlen := (rest.headD 0).toNat
        if optlen < 2 ∨ n < optlen then tcph
        else
          let arg := rest.drop 1
          let tcph :=
            if kind = mssopt ∧ optlen = mssLength then
              { tcph with
                mss := UInt16.ofNat (nhgets #v[arg.headD 0, (arg.drop 1).headD 0]) }
            else if kind = wsopt ∧ optlen = wsLength ∧ (arg.headD 0).toNat ≤ 14 then
              { tcph with ws := UInt16.ofNat (arg.headD 0).toNat }
            else tcph
          tcpopt fuel (n - optlen) (optr.drop optlen) tcph

/-- `ntohtcp4` and `ntohtcp6`, for an IP header of `pkt` bytes whose length field says `len`,
`outer` of these bytes being its own.  After the second `pullupblock` the options are read
through the old pointer. -/
def ntohtcp (al : Allocb) (pkt hdrsize outer len : Nat) (bp : List Block) :
    Except Drop (Tcp × Nat × List Block) :=
  match pullupblock al (pkt + hdrsize) bp with
  | none => .error .hlenErrs
  | some (_, bp) =>
    match Tcphdr.ofBytes ((bytes bp).drop pkt) with
    | none => .error .fault
    | some h =>
      let hdrlen := (h.tcpflag[0].toNat / 2 ^ 2) / 4 * 4
      if hdrlen < hdrsize then .error .hlenErrs
      else
        let tcph : Tcp :=
          { source := UInt16.ofNat (nhgets h.tcpsport)
            dest := UInt16.ofNat (nhgets h.tcpdport)
            seq := UInt32.ofNat (nhgetl h.tcpseq)
            ack := UInt32.ofNat (nhgetl h.tcpack)
            flags := h.tcpflag[1]
            update := 0
            ws := 0
            wnd := UInt32.ofNat (nhgets h.tcpwin)
            urg := UInt16.ofNat (nhgets h.tcpurg)
            mss := 0
            len := UInt16.ofNat len - UInt16.ofNat (hdrlen + outer) }
        match pullupblock al (hdrlen + pkt) bp with
        | none => .error .hlenErrs
        | some (false, _) => .error .fault
        | some (true, bp) =>
          let n := hdrlen - hdrsize
          .ok (tcpopt n n ((bytes bp).drop (pkt + hdrsize)) tcph, hdrlen, bp)

/-- `ntohtcp4`. -/
def ntohtcp4 (al : Allocb) (length : Nat) : List Block → Except Drop (Tcp × Nat × List Block) :=
  ntohtcp al tcp4Pkt tcp4Hdrsize tcp4Pkt length

/-- `ntohtcp6`. -/
def ntohtcp6 (al : Allocb) (length : Nat) : List Block → Except Drop (Tcp × Nat × List Block) :=
  ntohtcp al tcp6Pkt tcp6Hdrsize 0 length

/-- What `tcpiput` has found before it looks for the conversation. -/
structure Segment where
  source : List UInt8
  dest : List UInt8
  seg : Tcp
  hdrlen : Nat
  bp : List Block
deriving Repr

def v4prefix : List UInt8 := [0, 0, 0, 0, 0, 0, 0, 0, 0, 0, 0xff, 0xff]

/-- `v4tov6`. -/
def v4tov6 (v4 : Vector UInt8 4) : List UInt8 := v4prefix ++ v4.toList

/-- `a - b` of two `ushort`s, kept in one. -/
def ushortSub (a b : Nat) : Nat := (a + 2 ^ 16 - b) % 2 ^ 16

/-- The header over which `tcpiput` takes the sum. -/
def Tcp4hdr.forSum (h : Tcp4hdr) : Tcp4hdr :=
  { h with unused := 0, tcplen := hnputs (ushortSub (nhgets h.length) tcp4Pkt) }

/-- The same for IPv6, with `length` bytes of TCP; `htontcp6` sums over it, too. -/
def Tcp6hdr.forSum (h : Tcp6hdr) (length : Nat) : Tcp6hdr :=
  { h with ploadlen := #v[0, 0], proto := 0, ttl := h.proto, vcf := hnputl length }

/-- "trim the packet to the size claimed by the datagram", once the header has been read:
`outer` bytes of the claimed `length` are the IP header's own. -/
def trimmed (source dest : List UInt8) (pkt outer length : Nat) :
    Except Drop (Tcp × Nat × List Block) → Except Drop Segment
  | .error e => .error e
  | .ok (seg, hdrlen, bp) =>
    match trimblock bp (hdrlen + pkt) (ushortSub length (hdrlen + outer)) with
    | none => .error .lenErrs
    | some bp => .ok ⟨source, dest, seg, hdrlen, bp⟩

/-- The IPv4 half of `tcpiput`. -/
def tcpiput4 (little : Bool) (al : Allocb) (btcpck : Bool) (h4 : Tcp4hdr) (bp : List Block) :
    Except Drop Segment :=
  let length := nhgets h4.length
  let bp := store h4.forSum.bytes bp
  if !btcpck ∧ h4.tcpcksum ≠ #v[0, 0] ∧
      ptclcsum little bp tcp4Iplen (length - tcp4Iplen) ≠ 0 then
    .error .csumErrs
  else
    trimmed (v4tov6 h4.tcpsrc) (v4tov6 h4.tcpdst) tcp4Pkt tcp4Pkt length (ntohtcp4 al length bp)

/-- The IPv6 half of `tcpiput`. -/
def tcpiput6 (little : Bool) (al : Allocb) (h6 : Tcp6hdr) (bp : List Block) :
    Except Drop Segment :=
  let length := nhgets h6.ploadlen
  let bp := store (h6.forSum length).bytes bp
  if h6.tcpcksum ≠ #v[0, 0] ∧ ptclcsum little bp tcp6Iplen (length + tcp6Phdrsize) ≠ 0 then
    .error .csumErrs
  else
    let bp := store { h6 with vcf := hnputl length, ploadlen := hnputs length }.bytes bp
    trimmed h6.tcpsrc.toList h6.tcpdst.toList tcp6Pkt 0 length (ntohtcp6 al length bp)

/-- `tcpiput`, up to the search for the conversation.  `btcpck` is the flag of a block whose
sum the hardware has checked. -/
def tcpiput (little : Bool) (al : Allocb) (btcpck : Bool) (bp : List Block) :
    Except Drop Segment :=
  match bp with
  | [] => .error .fault
  | b :: _ =>
    match b.data with
    | [] => .error .fault
    | vihl :: _ =>
      if vihl &&& 0xF0 = ipVer4 then
        match Tcp4hdr.ofBytes b.data with
        | none => .error .fault
        | some h4 => tcpiput4 little al btcpck h4 bp
      else
        match Tcp6hdr.ofBytes b.data with
        | none => .error .fault
        | some h6 => tcpiput6 little al h6 bp

end TcpCodec
