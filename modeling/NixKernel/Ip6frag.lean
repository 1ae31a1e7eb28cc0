import NixKernel.Ipfrag

/-!
# Fragmenting and reassembling IPv6 packets

`ipoput6` from the route on, `unfraglen`, and `procxtns` with `ip6reassemble`.  A packet is
its header and the bytes behind it: the rest of the first block and the further blocks.  The
extension headers are bytes at the start of these, and so is the fragment header; `unfraglen`
walks over them and rewrites them in place.

As for IPv4, `medialen` is what `ifc->maxtu - ifc->m->hsize` gives for the interface found,
and nothing when there is none, it cannot be used or the source address is tentative.  A
read or a write behind the end of a block is `overrun`.
-/

namespace Ip6

open Reassembly
open Ip4 (hnputs copyUp skipHdr ipMax)

def ip6hdr : Nat := 40
def ip6fhdr : Nat := 8

/-- Next header values: hop-by-hop options, routing header, fragment header. -/
def hbh : UInt8 := 0
def rh : UInt8 := 43
def fh : UInt8 := 44

/-- `struct Ip6hdr`; `flow` is `vcf[2]` and `vcf[3]`. -/
structure Hdr where
  vcf0 : UInt8
  vcf1 : UInt8
  flow : Nat
  ploadlen : Nat
  proto : UInt8
  ttl : Nat
  src : Nat
  dst : Nat
  deriving DecidableEq, Repr

/-- A packet: its header and the blocks of bytes behind it. -/
structure Packet where
  hdr : Hdr
  blocks : List (List UInt8)
  deriving DecidableEq, Repr

/-- The bytes of the first block behind the header. -/
def Packet.first (p : Packet) : List UInt8 := p.blocks.headD []

/-- The byte `q` points to in `unfraglen`: `proto`, or the first byte of an extension
header. -/
def Packet.setNext (p : Packet) (q : Option Nat) (v : UInt8) : Packet :=
  match q with
  | none => { p with hdr := { p.hdr with proto := v } }
  | some j => { p with blocks := p.first.set j v :: p.blocks.tail }

/-- The loop of `unfraglen` over hop-by-hop and routing headers: the value of `*nexthdr`,
`q`, and the bytes walked over.  `none` when it leaves the block, which it does after
`b.length` turns at the latest. -/
def skipExt (b : List UInt8) : Nat → UInt8 → Option Nat → Nat → Option (UInt8 × Option Nat × Nat)
  | 0, _, _, _ => none
  | fuel + 1, nexthdr, q, p =>
    if nexthdr = hbh ∨ nexthdr = rh then
      match b[p]?, b[p + 1]? with
      | some n, some l => skipExt b fuel n (some p) (p + (l.toNat + 1) * 8)
      | _, _ => none
    else some (nexthdr, q, p)

/-- `unfraglen`: "length of Unfragmentable part", the next header value behind it, and the
packet with the byte `*q` rewritten. -/
def unfraglen (bp : Packet) (setfh : Bool) : Option (Nat × UInt8 × Packet) := do
  let (nexthdr, q, e) ← skipExt bp.first (bp.first.length + 1) bp.hdr.proto none 0
  let bp ← if nexthdr = fh then bp.first[e]?.map (bp.setNext q) else some bp
  let bp := if setfh then bp.setNext q fh else bp
  return (ip6hdr + e, nexthdr, bp)

/-- `struct Fraghdr6`. -/
def fraghdr (nexthdr : UInt8) (lid fragoff : Nat) (morefrags : Bool) : List UInt8 :=
  [nexthdr, 0, UInt8.ofNat (fragoff / 2 ^ 8),
    UInt8.ofNat fragoff ||| (if morefrags then 1 else 0),
    UInt8.ofNat (lid / 2 ^ 24), UInt8.ofNat (lid / 2 ^ 16), UInt8.ofNat (lid / 2 ^ 8),
    UInt8.ofNat lid]

/-- The loop of `ipoput6`: the fragments sent, and whether the data sufficed.  `ext` are the
extension headers, which every fragment gets. -/
def fragLoop (eh : Hdr) (ext : List UInt8) (nexthdr : UInt8) (lid seglen flen : Nat) :
    Nat → Nat → List (List UInt8) → List Packet × Bool
  | 0, _, _ => ([], true)
  | fuel + 1, fragoff, xp =>
    if fragoff < flen then
      let morefrags := !decide (flen ≤ fragoff + seglen)
      let seglen := if morefrags then seglen else flen - fragoff
      match copyUp seglen xp with
      | none => ([], false)
      | some (bytes, xp) =>
        let (ps, ok) := fragLoop eh ext nexthdr lid seglen flen fuel (fragoff + seglen) xp
        (⟨{ eh with ploadlen := hnputs (seglen + ip6fhdr) },
          [ext ++ fraghdr nexthdr lid fragoff morefrags ++ bytes]⟩ :: ps, ok)
    else ([], true)

/-- What `ipoput6` does with a packet. -/
inductive Oput
  | discarded
  | overrun
  | sent (p : Packet)
  | fragmented (ps : List Packet)
  | short (ps : List Packet)
  deriving DecidableEq, Repr

/-- The number of bytes to write, with the header.  A gated packet may have padding. -/
def outLen (bp : Packet) (gating : Bool) : Nat :=
  let len := ip6hdr + bp.blocks.flatten.length
  if gating then min (bp.hdr.ploadlen + ip6hdr) len else len

/-- "Fill out the ip header". -/
def outHdr (h : Hdr) (gating : Bool) (ttl tos : Nat) : Hdr :=
  let eh := { h with ttl }
  if gating then eh
  else { eh with vcf0 := 0x60 ||| UInt8.ofNat (tos / 2 ^ 4), vcf1 := UInt8.ofNat (tos * 2 ^ 4) }

/-- `ipoput6`; `reassemble` is the flag of the interface and `id6` the counter `ip->id6`
before the call. -/
def ipoput6 (medialen : Option Int) (reassemble : Int) (id6 : Nat) (bp : Packet) (gating : Bool)
    (ttl tos : Nat) : Oput :=
  if gating ∧ ip6hdr + bp.blocks.flatten.length < bp.hdr.ploadlen then .discarded
  else
    let len := outLen bp gating
    if ipMax ≤ len then .discarded
    else
      match medialen with
      | none => .discarded
      | some medialen =>
        let bp : Packet := { bp with hdr := outHdr bp.hdr gating ttl tos }
        if len ≤ medialen then
          .sent { bp with hdr := { bp.hdr with ploadlen := hnputs (len - ip6hdr) } }
        else if gating ∧ reassemble ≤ 0 then .discarded
        else
          match unfraglen bp true with
          | none => .overrun
          | some (uflen, nexthdr, bp) =>
            let seglen := (medialen - (uflen + ip6fhdr)) / 8 * 8
            if medialen < uflen then .discarded
            else if seglen < 8 then .discarded
            else if bp.first.length < uflen - ip6hdr then .overrun
            else
              let ext := bp.first.take (uflen - ip6hdr)
              let flen := len - uflen
              let (ps, ok) := fragLoop bp.hdr ext nexthdr (id6 + 1) seglen.toNat flen flen 0
                (skipHdr (bp.first.drop (uflen - ip6hdr) :: bp.blocks.tail))
              if ok then .fragmented ps else .short ps

/-- The queue of a fragment: `src`, `dst` and `id`. -/
abbrev Key := Nat × Nat × Nat

/-- A block on the queue: its header and the bytes behind. -/
structure Blk where
  hdr : Hdr
  bytes : List UInt8
  deriving DecidableEq, Repr

/-- `nhgets(fraghdr->offsetRM)` of the fragment header behind `e` bytes. -/
def offsetRM (e : Nat) (b : List UInt8) : Nat :=
  (b.getD (e + 2) 0).toNat * 2 ^ 8 + (b.getD (e + 3) 0).toNat

/-- `nhgetl(fraghdr->id)`. -/
def fragId (e : Nat) (b : List UInt8) : Nat :=
  (((b.getD (e + 4) 0).toNat * 2 ^ 8 + (b.getD (e + 5) 0).toNat) * 2 ^ 8 +
    (b.getD (e + 6) 0).toNat) * 2 ^ 8 + (b.getD (e + 7) 0).toNat

/-- `fraghdr->offsetRM[1] & 1`. -/
def Blk.more (e : Nat) (b : Blk) : Bool := (b.bytes.getD (e + 3) 0).toNat % 2 = 1

/-- "move up ih hdrs": the unfragmentable part, without the fragment header. -/
def Blk.up (e n : Nat) (b : Blk) : Blk :=
  { b with bytes := b.bytes.take e ++ b.bytes.drop (e + n) }

/-- What `ip6reassemble` reads from a packet with `e` bytes of extension headers, once it is
one block.  `foff` and `flen` are `ushort`. -/
def view (e : Nat) (p : Packet) : View Key Blk where
  key := (p.hdr.src, p.hdr.dst, fragId e p.blocks.flatten)
  single := offsetRM e p.blocks.flatten = 0
  frag :=
    { foff := offsetRM e p.blocks.flatten / 8 * 8
      flen := (((p.hdr.ploadlen + ip6hdr : Nat) - (ip6hdr + e) - ip6fhdr : Int) % 2 ^ 16).toNat
      blk := ⟨p.hdr, p.blocks.flatten⟩ }

/-- "Pullup all the fragment headers and return a complete packet"; the first one loses its
fragment header.  `none` when a block is shorter than it says. -/
def join (e : Nat) : List (Frag Blk) → Option Packet
  | [] => none
  | b :: t =>
    let bytes := b.blk.bytes.take e ++ b.blk.bytes.drop (e + ip6fhdr)
    let len := b.blk.hdr.ploadlen - ip6fhdr
    let rest := t.map fun c => (c.blk.bytes.drop (e + ip6fhdr)).take c.flen
    if b.blk.hdr.ploadlen < ip6fhdr ∨ bytes.length < len ∨
        ∃ c ∈ t, c.blk.bytes.length < e + ip6fhdr + c.flen then none
    else some ⟨{ b.blk.hdr with ploadlen := hnputs (len + (t.map Frag.flen).sum) },
      bytes.take len :: rest⟩

/-- What `procxtns` returns. -/
inductive Reasm
  | nil
  | packet (p : Packet)
  | overrun
  deriving DecidableEq, Repr

/-- `ip6reassemble`. -/
def ip6reassemble (tab : Table Key Blk) (now e : Nat) (p : Packet) : Table Key Blk × Reasm :=
  if p.blocks.flatten.length < e + ip6fhdr then (tab, .overrun)
  else
    let v := view e p
    match enter (Blk.up e) (Blk.more e) tab now v.key v.single v.frag with
    | (tab, .passed) => (tab, .packet ⟨p.hdr, [p.blocks.flatten]⟩)
    | (tab, .held) => (tab, .nil)
    | (tab, .done blist) =>
      match join e blist with
      | none => (tab, .overrun)
      | some bp => (tab, .packet bp)

/-- The second `unfraglen` in `procxtns`. -/
def reread : Reasm → Reasm
  | .packet bp =>
    match unfraglen bp false with
    | none => .overrun
    | some (_, _, bp) => .packet bp
  | r => r

/-- `procxtns`, for a packet to be reassembled; `procopts` does nothing. -/
def procxtns (tab : Table Key Blk) (now : Nat) (bp : Packet) : Table Key Blk × Reasm :=
  match unfraglen bp false with
  | none => (tab, .overrun)
  | some (uflen, proto, bp) =>
    if proto = fh then
      let (tab, r) := ip6reassemble tab now (uflen - ip6hdr) bp
      (tab, reread r)
    else (tab, .packet bp)

/-- Packets that arrive one after the other, with the times. -/
def receive : Table Key Blk → List (Nat × Packet) → List Reasm
  | _, [] => []
  | tab, (now, p) :: t =>
    let (tab, r) := procxtns tab now p
    r :: receive tab t

end Ip6
