import NixKernel.Reassembly

/-!
# Fragmenting and reassembling IPv4 packets

`ipoput4` from the route on, and `ip4reassemble` with the lines of `ipiput4` that call it.
A packet is its header, without options, and the data behind it as the transport left it:
the rest of the first block and the further blocks.  Header fields are numbers, written by
`hnputs` modulo `2 ^ 16`.

The route lookup is not modelled: `medialen` is what `ifc->maxtu - ifc->m->hsize` gives for
the interface found, and nothing when there is none or it cannot be used.
-/

namespace Ip4

open Reassembly

def ipMbz : Nat := 0x8000
def ipDf : Nat := 0x4000
def ipMf : Nat := 0x2000
def ip4hdr : Nat := 20
def ipMax : Nat := 64 * 1024

/-- `struct Ip4hdr`. -/
structure Hdr where
  vihl : Nat
  tos : Nat
  length : Nat
  id : Nat
  frag : Nat
  ttl : Nat
  proto : Nat
  cksum : Nat
  src : Nat
  dst : Nat
  deriving DecidableEq, Repr

/-- A packet: its header and the blocks of data behind it. -/
structure Packet where
  hdr : Hdr
  blocks : List (List UInt8)
  deriving DecidableEq, Repr

/-- `hnputs` stores 16 bits. -/
def hnputs (n : Nat) : Nat := n % 2 ^ 16

def Hdr.words (h : Hdr) : List Nat :=
  [h.vihl * 2 ^ 8 + h.tos, h.length, h.id, h.frag, h.ttl * 2 ^ 8 + h.proto, h.cksum,
    h.src / 2 ^ 16, h.src % 2 ^ 16, h.dst / 2 ^ 16, h.dst % 2 ^ 16]

def dataWords : List UInt8 → List Nat
  | a :: b :: t => (a.toNat * 2 ^ 8 + b.toNat) :: dataWords t
  | _ => []

/-- `ipcsum`, of a header with `data` behind it: as far as `vihl` says. -/
def ipcsum (h : Hdr) (data : List UInt8) : Nat :=
  let sum := ((h.words ++ dataWords data).take (2 * (h.vihl &&& 0xf))).sum
  let sum := sum % 2 ^ 16 + sum / 2 ^ 16
  let sum := sum % 2 ^ 16 + sum / 2 ^ 16
  sum ^^^ 0xffff

/-- "Copy up the data area": `chunk` bytes from `xp` on, with the blocks left.  `none` when
the blocks run out. -/
def copyUp (chunk : Nat) (xp : List (List UInt8)) : Option (List UInt8 × List (List UInt8)) :=
  match xp with
  | [] => if chunk = 0 then some ([], []) else none
  | b :: t =>
    if chunk = 0 then some ([], b :: t)
    else
      let blklen := min chunk b.length
      if b.length = blklen then do
        let (bytes, t) ← copyUp (chunk - blklen) t
        return (b ++ bytes, t)
      else some (b.take blklen, b.drop blklen :: t)

/-- The header of a fragment. -/
def fragHdr (eh : Hdr) (lid frag seglen : Nat) (data : List UInt8) : Hdr :=
  let feh := { eh with frag := hnputs frag, length := hnputs (seglen + ip4hdr), id := hnputs lid,
                       cksum := 0 }
  { feh with cksum := ipcsum feh data }

/-- The loop of `ipoput4`: the fragments sent, and whether the data sufficed.  Every turn
takes at least a byte, so `dlen - fragoff` turns are enough. -/
def fragLoop (eh : Hdr) (lid seglen dlen : Nat) :
    Nat → Nat → List (List UInt8) → List Packet × Bool
  | 0, _, _ => ([], true)
  | fuel + 1, fragoff, xp =>
    if fragoff < dlen then
      let last := decide (dlen ≤ fragoff + seglen)
      let seglen := if last then dlen - fragoff else seglen
      let frag := if last then fragoff / 8 else (fragoff / 8) ||| ipMf
      match copyUp seglen xp with
      | none => ([], false)
      | some (bytes, xp) =>
        let (ps, ok) := fragLoop eh lid seglen dlen fuel (fragoff + seglen) xp
        (⟨fragHdr eh lid frag seglen bytes, [bytes]⟩ :: ps, ok)
    else ([], true)

/-- What `ipoput4` does with a packet.  One that is sent as it is must be a single block. -/
inductive Oput
  | discarded
  | assertFails
  | sent (p : Packet)
  | fragmented (ps : List Packet)
  | short (ps : List Packet)
  deriving DecidableEq, Repr

/-- `xp` at the first byte behind the header. -/
def skipHdr : List (List UInt8) → List (List UInt8)
  | [] :: t => t
  | xp => xp

/-- `ipoput4`; `id4` is the counter `ip->id4` before the call. -/
def ipoput4 (medialen : Option Int) (id4 : Nat) (bp : Packet) (gating : Bool) (ttl tos : Nat) :
    Oput :=
  -- Number of uchars in data and ip header to write
  let blen := ip4hdr + bp.blocks.flatten.length
  if gating ∧ blen < bp.hdr.length then .discarded
  else
    let len := if gating then min bp.hdr.length blen else blen
    if ipMax ≤ len then .discarded
    else
      match medialen with
      | none => .discarded
      | some medialen =>
        let eh := { bp.hdr with ttl }
        let eh := if gating then eh else { eh with vihl := 0x45, tos }
        if len ≤ medialen then
          let eh := { eh with length := hnputs len, cksum := 0 }
          let eh := if gating then eh else { eh with id := hnputs (id4 + 1), frag := 0 }
          if 1 < bp.blocks.length then .assertFails
          else .sent ⟨{ eh with cksum := ipcsum eh bp.blocks.flatten }, bp.blocks⟩
        else if (eh.frag / 2 ^ 8) &&& (ipDf / 2 ^ 8) ≠ 0 then .discarded
        else
          let seglen := (medialen - ip4hdr) / 8 * 8
          if seglen < 8 then .discarded
          else
            let lid := if gating then eh.id else id4 + 1
            let fragoff := if gating then eh.frag * 8 else 0
            let dlen := len - ip4hdr + fragoff
            let (ps, ok) := fragLoop eh lid seglen.toNat dlen (dlen - fragoff) fragoff
              (skipHdr bp.blocks)
            if ok then .fragmented ps else .short ps

/-- The queue of a fragment: `src`, `dst` and `id`. -/
abbrev Key := Nat × Nat × Nat

/-- A block on the queue: its header, and the data behind. -/
structure Blk where
  hdr : Hdr
  data : List UInt8
  deriving DecidableEq, Repr

/-- `BLKIP(bl)->frag[0]&(IP_MF>>8)`. -/
def Blk.more (b : Blk) : Bool := (b.hdr.frag / 2 ^ 8) &&& (ipMf / 2 ^ 8) ≠ 0

/-- "move up ih hdrs". -/
def Blk.up (n : Nat) (b : Blk) : Blk := { b with data := b.data.drop n }

/-- What `ip4reassemble` reads from a packet, once it is one block.  `offset` is the field
`frag`; `foff` and `flen` are `ushort`. -/
def view (p : Packet) : View Key Blk where
  key := (p.hdr.src, p.hdr.dst, p.hdr.id)
  single := p.hdr.tos = 0 ∧ p.hdr.frag % ipMf = 0
  frag := ⟨hnputs (p.hdr.frag * 8), hnputs (p.hdr.length + 2 ^ 16 - ip4hdr),
    ⟨p.hdr, p.blocks.flatten⟩⟩

/-- "Pullup all the fragment headers and return a complete packet". -/
def join : List (Frag Blk) → Option Packet
  | [] => none
  | b :: t =>
    let len := b.blk.hdr.length + (t.map Frag.flen).sum
    some ⟨{ b.blk.hdr with length := hnputs len },
      b.blk.data.take (b.blk.hdr.length - ip4hdr) :: t.map fun c => c.blk.data.take c.flen⟩

/-- The queue table and what `ip4reassemble` returns; a packet with the must-be-zero bit
is freed. -/
def ip4reassemble (tab : Table Key Blk) (now : Nat) (p : Packet) :
    Table Key Blk × Option Packet :=
  if p.hdr.frag &&& ipMbz ≠ 0 then (tab, none)
  else
    let v := view p
    match enter Blk.up Blk.more tab now v.key v.single v.frag with
    | (tab, .passed) => (tab, some p)
    | (tab, .held) => (tab, none)
    | (tab, .done blist) => (tab, join blist)

/-- `ipiput4` on a packet with a fragment field: the flag goes to `tos`. -/
def markMore (p : Packet) : Packet :=
  { p with hdr := { p.hdr with tos := if p.hdr.frag &&& ipMf ≠ 0 then 1 else 0 } }

/-- Fragments that arrive one after the other, with the times. -/
def receive : Table Key Blk → List (Nat × Packet) → List (Option Packet)
  | _, [] => []
  | tab, (now, p) :: t =>
    let (tab, r) := ip4reassemble tab now (markMore p)
    r :: receive tab t

end Ip4
