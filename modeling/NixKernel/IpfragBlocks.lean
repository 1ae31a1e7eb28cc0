import NixKernel.Ipfrag
import NixKernel.ReassemblyOverlap

/-!
# The blocks of IPv4 fragments

`ipiput4` as far as the call of `ip4reassemble`, and that function, with the pointers of the blocks in place of
their bytes: where the buffer lies, where the data begin and end.  The length field of a header is whatever the
sender wrote.  Of the checksum only the outcome is a field, and so it is with the routing decision.

A call of `malloc` gives an address that is a parameter.
-/

namespace IpBlocks

open Reassembly List
open Ip4 (Hdr Key hnputs ip4hdr ipMf ipMbz)

/-- The pointers of a `struct Block`. -/
structure Block where
  base : Int
  rp : Int
  wp : Int
  lim : Int
  deriving DecidableEq, Repr

/-- `BLEN`. -/
def Block.blen (b : Block) : Int := b.wp - b.rp

/-- `blocklen`. -/
def blocklen (bp : List Block) : Int := (bp.map Block.blen).sum

def blockAlign : Int := 8
def hdrspc : Int := 64
def sizeofBlock : Int := 64

/-- `ROUNDUP`. -/
def roundup (x y : Int) : Int := (x + (y - 1)).tdiv y * y

/-- `_allocb`, with the address `p` from `malloc`.  Its last check does not fail: `allocb_fits`. -/
def allocb (p size : Int) : Block :=
  let n := blockAlign + roundup (size + hdrspc) blockAlign + sizeofBlock
  let b := p + n - sizeofBlock
  let lim := b / blockAlign * blockAlign
  let rp := lim - roundup size blockAlign
  ⟨p, rp, rp, lim⟩

/-- "copy bytes from the trailing blocks into the first": `n` bytes to go. -/
def pullupLoop (n : Int) (bp : Block) : List Block → Option (List Block)
  | [] => none
  | nbp :: t =>
    let i := nbp.blen
    if n < i then some ({ bp with wp := bp.wp + n } :: { nbp with rp := nbp.rp + n } :: t)
    else
      -- "shouldn't happen but why crash if it does"
      let i := if i < 0 then 0 else i
      let bp := { bp with wp := bp.wp + i }
      if n - i = 0 then some (bp :: t) else pullupLoop (n - i) bp t

/-- `pullupblock`; nil when the blocks have fewer than `n` bytes. -/
def pullupblock (p n : Int) : List Block → Option (List Block)
  | [] => none
  | bp :: t =>
    if n ≤ bp.blen then some (bp :: t)
    else if bp.lim - bp.rp < n then
      let nbp := allocb p n
      pullupLoop (n - nbp.blen) nbp (bp :: t)
    else pullupLoop (n - bp.blen) bp t

/-- `padblock`, of a single block, with `0 ≤ size`. -/
def padblock (p size : Int) (bp : Block) : Block :=
  if size ≤ bp.rp - bp.base then { bp with rp := bp.rp - size }
  else
    let n := bp.blen
    let nbp := allocb p (size + n)
    { nbp with wp := nbp.rp + size + n }

/-- What the lookups of `ipiput4` say of the destination: an address of this machine, one that the packet goes on
to, perhaps through an interface that wants datagrams whole, or neither. -/
inductive Way
  | here
  | through (reassemble : Bool)
  | nowhere
  deriving DecidableEq, Repr

/-- A packet from an interface.  `summed` says that the checksum of the header is right, or known to be. -/
structure Rx where
  hdr : Hdr
  blocks : List Block
  summed : Bool
  deriving DecidableEq, Repr

/-- The length of the header, in bytes. -/
def Rx.hl (rx : Rx) : Nat := (rx.hdr.vihl &&& 0xf) * 4

/-- "strip off the options". -/
def strip (hl : Nat) (h : Hdr) (bp : List Block) : Hdr × List Block :=
  ({ h with vihl := 0x45, length := hnputs (h.length + 2 ^ 16 - hl + ip4hdr) },
    bp.modifyHead fun b => { b with rp := b.rp + ((hl : Int) - ip4hdr) })

/-- The flag for more fragments goes to `tos`. -/
def markMore (h : Hdr) : Hdr := { h with tos := if h.frag &&& ipMf ≠ 0 then 1 else 0 }

/-- "Ensure we have all the header info in the first block." -/
def collect (p : Int) (bp : List Block) : Option (List Block) :=
  match bp with
  | [] => none
  | b :: _ => if b.blen < 64 then pullupblock p (min (max (blocklen bp) ip4hdr) 64) bp else some bp

/-- `ipiput4` as far as the call of `ip4reassemble`: the header and the blocks it is called with, if it is. -/
def ipiput4 (p : Int) (way : Way) (rx : Rx) : Option (Hdr × List Block) :=
  if rx.hdr.vihl &&& 0xf0 ≠ 0x40 then none
  else
    match collect p rx.blocks with
    | none => none
    | some bp =>
      if ¬ rx.summed then none
      else if rx.hl < ip4hdr then none
      else
        match way with
        | .nowhere => none
        | .through reassemble =>
          if rx.hdr.ttl < 1 then none
          else if reassemble ∧ rx.hdr.frag ≠ 0 then some (markMore rx.hdr, bp)
          else none
        | .here =>
          let (h, bp) := if rx.hdr.vihl &&& 0xf ≠ 5 then strip rx.hl rx.hdr bp else (rx.hdr, bp)
          if h.frag ≠ 0 then some (markMore h, bp) else none

/-- A block with its header.  `eod` is not in the source: the end of the data that were received in the block, its
`wp` as long as `ip4reassemble` does not set it. -/
structure Blk where
  hdr : Hdr
  block : Block
  eod : Int
  deriving DecidableEq, Repr

/-- `BLKIP(bl)->frag[0]&(IP_MF>>8)`. -/
def Blk.more (b : Blk) : Bool := (b.hdr.frag / 2 ^ 8) &&& (ipMf / 2 ^ 8) ≠ 0

/-- "move up ih hdrs". -/
def Blk.up (n : Nat) (b : Blk) : Blk := { b with block := { b.block with rp := b.block.rp + n } }

/-- The queue of a packet. -/
def key (h : Hdr) : Key := (h.src, h.dst, h.id)

/-- Not a fragment. -/
def single (h : Hdr) : Bool := h.tos = 0 ∧ h.frag % ipMf = 0

/-- Room for a `struct Ipfrag` at the start of the buffer. -/
def ipfragRoom (p : Int) (bp : Block) : Block :=
  if bp.rp ≤ bp.base + 4 then
    let bp := padblock p 4 bp
    { bp with rp := bp.rp + 4 }
  else bp

/-- The fragment for the queue; `foff` and `flen` are `ushort`. -/
def fragment (p : Int) (h : Hdr) (bp : Block) : Frag Blk :=
  let bp := ipfragRoom p bp
  ⟨hnputs (h.frag * 8), hnputs (h.length + 2 ^ 16 - ip4hdr), ⟨h, bp, bp.wp⟩⟩

/-- "Pullup all the fragment headers and return a complete packet". -/
def join : List (Frag Blk) → List Blk
  | [] => []
  | b :: t =>
    let len := b.blk.hdr.length
    { b.blk with
      hdr := { b.blk.hdr with length := hnputs (len + (t.map Frag.flen).sum) }
      block := { b.blk.block with wp := b.blk.block.rp + len } } ::
    t.map fun c =>
      let rp : Int := c.blk.block.rp + ip4hdr
      { c.blk with block := { c.blk.block with rp, wp := rp + c.flen } }

/-- `ip4reassemble`: the table, and the blocks of the packet it returns.  The addresses are for `pullupblock` and
`padblock`. -/
def ip4reassemble (tab : Table Key Blk) (now : Nat) (p₁ p₂ : Int) (h : Hdr) (bp : List Block) :
    Table Key Blk × Option (List Blk) :=
  if h.frag &&& ipMbz ≠ 0 then (tab, none)
  else
    match if bp.length = 1 then some bp else pullupblock p₁ (blocklen bp) bp with
    | none | some [] => (tab, none)
    | some (b :: t) =>
      match enter Blk.up Blk.more tab now (key h) (single h) (fragment p₂ h b) with
      | (tab, .passed) => (tab, some ((b :: t).map fun b => ⟨h, b, b.wp⟩))
      | (tab, .held) => (tab, none)
      | (tab, .done blist) => (tab, some (join blist))

/-- The arrival of a packet. -/
structure Arrival where
  now : Nat
  way : Way
  rx : Rx
  p₀ : Int
  p₁ : Int
  p₂ : Int

/-- What `ip4reassemble` returns on an arrival. -/
def receive (tab : Table Key Blk) (a : Arrival) : Table Key Blk × Option (List Blk) :=
  match ipiput4 a.p₀ a.way a.rx with
  | none => (tab, none)
  | some (h, bp) => ip4reassemble tab a.now a.p₁ a.p₂ h bp

/-- The table after some arrivals. -/
def arrive (tab : Table Key Blk) (as : List Arrival) : Table Key Blk := as.foldl (fun tab a => (receive tab a).1) tab

/-- The pointers are in order, and the block ends where the data received in it do, or before. -/
structure Blk.Within (b : Blk) : Prop where
  base : b.block.base ≤ b.block.rp
  rp : b.block.rp ≤ b.block.wp
  lim : b.block.wp ≤ b.block.lim
  eod : b.block.wp ≤ b.eod

/-- The data of the block lie in its buffer. -/
structure Block.Sound (b : Block) : Prop where
  base : b.base ≤ b.rp
  rp : b.rp ≤ b.wp
  lim : b.wp ≤ b.lim

variable {b : Block} {bp t r : List Block} {p n size : Int}

theorem blocklen_cons : blocklen (b :: t) = b.blen + blocklen t := by
  rw [blocklen, map_cons, sum_cons, blocklen]

theorem blocklen_nonneg (h : ∀ b ∈ bp, b.Sound) : 0 ≤ blocklen bp := by
  induction bp with
  | nil => exact Int.le_refl 0
  | cons b t ih =>
    obtain ⟨hb, ht⟩ := forall_mem_cons.mp h
    have hrest := ih ht
    have hrp := hb.rp
    rw [blocklen_cons, Block.blen]
    omega

/-- A new block begins empty, and the bytes asked for have room. -/
theorem allocb_fits (p : Int) (hsize : 0 ≤ size) :
    (allocb p size).base ≤ (allocb p size).rp ∧ (allocb p size).wp = (allocb p size).rp ∧
      (allocb p size).rp + size ≤ (allocb p size).lim := by
  have hsmall : (size + (blockAlign - 1)).tdiv blockAlign = (size + (blockAlign - 1)) / blockAlign :=
    Int.tdiv_eq_ediv_of_nonneg (by simp only [blockAlign]; omega)
  have hlarge : (size + hdrspc + (blockAlign - 1)).tdiv blockAlign = (size + hdrspc + (blockAlign - 1)) / blockAlign :=
    Int.tdiv_eq_ediv_of_nonneg (by simp only [blockAlign, hdrspc]; omega)
  rw [allocb, roundup, roundup, hsmall, hlarge]
  simp only [blockAlign, hdrspc, sizeofBlock]
  exact ⟨by omega, trivial, by omega⟩

theorem pullupLoop_spec (hb : b.Sound) (ht : ∀ b ∈ t, b.Sound) (hn : 0 < n) (hroom : b.wp + n ≤ b.lim)
    (h : pullupLoop n b t = some r) :
    (∀ b ∈ r, b.Sound) ∧ blocklen r = blocklen (b :: t) ∧ ∃ c r', r = c :: r' ∧ c.blen = b.blen + n := by
  have hbase := hb.base
  have hrp := hb.rp
  induction t generalizing n b with
  | nil => cases h
  | cons nb t ih =>
    obtain ⟨hnb, ht⟩ := forall_mem_cons.mp ht
    have hnrp := hnb.rp
    rw [pullupLoop] at h
    dsimp only at h
    split at h
    · next hpart =>
      cases h
      rw [Block.blen] at hpart
      have hgrown : ({ b with wp := b.wp + n } : Block).Sound := ⟨hbase, by dsimp only; omega, hroom⟩
      have hshrunk : ({ nb with rp := nb.rp + n } : Block).Sound :=
        ⟨by have hnbase := hnb.base; dsimp only; omega, by dsimp only; omega, hnb.lim⟩
      refine ⟨forall_mem_cons.mpr ⟨hgrown, forall_mem_cons.mpr ⟨hshrunk, ht⟩⟩, ?_, _, _, rfl, ?_⟩
      · simp only [blocklen_cons, Block.blen]
        omega
      · simp only [Block.blen]
        omega
    · next hwhole =>
      have hlen : ¬ nb.blen < 0 := by
        rw [Block.blen]
        omega
      rw [if_neg hlen] at h
      have hgrown : ({ b with wp := b.wp + nb.blen } : Block).Sound :=
        ⟨hbase, by dsimp only; omega, by dsimp only; omega⟩
      have htotal : blocklen ({ b with wp := b.wp + nb.blen } :: t) = blocklen (b :: nb :: t) := by
        simp only [blocklen_cons, Block.blen]
        omega
      split at h
      · next hlast =>
        cases h
        refine ⟨forall_mem_cons.mpr ⟨hgrown, ht⟩, htotal, _, _, rfl, ?_⟩
        simp only [Block.blen] at hlast ⊢
        omega
      · next hmore =>
        obtain ⟨hr, hrlen, c, r', hrc, hc⟩ := ih hgrown ht (show 0 < n - nb.blen by omega)
          (by dsimp only; omega) h hgrown.base hgrown.rp
        refine ⟨hr, hrlen.trans htotal, c, r', hrc, ?_⟩
        simp only [Block.blen] at hc ⊢
        omega

/-- **`pullupblock`** keeps the blocks sound and all their bytes; the first one has `n` of them. -/
theorem pullupblock_spec (hbp : ∀ b ∈ bp, b.Sound) (hn : 0 < n) (h : pullupblock p n bp = some r) :
    (∀ b ∈ r, b.Sound) ∧ blocklen r = blocklen bp ∧ ∃ c r', r = c :: r' ∧ n ≤ c.blen := by
  cases bp with
  | nil => cases h
  | cons b t =>
    obtain ⟨hb, ht⟩ := forall_mem_cons.mp hbp
    rw [pullupblock] at h
    split at h
    · next hle =>
      cases h
      exact ⟨hbp, rfl, b, t, rfl, hle⟩
    · next hmore =>
      dsimp only at h
      split at h
      · obtain ⟨hbase, hwp, hlim⟩ := allocb_fits p (show 0 ≤ n by omega)
        have hempty : (allocb p n).blen = 0 := by
          rw [Block.blen]
          omega
        have hnew : (allocb p n).Sound := ⟨hbase, by omega, by omega⟩
        rw [hempty, Int.sub_zero] at h
        obtain ⟨hr, hlen, c, r', hrc, hc⟩ := pullupLoop_spec hnew hbp hn (by omega) h
        refine ⟨hr, ?_, c, r', hrc, by omega⟩
        rw [hlen, blocklen_cons, hempty, Int.zero_add]
      · next hroom =>
        obtain ⟨hr, hlen, c, r', hrc, hc⟩ := pullupLoop_spec hb ht (show 0 < n - b.blen by omega)
          (by simp only [Block.blen]; omega) h
        exact ⟨hr, hlen, c, r', hrc, by omega⟩

/-- **Room for a `struct Ipfrag`** is made in front of the data, all of which stay. -/
theorem ipfragRoom_spec (p : Int) (hb : b.Sound) :
    (ipfragRoom p b).Sound ∧ (ipfragRoom p b).blen = b.blen ∧ (ipfragRoom p b).base + 4 ≤ (ipfragRoom p b).rp := by
  have hbase := hb.base
  have hrp := hb.rp
  have hlim := hb.lim
  rw [ipfragRoom]
  split
  · rw [padblock]
    split
    · exact ⟨⟨by dsimp only; omega, by dsimp only; omega, hlim⟩, by simp only [Block.blen]; omega, by dsimp only; omega⟩
    · obtain ⟨hnbase, hnwp, hnlim⟩ := allocb_fits p (show 0 ≤ 4 + b.blen by rw [Block.blen]; omega)
      simp only [Block.blen] at hnbase hnlim ⊢
      exact ⟨⟨by dsimp only; omega, by dsimp only; omega, by dsimp only; omega⟩, by omega, by omega⟩
  · exact ⟨hb, rfl, by omega⟩

end IpBlocks
