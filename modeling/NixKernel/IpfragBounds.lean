import NixKernel.IpfragBlocks

/-!
# Reassembled packets lie in the data received

The length field of a fragment goes into a `flen` of 16 bits and, for the first fragment, into `wp`, and no
line of `ipiput4` or `ip4reassemble` compares it with the bytes there are, or with the length of the header.
Where it is honest, what is on the queues stays inside the data received, whatever overlaps what.
-/

namespace IpBlocks

open Reassembly List
open Ip4 (Hdr Key hnputs ip4hdr ipMf ipMbz)

variable {h : Hdr} {b : Block} {bp : List Block} {tab : Table Key Blk} {a : Arrival} {as : List Arrival}

/-- A fragment on a queue: its headers and its `flen` bytes are in front of the end of the data received, and the
first one has as many as its header says. -/
structure Bounded (c : Frag Blk) : Prop where
  base : c.blk.block.base ≤ c.blk.block.rp
  data : c.blk.block.rp + ip4hdr + c.flen ≤ c.blk.eod
  lim : c.blk.eod ≤ c.blk.block.lim
  first : c.foff = 0 → c.blk.block.rp + c.blk.hdr.length ≤ c.blk.eod
  foff : c.foff < 2 ^ 16
  fend : c.foff + c.flen < 2 ^ 17
  wrap : c.foff + c.flen ≠ 2 ^ 16

/-- What is left of a fragment that another one covers in part is in its data still.  A start that is moved up
does not come out at 0, where the length in the header would count. -/
theorem bounded_cut : Cut Blk.up Bounded where
  last c p hc hp hlt hin _ := by
    have hdata := hc.data
    have hfoff := hp.foff
    refine ⟨hc.base, ?_, hc.lim, hc.first, hc.foff, ?_, ?_⟩
    · change c.blk.block.rp + ip4hdr + ((p.foff - c.foff : Nat) : Int) ≤ c.blk.eod
      omega
    · change c.foff + (p.foff - c.foff) < 2 ^ 17
      omega
    · change c.foff + (p.foff - c.foff) ≠ 2 ^ 16
      omega
  first c p hc hp hlt hin := by
    have hbase := hc.base
    have hdata := hc.data
    have hend := hc.fend
    have hwrap := hc.wrap
    have hpwrap := hp.wrap
    generalize p.foff + p.flen = m at hlt hin hpwrap
    refine ⟨?_, ?_, hc.lim, fun hzero => ?_, ?_, ?_, ?_⟩
    · change c.blk.block.base ≤ c.blk.block.rp + ((m - c.foff : Nat) : Int)
      omega
    · change c.blk.block.rp + ((m - c.foff : Nat) : Int) + ip4hdr + ((c.foff + c.flen - m : Nat) : Int) ≤ c.blk.eod
      omega
    · change m % 2 ^ 16 = 0 at hzero
      omega
    · change m % 2 ^ 16 < 2 ^ 16
      omega
    · change m % 2 ^ 16 + (c.foff + c.flen - m) < 2 ^ 17
      omega
    · change m % 2 ^ 16 + (c.foff + c.flen - m) ≠ 2 ^ 16
      omega

/-- **What is put together** lies in the data received. -/
theorem join_within {L : List (Frag Blk)} (hL : ∀ c ∈ L, Bounded c) (hfirst : ∀ c ∈ L.head?, c.foff = 0) :
    ∀ b ∈ join L, b.Within := by
  cases L with
  | nil => nofun
  | cons c t =>
    obtain ⟨hc, ht⟩ := forall_mem_cons.mp hL
    have hclim := hc.lim
    have hcfirst := hc.first (hfirst c rfl)
    refine forall_mem_cons.mpr ⟨⟨hc.base, ?_, ?_, hcfirst⟩, ?_⟩
    · change c.blk.block.rp ≤ c.blk.block.rp + (c.blk.hdr.length : Int)
      omega
    · change c.blk.block.rp + (c.blk.hdr.length : Int) ≤ c.blk.block.lim
      omega
    · rintro b hb
      obtain ⟨d, hd, rfl⟩ := mem_map.mp hb
      obtain ⟨hbase, hdata, hlim, -, -, -, -⟩ := ht d hd
      simp only [ip4hdr] at hdata
      refine ⟨?_, ?_, ?_, hdata⟩
      · change d.blk.block.base ≤ d.blk.block.rp + ((20 : Nat) : Int)
        omega
      · change d.blk.block.rp + ((20 : Nat) : Int) ≤ d.blk.block.rp + ((20 : Nat) : Int) + (d.flen : Int)
        omega
      · change d.blk.block.rp + ((20 : Nat) : Int) + (d.flen : Int) ≤ d.blk.block.lim
        omega

theorem complete_head {L : List (Frag Blk)} (hdone : complete Blk.more 0 L = true) : ∀ c ∈ L.head?, c.foff = 0 := by
  cases L with
  | nil => nofun
  | cons c t =>
    rw [complete] at hdone
    split at hdone
    · cases hdone
    · next hzero =>
      rintro d hd
      cases hd
      exact not_not.mp hzero

/-- The length field counts a header and no more than there is, and the data do not end at `2 ^ 16` exactly. -/
structure Counted (h : Hdr) (hl n : Int) : Prop where
  header : hl ≤ h.length
  received : h.length ≤ n
  fend : (hnputs (h.frag * 8) : Int) + (h.length - hl) ≠ 2 ^ 16

/-- What is in front of `ip4reassemble`: sound blocks with a header in them, and a length field that is true if
this is a fragment. -/
structure Honest (h : Hdr) (bp : List Block) : Prop where
  sound : ∀ b ∈ bp, b.Sound
  header : ip4hdr ≤ blocklen bp
  counted : single h = false → Counted h ip4hdr (blocklen bp)
  length : h.length < 2 ^ 16

theorem Counted.mark {hl n : Int} (hcount : Counted h hl n) : Counted (markMore h) hl n :=
  ⟨hcount.header, hcount.received, hcount.fend⟩

theorem fragment_bounded (p : Int) (hb : b.Sound) (hcount : Counted h ip4hdr b.blen) (hlen : h.length < 2 ^ 16) :
    Bounded (fragment p h b) := by
  obtain ⟨hsound, hblen, -⟩ := ipfragRoom_spec p hb
  obtain ⟨hheader, hreceived, hfend⟩ := hcount
  simp only [Block.blen] at hblen hreceived
  simp only [ip4hdr, hnputs] at hheader hfend
  have hflen : hnputs (h.length + 2 ^ 16 - ip4hdr) = h.length - 20 := by
    simp only [hnputs, ip4hdr]
    omega
  refine ⟨hsound.base, ?_, hsound.lim, fun _ => ?_, ?_, ?_, ?_⟩
  · change (ipfragRoom p b).rp + ((20 : Nat) : Int) + ((hnputs (h.length + 2 ^ 16 - ip4hdr) : Nat) : Int) ≤ (ipfragRoom p b).wp
    rw [hflen]
    omega
  · change (ipfragRoom p b).rp + (h.length : Int) ≤ (ipfragRoom p b).wp
    omega
  · change h.frag * 8 % 2 ^ 16 < 2 ^ 16
    omega
  · change h.frag * 8 % 2 ^ 16 + hnputs (h.length + 2 ^ 16 - ip4hdr) < 2 ^ 17
    rw [hflen]
    omega
  · change h.frag * 8 % 2 ^ 16 + hnputs (h.length + 2 ^ 16 - ip4hdr) ≠ 2 ^ 16
    rw [hflen]
    omega

/-- The one block that `ip4reassemble` goes on with has all the bytes. -/
theorem whole_spec {p : Int} {r : List Block} (h : Honest h bp)
    (hrun : (if bp.length = 1 then some bp else pullupblock p (blocklen bp) bp) = some r) :
    ∃ c t, r = c :: t ∧ (∀ b ∈ c :: t, b.Sound) ∧ c.blen = blocklen bp := by
  split at hrun
  · next hone =>
    obtain ⟨c, rfl⟩ := length_eq_one_iff.mp hone
    cases hrun
    refine ⟨c, [], rfl, h.sound, ?_⟩
    rw [blocklen_cons, blocklen, map_nil, sum_nil, Int.add_zero]
  · have hheader := h.header
    simp only [ip4hdr] at hheader
    obtain ⟨hr, hlen, c, t, rfl, hc⟩ := pullupblock_spec h.sound (show 0 < blocklen bp by omega) hrun
    have hrest := blocklen_nonneg (forall_mem_cons.mp hr).2
    rw [blocklen_cons] at hlen
    exact ⟨c, t, rfl, hr, by omega⟩

/-- **What `ip4reassemble` does** with an honest fragment. -/
theorem ip4reassemble_within (hall : All Bounded tab) (hh : Honest h bp) (now : Nat) (p₁ p₂ : Int) :
    All Bounded (ip4reassemble tab now p₁ p₂ h bp).1 ∧
      ∀ bl, (ip4reassemble tab now p₁ p₂ h bp).2 = some bl → ∀ b ∈ bl, b.Within := by
  rw [ip4reassemble]
  split
  · exact ⟨hall, nofun⟩
  · generalize hrun : (if bp.length = 1 then some bp else pullupblock p₁ (blocklen bp) bp) = r
    cases r with
    | none => exact ⟨hall, nofun⟩
    | some r =>
      obtain ⟨c, t, rfl, hsound, hlen⟩ := whole_spec hh hrun
      have hc := (forall_mem_cons.mp hsound).1
      obtain ⟨htab, hdone⟩ := @enter_all _ _ Blk.up Blk.more _ _ tab (key h) Bounded _ bounded_cut hall
        (fun hpart => fragment_bounded p₂ hc (hlen ▸ hh.counted hpart) hh.length) now
      dsimp only
      generalize enter Blk.up Blk.more tab now _ _ _ = e at htab hdone
      obtain ⟨tab', out⟩ := e
      cases out with
      | passed =>
        refine ⟨htab, fun bl hbl => ?_⟩
        cases hbl
        intro b hb
        obtain ⟨d, hd, rfl⟩ := mem_map.mp hb
        obtain ⟨hbase, hrp, hlim⟩ := hsound d hd
        exact ⟨hbase, hrp, hlim, Int.le_refl _⟩
      | held => exact ⟨htab, nofun⟩
      | done blist =>
        refine ⟨htab, fun bl hbl => ?_⟩
        cases hbl
        obtain ⟨hbounded, hcomplete⟩ := hdone blist rfl
        exact join_within hbounded (complete_head hcomplete)

/-- The header that `ipiput4` counts as such: with its options, where it strips them. -/
def Arrival.header (a : Arrival) : Nat := if a.way = .here then a.rx.hl else ip4hdr

/-- A packet as an interface hands it over. -/
structure Received (rx : Rx) : Prop where
  sound : ∀ b ∈ rx.blocks, b.Sound
  length : rx.hdr.length < 2 ^ 16

/-- **The condition.**  The packet has its header, and if it is a fragment, the length field counts the header and
no more than was received, and the data do not end at offset `2 ^ 16`. -/
structure Truthful (a : Arrival) : Prop where
  header : a.header ≤ blocklen a.rx.blocks
  counted : single (markMore a.rx.hdr) = false → Counted a.rx.hdr a.header (blocklen a.rx.blocks)

theorem collect_spec {p : Int} {r : List Block} (h : ∀ b ∈ bp, b.Sound) (hrun : collect p bp = some r) :
    (∀ b ∈ r, b.Sound) ∧ blocklen r = blocklen bp ∧
      ∃ c t, r = c :: t ∧ min (max (blocklen bp) ip4hdr) 64 ≤ c.blen := by
  cases bp with
  | nil => cases hrun
  | cons b t =>
    rw [collect] at hrun
    split at hrun
    · exact pullupblock_spec h (by simp only [ip4hdr]; omega) hrun
    · cases hrun
      exact ⟨h, rfl, b, t, rfl, by omega⟩

theorem strip_honest {hl : Nat} {c : Block} {t : List Block} (hsound : ∀ b ∈ c :: t, b.Sound)
    (hlow : ip4hdr ≤ hl) (hfirst : (hl : Int) ≤ c.blen) (hlen : h.length < 2 ^ 16)
    (hcount : single (markMore h) = false → Counted h hl (blocklen (c :: t))) :
    Honest (markMore (strip hl h (c :: t)).1) (strip hl h (c :: t)).2 := by
  obtain ⟨hc, ht⟩ := forall_mem_cons.mp hsound
  have hbase := hc.base
  have hrest := blocklen_nonneg ht
  simp only [ip4hdr] at hlow
  simp only [Block.blen] at hfirst
  have hstripped : ({ c with rp := c.rp + ((hl : Int) - ip4hdr) } : Block).Sound := by
    refine ⟨?_, ?_, hc.lim⟩
    · change c.base ≤ c.rp + ((hl : Int) - ((20 : Nat) : Int))
      omega
    · change c.rp + ((hl : Int) - ((20 : Nat) : Int)) ≤ c.wp
      omega
  have hbytes : blocklen (strip hl h (c :: t)).2 = blocklen (c :: t) - ((hl : Int) - 20) := by
    rw [strip]
    simp only [modifyHead_cons, blocklen_cons, Block.blen, ip4hdr]
    omega
  refine ⟨forall_mem_cons.mpr ⟨hstripped, ht⟩, ?_, fun hpart => ?_, ?_⟩
  · rw [hbytes, blocklen_cons, Block.blen]
    simp only [ip4hdr]
    omega
  · obtain ⟨hheader, hreceived, hfend⟩ := hcount hpart
    have hlength : (markMore (strip hl h (c :: t)).1).length = h.length - hl + 20 := by
      change hnputs (h.length + 2 ^ 16 - hl + ip4hdr) = h.length - hl + 20
      simp only [hnputs, ip4hdr]
      omega
    refine ⟨?_, ?_, ?_⟩
    · rw [hlength]
      simp only [ip4hdr]
      omega
    · rw [hlength, hbytes]
      omega
    · change (hnputs (h.frag * 8) : Int) + (((markMore (strip hl h (c :: t)).1).length : Int) - ((20 : Nat) : Int)) ≠ 2 ^ 16
      rw [hlength]
      omega
  · change hnputs (h.length + 2 ^ 16 - hl + ip4hdr) < 2 ^ 16
    simp only [hnputs]
    omega

/-- **`ipiput4` hands on honest packets** when it gets them. -/
theorem ipiput4_honest (hrx : Received a.rx) (htrue : Truthful a) (hrun : ipiput4 a.p₀ a.way a.rx = some (h, bp)) :
    Honest h bp := by
  have hlen := hrx.length
  rw [ipiput4] at hrun
  split at hrun
  · cases hrun
  · split at hrun
    · cases hrun
    · next r hcollect =>
      obtain ⟨hsound, hbytes, c, t, rfl, hfirst⟩ := collect_spec hrx.sound hcollect
      obtain ⟨hheader, hcount⟩ := htrue
      rw [Arrival.header] at hheader hcount
      rw [← hbytes] at hheader hcount hfirst
      split at hrun
      · cases hrun
      · split at hrun
        · cases hrun
        · next hlow =>
          split at hrun
          · cases hrun
          · next reassemble hway =>
            rw [hway, if_neg nofun] at hheader hcount
            split at hrun
            · cases hrun
            · split at hrun
              · cases hrun
                exact ⟨hsound, hheader, fun hpart => (hcount hpart).mark, hlen⟩
              · cases hrun
          · next hway =>
            rw [if_pos hway] at hheader hcount
            have hhl : a.rx.hl ≤ 60 := by
              have hand := Nat.and_le_right (n := a.rx.hdr.vihl) (m := 0xf)
              simp only [Rx.hl]
              omega
            simp only [ip4hdr] at hlow hfirst
            by_cases hfive : a.rx.hdr.vihl &&& 0xf = 5
            · have hplain : a.rx.hl = ip4hdr := by
                simp only [Rx.hl, hfive, ip4hdr]
              rw [hplain] at hheader hcount
              rw [if_neg (not_not.mpr hfive)] at hrun
              dsimp only at hrun
              split at hrun
              · cases hrun
                exact ⟨hsound, hheader, fun hpart => (hcount hpart).mark, hlen⟩
              · cases hrun
            · rw [if_pos hfive] at hrun
              dsimp only at hrun
              split at hrun
              · cases hrun
                exact strip_honest hsound (by simp only [ip4hdr]; omega) (by omega) hlen hcount
              · cases hrun

theorem receive_within (hall : All Bounded tab) (hrx : Received a.rx) (htrue : Truthful a) :
    All Bounded (receive tab a).1 ∧ ∀ bl, (receive tab a).2 = some bl → ∀ b ∈ bl, b.Within := by
  rw [receive]
  split
  · exact ⟨hall, nofun⟩
  · next h bp hrun => exact ip4reassemble_within hall (ipiput4_honest hrx htrue hrun) a.now a.p₁ a.p₂

theorem arrive_bounded (hall : All Bounded tab) (has : ∀ x ∈ as, Received x.rx ∧ Truthful x) :
    All Bounded (arrive tab as) := by
  induction as generalizing tab with
  | nil => exact hall
  | cons a t ih =>
    obtain ⟨⟨hrx, htrue⟩, ht⟩ := forall_mem_cons.mp has
    exact ih (receive_within hall hrx htrue).1 ht

/-- **Reassembled packets lie in the data received.**  Packets arrive, for any destination and in any order, at a
table without queues; where the length fields of the fragments are true, every block of every packet that
`ip4reassemble` returns has its pointers in order and ends within the data received in it. -/
theorem reassembled_within (size : Nat) (has : ∀ x ∈ as ++ [a], Received x.rx ∧ Truthful x) {bl : List Blk}
    (hret : (receive (arrive ⟨size, []⟩ as) a).2 = some bl) : ∀ b ∈ bl, b.Within := by
  obtain ⟨hbefore, ha⟩ := List.forall_mem_append.mp has
  obtain ⟨hrx, htrue⟩ := ha a mem_cons_self
  have hempty : All Bounded (⟨size, []⟩ : Table Key Blk) := nofun
  exact (receive_within (arrive_bounded hempty hbefore) hrx htrue).2 bl hret

/-- A packet of `n` bytes in one block, for this machine. -/
def someArrival (vihl length frag : Nat) (n : Int) : Arrival :=
  ⟨1, .here, ⟨⟨vihl, 0, length, 7, frag, 9, 17, 0, 1, 2⟩, [⟨0, 64, 64 + n, 2048⟩], true⟩, 4096, 8192, 12288⟩

theorem received_someArrival (vihl frag : Nat) {length : Nat} {n : Int} (hlen : length < 2 ^ 16) (hn : 0 ≤ n)
    (hfits : n ≤ 1984) : Received (someArrival vihl length frag n).rx where
  sound := forall_mem_singleton.mpr ⟨by change (0 : Int) ≤ 64; omega, by change (64 : Int) ≤ 64 + n; omega, by change 64 + n ≤ 2048; omega⟩
  length := hlen

/-- Two fragments that overlap, one of them with options. -/
theorem reassembled_within_options :
    ∃ b c, (receive (arrive ⟨1, []⟩ [someArrival 0x45 36 ipMf 36]) (someArrival 0x46 48 1 64)).2 = some [b, c] ∧
      b.Within ∧ c.Within := by
  have hall : ∀ x ∈ [someArrival 0x45 36 ipMf 36] ++ [someArrival 0x46 48 1 64], Received x.rx ∧ Truthful x := by
    refine List.forall_mem_append.mpr ⟨List.forall_mem_singleton.mpr ?_, List.forall_mem_singleton.mpr ?_⟩
    all_goals
      exact ⟨received_someArrival _ _ (by decide) (by decide) (by decide), by decide,
        fun _ => ⟨by decide, by decide, by decide⟩⟩
  obtain ⟨b, c, hret⟩ : ∃ b c, (receive (arrive ⟨1, []⟩ [someArrival 0x45 36 ipMf 36]) (someArrival 0x46 48 1 64)).2 =
      some [b, c] := ⟨_, _, rfl⟩
  have hwithin := reassembled_within 1 hall hret
  exact ⟨b, c, hret, hwithin b mem_cons_self, hwithin c (mem_cons_of_mem _ mem_cons_self)⟩

/-- The second fragment says that it has 40 bytes of data, and 16 were received. -/
theorem beyond_received :
    ¬ ∀ (as : List Arrival) (a : Arrival) (bl : List Blk), (∀ x ∈ as ++ [a], Received x.rx) →
      (receive (arrive ⟨1, []⟩ as) a).2 = some bl → ∀ b ∈ bl, b.Within := by
  intro hall
  have hrx : ∀ x ∈ [someArrival 0x45 28 ipMf 28] ++ [someArrival 0x45 60 1 36], Received x.rx :=
    List.forall_mem_append.mpr
      ⟨List.forall_mem_singleton.mpr (received_someArrival _ _ (by decide) (by decide) (by decide)),
        List.forall_mem_singleton.mpr (received_someArrival _ _ (by decide) (by decide) (by decide))⟩
  obtain ⟨b, c, hret, hwp⟩ : ∃ b c, (receive (arrive ⟨1, []⟩ [someArrival 0x45 28 ipMf 28])
      (someArrival 0x45 60 1 36)).2 = some [b, c] ∧ c.eod < c.block.wp := ⟨_, _, rfl, by decide⟩
  have hwithin := hall _ _ _ hrx hret c (mem_cons_of_mem _ mem_cons_self)
  exact absurd hwithin.eod (Int.not_le.mpr hwp)

end IpBlocks
