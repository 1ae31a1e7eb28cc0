import NixKernel.Ipfrag

/-!
# The IPv4 fragmentation round trip

The two halves meet at `CutAt`, fragments of one datagram that lie next to each other.
`ipoput4` cuts the datagram, or one of its fragments, into such pieces, whatever blocks the
data came in; `ip4reassemble` puts a complete set of pieces together, whatever the order of
their arrival.
-/

namespace Ip4

open Reassembly List

variable {k : Key} {D : List UInt8} {o len e : Nat} {p : Packet} {ps qs : List Packet}

/-- The packet is the fragment of the datagram `D` with the `len` bytes from `o` on; there
may be padding behind the data. -/
structure Piece (k : Key) (D : List UInt8) (o len : Nat) (p : Packet) : Prop where
  key : (p.hdr.src, p.hdr.dst, p.hdr.id) = k
  pos : 0 < len
  fits : o + len ≤ D.length
  aligned : o % 8 = 0
  frag : p.hdr.frag = o / 8 + if o + len < D.length then ipMf else 0
  length : p.hdr.length = ip4hdr + len
  data : p.blocks.flatten.take len = (D.drop o).take len

/-- The packets are fragments of `D` from `o` to `e`, next to each other. -/
def CutAt (k : Key) (D : List UInt8) : Nat → List Packet → Nat → Prop
  | o, [], e => o = e
  | o, p :: ps, e => ∃ len, Piece k D o len p ∧ CutAt k D (o + len) ps e

theorem CutAt.append (hps : CutAt k D o ps e) {n : Nat} (hqs : CutAt k D e qs n) :
    CutAt k D o (ps ++ qs) n := by
  induction ps generalizing o with
  | nil =>
    rw [show o = e from hps]
    exact hqs
  | cons p t ih =>
    obtain ⟨len, hp, ht⟩ := hps
    exact ⟨len, hp, ih ht⟩

theorem CutAt.le (h : CutAt k D o ps e) : o ≤ e := by
  induction ps generalizing o with
  | nil => exact Nat.le_of_eq h
  | cons p t ih =>
    obtain ⟨len, hp, ht⟩ := h
    have hle := ih ht
    omega

theorem CutAt.mem (h : CutAt k D o ps e) (hp : p ∈ ps) :
    ∃ o' len, Piece k D o' len p ∧ o ≤ o' := by
  induction ps generalizing o with
  | nil => cases hp
  | cons q t ih =>
    obtain ⟨len, hq, ht⟩ := h
    rcases mem_cons.mp hp with rfl | hpt
    · exact ⟨o, len, hq, Nat.le_refl o⟩
    · obtain ⟨o', len', hpiece, hle⟩ := ih ht hpt
      exact ⟨o', len', hpiece, by omega⟩

theorem and_two_pow_ne_zero (n i : Nat) : n &&& 2 ^ i ≠ 0 ↔ n / 2 ^ i % 2 = 1 := by
  rw [Nat.and_two_pow, Nat.testBit_eq_decide_div_mod_eq]
  by_cases h : n / 2 ^ i % 2 = 1
  · simp [h]
  · simp [h]

/-- What the field `frag` of a fragment says. -/
theorem Piece.flags (h : Piece k D o len p) (hsize : ip4hdr + D.length < 2 ^ 16) :
    p.hdr.frag &&& ipMbz = 0 ∧ (p.hdr.frag / 2 ^ 8) &&& (ipDf / 2 ^ 8) = 0 ∧
    (p.hdr.frag &&& ipMf ≠ 0 ↔ o + len < D.length) ∧
    ((p.hdr.frag / 2 ^ 8) &&& (ipMf / 2 ^ 8) ≠ 0 ↔ o + len < D.length) := by
  have hpos := h.pos
  have hfits := h.fits
  have hmbz := and_two_pow_ne_zero p.hdr.frag 15
  have hdf := and_two_pow_ne_zero (p.hdr.frag / 2 ^ 8) 6
  have hmf := and_two_pow_ne_zero p.hdr.frag 13
  have hmore := and_two_pow_ne_zero (p.hdr.frag / 2 ^ 8) 5
  have hfrag := h.frag
  simp only [ip4hdr] at hsize
  simp only [ipMf] at hfrag
  by_cases hlt : o + len < D.length
  · rw [if_pos hlt] at hfrag
    refine ⟨?_, ?_, ?_, ?_⟩
    · exact not_not.mp (fun hne => by have hbit := hmbz.mp hne; omega)
    · exact not_not.mp (fun hne => by have hbit := hdf.mp hne; omega)
    · exact iff_of_true (hmf.mpr (by omega)) hlt
    · exact iff_of_true (hmore.mpr (by omega)) hlt
  · rw [if_neg hlt] at hfrag
    refine ⟨?_, ?_, ?_, ?_⟩
    · exact not_not.mp (fun hne => by have hbit := hmbz.mp hne; omega)
    · exact not_not.mp (fun hne => by have hbit := hdf.mp hne; omega)
    · exact iff_of_false (fun hne => by have hbit := hmf.mp hne; omega) hlt
    · exact iff_of_false (fun hne => by have hbit := hmore.mp hne; omega) hlt

/-- The copy takes the next bytes, across the blocks. -/
theorem copyUp_spec {xp : List (List UInt8)} {n : Nat} (hn : n ≤ xp.flatten.length) :
    ∃ xp', copyUp n xp = some (xp.flatten.take n, xp') ∧ xp'.flatten = xp.flatten.drop n := by
  induction xp generalizing n with
  | nil =>
    have hzero : n = 0 := by simpa using hn
    exact ⟨[], by simp [copyUp, hzero], by simp⟩
  | cons b t ih =>
    by_cases hzero : n = 0
    · exact ⟨b :: t, by simp [copyUp, hzero], by simp [hzero]⟩
    · by_cases hle : b.length ≤ n
      · -- the block is used up
        have hmin : min n b.length = b.length := by omega
        simp only [flatten_cons, length_append] at hn
        obtain ⟨xp', hrun, hflat⟩ := ih (show n - b.length ≤ t.flatten.length by omega)
        refine ⟨xp', ?_, ?_⟩
        · simp [copyUp, hzero, hmin, hrun, take_append, take_of_length_le hle]
        · simp [hflat, drop_append, drop_of_length_le hle]
      · have hmin : min n b.length = n := by omega
        have hne : b.length ≠ n := by omega
        have hlt : n ≤ b.length := by omega
        refine ⟨b.drop n :: t, ?_, ?_⟩
        · simp [copyUp, hzero, hmin, hne, take_append_of_le_length hlt]
        · simp [drop_append_of_le_length hlt]

theorem flatten_skipHdr (xp : List (List UInt8)) : (skipHdr xp).flatten = xp.flatten := by
  match xp with
  | [] => rfl
  | [] :: t => rfl
  | (x :: b) :: t => rfl

/-- Setting the flag for more fragments in a field that has at most this flag. -/
theorem or_ipMf {i : Nat} (hi : i < ipMf) : i ||| ipMf = i + ipMf ∧ (i + ipMf) ||| ipMf = i + ipMf := by
  have hlt : i < 2 ^ 13 := hi
  have hor : i ||| ipMf = i + ipMf := by
    have h := Nat.two_pow_add_eq_or_of_lt hlt 1
    simp only [Nat.mul_one] at h
    rw [Nat.or_comm, Nat.add_comm]
    exact h.symm
  refine ⟨hor, ?_⟩
  rw [← hor, Nat.or_assoc, Nat.or_self]

/-- One fragment. -/
theorem piece_fragHdr {eh : Hdr} {lid frag : Nat} {bytes : List UInt8} (hpos : 0 < len)
    (hfits : o + len ≤ D.length) (hsize : ip4hdr + D.length < 2 ^ 16) (haligned : o % 8 = 0)
    (hfrag : frag = o / 8 + if o + len < D.length then ipMf else 0)
    (hbytes : bytes = (D.drop o).take len) :
    Piece (eh.src, eh.dst, hnputs lid) D o len ⟨fragHdr eh lid frag len bytes, [bytes]⟩ := by
  have hf : hnputs frag = frag := by
    apply Nat.mod_eq_of_lt
    rw [hfrag]
    simp only [ip4hdr, ipMf] at hsize ⊢
    split <;> omega
  have hl : hnputs (len + ip4hdr) = ip4hdr + len := by
    simp only [hnputs]
    rw [Nat.mod_eq_of_lt (by omega)]
    omega
  refine ⟨rfl, hpos, hfits, haligned, hf.trans hfrag, hl, ?_⟩
  simp [hbytes, take_take]

/-- The loop cuts the data into fragments next to each other that fit.  `F` is the flag of
the packet, in the place it has in `fragoff`. -/
theorem fragLoop_spec (eh : Hdr) (lid : Nat) {seglen fuel F : Nat} {xp : List (List UInt8)}
    (hsize : ip4hdr + D.length < 2 ^ 16) (hF : F = if e < D.length then 2 ^ 16 else 0)
    (hoe : o ≤ e) (he : e ≤ D.length) (haligned : o % 8 = 0) (hseg : seglen % 8 = 0)
    (hseg0 : 0 < seglen) (hfuel : e - o ≤ fuel)
    (hxp : xp.flatten.take (e - o) = (D.drop o).take (e - o)) :
    ∃ ps, fragLoop eh lid seglen (e + F) fuel (o + F) xp = (ps, true) ∧
      CutAt (eh.src, eh.dst, hnputs lid) D o ps e ∧
      ∀ p ∈ ps, p.hdr.length ≤ ip4hdr + seglen := by
  have hF8 : (o + F) / 8 = o / 8 + if e < D.length then ipMf else 0 := by
    rw [hF]
    simp only [ipMf]
    split <;> omega
  induction fuel generalizing o xp with
  | zero =>
    have heq : o = e := by omega
    exact ⟨[], rfl, heq, by simp⟩
  | succ fuel ih =>
    by_cases hlt : o < e
    · have hlt' : o + F < e + F := by omega
      have hlen : e - o ≤ xp.flatten.length := by
        have hl := congrArg List.length hxp
        simp only [length_take, length_drop] at hl
        omega
      by_cases hlast : e ≤ o + seglen
      · -- the last fragment inherits the flag of the packet
        have hlast' : e + F ≤ o + F + seglen := by omega
        have hrest : e + F - (o + F) = e - o := by omega
        have hend : o + (e - o) = e := by omega
        obtain ⟨xp', hcopy, _⟩ := copyUp_spec hlen
        have hdone : fragLoop eh lid (e - o) (e + F) fuel (o + F + (e - o)) xp' = ([], true) := by
          have hnot : ¬ o + F + (e - o) < e + F := by omega
          cases fuel with
          | zero => rfl
          | succ fuel => simp [fragLoop, hnot]
        refine ⟨[⟨fragHdr eh lid ((o + F) / 8) (e - o) (xp.flatten.take (e - o)), [xp.flatten.take (e - o)]⟩],
          ?_, ?_, ?_⟩
        · simp [fragLoop, hlt', hlast', hrest, hcopy, hdone]
        · refine ⟨e - o, piece_fragHdr (by omega) (by omega) hsize haligned ?_ hxp, hend⟩
          rw [hF8, hend]
        · intro p hp
          rw [mem_singleton.mp hp]
          simp only [fragHdr, hnputs]
          have hmod := Nat.mod_le (e - o + ip4hdr) (2 ^ 16)
          omega
      · have hlast' : ¬ e + F ≤ o + F + seglen := by omega
        obtain ⟨xp', hcopy, hflat⟩ := copyUp_spec (show seglen ≤ xp.flatten.length by omega)
        have hxp' : xp'.flatten.take (e - (o + seglen)) =
            (D.drop (o + seglen)).take (e - (o + seglen)) := by
          have hd := congrArg (List.drop seglen) hxp
          rw [drop_take, drop_take, drop_drop] at hd
          rw [hflat]
          rwa [show e - (o + seglen) = e - o - seglen by omega]
        have hbytes : xp.flatten.take seglen = (D.drop o).take seglen := by
          have ht := congrArg (List.take seglen) hxp
          rwa [take_take, take_take, Nat.min_eq_left (by omega)] at ht
        have hnext8 : (o + seglen + F) / 8 = (o + seglen) / 8 + if e < D.length then ipMf else 0 := by
          rw [hF]
          simp only [ipMf]
          split <;> omega
        obtain ⟨ps, hrun, hcut, hfit⟩ :=
          ih (show o + seglen ≤ e by omega) (by omega) (by omega) hxp' hnext8
        have hfrag : (o + F) / 8 ||| ipMf = o / 8 + if o + seglen < D.length then ipMf else 0 := by
          have hsmall : o / 8 < ipMf := by
            simp only [ip4hdr, ipMf] at hsize ⊢
            omega
          have hmf := or_ipMf hsmall
          rw [hF8, if_pos (by omega : o + seglen < D.length)]
          split
          · exact hmf.2
          · exact hmf.1
        refine ⟨⟨fragHdr eh lid ((o + F) / 8 ||| ipMf) seglen (xp.flatten.take seglen),
          [xp.flatten.take seglen]⟩ :: ps, ?_, ?_, ?_⟩
        · have hmove : o + F + seglen = o + seglen + F := by omega
          rw [← hmove] at hrun
          simp [fragLoop, hlt', hlast', hcopy, hrun]
        · exact ⟨seglen, piece_fragHdr hseg0 (by omega) hsize haligned hfrag hbytes, hcut⟩
        · intro p hp
          rcases mem_cons.mp hp with rfl | hp
          · simp only [fragHdr, hnputs]
            have hmod := Nat.mod_le (seglen + ip4hdr) (2 ^ 16)
            omega
          · exact hfit p hp
    · have heq : o = e := by omega
      have hnot : ¬ o + F < e + F := by omega
      exact ⟨[], by simp [fragLoop, hnot], heq, by simp⟩

/-- The packet that `ipoput4` is given, and the part of the datagram `D` that it has: the
bytes from `o` to `o + len`.  A packet that is sent on may be a fragment; one that starts
here is the datagram. -/
inductive Origin (k : Key) (D : List UInt8) (id4 : Nat) (bp : Packet) : Bool → Nat → Nat → Prop
  | gated {o len : Nat} (hpiece : Piece k D o len bp) (hid : bp.hdr.id < 2 ^ 16) :
      Origin k D id4 bp true o len
  | here (hkey : (bp.hdr.src, bp.hdr.dst, hnputs (id4 + 1)) = k) (hdata : bp.blocks.flatten = D)
      (hdf : (bp.hdr.frag / 2 ^ 8) &&& (ipDf / 2 ^ 8) = 0) : Origin k D id4 bp false 0 D.length

/-- A packet that does not fit is cut into two fragments or more. -/
theorem ipoput4_spec {bp : Packet} {gating : Bool} {id4 : Nat} {medialen : Int}
    (h : Origin k D id4 bp gating o len) (hsize : ip4hdr + D.length < 2 ^ 16)
    (hmedia : medialen < ip4hdr + len) (hseg : 8 ≤ (medialen - ip4hdr) / 8 * 8) (ttl tos : Nat) :
    ∃ ps, ipoput4 (some medialen) id4 bp gating ttl tos = .fragmented ps ∧
      CutAt k D o ps (o + len) ∧ 2 ≤ ps.length := by
  -- the number of fragments follows from the length of each
  have htwo : ∀ ps, CutAt k D o ps (o + len) →
      (∀ p ∈ ps, p.hdr.length ≤ ip4hdr + ((medialen - ip4hdr) / 8 * 8).toNat) → 2 ≤ ps.length := by
    intro ps hcut hfit
    match ps, hcut with
    | [], hcut =>
      have heq : o = o + len := hcut
      omega
    | [p], ⟨l, hp, hcut⟩ =>
      have heq : o + l = o + len := hcut
      have hl := hp.length
      have hle := hfit p (by simp)
      omega
    | _ :: _ :: _, _ => simp
  have hlen : ¬ (ip4hdr + len : Int) ≤ medialen := by omega
  have hseg' : ¬ (medialen - ip4hdr) / 8 * 8 < 8 := by omega
  cases h with
  | gated hpiece hid =>
    have hfits := hpiece.fits
    have hmax : ¬ ipMax ≤ ip4hdr + len := by
      simp only [ipMax]
      omega
    have hblen : len ≤ bp.blocks.flatten.length := by
      have hl := congrArg List.length hpiece.data
      simp only [length_take, length_drop] at hl
      omega
    obtain ⟨_, hdf, _, _⟩ := hpiece.flags hsize
    have hfragoff : bp.hdr.frag * 8 = o + if o + len < D.length then 2 ^ 16 else 0 := by
      have haligned := hpiece.aligned
      rw [hpiece.frag]
      simp only [ipMf]
      split <;> omega
    have hxp : (skipHdr bp.blocks).flatten.take (o + len - o) = (D.drop o).take (o + len - o) := by
      rw [flatten_skipHdr, Nat.add_sub_cancel_left]
      exact hpiece.data
    obtain ⟨ps, hrun, hcut, hfit⟩ := fragLoop_spec { bp.hdr with ttl } bp.hdr.id
      hsize rfl (Nat.le_add_right o len) hfits hpiece.aligned
      (show ((medialen - ip4hdr) / 8 * 8).toNat % 8 = 0 by omega) (by omega) (Nat.le_refl _) hxp
    have hkey : (bp.hdr.src, bp.hdr.dst, hnputs bp.hdr.id) = k := by
      rw [hnputs, Nat.mod_eq_of_lt hid]
      exact hpiece.key
    rw [hkey] at hcut
    refine ⟨ps, ?_, hcut, htwo ps hcut hfit⟩
    have hfuel : len + bp.hdr.frag * 8 - bp.hdr.frag * 8 = o + len - o := by omega
    have hend : len + bp.hdr.frag * 8 =
        o + len + if o + len < D.length then 2 ^ 16 else 0 := by omega
    rw [← hfragoff, ← hend, ← hfuel] at hrun
    have hwhole : ¬ (ip4hdr + bp.blocks.flatten.length < bp.hdr.length) := by
      have hl := hpiece.length
      omega
    have hmin : min bp.hdr.length (ip4hdr + bp.blocks.flatten.length) = ip4hdr + len := by
      have hl := hpiece.length
      omega
    have hlen' : ¬ ((ip4hdr + len : Nat) : Int) ≤ medialen := by exact_mod_cast hlen
    simp only [ipoput4, hwhole, hmin, and_false, if_false, if_true, hmax, hlen', hdf, hseg', hrun,
      Nat.add_sub_cancel_left, ne_eq, not_true_eq_false]
  | here hkey hdata hdf =>
    have hmax : ¬ ipMax ≤ ip4hdr + D.length := by
      simp only [ipMax]
      omega
    have hxp : (skipHdr bp.blocks).flatten.take (D.length - 0) = (D.drop 0).take (D.length - 0) := by
      rw [flatten_skipHdr, hdata, drop_zero]
    obtain ⟨ps, hrun, hcut, hfit⟩ :=
      fragLoop_spec { bp.hdr with vihl := 0x45, tos, ttl } (id4 + 1)
        hsize rfl (Nat.zero_le D.length) (Nat.le_refl _) (Nat.zero_mod 8)
        (show ((medialen - ip4hdr) / 8 * 8).toNat % 8 = 0 by omega) (by omega) (Nat.le_refl _) hxp
    rw [hkey] at hcut
    rw [← Nat.zero_add D.length] at hcut
    refine ⟨ps, ?_, hcut, htwo ps hcut hfit⟩
    have hlen' : ¬ ((ip4hdr + D.length : Nat) : Int) ≤ medialen := by exact_mod_cast hlen
    simp only [Nat.lt_irrefl, if_false, Nat.add_zero] at hrun
    simp only [ipoput4, hdata, Bool.false_eq_true, false_and, if_false, hmax, hlen', hdf, hseg', hrun,
      Nat.add_sub_cancel_left, ne_eq, not_true_eq_false, Nat.add_zero]
    rfl

/-- What is read from a fragment that arrives. -/
theorem Piece.view_frag (h : Piece k D o len p) (hsize : ip4hdr + D.length < 2 ^ 16) :
    (view (markMore p)).frag.foff = o ∧ (view (markMore p)).frag.flen = len := by
  have hpos := h.pos
  have hfits := h.fits
  have haligned := h.aligned
  have hfrag := h.frag
  have hlength := h.length
  simp only [ip4hdr] at hsize hlength
  simp only [ipMf] at hfrag
  constructor
  · simp only [view, markMore, hnputs]
    split at hfrag <;> omega
  · simp only [view, markMore, hnputs, ip4hdr]
    omega

theorem CutAt.tiles (h : CutAt k D o ps e) (hsize : ip4hdr + D.length < 2 ^ 16) :
    Tiles o (ps.map fun p => (view (markMore p)).frag) e := by
  induction ps generalizing o with
  | nil => exact h
  | cons p t ih =>
    obtain ⟨len, hp, ht⟩ := h
    obtain ⟨hoff, hlen⟩ := hp.view_frag hsize
    refine ⟨hoff, by rw [hlen]; exact hp.pos, ?_⟩
    rw [hlen]
    exact ih ht

/-- Of two fragments or more, none is the whole datagram. -/
theorem CutAt.part (h : CutAt k D 0 ps e) (htwo : 2 ≤ ps.length) (hp : p ∈ ps) :
    ∃ o len, Piece k D o len p ∧ (0 < o ∨ o + len < D.length) := by
  match ps, h, htwo with
  | q :: r :: t, ⟨len, hq, len', hr, ht⟩, _ =>
    have hpos := hq.pos
    rcases mem_cons.mp hp with rfl | hpt
    · have hpos' := hr.pos
      have hfits := hr.fits
      exact ⟨0, len, hq, Or.inr (by omega)⟩
    · have hcut : CutAt k D (0 + len) (r :: t) e := ⟨len', hr, ht⟩
      obtain ⟨o, l, hpiece, hle⟩ := hcut.mem hpt
      exact ⟨o, l, hpiece, Or.inl (by omega)⟩

theorem CutAt.cuts (h : CutAt k D 0 ps D.length) (hsize : ip4hdr + D.length < 2 ^ 16)
    (htwo : 2 ≤ ps.length) : Cuts Blk.more (fun p => view (markMore p)) k D.length ps where
  tiles := h.tiles hsize
  more p hp := by
    obtain ⟨o, len, hpiece, _⟩ := h.mem hp
    obtain ⟨hoff, hlen⟩ := hpiece.view_frag hsize
    obtain ⟨_, _, _, hmore⟩ := hpiece.flags hsize
    rw [hoff, hlen]
    exact decide_eq_decide.mpr hmore
  key p hp := by
    obtain ⟨o, len, hpiece, _⟩ := h.mem hp
    exact hpiece.key
  single p hp := by
    obtain ⟨o, len, hpiece, hpart⟩ := h.part htwo hp
    obtain ⟨_, _, hmf, _⟩ := hpiece.flags hsize
    have hfrag := hpiece.frag
    have haligned := hpiece.aligned
    have hfits := hpiece.fits
    simp only [view, markMore]
    apply decide_eq_false
    rintro ⟨htos, hzero⟩
    by_cases hlt : o + len < D.length
    · rw [if_pos (hmf.mpr hlt)] at htos
      cases htos
    · rw [if_neg hlt] at hfrag
      simp only [ip4hdr] at hsize
      simp only [ipMf] at hfrag hzero
      omega
  two := htwo

/-- The queue put together has the data of the fragments. -/
theorem CutAt.join_tail (h : CutAt k D o ps e) (hsize : ip4hdr + D.length < 2 ^ 16) :
    ((ps.map fun p => (view (markMore p)).frag).map Frag.flen).sum = e - o ∧
    ((ps.map fun p => (view (markMore p)).frag).map fun c => c.blk.data.take c.flen).flatten =
      (D.drop o).take (e - o) := by
  induction ps generalizing o with
  | nil =>
    have heq : o = e := h
    simp [heq]
  | cons p t ih =>
    obtain ⟨len, hp, ht⟩ := h
    obtain ⟨_, hlen⟩ := hp.view_frag hsize
    obtain ⟨hsum, hdata⟩ := ih ht
    have hle := ht.le
    have hfits := hp.fits
    have hsplit : e - o = len + (e - (o + len)) := by omega
    constructor
    · simp only [map_cons, sum_cons, hsum, hlen]
      omega
    · simp only [map_cons, flatten_cons, hdata, hlen]
      rw [hsplit, take_add, drop_drop]
      exact congrArg (· ++ _) hp.data

theorem CutAt.join (h : CutAt k D 0 ps D.length) (hsize : ip4hdr + D.length < 2 ^ 16)
    (hne : ps ≠ []) :
    ∃ pkt, join (ps.map fun p => (view (markMore p)).frag) = some pkt ∧
      pkt.hdr.length = ip4hdr + D.length ∧ pkt.blocks.flatten = D := by
  match ps, h, hne with
  | p :: t, ⟨len, hp, ht⟩, _ =>
    obtain ⟨hsum, hdata⟩ := ht.join_tail hsize
    have hfits := hp.fits
    have hlength := hp.length
    rw [Nat.zero_add] at hsum hdata hfits
    refine ⟨_, rfl, ?_, ?_⟩
    · show hnputs (p.hdr.length + _) = _
      rw [hsum, hlength, hnputs, Nat.mod_eq_of_lt (by omega)]
      omega
    · show p.blocks.flatten.take (p.hdr.length - ip4hdr) ++ List.flatten _ = D
      rw [hdata, hlength, Nat.add_sub_cancel_left, hp.data, drop_zero, ← drop_take,
        take_of_length_le (Nat.le_refl D.length), take_append_drop]

/-- What `ip4reassemble` returns. -/
def result (p : Packet) : Outcome Blk → Option Packet
  | .passed => some p
  | .held => none
  | .done blist => Ip4.join blist

theorem receive_eq_feed {arr : List (Nat × Packet)} (tab : Table Key Blk)
    (hmbz : ∀ x ∈ arr, x.2.hdr.frag &&& ipMbz = 0) :
    receive tab arr = (arr.map fun x => markMore x.2).zipWith result
      (feed Blk.up Blk.more (fun p => view (markMore p)) tab arr).2 := by
  induction arr generalizing tab with
  | nil => rfl
  | cons x t ih =>
    obtain ⟨now, p⟩ := x
    have hp : (markMore p).hdr.frag &&& ipMbz = 0 := hmbz _ mem_cons_self
    have ht := fun tab' => ih tab' (fun y hy => hmbz y (mem_cons_of_mem _ hy))
    simp only [receive, ip4reassemble, hp, feed, map_cons]
    generalize enter Blk.up Blk.more tab now (view (markMore p)).key (view (markMore p)).single
      (view (markMore p)).frag = r
    obtain ⟨tab', o⟩ := r
    cases o with
    | passed => simp [ht, result]
    | held => simp [ht, result]
    | done blist => simp [ht, result]

theorem zipWith_held (arr : List (Nat × Packet)) :
    (arr.map fun x => markMore x.2).zipWith result (List.replicate arr.length .held) =
      List.replicate arr.length none := by
  induction arr with
  | nil => rfl
  | cons x t ih => simp [replicate_succ, ih, result]

/-- **The IPv4 fragmentation round trip.**  Take a datagram of which other fragments may be
on their way already, `pre` and `post`, and the packet with the rest of it, too large for the
interface.  `ipoput4` cuts it; in whatever order the fragments then arrive and however often,
`ip4reassemble` returns nothing while one is missing, and with the arrival of the last one a
packet that has the length and the data of the datagram.  Duplicates behind that yield
nothing, unless all the fragments come again. -/
theorem fragments_round_trip {bp : Packet} {gating : Bool} {id4 : Nat} {medialen : Int}
    {pre post : List Packet} {tab : Table Key Blk}
    (hsize : ip4hdr + D.length < 2 ^ 16)
    (hpre : CutAt k D 0 pre o) (hbp : Origin k D id4 bp gating o len)
    (hpost : CutAt k D (o + len) post D.length)
    (hmedia : medialen < ip4hdr + len) (hseg : 8 ≤ (medialen - ip4hdr) / 8 * 8) (ttl tos : Nat)
    (habs : Absent tab k) :
    ∃ ps, ipoput4 (some medialen) id4 bp gating ttl tos = .fragmented ps ∧
      ∀ xs : List (Nat × Packet), (∀ y ∈ xs, y.2 ∈ pre ++ ps ++ post) →
        ¬ Seen (pre ++ ps ++ post) xs →
        receive tab xs = List.replicate xs.length none ∧
        ∀ (x : Nat × Packet) (ys : List (Nat × Packet)), (∀ y ∈ x :: ys, y.2 ∈ pre ++ ps ++ post) →
          Seen (pre ++ ps ++ post) (xs ++ [x]) → ¬ Seen (pre ++ ps ++ post) ys →
          ∃ pkt, receive tab (xs ++ [x] ++ ys) =
              List.replicate xs.length none ++ [some pkt] ++ List.replicate ys.length none ∧
            pkt.hdr.length = ip4hdr + D.length ∧ pkt.blocks.flatten = D := by
  obtain ⟨ps, hrun, hps, htwo⟩ := ipoput4_spec hbp hsize hmedia hseg ttl tos
  refine ⟨ps, hrun, ?_⟩
  have hcut : CutAt k D 0 (pre ++ ps ++ post) D.length := (hpre.append hps).append hpost
  have hall2 : 2 ≤ (pre ++ ps ++ post).length := by
    simp only [length_append]
    omega
  generalize pre ++ ps ++ post = all at hcut hall2
  have hcuts := hcut.cuts hsize hall2
  have hmbz : ∀ arr : List (Nat × Packet), (∀ y ∈ arr, y.2 ∈ all) →
      ∀ x ∈ arr, x.2.hdr.frag &&& ipMbz = 0 := by
    intro arr harr x hx
    obtain ⟨o', len', hpiece, _⟩ := hcut.mem (harr x hx)
    exact (hpiece.flags hsize).1
  intro xs hxs hmiss
  have hheld := (hcuts.feed_held Blk.up habs hxs hmiss).1
  constructor
  · rw [receive_eq_feed tab (hmbz xs hxs), hheld, zipWith_held]
  · intro x ys hrest hall hmiss'
    obtain ⟨hx, hys⟩ := List.forall_mem_cons.mp hrest
    have hxs' : ∀ y ∈ xs ++ [x], y.2 ∈ all :=
      List.forall_mem_append.mpr ⟨hxs, List.forall_mem_singleton.mpr hx⟩
    obtain ⟨hdone, habs'⟩ := hcuts.feed_done Blk.up habs x hxs' hmiss hall
    have hheld' := (hcuts.feed_held Blk.up habs' hys hmiss').1
    obtain ⟨pkt, hjoin, hlength, hdata⟩ := hcut.join hsize (ne_nil_of_mem hx)
    refine ⟨pkt, ?_, hlength, hdata⟩
    have hwhole := hmbz (xs ++ [x] ++ ys) (List.forall_mem_append.mpr ⟨hxs', hys⟩)
    rw [receive_eq_feed tab hwhole, feed_append, hdone, hheld', map_append, map_append,
      zipWith_append (by simp), zipWith_append (by simp), zipWith_held, zipWith_held]
    simp [result, hjoin]

/-- A datagram of 48 bytes, and its fragments. -/
def someData : List UInt8 := (List.range 48).map UInt8.ofNat

def someFragment (o len : Nat) : Packet :=
  ⟨⟨0x45, 0, ip4hdr + len, 7, o / 8 + (if o + len < 48 then ipMf else 0), 9, 17, 0, 1, 2⟩,
    [(someData.drop o).take len]⟩

theorem piece_someFragment {o len : Nat} (hpos : 0 < len) (hfits : o + len ≤ 48)
    (haligned : o % 8 = 0) : Piece (1, 2, 7) someData o len (someFragment o len) where
  key := rfl
  pos := hpos
  fits := hfits
  aligned := haligned
  frag := rfl
  length := rfl
  data := by simp [someFragment, take_take]

/-- The middle fragment of three is cut in two; the first to be sent arrives last. -/
theorem fragments_round_trip_middle :
    ∃ p q pkt, ipoput4 (some 36) 0 (someFragment 8 24) true 8 0 = .fragmented [p, q] ∧
      receive ⟨1, []⟩ [(1, q), (2, someFragment 32 16), (3, q), (4, p), (5, someFragment 0 8), (6, q)] =
        [none, none, none, none, some pkt, none] ∧
      pkt.hdr.length = ip4hdr + 48 ∧ pkt.blocks.flatten = someData := by
  have hpre : CutAt (1, 2, 7) someData 0 [someFragment 0 8] 8 :=
    ⟨8, piece_someFragment (by decide) (by decide) (by decide), rfl⟩
  have hbp : Origin (1, 2, 7) someData 0 (someFragment 8 24) true 8 24 :=
    .gated (piece_someFragment (by decide) (by decide) (by decide)) (by decide)
  have hpost : CutAt (1, 2, 7) someData (8 + 24) [someFragment 32 16] someData.length :=
    ⟨16, piece_someFragment (by decide) (by decide) (by decide), rfl⟩
  have habs : Absent (⟨1, []⟩ : Table Key Blk) (1, 2, 7) := by simp [Absent]
  obtain ⟨ps, hrun, hall⟩ := fragments_round_trip (by decide) hpre hbp hpost
    (show (36 : Int) < ip4hdr + 24 by decide) (by decide) 8 0 habs
  obtain ⟨p, q, hpq, hp, hq⟩ : ∃ p q,
      ipoput4 (some 36) 0 (someFragment 8 24) true 8 0 = .fragmented [p, q] ∧
        p ≠ someFragment 0 8 ∧ q ≠ someFragment 0 8 := ⟨_, _, rfl, by decide, by decide⟩
  rw [hpq] at hrun
  cases hrun
  have hfirst : ¬ Seen ([someFragment 0 8] ++ [p, q] ++ [someFragment 32 16])
      [(1, q), (2, someFragment 32 16), (3, q), (4, p)] := by
    intro hseen
    have hne : someFragment 32 16 ≠ someFragment 0 8 := by decide
    simpa [hp, hq, hne] using hseen (someFragment 0 8) (by simp)
  have hdup : ¬ Seen ([someFragment 0 8] ++ [p, q] ++ [someFragment 32 16]) [(6, q)] := by
    intro hseen
    simpa [hq] using hseen (someFragment 0 8) (by simp)
  obtain ⟨_, hlast⟩ := hall [(1, q), (2, someFragment 32 16), (3, q), (4, p)] (by simp) hfirst
  obtain ⟨pkt, hrecv, hlength, hdata⟩ := hlast (5, someFragment 0 8) [(6, q)] (by simp)
    (by simp [Seen]) hdup
  exact ⟨p, q, pkt, hpq, hrecv, hlength, hdata⟩

end Ip4
