import NixKernel.Ip6frag
import NixKernel.IpfragRound

/-!
# The IPv6 fragmentation round trip

A packet without hop-by-hop and routing headers comes back from `procxtns` as it was, in whatever
order its fragments arrive.  One with such headers does not: the sender writes a payload length that
leaves them out, the receiver reads one that includes them.

A fragment with offset 0 and no more fragments is not one of several and is passed on with
its fragment header.
-/

namespace Ip6

open Reassembly Option
open Ip4 (hnputs copyUp skipHdr ipMax copyUp_spec flatten_skipHdr)

variable {b b' : List UInt8} {fuel fuel' p e : Nat} {nx n : UInt8} {q q0 : Option Nat}

/-- A header that `unfraglen` walks over. -/
def IsExt (n : UInt8) : Prop := n = hbh ∨ n = rh

instance (n : UInt8) : Decidable (IsExt n) := inferInstanceAs (Decidable (_ ∨ _))

theorem not_isExt_fh : ¬ IsExt fh := by decide

/-- Where the walk ends, and that `*q` is the byte that said so. -/
theorem skipExt_spec (h : skipExt b fuel nx q0 p = some (n, q, e)) :
    ¬ IsExt n ∧ ((q = q0 ∧ e = p ∧ n = nx) ∨
      (IsExt nx ∧ ∃ j, q = some j ∧ b[j]? = some n ∧ (j = p ∨ p + 8 ≤ j) ∧ j + 8 ≤ e)) := by
  induction fuel generalizing nx q0 p with
  | zero => cases h
  | succ fuel ih =>
    simp only [skipExt] at h
    split at h
    · next hext =>
        split at h
        · next m l hm hl =>
            obtain ⟨hn, hcase⟩ := ih h
            refine ⟨hn, Or.inr ⟨hext, ?_⟩⟩
            rcases hcase with ⟨rfl, rfl, rfl⟩ | ⟨_, j, rfl, hj, hpos, hend⟩
            · exact ⟨p, rfl, hm, Or.inl rfl, by omega⟩
            · exact ⟨j, rfl, hj, Or.inr (by omega), hend⟩
        · cases h
    · next hext =>
        cases h
        exact ⟨hext, Or.inl ⟨rfl, rfl, rfl⟩⟩

/-- The walk over a copy in which the last next header value has become `fh`. -/
theorem skipExt_marked (h : skipExt b fuel nx q0 p = some (n, q, e))
    (hq0 : ∀ j, q0 = some j → j < p)
    (hb' : ∀ i < e, b'[i]? = if q = some i then some fh else b[i]?) (hfuel : e - p < fuel') :
    skipExt b' fuel' (if q = q0 then fh else nx) q0 p = some (fh, q, e) := by
  induction fuel generalizing nx q0 p fuel' with
  | zero => cases h
  | succ fuel ih =>
    obtain ⟨fuel', rfl⟩ : ∃ k, fuel' = k + 1 := ⟨fuel' - 1, by omega⟩
    simp only [skipExt] at h
    split at h
    · next hext =>
        split at h
        · next m l hm hl =>
            have hstep := (skipExt_spec h).2
            -- the first byte of the header is the one that changes, if any, and not the second
            obtain ⟨hne, hp, hp1⟩ : q ≠ q0 ∧ b'[p]? = some (if q = some p then fh else m) ∧
                b'[p + 1]? = some l := by
              rcases hstep with ⟨rfl, rfl, rfl⟩ | ⟨_, j, rfl, _, hpos, hend⟩
              · refine ⟨?_, ?_, ?_⟩
                · intro heq
                  have hlt := hq0 p heq.symm
                  omega
                · rw [hb' p (by omega)]
                  simp
                · rw [hb' (p + 1) (by omega)]
                  simp [hl]
              · have hj : p + 8 ≤ j := by omega
                refine ⟨?_, ?_, ?_⟩
                · intro heq
                  have hlt := hq0 j heq.symm
                  omega
                · rw [hb' p (by omega)]
                  have hne : j ≠ p := by omega
                  simp [hne, hm]
                · rw [hb' (p + 1) (by omega)]
                  have hne : j ≠ p + 1 := by omega
                  simp [hne, hl]
            have hlen : p + 8 ≤ e := by
              rcases hstep with ⟨_, rfl, _⟩ | ⟨_, j, _, _, hpos, hend⟩
              · omega
              · omega
            have hfuel' : e - (p + (l.toNat + 1) * 8) < fuel' := by
              clear hstep
              omega
            have hrest := ih h (by rintro j ⟨⟩; omega) hfuel'
            rw [if_neg hne]
            simp only [skipExt, hp, hp1]
            rw [if_pos hext]
            exact hrest
        · cases h
    · next hext =>
        cases h
        rw [if_pos rfl]
        simp only [skipExt]
        exact if_neg not_isExt_fh

variable {bp : Packet}

/-- What `unfraglen` does for the sender. -/
theorem unfraglen_setfh {uflen : Nat} {bp' : Packet} (h : unfraglen bp true = some (uflen, n, bp')) :
    ∃ q e, skipExt bp.first (bp.first.length + 1) bp.hdr.proto none 0 = some (n, q, e) ∧
      uflen = ip6hdr + e ∧ bp' = bp.setNext q fh := by
  simp only [unfraglen, bind_eq_bind, bind_eq_some_iff] at h
  obtain ⟨⟨n', q, e⟩, hskip, hout⟩ := h
  split at hout
  · -- the value read from the fragment header is overwritten
    simp only [bind_eq_some_iff, map_eq_some_iff] at hout
    obtain ⟨_, ⟨v, _, rfl⟩, hout⟩ := hout
    cases hout
    refine ⟨q, e, hskip, rfl, ?_⟩
    cases q with
    | none => rfl
    | some j => simp [Packet.setNext, Packet.first, List.set_set]
  · cases hout
    exact ⟨q, e, hskip, rfl, rfl⟩

/-- The bytes of the walk after the mark. -/
theorem setNext_first (he : e ≤ bp.first.length) (w : List UInt8) {i : Nat} (hi : i < e) :
    ((bp.setNext q fh).first.take e ++ w)[i]? = if q = some i then some fh else bp.first[i]? := by
  cases q with
  | none =>
    have hlen : i < (bp.first.take e).length := by
      rw [List.length_take]
      omega
    show (bp.first.take e ++ w)[i]? = _
    rw [List.getElem?_append_left hlen, List.getElem?_take_of_lt hi]
    simp
  | some j =>
    have hlen : i < ((bp.first.set j fh).take e).length := by
      rw [List.length_take, List.length_set]
      omega
    show ((bp.first.set j fh).take e ++ w)[i]? = _
    rw [List.getElem?_append_left hlen, List.getElem?_take_of_lt hi, List.getElem?_set]
    by_cases hij : j = i
    · subst hij
      simp [show j < bp.first.length by omega]
    · simp [hij]

theorem set_back {j : Nat} (hget : b[j]? = some n) (hj : j < e) (he : e ≤ b.length) :
    ((b.set j fh).take e ++ b').set j n = b.take e ++ b' := by
  have hlen : j < ((b.set j fh).take e).length := by
    rw [List.length_take, List.length_set]
    omega
  rw [List.set_append_left _ _ hlen, List.take_set, List.set_set]
  congr 1
  apply List.ext_getElem?
  intro i
  rw [List.getElem?_set]
  by_cases hij : j = i
  · subst hij
    have hjt : j < (b.take e).length := by
      rw [List.length_take]
      omega
    rw [List.getElem?_take_of_lt hj, hget, if_pos rfl, if_pos hjt]
  · simp [hij]

/-- The receiver's `unfraglen` takes the mark of the sender's away: the value comes from the
fragment header. -/
theorem unfraglen_marked (h : skipExt bp.first fuel bp.hdr.proto none 0 = some (n, q, e))
    (he : e ≤ bp.first.length) (ploadlen : Nat) (w : List UInt8) :
    unfraglen ⟨{ (bp.setNext q fh).hdr with ploadlen },
        [(bp.setNext q fh).first.take e ++ n :: w]⟩ false =
      some (ip6hdr + e, fh, ⟨{ bp.hdr with ploadlen }, [bp.first.take e ++ n :: w]⟩) := by
  have hspec := (skipExt_spec h).2
  have hlen : ((bp.setNext q fh).first.take e).length = e := by
    have hfirst : (bp.setNext q fh).first.length = bp.first.length := by
      cases q with
      | none => rfl
      | some j => simp [Packet.setNext, Packet.first]
    rw [List.length_take]
    omega
  have hwalk : skipExt ((bp.setNext q fh).first.take e ++ n :: w)
      (((bp.setNext q fh).first.take e ++ n :: w).length + 1)
      (bp.setNext q fh).hdr.proto none 0 = some (fh, q, e) := by
    have hproto : (bp.setNext q fh).hdr.proto = if q = none then fh else bp.hdr.proto := by
      cases q <;> rfl
    rw [hproto]
    apply skipExt_marked h (by simp) (fun i hi => setNext_first he _ hi)
    rw [List.length_append, hlen]
    omega
  have hnext : ((bp.setNext q fh).first.take e ++ n :: w)[e]? = some n := by
    rw [List.getElem?_append_right (by omega), hlen]
    simp
  simp only [unfraglen, Packet.first, List.headD_cons] at hwalk ⊢
  simp only [Packet.first] at hnext
  rw [hwalk]
  simp only [bind_eq_bind, bind_some, if_true, hnext, map_some]
  cases q with
  | none =>
    have hn : n = bp.hdr.proto := by
      rcases hspec with ⟨_, _, rfl⟩ | ⟨_, j, hj, _⟩
      · rfl
      · cases hj
    simp [Packet.setNext, hn]
  | some j =>
    have hj : (bp.blocks.headD [])[j]? = some n ∧ j < e := by
      rcases hspec with ⟨hnone, _⟩ | ⟨_, j', hj', hn, _, hend⟩
      · cases hnone
      · cases hj'
        exact ⟨hn, by omega⟩
    obtain ⟨hget, hje⟩ := hj
    simp only [Packet.setNext, Packet.first, List.headD_cons, List.tail_cons] at hlen he ⊢
    rw [set_back hget hje he]
    rfl

/-- A packet that is cut: the header and the blocks as they go out, where the walk over the
unfragmentable part ended, the identification, and the data behind. -/
structure Outgoing where
  bp : Packet
  nexthdr : UInt8
  q : Option Nat
  e : Nat
  lid : Nat
  data : List UInt8
  walk : skipExt bp.first (bp.first.length + 1) bp.hdr.proto none 0 = some (nexthdr, q, e)
  room : e ≤ bp.first.length
  size : ip6hdr + e + data.length < 2 ^ 16

namespace Outgoing

variable {O : Outgoing} {o s len : Nat} {ps : List Packet} {p : Packet}

/-- The extension headers. -/
def ext (O : Outgoing) : List UInt8 := O.bp.first.take O.e

theorem length_ext (O : Outgoing) : O.ext.length = O.e := by
  have hroom := O.room
  rw [ext, List.length_take]
  omega

/-- What is behind the unfragmentable part in the fragment with `len` bytes from `o` on. -/
def tail (O : Outgoing) (o len : Nat) : List UInt8 :=
  fraghdr O.nexthdr O.lid o (decide (o + len < O.data.length)) ++ (O.data.drop o).take len

/-- This fragment as it is sent. -/
def fragment (O : Outgoing) (o len : Nat) : Packet :=
  ⟨{ (O.bp.setNext O.q fh).hdr with ploadlen := len + ip6fhdr },
    [(O.bp.setNext O.q fh).first.take O.e ++ O.tail o len]⟩

/-- This fragment when its next header value has been restored. -/
def restored (O : Outgoing) (o len : Nat) : Packet :=
  ⟨{ O.bp.hdr with ploadlen := len + ip6fhdr }, [O.ext ++ O.tail o len]⟩

theorem unfraglen_fragment (O : Outgoing) (o len : Nat) :
    unfraglen (O.fragment o len) false = some (ip6hdr + O.e, fh, O.restored o len) :=
  unfraglen_marked O.walk O.room _ _

/-- The packets are the fragments of `s` bytes each from `o` on; the last may be shorter. -/
def CutAt (O : Outgoing) (s : Nat) : Nat → List Packet → Prop
  | o, [] => o = O.data.length
  | o, p :: ps => o < O.data.length ∧ o % 8 = 0 ∧
      p = O.fragment o (min s (O.data.length - o)) ∧
      O.CutAt s (o + min s (O.data.length - o)) ps

theorem fragLoop_spec {xp : List (List UInt8)} (hs : s % 8 = 0) (hs0 : 0 < s)
    (ho : o ≤ O.data.length) (haligned : o % 8 = 0) (hfuel : O.data.length - o ≤ fuel)
    (hxp : xp.flatten.take (O.data.length - o) = O.data.drop o) :
    ∃ ps, fragLoop (O.bp.setNext O.q fh).hdr ((O.bp.setNext O.q fh).first.take O.e) O.nexthdr O.lid
      s O.data.length fuel o xp = (ps, true) ∧ O.CutAt s o ps := by
  induction fuel generalizing o xp with
  | zero =>
    have heq : o = O.data.length := by omega
    exact ⟨[], rfl, heq⟩
  | succ fuel ih =>
    by_cases hlt : o < O.data.length
    · have hsize := O.size
      have hlen : O.data.length - o ≤ xp.flatten.length := by
        have hl := congrArg List.length hxp
        simp only [List.length_take, List.length_drop] at hl
        omega
      by_cases hlast : O.data.length ≤ o + s
      · -- the last fragment
        have hmin : min s (O.data.length - o) = O.data.length - o := by omega
        have hend : o + (O.data.length - o) = O.data.length := by omega
        obtain ⟨xp', hcopy, _⟩ := copyUp_spec hlen
        have hdone : fragLoop (O.bp.setNext O.q fh).hdr ((O.bp.setNext O.q fh).first.take O.e)
            O.nexthdr O.lid (O.data.length - o) O.data.length fuel O.data.length xp' = ([], true) := by
          cases fuel with
          | zero => rfl
          | succ fuel => simp [fragLoop]
        refine ⟨[O.fragment o (O.data.length - o)], ?_, hlt, haligned, by rw [hmin], ?_⟩
        · have hput : hnputs (O.data.length - o + ip6fhdr) = O.data.length - o + ip6fhdr := by
            apply Nat.mod_eq_of_lt
            simp only [ip6hdr, ip6fhdr] at hsize ⊢
            omega
          simp [fragLoop, hlt, hlast, hcopy, hend, hdone, hxp, hput, fragment, tail, List.take_of_length_le]
        · rw [hmin, hend]
          rfl
      · have hmin : min s (O.data.length - o) = s := by omega
        obtain ⟨xp', hcopy, hflat⟩ := copyUp_spec (show s ≤ xp.flatten.length by omega)
        have hxp' : xp'.flatten.take (O.data.length - (o + s)) = O.data.drop (o + s) := by
          have hd := congrArg (List.drop s) hxp
          rw [List.drop_take, List.drop_drop] at hd
          rw [hflat]
          rwa [show O.data.length - (o + s) = O.data.length - o - s by omega]
        have hbytes : xp.flatten.take s = (O.data.drop o).take s := by
          have ht := congrArg (List.take s) hxp
          rwa [List.take_take, Nat.min_eq_left (by omega)] at ht
        obtain ⟨ps, hrun, hcut⟩ := ih (show o + s ≤ O.data.length by omega) (by omega) (by omega) hxp'
        refine ⟨O.fragment o s :: ps, ?_, hlt, haligned, by rw [hmin], by rw [hmin]; exact hcut⟩
        have hput : hnputs (s + ip6fhdr) = s + ip6fhdr := by
          apply Nat.mod_eq_of_lt
          simp only [ip6hdr, ip6fhdr] at hsize ⊢
          omega
        have hmore : o + s < O.data.length := by omega
        simp [fragLoop, hlt, hlast, hcopy, hrun, hbytes, hput, fragment, tail, hmore]
    · have heq : o = O.data.length := by omega
      exact ⟨[], by simp [fragLoop, hlt], heq⟩

end Outgoing

variable {gating : Bool} {id6 ttl tos : Nat} {medialen reassemble : Int} {ps : List Packet}

theorem first_append_tail (bp : Packet) : bp.first ++ bp.blocks.tail.flatten = bp.blocks.flatten := by
  obtain ⟨hdr, blocks⟩ := bp
  cases blocks with
  | nil => rfl
  | cons b t => rfl

/-- The mark is in front of the data. -/
theorem setNext_behind (h : skipExt bp.first fuel bp.hdr.proto none 0 = some (n, q, e)) :
    (bp.setNext q fh).first.length = bp.first.length ∧
    (bp.setNext q fh).first.drop e = bp.first.drop e ∧
    (bp.setNext q fh).blocks.tail = bp.blocks.tail := by
  rcases (skipExt_spec h).2 with ⟨rfl, _, _⟩ | ⟨_, j, rfl, _, _, hend⟩
  · exact ⟨rfl, rfl, rfl⟩
  · refine ⟨by simp [Packet.setNext, Packet.first], ?_, rfl⟩
    show (bp.first.set j fh).drop e = bp.first.drop e
    exact List.drop_set_of_lt (by omega)

theorem outLen_le (bp : Packet) (gating : Bool) : ip6hdr ≤ outLen bp gating ∧
    outLen bp gating - ip6hdr ≤ bp.blocks.flatten.length := by
  simp only [outLen]
  split <;> omega

/-- What `ipoput6` cuts and how. -/
theorem ipoput6_spec
    (h : ipoput6 (some medialen) reassemble id6 bp gating ttl tos = .fragmented ps) :
    ∃ (O : Outgoing) (s : Nat), O.CutAt s 0 ps ∧ 8 ≤ s ∧ s < O.data.length ∧
      O.lid = id6 + 1 ∧ O.bp = { bp with hdr := outHdr bp.hdr gating ttl tos } ∧
      O.ext ++ O.data = bp.blocks.flatten.take (outLen bp gating - ip6hdr) := by
  simp only [ipoput6] at h
  split at h
  · cases h
  split at h
  · cases h
  next hmax =>
  split at h
  · cases h
  next hfit =>
  split at h
  · cases h
  split at h
  · cases h
  next uflen nexthdr bp' hunfrag =>
  split at h
  · cases h
  next huflen =>
  split at h
  · cases h
  next hseg =>
  split at h
  · cases h
  next hroom =>
  obtain ⟨q, e, hwalk, rfl, rfl⟩ := unfraglen_setfh hunfrag
  obtain ⟨hlength, hdrop, htail⟩ := setNext_behind hwalk
  have hlen := outLen_le bp gating
  have hroom' : e ≤ bp.first.length := by
    have hsame : ({ bp with hdr := outHdr bp.hdr gating ttl tos } : Packet).first = bp.first := rfl
    rw [hlength, hsame] at hroom
    omega
  have hdata : ((bp.blocks.flatten.take (outLen bp gating - ip6hdr)).drop e).length =
      outLen bp gating - (ip6hdr + e) := by
    rw [List.length_drop, List.length_take]
    omega
  let O : Outgoing :=
    { bp := { bp with hdr := outHdr bp.hdr gating ttl tos }
      nexthdr, q, e
      lid := id6 + 1
      data := (bp.blocks.flatten.take (outLen bp gating - ip6hdr)).drop e
      walk := hwalk
      room := hroom'
      size := by
        rw [hdata]
        simp only [ipMax] at hmax
        omega }
  have hxp : (skipHdr (bp.first.drop e :: bp.blocks.tail)).flatten.take (O.data.length - 0) =
      O.data.drop 0 := by
    rw [flatten_skipHdr, List.flatten_cons, ← List.drop_append_of_le_length hroom',
      first_append_tail, Nat.sub_zero, List.drop_zero]
    show (bp.blocks.flatten.drop e).take O.data.length =
      (bp.blocks.flatten.take (outLen bp gating - ip6hdr)).drop e
    rw [hdata, List.drop_take, Nat.sub_add_eq]
  have hs : ((medialen - (↑(ip6hdr + e) + ip6fhdr)) / 8 * 8).toNat % 8 = 0 := by omega
  obtain ⟨qs, hrun, hcut⟩ := O.fragLoop_spec hs (by omega) (Nat.zero_le _) (Nat.zero_mod 8)
    (Nat.le_refl _) hxp
  refine ⟨O, ((medialen - (↑(ip6hdr + e) + ip6fhdr)) / 8 * 8).toNat, ?_, by omega, ?_, rfl, rfl, ?_⟩
  · have hfirst : (({ bp with hdr := outHdr bp.hdr gating ttl tos } : Packet).setNext q fh).first.drop e =
        bp.first.drop e := hdrop
    have hback : (({ bp with hdr := outHdr bp.hdr gating ttl tos } : Packet).setNext q fh).blocks.tail =
        bp.blocks.tail := htail
    rw [Nat.add_sub_cancel_left, hfirst, hback, ← hdata] at h
    have hloop : fragLoop (({ bp with hdr := outHdr bp.hdr gating ttl tos } : Packet).setNext q fh).hdr
        ((({ bp with hdr := outHdr bp.hdr gating ttl tos } : Packet).setNext q fh).first.take e) nexthdr
        (id6 + 1) ((medialen - (↑(ip6hdr + e) + ip6fhdr)) / 8 * 8).toNat
        ((bp.blocks.flatten.take (outLen bp gating - ip6hdr)).drop e).length
        ((bp.blocks.flatten.take (outLen bp gating - ip6hdr)).drop e).length 0
        (skipHdr (bp.first.drop e :: bp.blocks.tail)) = (qs, true) := hrun
    simp only [hloop, if_true] at h
    cases h
    exact hcut
  · show _ < ((bp.blocks.flatten.take (outLen bp gating - ip6hdr)).drop e).length
    rw [hdata]
    simp only [ip6hdr, ip6fhdr] at *
    omega
  · have hext : O.ext = (bp.blocks.flatten.take (outLen bp gating - ip6hdr)).take e := by
      show bp.first.take e = _
      have hflat : bp.blocks.flatten.take e = bp.first.take e := by
        rw [← first_append_tail, List.take_append_of_le_length hroom']
      rw [List.take_take, ← hflat]
      congr 1
      simp only [ip6hdr, ip6fhdr] at *
      omega
    rw [hext]
    exact List.take_append_drop e _

theorem or_one {x : Nat} (h : x % 2 = 0) : x ||| 1 = x + 1 := by
  have hor := Nat.two_pow_add_eq_or_of_lt (show 1 < 2 ^ 1 by decide) (x / 2)
  rw [Nat.pow_one, show 2 * (x / 2) = x by omega] at hor
  exact hor.symm

/-- The byte with the flag for more fragments. -/
theorem toNat_or_flag {o : Nat} (ho : o % 8 = 0) (m : Bool) :
    (UInt8.ofNat o ||| (if m then 1 else 0)).toNat = o % 2 ^ 8 + if m then 1 else 0 := by
  cases m with
  | false => simp
  | true =>
    simp only [if_true, UInt8.toNat_or, UInt8.toNat_ofNat']
    exact or_one (by omega)

theorem getD_behind {l w : List UInt8} {i : Nat} (hl : l.length = e) :
    (l ++ w).getD (e + i) 0 = w.getD i 0 := by
  subst hl
  simp [List.getElem?_append_right]

/-- The packet as `unfraglen` leaves it. -/
def restore (p : Packet) : Packet := ((unfraglen p false).map fun r => r.2.2).getD p

/-- What `ip6reassemble` returns. -/
def result (e : Nat) (p : Packet) : Outcome Blk → Reasm
  | .passed => .packet ⟨p.hdr, [p.blocks.flatten]⟩
  | .held => .nil
  | .done blist =>
    match join e blist with
    | none => .overrun
    | some bp => .packet bp

namespace Outgoing

variable {O : Outgoing} {o s len : Nat} {ps : List Packet} {p : Packet} {tab : Table Key Blk}
  {arr : List (Nat × Packet)}

/-- The queue of the fragments. -/
def key (O : Outgoing) : Key := (O.bp.hdr.src, O.bp.hdr.dst, O.lid % 2 ^ 32)

@[simp] theorem restore_fragment (O : Outgoing) (o len : Nat) :
    restore (O.fragment o len) = O.restored o len := by
  rw [restore, O.unfraglen_fragment]
  rfl

/-- The packets as `procxtns` sees them. -/
def arrives (O : Outgoing) (p : Packet) : View Key Blk := view O.e (restore p)

/-- What is read from the bytes of a fragment. -/
theorem offsetRM_restored (ho : o % 8 = 0) (hlt : o < O.data.length) :
    offsetRM O.e (O.restored o len).blocks.flatten =
      o + if o + len < O.data.length then 1 else 0 := by
  have hsize := O.size
  have hhi : (O.ext ++ O.tail o len).getD (O.e + 2) 0 = UInt8.ofNat (o / 2 ^ 8) :=
    getD_behind O.length_ext
  have hlo : (O.ext ++ O.tail o len).getD (O.e + 3) 0 =
      UInt8.ofNat o ||| (if decide (o + len < O.data.length) then 1 else 0) :=
    getD_behind O.length_ext
  have hflat : (O.restored o len).blocks.flatten = O.ext ++ O.tail o len := by simp [restored]
  rw [hflat, offsetRM, hhi, hlo, toNat_or_flag ho, UInt8.toNat_ofNat']
  simp only [decide_eq_true_eq]
  omega

theorem fragId_restored (O : Outgoing) (o len : Nat) :
    fragId O.e (O.restored o len).blocks.flatten = O.lid % 2 ^ 32 := by
  have h4 : (O.ext ++ O.tail o len).getD (O.e + 4) 0 = UInt8.ofNat (O.lid / 2 ^ 24) :=
    getD_behind O.length_ext
  have h5 : (O.ext ++ O.tail o len).getD (O.e + 5) 0 = UInt8.ofNat (O.lid / 2 ^ 16) :=
    getD_behind O.length_ext
  have h6 : (O.ext ++ O.tail o len).getD (O.e + 6) 0 = UInt8.ofNat (O.lid / 2 ^ 8) :=
    getD_behind O.length_ext
  have h7 : (O.ext ++ O.tail o len).getD (O.e + 7) 0 = UInt8.ofNat O.lid :=
    getD_behind O.length_ext
  have hflat : (O.restored o len).blocks.flatten = O.ext ++ O.tail o len := by simp [restored]
  rw [hflat, fragId, h4, h5, h6, h7]
  simp only [UInt8.toNat_ofNat']
  omega

/-- A fragment that arrives. -/
theorem arrives_fragment (ho : o % 8 = 0) (hlt : o < O.data.length) :
    (O.arrives (O.fragment o len)).key = O.key ∧
    (O.arrives (O.fragment o len)).frag.foff = o ∧
    (O.arrives (O.fragment o len)).frag.flen = ((len - O.e : Int) % 2 ^ 16).toNat ∧
    Blk.more O.e (O.arrives (O.fragment o len)).frag.blk = decide (o + len < O.data.length) ∧
    ((O.arrives (O.fragment o len)).single = true → o = 0 ∧ O.data.length ≤ len) := by
  have hrm := @offsetRM_restored _ _ len ho hlt
  simp only [arrives, restore_fragment]
  refine ⟨?_, ?_, ?_, ?_, ?_⟩
  · simp only [view, fragId_restored]
    rfl
  · simp only [view, hrm]
    split <;> omega
  · simp only [view, restored, ip6hdr, ip6fhdr]
    congr 2
    omega
  · have hlo : (O.ext ++ O.tail o len).getD (O.e + 3) 0 =
        UInt8.ofNat o ||| (if decide (o + len < O.data.length) then 1 else 0) :=
      getD_behind O.length_ext
    have hflat : (O.restored o len).blocks.flatten = O.ext ++ O.tail o len := by simp [restored]
    simp only [view, Blk.more, hflat, hlo, toNat_or_flag ho]
    by_cases hmore : o + len < O.data.length
    · simp only [hmore, decide_true, if_true, decide_eq_true_eq]
      omega
    · simp only [hmore, decide_false, Bool.false_eq_true, if_false, decide_eq_false_iff_not]
      omega
  · simp only [view, hrm, decide_eq_true_eq]
    intro hzero
    split at hzero
    · omega
    · omega

theorem receive_eq_feed (tab : Table Key Blk) (harr : ∀ x ∈ arr, ∃ o len, x.2 = O.fragment o len) :
    receive tab arr = arr.zipWith (fun x out => reread (result O.e (restore x.2) out))
      (feed (Blk.up O.e) (Blk.more O.e) O.arrives tab arr).2 := by
  induction arr generalizing tab with
  | nil => rfl
  | cons x t ih =>
    obtain ⟨now, p⟩ := x
    obtain ⟨o, len, rfl⟩ : ∃ o len, p = O.fragment o len := harr _ List.mem_cons_self
    have ht := fun tab' => ih tab' (fun y hy => harr y (List.mem_cons_of_mem _ hy))
    have hroom : ¬ (O.restored o len).blocks.flatten.length < O.e + ip6fhdr := by
      have hext := O.length_ext
      simp only [restored, tail, fraghdr, ip6fhdr, List.flatten_cons, List.flatten_nil,
        List.append_nil, List.length_append, List.length_cons, List.length_nil]
      omega
    simp only [receive, procxtns, O.unfraglen_fragment, if_true, Nat.add_sub_cancel_left,
      ip6reassemble, hroom, if_false, feed, arrives, restore_fragment, List.zipWith_cons_cons]
    generalize enter (Blk.up O.e) (Blk.more O.e) tab now (view O.e (O.restored o len)).key
      (view O.e (O.restored o len)).single (view O.e (O.restored o len)).frag = r
    obtain ⟨tab', out⟩ := r
    cases out with
    | passed => simp [ht, result]
    | held => simp [ht, result]
    | done blist =>
      cases hjoin : join O.e blist with
      | none => simp [ht, result, hjoin]
      | some bp => simp [ht, result, hjoin]

theorem CutAt.mem (h : O.CutAt s o ps) (hp : p ∈ ps) :
    ∃ o', o ≤ o' ∧ o' < O.data.length ∧ o' % 8 = 0 ∧
      p = O.fragment o' (min s (O.data.length - o')) := by
  induction ps generalizing o with
  | nil => cases hp
  | cons q t ih =>
    obtain ⟨hlt, haligned, hq, ht⟩ := h
    rcases List.mem_cons.mp hp with rfl | hpt
    · exact ⟨o, Nat.le_refl o, hlt, haligned, hq⟩
    · obtain ⟨o', hle, hrest⟩ := ih ht hpt
      exact ⟨o', by omega, hrest⟩

theorem CutAt.two (h : O.CutAt s 0 ps) (hs : s < O.data.length) : 2 ≤ ps.length := by
  match ps, h with
  | [], h =>
    have heq : 0 = O.data.length := h
    omega
  | [p], ⟨_, _, _, h⟩ =>
    have heq : 0 + min s (O.data.length - 0) = O.data.length := h
    omega
  | _ :: _ :: _, _ => simp

/-- None of the fragments is the whole packet. -/
theorem CutAt.not_single (h : O.CutAt s o ps) (hs : s < O.data.length) (hp : p ∈ ps) :
    (O.arrives p).key = O.key ∧ (O.arrives p).single = false := by
  obtain ⟨o', _, hlt, haligned, rfl⟩ := h.mem hp
  obtain ⟨hkey, _, _, _, hsingle⟩ := @arrives_fragment O _ (min s (O.data.length - o')) haligned hlt
  refine ⟨hkey, Bool.eq_false_iff.mpr ?_⟩
  intro htrue
  have hwhole := hsingle htrue
  omega

theorem CutAt.tiles (h : O.CutAt s o ps) (he : O.e = 0) (hs0 : 0 < s) :
    Tiles o (ps.map fun p => (O.arrives p).frag) O.data.length := by
  induction ps generalizing o with
  | nil => exact h
  | cons p t ih =>
    obtain ⟨hlt, haligned, rfl, ht⟩ := h
    have hsize := O.size
    obtain ⟨_, hoff, hlen, _⟩ := @arrives_fragment O _ (min s (O.data.length - o)) haligned hlt
    have hflen : (O.arrives (O.fragment o (min s (O.data.length - o)))).frag.flen =
        min s (O.data.length - o) := by
      rw [hlen, he]
      omega
    refine ⟨hoff, ?_, ?_⟩
    · rw [hflen]
      omega
    · rw [hflen]
      exact ih ht

theorem CutAt.cuts (h : O.CutAt s 0 ps) (he : O.e = 0) (hs0 : 0 < s) (hs : s < O.data.length) :
    Cuts (Blk.more O.e) O.arrives O.key O.data.length ps where
  tiles := h.tiles he hs0
  more p hp := by
    obtain ⟨o', _, hlt, haligned, rfl⟩ := h.mem hp
    obtain ⟨_, hoff, hlen, hmore, _⟩ :=
      @arrives_fragment O _ (min s (O.data.length - o')) haligned hlt
    have hsize := O.size
    rw [hmore, hoff, hlen, he]
    congr 2
    omega
  key p hp := (h.not_single hs hp).1
  single p hp := (h.not_single hs hp).2
  two := h.two hs

/-- The bytes behind the fragment header. -/
theorem drop_restored (he : O.e = 0) : (O.arrives (O.fragment o len)).frag.blk.bytes.drop (O.e + ip6fhdr) =
    (O.data.drop o).take len := by
  have hext : O.ext = [] := by simp [ext, he]
  have hflat : (O.arrives (O.fragment o len)).frag.blk.bytes = O.tail o len := by
    simp [arrives, view, restored, hext]
  rw [hflat, he]
  rfl

theorem CutAt.join_tail (h : O.CutAt s o ps) (he : O.e = 0) (hs0 : 0 < s) :
    ((ps.map fun p => (O.arrives p).frag).map Frag.flen).sum = O.data.length - o ∧
    ((ps.map fun p => (O.arrives p).frag).map fun c =>
      (c.blk.bytes.drop (O.e + ip6fhdr)).take c.flen).flatten = O.data.drop o ∧
    ∀ c ∈ ps.map (fun p => (O.arrives p).frag), ¬ c.blk.bytes.length < O.e + ip6fhdr + c.flen := by
  induction ps generalizing o with
  | nil =>
    have heq : o = O.data.length := h
    simp [heq]
  | cons p t ih =>
    obtain ⟨hlt, haligned, rfl, ht⟩ := h
    obtain ⟨hsum, hdata, hroom⟩ := ih ht
    have hsize := O.size
    obtain ⟨_, _, hlen, _⟩ := @arrives_fragment O _ (min s (O.data.length - o)) haligned hlt
    have hflen : (O.arrives (O.fragment o (min s (O.data.length - o)))).frag.flen =
        min s (O.data.length - o) := by
      rw [hlen, he]
      omega
    have hbytes := @drop_restored O o (min s (O.data.length - o)) he
    refine ⟨?_, ?_, ?_⟩
    · simp only [List.map_cons, List.sum_cons, hsum, hflen]
      omega
    · simp only [List.map_cons, List.flatten_cons, hdata, hflen, hbytes, List.take_take, Nat.min_self]
      rw [← List.drop_drop]
      exact List.take_append_drop _ _
    · rw [List.map_cons]
      refine List.forall_mem_cons.mpr ⟨?_, hroom⟩
      have hl := congrArg List.length hbytes
      simp only [List.length_drop, List.length_take] at hl
      rw [hflen]
      omega

/-- The packet put together. -/
theorem CutAt.join (h : O.CutAt s 0 ps) (he : O.e = 0) (hs0 : 0 < s) (hs : s < O.data.length) :
    ∃ rest, join O.e (ps.map fun p => (O.arrives p).frag) =
        some ⟨{ O.bp.hdr with ploadlen := O.data.length }, O.data.take s :: rest⟩ ∧
      O.data.take s ++ rest.flatten = O.data := by
  match ps, h with
  | [], h =>
    have heq : 0 = O.data.length := h
    omega
  | p :: t, ⟨hlt, haligned, hp, ht⟩ =>
    have hmin : min s (O.data.length - 0) = s := by omega
    rw [hmin, Nat.zero_add] at ht
    rw [hmin] at hp
    subst hp
    have hsize := O.size
    obtain ⟨hsum, hdata, hroom⟩ := ht.join_tail he hs0
    have hbytes := @drop_restored O 0 s he
    rw [List.drop_zero] at hbytes
    have hhdr : (O.arrives (O.fragment 0 s)).frag.blk.hdr =
        { O.bp.hdr with ploadlen := s + ip6fhdr } := by
      simp only [arrives, restore_fragment]
      rfl
    have hfirst : (O.arrives (O.fragment 0 s)).frag.blk.bytes.take O.e ++
        (O.arrives (O.fragment 0 s)).frag.blk.bytes.drop (O.e + ip6fhdr) = O.data.take s := by
      rw [hbytes, he, List.take_zero, List.nil_append]
    have hput : hnputs (s + (O.data.length - s)) = O.data.length := by
      rw [hnputs, Nat.mod_eq_of_lt (by omega)]
      omega
    have hlen : (O.data.take s).length = s := by
      rw [List.length_take]
      omega
    refine ⟨(t.map fun p => (O.arrives p).frag).map fun c =>
      (c.blk.bytes.drop (O.e + ip6fhdr)).take c.flen, ?_, ?_⟩
    · rw [List.map_cons]
      simp only [Ip6.join, hfirst, hhdr, hsum, Nat.add_sub_cancel, hput, hlen]
      rw [if_neg, List.take_take, Nat.min_self]
      rintro (hlt | hlt | ⟨c, hc, hlt⟩)
      · omega
      · omega
      · exact hroom c hc hlt
    · rw [hdata, List.take_append_drop]

/-- The second `unfraglen` leaves the packet alone, unless its next header is a fragment
header. -/
theorem reread_plain {hdr : Hdr} {d : UInt8} {t : List UInt8} {rest : List (List UInt8)}
    (hext : ¬ IsExt hdr.proto) :
    reread (.packet ⟨hdr, (d :: t) :: rest⟩) =
      .packet ⟨{ hdr with proto := if hdr.proto = fh then d else hdr.proto }, (d :: t) :: rest⟩ := by
  have hwalk : skipExt (d :: t) ((d :: t).length + 1) hdr.proto none 0 = some (hdr.proto, none, 0) := by
    simp only [skipExt]
    exact if_neg hext
  simp only [reread, unfraglen, Packet.first, List.headD_cons, hwalk]
  by_cases hfh : hdr.proto = fh
  · simp [hfh, Packet.setNext]
  · simp [hfh]

theorem zipWith_held {f : Nat × Packet → Outcome Blk → Reasm} (hheld : ∀ x, f x .held = .nil) :
    arr.zipWith f (List.replicate arr.length .held) = List.replicate arr.length .nil := by
  induction arr with
  | nil => rfl
  | cons x t ih => simp [List.replicate_succ, ih, hheld]

/-- Arrivals that are held yield nothing, up to the last. -/
theorem zipWith_last {f : Nat × Packet → Outcome Blk → Reasm} {out : Outcome Blk} {r : Reasm}
    (hheld : ∀ x, f x .held = .nil) (hout : ∀ x, f x out = r) (hone : 1 ≤ arr.length) :
    arr.zipWith f (List.replicate (arr.length - 1) .held ++ [out]) =
      List.replicate (arr.length - 1) .nil ++ [r] := by
  induction arr with
  | nil => cases hone
  | cons x t ih =>
    cases t with
    | nil => simp [hout]
    | cons y u =>
      have hrest := ih (by simp)
      simp only [List.length_cons, Nat.add_sub_cancel] at hrest ⊢
      simp only [List.replicate_succ, List.cons_append, List.zipWith_cons_cons, hheld, hrest]

/-- **Without extension headers** the packet comes back, whatever the order.  A next header
value that says fragment header is replaced by the first byte of the data. -/
theorem CutAt.receive_plain (h : O.CutAt s 0 ps) (he : O.e = 0) (hn : O.nexthdr = O.bp.hdr.proto)
    (hs0 : 0 < s) (hs : s < O.data.length) (habs : Absent tab O.key)
    (hperm : (arr.map Prod.snd).Perm ps) :
    ∃ r, receive tab arr = List.replicate (arr.length - 1) .nil ++ [.packet r] ∧
      r.hdr = { O.bp.hdr with
        ploadlen := O.data.length
        proto := if O.bp.hdr.proto = fh then O.data.headD 0 else O.bp.hdr.proto } ∧
      r.blocks.flatten = O.data := by
  have hcuts := h.cuts he hs0 hs
  obtain ⟨rest, hjoin, hflat⟩ := h.join he hs0 hs
  have hfrag : ∀ x ∈ arr, ∃ o len, x.2 = O.fragment o len := by
    intro x hx
    obtain ⟨o, _, _, _, hp⟩ := h.mem (hperm.mem_iff.mp (List.mem_map_of_mem hx))
    exact ⟨o, _, hp⟩
  have hext : ¬ IsExt O.bp.hdr.proto := by
    have hspec := (skipExt_spec O.walk).1
    rwa [hn] at hspec
  have hone : 1 ≤ arr.length := by
    have hlen := hperm.length_eq
    rw [List.length_map] at hlen
    have htwo := h.two hs
    omega
  obtain ⟨d, t, hdt⟩ : ∃ d t, O.data.take s = d :: t := by
    apply List.exists_cons_of_length_pos
    rw [List.length_take]
    omega
  have hhead : O.data.headD 0 = d := by
    rw [← hflat, hdt]
    rfl
  have hlast : ∀ x : Nat × Packet,
      reread (result O.e (restore x.2) (.done (ps.map fun p => (O.arrives p).frag))) = .packet
        ⟨{ O.bp.hdr with
          ploadlen := O.data.length
          proto := if O.bp.hdr.proto = fh then d else O.bp.hdr.proto }, (d :: t) :: rest⟩ := by
    intro x
    simp only [result, hjoin, hdt]
    exact reread_plain hext
  rw [hhead]
  refine ⟨⟨{ O.bp.hdr with
      ploadlen := O.data.length
      proto := if O.bp.hdr.proto = fh then d else O.bp.hdr.proto }, (d :: t) :: rest⟩, ?_, rfl, ?_⟩
  · rw [O.receive_eq_feed tab hfrag, hcuts.feed_perm (Blk.up O.e) habs hperm]
    exact zipWith_last (fun _ => rfl) hlast hone
  · rw [List.flatten_cons, ← hdt]
    exact hflat

/-- The fragments in the order of their offsets. -/
theorem CutAt.sorted (h : O.CutAt s o ps) (hs0 : 0 < s) :
    ps.Pairwise fun p q => (O.arrives p).frag.foff < (O.arrives q).frag.foff := by
  induction ps generalizing o with
  | nil => exact List.Pairwise.nil
  | cons p t ih =>
    obtain ⟨hlt, haligned, rfl, ht⟩ := h
    refine List.pairwise_cons.mpr ⟨?_, ih ht⟩
    intro q hq
    obtain ⟨o', hle, hlt', haligned', rfl⟩ := ht.mem hq
    rw [(O.arrives_fragment haligned hlt).2.1, (O.arrives_fragment haligned' hlt').2.1]
    omega

/-- Headers no longer than a fragment leave a gap behind every fragment but the last. -/
theorem CutAt.gaps (h : O.CutAt s o ps) (he : 0 < O.e) (hes : O.e ≤ s) :
    ps.Pairwise fun p q => (O.arrives p).frag.foff + (O.arrives p).frag.flen <
      (O.arrives q).frag.foff := by
  induction ps generalizing o with
  | nil => exact List.Pairwise.nil
  | cons p t ih =>
    obtain ⟨hlt, haligned, rfl, ht⟩ := h
    refine List.pairwise_cons.mpr ⟨?_, ih ht⟩
    intro q hq
    obtain ⟨o', hle, hlt', haligned', rfl⟩ := ht.mem hq
    obtain ⟨_, hoff, hlen, _⟩ := @arrives_fragment O _ (min s (O.data.length - o)) haligned hlt
    rw [(O.arrives_fragment haligned' hlt').2.1, hoff, hlen]
    have hsize := O.size
    have hmin : min s (O.data.length - o) = s := by omega
    rw [hmin] at hle ⊢
    omega

theorem CutAt.fragments (h : O.CutAt s o ps) : ∀ x ∈ ps.map (fun p => ((0 : Nat), p)),
    ∃ o len, x.2 = O.fragment o len := by
  simp only [List.forall_mem_map]
  intro p hp
  obtain ⟨o', _, _, _, rfl⟩ := h.mem hp
  exact ⟨o', _, rfl⟩

/-- **Short extension headers**: nothing is ever returned. -/
theorem CutAt.receive_gaps (h : O.CutAt s 0 ps) (he : 0 < O.e) (hes : O.e ≤ s)
    (hs : s < O.data.length) (habs : Absent tab O.key) :
    ∀ r ∈ receive tab (ps.map fun p => (0, p)), r = .nil := by
  have hheld := (@feed_gaps _ _ _ _ _ O.key (Blk.up O.e) (Blk.more O.e) O.arrives (ps.map fun p => ((0 : Nat), p)) ?_
    ?_ habs).1
  · rw [O.receive_eq_feed tab h.fragments, hheld, zipWith_held (fun _ => rfl)]
    exact fun r hr => List.eq_of_mem_replicate hr
  · simp only [List.forall_mem_map]
    intro p hp
    obtain ⟨hkey, hsingle⟩ := h.not_single hs hp
    refine ⟨hkey, hsingle, ?_⟩
    obtain ⟨o', _, hlt, haligned, rfl⟩ := h.mem hp
    obtain ⟨_, hoff, _, hmore, _⟩ :=
      @arrives_fragment O _ (min s (O.data.length - o')) haligned hlt
    intro hzero
    rw [hoff] at hzero
    rw [hmore, decide_eq_true_eq]
    omega
  · exact List.pairwise_map.mpr (h.gaps he hes)

theorem CutAt.ne_nil (h : O.CutAt s 0 ps) (hs : s < O.data.length) : ps ≠ [] := by
  have htwo := h.two hs
  exact List.ne_nil_of_length_pos (by omega)

/-- The length of a fragment shorter than the headers wraps around. -/
theorem flen_wraps (ho : o % 8 = 0) (hlt : o < O.data.length) (hpos : 0 < len) (hlen : len < O.e) :
    (O.arrives (O.fragment o len)).frag.blk.bytes.length <
      O.e + ip6fhdr + (O.arrives (O.fragment o len)).frag.flen := by
  have hsize := O.size
  have hflen := (@arrives_fragment O _ len ho hlt).2.2.1
  have hbytes : (O.arrives (O.fragment o len)).frag.blk.bytes.length ≤ O.e + ip6fhdr + len := by
    simp only [arrives, restore_fragment, view, restored, List.flatten_cons, List.flatten_nil,
      List.append_nil, List.length_append, O.length_ext, tail, fraghdr, List.length_cons,
      List.length_nil, List.length_take, List.length_drop, ip6fhdr]
    omega
  rw [hflen]
  omega

/-- **Long extension headers**: the last fragment, when it comes last, is not answered with
a packet.  If it makes the packet complete, its block is read behind the end. -/
theorem CutAt.receive_wraps (h : O.CutAt s 0 ps) (hes : s < O.e) (hs0 : 0 < s)
    (hs : s < O.data.length) (habs : Absent tab O.key) (r : Packet) :
    (receive tab (ps.map fun p => (0, p))).getLast? ≠ some (.packet r) := by
  obtain ⟨qs, x, rfl⟩ : ∃ qs x, ps = qs ++ [x] :=
    ⟨ps.dropLast, ps.getLast (h.ne_nil hs), (List.dropLast_append_getLast _).symm⟩
  have hview : ∀ p ∈ qs ++ [x], (O.arrives p).key = O.key ∧ (O.arrives p).single = false :=
    fun p hp => h.not_single hs hp
  obtain ⟨hsorted, _, hlast⟩ := List.pairwise_append.mp (h.sorted hs0)
  -- the queue before the last arrival
  have hbelow : Below (feed (Blk.up O.e) (Blk.more O.e) O.arrives tab (qs.map fun p => (0, p))).1 O.key
      (O.arrives x).frag.foff := by
    apply feed_below
    · simp only [List.forall_mem_map]
      exact fun p hp => hview p (by simp [hp])
    · exact List.pairwise_map.mpr hsorted
    · simp only [List.forall_mem_map]
      exact fun p hp => hlast p hp x List.mem_cons_self
    · exact habs
  obtain ⟨tab', out, henter, _, hout⟩ := enter_above (Blk.up O.e) (Blk.more O.e) 0 hbelow
  obtain ⟨hkey, hsingle⟩ := hview x (by simp)
  have hfeed : feed (Blk.up O.e) (Blk.more O.e) O.arrives
      (feed (Blk.up O.e) (Blk.more O.e) O.arrives tab (qs.map fun p => (0, p))).1 [(0, x)] =
        (tab', [out]) := by
    simp only [feed, hkey, hsingle, henter]
  have hres : (receive tab ((qs ++ [x]).map fun p => (0, p))).getLast? =
      some (reread (result O.e (restore x) out)) := by
    rw [O.receive_eq_feed tab h.fragments, List.map_append, List.map_singleton, feed_append, hfeed,
      List.zipWith_append (by rw [length_feed])]
    simp
  rw [hres]
  intro hpacket
  have hpacket := some.inj hpacket
  obtain ⟨o, _, hlt, haligned, hx⟩ := h.mem (show x ∈ qs ++ [x] by simp)
  have hpos : 0 < min s (O.data.length - o) := by omega
  have hwraps := O.flen_wraps haligned hlt hpos (by omega)
  rw [← hx] at hwraps
  rcases hout with rfl | ⟨pre, rfl, hdone⟩
  · cases hpacket
  · have hjoin : Ip6.join O.e (pre ++ [(O.arrives x).frag]) = none := by
      cases pre with
      | nil =>
        -- there are fragments in front of it
        have hfoff : (O.arrives x).frag.foff ≠ 0 := by
          have htwo := h.two hs
          obtain ⟨p, hp⟩ : ∃ p, p ∈ qs := by
            apply List.exists_mem_of_length_pos
            simp only [List.length_append, List.length_singleton] at htwo
            omega
          have hlt := hlast p hp x List.mem_cons_self
          omega
        simp [complete, hfoff] at hdone
      | cons c t =>
        simp only [List.cons_append, Ip6.join]
        apply if_pos
        exact Or.inr (Or.inr ⟨(O.arrives x).frag, by simp, hwraps⟩)
    simp only [result, hjoin] at hpacket
    cases hpacket

end Outgoing

variable {tab : Table Key Blk}

/-- The packet as `ipoput6` sends it when it fits. -/
def intact (bp : Packet) (gating : Bool) (ttl tos : Nat) : Packet :=
  ⟨{ outHdr bp.hdr gating ttl tos with ploadlen := outLen bp gating - ip6hdr },
    [bp.blocks.flatten.take (outLen bp gating - ip6hdr)]⟩

/-- In whatever order the packets arrive, nothing is returned up to the last one, and then
a packet with the header and the bytes of `w`. -/
def RoundTrip (tab : Table Key Blk) (ps : List Packet) (w : Packet) : Prop :=
  ∀ arr : List (Nat × Packet), (arr.map Prod.snd).Perm ps →
    ∃ r, receive tab arr = List.replicate (arr.length - 1) .nil ++ [.packet r] ∧
      r.hdr = w.hdr ∧ r.blocks.flatten = w.blocks.flatten

/-- A fragment with offset 0 and no more fragments, with `e` bytes of extension headers. -/
def Atomic (e : Nat) (p : Packet) : Prop :=
  ∃ p', unfraglen p false = some (ip6hdr + e, fh, p') ∧ e + ip6fhdr ≤ p'.blocks.flatten.length ∧
    offsetRM e p'.blocks.flatten / 8 = 0 ∧ offsetRM e p'.blocks.flatten % 2 = 0

/-- The fragment is delivered with its fragment header removed. -/
def Delivered (tab : Table Key Blk) (now e : Nat) (p : Packet) : Prop :=
  ∃ r, (procxtns tab now p).2 = .packet r ∧
    r.blocks.flatten = (restore p).blocks.flatten.take e ++
      (restore p).blocks.flatten.drop (e + ip6fhdr)

theorem setNext_length (bp : Packet) (q : Option Nat) (v : UInt8) :
    (bp.setNext q v).blocks.flatten.length = bp.blocks.flatten.length := by
  cases q with
  | none => rfl
  | some j =>
    rw [← first_append_tail bp]
    simp [Packet.setNext]

theorem unfraglen_length {uflen : Nat} {bp' : Packet} (h : unfraglen bp false = some (uflen, n, bp')) :
    bp'.blocks.flatten.length = bp.blocks.flatten.length := by
  simp only [unfraglen, bind_eq_bind, bind_eq_some_iff] at h
  obtain ⟨⟨n', q, e⟩, hskip, hout⟩ := h
  split at hout
  · simp only [bind_eq_some_iff, map_eq_some_iff] at hout
    obtain ⟨_, ⟨v, _, rfl⟩, hout⟩ := hout
    cases hout
    exact setNext_length _ _ _
  · cases hout
    rfl

/-- An atomic fragment is passed on as long as it was, or kept. -/
theorem Atomic.not_delivered {now : Nat} {p : Packet} (h : Atomic e p)
    (habs : Absent tab (view e (restore p)).key) : ¬ Delivered tab now e p := by
  obtain ⟨p', hunfrag, hroom, _, _⟩ := h
  have hrestore : restore p = p' := by
    rw [restore, hunfrag]
    rfl
  rintro ⟨r, hr, hbytes⟩
  rw [hrestore] at habs hbytes
  have hlen := congrArg List.length hbytes
  rw [List.length_append, List.length_take, List.length_drop] at hlen
  obtain ⟨pre, hfind, _⟩ := find_absent now habs
  have hroom' : ¬ p'.blocks.flatten.length < e + ip6fhdr := by omega
  simp only [procxtns, hunfrag, if_true, Nat.add_sub_cancel_left, ip6reassemble, hroom', if_false,
    enter, hfind] at hr
  by_cases hsingle : (view e p').single = true
  · simp only [hsingle, if_true, reread] at hr
    split at hr
    · cases hr
    · next hre =>
        cases hr
        have hsame := unfraglen_length hre
        simp only [List.flatten_cons, List.flatten_nil, List.append_nil, ip6fhdr] at hsame hlen hroom
        omega
  · simp only [hsingle, Bool.false_eq_true, if_false, reread] at hr
    cases hr

theorem map_snd_map (ps : List Packet) :
    ((ps.map fun p => ((0 : Nat), p)).map Prod.snd).Perm ps := by
  rw [List.map_map]
  exact List.Perm.of_eq (List.map_id ps)

/-- A packet with extension headers does not come back when its fragments arrive in order. -/
theorem Outgoing.CutAt.not_roundTrip {O : Outgoing} {s : Nat} (h : O.CutAt s 0 ps) (he : 0 < O.e)
    (hs0 : 0 < s) (hs : s < O.data.length) (habs : Absent tab O.key) (w : Packet) :
    ¬ RoundTrip tab ps w := by
  intro hround
  obtain ⟨r, hr, _⟩ := hround _ (map_snd_map ps)
  by_cases hes : O.e ≤ s
  · have hnil := h.receive_gaps he hes hs habs (.packet r) (by simp [hr])
    cases hnil
  · apply h.receive_wraps (by omega) hs0 hs habs r
    rw [hr, List.getLast?_concat]

/-- **The IPv6 fragmentation round trip** holds exactly for the packets without hop-by-hop
and routing headers, with a next header value that is not that of a fragment or remains it
when it is read twice.  An atomic fragment never loses its fragment header. -/
theorem fragments_round_trip6 (tab : Table Key Blk) :
    (∀ (medialen reassemble : Int) (id6 : Nat) (bp : Packet) (gating : Bool) (ttl tos : Nat)
      (ps : List Packet),
      ipoput6 (some medialen) reassemble id6 bp gating ttl tos = .fragmented ps →
      Absent tab (bp.hdr.src, bp.hdr.dst, (id6 + 1) % 2 ^ 32) →
      (RoundTrip tab ps (intact bp gating ttl tos) ↔
        bp.hdr.proto ≠ hbh ∧ bp.hdr.proto ≠ rh ∧
          (bp.hdr.proto = fh → bp.blocks.flatten.head? = some fh))) ∧
    ∀ (e now : Nat) (p : Packet), Atomic e p →
      Absent tab (view e (restore p)).key → ¬ Delivered tab now e p := by
  refine ⟨?_, fun e now p h habs => h.not_delivered habs⟩
  intro medialen reassemble id6 bp gating ttl tos ps hrun habs
  obtain ⟨O, s, hcut, hs8, hs, hlid, hbp, hbytes⟩ := ipoput6_spec hrun
  have hproto : O.bp.hdr.proto = bp.hdr.proto := by
    rw [hbp]
    simp only [outHdr]
    split <;> rfl
  have hkey : O.key = (bp.hdr.src, bp.hdr.dst, (id6 + 1) % 2 ^ 32) := by
    rw [Outgoing.key, hlid, hbp]
    simp only [outHdr]
    split <;> rfl
  rw [← hkey] at habs
  rcases skipExt_spec O.walk with ⟨hext, ⟨_, he, hn⟩ | ⟨hisext, _, _, _, _, hend⟩⟩
  · -- no extension headers: every order gives the same packet
    have hO : O.data = bp.blocks.flatten.take (outLen bp gating - ip6hdr) := by
      rw [← hbytes, Outgoing.ext, he]
      rfl
    have hlen : O.data.length = outLen bp gating - ip6hdr := by
      rw [hO, List.length_take]
      exact Nat.min_eq_left (outLen_le bp gating).2
    have hhead : bp.blocks.flatten.head? = some (O.data.headD 0) := by
      cases hflat : bp.blocks.flatten with
      | nil =>
          rw [hO, hflat, List.take_nil] at hs
          cases hs
      | cons d t =>
          obtain ⟨k, hk⟩ : ∃ k, outLen bp gating - ip6hdr = k + 1 :=
            ⟨outLen bp gating - ip6hdr - 1, by omega⟩
          rw [hO, hflat, hk]
          rfl
    have hplain := fun arr hperm => @Outgoing.CutAt.receive_plain _ _ _ _ arr hcut he hn (by omega) hs habs hperm
    rw [hn, hproto] at hext
    have hnot : bp.hdr.proto ≠ hbh ∧ bp.hdr.proto ≠ rh := not_or.mp hext
    constructor
    · intro hround
      refine ⟨hnot.1, hnot.2, ?_⟩
      intro hfh
      obtain ⟨r, hr, hhdr, _⟩ := hround _ (map_snd_map ps)
      obtain ⟨r', hr', hhdr', _⟩ := hplain _ (map_snd_map ps)
      rw [hr, List.append_cancel_left_eq] at hr'
      cases hr'
      have hp := congrArg Hdr.proto (hhdr'.symm.trans hhdr)
      simp only [intact, hproto, hfh, if_true] at hp
      have hout : (outHdr bp.hdr gating ttl tos).proto = fh := by
        rw [hbp] at hproto
        exact hproto.trans hfh
      rw [hhead, hp, hout]
    · rintro ⟨_, _, hfh⟩ arr hperm
      obtain ⟨r, hr, hhdr, hdata⟩ := hplain arr hperm
      refine ⟨r, hr, ?_, ?_⟩
      · have hp : (if O.bp.hdr.proto = fh then O.data.headD 0 else O.bp.hdr.proto) = O.bp.hdr.proto := by
          split
          · next heq =>
              rw [hproto] at heq
              have hsome := hfh heq
              rw [hhead] at hsome
              rw [Option.some.inj hsome, hproto, heq]
          · rfl
        rw [hhdr, hp, hlen, hbp]
        rfl
      · rw [hdata, hO]
        simp [intact]
  · constructor
    · intro hround
      exact (hcut.not_roundTrip (by omega) (by omega) hs habs _ hround).elim
    · rintro ⟨hh, hr, _⟩
      rw [hproto] at hisext
      rcases hisext with heq | heq
      · exact (hh heq).elim
      · exact (hr heq).elim

/-- A packet of 40 bytes behind the header, with this next header value. -/
def somePacket (proto : UInt8) : Packet :=
  ⟨⟨0x60, 0, 0, 40, proto, 9, 1, 2⟩, [17 :: (List.range 39).map fun _ => 0]⟩

/-- UDP data comes back. -/
theorem fragments_round_trip6_udp :
    ∃ ps, ipoput6 (some 72) 0 5 (somePacket 17) false 8 0 = .fragmented ps ∧
      RoundTrip ⟨1, []⟩ ps (intact (somePacket 17) false 8 0) := by
  have hiff := (fragments_round_trip6 ⟨1, []⟩).1 72 0 5 (somePacket 17) false 8 0 _ rfl (by simp [Absent])
  exact ⟨_, rfl, hiff.mpr (by decide)⟩

/-- A packet with an empty hop-by-hop header is lost on the way, and an atomic fragment keeps
its fragment header. -/
theorem hop_by_hop_lost :
    (∃ ps, ipoput6 (some 72) 1 5 (somePacket hbh) true 8 0 = .fragmented ps ∧
      ¬ RoundTrip ⟨1, []⟩ ps (intact (somePacket hbh) true 8 0)) ∧
    Atomic 0 ⟨⟨0x60, 0, 0, 10, fh, 9, 1, 2⟩, [[17, 0, 0, 0, 0, 0, 0, 5, 8, 9]]⟩ ∧
    ¬ Delivered ⟨1, []⟩ 0 0 ⟨⟨0x60, 0, 0, 10, fh, 9, 1, 2⟩, [[17, 0, 0, 0, 0, 0, 0, 5, 8, 9]]⟩ := by
  refine ⟨⟨_, rfl, ?_⟩, ⟨_, rfl, by decide, by decide, by decide⟩, ?_⟩
  · intro hround
    obtain ⟨r, hr, _⟩ := hround _ (map_snd_map _)
    change [Reasm.nil, Reasm.nil] = [Reasm.nil, Reasm.packet r] at hr
    cases hr
  · rintro ⟨r, hr, hbytes⟩
    have hpacket : (procxtns ⟨1, []⟩ 0 ⟨⟨0x60, 0, 0, 10, fh, 9, 1, 2⟩,
        [[17, 0, 0, 0, 0, 0, 0, 5, 8, 9]]⟩).2 = .packet ⟨⟨0x60, 0, 0, 10, 17, 9, 1, 2⟩,
          [[17, 0, 0, 0, 0, 0, 0, 5, 8, 9]]⟩ := rfl
    rw [hpacket] at hr
    cases hr
    cases hbytes

end Ip6
