import NixKernel.TcpCodecRound
import NixKernel.TcpWindow

/-!
# Cutting a segment to the receive window

`tcptrim` decides on `int` differences of sequence numbers and stores some of them in a `ushort`.
-/

namespace Rcvwin

open Tcp List
open TcpCodec (Block bytes blocklen trimblock)

/-- A segment as `tcpiput` takes it out of a packet: at least the 20 bytes of the header are
gone from the at most 65535 of the packet, and the blocks are cut to the length. -/
structure Whole (p : Incoming) : Prop where
  blocklen_eq : blocklen p.bp = p.length.toNat
  length_le : p.length.toNat ≤ 65515

/-- Where the data of a segment starts: a SYN takes the place before it. -/
def first (p : Incoming) : UInt32 := p.seg.seq + if has p.seg.flags SYN then 1 else 0

/-- What `tcptrim` makes of `p`, if it accepts it. -/
structure Cut (rcv : Rcv) (p q : Incoming) : Prop where
  whole : Whole q
  within : behind rcv.nxt q.seg.seq + q.length.toNat ≤ rcv.wnd.toNat
  next : seq_ge rcv.nxt p.seg.seq = true → q.seg.seq = rcv.nxt
  bytes_eq : ∃ k, bytes q.bp = ((bytes p.bp).drop k).take q.length.toNat ∧
    ((has p.seg.flags SYN = true → seq_gt rcv.nxt p.seg.seq = true) → q.seg.seq = first p + UInt32.ofNat k)

theorem bytes_pullblock (bp : List Block) (count : Nat) : bytes (pullblock bp count) = (bytes bp).drop count := by
  induction bp generalizing count with
  | nil => simp [pullblock, bytes]
  | cons b next ih =>
    rw [pullblock, TcpCodec.bytes_cons, drop_append]
    split
    next hzero => rw [hzero, drop_zero, Nat.zero_sub, drop_zero, TcpCodec.bytes_cons]
    next =>
      dsimp only
      split
      next hempty =>
        rw [ih, drop_eq_nil_of_le (by omega : b.data.length ≤ count), nil_append]
        congr 1
        omega
      next hleft =>
        rw [TcpCodec.bytes_cons, Nat.sub_eq_zero_of_le (by omega : count ≤ b.data.length), drop_zero]
        dsimp only
        rw [Nat.min_eq_right (by omega)]

theorem blocklen_pullblock (bp : List Block) (count : Nat) : blocklen (pullblock bp count) = blocklen bp - count := by
  rw [← TcpCodec.length_bytes, bytes_pullblock, length_drop, TcpCodec.length_bytes]

variable {rcv : Rcv} {p q : Incoming}

theorem seglen_toNat (h : Whole p) : (seglen p.seg p.length).toNat =
    p.length.toNat + (if has p.seg.flags SYN then 1 else 0) + (if has p.seg.flags FIN then 1 else 0) := by
  have hle := h.length_le
  have hone : (1 : UInt16).toNat = 1 := rfl
  have hnone : (0 : UInt16).toNat = 0 := rfl
  rw [seglen, UInt16.toNat_add, UInt16.toNat_add]
  split_ifs <;> omega

theorem inwindow_iff {x : UInt32} (hpos : 0 < rcv.wnd.toNat) :
    inwindow rcv x = true ↔ behind rcv.nxt x < rcv.wnd.toNat := by
  have hlt := rcv.wnd.toNat_lt
  have hend : behind rcv.nxt (rcv.nxt + rcv.wnd - 1) = rcv.wnd.toNat - 1 := by
    rw [behind_pred, behind_add, behind_self]
    omega
  rw [inwindow, seq_within_iff, hend]
  omega

/-- A segment with some part in the window begins in it, or reaches into it from before. -/
theorem acceptable_cases {len : UInt16} (hwnd : rcv.wnd.toNat < 2 ^ 30) (h : acceptable rcv p.seg len = true) :
    0 < rcv.wnd.toNat ∧ (behind rcv.nxt p.seg.seq < rcv.wnd.toNat ∨
      (0 < behind p.seg.seq rcv.nxt ∧ behind p.seg.seq rcv.nxt < len.toNat)) := by
  rw [acceptable, Bool.and_eq_true, decide_eq_true_eq] at h
  obtain ⟨hne, h⟩ := h
  have hpos : 0 < rcv.wnd.toNat := Nat.pos_of_ne_zero fun hzero => hne (UInt32.toNat_inj.mp hzero)
  refine ⟨hpos, ?_⟩
  have hlen := len.toNat_lt
  have hround := @behind_trans rcv.nxt p.seg.seq rcv.nxt
  have hlast : behind p.seg.seq (p.seg.seq + len.toUInt32 - 1) = (len.toNat + (2 ^ 32 - 1)) % 2 ^ 32 := by
    rw [behind_pred, behind_add, behind_self, UInt16.toNat_toUInt32]
    omega
  have hvia := @behind_trans rcv.nxt p.seg.seq (p.seg.seq + len.toUInt32 - 1)
  rw [behind_self] at hround
  have hlt := @behind_lt rcv.nxt p.seg.seq
  have hlt' := @behind_lt p.seg.seq rcv.nxt
  rw [Bool.or_eq_true, Bool.and_eq_true, Bool.or_eq_true, inwindow_iff hpos, inwindow_iff hpos, seq_within_iff,
    decide_eq_true_eq] at h
  rcases h with hin | ⟨hsome, hin | hin⟩
  · exact Or.inl hin
  all_goals
    have hlen' : len.toNat ≠ 0 := fun hzero => hsome (UInt16.toNat_inj.mp hzero)
    omega

/-- The place of a SYN. -/
def syn (p : Incoming) : Nat := if has p.seg.flags SYN then 1 else 0

theorem dropsyn_spec {dupcnt : UInt32} (hpos : 0 < dupcnt.toNat) :
    (dropsyn p.seg dupcnt).1.seq = first p ∧ (dropsyn p.seg dupcnt).2.toNat = dupcnt.toNat - syn p := by
  have hone : (1 : UInt32).toNat = 1 := rfl
  rw [dropsyn, first, syn]
  split
  next hsyn =>
    refine ⟨rfl, ?_⟩
    dsimp only
    rw [UInt32.toNat_sub_of_le, hone]
    rw [UInt32.le_iff_toNat_le, hone]
    omega
  next => exact ⟨(UInt32.add_zero _).symm, rfl⟩

/-- What `trimdup` makes of a segment that `acceptable` has let through. -/
structure Begun (rcv : Rcv) (p q : Incoming) : Prop where
  whole : Whole q
  within : behind rcv.nxt q.seg.seq < rcv.wnd.toNat
  next : seq_ge rcv.nxt p.seg.seq = true → q.seg.seq = rcv.nxt
  bytes_eq : ∃ k, bytes q.bp = (bytes p.bp).drop k ∧
    ((has p.seg.flags SYN = true → seq_gt rcv.nxt p.seg.seq = true) → q.seg.seq = first p + UInt32.ofNat k)

theorem behind_first (p : Incoming) : behind p.seg.seq (first p) = syn p := by
  rw [first, behind_add, behind_self, syn]
  split <;> rfl

/-- The data from `n` on is what lies `n` places behind its start. -/
theorem first_add {dupcnt : UInt32} (h : behind p.seg.seq rcv.nxt = syn p + dupcnt.toNat) : first p + dupcnt = rcv.nxt := by
  have hlt := @behind_lt p.seg.seq rcv.nxt
  apply @behind_inj p.seg.seq
  rw [behind_add, behind_first, h]
  omega

/-- A segment that begins in the window is left as it is. -/
theorem trimdup_in (hwnd : rcv.wnd.toNat < 2 ^ 30) (hp : Whole p) (hin : behind rcv.nxt p.seg.seq < rcv.wnd.toNat) :
    Begun rcv p (trimdup rcv p) := by
  have hround := @behind_trans rcv.nxt p.seg.seq rcv.nxt
  have hlt := @behind_lt p.seg.seq rcv.nxt
  rw [behind_self] at hround
  have hnot : ¬seq_gt rcv.nxt p.seg.seq = true := by
    rw [seq_gt_iff]
    omega
  have hnone : ¬toInt (rcv.nxt - p.seg.seq) > 0 := by
    rwa [seq_gt, decide_eq_true_eq] at hnot
  have hkeep : trimdup rcv p = p := by
    rw [trimdup]
    exact if_neg hnone
  rw [hkeep]
  refine ⟨hp, hin, fun hge => ?_, 0, (drop_zero).symm, fun hplain => ?_⟩
  · rw [seq_ge_iff] at hge
    apply @behind_inj rcv.nxt
    rw [behind_self]
    omega
  · have hsyn : ¬has p.seg.flags SYN = true := fun hsyn => hnot (hplain hsyn)
    rw [first, if_neg hsyn]
    exact ((UInt32.add_zero _).trans (UInt32.add_zero _)).symm

/-- A segment that reaches into the window from before begins with it then. -/
theorem trimdup_before (hp : Whole p) (hpos : 0 < rcv.wnd.toNat) (hdup : 0 < behind p.seg.seq rcv.nxt)
    (hlen : behind p.seg.seq rcv.nxt < (seglen p.seg p.length).toNat) : Begun rcv p (trimdup rcv p) := by
  have hle := hp.length_le
  have hsyn : syn p ≤ 1 := by
    rw [syn]
    split <;> omega
  rw [seglen_toNat hp, ← syn] at hlen
  have hfin : (if has p.seg.flags FIN then 1 else 0) ≤ 1 := by split <;> omega
  obtain ⟨hseq, hcnt⟩ := @dropsyn_spec p (rcv.nxt - p.seg.seq) hdup
  have hgt : toInt (rcv.nxt - p.seg.seq) > 0 := of_decide_eq_true (seq_gt_iff.mpr ⟨hdup, by omega⟩)
  have hat : ∀ q : Incoming, q.seg.seq = rcv.nxt → behind rcv.nxt q.seg.seq < rcv.wnd.toNat := by
    intro q hq
    rw [hq, behind_self]
    exact hpos
  rw [trimdup]
  dsimp only
  rw [if_pos hgt]
  generalize hdrop : dropsyn p.seg (rcv.nxt - p.seg.seq) = r at hseq hcnt ⊢
  obtain ⟨seg, dupcnt⟩ := r
  have hnxt : first p + dupcnt = rcv.nxt := by
    apply first_add
    rw [hcnt, ← behind]
    omega
  dsimp only at hseq hcnt ⊢
  rw [← behind] at hcnt
  split
  next hmore =>
    have hshort : dupcnt.toUInt16.toNat = dupcnt.toNat := by
      rw [UInt32.toNat_toUInt16]
      omega
    have hleft : dupcnt.toUInt16.toNat ≤ p.length.toNat := by omega
    refine ⟨⟨?_, ?_⟩, hat _ ?_, fun _ => ?_, dupcnt.toNat, ?_, fun _ => ?_⟩
    · dsimp only
      rw [blocklen_pullblock, hp.blocklen_eq, UInt16.toNat_sub_of_le]
      exact UInt16.le_iff_toNat_le.mpr hleft
    · dsimp only
      rw [UInt16.toNat_sub_of_le _ _ (UInt16.le_iff_toNat_le.mpr hleft)]
      omega
    · dsimp only
      rw [hseq, hnxt]
    · dsimp only
      rw [hseq, hnxt]
    · dsimp only
      rw [bytes_pullblock, hshort]
    · dsimp only
      rw [hseq, UInt32.ofNat_toNat]
  next hnone =>
    have hzero : dupcnt = 0 := by
      apply UInt32.toNat_inj.mp
      have hnot : ¬(0 < dupcnt.toNat ∧ dupcnt.toNat < 2 ^ 31) := by
        intro hsmall
        apply hnone
        rw [toInt_eq]
        split_ifs <;> omega
      change dupcnt.toNat = 0
      omega
    rw [hzero, UInt32.add_zero] at hnxt
    refine ⟨⟨hp.blocklen_eq, hle⟩, hat _ ?_, fun _ => ?_, 0, (drop_zero).symm, fun _ => ?_⟩
    · dsimp only
      rw [hseq, hnxt]
    · dsimp only
      rw [hseq, hnxt]
    · dsimp only
      rw [hseq]
      exact (UInt32.add_zero _).symm

theorem trimdup_spec (hwnd : rcv.wnd.toNat < 2 ^ 30) (hp : Whole p)
    (h : acceptable rcv p.seg (seglen p.seg p.length) = true) : Begun rcv p (trimdup rcv p) := by
  obtain ⟨hpos, hin | ⟨hdup, hlen⟩⟩ := acceptable_cases hwnd h
  · exact trimdup_in hwnd hp hin
  · exact trimdup_before hp hpos hdup hlen

/-- What is cut off behind the window leaves the bytes before its end. -/
theorem trimexcess_spec (hwnd : rcv.wnd.toNat < 2 ^ 30) (hp : Whole p) (hin : behind rcv.nxt p.seg.seq < rcv.wnd.toNat) :
    ∃ q, trimexcess rcv p = .accept q ∧ Whole q ∧ q.seg.seq = p.seg.seq ∧
      behind rcv.nxt p.seg.seq + q.length.toNat ≤ rcv.wnd.toNat ∧
      bytes q.bp = (bytes p.bp).take q.length.toNat := by
  have hle := hp.length_le
  have hend : behind rcv.nxt (p.seg.seq + p.length.toUInt32) = behind rcv.nxt p.seg.seq + p.length.toNat := by
    rw [behind_add, UInt16.toNat_toUInt32]
    omega
  have hedge : behind rcv.nxt (rcv.nxt + rcv.wnd) = rcv.wnd.toNat := by
    rw [behind_add, behind_self]
    omega
  have hover := @behind_trans rcv.nxt (rcv.nxt + rcv.wnd) (p.seg.seq + p.length.toUInt32)
  have hlt := @behind_lt (rcv.nxt + rcv.wnd) (p.seg.seq + p.length.toUInt32)
  have hgt := @seq_gt_iff (p.seg.seq + p.length.toUInt32) (rcv.nxt + rcv.wnd)
  rw [hend, hedge] at hover
  rw [seq_gt, decide_eq_true_eq] at hgt
  rw [trimexcess]
  split
  next hpast =>
    have hcnt := hgt.mp hpast
    have hshort : (p.seg.seq + p.length.toUInt32 - (rcv.nxt + rcv.wnd)).toUInt16.toNat =
        behind (rcv.nxt + rcv.wnd) (p.seg.seq + p.length.toUInt32) := by
      rw [UInt32.toNat_toUInt16, ← behind]
      omega
    have hlength : (p.length - (p.seg.seq + p.length.toUInt32 - (rcv.nxt + rcv.wnd)).toUInt16).toNat =
        rcv.wnd.toNat - behind rcv.nxt p.seg.seq := by
      rw [UInt16.toNat_sub_of_le, hshort]
      · omega
      · rw [UInt16.le_iff_toNat_le, hshort]
        omega
    have hfits : 0 + (rcv.wnd.toNat - behind rcv.nxt p.seg.seq) ≤ blocklen p.bp := by
      rw [hp.blocklen_eq]
      omega
    obtain ⟨bp, hbp, hbytes⟩ := TcpCodec.trimblock_spec p.bp 0 _ hfits
    rw [drop_zero] at hbytes
    dsimp only
    rw [hlength, hbp]
    refine ⟨_, rfl, ⟨?_, ?_⟩, rfl, ?_, ?_⟩
    · dsimp only
      rw [← TcpCodec.length_bytes, hbytes, length_take, TcpCodec.length_bytes, hlength]
      omega
    · dsimp only
      omega
    · dsimp only
      omega
    · dsimp only
      rw [hbytes, hlength]
  next hnot =>
    refine ⟨p, rfl, hp, rfl, ?_, ?_⟩
    · rw [hgt] at hnot
      omega
    · rw [take_of_length_le]
      rw [TcpCodec.length_bytes, hp.blocklen_eq]

theorem tcptrim_spec (hwnd : rcv.wnd.toNat < 2 ^ 30) (hp : Whole p) :
    tcptrim rcv p = .reject ∨ ∃ q, tcptrim rcv p = .accept q ∧ Cut rcv p q := by
  rw [tcptrim]
  split
  next hnone =>
    obtain ⟨hzero, hlen, hseq⟩ := hnone
    have hlength := seglen_toNat hp
    rw [hlen] at hlength
    have hsyn : ¬has p.seg.flags SYN = true := by
      intro hsyn
      rw [if_pos hsyn] at hlength
      change 0 = _ at hlength
      omega
    have hempty : p.length.toNat = 0 := by
      change 0 = _ at hlength
      omega
    refine Or.inr ⟨p, rfl, hp, ?_, fun _ => hseq, 0, ?_, fun _ => ?_⟩
    · rw [hseq, behind_self, hempty]
      exact Nat.zero_le _
    · have hbytes : (bytes p.bp).length = 0 := by rw [TcpCodec.length_bytes, hp.blocklen_eq, hempty]
      rw [eq_nil_of_length_eq_zero hbytes, drop_nil, take_nil]
    · rw [first, if_neg hsyn]
      exact ((UInt32.add_zero _).trans (UInt32.add_zero _)).symm
  next =>
    split
    · exact Or.inl rfl
    next hacc =>
      rw [Bool.not_eq_false] at hacc
      have hbegun := trimdup_spec hwnd hp hacc
      obtain ⟨q, hq, hwhole, hseq, hwithin, hbytes⟩ := trimexcess_spec hwnd hbegun.whole hbegun.within
      obtain ⟨k, hk, hfirst⟩ := hbegun.bytes_eq
      refine Or.inr ⟨q, hq, hwhole, ?_, fun hge => hseq.trans (hbegun.next hge), k, ?_, fun hplain => hseq.trans (hfirst hplain)⟩
      · rw [hseq]
        exact hwithin
      · rw [hbytes, hk]

end Rcvwin
