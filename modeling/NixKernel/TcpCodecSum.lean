import NixKernel.TcpCodec

/-!
# What the TCP checksum sums

`ptclbsum` and `ptclcsum` compute the ones' complement sum of a byte string, whatever the
byte order, the addresses of the blocks and the places where the string is cut into blocks.
-/

namespace TcpCodec

open OnesSum

/-- **Byte order and alignment do not matter** for the sum of a block. -/
theorem ptclbsum_eq (little : Bool) (addr : Nat) (l : List UInt8) :
    ptclbsum little addr l = fold (wordSum l) := by
  unfold ptclbsum
  split
  · cases l with
    | nil => cases little <;> simp [carry_eq_fold, fold, wordSum, oddByte, swapSum, pairSum, swap]
    | cons a l =>
      -- the words behind the first byte are those of `l`, the two bytes changed over
      have hcons := wordSum_cons a l
      have hzero := wordSum_append_eq_zero [a] l
      have hsplit := wordSum_eq_pairSum l
      have hpair := swapSum_modEq l
      have hpair0 := swapSum_eq_zero l
      simp only [List.headD_cons, List.tail_cons, List.singleton_append, wordSum] at *
      cases little with
      | true =>
        have hswap := swap_modEq a.toNat
        have hswap0 := swap_eq_zero (n := a.toNat)
        simp only [if_true, carry_eq_fold]
        apply fold_congr
        · unfold Nat.ModEq at *
          omega
        · omega
      | false =>
        have hswap := swap_modEq (a.toNat + pairSum l)
        have hswap0 := swap_eq_zero (n := a.toNat + pairSum l)
        simp only [Bool.false_eq_true, if_false, carry_eq_fold]
        apply fold_congr
        · unfold Nat.ModEq at *
          omega
        · omega
  · have hsplit := wordSum_eq_pairSum l
    have hpair := swapSum_modEq l
    have hpair0 := swapSum_eq_zero l
    cases little with
    | true =>
      have hswap := swap_modEq (oddByte l + swapSum l)
      have hswap0 := swap_eq_zero (n := oddByte l + swapSum l)
      simp only [if_true, carry_eq_fold]
      apply fold_congr
      · unfold Nat.ModEq at *
        omega
      · omega
    | false =>
      have hswap := swap_modEq (oddByte l)
      have hswap0 := swap_eq_zero (n := oddByte l)
      simp only [Bool.false_eq_true, if_false, carry_eq_fold]
      apply fold_congr
      · unfold Nat.ModEq at *
        omega
      · omega

/-- The bytes of a list of addressed strings. -/
def flat (segs : List (Nat × List UInt8)) : List UInt8 := (segs.map Prod.snd).flatten

/-- The weight of what follows an even or odd number of bytes. -/
def weight (odd : Bool) : Nat := if odd then 256 else 1

/-- The sum of a string behind its first block, which has `l`. -/
theorem weight_append (odd : Bool) (l m : List UInt8) :
    weight odd * wordSum (l ++ m) ≡ weight odd * wordSum l +
      weight (odd ^^ decide (l.length % 2 = 1)) * wordSum m [MOD 65535] := by
  by_cases hl : l.length % 2 = 1
  · have happ := wordSum_append_odd m hl
    cases odd <;> simp only [weight, hl, decide_true, Bool.xor_true, Bool.not_true, Bool.not_false,
      Bool.false_eq_true, if_true, if_false] <;> unfold Nat.ModEq at * <;> omega
  · have happ := wordSum_append_even m (show l.length % 2 = 0 by omega)
    cases odd <;> simp only [weight, hl, decide_false, Bool.xor_false,
      Bool.false_eq_true, if_true, if_false] <;> unfold Nat.ModEq at * <;> omega

theorem csumLoop_spec {little : Bool} {segs : List (Nat × List UInt8)} {len : Nat} {odd : Bool}
    {losum hisum lo hi : Nat} (h : csumLoop little segs len odd (losum, hisum) = (lo, hi)) :
    lo + 256 * hi ≡ losum + 256 * hisum + weight odd * wordSum ((flat segs).take len) [MOD 65535] ∧
      (lo + hi = 0 ↔ losum + hisum + wordSum ((flat segs).take len) = 0) := by
  induction segs generalizing len odd losum hisum with
  | nil =>
    cases h
    simp [flat, wordSum, Nat.ModEq]
  | cons seg next ih =>
    obtain ⟨addr, l⟩ := seg
    rw [csumLoop] at h
    split at h
    next hlen =>
      cases h
      simp [hlen, wordSum, Nat.ModEq]
    next hlen =>
      have htake : (flat ((addr, l) :: next)).take len =
          l.take (min l.length len) ++ (flat next).take (len - min l.length len) := by
        simp only [flat, List.map_cons, List.flatten_cons, List.take_append]
        congr 1
        · rw [← List.take_take]
          exact (List.take_of_length_le (by simp)).symm
        · congr 1
          omega
      have hlength : (l.take (min l.length len)).length = min l.length len := by simp
      have hw := weight_append odd (l.take (min l.length len))
        ((flat next).take (len - min l.length len))
      have h0 := wordSum_append_eq_zero (l.take (min l.length len))
        ((flat next).take (len - min l.length len))
      have hsum := ptclbsum_eq little addr (l.take (min l.length len))
      have hmod := fold_modEq (wordSum (l.take (min l.length len)))
      have hzero := fold_eq_zero (n := wordSum (l.take (min l.length len)))
      rw [hlength] at hw
      rw [htake]
      cases odd with
      | true =>
        obtain ⟨hcong, hnull⟩ := ih h
        simp only [weight, if_true] at hcong hw ⊢
        unfold Nat.ModEq at *
        exact ⟨by omega, by omega⟩
      | false =>
        obtain ⟨hcong, hnull⟩ := ih h
        simp only [weight, Bool.false_eq_true, if_false] at hcong hw ⊢
        unfold Nat.ModEq at *
        exact ⟨by omega, by omega⟩

/-- "Correct to front of data area" ends at the byte at `offset`. -/
theorem csumFront_spec {bp : List Block} {offset : Nat} (h : offset < blocklen bp) :
    ∃ addr l next, csumFront offset bp = (addr, l) :: next ∧
      flat ((addr, l) :: next) = (bytes bp).drop offset := by
  induction bp generalizing offset with
  | nil => exact absurd h (Nat.not_lt_zero offset)
  | cons b next ih =>
    have hlen : blocklen (b :: next) = b.data.length + blocklen next := rfl
    rw [csumFront]
    split
    next hskip =>
      obtain ⟨addr, l, rest, hfront, hflat⟩ := ih (show offset - b.data.length < blocklen next by omega)
      refine ⟨addr, l, rest, hfront, ?_⟩
      rw [hflat, bytes, bytes, List.map_cons, List.flatten_cons, List.drop_append,
        List.drop_eq_nil_of_le hskip.2, List.nil_append]
    next hhere =>
      refine ⟨_, _, _, rfl, ?_⟩
      simp only [flat, bytes, List.map_cons, List.flatten_cons, List.map_map,
        List.drop_append_of_le_length (show offset ≤ b.data.length by omega)]
      rfl

/-- **The checksum of a list of blocks is that of its bytes.** -/
theorem ptclcsum_eq (little : Bool) {bp : List Block} {offset : Nat} (len : Nat)
    (h : offset < blocklen bp) :
    ptclcsum little bp offset len =
      65535 - fold (wordSum (((bytes bp).drop offset).take len)) := by
  obtain ⟨addr, l, next, hfront, hflat⟩ := csumFront_spec h
  rw [← hflat]
  cases next with
  | nil =>
    simp only [ptclcsum, hfront, ptclbsum_eq]
    simp [flat]
  | cons seg next =>
    rcases hloop : csumLoop little ((addr, l) :: seg :: next) len false (0, 0) with ⟨lo, hi⟩
    obtain ⟨hcong, hnull⟩ := csumLoop_spec hloop
    have hswap := swap_modEq hi
    have hswap0 := swap_eq_zero (n := hi)
    simp only [ptclcsum, hfront, hloop, carry_eq_fold]
    congr 1
    apply fold_congr
    · simp only [weight, Bool.false_eq_true, if_false] at hcong
      unfold Nat.ModEq at *
      omega
    · omega

end TcpCodec
