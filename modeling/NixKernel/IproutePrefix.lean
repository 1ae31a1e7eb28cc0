import NixKernel.IprouteTree

/-!
# Prefixes

A contiguous mask has its ones before its zeros.  The range that `v4addroute`
computes from one is a prefix: `2 ^ k` addresses from a multiple of `2 ^ k`.  Of two
prefixes one contains the other or they are apart, and the trees that a prefix is
put in are those its addresses hash to, although the hash drops the top five bits.
-/

namespace Iproute

/-- A mask of ones followed by `k` zeros. -/
def Contiguous (mask : Nat) : Prop := ∃ k ≤ 32, mask = 2 ^ 32 - 2 ^ k

def IsPrefix (x : Route) : Prop :=
  ∃ k ≤ 32, 2 ^ k ∣ x.address ∧ x.endaddress + 1 = x.address + 2 ^ k

/-- The length of a prefix. -/
def Route.prefixlen (x : Route) : Nat := 32 - Nat.log2 (x.endaddress + 1 - x.address)

variable {x y : Route} {a mask k : Nat}

theorem testBit_mask (hk : k ≤ 32) (i : Nat) :
    (2 ^ 32 - 2 ^ k).testBit i = (decide (i < 32) && !decide (i < k)) := by
  have hpos := Nat.two_pow_pos k
  have hle : 2 ^ k ≤ 2 ^ 32 := Nat.pow_le_pow_right (by omega) hk
  have hlt : 2 ^ k - 1 < 2 ^ 32 := by omega
  have hsucc : 2 ^ k - 1 + 1 = 2 ^ k := by omega
  have hbit := Nat.testBit_two_pow_sub_succ hlt i
  rw [hsucc, Nat.testBit_two_pow_sub_one] at hbit
  exact hbit

theorem startOf_mask (hk : k ≤ 32) : startOf a (2 ^ 32 - 2 ^ k) = 2 ^ k * (a % 2 ^ 32 / 2 ^ k) := by
  apply Nat.eq_of_testBit_eq
  intro i
  unfold startOf
  rw [Nat.testBit_and, testBit_mask hk, Nat.testBit_two_pow_mul, Nat.testBit_div_two_pow,
    Nat.testBit_mod_two_pow]
  by_cases hi : i < k
  · have hge : ¬ i ≥ k := by omega
    simp [hi, hge]
  · have hge : i ≥ k := by omega
    have hsub : i - k + k = i := by omega
    simp [hi, hge, hsub, Bool.and_comm]

theorem not32_mask (hk : k ≤ 32) : not32 (2 ^ 32 - 2 ^ k) = 2 ^ k - 1 := by
  apply Nat.eq_of_testBit_eq
  intro i
  have hones : (0xffffffff : Nat) = 2 ^ 32 - 1 := by decide
  unfold not32
  rw [hones, Nat.testBit_xor, testBit_mask hk, Nat.testBit_two_pow_sub_one, Nat.testBit_two_pow_sub_one]
  by_cases hi : i < k
  · have hlt : i < 32 := by omega
    simp [hi, hlt]
  · simp [hi]

/-- The range of a contiguous mask is a prefix. -/
theorem isPrefix_of_contiguous {e : Entry} (hmask : Contiguous mask) :
    IsPrefix { address := startOf a mask, endaddress := endOf a mask, entry := e } := by
  obtain ⟨k, hk, hmask⟩ := hmask
  have hpos := Nat.two_pow_pos k
  have hend : endOf a mask = startOf a mask + (2 ^ k - 1) := by
    unfold endOf
    rw [hmask, not32_mask hk, startOf_mask hk]
    exact (Nat.two_pow_add_eq_or_of_lt (by omega) _).symm
  refine ⟨k, hk, ?_, ?_⟩
  · rw [hmask]
    show 2 ^ k ∣ startOf a (2 ^ 32 - 2 ^ k)
    rw [startOf_mask hk]
    exact Nat.dvd_mul_right _ _
  · show endOf a mask + 1 = startOf a mask + 2 ^ k
    omega

theorem IsPrefix.proper (h : IsPrefix x) : Proper x := by
  obtain ⟨k, _, _, hend⟩ := h
  have hpos := Nat.two_pow_pos k
  unfold Proper
  omega

/-- A multiple of `n` beyond another is beyond it by `n`. -/
theorem add_le_of_dvd {n b c : Nat} (hb : n ∣ b) (hc : n ∣ c) (h : b < c) : b + n ≤ c := by
  have hsub : n ∣ c - b := Nat.dvd_sub hc hb
  have hle : n ≤ c - b := Nat.le_of_dvd (by omega) hsub
  omega

/-- **Prefixes are nested or apart.** -/
theorem IsPrefix.laminar (hx : IsPrefix x) (hy : IsPrefix y) :
    Outside x y ∨ Under y x ∨ Same x y := by
  obtain ⟨k, _, hdx, hex⟩ := hx
  obtain ⟨j, _, hdy, hey⟩ := hy
  have hk := Nat.two_pow_pos k
  have hj := Nat.two_pow_pos j
  unfold Outside Before Under Same
  rcases Nat.le_total k j with hkj | hjk
  · have hdvd : 2 ^ k ∣ 2 ^ j := Nat.pow_dvd_pow 2 hkj
    have hky : 2 ^ k ∣ y.address := Nat.dvd_trans hdvd hdy
    have h₁ := add_le_of_dvd hdx hky
    have h₂ := add_le_of_dvd hdx (Nat.dvd_add hky hdvd)
    omega
  · have hdvd : 2 ^ j ∣ 2 ^ k := Nat.pow_dvd_pow 2 hjk
    have hjx : 2 ^ j ∣ x.address := Nat.dvd_trans hdvd hdx
    have h₁ := add_le_of_dvd hdy hjx
    have h₂ := add_le_of_dvd hdy (Nat.dvd_add hjx hdvd)
    omega

theorem IsPrefix.prefixlen_lt (hx : IsPrefix x) (hy : IsPrefix y) (h : Under x y) :
    y.prefixlen < x.prefixlen := by
  obtain ⟨k, hk, _, hex⟩ := hx
  obtain ⟨j, hj, _, hey⟩ := hy
  have hkpos := Nat.two_pow_pos k
  have hjpos := Nat.two_pow_pos j
  have hlenx : x.endaddress + 1 - x.address = 2 ^ k := by omega
  have hleny : y.endaddress + 1 - y.address = 2 ^ j := by omega
  have hlt : 2 ^ k < 2 ^ j := by
    unfold Under Same at h
    omega
  have hkj : k < j := (Nat.pow_lt_pow_iff_right (by omega)).mp hlt
  unfold Route.prefixlen
  rw [hlenx, hleny, Nat.log2_two_pow, Nat.log2_two_pow]
  omega

theorem v4h_eq (a : Nat) : v4h a = a % 2 ^ 27 / 2 ^ 17 := by
  have hones : (0x07ffffff : Nat) = 2 ^ 27 - 1 := by decide
  unfold v4h lroot
  rw [hones, Nat.and_two_pow_sub_one_eq_mod, Nat.shiftRight_eq_div_pow]

/-- **The hash and ranges.**  An address of a prefix hashes to one of the prefix's
trees. -/
theorem IsPrefix.v4h_mem (hx : IsPrefix x) (hle : x.address ≤ a) (hge : a ≤ x.endaddress) :
    v4h x.address ≤ v4h a ∧ v4h a ≤ v4h x.endaddress := by
  obtain ⟨k, _, hdvd, hend⟩ := hx
  have hmod : x.address % 2 ^ 27 ≤ a % 2 ^ 27 ∧ a % 2 ^ 27 ≤ x.endaddress % 2 ^ 27 := by
    rcases Nat.le_total k 27 with hk | hk
    · -- the prefix lies between two multiples of `2 ^ 27`
      have hblock : 2 ^ k ∣ 2 ^ 27 := Nat.pow_dvd_pow 2 hk
      have hnext : 2 ^ k ∣ 2 ^ 27 * (x.address / 2 ^ 27 + 1) := Nat.dvd_mul_right_of_dvd hblock _
      have hin := add_le_of_dvd hdvd hnext (by omega)
      omega
    · -- the prefix is made of whole blocks of `2 ^ 27`
      obtain ⟨m, hm⟩ := Nat.pow_dvd_pow 2 hk
      obtain ⟨n, hn⟩ := hdvd
      have hstart : x.address = 2 ^ 27 * (m * n) := by rw [hn, hm, Nat.mul_assoc]
      have hsum : x.endaddress + 1 = 2 ^ 27 * (m * n + m) := by
        rw [hend, hstart, hm, Nat.mul_add]
      generalize m * n = u at hstart hsum
      omega
  rw [v4h_eq, v4h_eq, v4h_eq]
  exact ⟨Nat.div_le_div_right hmod.1, Nat.div_le_div_right hmod.2⟩

end Iproute
