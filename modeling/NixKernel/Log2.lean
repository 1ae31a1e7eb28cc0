import NixKernel.Physalloc

/-!
# The logarithm of a size: `port/log2.c`

`log2init` makes a table of the logarithms of the bytes, rounded down, each from that of half the
byte.  `log2ceil` looks up the highest byte of a number that is not zero, and goes one up unless the
number is a power of two.  The numbers are physical addresses and sizes, of 64 bits.
-/

namespace Log2

open Function (update)

/-- The loop of `log2init`, over `n` entries from `i` on. -/
def log2initLoop (log2v : Nat → UInt8) (i : Nat) : Nat → Nat → UInt8
  | 0 => log2v
  | n + 1 => log2initLoop (update log2v i (log2v (i / 2) + 1)) (i + 1) n

/-- `log2init`, of the 256 entries of `log2v`. -/
def log2init : Nat → UInt8 := log2initLoop (fun _ => 0) 2 254

/-- The logarithm of the highest byte of `n` that is not zero, and `r`. -/
def ofBytes (log2v : Nat → UInt8) (n : UInt32) (r : Nat) : Nat :=
  if n >>> 8 = 0 then (log2v n.toNat).toNat + r
  else if n >>> 16 = 0 then 8 + (log2v (n >>> 8).toNat).toNat + r
  else if n >>> 24 = 0 then 16 + (log2v (n >>> 16).toNat).toNat + r
  else 24 + (log2v (n >>> 24).toNat).toNat + r

/-- ceil(log₂ m) -/
def log2ceil (log2v : Nat → UInt8) (m : UInt64) : Nat :=
  let r := if m &&& (m - 1) ≠ 0 then 1 else 0 -- not a power of two => round up
  let n := m.toUInt32
  if n.toUInt64 ≠ m then ofBytes log2v (m >>> 32).toUInt32 (r + 32) else ofBytes log2v n r

/-- The entries below `i` are logarithms. -/
def Logs (log2v : Nat → UInt8) (i : Nat) : Prop := ∀ j, 1 ≤ j → j < i → (log2v j).toNat = Nat.log2 j

theorem log2_half {i : Nat} (hi : 2 ≤ i) : Nat.log2 i = Nat.log2 (i / 2) + 1 := by
  rw [Nat.log2_def, if_pos hi]

theorem logs_loop {log2v : Nat → UInt8} {i n : Nat} (h : Logs log2v i) (hi : 2 ≤ i) (hn : i + n ≤ 256) :
    Logs (log2initLoop log2v i n) (i + n) := by
  induction n generalizing log2v i with
  | zero => exact h
  | succ n ih =>
    have hnext : Logs (update log2v i (log2v (i / 2) + 1)) (i + 1) := fun j hj hlt => by
      by_cases heq : j = i
      · have hhalf := h (i / 2) (by omega) (by omega)
        have hsmall : Nat.log2 (i / 2) < 7 := (Nat.log2_lt (by omega)).mpr (by omega)
        rw [heq, Function.update_self, UInt8.toNat_add, hhalf, log2_half hi]
        exact Nat.mod_eq_of_lt (by change _ + 1 < 256; omega)
      · rw [Function.update_of_ne heq]
        exact h j hj (by omega)
    have hall := ih hnext (by omega) (by omega)
    rwa [Nat.add_right_comm, Nat.add_assoc] at hall

/-- **The table** has the logarithm of every byte but zero. -/
theorem log2init_eq {i : Nat} (hi : 1 ≤ i) (hlt : i < 256) : (log2init i).toNat = Nat.log2 i := by
  have hone : Logs (fun _ => 0) 2 := fun j hj hlt => by
    have heq : j = 1 := by omega
    rw [heq]
    rfl
  exact logs_loop hone (by decide) (by decide) i hi hlt

/-- The logarithm of what is above `k` bits. -/
theorem log2_shift (n k : Nat) : Nat.log2 (n / 2 ^ k) = Nat.log2 n - k := by
  rw [Nat.log2_eq_log_two, Nat.log2_eq_log_two, Nat.log_div_base_pow]

theorem le_log2 {n k : Nat} (h : 2 ^ k ≤ n) : k ≤ Nat.log2 n :=
  (Nat.le_log2 (by have := Nat.two_pow_pos k; omega)).mpr h

/-- What `ofBytes` looks up, `k` bits up. -/
theorem lookup {n k : Nat} (hlow : 2 ^ k ≤ n) (hhigh : n < 256 * 2 ^ k) :
    k + (log2init (n / 2 ^ k)).toNat = Nat.log2 n := by
  have hpos := Nat.two_pow_pos k
  have hone : 1 ≤ n / 2 ^ k := (Nat.le_div_iff_mul_le hpos).mpr (by omega)
  have hbyte : n / 2 ^ k < 256 := Nat.div_lt_of_lt_mul (by omega)
  have hle := le_log2 hlow
  rw [log2init_eq hone hbyte, log2_shift]
  omega

theorem ofBytes_eq {n : UInt32} (hn : 1 ≤ n.toNat) (r : Nat) :
    ofBytes log2init n r = Nat.log2 n.toNat + r := by
  have hlt := n.toNat_lt
  have hzero : ∀ k : UInt32, k.toNat < 32 → (n >>> k = 0 ↔ n.toNat < 2 ^ k.toNat) := fun k hk => by
    rw [← UInt32.toNat_inj, UInt32.toNat_shiftRight, Nat.mod_eq_of_lt hk, Nat.shiftRight_eq_div_pow]
    exact Nat.div_eq_zero_iff_lt (Nat.two_pow_pos _)
  have hshift : ∀ k : UInt32, k.toNat < 32 → (n >>> k).toNat = n.toNat / 2 ^ k.toNat := fun k hk => by
    rw [UInt32.toNat_shiftRight, Nat.mod_eq_of_lt hk, Nat.shiftRight_eq_div_pow]
  have h8 := hzero 8 (by decide)
  have h16 := hzero 16 (by decide)
  have h24 := hzero 24 (by decide)
  have s8 := hshift 8 (by decide)
  have s16 := hshift 16 (by decide)
  have s24 := hshift 24 (by decide)
  change n >>> 8 = 0 ↔ n.toNat < 2 ^ 8 at h8
  change n >>> 16 = 0 ↔ n.toNat < 2 ^ 16 at h16
  change n >>> 24 = 0 ↔ n.toNat < 2 ^ 24 at h24
  change (n >>> 8).toNat = n.toNat / 2 ^ 8 at s8
  change (n >>> 16).toNat = n.toNat / 2 ^ 16 at s16
  change (n >>> 24).toNat = n.toNat / 2 ^ 24 at s24
  rw [ofBytes]
  simp only [h8, h16, h24, s8, s16, s24]
  split
  · rw [log2init_eq hn (by omega)]
  · split
    · rw [lookup (by omega) (by omega)]
    · split
      · rw [lookup (by omega) (by omega)]
      · rw [lookup (by omega) (by omega)]

/-- The low 32 bits are the number if it has no more. -/
theorem toUInt32_ne_iff (m : UInt64) : m.toUInt32.toUInt64 ≠ m ↔ 2 ^ 32 ≤ m.toNat := by
  rw [ne_eq, ← UInt64.toNat_inj, UInt32.toNat_toUInt64, UInt64.toNat_toUInt32]
  omega

/-- **The code computes** what the allocator reckons with. -/
theorem log2ceil_eq {m : UInt64} (hm : 1 ≤ m.toNat) :
    log2ceil log2init m = Physalloc.log2ceil m.toNat := by
  have hround : m &&& (m - 1) ≠ 0 ↔ m.toNat &&& (m.toNat - 1) ≠ 0 := by
    have hone : (1 : UInt64) ≤ m := UInt64.le_iff_toNat_le.mpr hm
    rw [ne_eq, ne_eq, ← UInt64.toNat_inj, UInt64.toNat_and, UInt64.toNat_sub_of_le _ _ hone]
    rfl
  have hhigh : (m >>> 32).toUInt32.toNat = m.toNat / 2 ^ 32 := by
    have hlt := m.toNat_lt
    have hshift : (m >>> 32).toNat = m.toNat / 2 ^ 32 := by
      rw [UInt64.toNat_shiftRight, Nat.shiftRight_eq_div_pow]
      rfl
    rw [UInt64.toNat_toUInt32, hshift]
    exact Nat.mod_eq_of_lt (by omega)
  rw [log2ceil, Physalloc.log2ceil]
  simp only [hround, toUInt32_ne_iff]
  generalize (if m.toNat &&& (m.toNat - 1) ≠ 0 then 1 else 0) = r
  split
  · rename_i hlarge
    have hlog := le_log2 hlarge
    rw [ofBytes_eq (by rw [hhigh]; omega), hhigh, log2_shift]
    omega
  · have hlow : m.toUInt32.toNat = m.toNat := by
      rw [UInt64.toNat_toUInt32]
      omega
    rw [ofBytes_eq (by omega), hlow]

/-- **`log2ceil`** is the least power of two that a number does not exceed. -/
theorem log2ceil_least {m : UInt64} (hm : 1 ≤ m.toNat) :
    IsLeast {k | m.toNat ≤ 2 ^ k} (log2ceil log2init m) := by
  have hlog : 2 ^ Nat.log2 m.toNat ≤ m.toNat := Nat.log2_self_le (by omega)
  have hnext : m.toNat < 2 ^ (Nat.log2 m.toNat + 1) := Nat.lt_log2_self
  rw [log2ceil_eq hm, Physalloc.log2ceil]
  by_cases hpow : m.toNat &&& (m.toNat - 1) ≠ 0
  · rw [if_pos hpow]
    refine ⟨Nat.le_of_lt hnext, fun k hk => Nat.lt_of_not_le fun hle => ?_⟩
    have hle2 := Nat.pow_le_pow_right (show 0 < 2 by decide) hle
    change m.toNat ≤ 2 ^ k at hk
    have heq : m.toNat = 2 ^ Nat.log2 m.toNat := by omega
    rw [heq, Nat.and_two_pow_sub_one_eq_mod, Nat.mod_self] at hpow
    exact hpow rfl
  · rw [if_neg hpow, Nat.add_zero]
    obtain ⟨j, hj⟩ := (Nat.and_sub_one_eq_zero_iff_isPowerOfTwo (by omega)).mp (not_not.mp hpow)
    have hsame : Nat.log2 m.toNat = j := by
      rw [hj, Nat.log2_two_pow]
    rw [hsame]
    exact ⟨Nat.le_of_eq hj, fun k hk => (Nat.pow_le_pow_iff_right (by decide)).mp (hj ▸ hk)⟩

/-- One more than 2^40. -/
theorem log2ceil_least_border : log2ceil log2init 0x10000000001 = 41 ∧
    IsLeast {k | (0x10000000001 : UInt64).toNat ≤ 2 ^ k} (log2ceil log2init 0x10000000001) :=
  ⟨by decide +kernel, log2ceil_least (by decide)⟩

end Log2
