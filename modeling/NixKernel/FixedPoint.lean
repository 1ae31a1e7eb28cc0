import Mathlib

/-!
# Fixed-point multipliers

A conversion by a fraction `a / b` is one multiplication when the fraction is
kept as a fixed-point number: `frac S a b` counts the whole units of `1 / S` in
it, and `scale S x m` multiplies by such a number and drops the fraction of the
product.  Two roundings go into the result.  The first puts the multiplier at
most one unit off the fraction, which `x` copies of it magnify to `x / S`; the
second costs less than one.
-/

namespace FixedPoint

/-- The fraction `a / b` with `S` units to the one, rounded down. -/
def frac (S a b : ℕ) : ℕ := a * S / b

/-- `x` times the fixed-point number `m`, rounded down. -/
def scale (S x m : ℕ) : ℕ := x * m / S

/-- `m` is at most one unit off the fraction `a / b`. -/
def Near (S a b m : ℕ) : Prop := |(m : ℚ) - a * S / b| ≤ 1

/-- A quotient of naturals is the rational quotient rounded down. -/
theorem floor_bounds (a : ℕ) {b : ℕ} (hb : 0 < b) :
    ((a / b : ℕ) : ℚ) ≤ (a : ℚ) / b ∧ (a : ℚ) / b < ((a / b : ℕ) : ℚ) + 1 := by
  have hb' : (0 : ℚ) < b := by exact_mod_cast hb
  constructor
  · exact Nat.cast_div_le
  · rw [div_lt_iff₀ hb']
    have h := Nat.lt_mul_div_succ a hb
    rw [Nat.mul_comm] at h
    exact_mod_cast h

/-- The multiplier rounded down is near. -/
theorem near_frac (S a : ℕ) {b : ℕ} (hb : 0 < b) : Near S a b (frac S a b) := by
  obtain ⟨hle, hlt⟩ := floor_bounds (a * S) hb
  rw [Nat.cast_mul] at hle hlt
  unfold Near frac
  rw [abs_le]
  constructor <;> linarith

/-- The multiplier rounded up is near. -/
theorem near_frac_succ (S a : ℕ) {b : ℕ} (hb : 0 < b) : Near S a b (frac S a b + 1) := by
  obtain ⟨hle, hlt⟩ := floor_bounds (a * S) hb
  rw [Nat.cast_mul] at hle hlt
  unfold Near frac
  push_cast
  rw [abs_le]
  constructor <;> linarith

/-- **Scaling by a near multiplier is off by at most `x / S + 1`.** -/
theorem abs_scale_sub_le {S a b m : ℕ} (hS : 0 < S) (h : Near S a b m) (x : ℕ) :
    |(scale S x m : ℚ) - x * a / b| ≤ x / S + 1 := by
  have hS' : (0 : ℚ) < S := by exact_mod_cast hS
  obtain ⟨hle, hlt⟩ := floor_bounds (x * m) hS
  rw [Nat.cast_mul] at hle hlt
  obtain ⟨hlow, hhigh⟩ := abs_le.mp h
  have hx : (0 : ℚ) ≤ (x : ℚ) / S := by positivity
  -- The unit the multiplier is off by, `x` times over.
  have hmag : (x : ℚ) * m / S - x * a / b = x / S * (m - a * S / b) := by
    field_simp
  have hup := mul_le_mul_of_nonneg_left hhigh hx
  have hdown := mul_le_mul_of_nonneg_left hlow hx
  unfold scale
  rw [abs_le]
  constructor <;> linarith

/-- Scaling by one multiplier keeps the order. -/
theorem scale_mono (S m : ℕ) {x y : ℕ} (h : x ≤ y) : scale S x m ≤ scale S y m :=
  Nat.div_le_div_right (Nat.mul_le_mul_right m h)

/-- **The middle of a product, from the four products of the halves.** -/
theorem scale_words {R : ℕ} (hR : 0 < R) (ah al bh bl : ℕ) :
    scale R (ah * R + al) (bh * R + bl) = al * bl / R + al * bh + ah * bl + ah * bh * R := by
  have hsum : (ah * R + al) * (bh * R + bl) =
      al * bl + (al * bh + ah * bl + ah * bh * R) * R := by ring
  rw [scale, hsum, Nat.add_mul_div_right _ _ hR]
  omega

end FixedPoint
