import Mathlib

/-!
# TCP sequence numbers: the comparisons of `ip/tcp.c`

A sequence number is a 32-bit `ulong`, and two of them are compared by the sign of their difference
as an `int`.  That is an order only among numbers less than `2 ^ 31` apart.
-/

namespace Tcp

/-- `(int)x`. -/
def toInt (x : UInt32) : Int := (x.toNat : Int).bmod (2 ^ 32)

def seq_within (x low high : UInt32) : Bool :=
  if low ≤ high then low ≤ x && x ≤ high else x ≥ low || x ≤ high

def seq_lt (x y : UInt32) : Bool := toInt (x - y) < 0

def seq_le (x y : UInt32) : Bool := toInt (x - y) ≤ 0

def seq_gt (x y : UInt32) : Bool := toInt (x - y) > 0

def seq_ge (x y : UInt32) : Bool := toInt (x - y) ≥ 0

/-- `x` lies this far behind `base`. -/
def behind (base x : UInt32) : Nat := (x - base).toNat

variable {base x y z low high : UInt32}

theorem behind_eq : behind base x = (2 ^ 32 - base.toNat + x.toNat) % 2 ^ 32 := UInt32.toNat_sub ..

theorem behind_lt : behind base x < 2 ^ 32 := UInt32.toNat_lt _

@[simp] theorem behind_self : behind x x = 0 := by
  rw [behind, UInt32.sub_self]
  rfl

theorem behind_inj (h : behind base x = behind base y) : x = y := by
  have hsub : x - base = y - base := UInt32.toNat_inj.mp h
  calc x = x - base + base := (UInt32.sub_add_cancel x base).symm
    _ = y - base + base := by rw [hsub]
    _ = y := UInt32.sub_add_cancel y base

/-- Distances add up, round the circle. -/
theorem behind_trans : behind x z = (behind x y + behind y z) % 2 ^ 32 := by
  have hx := x.toNat_lt
  have hy := y.toNat_lt
  have hz := z.toNat_lt
  rw [behind_eq, behind_eq, behind_eq]
  omega

theorem behind_add : behind base (x + y) = (behind base x + y.toNat) % 2 ^ 32 := by
  have hbase := base.toNat_lt
  rw [behind_eq, behind_eq, UInt32.toNat_add]
  omega

theorem behind_pred : behind base (x - 1) = (behind base x + (2 ^ 32 - 1)) % 2 ^ 32 := by
  have hbase := base.toNat_lt
  have hone : (1 : UInt32).toNat = 1 := rfl
  rw [behind_eq, behind_eq, UInt32.toNat_sub]
  omega

/-- The upper half of the `ulong`s are the negative `int`s. -/
theorem bmod_eq {n : Nat} (h : n < 2 ^ 32) :
    (n : Int).bmod (2 ^ 32) = if n < 2 ^ 31 then (n : Int) else n - 2 ^ 32 := by
  rw [Int.bmod_def]
  push_cast
  split_ifs <;> omega

theorem toInt_eq : toInt x = if x.toNat < 2 ^ 31 then (x.toNat : Int) else x.toNat - 2 ^ 32 :=
  bmod_eq x.toNat_lt

theorem seq_lt_iff : seq_lt x y = true ↔ 2 ^ 31 ≤ behind y x := by
  have hlt := @behind_lt y x
  rw [seq_lt, decide_eq_true_eq, toInt_eq, ← behind]
  split_ifs <;> omega

theorem seq_le_iff : seq_le x y = true ↔ behind y x = 0 ∨ 2 ^ 31 ≤ behind y x := by
  have hlt := @behind_lt y x
  rw [seq_le, decide_eq_true_eq, toInt_eq, ← behind]
  split_ifs <;> omega

theorem seq_gt_iff : seq_gt x y = true ↔ 0 < behind y x ∧ behind y x < 2 ^ 31 := by
  have hlt := @behind_lt y x
  rw [seq_gt, decide_eq_true_eq, toInt_eq, ← behind]
  split_ifs <;> omega

theorem seq_ge_iff : seq_ge x y = true ↔ behind y x < 2 ^ 31 := by
  have hlt := @behind_lt y x
  rw [seq_ge, decide_eq_true_eq, toInt_eq, ← behind]
  split_ifs <;> omega

/-- Less is not more. -/
theorem seq_le_of_lt (h : seq_lt x y = true) : seq_le x y = true :=
  seq_le_iff.mpr (Or.inr (seq_lt_iff.mp h))

/-- What is not less is no less the other way round. -/
theorem seq_le_of_not_lt (h : seq_lt x y = false) : seq_le y x = true := by
  have hnot : ¬ 2 ^ 31 ≤ behind y x := fun hle => by simp [seq_lt_iff.mpr hle] at h
  have hround := @behind_trans x y x
  rw [behind_self] at hround
  rw [seq_le_iff]
  have hx := @behind_lt x y
  omega

/-- Among numbers less than `2 ^ 31` behind a base, `seq_le` compares their distances. -/
theorem seq_le_iff_behind (hx : behind base x < 2 ^ 31) (hy : behind base y < 2 ^ 31) :
    seq_le x y = true ↔ behind base x ≤ behind base y := by
  have hsum := @behind_trans base y x
  have hlt := @behind_lt y x
  rw [seq_le_iff]
  omega

/-- `seq_within` for the range of the numbers from `low` on to `high`. -/
theorem seq_within_iff : seq_within x low high = true ↔ behind low x ≤ behind low high := by
  have hx := x.toNat_lt
  have hl := low.toNat_lt
  have hh := high.toNat_lt
  rw [seq_within, behind_eq, behind_eq]
  split
  next hle =>
    rw [Bool.and_eq_true, decide_eq_true_eq, decide_eq_true_eq]
    simp only [UInt32.le_iff_toNat_le] at hle ⊢
    omega
  next hle =>
    rw [Bool.or_eq_true, decide_eq_true_eq, decide_eq_true_eq]
    simp only [ge_iff_le, UInt32.le_iff_toNat_le] at hle ⊢
    omega

end Tcp
