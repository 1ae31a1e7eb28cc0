import Mathlib

/-!
# Sets of numbers as bits of words

A table of words of `w` bits holds the number `t` if bit `t % w` of word `t / w` is set.
-/

namespace BitTable

open Function (update update_self update_of_ne)

variable {w : Nat} {mask : Nat → BitVec w} {i j t : Nat}

/-- The number is in the set. -/
def Mem (mask : Nat → BitVec w) (t : Nat) : Prop := (mask (t / w)).getLsbD (t % w) = true

/-- Set a bit of a word. -/
def insert (mask : Nat → BitVec w) (i j : Nat) : Nat → BitVec w :=
  update mask i (mask i ||| 1#w <<< j)

/-- Clear a bit of a word. -/
def erase (mask : Nat → BitVec w) (i j : Nat) : Nat → BitVec w :=
  update mask i (mask i &&& ~~~(1#w <<< j))

/-- A number is its word and its bit. -/
theorem div_mod_eq (hj : j < w) : (i * w + j) / w = i ∧ (i * w + j) % w = j := by
  have hw : 0 < w := Nat.zero_lt_of_lt hj
  refine ⟨?_, ?_⟩
  · rw [Nat.mul_comm, Nat.mul_add_div hw, Nat.div_eq_of_lt hj, Nat.add_zero]
  · rw [Nat.mul_comm, Nat.mul_add_mod, Nat.mod_eq_of_lt hj]

theorem eq_of_div_mod (hi : t / w = i) (hj : t % w = j) : t = i * w + j := by
  rw [← hi, ← hj, Nat.mul_comm]
  exact (Nat.div_add_mod t w).symm

theorem mem_pair (hj : j < w) : Mem mask (i * w + j) ↔ (mask i).getLsbD j = true := by
  obtain ⟨hdiv, hmod⟩ := div_mod_eq (i := i) hj
  rw [Mem, hdiv, hmod]

/-- A bit is clear if the word and the bit alone have nothing in common. -/
theorem and_bit (v : BitVec w) (hj : j < w) : v &&& 1#w <<< j = 0#w ↔ v.getLsbD j = false := by
  rw [← BitVec.twoPow_eq]
  constructor
  · intro hzero
    have hbit := congrArg (BitVec.getLsbD · j) hzero
    rwa [BitVec.getLsbD_and, BitVec.getLsbD_twoPow, BitVec.getLsbD_zero, decide_eq_true hj, decide_eq_true rfl,
      Bool.and_self, Bool.and_true] at hbit
  · intro hbit
    refine BitVec.eq_of_getLsbD_eq fun k hk => ?_
    rw [BitVec.getLsbD_and, BitVec.getLsbD_twoPow, BitVec.getLsbD_zero]
    by_cases hjk : j = k
    · rw [← hjk, hbit, Bool.false_and]
    · rw [decide_eq_false hjk, Bool.and_false, Bool.and_false]

theorem mem_insert (hj : j < w) : Mem (insert mask i j) t ↔ Mem mask t ∨ t = i * w + j := by
  rw [Mem, insert, Mem]
  by_cases hi : t / w = i
  · rw [hi, update_self, BitVec.getLsbD_or, ← BitVec.twoPow_eq, BitVec.getLsbD_twoPow, decide_eq_true hj,
      Bool.true_and, Bool.or_eq_true, decide_eq_true_eq]
    refine or_congr_right ⟨fun hmod => eq_of_div_mod hi hmod.symm, fun heq => ?_⟩
    rw [heq]
    exact (div_mod_eq hj).2.symm
  · rw [update_of_ne hi]
    refine ⟨Or.inl, fun h => h.resolve_right fun heq => hi ?_⟩
    rw [heq]
    exact (div_mod_eq hj).1

theorem mem_erase (hj : j < w) : Mem (erase mask i j) t ↔ Mem mask t ∧ t ≠ i * w + j := by
  have hw : 0 < w := Nat.zero_lt_of_lt hj
  rw [Mem, erase, Mem]
  by_cases hi : t / w = i
  · rw [hi, update_self, BitVec.getLsbD_and, BitVec.getLsbD_not, ← BitVec.twoPow_eq, BitVec.getLsbD_twoPow,
      decide_eq_true hj, decide_eq_true (Nat.mod_lt t hw), Bool.true_and, Bool.true_and, Bool.and_eq_true,
      Bool.not_eq_true', decide_eq_false_iff_not]
    refine and_congr_right fun _ => not_congr ⟨fun hmod => eq_of_div_mod hi hmod.symm, fun heq => ?_⟩
    rw [heq]
    exact (div_mod_eq hj).2.symm
  · rw [update_of_ne hi]
    refine ⟨fun h => ⟨h, fun heq => hi ?_⟩, And.left⟩
    rw [heq]
    exact (div_mod_eq hj).1

end BitTable
