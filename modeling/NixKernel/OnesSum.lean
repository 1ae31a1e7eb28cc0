import Mathlib

/-!
# The ones' complement sum of a byte string

A string of bytes is read as big-endian 16-bit words, an odd last byte being the high byte
of its word, and the words are added up.  What matters of the sum is its class modulo
`2 ^ 16 - 1`, and whether it is zero at all: `fold` is the representative that the
end-around carry leaves.
-/

namespace OnesSum

/-- The sum of the big-endian words of `l`. -/
def wordSum : List UInt8 → Nat
  | [] => 0
  | [a] => 256 * a.toNat
  | a :: b :: l => 256 * a.toNat + b.toNat + wordSum l

/-- The sum of the little-endian words of `l`, an odd last byte left out. -/
def swapSum : List UInt8 → Nat
  | a :: b :: l => a.toNat + 256 * b.toNat + swapSum l
  | _ => 0

/-- The sum of the big-endian words of `l`, an odd last byte left out. -/
def pairSum : List UInt8 → Nat
  | a :: b :: l => 256 * a.toNat + b.toNat + pairSum l
  | _ => 0

/-- The odd byte at the end of `l`, or 0. -/
def oddByte : List UInt8 → Nat
  | [] => 0
  | [a] => a.toNat
  | _ :: _ :: l => oddByte l

/-- The representative that the end-around carry gives: 0 only for 0. -/
def fold (n : Nat) : Nat := if n = 0 then 0 else (n - 1) % 65535 + 1

/-- Adding the carry back until none is left. -/
def carry (n : Nat) : Nat :=
  if n / 2 ^ 16 = 0 then n else carry (n / 2 ^ 16 + n % 2 ^ 16)
termination_by n
decreasing_by omega

/-- Swapping the two bytes of every word. -/
def swap (n : Nat) : Nat := n / 2 ^ 8 + (n % 2 ^ 8) * 2 ^ 8

section
-- the equations are made here, and not by the first proofs that need them
attribute [local simp] wordSum swapSum pairSum oddByte
end

theorem fold_le (n : Nat) : fold n ≤ 65535 := by
  unfold fold
  split <;> omega

theorem fold_modEq (n : Nat) : fold n ≡ n [MOD 65535] := by
  unfold fold Nat.ModEq
  split <;> omega

theorem fold_eq_zero {n : Nat} : fold n = 0 ↔ n = 0 := by
  unfold fold
  split <;> omega

/-- Two sums of one class have one representative, unless only one of them is 0. -/
theorem fold_congr {m n : Nat} (h : m ≡ n [MOD 65535]) (hzero : m = 0 ↔ n = 0) :
    fold m = fold n := by
  unfold fold Nat.ModEq at *
  split <;> split <;> omega

theorem carry_eq_fold (n : Nat) : carry n = fold n := by
  induction n using carry.induct with
  | case1 n h =>
    rw [carry, if_pos h]
    unfold fold
    split <;> omega
  | case2 n h ih =>
    rw [carry, if_neg h, ih]
    apply fold_congr
    · unfold Nat.ModEq
      omega
    · omega

theorem swap_modEq (n : Nat) : swap n ≡ 256 * n [MOD 65535] := by
  unfold swap Nat.ModEq
  omega

theorem swap_eq_zero {n : Nat} : swap n = 0 ↔ n = 0 := by
  unfold swap
  omega

theorem swapSum_eq_zero (l : List UInt8) : swapSum l = 0 ↔ pairSum l = 0 := by
  induction l using swapSum.induct with
  | case1 a b l ih =>
    simp only [swapSum, pairSum]
    omega
  | case2 l h =>
    cases l with
    | nil => simp [swapSum, pairSum]
    | cons a t =>
      cases t with
      | nil => simp [swapSum, pairSum]
      | cons b t => exact absurd rfl (h a b t)

theorem swapSum_modEq (l : List UInt8) : 256 * swapSum l ≡ pairSum l [MOD 65535] := by
  induction l using swapSum.induct with
  | case1 a b l ih =>
    simp only [swapSum, pairSum]
    unfold Nat.ModEq at *
    omega
  | case2 l h =>
    cases l with
    | nil => simp [swapSum, pairSum, Nat.ModEq]
    | cons a t =>
      cases t with
      | nil => simp [swapSum, pairSum, Nat.ModEq]
      | cons b t => exact absurd rfl (h a b t)

theorem wordSum_eq_pairSum (l : List UInt8) : wordSum l = pairSum l + 256 * oddByte l := by
  induction l using wordSum.induct with
  | case1 => rfl
  | case2 a => simp [wordSum, pairSum, oddByte]
  | case3 a b l ih =>
    simp only [wordSum, pairSum, oddByte, ih]
    omega

/-- One byte in front shifts every word. -/
theorem wordSum_cons (a : UInt8) (l : List UInt8) :
    wordSum (a :: l) ≡ 256 * a.toNat + 256 * wordSum l [MOD 65535] := by
  induction l using wordSum.induct generalizing a with
  | case1 => simp [wordSum, Nat.ModEq]
  | case2 b =>
    simp only [wordSum, Nat.ModEq]
    omega
  | case3 b c l ih =>
    have h := ih c
    simp only [wordSum, Nat.ModEq] at h ⊢
    omega

theorem wordSum_append_even {l : List UInt8} (m : List UInt8) (h : l.length % 2 = 0) :
    wordSum (l ++ m) = wordSum l + wordSum m := by
  induction l using wordSum.induct with
  | case1 => simp [wordSum]
  | case2 a => simp at h
  | case3 a b l ih =>
    have hl : l.length % 2 = 0 := by
      simp only [List.length_cons] at h
      omega
    simp only [List.cons_append, wordSum, ih hl]
    omega

theorem wordSum_append_odd {l : List UInt8} (m : List UInt8) (h : l.length % 2 = 1) :
    wordSum (l ++ m) ≡ wordSum l + 256 * wordSum m [MOD 65535] := by
  induction l using wordSum.induct with
  | case1 => simp at h
  | case2 a => exact wordSum_cons a m
  | case3 a b l ih =>
    have hl : l.length % 2 = 1 := by
      simp only [List.length_cons] at h
      omega
    have := ih hl
    simp only [List.cons_append, wordSum, Nat.ModEq] at this ⊢
    omega

theorem wordSum_eq_zero (l : List UInt8) : wordSum l = 0 ↔ ∀ a ∈ l, a.toNat = 0 := by
  induction l using wordSum.induct with
  | case1 => simp [wordSum]
  | case2 a => simp [wordSum]
  | case3 a b l ih =>
    simp only [wordSum, List.mem_cons, forall_eq_or_imp, ← ih]
    omega

theorem wordSum_append_eq_zero (l m : List UInt8) :
    wordSum (l ++ m) = 0 ↔ wordSum l = 0 ∧ wordSum m = 0 := by
  simp only [wordSum_eq_zero, List.mem_append]
  constructor
  · intro h
    exact ⟨fun a ha => h a (Or.inl ha), fun a ha => h a (Or.inr ha)⟩
  · rintro ⟨hl, hm⟩ a (ha | ha)
    · exact hl a ha
    · exact hm a ha

/-- **The check word.**  Where two even-length halves enclose a word that was 0 and is now the
complement of the sum, the whole sums to all ones, unless the halves are all 0. -/
theorem fold_check {s c : Nat} (hc : c = 65535 - fold s) (hs : s ≠ 0) : fold (s + c) = 65535 := by
  have hle := fold_le s
  have hmod := fold_modEq s
  have hne : fold s ≠ 0 := fun h => hs (fold_eq_zero.mp h)
  unfold Nat.ModEq at hmod
  unfold fold at *
  split <;> omega

end OnesSum
