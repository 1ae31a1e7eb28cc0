import Mathlib

/-!
# Disjoint blocks on the line

A family of blocks of natural numbers is a partial map from the first number of each block to its
length.  It is `Packed` when no block starts inside another one, which is the same as pairwise
disjointness (`Packed.disjoint`).  `Covers` is membership in the union.
-/

namespace Tiling

open Function (update update_self update_of_ne update_idem)

variable {t : Nat → Option Nat} {i j u v x : Nat}

/-- Blocks are not empty, and none starts inside another. -/
structure Packed (t : Nat → Option Nat) : Prop where
  pos : ∀ {i u}, t i = some u → 0 < u
  apart : ∀ {i u j}, t i = some u → i < j → j < i + u → t j = none

/-- Some block contains `x`. -/
def Covers (t : Nat → Option Nat) (x : Nat) : Prop := ∃ i u, t i = some u ∧ i ≤ x ∧ x < i + u

/-- **Packed blocks are disjoint.** -/
theorem Packed.disjoint (h : Packed t) (hi : t i = some u) (hj : t j = some v) (hne : i ≠ j) :
    i + u ≤ j ∨ j + v ≤ i := by
  by_contra hnot
  rw [not_or] at hnot
  rcases Nat.lt_or_gt_of_ne hne with hlt | hlt
  · have hnone := h.apart hi hlt (by omega)
    rw [hj] at hnone
    cases hnone
  · have hnone := h.apart hj hlt (by omega)
    rw [hi] at hnone
    cases hnone

/-- A number lies in one block only. -/
theorem Packed.unique (h : Packed t) (hi : t i = some u) (hj : t j = some v)
    (hxi : i ≤ x ∧ x < i + u) (hxj : j ≤ x ∧ x < j + v) : i = j := by
  by_contra hne
  rcases h.disjoint hi hj hne with hle | hle
  · omega
  · omega

theorem Packed.covers_start (h : Packed t) (hi : t i = some u) : Covers t i :=
  ⟨i, u, hi, Nat.le_refl _, by have hpos := h.pos hi; omega⟩

theorem Packed.add (h : Packed t) (hu : 0 < u)
    (hfree : ∀ x, i ≤ x → x < i + u → ¬ Covers t x) : Packed (update t i (some u)) := by
  refine ⟨?_, ?_⟩
  · intro j w hj
    by_cases hji : j = i
    · subst hji
      rw [update_self] at hj
      cases hj
      exact hu
    · rw [update_of_ne hji] at hj
      exact h.pos hj
  · intro j w a hj hja haw
    by_cases hai : a = i
    · subst hai
      rw [update_of_ne (by omega)] at hj
      exact absurd ⟨j, w, hj, Nat.le_of_lt hja, haw⟩ (hfree a (Nat.le_refl _) (by omega))
    · rw [update_of_ne hai]
      by_cases hji : j = i
      · subst hji
        rw [update_self] at hj
        cases hj
        cases hta : t a with
        | none => rfl
        | some y => exact absurd (h.covers_start hta) (hfree a (Nat.le_of_lt hja) haw)
      · rw [update_of_ne hji] at hj
        exact h.apart hj hja haw

theorem covers_add (hi : t i = none) :
    Covers (update t i (some u)) x ↔ Covers t x ∨ (i ≤ x ∧ x < i + u) := by
  constructor
  · intro hc
    obtain ⟨j, w, hj, hx⟩ := hc
    by_cases hji : j = i
    · subst hji
      rw [update_self] at hj
      cases hj
      exact Or.inr hx
    · rw [update_of_ne hji] at hj
      exact Or.inl ⟨j, w, hj, hx⟩
  · intro hc
    rcases hc with ⟨j, w, hj, hx⟩ | hx
    · refine ⟨j, w, ?_, hx⟩
      rw [update_of_ne]
      · exact hj
      · intro heq
        rw [heq, hi] at hj
        cases hj
    · exact ⟨i, u, update_self _ _ _, hx⟩

theorem Packed.remove (h : Packed t) (i : Nat) : Packed (update t i none) := by
  have hsub : ∀ {j w}, update t i none j = some w → t j = some w := by
    intro j w hj
    by_cases hji : j = i
    · subst hji
      rw [update_self] at hj
      cases hj
    · rw [update_of_ne hji] at hj
      exact hj
  refine ⟨fun hj => h.pos (hsub hj), ?_⟩
  intro j w a hj hja haw
  have hnone := h.apart (hsub hj) hja haw
  by_cases hai : a = i
  · rw [hai, update_self]
  · rw [update_of_ne hai]
    exact hnone

theorem Packed.covers_remove (h : Packed t) (hi : t i = some u) :
    Covers (update t i none) x ↔ Covers t x ∧ ¬ (i ≤ x ∧ x < i + u) := by
  constructor
  · intro hc
    obtain ⟨j, w, hj, hx⟩ := hc
    by_cases hji : j = i
    · subst hji
      rw [update_self] at hj
      cases hj
    · rw [update_of_ne hji] at hj
      refine ⟨⟨j, w, hj, hx⟩, ?_⟩
      intro hxi
      exact hji (h.unique hj hi hx hxi)
  · intro hc
    obtain ⟨⟨j, w, hj, hx⟩, hnot⟩ := hc
    refine ⟨j, w, ?_, hx⟩
    rw [update_of_ne]
    · exact hj
    · intro heq
      subst heq
      rw [hi] at hj
      cases hj
      exact hnot hx

/-- A block gives up its end. -/
theorem Packed.shrink (h : Packed t) (hi : t i = some u) (hv : 0 < v) (hvu : v ≤ u) :
    Packed (update t i (some v)) := by
  have hadd := (h.remove i).add (i := i) (u := v) hv ?_
  · rw [update_idem] at hadd
    exact hadd
  · intro x hix hxv hc
    rw [h.covers_remove hi] at hc
    omega

theorem Packed.covers_shrink (h : Packed t) (hi : t i = some u) (hvu : v ≤ u) :
    Covers (update t i (some v)) x ↔ Covers t x ∧ ¬ (i + v ≤ x ∧ x < i + u) := by
  have hnone : update t i none i = none := update_self _ _ _
  have hadd := covers_add (u := v) (x := x) hnone
  rw [update_idem] at hadd
  rw [hadd, h.covers_remove hi]
  constructor
  · intro hc
    rcases hc with ⟨hc, hnot⟩ | hx
    · exact ⟨hc, by omega⟩
    · exact ⟨⟨i, u, hi, by omega, by omega⟩, by omega⟩
  · intro hc
    by_cases hx : i ≤ x ∧ x < i + v
    · exact Or.inr hx
    · exact Or.inl ⟨hc.1, by omega⟩

/-- Two neighbours become one block. -/
theorem Packed.join (h : Packed t) (hi : t i = some u) (hj : t (i + u) = some v) :
    Packed (update (update t (i + u) none) i (some (u + v))) := by
  have hu := h.pos hi
  have hrem := h.remove (i + u)
  have hi' : update t (i + u) none i = some u := by
    rw [update_of_ne (by omega)]
    exact hi
  have hrem' := hrem.remove i
  have hadd := hrem'.add (i := i) (u := u + v) (by omega) ?_
  · rw [update_idem] at hadd
    exact hadd
  · intro x hix hxv hc
    rw [hrem.covers_remove hi', h.covers_remove hj] at hc
    omega

theorem Packed.covers_join (h : Packed t) (hi : t i = some u) (hj : t (i + u) = some v) :
    Covers (update (update t (i + u) none) i (some (u + v))) x ↔
      Covers t x := by
  have hu := h.pos hi
  have hi' : update t (i + u) none i = some u := by
    rw [update_of_ne (by omega)]
    exact hi
  have hnone : update (update t (i + u) none) i none i = none :=
    update_self _ _ _
  have hadd := covers_add (u := u + v) (x := x) hnone
  rw [update_idem] at hadd
  rw [hadd, (h.remove _).covers_remove hi', h.covers_remove hj]
  constructor
  · intro hc
    rcases hc with ⟨⟨hc, _⟩, _⟩ | hx
    · exact hc
    · by_cases hlt : x < i + u
      · exact ⟨i, u, hi, hx.1, hlt⟩
      · exact ⟨i + u, v, hj, by omega, by omega⟩
  · intro hc
    by_cases hx : i ≤ x ∧ x < i + (u + v)
    · exact Or.inr hx
    · left
      refine ⟨⟨hc, ?_⟩, ?_⟩
      · omega
      · omega

/-- **Counting.**  Packed blocks have as many numbers as their lengths add up to. -/
theorem Packed.card_covered (h : Packed t) {G : Finset Nat} (hG : ∀ x, x ∈ G ↔ Covers t x) :
    G.card = ∑ i ∈ G, (t i).getD 0 := by
  have hunion : G = G.biUnion fun i => Finset.Ico i (i + (t i).getD 0) := by
    ext x
    rw [Finset.mem_biUnion, hG]
    constructor
    · rintro ⟨i, u, hi, hlo, hhi⟩
      exact ⟨i, (hG i).mpr (h.covers_start hi), by rw [hi]; exact Finset.mem_Ico.mpr ⟨hlo, hhi⟩⟩
    · rintro ⟨i, _, hx⟩
      obtain ⟨hlo, hhi⟩ := Finset.mem_Ico.mp hx
      cases hi : t i with
      | none =>
        rw [hi] at hhi
        exact absurd hhi (by simpa using hlo)
      | some u =>
        rw [hi] at hhi
        exact ⟨i, u, hi, hlo, hhi⟩
  have hcard : (G.biUnion fun i => Finset.Ico i (i + (t i).getD 0)).card =
      ∑ i ∈ G, (Finset.Ico i (i + (t i).getD 0)).card := by
    apply Finset.card_biUnion
    intro i _ j _ hij
    rw [Function.onFun, Finset.disjoint_left]
    intro x hx hx'
    rw [Finset.mem_Ico] at hx hx'
    cases hi : t i with
    | none =>
      rw [hi] at hx
      simp at hx
      omega
    | some u =>
      cases hj : t j with
      | none =>
        rw [hj] at hx'
        simp at hx'
        omega
      | some v =>
        rw [hi] at hx
        rw [hj] at hx'
        exact hij (h.unique hi hj hx hx')
  calc G.card = (G.biUnion fun i => Finset.Ico i (i + (t i).getD 0)).card := by rw [← hunion]
    _ = ∑ i ∈ G, (Finset.Ico i (i + (t i).getD 0)).card := hcard
    _ = ∑ i ∈ G, (t i).getD 0 := by simp only [Nat.card_Ico, Nat.add_sub_cancel_left]

end Tiling
