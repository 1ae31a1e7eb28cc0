import Mathlib

/-!
# Who holds the cells of a heap

`Settles h h' B A`: a computation that is answerable for the cells `B` of the heap `h` leaves the
heap `h'` and answers for `A`.  All of `A` is in use afterwards; what was in `B` and is not in `A`
has been freed; what is in `A` and was not in `B` was free before; and no other cell has changed.
-/

namespace Custody

open Function (update update_of_ne)

variable {α β : Type*}

structure Settles (h h' : α → Option β) (B A : Set α) : Prop where
  live : ∀ x ∈ A, h' x ≠ none
  gone : ∀ x ∈ B, x ∉ A → h' x = none
  fresh : ∀ x ∈ A, x ∉ B → h x = none
  off : ∀ x, x ∉ B → x ∉ A → h' x = h x

variable {h h' h'' : α → Option β} {A B C F : Set α} {a : α} {b : β}

theorem Settles.refl (hlive : ∀ x ∈ A, h x ≠ none) : Settles h h A A :=
  ⟨hlive, fun _ hx hx' => (hx' hx).elim, fun _ hx hx' => (hx' hx).elim, fun _ _ _ => rfl⟩

/-- Cells are changed and none is freed. -/
theorem Settles.change (hlive : ∀ x ∈ A, h' x ≠ none) (hoff : ∀ x ∉ A, h' x = h x) :
    Settles h h' A A :=
  ⟨hlive, fun _ hx hx' => (hx' hx).elim, fun _ hx hx' => (hx' hx).elim, fun x hx _ => hoff x hx⟩

/-- **Composition.** -/
theorem Settles.trans (h₁ : Settles h h' A B) (h₂ : Settles h' h'' B C) : Settles h h'' A C := by
  refine ⟨h₂.live, ?_, ?_, ?_⟩
  · intro x hxA hxC
    by_cases hxB : x ∈ B
    · exact h₂.gone x hxB hxC
    · rw [h₂.off x hxB hxC, h₁.gone x hxA hxB]
  · intro x hxC hxA
    by_cases hxB : x ∈ B
    · exact h₁.fresh x hxB hxA
    · rw [← h₁.off x hxA hxB, h₂.fresh x hxC hxB]
  · intro x hxA hxC
    by_cases hxB : x ∈ B
    · rw [h₂.gone x hxB hxC, h₁.fresh x hxB hxA]
    · rw [h₂.off x hxB hxC, h₁.off x hxA hxB]

/-- **The frame rule.** -/
theorem Settles.frame (hs : Settles h h' B A) (hlive : ∀ x ∈ F, h x ≠ none)
    (hdisj : ∀ x ∈ F, x ∉ B) : Settles h h' (B ∪ F) (A ∪ F) := by
  refine ⟨?_, ?_, ?_, ?_⟩
  · rintro x (hx | hx)
    · exact hs.live x hx
    · by_cases hxA : x ∈ A
      · exact hs.live x hxA
      · rw [hs.off x (hdisj x hx) hxA]
        exact hlive x hx
  · rintro x (hx | hx) hx'
    · exact hs.gone x hx (fun hxA => hx' (Or.inl hxA))
    · exact (hx' (Or.inr hx)).elim
  · rintro x (hx | hx) hx'
    · exact hs.fresh x hx (fun hxB => hx' (Or.inl hxB))
    · exact (hx' (Or.inr hx)).elim
  · intro x hx hx'
    exact hs.off x (fun hxB => hx (Or.inl hxB)) (fun hxA => hx' (Or.inl hxA))

/-- What is added to the answer for does not meet what others hold. -/
theorem Settles.disjoint (hs : Settles h h' B A) (hlive : ∀ x ∈ F, h x ≠ none)
    (hdisj : ∀ x ∈ F, x ∉ B) : ∀ x ∈ F, x ∉ A := by
  intro x hx hxA
  exact hlive x hx (hs.fresh x hxA (hdisj x hx))

theorem Settles.congr {A' B' : Set α} (hs : Settles h h' B A) (hB : ∀ x, x ∈ B' ↔ x ∈ B)
    (hA : ∀ x, x ∈ A' ↔ x ∈ A) : Settles h h' B' A' := by
  rw [Set.ext hB, Set.ext hA]
  exact hs

section

variable [DecidableEq α]

theorem Settles.write (ha : h a ≠ none) : Settles h (update h a (some b)) {a} {a} := by
  refine ⟨?_, fun _ hx hx' => (hx' hx).elim, fun _ hx hx' => (hx' hx).elim, ?_⟩
  · rintro x rfl
    simp
  · intro x hx _
    exact update_of_ne hx _ _

theorem Settles.alloc (ha : h a = none) : Settles h (update h a (some b)) ∅ {a} := by
  refine ⟨?_, fun _ hx => hx.elim, ?_, ?_⟩
  · rintro x rfl
    simp
  · rintro x rfl _
    exact ha
  · intro x _ hx
    exact update_of_ne hx _ _

theorem Settles.free : Settles h (update h a none) {a} ∅ := by
  refine ⟨fun _ hx => hx.elim, ?_, fun _ hx => hx.elim, ?_⟩
  · rintro x rfl _
    simp
  · intro x hx _
    exact update_of_ne hx _ _

end

end Custody
