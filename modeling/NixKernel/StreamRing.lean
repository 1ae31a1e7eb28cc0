import Mathlib

/-!
# Streams through a ring of cells

Element `j` of a stream lies in cell `j % n`.  `Holds` says that the cells have what has not been let
go of, and that this is less than `n` elements: a ring that was quite full would look empty.  Both
places of the ring are those of counts that only grow, so that they are told apart by the counts.
-/

namespace StreamRing

open Function (update)

variable {α : Type*} {n r j k : Nat} {cell : Nat → α} {S : List α} {x : α}

/-- The stream `S` from element `r` on is in the cells. -/
structure Holds (n : Nat) (cell : Nat → α) (S : List α) (r : Nat) : Prop where
  le : r ≤ S.length
  room : S.length < r + n
  cell : ∀ j x, r ≤ j → S[j]? = some x → cell (j % n) = x

/-- The cell behind a cell. -/
def next (n i : Nat) : Nat := if n ≤ i + 1 then 0 else i + 1

theorem next_mod (h : 0 < n) (j : Nat) : next n (j % n) = (j + 1) % n := by
  have hlt := Nat.mod_lt j h
  rw [next, Nat.add_mod_eq_ite]
  rcases Nat.lt_or_ge 1 n with hone | hone
  · rw [Nat.mod_eq_of_lt hone]
    split
    · omega
    · rfl
  · have hn : n = 1 := by omega
    subst hn
    rw [Nat.mod_one]
    rfl

/-- Counts that are near have the same cell only if they are the same. -/
theorem eq_of_mod (h : j % n = k % n) (hle : j ≤ k) (hlt : k < j + n) : j = k := by
  have hdvd : n ∣ k - j := (Nat.modEq_iff_dvd' hle).mp h
  have hzero := Nat.eq_zero_of_dvd_of_lt hdvd (by omega)
  omega

/-- The ring is empty when the two places are the same. -/
theorem Holds.empty_iff (h : Holds n cell S r) : S.length % n = r % n ↔ S.length = r := by
  constructor
  · intro heq
    exact (eq_of_mod heq.symm h.le h.room).symm
  · intro heq
    rw [heq]

/-- The ring is full when the next place is that of what is let go of next. -/
theorem Holds.full_iff (h : Holds n cell S r) :
    next n (S.length % n) = r % n ↔ S.length + 1 = r + n := by
  have hle := h.le
  have hroom := h.room
  rw [next_mod (by omega)]
  constructor
  · intro heq
    by_contra hne
    have hsame := eq_of_mod heq.symm (by omega) (by omega)
    omega
  · intro heq
    rw [heq, Nat.add_mod_right]

/-- A store in the next cell. -/
theorem Holds.store (h : Holds n cell S r) (x : α) : Holds n (update cell (S.length % n) x) S r := by
  refine ⟨h.le, h.room, fun j y hj hy => ?_⟩
  obtain ⟨hlt, _⟩ := List.getElem?_eq_some_iff.mp hy
  have hroom := h.room
  have hne : j % n ≠ S.length % n := fun heq => by
    have hsame := eq_of_mod heq (by omega) (by omega)
    omega
  rw [Function.update_of_ne hne]
  exact h.cell j y hj hy

/-- What has been stored is put. -/
theorem Holds.push (h : Holds n cell S r) (hx : cell (S.length % n) = x) (hroom : S.length + 1 < r + n) :
    Holds n cell (S ++ [x]) r := by
  have hle := h.le
  refine ⟨?_, ?_, fun j y hj hy => ?_⟩
  · rw [List.length_append]
    omega
  · rwa [List.length_append, List.length_singleton]
  · rcases Nat.lt_or_ge j S.length with hlt | hge
    · rw [List.getElem?_append_left hlt] at hy
      exact h.cell j y hj hy
    · obtain ⟨hlen, _⟩ := List.getElem?_eq_some_iff.mp hy
      rw [List.length_append, List.length_singleton] at hlen
      have hj : j = S.length := by omega
      rw [hj, List.getElem?_append_right (Nat.le_refl _), Nat.sub_self] at hy
      cases hy
      rw [hj]
      exact hx

/-- What is taken is the next element. -/
theorem Holds.take_succ (h : Holds n cell S r) (hle : r ≤ j) (hlt : j < S.length) :
    S.take (j + 1) = S.take j ++ [cell (j % n)] := by
  have hget := List.getElem?_eq_getElem hlt
  rw [List.take_add_one, hget, h.cell j _ hle hget]
  rfl

theorem Holds.release (h : Holds n cell S r) (hle : r ≤ k) (hk : k ≤ S.length) : Holds n cell S k := by
  have hroom := h.room
  exact ⟨hk, by omega, fun j x hj hx => h.cell j x (by omega) hx⟩

end StreamRing
