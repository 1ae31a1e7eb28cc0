import Mathlib

/-!
# Tables of slots

A table is a list whose positions stay.  These are the facts of reading a slot after one has been
written, and of the sums and the counts that a table keeps.
-/

namespace Tally

open List

variable {α : Type*} {d : α} {l : List α} {i j : Nat}

/-- A slot, where another has been written. -/
theorem getD_set (hi : i < l.length) (a : α) (j : Nat) :
    (l.set i a).getD j d = if j = i then a else l.getD j d := by
  rw [getD_eq_getElem?_getD, List.getElem?_set]
  by_cases hj : i = j
  · rw [if_pos hj, if_pos (hj ▸ hi), if_pos hj.symm, Option.getD_some]
  · rw [if_neg hj, if_neg (Ne.symm hj), getD_eq_getElem?_getD]

/-- A slot that holds something is in the table. -/
theorem lt_of_getD_ne (h : l.getD i d ≠ d) : i < l.length :=
  Nat.lt_of_not_le fun hge => h (getD_eq_default _ _ hge)

theorem getD_lt (hi : i < l.length) (d : α) : l.getD i d = l[i] := by
  rw [getD_eq_getElem?_getD, List.getElem?_eq_getElem hi, Option.getD_some]

/-- A slot at the end. -/
theorem getD_concat (l : List α) (a : α) (j : Nat) :
    (l ++ [a]).getD j d = if j = l.length then a else l.getD j d := by
  by_cases hj : j = l.length
  · rw [if_pos hj, hj, getD_append_right _ _ _ _ (Nat.le_refl _), Nat.sub_self]
    rfl
  · rw [if_neg hj]
    rcases Nat.lt_or_gt_of_ne hj with hlt | hgt
    · exact List.getD_append _ _ _ _ hlt
    · rw [getD_eq_default _ _ (by rw [length_append, length_singleton]; omega),
        getD_eq_default _ _ (Nat.le_of_lt hgt)]

/-- **A sum over a table** changes by what one slot gains. -/
theorem sum_set (w : α → Nat) (hi : i < l.length) (a : α) :
    ((l.set i a).map w).sum + w (l.getD i d) = (l.map w).sum + w a := by
  rw [getD_lt hi]
  induction l generalizing i with
  | nil => exact absurd hi (Nat.not_lt_zero i)
  | cons b l ih =>
    cases i with
    | zero =>
      simp only [set_cons_zero, map_cons, sum_cons, getElem_cons_zero]
      omega
    | succ i =>
      have htail := ih (Nat.lt_of_succ_lt_succ hi)
      simp only [set_cons_succ, map_cons, sum_cons, getElem_cons_succ]
      omega

/-- **A count over a table**, likewise. -/
theorem countP_set (p : α → Bool) (hi : i < l.length) (a : α) :
    (l.set i a).countP p + (p (l.getD i d)).toNat = l.countP p + (p a).toNat := by
  rw [getD_lt hi]
  induction l generalizing i with
  | nil => exact absurd hi (Nat.not_lt_zero i)
  | cons b l ih =>
    cases i with
    | zero =>
      simp only [set_cons_zero, countP_cons, getElem_cons_zero]
      cases p a <;> cases p b <;> rfl
    | succ i =>
      have htail := ih (Nat.lt_of_succ_lt_succ hi)
      simp only [set_cons_succ, countP_cons, getElem_cons_succ]
      omega

end Tally
