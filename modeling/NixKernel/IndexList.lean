import Mathlib

/-!
# Lists linked by index

An array of nodes linked by index, with 0 for nil.  `Linked next p l` says that following `next`
from `p` visits exactly `l` and stops at 0.
-/

namespace IndexList

open List
open Function (update update_self update_of_ne)

/-- The indices visited by `next` from `p` to nil. -/
def Linked (next : Nat → Nat) : Nat → List Nat → Prop
  | p, [] => p = 0
  | p, a :: l => p = a ∧ a ≠ 0 ∧ Linked next (next a) l

variable {next next' : Nat → Nat} {p a x : Nat} {l r : List Nat}

@[simp] theorem linked_nil : Linked next p [] ↔ p = 0 := Iff.rfl

theorem Linked.of_ne_zero (h : Linked next p l) (hp : p ≠ 0) :
    ∃ t, l = p :: t ∧ Linked next (next p) t := by
  cases l with
  | nil => exact absurd h hp
  | cons b t =>
    obtain ⟨hb, _, ht⟩ := h
    subst hb
    exact ⟨t, rfl, ht⟩

theorem Linked.eq_nil (h : Linked next 0 l) : l = [] := by
  cases l with
  | nil => rfl
  | cons b t =>
    obtain ⟨hb, hne, _⟩ := h
    exact absurd hb.symm hne

theorem Linked.ne_zero (h : Linked next p l) (ha : a ∈ l) : a ≠ 0 := by
  induction l generalizing p with
  | nil => cases ha
  | cons b t ih =>
    obtain ⟨_, hb, ht⟩ := h
    rcases mem_cons.mp ha with heq | hmem
    · rw [heq]
      exact hb
    · exact ih ht hmem

/-- Only the links of the visited nodes are read. -/
theorem Linked.frame (h : Linked next p l) (heq : ∀ a ∈ l, next' a = next a) :
    Linked next' p l := by
  induction l generalizing p with
  | nil => exact h
  | cons b t ih =>
    obtain ⟨hb, hne, ht⟩ := h
    refine ⟨hb, hne, ?_⟩
    rw [heq b mem_cons_self]
    exact ih ht (fun a ha => heq a (mem_cons_of_mem _ ha))

/-- The list from one of its nodes on. -/
theorem Linked.suffix (h : Linked next p (l ++ a :: r)) : Linked next a (a :: r) := by
  induction l generalizing p with
  | nil => exact ⟨rfl, h.2⟩
  | cons b t ih => exact ih h.2.2

theorem Linked.unique (hl : Linked next p l) (hr : Linked next p r) : l = r := by
  induction l generalizing p r with
  | nil =>
    rw [linked_nil.mp hl] at hr
    exact hr.eq_nil.symm
  | cons b t ih =>
    obtain ⟨hb, hne, ht⟩ := hl
    subst hb
    obtain ⟨t', hr', ht'⟩ := hr.of_ne_zero hne
    rw [hr', ih ht ht']

/-- **No index is visited twice.** -/
theorem Linked.nodup (h : Linked next p l) : l.Nodup := by
  induction l generalizing p with
  | nil => exact nodup_nil
  | cons b t ih =>
    have ht := h.2.2
    rw [nodup_cons]
    refine ⟨?_, ih ht⟩
    intro hmem
    obtain ⟨s, r, hsr⟩ := append_of_mem hmem
    have hb : Linked next b (b :: t) := ⟨rfl, h.2⟩
    rw [hsr] at ht
    have heq := hb.unique ht.suffix
    have hlen := congrArg List.length heq
    rw [hsr] at hlen
    simp at hlen
    omega

/-- The successor of a visited node is visited. -/
theorem Linked.next_mem (h : Linked next p l) (ha : a ∈ l) (hne : next a ≠ 0) : next a ∈ l := by
  obtain ⟨s, r, hsr⟩ := append_of_mem ha
  rw [hsr] at h ⊢
  obtain ⟨t, ht, _⟩ := h.suffix.2.2.of_ne_zero hne
  rw [ht]
  simp

/-- **Bypassing a node.**  Redirecting the link of the node before `a` behind
`a` erases `a` from the list. -/
theorem Linked.bypass (h : Linked next p l) (hx : x ∈ l) (hxa : next x = a) (ha : a ≠ 0) :
    Linked (update next x (next a)) p (l.erase a) := by
  induction l generalizing p with
  | nil => cases hx
  | cons b t ih =>
    have hnodup := h.nodup
    obtain ⟨hb, hne, ht⟩ := h
    rw [nodup_cons] at hnodup
    by_cases hbx : b = x
    · subst hbx
      rw [hxa] at ht
      obtain ⟨t', htt, ht'⟩ := ht.of_ne_zero ha
      subst htt
      have hba : b ≠ a := fun heq => hnodup.1 (by rw [heq]; exact mem_cons_self)
      have hbt : b ∉ t' := fun hmem => hnodup.1 (mem_cons_of_mem _ hmem)
      rw [erase_cons_tail (by simpa using hba), erase_cons_head]
      refine ⟨hb, hne, ?_⟩
      rw [update_self]
      apply ht'.frame
      intro c hc
      apply update_of_ne
      intro heq
      subst heq
      exact hbt hc
    · have hxt : x ∈ t := by
        rcases mem_cons.mp hx with heq | hmem
        · exact absurd heq.symm hbx
        · exact hmem
      have hat : a ∈ t := by
        have hmem := ht.next_mem hxt (by rw [hxa]; exact ha)
        rw [hxa] at hmem
        exact hmem
      have hba : b ≠ a := fun heq => hnodup.1 (by rw [heq]; exact hat)
      rw [erase_cons_tail (by simpa using hba)]
      refine ⟨hb, hne, ?_⟩
      rw [update_of_ne hbx]
      exact ih ht hxt

end IndexList
