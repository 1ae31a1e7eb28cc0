import NixKernel.LinkList

/-!
# Chains kept in the order of a key

Insertion into a chain in front of the first element with a larger key keeps the order.  Two
keys that both increase along a list order its elements alike.
-/

namespace SortedChain

open LinkList Function List

variable {α κ : Type*} [LinearOrder κ] {key f g : α → κ} {l : List α} {a b x : α}

/-- Both keys increase along the list, so they agree on its elements. -/
theorem lt_iff_lt (hf : l.Pairwise fun a b => f a < f b) (hg : l.Pairwise fun a b => g a < g b) (ha : a ∈ l)
    (hb : b ∈ l) : f a < f b ↔ g a < g b := by
  induction l with
  | nil => cases ha
  | cons c l ih =>
    rw [pairwise_cons] at hf hg
    rcases mem_cons.mp ha with hac | ha
    · rcases mem_cons.mp hb with hbc | hb
      · rw [hac, hbc]
        exact iff_of_false (lt_irrefl _) (lt_irrefl _)
      · rw [hac]
        exact iff_of_true (hf.1 b hb) (hg.1 b hb)
    · rcases mem_cons.mp hb with hbc | hb
      · rw [hbc]
        exact iff_of_false (hf.1 a ha).asymm (hg.1 a ha).asymm
      · exact ih hf.2 hg.2 ha hb

/-- Behind the first larger key there are only larger ones. -/
theorem lt_of_mem_dropWhile (h : l.Pairwise fun a b => key a < key b)
    (hb : b ∈ l.dropWhile fun a => !decide (key x < key a)) : key x < key b := by
  induction l with
  | nil => cases hb
  | cons a l ih =>
    rw [pairwise_cons] at h
    by_cases ha : key x < key a
    · rw [dropWhile_cons_of_neg (by simp [ha])] at hb
      rcases mem_cons.mp hb with hba | hb
      · exact hba ▸ ha
      · exact ha.trans (h.1 b hb)
    · rw [dropWhile_cons_of_pos (by simp [ha])] at hb
      exact ih h.2 hb

section Insert

variable [DecidableEq α] {fuel : Nat} {next : α → Option α} {p : Option α}

/-- Insert `x` in front of the first element with a larger key, or at the end: the head and the links after it.
Nothing when the links do not end. -/
def insert (fuel : Nat) (key : α → κ) (x : α) (head : Option α) (next : α → Option α) :
    Option (Option α × (α → Option α)) :=
  (search next (fun a => decide (key x < key a)) fuel none head).map fun r =>
    store r.1 (some x) head (update next x r.2)

/-- **Insertion keeps the order.** -/
theorem insert_spec (h : Path next p l none) (hx : x ∉ l) (hfuel : l.length < fuel)
    (hsorted : l.Pairwise fun a b => key a < key b) (hne : ∀ a ∈ l, key a ≠ key x) :
    ∃ head links l', insert fuel key x p next = some (head, links) ∧ Path links head l' none ∧
      (l'.Pairwise fun a b => key a < key b) ∧ ∀ a, a ∈ l' ↔ a ∈ l ∨ a = x := by
  obtain ⟨hfront, hback⟩ := h.split_while fun a => !decide (key x < key a)
  have hsplit := takeWhile_append_dropWhile (p := fun a => !decide (key x < key a)) (l := l)
  have hlow : ∀ a ∈ l.takeWhile fun a => !decide (key x < key a), key a < key x := by
    intro a ha
    have hge := mem_takeWhile_imp ha
    have hmem : a ∈ l := (takeWhile_sublist _).subset ha
    exact lt_of_le_of_ne (by simpa using hge) (hne a hmem)
  have hhigh : ∀ b ∈ l.dropWhile fun a => !decide (key x < key a), key x < key b :=
    fun b => lt_of_mem_dropWhile hsorted
  refine ⟨_, _, (l.takeWhile fun a => !decide (key x < key a)) ++ x :: l.dropWhile fun a => !decide (key x < key a),
    ?_, hfront.insert hback (by rwa [hsplit]), ?_, fun a => ?_⟩
  · rw [insert, search_spec h hfuel, Option.or_none]
    rfl
  · rw [← hsplit, pairwise_append] at hsorted
    refine pairwise_append.mpr ⟨hsorted.1, pairwise_cons.mpr ⟨hhigh, hsorted.2.1⟩, fun a ha b hb => ?_⟩
    rcases mem_cons.mp hb with hbx | hb
    · exact hbx ▸ hlow a ha
    · exact hsorted.2.2 a ha b hb
  · rw [mem_append, mem_cons, or_left_comm, ← mem_append, hsplit, or_comm]

end Insert

end SortedChain
