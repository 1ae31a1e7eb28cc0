import Mathlib

/-!
# A table of hash chains with one entry for a key

The entries of a table hang in chains, one chain for a hash value, and an entry has a key.  `Filed`
says that every entry is in the chain of its own key and that no two entries have the same key.
-/

namespace HashChain

open List
open Function (update update_self update_of_ne)

variable {ι κ β : Type*} (hash : κ → β) (key : ι → κ)

/-- Every entry in its own chain, every key once. -/
structure Filed (tab : β → List ι) : Prop where
  home : ∀ b, ∀ i ∈ tab b, hash (key i) = b
  once : ∀ b, (tab b).Pairwise fun i j => key i ≠ key j

/-- The first entry of its chain that has the key. -/
def lookup [DecidableEq κ] (tab : β → List ι) (k : κ) : Option ι :=
  (tab (hash k)).find? fun i => key i = k

variable {hash key} {tab : β → List ι} {i j : ι} {k : κ} {b : β}

theorem Filed.empty : Filed hash key fun _ => [] :=
  ⟨fun _ _ hi => (not_mem_nil hi).elim, fun _ => List.Pairwise.nil⟩

theorem Filed.unique (h : Filed hash key tab) (hi : i ∈ tab b) (hj : j ∈ tab b)
    (hk : key i = key j) : i = j := by
  by_contra hne
  have hsymm : Std.Symm fun i j : ι => key i ≠ key j := ⟨fun _ _ => Ne.symm⟩
  exact (h.once b).forall hi hj hne hk

theorem Filed.nodup (h : Filed hash key tab) : (tab b).Nodup :=
  (h.once b).imp fun hne heq => hne (congrArg key heq)

/-- Filing depends on the keys of what is filed. -/
theorem Filed.congr {key' : ι → κ} (h : Filed hash key tab)
    (hkey : ∀ b, ∀ i ∈ tab b, key' i = key i) : Filed hash key' tab := by
  refine ⟨fun b i hi => (hkey b i hi).symm ▸ h.home b i hi, fun b => ?_⟩
  refine (h.once b).imp_of_mem fun {i j} hi hj hne => ?_
  rwa [hkey b i hi, hkey b j hj]

section Lookup

variable [DecidableEq κ]

theorem lookup_some (h : lookup hash key tab k = some i) : i ∈ tab (hash k) ∧ key i = k :=
  ⟨mem_of_find?_eq_some h, by simpa using List.find?_some h⟩

theorem lookup_none (h : lookup hash key tab k = none) : ∀ i ∈ tab (hash k), key i ≠ k := by
  intro i hi
  have := List.find?_eq_none.mp h i hi
  simpa using this

/-- What is filed is found. -/
theorem Filed.lookup_mem (h : Filed hash key tab) (hi : i ∈ tab b) :
    lookup hash key tab (key i) = some i := by
  have hb := h.home b i hi
  subst hb
  cases hfind : lookup hash key tab (key i) with
  | none => exact absurd rfl (lookup_none hfind i hi)
  | some j =>
    obtain ⟨hj, hkey⟩ := lookup_some hfind
    rw [h.unique hj hi hkey]

theorem lookup_congr {key' : ι → κ} (hkey : ∀ i ∈ tab (hash k), key' i = key i) :
    lookup hash key' tab k = lookup hash key tab k := by
  unfold lookup
  generalize tab (hash k) = l at hkey
  induction l with
  | nil => rfl
  | cons a l ih =>
    have ha := hkey a mem_cons_self
    have hl := ih fun i hi => hkey i (mem_cons_of_mem a hi)
    by_cases hk : key a = k
    · rw [List.find?_cons_of_pos (by simpa [ha] using hk), List.find?_cons_of_pos (by simpa using hk)]
    · rw [List.find?_cons_of_neg (by simpa [ha] using hk),
        List.find?_cons_of_neg (by simpa using hk), hl]

variable [DecidableEq β]

theorem Filed.file (h : Filed hash key tab) (hnone : lookup hash key tab (key i) = none) :
    Filed hash key (update tab (hash (key i)) (tab (hash (key i)) ++ [i])) := by
  constructor
  · intro b j hj
    by_cases hb : b = hash (key i)
    · subst hb
      rw [update_self] at hj
      rcases mem_append.mp hj with hj | hj
      · exact h.home _ j hj
      · rw [mem_singleton.mp hj]
    · rw [update_of_ne hb] at hj
      exact h.home b j hj
  · intro b
    by_cases hb : b = hash (key i)
    · subst hb
      rw [update_self]
      refine pairwise_append.mpr ⟨h.once _, pairwise_singleton _ _, ?_⟩
      intro a ha c hc
      rw [mem_singleton.mp hc]
      exact lookup_none hnone a ha
    · rw [update_of_ne hb]
      exact h.once b

theorem lookup_file (hnone : lookup hash key tab (key i) = none) :
    lookup hash key (update tab (hash (key i)) (tab (hash (key i)) ++ [i])) k =
      if k = key i then some i else lookup hash key tab k := by
  by_cases hk : k = key i
  · subst hk
    have hfind : (tab (hash (key i))).find? (fun j => decide (key j = key i)) = none := hnone
    rw [if_pos rfl, lookup, update_self, List.find?_append, hfind, Option.none_or,
      List.find?_cons_of_pos (by simp)]
  · rw [if_neg hk]
    by_cases hb : hash k = hash (key i)
    · rw [lookup, hb, update_self, List.find?_append,
        List.find?_cons_of_neg (by simpa using Ne.symm hk), List.find?_nil, Option.or_none, lookup, hb]
    · rw [lookup, update_of_ne hb, lookup]

end Lookup

variable [DecidableEq ι] [DecidableEq β]

theorem Filed.erase (h : Filed hash key tab) :
    Filed hash key (update tab b ((tab b).erase i)) := by
  constructor
  · intro c j hj
    by_cases hc : c = b
    · subst hc
      rw [update_self] at hj
      exact h.home c j (mem_of_mem_erase hj)
    · rw [update_of_ne hc] at hj
      exact h.home c j hj
  · intro c
    by_cases hc : c = b
    · subst hc
      rw [update_self]
      exact (h.once c).sublist erase_sublist
    · rw [update_of_ne hc]
      exact h.once c

theorem Filed.lookup_erase [DecidableEq κ] (h : Filed hash key tab) (hi : lookup hash key tab (key i) = some i) :
    lookup hash key (update tab (hash (key i)) ((tab (hash (key i))).erase i)) k =
      if k = key i then none else lookup hash key tab k := by
  obtain ⟨hmem, -⟩ := lookup_some hi
  have hgone : ∀ j ∈ (tab (hash (key i))).erase i, j ∈ tab (hash (key i)) ∧ j ≠ i := by
    intro j hj
    obtain ⟨hne, hj'⟩ := (h.nodup.mem_erase_iff).mp hj
    exact ⟨hj', hne⟩
  by_cases hk : k = key i
  · subst hk
    rw [if_pos rfl, lookup, update_self]
    apply List.find?_eq_none.mpr
    intro j hj hkey
    obtain ⟨hj', hne⟩ := hgone j hj
    exact hne (h.unique hj' hmem (by simpa using hkey))
  · rw [if_neg hk]
    by_cases hb : hash k = hash (key i)
    · -- the entry taken out has another key
      have hkeep : ∀ l : List ι, (l.erase i).find? (fun j => decide (key j = k)) =
          l.find? fun j => decide (key j = k) := by
        intro l
        induction l with
        | nil => rfl
        | cons a l ih =>
          by_cases ha : a = i
          · subst ha
            rw [erase_cons_head, List.find?_cons_of_neg (by simpa using Ne.symm hk)]
          · rw [erase_cons_tail (by simpa using ha)]
            by_cases hka : key a = k
            · rw [List.find?_cons_of_pos (by simpa using hka),
                List.find?_cons_of_pos (by simpa using hka)]
            · rw [List.find?_cons_of_neg (by simpa using hka),
                List.find?_cons_of_neg (by simpa using hka), ih]
      rw [lookup, hb, update_self, hkeep, lookup, hb]
    · rw [lookup, update_of_ne hb, lookup]

end HashChain
