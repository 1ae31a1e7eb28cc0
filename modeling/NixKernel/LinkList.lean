import Mathlib

/-!
# Lists linked through a field of their elements

The elements of a list carry the link to the next one themselves.  `Path next p l e` says
that following `next` from the pointer `p` visits exactly `l` and stops at the pointer `e`;
a list that ends at nil is a `Path` to `none`.
-/

namespace LinkList

open List
open Function (update update_self update_of_ne)

variable {α : Type*}

/-- Following `next` from `p` visits `l` and stops at `e`. -/
def Path (next : α → Option α) : Option α → List α → Option α → Prop
  | p, [], e => p = e
  | p, a :: l, e => p = some a ∧ Path next (next a) l e

variable {next next' : α → Option α} {p e m : Option α} {l r : List α} {a b x : α}

@[simp] theorem path_nil : Path next p [] e ↔ p = e := Iff.rfl

@[simp] theorem path_cons : Path next p (a :: l) e ↔ p = some a ∧ Path next (next a) l e := Iff.rfl

theorem path_append : Path next p (l ++ r) e ↔ ∃ m, Path next p l m ∧ Path next m r e := by
  induction l generalizing p with
  | nil => simp
  | cons a l ih =>
    simp only [cons_append, path_cons, ih]
    constructor
    · rintro ⟨hp, m, hl, hr⟩
      exact ⟨m, ⟨hp, hl⟩, hr⟩
    · rintro ⟨m, ⟨hp, hl⟩, hr⟩
      exact ⟨hp, m, hl, hr⟩

/-- Only the links of the visited elements are read. -/
theorem Path.frame (h : Path next p l e) (heq : ∀ a ∈ l, next' a = next a) : Path next' p l e := by
  induction l generalizing p with
  | nil => exact h
  | cons a l ih =>
    obtain ⟨hp, ht⟩ := h
    refine ⟨hp, ?_⟩
    rw [heq a mem_cons_self]
    exact ih ht (fun b hb => heq b (mem_cons_of_mem _ hb))

theorem Path.eq_nil (h : Path next none l none) : l = [] := by
  cases l with
  | nil => rfl
  | cons a l => cases h.1

theorem Path.of_some (h : Path next (some a) l none) : ∃ t, l = a :: t ∧ Path next (next a) t none := by
  cases l with
  | nil => cases h
  | cons b t =>
    obtain ⟨hb, ht⟩ := h
    cases hb
    exact ⟨t, rfl, ht⟩

/-- The first pointer determines the list. -/
theorem Path.unique (hl : Path next p l none) (hr : Path next p r none) : l = r := by
  induction l generalizing p r with
  | nil =>
    rw [path_nil.mp hl] at hr
    exact hr.eq_nil.symm
  | cons a l ih =>
    obtain ⟨rfl, ht⟩ := hl
    obtain ⟨t, rfl, ht'⟩ := hr.of_some
    rw [ih ht ht']

theorem Path.suffix (h : Path next p (l ++ a :: r) e) : Path next (some a) (a :: r) e := by
  obtain ⟨m, _, hr⟩ := path_append.mp h
  exact ⟨rfl, hr.2⟩

/-- **No element is visited twice.** -/
theorem Path.nodup (h : Path next p l none) : l.Nodup := by
  induction l generalizing p with
  | nil => exact nodup_nil
  | cons a l ih =>
    obtain ⟨rfl, ht⟩ := h
    rw [nodup_cons]
    refine ⟨?_, ih ht⟩
    intro hmem
    obtain ⟨s, r, rfl⟩ := append_of_mem hmem
    have hwhole : Path next (some a) (a :: (s ++ a :: r)) none := ⟨rfl, ht⟩
    have hlen := congrArg List.length (hwhole.unique ht.suffix)
    simp at hlen
    omega

/-- A list through numbered elements is no longer than there are numbers. -/
theorem Path.length_lt {next : Nat → Option Nat} {p : Option Nat} {l : List Nat} {n : Nat} (h : Path next p l none)
    (hl : ∀ a ∈ l, a < n) : l.length < n + 1 := by
  have hsub : l ⊆ List.range n := fun a ha => mem_range.mpr (hl a ha)
  have hle := (subperm_of_subset h.nodup hsub).length_le
  rw [length_range] at hle
  exact Nat.lt_succ_of_le hle

theorem Path.head_eq (h : Path next p l none) : p = l.head? := by
  cases l with
  | nil => exact h
  | cons a l => exact h.1

section Update

variable [DecidableEq α]

/-- Writing outside a path leaves it alone. -/
theorem Path.update_ne (h : Path next p l e) (ha : a ∉ l) :
    Path (update next a m) p l e := by
  apply h.frame
  intro b hb
  apply update_of_ne
  rintro rfl
  exact ha hb

/-- Writing the link of the last element moves the end. -/
theorem Path.set_last (h : Path next p (l ++ [a]) e) (ha : a ∉ l) :
    Path (update next a m) p (l ++ [a]) m := by
  obtain ⟨q, hl, hq, _⟩ := path_append.mp h
  refine path_append.mpr ⟨q, hl.update_ne ha, hq, ?_⟩
  rw [path_nil, update_self]

/-- Write through a pointer to a pointer: that of the head, or the link of an element. -/
def store (owner : Option α) (v : Option α) (head : Option α) (next : α → Option α) :
    Option α × (α → Option α) :=
  match owner with
  | none => (v, next)
  | some a => (head, update next a v)

/-- Moving the pointer behind `l` to another path. -/
theorem Path.store (h : Path next p l m) (hnodup : l.Nodup) {v : Option α}
    (hr : Path next v r none) (hdisj : ∀ a ∈ l, a ∉ r) :
    Path (store l.getLast? v p next).2 (store l.getLast? v p next).1 (l ++ r) none := by
  cases hlast : l.getLast? with
  | none =>
    rw [List.getLast?_eq_none_iff.mp hlast]
    exact hr
  | some a =>
    obtain ⟨s, rfl⟩ := List.getLast?_eq_some_iff.mp hlast
    have ha : a ∉ s := by
      rw [nodup_append] at hnodup
      exact fun hmem => hnodup.2.2 a hmem a (by simp) rfl
    exact path_append.mpr ⟨v, h.set_last ha, hr.update_ne (hdisj a (by simp))⟩

/-- **Insertion** behind `l`: the link of the new element is set to the rest, then the
pointer in front of the rest to the new element. -/
theorem Path.insert (hl : Path next p l m) (hr : Path next m r none) (hx : x ∉ l ++ r) :
    Path (LinkList.store l.getLast? (some x) p (update next x m)).2
      (LinkList.store l.getLast? (some x) p (update next x m)).1 (l ++ x :: r) none := by
  have hnodup := (path_append.mpr ⟨m, hl, hr⟩).nodup
  rw [nodup_append] at hnodup
  rw [mem_append, not_or] at hx
  have hr' : Path (update next x m) (some x) (x :: r) none := by
    refine ⟨rfl, ?_⟩
    rw [update_self]
    exact hr.update_ne hx.2
  apply (hl.update_ne hx.1).store hnodup.1 hr'
  intro a ha hmem
  rcases mem_cons.mp hmem with rfl | hmem
  · exact hx.1 ha
  · exact hnodup.2.2 a ha a hmem rfl

/-- **Removal** of the element behind `l`. -/
theorem Path.remove (hl : Path next p l (some x)) (hr : Path next (some x) (x :: r) none) :
    Path (LinkList.store l.getLast? (next x) p next).2
      (LinkList.store l.getLast? (next x) p next).1 (l ++ r) none := by
  have hnodup := (path_append.mpr ⟨some x, hl, hr⟩).nodup
  rw [nodup_append] at hnodup
  apply hl.store hnodup.1 hr.2
  intro a ha hmem
  exact hnodup.2.2 a ha a (mem_cons_of_mem _ hmem) rfl

/-- The list at another head is not touched by a write into this one. -/
theorem Path.store_ne {owner v head : Option α} (h : Path next p l e) (ho : ∀ a, owner = some a → a ∉ l) :
    Path (LinkList.store owner v head next).2 p l e := by
  cases owner with
  | none => exact h
  | some a => exact h.update_ne (ho a rfl)

end Update

/-- Follow the links from `p` to the first element that `stop` accepts, or to nil: the
element before and the one found.  `none` when the links do not end within `fuel` steps. -/
def search (next : α → Option α) (stop : α → Bool) : Nat → Option α → Option α →
    Option (Option α × Option α)
  | 0, _, _ => none
  | _ + 1, prev, none => some (prev, none)
  | fuel + 1, prev, some a =>
    if stop a then some (prev, some a) else search next stop fuel (some a) (next a)

/-- The search stops in front of the part that starts with the element found. -/
theorem search_spec {stop : α → Bool} {fuel : Nat} {prev : Option α} (h : Path next p l none)
    (hfuel : l.length < fuel) :
    search next stop fuel prev p =
      some (((l.takeWhile fun a => !stop a).getLast?).or prev, (l.dropWhile fun a => !stop a).head?) := by
  induction l generalizing p prev fuel with
  | nil =>
    obtain ⟨fuel, rfl⟩ : ∃ k, fuel = k + 1 := ⟨fuel - 1, by simp at hfuel; omega⟩
    rw [path_nil.mp h]
    rfl
  | cons a l ih =>
    obtain ⟨fuel, rfl⟩ : ∃ k, fuel = k + 1 := ⟨fuel - 1, by simp at hfuel; omega⟩
    obtain ⟨rfl, ht⟩ := h
    by_cases hstop : stop a
    · simp [search, hstop]
    · have hrest := @ih _ fuel (some a) ht (by simpa using hfuel)
      simp only [search, hstop, if_false, hrest, takeWhile_cons, dropWhile_cons,
        Bool.not_false, if_true, Bool.false_eq_true]
      rw [List.getLast?_cons]
      cases (l.takeWhile fun a => !stop a).getLast? <;> rfl

/-- A path splits where the search stops. -/
theorem Path.split_while (h : Path next p l none) (f : α → Bool) :
    Path next p (l.takeWhile f) (l.dropWhile f).head? ∧
    Path next (l.dropWhile f).head? (l.dropWhile f) none := by
  have hsplit := h
  rw [← takeWhile_append_dropWhile (p := f) (l := l)] at hsplit
  obtain ⟨m, hl, hr⟩ := path_append.mp hsplit
  rw [← hr.head_eq]
  exact ⟨hl, hr⟩

section Find

variable [DecidableEq α] {fuel : Nat}

/-- The search for an element of the list finds it, and the one in front of it. -/
theorem Path.search_mem (h : Path next p l none) (hx : x ∈ l) (hfuel : l.length < fuel) :
    ∃ A B, l = A ++ x :: B ∧
      search next (fun a => decide (a = x)) fuel none p = some (A.getLast?, some x) := by
  have hsplit : ∃ B, l = (l.takeWhile fun a => !decide (a = x)) ++ x :: B ∧
      (l.dropWhile fun a => !decide (a = x)) = x :: B := by
    clear h hfuel
    induction l with
    | nil => cases hx
    | cons a t ih =>
      by_cases ha : a = x
      · subst ha
        exact ⟨t, by simp, by simp⟩
      · have hxt : x ∈ t := by
          rcases mem_cons.mp hx with heq | hmem
          · exact absurd heq.symm ha
          · exact hmem
        obtain ⟨B, hB, hdrop⟩ := ih hxt
        refine ⟨B, ?_, by simp [ha, hdrop]⟩
        simp only [takeWhile_cons, ha, decide_false, Bool.not_false, if_true, cons_append]
        rw [← hB]
  obtain ⟨B, hB, hdrop⟩ := hsplit
  refine ⟨_, B, hB, ?_⟩
  rw [search_spec h hfuel, hdrop, Option.or_none]
  rfl

theorem Path.search_not_mem (h : Path next p l none) (hx : x ∉ l) (hfuel : l.length < fuel) :
    ∃ q, search next (fun a => decide (a = x)) fuel none p = some (q, none) := by
  have hnone : (l.dropWhile fun a => !decide (a = x)) = [] := by
    rw [dropWhile_eq_nil_iff]
    intro a ha
    have hne : a ≠ x := by
      rintro rfl
      exact hx ha
    simp [hne]
  rw [search_spec h hfuel, hnone]
  exact ⟨_, rfl⟩

end Find

end LinkList
