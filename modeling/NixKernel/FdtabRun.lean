import NixKernel.Fdtab
import NixKernel.Tally

/-!
# Entries, bounds and references of descriptor tables

`maxfd` stays above the descriptors in use and below the length of the table.  The references of
a Chan are those held outside and one for each entry, whatever is opened, duplicated, copied and
closed.
-/

namespace Fdtab

open List Option
open Function (update_self update_of_ne)

variable {s t : Sys} {f f' : Fgrp} {c c' fd g i j k n start : Nat} {mem : Bool}
  {l r : List (Option Nat)}

/-- `maxfd` bounds the descriptors in use. -/
structure Bounded (f : Fgrp) : Prop where
  lt : f.maxfd < f.nfd
  le : ∀ i c, f.get i = some c → i ≤ f.maxfd

/-- The same entries, with more room perhaps. -/
structure Same (f f' : Fgrp) : Prop where
  get : ∀ i, f'.get i = f.get i
  count : ∀ c, f'.fd.count (some c) = f.fd.count (some c)
  ref : f'.ref = f.ref

theorem Same.refl (f : Fgrp) : Same f f := ⟨fun _ => rfl, fun _ => rfl, rfl⟩

theorem Same.trans {f₁ f₂ f₃ : Fgrp} (h : Same f₁ f₂) (h' : Same f₂ f₃) : Same f₁ f₃ :=
  ⟨fun i => (h'.get i).trans (h.get i), fun c => (h'.count c).trans (h.count c), h'.ref.trans h.ref⟩

theorem get_lt (h : f.get i = some c) : i < f.nfd := by
  by_contra hge
  rw [Fgrp.get, getD_eq_default _ _ (Nat.le_of_not_lt hge)] at h
  cases h

theorem getD_append (i n : Nat) : (l ++ List.replicate n none).getD i none = l.getD i none := by
  by_cases hi : i < l.length
  · exact List.getD_append _ _ _ _ hi
  · rw [getD_append_right _ _ _ _ (Nat.le_of_not_lt hi), getD_eq_getElem?_getD,
      List.getElem?_getD_replicate_default_eq, getD_eq_default _ _ (Nat.le_of_not_lt hi)]

theorem count_replicate (n : Nat) : (List.replicate n (none : Option Nat)).count (some c) = 0 :=
  count_eq_zero.mpr fun hmem => nomatch eq_of_mem_replicate hmem

/-- **Growing** adds free descriptors. -/
theorem growfd_spec (hf : Bounded f) (hgrow : f.growfd fd mem = some f') :
    Bounded f' ∧ fd < f'.nfd ∧ Same f f' ∧ (f' = f ∨ f'.nfd = f.nfd + DELTAFD) := by
  rw [Fgrp.growfd] at hgrow
  by_cases hlt : fd < f.nfd
  · rw [if_pos hlt] at hgrow
    cases hgrow
    exact ⟨hf, hlt, Same.refl f, Or.inl rfl⟩
  rw [if_neg hlt] at hgrow
  obtain ⟨hnear, hgrow⟩ := ite_none_left_eq_some.mp hgrow
  obtain ⟨-, hgrow⟩ := ite_none_left_eq_some.mp hgrow
  obtain ⟨-, hgrow⟩ := ite_none_left_eq_some.mp hgrow
  cases hgrow
  have hmax := hf.lt
  have hlen : (f.fd ++ List.replicate DELTAFD none).length = f.nfd + DELTAFD := by
    rw [length_append, length_replicate, Fgrp.nfd]
  have hget : ∀ i, (f.fd ++ List.replicate DELTAFD none).getD i none = f.fd.getD i none := fun i =>
    getD_append i DELTAFD
  refine ⟨⟨?_, ?_⟩, ?_, ⟨hget, ?_, rfl⟩, Or.inr hlen⟩
  · change (if fd > f.maxfd then fd else f.maxfd) < (f.fd ++ List.replicate DELTAFD none).length
    rw [hlen]
    split <;> omega
  · intro i c hi
    have hle := hf.le i c ((hget i).symm.trans hi)
    change i ≤ if fd > f.maxfd then fd else f.maxfd
    split <;> omega
  · change fd < (f.fd ++ List.replicate DELTAFD none).length
    rw [hlen]
    omega
  · intro c
    rw [count_append, count_replicate, Nat.add_zero]

theorem scan_spec (l : List (Option Nat)) (fd : Nat) : ∃ k, scan l fd = fd + k ∧
    (∀ j < k, l.getD j none ≠ none) ∧ l.getD k none = none := by
  induction l generalizing fd with
  | nil => exact ⟨0, rfl, fun j hj => absurd hj (Nat.not_lt_zero j), rfl⟩
  | cons o l ih =>
    cases o with
    | none => exact ⟨0, rfl, fun j hj => absurd hj (Nat.not_lt_zero j), rfl⟩
    | some c =>
      obtain ⟨k, hk, hused, hfree⟩ := ih (fd + 1)
      refine ⟨k + 1, ?_, fun j hj => ?_, hfree⟩
      · rw [scan, hk]
        omega
      · cases j with
        | zero => simp
        | succ j => exact hused j (Nat.lt_of_succ_lt_succ hj)

/-- What `findfreefd` finds. -/
structure Found (f f' : Fgrp) (start fd : Nat) : Prop where
  bounded : Bounded f'
  lt : fd < f'.nfd
  same : Same f f'
  free : f.get fd = none
  ge : start ≤ fd
  least : ∀ j, start ≤ j → j < fd → f.get j ≠ none
  grown : f' = f ∨ f'.nfd = f.nfd + DELTAFD

theorem scan_drop (f : Fgrp) (start : Nat) : ∃ k, scan (f.fd.drop start) start = start + k ∧
    (∀ j, start ≤ j → j < start + k → f.get j ≠ none) ∧ f.get (start + k) = none := by
  obtain ⟨k, hk, hused, hfree⟩ := scan_spec (f.fd.drop start) start
  have hget : ∀ j, (f.fd.drop start).getD j none = f.get (start + j) := fun j => by
    rw [Fgrp.get, getD_eq_getElem?_getD, List.getElem?_drop, getD_eq_getElem?_getD]
  refine ⟨k, hk, fun j hj hlt => ?_, (hget k).symm.trans hfree⟩
  have hne := hused (j - start) (by omega)
  rwa [hget, Nat.add_sub_cancel' hj] at hne

/-- Nothing is free from `start` on, and the table does not grow. -/
def Fgrp.Full (f : Fgrp) (start : Nat) (mem : Bool) : Prop :=
  (∀ j, start ≤ j → j < f.nfd → f.get j ≠ none) ∧ (mem = false ∨ 5000 ≤ f.nfd)

/-- Behind the table every place is free. -/
theorem le_nfd (hs : start ≤ f.nfd) (h : ∀ j, start ≤ j → j < fd → f.get j ≠ none) : fd ≤ f.nfd :=
  Nat.le_of_not_lt fun hlt => h f.nfd hs hlt (getD_eq_default _ _ (Nat.le_refl _))

theorem findfreefd_full (hs : start ≤ f.nfd) (h : f.findfreefd start mem = none) : f.Full start mem := by
  obtain ⟨k, hk, hleast, -⟩ := scan_drop f start
  have hend := le_nfd hs hleast
  rw [Fgrp.findfreefd, hk] at h
  by_cases hge : start + k ≥ f.nfd
  · rw [if_pos hge, map_eq_none_iff, Fgrp.growfd, if_neg (Nat.not_lt.mpr hge)] at h
    refine ⟨fun j hle hj => hleast j hle (Nat.lt_of_lt_of_le hj hge), ?_⟩
    by_contra hnot
    obtain ⟨hmem, hmax⟩ := not_or.mp hnot
    rw [if_neg (by rw [DELTAFD]; omega), if_neg hmax, if_neg hmem] at h
    cases h
  · rw [if_neg hge] at h
    cases h

theorem findfreefd_spec (hf : Bounded f) (hfind : f.findfreefd start mem = some (fd, f')) :
    Found f f' start fd := by
  obtain ⟨k, hk, hleast, hfree⟩ := scan_drop f start
  rw [Fgrp.findfreefd, hk] at hfind
  by_cases hge : start + k ≥ f.nfd
  · rw [if_pos hge] at hfind
    obtain ⟨h, hgrow, heq⟩ := map_eq_some_iff.mp hfind
    cases heq
    obtain ⟨hb, hlt, hsame, hgrown⟩ := growfd_spec hf hgrow
    exact ⟨hb, hlt, hsame, hfree, Nat.le_add_right _ _, hleast, hgrown⟩
  · rw [if_neg hge] at hfind
    cases hfind
    exact ⟨hf, Nat.lt_of_not_le hge, Same.refl f, hfree, Nat.le_add_right _ _, hleast, Or.inl rfl⟩

/-- A table that has grown has another place free. -/
theorem Found.full (h : Found f f' 0 fd) (hfull : f'.Full (fd + 1) mem) : f.Full (fd + 1) mem := by
  rcases h.grown with heq | hgrown
  · rwa [heq] at hfull
  · have hend := le_nfd (Nat.zero_le _) h.least
    have hused := hfull.1 (f.nfd + 1) (by omega) (by rw [hgrown, DELTAFD]; omega)
    rw [h.same.get] at hused
    exact absurd (getD_eq_default _ _ (Nat.le_succ _)) hused

theorem set_get (hfd : fd < f.nfd) (o : Option Nat) (i : Nat) :
    (f.set fd o).get i = if i = fd then o else f.get i := Tally.getD_set hfd o i

/-- How often `c` is in a place. -/
def weight (c : Nat) (o : Option Nat) : Nat := if o = some c then 1 else 0

theorem set_count (hfd : fd < f.nfd) (o : Option Nat) (c : Nat) :
    (f.set fd o).fd.count (some c) + weight c (f.get fd) = f.fd.count (some c) + weight c o := by
  have hlt : fd < f.fd.length := hfd
  have hget : f.get fd = f.fd[fd] := Tally.getD_lt hlt none
  have hpos : f.fd[fd] = some c → 0 < f.fd.count (some c) := fun heq =>
    count_pos_iff.mpr (heq ▸ getElem_mem hlt)
  rw [Fgrp.set, count_set hlt, hget, weight, weight]
  simp only [beq_iff_eq]
  split
  next heq =>
    have hc := hpos heq
    omega
  next => omega

theorem raise_bounded (hf : Bounded f) (hfd : fd < f.nfd) :
    Bounded (f.raise fd) ∧ fd ≤ (f.raise fd).maxfd := by
  have hlt := hf.lt
  refine ⟨⟨?_, fun i c hi => ?_⟩, ?_⟩
  · change (if fd > f.maxfd then fd else f.maxfd) < f.nfd
    split <;> omega
  · have hle := hf.le i c hi
    change i ≤ if fd > f.maxfd then fd else f.maxfd
    split <;> omega
  · change fd ≤ if fd > f.maxfd then fd else f.maxfd
    split <;> omega

theorem set_nfd (f : Fgrp) (fd : Nat) (o : Option Nat) : (f.set fd o).nfd = f.nfd := length_set

theorem set_bounded {o : Option Nat} (hf : Bounded f) (hfd : fd < f.nfd) (hmax : fd ≤ f.maxfd) :
    Bounded (f.set fd o) where
  lt := by
    rw [set_nfd]
    exact hf.lt
  le := fun i c hi => by
    rw [set_get hfd] at hi
    by_cases heq : i = fd
    · exact heq ▸ hmax
    · rw [if_neg heq] at hi
      exact hf.le i c hi

/-- **An entry is made** at a descriptor of the table. -/
theorem enter_spec (hf : Bounded f) (hfd : fd < f.nfd) (c : Nat) :
    Bounded ((f.raise fd).set fd (some c)) ∧
      (∀ i, ((f.raise fd).set fd (some c)).get i = if i = fd then some c else f.get i) ∧
      ∀ x, ((f.raise fd).set fd (some c)).fd.count (some x) + weight x (f.get fd) =
        f.fd.count (some x) + weight x (some c) := by
  obtain ⟨hb, hle⟩ := raise_bounded hf hfd
  exact ⟨set_bounded hb hfd hle, set_get (f := f.raise fd) hfd _, set_count (f := f.raise fd) hfd _⟩

/-- **`newfd`** takes the least descriptor that is free, or leaves the table as it was. -/
theorem newfd_spec (hf : Bounded f) (c : Nat) (mem : Bool) :
    ((f.newfd c mem).1 = none ∧ (f.newfd c mem).2 = f ∧ f.Full 0 mem) ∨
      ∃ fd, (f.newfd c mem).1 = some fd ∧ Bounded (f.newfd c mem).2 ∧ (f.newfd c mem).2.ref = f.ref ∧
        f.get fd = none ∧ (∀ j < fd, f.get j ≠ none) ∧
        (∀ i, (f.newfd c mem).2.get i = if i = fd then some c else f.get i) ∧
        ∀ x, (f.newfd c mem).2.fd.count (some x) = f.fd.count (some x) + weight x (some c) := by
  rw [Fgrp.newfd]
  cases hfind : f.findfreefd 0 mem with
  | none => exact Or.inl ⟨rfl, rfl, findfreefd_full (Nat.zero_le _) hfind⟩
  | some r =>
    obtain ⟨fd, f'⟩ := r
    have hfound := findfreefd_spec hf hfind
    obtain ⟨hb, hget, hcount⟩ := enter_spec hfound.bounded hfound.lt c
    refine Or.inr ⟨fd, rfl, hb, hfound.same.ref, hfound.free,
      fun j hj => hfound.least j (Nat.zero_le j) hj, fun i => ?_, fun x => ?_⟩
    · rw [← hfound.same.get i]
      exact hget i
    · have hx := hcount x
      rw [hfound.same.get, hfound.free, hfound.same.count] at hx
      exact hx

/-- **`newfd2`** takes the two least, or leaves the entries as they were. -/
theorem newfd2_spec (hf : Bounded f) (c₀ c₁ : Nat) (mem : Bool) :
    ((f.newfd2 c₀ c₁ mem).1 = none ∧ Bounded (f.newfd2 c₀ c₁ mem).2 ∧ Same f (f.newfd2 c₀ c₁ mem).2 ∧
        ∃ fd, (∀ j < fd, f.get j ≠ none) ∧ f.Full (fd + 1) mem) ∨
      ∃ fd₀ fd₁, (f.newfd2 c₀ c₁ mem).1 = some (fd₀, fd₁) ∧ Bounded (f.newfd2 c₀ c₁ mem).2 ∧
        (f.newfd2 c₀ c₁ mem).2.ref = f.ref ∧ f.get fd₀ = none ∧ f.get fd₁ = none ∧ fd₀ < fd₁ ∧
        (∀ j < fd₁, j ≠ fd₀ → f.get j ≠ none) ∧
        (∀ i, (f.newfd2 c₀ c₁ mem).2.get i =
          if i = fd₁ then some c₁ else if i = fd₀ then some c₀ else f.get i) ∧
        ∀ x, (f.newfd2 c₀ c₁ mem).2.fd.count (some x) =
          f.fd.count (some x) + weight x (some c₀) + weight x (some c₁) := by
  rw [Fgrp.newfd2]
  cases hfind : f.findfreefd 0 mem with
  | none =>
    obtain ⟨hused, hmax⟩ := findfreefd_full (Nat.zero_le _) hfind
    exact Or.inl ⟨rfl, hf, Same.refl f, 0, fun _ hj => absurd hj (Nat.not_lt_zero _),
      fun j _ => hused j (Nat.zero_le j), hmax⟩
  | some r =>
    obtain ⟨fd₀, f₀⟩ := r
    have h₀ := findfreefd_spec hf hfind
    dsimp only
    cases hfind' : f₀.findfreefd (fd₀ + 1) mem with
    | none =>
      exact Or.inl ⟨rfl, h₀.bounded, h₀.same, fd₀, fun j => h₀.least j (Nat.zero_le j),
        h₀.full (findfreefd_full h₀.lt hfind')⟩
    | some r =>
      obtain ⟨fd₁, f₁⟩ := r
      have h₁ := findfreefd_spec h₀.bounded hfind'
      have hlt : fd₀ < fd₁ := h₁.ge
      have hsame := h₀.same.trans h₁.same
      have hfree : f.get fd₁ = none := (h₀.same.get fd₁).symm.trans h₁.free
      obtain ⟨hb, hle⟩ := raise_bounded h₁.bounded h₁.lt
      have hfd₀ : fd₀ < (f₁.raise fd₁).nfd := Nat.lt_trans hlt h₁.lt
      have hb₀ : Bounded ((f₁.raise fd₁).set fd₀ (some c₀)) :=
        set_bounded hb hfd₀ (Nat.le_trans (Nat.le_of_lt hlt) hle)
      have hfd₁ : fd₁ < ((f₁.raise fd₁).set fd₀ (some c₀)).nfd := by
        rw [set_nfd]
        exact h₁.lt
      have hget₀ := set_get (f := f₁.raise fd₁) hfd₀ (some c₀)
      refine Or.inr ⟨fd₀, fd₁, rfl, set_bounded hb₀ hfd₁ hle, hsame.ref, h₀.free, hfree, hlt, ?_, ?_, ?_⟩
      · intro j hj hne
        rcases Nat.lt_trichotomy j fd₀ with hj' | hj' | hj'
        · exact h₀.least j (Nat.zero_le j) hj'
        · exact absurd hj' hne
        · rw [← h₀.same.get]
          exact h₁.least j hj' hj
      · intro i
        rw [set_get hfd₁, hget₀, ← hsame.get i]
        rfl
      · intro x
        have hx₀ := set_count (f := f₁.raise fd₁) hfd₀ (some c₀) x
        have hx₁ := set_count hfd₁ (some c₁) x
        have hempty₀ : (f₁.raise fd₁).get fd₀ = none := (hsame.get fd₀).trans h₀.free
        have hempty₁ : ((f₁.raise fd₁).set fd₀ (some c₀)).get fd₁ = none := by
          rw [hget₀, if_neg (Nat.ne_of_gt hlt)]
          exact (hsame.get fd₁).trans hfree
        have hx : (f₁.raise fd₁).fd.count (some x) = f.fd.count (some x) := hsame.count x
        have hnone : weight x none = 0 := rfl
        rw [hempty₀, hx] at hx₀
        rw [hempty₁] at hx₁
        dsimp only
        omega

/-- The walk stops above the descriptors in use. -/
theorem walk_spec (f : Fgrp) (i : Nat) : f.walk i ≤ i ∧ ∀ j, f.walk i ≤ j → j < i → f.get j = none := by
  induction i with
  | zero => exact ⟨Nat.le_refl 0, fun j _ hj => absurd hj (Nat.not_lt_zero j)⟩
  | succ i ih =>
    rw [Fgrp.walk]
    by_cases hfree : f.get i = none
    · rw [if_pos hfree]
      refine ⟨Nat.le_succ_of_le ih.1, fun j hj hlt => ?_⟩
      rcases Nat.lt_succ_iff_lt_or_eq.mp hlt with hlt | rfl
      · exact ih.2 j hj hlt
      · exact hfree
    · rw [if_neg hfree]
      exact ⟨Nat.le_refl _, fun j hj hlt => absurd hlt (Nat.not_lt_of_le hj)⟩

/-- **Closing a descriptor** walks `maxfd` down to what is left. -/
theorem clear_spec (hf : Bounded f) (hfd : fd < f.nfd) :
    Bounded (f.clear fd) ∧ (f.clear fd).ref = f.ref ∧
      (∀ i, (f.clear fd).get i = if i = fd then none else f.get i) ∧
      ∀ x, (f.clear fd).fd.count (some x) + weight x (f.get fd) = f.fd.count (some x) := by
  have hget := set_get hfd none
  have hcount : ∀ x, (f.set fd none).fd.count (some x) + weight x (f.get fd) = f.fd.count (some x) :=
    set_count hfd none
  have hlt := hf.lt
  rw [Fgrp.clear]
  split
  next hmax =>
    have hmax' : fd = f.maxfd := hmax
    obtain ⟨hle, hfree⟩ := walk_spec (f.set fd none) fd
    refine ⟨⟨?_, fun i c hi => ?_⟩, rfl, hget, hcount⟩
    · change (f.set fd none).walk fd < (f.set fd none).nfd
      rw [set_nfd]
      omega
    · have hi' : (f.set fd none).get i = some c := hi
      change i ≤ (f.set fd none).walk fd
      by_contra hgt
      have hifd : i ≠ fd := by
        rintro rfl
        rw [hget, if_pos rfl] at hi'
        cases hi'
      have hold := hi'
      rw [hget, if_neg hifd] at hold
      have hile := hf.le i c hold
      rw [hfree i (by omega) (by omega)] at hi'
      cases hi'
  next =>
    refine ⟨⟨?_, fun i c hi => ?_⟩, rfl, hget, hcount⟩
    · rw [set_nfd]
      exact hlt
    · rw [hget] at hi
      by_cases heq : i = fd
      · rw [if_pos heq] at hi
        cases hi
      · rw [if_neg heq] at hi
        exact hf.le i c hi

/-- Nothing is behind `maxfd`. -/
theorem take_count (hf : Bounded f) (x : Nat) :
    (f.fd.take (f.maxfd + 1)).count (some x) = f.fd.count (some x) := by
  have hsplit : f.fd.count (some x) = (f.fd.take (f.maxfd + 1)).count (some x) +
      (f.fd.drop (f.maxfd + 1)).count (some x) := by
    rw [← count_append, take_append_drop]
  have hzero : (f.fd.drop (f.maxfd + 1)).count (some x) = 0 := by
    refine count_eq_zero.mpr fun hmem => ?_
    obtain ⟨i, hi, hx⟩ := getElem_of_mem hmem
    rw [getElem_drop] at hx
    have hget : f.get (f.maxfd + 1 + i) = some x := by
      rw [Fgrp.get, Tally.getD_lt (by rw [length_drop] at hi; omega), hx]
    have hle := hf.le _ x hget
    omega
  omega

/-- **A copy** has the same entries. -/
theorem copy_spec (hf : Bounded f) : Bounded f.copy ∧ (∀ i, f.copy.get i = f.get i) ∧
    ∀ x, f.copy.fd.count (some x) = f.fd.count (some x) := by
  have hlt : f.maxfd + 1 ≤ f.fd.length := hf.lt
  have hlen : (f.fd.take (f.maxfd + 1)).length = f.maxfd + 1 := by
    rw [length_take]
    omega
  have hget : ∀ i, f.copy.get i = f.get i := by
    intro i
    rw [Fgrp.get, Fgrp.copy, getD_append]
    by_cases hi : i < f.maxfd + 1
    · rw [getD_eq_getElem?_getD, List.getElem?_take_of_lt hi, Fgrp.get, getD_eq_getElem?_getD]
    · rw [getD_eq_default _ _ (by omega)]
      cases hold : f.get i with
      | none => rfl
      | some c => exact absurd (hf.le i c hold) (by omega)
  refine ⟨⟨?_, fun i c hi => hf.le i c ((hget i).symm.trans hi)⟩, hget, fun x => ?_⟩
  · change f.maxfd < (f.fd.take (f.maxfd + 1) ++ List.replicate _ none).length
    rw [length_append, hlen]
    omega
  · change (f.fd.take (f.maxfd + 1) ++ List.replicate _ none).count (some x) = f.fd.count (some x)
    rw [count_append, count_replicate, Nat.add_zero, take_count hf]

/-- How often `c` is in a table that may have been freed. -/
def entries (c : Nat) : Option Fgrp → Nat
  | none => 0
  | some f => f.fd.count (some c)

theorem entries_eq (s : Sys) (c : Nat) : s.entries c = (s.fgrp.map (entries c)).sum := by
  rw [Sys.entries]
  refine congrArg _ (map_congr_left fun o _ => ?_)
  cases o <;> rfl

theorem table_lt (h : s.table g ≠ none) : g < s.fgrp.length := Tally.lt_of_getD_ne h

theorem lt_of_table (hf : s.table g = some f) : g < s.fgrp.length :=
  table_lt (by rw [hf]; exact some_ne_none f)

theorem put_entries {o : Option Fgrp} (hg : g < s.fgrp.length) (c : Nat) :
    (s.put g o).entries c + entries c (s.table g) = s.entries c + entries c o := by
  rw [entries_eq, entries_eq]
  exact Tally.sum_set (entries c) hg o

theorem put_table {o : Option Fgrp} (hg : g < s.fgrp.length) (k : Nat) :
    (s.put g o).table k = if k = g then o else s.table k := Tally.getD_set hg o k

/-- **The invariant**: bounds, and references. -/
structure Inv (s : Sys) : Prop where
  bounded : ∀ g f, s.table g = some f → Bounded f ∧ 0 < f.ref
  refs : ∀ c, (s.chan c).ref = s.held c + s.entries c

theorem put_bounded (hs : ∀ g f, s.table g = some f → Bounded f ∧ 0 < f.ref) (hg : g < s.fgrp.length)
    {o : Option Fgrp} (ho : ∀ f, o = some f → Bounded f ∧ 0 < f.ref) :
    ∀ k f, (s.put g o).table k = some f → Bounded f ∧ 0 < f.ref := by
  intro k f hk
  rw [put_table hg] at hk
  by_cases heq : k = g
  · rw [if_pos heq] at hk
    exact ho f hk
  · rw [if_neg heq] at hk
    exact hs k f hk

/-- An entry is a reference. -/
theorem Inv.ref_pos (hs : Inv s) (hf : s.table g = some f) (hget : f.get i = some c) :
    0 < (s.chan c).ref := by
  have hg := lt_of_table hf
  have hi := get_lt hget
  have hmem : some c ∈ f.fd := by
    have hlt : i < f.fd.length := hi
    have hat : f.get i = f.fd[i] := Tally.getD_lt hlt none
    rw [← hget, hat]
    exact getElem_mem hlt
  have hpos : 0 < f.fd.count (some c) := count_pos_iff.mpr hmem
  have hput := put_entries (s := s) (o := none) hg c
  rw [hf] at hput
  change _ + f.fd.count (some c) = s.entries c + 0 at hput
  have href := hs.refs c
  omega

theorem setref_ref (s : Sys) (c n x : Nat) :
    ((s.setref c n).chan x).ref = if x = c then n else (s.chan x).ref := by
  by_cases hx : x = c
  · rw [if_pos hx, hx, Sys.setref]
    dsimp only
    rw [update_self]
  · rw [if_neg hx, Sys.setref]
    dsimp only
    rw [update_of_ne hx]

theorem hold_held (s : Sys) (c n x : Nat) : (s.hold c n).held x = if x = c then n else s.held x := by
  by_cases hx : x = c
  · rw [if_pos hx, hx]
    exact update_self _ _ _
  · rw [if_neg hx]
    exact update_of_ne hx _ _

theorem weight_some (x c : Nat) : weight x (some c) = if x = c then 1 else 0 := by
  rw [weight]
  simp only [some.injEq, eq_comm]

/-- **One reference less.** -/
theorem cclose_spec (h : 0 < (s.chan c).ref) : ∃ t, s.cclose c = some t ∧ t.fgrp = s.fgrp ∧
    t.held = s.held ∧ ∀ x, (t.chan x).ref + weight x (some c) = (s.chan x).ref := by
  refine ⟨_, if_neg (Nat.ne_of_gt h), rfl, rfl, fun x => ?_⟩
  rw [setref_ref, weight_some]
  by_cases hx : x = c
  · rw [if_pos hx, if_pos hx, hx]
    omega
  · rw [if_neg hx, if_neg hx, Nat.add_zero]

theorem count_cons_some (l : List (Option Nat)) (c x : Nat) :
    (some c :: l).count (some x) = l.count (some x) + weight x (some c) := by
  rw [count_cons, weight]
  simp only [beq_iff_eq]

/-- **Closing a list of entries** gives up one reference for each. -/
theorem closes_spec (l : List (Option Nat)) (s : Sys) (h : ∀ c, l.count (some c) ≤ (s.chan c).ref) :
    ∃ t, s.closes l = some t ∧ t.fgrp = s.fgrp ∧ t.held = s.held ∧
      ∀ c, (t.chan c).ref + l.count (some c) = (s.chan c).ref := by
  induction l generalizing s with
  | nil => exact ⟨s, rfl, rfl, rfl, fun c => rfl⟩
  | cons o l ih =>
    cases o with
    | none =>
      have hcount : ∀ c, (none :: l).count (some c) = l.count (some c) := fun c =>
        count_cons_of_ne (by simp)
      obtain ⟨t, hrun, hfgrp, hheld, href⟩ := ih s fun c => hcount c ▸ h c
      exact ⟨t, hrun, hfgrp, hheld, fun c => by rw [hcount]; exact href c⟩
    | some c =>
      have hcount := count_cons_some l c
      have hpos : 0 < (s.chan c).ref := by
        have hc := h c
        rw [hcount, weight_some, if_pos rfl] at hc
        omega
      obtain ⟨u, hu, hufgrp, huheld, huref⟩ := cclose_spec hpos
      obtain ⟨t, hrun, hfgrp, hheld, href⟩ := ih u fun x => by
        have hx := h x
        rw [hcount] at hx
        have := huref x
        omega
      refine ⟨t, ?_, hfgrp.trans hufgrp, hheld.trans huheld, fun x => ?_⟩
      · rw [Sys.closes, hu]
        exact hrun
      · have hx := huref x
        have hx' := href x
        rw [hcount]
        omega

/-- **Copying a list of entries** takes one reference for each. -/
theorem increfs_spec (l : List (Option Nat)) (s : Sys) : (s.increfs l).fgrp = s.fgrp ∧
    (s.increfs l).held = s.held ∧ ∀ c, ((s.increfs l).chan c).ref = (s.chan c).ref + l.count (some c) := by
  induction l generalizing s with
  | nil => exact ⟨rfl, rfl, fun c => rfl⟩
  | cons o l ih =>
    cases o with
    | none =>
      obtain ⟨hfgrp, hheld, href⟩ := ih s
      refine ⟨hfgrp, hheld, fun c => ?_⟩
      rw [count_cons_of_ne (by simp)]
      exact href c
    | some c =>
      obtain ⟨hfgrp, hheld, href⟩ := ih (s.incref c)
      refine ⟨hfgrp, hheld, fun x => ?_⟩
      have hx := href x
      rw [Sys.incref, setref_ref] at hx
      rw [Sys.increfs, Sys.incref, hx, count_cons_some, weight_some]
      by_cases hxc : x = c
      · rw [if_pos hxc, if_pos hxc, hxc]
        omega
      · rw [if_neg hxc, if_neg hxc, Nat.add_zero]

/-- The same entries and the same references. -/
structure Unchanged (s t : Sys) : Prop where
  entry : ∀ g i, ((t.table g).bind fun f => f.get i) = (s.table g).bind fun f => f.get i
  ref : ∀ c, (t.chan c).ref = (s.chan c).ref
  held : t.held = s.held

theorem Unchanged.refl (s : Sys) : Unchanged s s := ⟨fun _ _ => rfl, fun _ => rfl, rfl⟩

/-- A table that has the same entries is put back. -/
theorem put_same (hs : Inv s) (hf : s.table g = some f) (hb : Bounded f') (hsame : Same f f') :
    Inv (s.put g (some f')) ∧ Unchanged s (s.put g (some f')) := by
  have hg := lt_of_table hf
  refine ⟨⟨put_bounded hs.bounded hg ?_, fun c => ?_⟩, ⟨fun k i => ?_, fun _ => rfl, rfl⟩⟩
  · intro u hu
    cases hu
    exact ⟨hb, by rw [hsame.ref]; exact (hs.bounded g f hf).2⟩
  · have hput := put_entries (s := s) (o := some f') hg c
    rw [hf] at hput
    change _ + f.fd.count (some c) = _ + f'.fd.count (some c) at hput
    rw [hsame.count] at hput
    have href : ((s.put g (some f')).chan c).ref = (s.put g (some f')).held c + s.entries c := hs.refs c
    omega
  · rw [put_table hg]
    by_cases hk : k = g
    · rw [if_pos hk, hk, hf]
      exact hsame.get i
    · rw [if_neg hk]

/-- **A table gets an entry** in the place of another: the references move with the entries. -/
theorem put_entry {a b : Option Nat} (hs : Inv s) (hf : s.table g = some f) (hb : Bounded f')
    (href : f'.ref = f.ref) (hfgrp : t.fgrp = (s.put g (some f')).fgrp)
    (hcount : ∀ x, f'.fd.count (some x) + weight x a = f.fd.count (some x) + weight x b)
    (hmove : ∀ x, (t.chan x).ref + s.held x + weight x a = (s.chan x).ref + t.held x + weight x b) :
    Inv t := by
  have hg := lt_of_table hf
  have htable : ∀ k, t.table k = (s.put g (some f')).table k := fun k => by rw [Sys.table, hfgrp, Sys.table]
  refine ⟨fun k u hk => put_bounded hs.bounded hg ?_ k u ((htable k).symm.trans hk), fun x => ?_⟩
  · intro u hu
    cases hu
    exact ⟨hb, by rw [href]; exact (hs.bounded g f hf).2⟩
  · have hput := put_entries (s := s) (o := some f') hg x
    rw [hf] at hput
    change _ + f.fd.count (some x) = _ + f'.fd.count (some x) at hput
    have hx := hs.refs x
    have hc := hcount x
    have hm := hmove x
    rw [Sys.entries, hfgrp]
    change (t.chan x).ref = t.held x + (s.put g (some f')).entries x
    omega

theorem weight_none (x : Nat) : weight x none = 0 := rfl

/-- What `newfd` returns, with what it leaves. -/
structure Newfd (s : Sys) (g : Nat) (f : Fgrp) (c : Nat) (mem : Bool) (r : Option Nat) (t : Sys) : Prop where
  inv : Inv t
  fails : r = none → Unchanged s t ∧ f.Full 0 mem
  entry : ∀ fd, r = some fd → f.get fd = none ∧ (∀ j < fd, f.get j ≠ none) ∧
    ∃ f', t.table g = some f' ∧ ∀ i, f'.get i = if i = fd then some c else f.get i

theorem newfd_call (hs : Inv s) (hf : s.table g = some f) (hheld : 0 < s.held c) (mem : Bool) :
    ∃ r t, s.newfd g c mem = some (r, t) ∧ Newfd s g f c mem r t := by
  have hg := lt_of_table hf
  have hb := (hs.bounded g f hf).1
  rw [Sys.newfd, hf, map_some]
  cases hr : f.newfd c mem with
  | mk r f' =>
    rcases newfd_spec hb c mem with ⟨hnone, hsame, hfull⟩ | ⟨fd, hfd, hb', href, hfree, hleast, hget, hcount⟩
    · rw [hr] at hnone hsame
      dsimp only at hnone hsame
      rw [hnone, hsame]
      obtain ⟨hinv, hun⟩ := put_same hs hf hb (Same.refl f)
      exact ⟨none, _, rfl, hinv, fun _ => ⟨hun, hfull⟩, nofun⟩
    · rw [hr] at hfd hb' href hget hcount
      dsimp only at hfd hb' href hget hcount
      rw [hfd]
      refine ⟨some fd, _, rfl, ?_, nofun, fun fd' h => ?_⟩
      · refine put_entry (a := none) (b := some c) hs hf hb' href rfl (fun x => ?_) fun x => ?_
        · rw [weight_none, hcount]
          rfl
        · rw [weight_none, weight_some]
          change (s.chan x).ref + s.held x + 0 = (s.chan x).ref + (s.hold c (s.held c - 1)).held x + _
          rw [hold_held]
          by_cases hx : x = c
          · rw [if_pos hx, if_pos hx, hx]
            omega
          · rw [if_neg hx, if_neg hx]
      · cases h
        refine ⟨hfree, hleast, f', ?_, hget⟩
        exact (put_table hg g).trans (if_pos rfl)

/-- What `newfd2` returns, with what it leaves. -/
structure Newfd2 (s : Sys) (g : Nat) (f : Fgrp) (c₀ c₁ : Nat) (mem : Bool) (r : Option (Nat × Nat)) (t : Sys) :
    Prop where
  inv : Inv t
  fails : r = none → Unchanged s t ∧ ∃ fd, (∀ j < fd, f.get j ≠ none) ∧ f.Full (fd + 1) mem
  entry : ∀ fd₀ fd₁, r = some (fd₀, fd₁) → f.get fd₀ = none ∧ f.get fd₁ = none ∧ fd₀ < fd₁ ∧
    (∀ j < fd₁, j ≠ fd₀ → f.get j ≠ none) ∧
    ∃ f', t.table g = some f' ∧
      ∀ i, f'.get i = if i = fd₁ then some c₁ else if i = fd₀ then some c₀ else f.get i

theorem newfd2_call {c₀ c₁ : Nat} (hs : Inv s) (hf : s.table g = some f) (h₀ : 0 < s.held c₀)
    (h₁ : 0 < s.held c₁) (htwo : c₀ = c₁ → 1 < s.held c₀) (mem : Bool) :
    ∃ r t, s.newfd2 g c₀ c₁ mem = some (r, t) ∧ Newfd2 s g f c₀ c₁ mem r t := by
  have hg := lt_of_table hf
  have hb := (hs.bounded g f hf).1
  rw [Sys.newfd2, hf, map_some]
  cases hr : f.newfd2 c₀ c₁ mem with
  | mk r f' =>
    rcases newfd2_spec hb c₀ c₁ mem with ⟨hnone, hb', hsame, hfull⟩ |
      ⟨fd₀, fd₁, hfd, hb', href, hfree₀, hfree₁, hlt, hleast, hget, hcount⟩
    · rw [hr] at hnone hb' hsame
      dsimp only at hnone hb' hsame
      rw [hnone]
      obtain ⟨hinv, hun⟩ := put_same hs hf hb' hsame
      exact ⟨none, _, rfl, hinv, fun _ => ⟨hun, hfull⟩, nofun⟩
    · rw [hr] at hfd hb' href hget hcount
      dsimp only at hfd hb' href hget hcount
      rw [hfd]
      refine ⟨some (fd₀, fd₁), _, rfl, ?_, nofun, fun _ _ h => ?_⟩
      · have hput := fun x => put_entries (s := s) (o := some f') hg x
        refine ⟨put_bounded hs.bounded hg ?_, fun x => ?_⟩
        · intro u hu
          cases hu
          exact ⟨hb', by rw [href]; exact (hs.bounded g f hf).2⟩
        · have hx := hs.refs x
          have hp := hput x
          have hc := hcount x
          rw [hf] at hp
          change _ + f.fd.count (some x) = _ + f'.fd.count (some x) at hp
          rw [weight_some, weight_some] at hc
          change (s.chan x).ref = (((s.put g (some f')).hold c₀ (s.held c₀ - 1)).hold c₁
            (((s.put g (some f')).hold c₀ (s.held c₀ - 1)).held c₁ - 1)).held x + (s.put g (some f')).entries x
          have hheld : ∀ y, (s.put g (some f')).held y = s.held y := fun _ => rfl
          rw [hold_held, hold_held, hold_held, hheld, hheld]
          by_cases hx₁ : x = c₁
          · rw [if_pos hx₁] at hc ⊢
            by_cases hx₀ : x = c₀
            · have heq := htwo (hx₀.symm.trans hx₁)
              rw [if_pos hx₀] at hc
              rw [if_pos (hx₁.symm.trans hx₀)]
              subst hx₁
              subst hx₀
              omega
            · rw [if_neg hx₀] at hc
              rw [if_neg (fun h => hx₀ (hx₁.trans h))]
              subst hx₁
              omega
          · rw [if_neg hx₁] at hc ⊢
            by_cases hx₀ : x = c₀
            · rw [if_pos hx₀] at hc ⊢
              subst hx₀
              omega
            · rw [if_neg hx₀] at hc ⊢
              omega
      · cases h
        exact ⟨hfree₀, hfree₁, hlt, hleast, f', (put_table hg g).trans (if_pos rfl), hget⟩

/-- The same tables and the same references. -/
theorem Inv.same (hs : Inv s) (hfgrp : t.fgrp = s.fgrp) (hheld : t.held = s.held)
    (href : ∀ c, (t.chan c).ref = (s.chan c).ref) : Inv t ∧ Unchanged s t := by
  have htable : ∀ g, t.table g = s.table g := fun g => by rw [Sys.table, hfgrp, Sys.table]
  refine ⟨⟨fun g f hf => hs.bounded g f ((htable g).symm.trans hf), fun c => ?_⟩,
    ⟨fun g i => by rw [htable], href, hheld⟩⟩
  rw [href, hheld, Sys.entries, hfgrp]
  exact hs.refs c

theorem incref_ref (s : Sys) (c x : Nat) : ((s.incref c).chan x).ref = (s.chan x).ref + weight x (some c) := by
  rw [Sys.incref, setref_ref, weight_some]
  by_cases hx : x = c
  · rw [if_pos hx, if_pos hx, hx]
  · rw [if_neg hx, if_neg hx, Nat.add_zero]

/-- A reference is taken and given up again. -/
theorem incref_cclose (hs : Inv s) (hfgrp : t.fgrp = s.fgrp) (hheld : t.held = s.held)
    (href : ∀ x, (t.chan x).ref = (s.chan x).ref + weight x (some c)) :
    ∃ u, t.cclose c = some u ∧ Inv u ∧ Unchanged s u := by
  have hpos : 0 < (t.chan c).ref := by
    rw [href, weight_some, if_pos rfl]
    omega
  obtain ⟨u, hrun, hfgrp', hheld', href'⟩ := cclose_spec hpos
  have hsame := hs.same (hfgrp'.trans hfgrp) (hheld'.trans hheld) fun x => by
    have hx := href x
    have hx' := href' x
    omega
  exact ⟨u, hrun, hsame⟩

/-- What `sysdup` returns, with what it leaves. -/
structure Dup (s : Sys) (g : Nat) (f : Fgrp) (ofd : Int) (r : Option Nat) (t : Sys) : Prop where
  inv : Inv t
  fails : r = none → Unchanged s t
  entry : ∀ fd, r = some fd → ∃ oc f', f.get ofd.toNat = some oc ∧ t.table g = some f' ∧
    ∀ i, f'.get i = if i = fd then some oc else f.get i

theorem dup_call (hs : Inv s) (hf : s.table g = some f) (ofd nfd : Int) (mem : Bool) :
    ∃ r t, s.dup g ofd nfd mem = some (r, t) ∧ Dup s g f ofd r t := by
  have hg := lt_of_table hf
  have hb := (hs.bounded g f hf).1
  have hfail : ∃ r t, some ((none : Option Nat), s) = some (r, t) ∧ Dup s g f ofd r t :=
    ⟨none, s, rfl, hs, fun _ => Unchanged.refl s, nofun⟩
  have hput : ∀ o, (s.put g o).table g = o := fun o => (put_table hg g).trans (if_pos rfl)
  rw [Sys.dup, hf]
  dsimp only
  by_cases hneg : ofd < 0
  · rw [if_pos hneg]
    exact hfail
  rw [if_neg hneg]
  cases hoc : f.get ofd.toNat with
  | none => exact hfail
  | some oc =>
    have href := incref_ref s oc
    -- the reference that `fdtochan` has taken is given up
    have hdrop : ∀ u : Sys, u.fgrp = s.fgrp → u.held = s.held →
        (∀ x, (u.chan x).ref = (s.chan x).ref + weight x (some oc)) →
        ∃ r t, (u.cclose oc).map (fun t => ((none : Option Nat), t)) = some (r, t) ∧ Dup s g f ofd r t := by
      intro u hfgrp hheld hu
      obtain ⟨t, hrun, hinv, hun⟩ := incref_cclose hs hfgrp hheld hu
      rw [hrun]
      exact ⟨none, t, rfl, hinv, fun _ => hun, nofun⟩
    dsimp only
    rw [Sys.dupto]
    by_cases hnfd : nfd ≠ -1
    · rw [if_pos hnfd]
      by_cases hneg' : nfd < 0
      · rw [if_pos hneg']
        exact hdrop (s.incref oc) rfl rfl href
      rw [if_neg hneg']
      cases hgrow : f.growfd nfd.toNat mem with
      | none => exact hdrop (s.incref oc) rfl rfl href
      | some f₁ =>
        obtain ⟨hb₁, hlt, hsame, -⟩ := growfd_spec hb hgrow
        obtain ⟨hb₂, hget, hcount⟩ := enter_spec hb₁ hlt oc
        have hentry : ∀ i, ((f₁.raise nfd.toNat).set nfd.toNat (some oc)).get i =
            if i = nfd.toNat then some oc else f.get i := fun i => by rw [hget, hsame.get]
        have hcount' : ∀ x, ((f₁.raise nfd.toNat).set nfd.toNat (some oc)).fd.count (some x) +
            weight x (f.get nfd.toNat) = f.fd.count (some x) + weight x (some oc) := fun x => by
          rw [← hsame.get, hcount, hsame.count]
        dsimp only
        rw [hsame.get]
        cases hnc : f.get nfd.toNat with
        | none =>
          refine ⟨some nfd.toNat, _, rfl, ?_, nofun, fun fd h => ?_⟩
          · refine put_entry (a := none) (b := some oc) hs hf hb₂ hsame.ref rfl (fun x => ?_) fun x => ?_
            · rw [← hnc]
              exact hcount' x
            · have hinc := href x
              rw [weight_none]
              change ((s.incref oc).chan x).ref + s.held x + 0 = _ + s.held x + _
              omega
          · cases h
            exact ⟨oc, _, hoc, hput _, hentry⟩
        | some nc =>
          have hpos : 0 < ((s.incref oc).chan nc).ref := by
            have hold := hs.ref_pos hf hnc
            rw [href]
            omega
          obtain ⟨t, hrun, hfgrp, hheld, htref⟩ := cclose_spec
            (s := (s.incref oc).put g (some ((f₁.raise nfd.toNat).set nfd.toNat (some oc)))) hpos
          dsimp only
          rw [hrun]
          refine ⟨some nfd.toNat, t, rfl, ?_, nofun, fun fd h => ?_⟩
          · refine put_entry (a := some nc) (b := some oc) hs hf hb₂ hsame.ref hfgrp
              (fun x => ?_) fun x => ?_
            · rw [← hnc]
              exact hcount' x
            · have hx := htref x
              have hinc := href x
              change _ = ((s.incref oc).chan x).ref at hx
              rw [hheld]
              change _ + s.held x + _ = _ + s.held x + _
              omega
          · cases h
            refine ⟨oc, _, hoc, ?_, hentry⟩
            rw [Sys.table, hfgrp]
            exact hput _
    · rw [if_neg hnfd]
      cases hr : f.newfd oc mem with
      | mk r f' =>
        rcases newfd_spec hb oc mem with ⟨hnone, hsame, -⟩ |
          ⟨fd, hfd, hb', hfref, hfree, -, hget, hcount⟩
        · rw [hr] at hnone hsame
          dsimp only at hnone hsame
          rw [hnone, hsame]
          obtain ⟨hinv, hun⟩ := put_same hs hf hb (Same.refl f)
          obtain ⟨t, hrun, hinv', hun'⟩ := incref_cclose (t := (s.incref oc).put g (some f)) hinv rfl rfl href
          dsimp only
          rw [hrun]
          refine ⟨none, t, rfl, hinv', fun _ => ⟨fun k i => ?_, fun x => ?_, ?_⟩, nofun⟩
          · rw [hun'.entry, hun.entry]
          · rw [hun'.ref, hun.ref]
          · rw [hun'.held, hun.held]
        · rw [hr] at hfd hb' hfref hget hcount
          dsimp only at hfd hb' hfref hget hcount
          rw [hfd]
          refine ⟨some fd, _, rfl, ?_, nofun, fun fd' h => ?_⟩
          · refine put_entry (a := none) (b := some oc) hs hf hb' hfref rfl (fun x => ?_) fun x => ?_
            · rw [weight_none, hcount, Nat.add_zero]
            · have hinc := href x
              rw [weight_none]
              change ((s.incref oc).chan x).ref + s.held x + 0 = _ + s.held x + _
              omega
          · cases h
            exact ⟨oc, f', hoc, hput _, hget⟩

/-- What `fdclose` leaves.  Asked for flags, it closes only a Chan that has one of them. -/
structure Fdclose (s : Sys) (g : Nat) (f : Fgrp) (fd : Nat) (flag : UInt16) (t : Sys) : Prop where
  inv : Inv t
  free : f.get fd = none → t = s
  entry : ∀ c, f.get fd = some c → if flag ≠ 0 ∧ (s.chan c).flag &&& flag = 0 then t = s else
    ∃ f', t.table g = some f' ∧ ∀ i, f'.get i = if i = fd then none else f.get i

/-- **`fdclose`.** -/
theorem fdclose_call (hs : Inv s) (hf : s.table g = some f) (hfd : fd < f.nfd) (flag : UInt16) :
    ∃ t, s.fdclose g fd flag = some t ∧ Fdclose s g f fd flag t := by
  have hb := (hs.bounded g f hf).1
  rw [Sys.fdclose, hf]
  dsimp only
  rw [if_neg (Nat.not_le_of_lt hfd)]
  cases hget : f.get fd with
  | none =>
    refine ⟨s, rfl, hs, fun _ => rfl, fun c hc => ?_⟩
    cases hget.symm.trans hc
  | some c =>
    dsimp only
    by_cases hflag : flag ≠ 0 ∧ (s.chan c).flag &&& flag = 0
    · rw [if_pos hflag]
      refine ⟨s, rfl, hs, fun _ => rfl, fun c' hc => ?_⟩
      cases hget.symm.trans hc
      rw [if_pos hflag]
    · rw [if_neg hflag]
      obtain ⟨hb', href, hclear, hcount⟩ := clear_spec hb hfd
      obtain ⟨t, hrun, hfgrp, hheld, htref⟩ := cclose_spec (s := s.put g (some (f.clear fd)))
        (hs.ref_pos hf hget)
      refine ⟨t, hrun, ?_, fun hfree => ?_, fun c' hc => ?_⟩
      · refine put_entry (a := some c) (b := none) hs hf hb' href hfgrp (fun x => ?_) fun x => ?_
        · rw [← hget, hcount, weight_none, Nat.add_zero]
        · have hx := htref x
          change _ = (s.chan x).ref at hx
          rw [weight_none, hheld]
          change _ + s.held x + _ = _ + s.held x + 0
          omega
      · cases hget.symm.trans hfree
      · cases hget.symm.trans hc
        rw [if_neg hflag]
        refine ⟨f.clear fd, ?_, hclear⟩
        rw [Sys.table, hfgrp]
        exact (put_table (lt_of_table hf) g).trans (if_pos rfl)

theorem append_table (s : Sys) (o : Option Fgrp) (k : Nat) : Sys.table { s with fgrp := s.fgrp ++ [o] } k =
    if k = s.fgrp.length then o else s.table k := Tally.getD_concat s.fgrp o k

theorem append_entries (s : Sys) (o : Option Fgrp) (c : Nat) :
    Sys.entries { s with fgrp := s.fgrp ++ [o] } c = s.entries c + entries c o := by
  rw [entries_eq, entries_eq, map_append, sum_append]
  rfl

/-- A new table, with references for its entries. -/
theorem append_inv (hs : Inv s) (hb : Bounded f) (href : 0 < f.ref) (hfgrp : t.fgrp = s.fgrp ++ [some f])
    (hheld : t.held = s.held) (hchan : ∀ x, (t.chan x).ref = (s.chan x).ref + f.fd.count (some x)) :
    Inv t := by
  refine ⟨fun k u hu => ?_, fun x => ?_⟩
  · have hk := append_table s (some f) k
    rw [Sys.table, hfgrp] at hu
    rw [Sys.table, hu] at hk
    by_cases heq : k = s.fgrp.length
    · rw [if_pos heq] at hk
      cases hk
      exact ⟨hb, href⟩
    · rw [if_neg heq] at hk
      exact hs.bounded k u hk.symm
  · have hent : t.entries x = s.entries x + f.fd.count (some x) := by
      rw [Sys.entries, hfgrp]
      exact append_entries s (some f) x
    rw [hent, hheld, hchan, hs.refs]
    omega

/-- What `dupfgrp` returns, with what it leaves. -/
structure Dupfgrp (s : Sys) (g : Option Nat) (mem : Bool) (r : Option Nat) (t : Sys) : Prop where
  inv : Inv t
  fails : r = none → Unchanged s t ∧ mem = false
  copy : ∀ k, r = some k → ∃ f', t.table k = some f' ∧ f'.ref = 1 ∧
    (∀ i, f'.get i = (g.bind fun g => (s.table g).bind fun f => f.get i)) ∧
    ∀ j, j ≠ k → t.table j = s.table j

theorem dupfgrp_call {g : Option Nat} (hs : Inv s) (hg : ∀ g', g = some g' → s.table g' ≠ none)
    (mem : Bool) : ∃ r t, s.dupfgrp g mem = some (r, t) ∧ Dupfgrp s g mem r t := by
  have hother : ∀ (u : Sys) (o : Option Fgrp), u.fgrp = s.fgrp → ∀ j, j ≠ u.fgrp.length →
      Sys.table { u with fgrp := u.fgrp ++ [o] } j = s.table j := by
    intro u o hu j hj
    rw [append_table, if_neg hj, Sys.table, hu, Sys.table]
  have hnew : ∀ (u : Sys) (o : Option Fgrp), Sys.table { u with fgrp := u.fgrp ++ [o] } u.fgrp.length = o :=
    fun u o => (append_table u o _).trans (if_pos rfl)
  unfold Sys.dupfgrp
  cases g with
  | none =>
    have hget : ∀ i, (⟨1, List.replicate DELTAFD none, 0⟩ : Fgrp).get i = none := fun i => by
      rw [Fgrp.get, getD_eq_getElem?_getD, List.getElem?_getD_replicate_default_eq]
    have hb : Bounded ⟨1, List.replicate DELTAFD none, 0⟩ :=
      ⟨by decide, fun i c hi => nomatch (hget i).symm.trans hi⟩
    refine ⟨_, _, rfl, append_inv hs hb Nat.one_pos rfl rfl fun x => ?_, nofun, fun k hk => ?_⟩
    · rw [count_replicate, Nat.add_zero]
    · cases hk
      exact ⟨_, hnew s _, rfl, hget, hother s _ rfl⟩
  | some g =>
    obtain ⟨f, hf⟩ := ne_none_iff_exists'.mp (hg g rfl)
    have hb := (hs.bounded g f hf).1
    dsimp only
    rw [hf]
    dsimp only
    by_cases hmem : mem = false
    · rw [if_pos hmem]
      exact ⟨none, s, rfl, hs, fun _ => ⟨Unchanged.refl s, hmem⟩, nofun⟩
    · obtain ⟨hb', hget, hcount⟩ := copy_spec hb
      obtain ⟨hfgrp, hheld, href⟩ := increfs_spec (f.fd.take (f.maxfd + 1)) s
      rw [if_neg hmem, if_neg (Nat.not_le_of_lt hb.lt)]
      refine ⟨_, _, rfl, ?_, nofun, fun k hk => ?_⟩
      · refine append_inv hs hb' Nat.one_pos (congrArg (· ++ [some f.copy]) hfgrp) hheld fun x => ?_
        rw [hcount, ← take_count hb]
        exact href x
      · cases hk
        refine ⟨f.copy, hnew _ _, rfl, fun i => ?_, hother _ _ hfgrp⟩
        rw [bind_some, hf, bind_some]
        exact hget i

/-- What `closefgrp` leaves. -/
structure Closefgrp (s : Sys) (g : Nat) (f : Fgrp) (t : Sys) : Prop where
  inv : Inv t
  last : f.ref = 1 → t.table g = none ∧ ∀ c, (t.chan c).ref + f.fd.count (some c) = (s.chan c).ref
  more : f.ref ≠ 1 → Unchanged s t

theorem closefgrp_call (hs : Inv s) (hf : s.table g = some f) :
    ∃ t, s.closefgrp g = some t ∧ Closefgrp s g f t := by
  have hg := lt_of_table hf
  obtain ⟨hb, href⟩ := hs.bounded g f hf
  rw [Sys.closefgrp, hf]
  dsimp only
  rw [if_neg (Nat.ne_of_gt href)]
  by_cases hmore : f.ref - 1 ≠ 0
  · rw [if_pos hmore]
    have hbound : Bounded { f with ref := f.ref - 1 } := ⟨hb.lt, hb.le⟩
    refine ⟨_, rfl, ⟨put_bounded hs.bounded hg ?_, fun x => ?_⟩, fun h => absurd h (by omega),
      fun _ => ⟨fun k i => ?_, fun _ => rfl, rfl⟩⟩
    · intro u hu
      cases hu
      exact ⟨hbound, Nat.pos_of_ne_zero hmore⟩
    · have hput := put_entries (s := s) (o := some { f with ref := f.ref - 1 }) hg x
      rw [hf] at hput
      change _ + f.fd.count (some x) = _ + f.fd.count (some x) at hput
      have hx := hs.refs x
      change (s.chan x).ref = s.held x + (s.put g _).entries x
      omega
    · rw [put_table hg]
      by_cases hk : k = g
      · rw [if_pos hk, hk, hf]
        rfl
      · rw [if_neg hk]
  · rw [if_neg hmore, if_neg (Nat.not_le_of_lt hb.lt)]
    have hput := fun x => put_entries (s := s) (o := none) hg x
    rw [hf] at hput
    change ∀ x, _ + f.fd.count (some x) = _ + 0 at hput
    obtain ⟨t, hrun, hfgrp, hheld, htref⟩ := closes_spec (f.fd.take (f.maxfd + 1)) (s.put g none) fun x => by
      rw [take_count hb]
      have hx := hs.refs x
      have hp := hput x
      change _ ≤ (s.chan x).ref
      omega
    have hrefs : ∀ x, (t.chan x).ref + f.fd.count (some x) = (s.chan x).ref := fun x => by
      rw [← take_count hb]
      exact htref x
    have htable : ∀ k, t.table k = (s.put g none).table k := fun k => by rw [Sys.table, hfgrp, Sys.table]
    refine ⟨t, hrun, ⟨fun k u hu => ?_, fun x => ?_⟩, fun _ => ⟨?_, hrefs⟩, fun h => absurd h (by omega)⟩
    · rw [htable] at hu
      exact put_bounded hs.bounded hg (fun _ h => by cases h) k u hu
    · have hx := hs.refs x
      have hp := hput x
      have hr := hrefs x
      rw [hheld, Sys.entries, hfgrp]
      change (t.chan x).ref = s.held x + (s.put g none).entries x
      omega
    · rw [htable, put_table hg, if_pos rfl]

/-- Another process shares a table. -/
theorem share_inv (hs : Inv s) (hf : s.table g = some f) :
    Inv (s.put g (some { f with ref := f.ref + 1 })) := by
  have hb := (hs.bounded g f hf).1
  have hg := lt_of_table hf
  refine ⟨put_bounded hs.bounded hg fun u hu => ?_, fun x => ?_⟩
  · cases hu
    exact ⟨⟨hb.lt, hb.le⟩, Nat.succ_pos _⟩
  · have hput := put_entries (s := s) (o := some { f with ref := f.ref + 1 }) hg x
    rw [hf] at hput
    change _ + f.fd.count (some x) = _ + f.fd.count (some x) at hput
    have hx := hs.refs x
    change (s.chan x).ref = s.held x + (s.put g _).entries x
    omega

theorem hold_inv {n : Nat} (hs : Inv s) (hfgrp : t.fgrp = s.fgrp) (hheld : t.held = s.held)
    (href : ∀ x, (t.chan x).ref = (s.hold c n).held x + s.entries x) : Inv (t.hold c n) := by
  have htable : ∀ k, (t.hold c n).table k = s.table k := fun k => by
    change t.fgrp.getD k none = s.fgrp.getD k none
    rw [hfgrp]
  refine ⟨fun k u hu => hs.bounded k u ((htable k).symm.trans hu), fun x => ?_⟩
  have hent : (t.hold c n).entries x = s.entries x := by
    rw [entries_eq, entries_eq]
    exact congrArg (fun l => (l.map (entries x)).sum) hfgrp
  rw [hent, hold_held, hheld, ← hold_held]
  exact href x

/-- **Every call** keeps the invariant, and none panics. -/
theorem act_spec {op : Op} (hs : Inv s) (hop : Allowed s op) : ∃ t, act s op = some t ∧ Inv t := by
  cases op with
  | newfd g c mem =>
    obtain ⟨f, hf⟩ := ne_none_iff_exists'.mp hop.1
    obtain ⟨r, t, hrun, h⟩ := newfd_call hs hf hop.2 mem
    exact ⟨t, congrArg (Option.map Prod.snd) hrun, h.inv⟩
  | newfd2 g c₀ c₁ mem =>
    obtain ⟨f, hf⟩ := ne_none_iff_exists'.mp hop.1
    obtain ⟨r, t, hrun, h⟩ := newfd2_call hs hf hop.2.1 hop.2.2.1 hop.2.2.2 mem
    exact ⟨t, congrArg (Option.map Prod.snd) hrun, h.inv⟩
  | dup g ofd nfd mem =>
    obtain ⟨f, hf⟩ := ne_none_iff_exists'.mp hop
    obtain ⟨r, t, hrun, h⟩ := dup_call hs hf ofd nfd mem
    exact ⟨t, congrArg (Option.map Prod.snd) hrun, h.inv⟩
  | fdclose g fd flag =>
    obtain ⟨f, hf, hfd⟩ := hop
    obtain ⟨t, hrun, h⟩ := fdclose_call hs hf hfd flag
    exact ⟨t, hrun, h.inv⟩
  | dupfgrp g mem =>
    obtain ⟨r, t, hrun, h⟩ := dupfgrp_call hs hop mem
    exact ⟨t, congrArg (Option.map Prod.snd) hrun, h.inv⟩
  | closefgrp g =>
    obtain ⟨f, hf⟩ := ne_none_iff_exists'.mp hop
    obtain ⟨t, hrun, h⟩ := closefgrp_call hs hf
    exact ⟨t, hrun, h.inv⟩
  | share g =>
    obtain ⟨f, hf⟩ := ne_none_iff_exists'.mp hop
    exact ⟨_, congrArg (Option.map _) hf, share_inv hs hf⟩
  | incref c =>
    refine ⟨_, rfl, hold_inv hs rfl rfl fun x => ?_⟩
    have hx := hs.refs x
    rw [incref_ref, weight_some, hold_held]
    by_cases hxc : x = c
    · rw [if_pos hxc, if_pos hxc, hx, hxc]
      omega
    · rw [if_neg hxc, if_neg hxc, hx, Nat.add_zero]
  | cclose c =>
    have hheld : 0 < s.held c := hop
    have hpos : 0 < (s.chan c).ref := by
      rw [hs.refs]
      omega
    obtain ⟨t, hrun, hfgrp, hheld', href⟩ := cclose_spec hpos
    refine ⟨_, congrArg (Option.map _) hrun, hold_inv hs hfgrp hheld' fun x => ?_⟩
    have hx := hs.refs x
    have hr := href x
    rw [weight_some] at hr
    rw [hold_held]
    by_cases hxc : x = c
    · rw [if_pos hxc] at hr ⊢
      subst hxc
      omega
    · rw [if_neg hxc] at hr ⊢
      omega

theorem start_inv (hs : Start s) : Inv s := by
  have hnone : ∀ g, s.table g = none := fun g => by
    rw [Sys.table, hs.fgrp]
    rfl
  refine ⟨fun g f hf => absurd ((hnone g).symm.trans hf) nofun, fun c => ?_⟩
  rw [← hs.held, Sys.entries, hs.fgrp]
  rfl

theorem reach_inv (hr : Reach s) : Inv s := by
  refine StepSystem.Reach.invariant Inv (fun _ => start_inv) ?_ hr
  rintro s op t hs ⟨hop, hrun⟩
  obtain ⟨u, hu, hinv⟩ := act_spec hs hop
  cases hu.symm.trans hrun
  exact hinv

/-- What holds of the tables, and of every call made on them. -/
structure TableOk (s : Sys) : Prop where
  /-- `maxfd` bounds the entries, within the table. -/
  bounded : ∀ g f, s.table g = some f → f.maxfd < f.nfd ∧ ∀ i c, f.get i = some c → i ≤ f.maxfd
  /-- Each entry is one reference of its Chan. -/
  refs : ∀ c, (s.chan c).ref = s.held c + s.entries c
  /-- `newfd` returns the least free descriptor; a failure changes nothing. -/
  newfd : ∀ g f c mem, s.table g = some f → 0 < s.held c →
    ∃ r t, s.newfd g c mem = some (r, t) ∧ Newfd s g f c mem r t
  newfd2 : ∀ g f c₀ c₁ mem, s.table g = some f → 0 < s.held c₀ → 0 < s.held c₁ →
    (c₀ = c₁ → 1 < s.held c₀) → ∃ r t, s.newfd2 g c₀ c₁ mem = some (r, t) ∧ Newfd2 s g f c₀ c₁ mem r t
  dup : ∀ g f ofd nfd mem, s.table g = some f →
    ∃ r t, s.dup g ofd nfd mem = some (r, t) ∧ Dup s g f ofd r t
  fdclose : ∀ g f fd flag, s.table g = some f → fd < f.nfd →
    ∃ t, s.fdclose g fd flag = some t ∧ Fdclose s g f fd flag t
  /-- A copy has the same entries. -/
  dupfgrp : ∀ g mem, (∀ g', g = some g' → s.table g' ≠ none) →
    ∃ r t, s.dupfgrp g mem = some (r, t) ∧ Dupfgrp s g mem r t
  /-- The last reference closes every entry once. -/
  closefgrp : ∀ g f, s.table g = some f → ∃ t, s.closefgrp g = some t ∧ Closefgrp s g f t
  /-- No call panics or leaves its table. -/
  total : ∀ op, Allowed s op → act s op ≠ none

/-- **Descriptor tables** keep their bounds and their references in every run. -/
theorem fgrp_ok (hr : Reach s) : TableOk s := by
  have hs := reach_inv hr
  refine ⟨fun g f hf => ?_, hs.refs, fun g f c mem hf hc => newfd_call hs hf hc mem,
    fun g f c₀ c₁ mem hf h₀ h₁ htwo => newfd2_call hs hf h₀ h₁ htwo mem,
    fun g f ofd nfd mem hf => dup_call hs hf ofd nfd mem,
    fun g f fd flag hf hfd => fdclose_call hs hf hfd flag, fun g mem hg => dupfgrp_call hs hg mem,
    fun g f hf => closefgrp_call hs hf, fun op hop => ?_⟩
  · have hb := (hs.bounded g f hf).1
    exact ⟨hb.lt, hb.le⟩
  · obtain ⟨t, hrun, -⟩ := act_spec hs hop
    rw [hrun]
    exact some_ne_none t

/-- No table, and no Chan in use. -/
def boot : Sys := ⟨fun _ => ⟨0, 0⟩, [], fun _ => 0⟩

/-- A Chan is opened in a new table and duplicated at descriptor 25, which makes the table grow. -/
theorem fgrp_ok_grown : ∃ t f, StepSystem.exec act boot
    [.dupfgrp none true, .incref 0, .newfd 0 0 true, .dup 0 0 25 true] = some t ∧ TableOk t ∧
    t.table 0 = some f ∧ f.nfd = 40 ∧ f.maxfd = 25 ∧ f.get 25 = some 0 ∧ (t.chan 0).ref = 2 := by
  have hboot : Reach boot := StepSystem.Reach.start ⟨rfl, fun _ => rfl⟩
  have hreach : ∀ {s t : Sys} (op : Op), Reach s → Allowed s op → act s op = some t → Reach t :=
    fun op hr hop hrun => hr.next ⟨hop, hrun⟩
  have h₁ := hreach (.dupfgrp none true) hboot nofun rfl
  have h₂ := hreach (.incref 0) h₁ trivial rfl
  have h₃ := hreach (.newfd 0 0 true) h₂ ⟨by decide, by decide⟩ rfl
  have h₄ := hreach (.dup 0 0 25 true) h₃ (by change _ ≠ none; decide) rfl
  exact ⟨_, _, rfl, fgrp_ok h₄, rfl, by decide, by decide, by decide, by decide⟩

end Fdtab
