import NixKernel.Parsename

/-!
# `parsename` finds the components

The pointer of the loop stands at the start of the name or behind a slash.  What `skipslash` goes over holds no
component, and where it stops one begins, unless that is the end.  The copy is cut behind the pointer only.
-/

namespace Parsename

open CString List

variable {s : Str} {e : Elemlist} {mem : List UInt8} {l : List (Nat × Nat)} {i j p q : Nat}

/-- A component can begin here. -/
def Start (s : Str) (q : Nat) : Prop := q = 0 ∨ s.get (q - 1) = slash

/-- `skipslash` goes over this byte. -/
def Skipped (s : Str) (q : Nat) : Prop :=
  s.get q = slash ∨ (s.get q = dot ∧ (s.get (q + 1) = 0 ∨ s.get (q + 1) = slash))

theorem Skipped.lt (h : Skipped s q) : q < s.length := by
  refine s.lt_of_get_ne fun hzero => ?_
  rcases h with h | ⟨h, -⟩
  · rw [hzero] at h
    exact absurd h (by decide)
  · rw [hzero] at h
    exact absurd h (by decide)

theorem Component.unique {j' : Nat} (h : Component s i j) (h' : Component s i j') : j = j' := by
  rcases Nat.lt_trichotomy j j' with hlt | heq | hgt
  · rcases h.finish with hend | hslash
    · have hle := h'.le
      omega
    · exact absurd hslash (h'.inside j (Nat.le_of_lt h.lt) hlt)
  · exact heq
  · rcases h'.finish with hend | hslash
    · have hle := h.le
      omega
    · exact absurd hslash (h.inside j' (Nat.le_of_lt h'.lt) hgt)

/-- No component begins inside another. -/
theorem Component.behind {a b : Nat} (h : Component s i j) (h' : Component s a b) (hlt : i < a) : j < a := by
  rcases h'.start with hzero | hslash
  · omega
  · refine Nat.lt_of_not_le fun hle => h.inside (a - 1) (by omega) (by omega) hslash

/-- No component begins at a byte that is skipped. -/
theorem Component.not_skipped (h : Component s i j) : ¬Skipped s i := by
  have hlt := h.lt
  rintro (hslash | ⟨hdot, hnext⟩)
  · exact h.inside i (Nat.le_refl i) hlt hslash
  · refine h.notDot ⟨?_, hdot⟩
    refine Nat.le_antisymm (Nat.le_of_not_lt fun hfar => ?_) hlt
    rcases hnext with hzero | hslash
    · have hle := h.le
      exact s.get_ne (by omega) hzero
    · exact h.inside (i + 1) (Nat.le_succ i) hfar hslash

theorem skips_spec (mem : List UInt8) :
    (∀ n, n < skips mem → mem.getD n 0 = slash ∨
        (mem.getD n 0 = dot ∧ (mem.getD (n + 1) 0 = 0 ∨ mem.getD (n + 1) 0 = slash))) ∧
      ¬(mem.getD (skips mem) 0 = slash ∨ (mem.getD (skips mem) 0 = dot ∧
        (mem.getD (skips mem + 1) 0 = 0 ∨ mem.getD (skips mem + 1) 0 = slash))) := by
  induction mem with
  | nil => exact ⟨fun n hn => absurd hn (Nat.not_lt_zero n), by decide⟩
  | cons c mem ih =>
    rw [skips]
    split
    · next hskip =>
      refine ⟨fun n hn => ?_, ih.2⟩
      cases n with
      | zero => exact hskip
      | succ n => exact ih.1 n (Nat.lt_of_succ_lt_succ hn)
    · next hstop => exact ⟨fun n hn => absurd hn (Nat.not_lt_zero n), hstop⟩

/-- **What `skipslash` does** where memory is as the string has it. -/
theorem skipslash_spec (hp : p ≤ s.length) (hmem : ∀ q, p ≤ q → mem.getD q 0 = s.get q) :
    p ≤ skipslash mem p ∧ skipslash mem p ≤ s.length ∧ (∀ q, p ≤ q → q < skipslash mem p → Skipped s q) ∧
      ¬Skipped s (skipslash mem p) := by
  obtain ⟨hall, hstop⟩ := skips_spec (mem.drop p)
  have hskipped : ∀ q, p ≤ q → q < skipslash mem p → Skipped s q := by
    intro q hq hlt
    rw [skipslash] at hlt
    have h := hall (q - p) (by omega)
    rw [getD_drop, getD_drop, hmem _ (by omega), hmem _ (by omega)] at h
    rw [Skipped]
    rwa [Nat.add_sub_cancel' hq, show p + (q - p + 1) = q + 1 by omega] at h
  refine ⟨Nat.le_add_right _ _, ?_, hskipped, ?_⟩
  · exact Nat.le_of_not_lt fun hfar => Nat.lt_irrefl _ (hskipped s.length hp hfar).lt
  · rw [getD_drop, getD_drop, hmem _ (by omega), hmem _ (by omega)] at hstop
    rwa [Skipped, skipslash]

/-- Behind what is skipped a component can begin, or the name ends, or more could be skipped. -/
theorem start_of_skipped (hp : Start s p) (hall : ∀ r, p ≤ r → r < q → Skipped s r) (hq : p ≤ q) :
    Start s q ∨ s.get q = slash ∨ s.get q = 0 := by
  induction q, hq using Nat.le_induction with
  | base => exact Or.inl hp
  | succ q hq _ =>
    rcases hall q hq (Nat.lt_succ_self q) with hslash | ⟨-, hzero | hslash⟩
    · exact Or.inl (Or.inr hslash)
    · exact Or.inr (Or.inr hzero)
    · exact Or.inr (Or.inl hslash)

/-- Where skipping stops before the end, the component begins that goes up to the next slash or to the end. -/
theorem component_here (hp : Start s p ∨ s.get p = slash ∨ s.get p = 0) (hstop : ¬Skipped s p) (hlt : p < s.length)
    (hpj : p ≤ j) (hj : j ≤ s.length) (hinside : ∀ q, p ≤ q → q < j → s.get q ≠ slash)
    (hfinish : j = s.length ∨ s.get j = slash) : Component s p j := by
  have hstart : Start s p := by
    rcases hp with hp | hp | hp
    · exact hp
    · exact absurd (Or.inl hp) hstop
    · exact absurd hp (s.get_ne hlt)
  refine ⟨hstart, Nat.lt_of_le_of_ne hpj fun heq => ?_, hj, hinside, hfinish, fun ⟨hnext, hdot⟩ => ?_⟩
  · rcases hfinish with hend | hslash
    · omega
    · exact hstop (Or.inl (heq ▸ hslash))
  · refine hstop (Or.inr ⟨hdot, ?_⟩)
    rw [← hnext]
    rcases hfinish with hend | hslash
    · exact Or.inl (s.get_of_le (Nat.le_of_eq hend.symm))
    · exact Or.inr hslash

theorem suffix_slash (s : Str) : [slash] <:+ s.bytes ↔ 0 < s.length ∧ s.get (s.length - 1) = slash := by
  constructor
  · rintro ⟨t, ht⟩
    rw [Str.length, Str.get, ← ht, length_append, length_singleton, Nat.add_sub_cancel,
      getD_append_right _ _ _ _ (Nat.le_refl _), Nat.sub_self]
    exact ⟨Nat.succ_pos _, rfl⟩
  · rintro ⟨hpos, hslash⟩
    have hlt : s.length - 1 < s.bytes.length := Nat.sub_lt hpos Nat.one_pos
    rw [Str.get, getD_eq_getElem _ _ hlt] at hslash
    refine ⟨s.bytes.take (s.length - 1), ?_⟩
    rw [← hslash, take_append_getElem, Nat.sub_add_cancel hpos]
    exact take_length

theorem suffix_dot (s : Str) :
    [slash, dot] <:+ s.bytes ↔ 2 ≤ s.length ∧ s.get (s.length - 2) = slash ∧ s.get (s.length - 1) = dot := by
  constructor
  · rintro ⟨t, ht⟩
    have hlen : s.length = t.length + 2 := by
      rw [Str.length, ← ht, length_append]
      rfl
    rw [hlen, Str.get, Str.get, ← ht, getD_append_right _ _ _ _ (by omega),
      getD_append_right _ _ _ _ (by omega), show t.length + 2 - 2 - t.length = 0 by omega,
      show t.length + 2 - 1 - t.length = 1 by omega]
    exact ⟨by omega, rfl, rfl⟩
  · rintro ⟨htwo, hslash, hdot⟩
    have hlt : s.length - 2 < s.bytes.length := Nat.sub_lt (by omega) Nat.two_pos
    have hlt' : s.length - 2 + 1 < s.bytes.length := by
      change s.length - 2 + 1 < s.length
      omega
    rw [Str.get, getD_eq_getElem _ _ hlt] at hslash
    rw [Str.get, show s.length - 1 = s.length - 2 + 1 by omega, getD_eq_getElem _ _ hlt'] at hdot
    refine ⟨s.bytes.take (s.length - 2), ?_⟩
    have hend : s.bytes.take (s.length - 2) ++ [slash] ++ [dot] = s.bytes := by
      rw [← hslash, take_append_getElem, ← hdot, take_append_getElem,
        show s.length - 2 + 1 + 1 = s.length by omega]
      exact take_length
    rwa [append_assoc] at hend

theorem eq_dot (s : Str) : s.bytes = [dot] ↔ s.length = 1 ∧ s.get 0 = dot := by
  constructor
  · intro h
    rw [Str.length, Str.get, h]
    exact ⟨rfl, rfl⟩
  · rintro ⟨hlen, hdot⟩
    obtain ⟨b, hb⟩ := length_eq_one_iff.mp hlen
    rw [Str.get, hb] at hdot
    rw [hb]
    exact congrArg (fun b => [b]) hdot

/-- The name is empty or ends in a slash, or in a dot that is an element. -/
theorem ends_iff (s : Str) :
    (s.bytes = [] ∨ s.bytes = [dot] ∨ [slash] <:+ s.bytes ∨ [slash, dot] <:+ s.bytes) ↔
      Start s s.length ∨ (0 < s.length ∧ s.get (s.length - 1) = dot ∧ Start s (s.length - 1)) := by
  rw [← length_eq_zero_iff, eq_dot, suffix_slash, suffix_dot, Start, Start, Nat.sub_sub]
  change s.length = 0 ∨ _ ↔ _
  constructor
  · rintro (hzero | ⟨hone, hdot⟩ | ⟨hpos, hslash⟩ | ⟨htwo, hslash, hdot⟩)
    · exact Or.inl (Or.inl hzero)
    · refine Or.inr ⟨by omega, ?_, Or.inl (by omega)⟩
      rwa [hone]
    · exact Or.inl (Or.inr hslash)
    · exact Or.inr ⟨by omega, hdot, Or.inr hslash⟩
  · rintro ((hzero | hslash) | ⟨hpos, hdot, hone | hslash⟩)
    · exact Or.inl hzero
    · rcases Nat.eq_zero_or_pos s.length with hzero | hpos
      · exact Or.inl hzero
      · exact Or.inr (Or.inr (Or.inl ⟨hpos, hslash⟩))
    · have hlen : s.length = 1 := by omega
      rw [hlen] at hdot
      exact Or.inr (Or.inl ⟨hlen, hdot⟩)
    · rcases Nat.lt_or_ge s.length 2 with hone | htwo
      · have hlen : s.length = 1 := by omega
        rw [hlen] at hdot
        exact Or.inr (Or.inl ⟨hlen, hdot⟩)
      · exact Or.inr (Or.inr (Or.inr ⟨htwo, hslash, hdot⟩))

/-- Where everything up to the end is skipped, the name ends so. -/
theorem ends_of_skipped (hp : Start s p) (hle : p ≤ s.length) (hall : ∀ r, p ≤ r → r < s.length → Skipped s r) :
    Start s s.length ∨ (0 < s.length ∧ s.get (s.length - 1) = dot ∧ Start s (s.length - 1)) := by
  rcases Nat.eq_or_lt_of_le hle with rfl | hlt
  · exact Or.inl hp
  · have hstart := start_of_skipped (q := s.length - 1) hp (fun r hr hlast => hall r hr (by omega)) (by omega)
    rcases hall (s.length - 1) (by omega) (by omega) with hslash | ⟨hdot, -⟩
    · exact Or.inl (Or.inr hslash)
    · refine Or.inr ⟨by omega, hdot, ?_⟩
      rcases hstart with hstart | hslash | hzero
      · exact hstart
      · rw [hdot] at hslash
        exact absurd hslash (by decide)
      · exact absurd hzero (s.get_ne (by omega))

/-- A name that ends in a component does not end so. -/
theorem Component.not_ends (h : Component s i s.length) :
    ¬(Start s s.length ∨ (0 < s.length ∧ s.get (s.length - 1) = dot ∧ Start s (s.length - 1))) := by
  have hlt := h.lt
  rintro ((hzero | hslash) | ⟨hpos, hdot, hstart⟩)
  · omega
  · exact h.inside _ (by omega) (by omega) hslash
  · have hlast : s.length = i + 1 := by
      rcases hstart with hzero | hslash
      · omega
      · refine Nat.le_antisymm (Nat.le_of_not_lt fun hfar => ?_) hlt
        exact h.inside _ (by omega) (by omega) hslash
    rw [hlast, Nat.add_sub_cancel] at hdot
    exact h.notDot ⟨hlast, hdot⟩

end Parsename
