import Mathlib

/-!
# Lists of disjoint extents

An extent `e` covers the addresses from `lo e` to `hi e` and gives each of them the value
`val e`.  A list of extents is laid out when its extents are not empty and lie apart from
each other, in order; then every address has at most one value, `view l p`.
-/

namespace Extents

open List

variable {ε α : Type*} (lo hi : ε → Nat) (val : ε → α)

/-- Not empty, apart, and in order. -/
structure Layout (l : List ε) : Prop where
  apart : l.Pairwise fun a b => hi a ≤ lo b
  full : ∀ e ∈ l, lo e < hi e

/-- Address `p` lies in `e`. -/
def In (p : Nat) (e : ε) : Prop := lo e ≤ p ∧ p < hi e

instance (p : Nat) (e : ε) : Decidable (In lo hi p e) :=
  inferInstanceAs (Decidable (lo e ≤ p ∧ p < hi e))

/-- The value of address `p`, if an extent covers it. -/
def view (l : List ε) (p : Nat) : Option α :=
  (l.find? fun e => In lo hi p e).map val

variable {lo hi val} {l r : List ε} {a b c e : ε} {p : Nat} {v : α}

theorem view_cons_in (h : In lo hi p a) : view lo hi val (a :: l) p = some (val a) := by
  rw [view, List.find?_cons_of_pos (by simpa using h), Option.map_some]

theorem view_cons_out (h : ¬ In lo hi p a) : view lo hi val (a :: l) p = view lo hi val l p := by
  rw [view, List.find?_cons_of_neg (by simpa using h), view]

theorem view_append :
    view lo hi val (l ++ r) p = (view lo hi val l p).or (view lo hi val r p) := by
  induction l with
  | nil => simp [view]
  | cons a l ih =>
    by_cases h : In lo hi p a
    · rw [cons_append, view_cons_in h, view_cons_in h, Option.some_or]
    · rw [cons_append, view_cons_out h, view_cons_out h, ih]

theorem view_eq_some (h : view lo hi val l p = some v) : ∃ e ∈ l, In lo hi p e ∧ val e = v := by
  obtain ⟨e, hfind, hv⟩ := Option.map_eq_some_iff.mp h
  have hin := List.find?_some hfind
  exact ⟨e, mem_of_find?_eq_some hfind, by simpa using hin, hv⟩

theorem view_eq_none (h : ∀ e ∈ l, ¬ In lo hi p e) : view lo hi val l p = none := by
  induction l with
  | nil => rfl
  | cons a l ih =>
    rw [view_cons_out (h a mem_cons_self)]
    exact ih fun e he => h e (mem_cons_of_mem a he)

theorem layout_cons : Layout lo hi (a :: l) ↔
    lo a < hi a ∧ (∀ e ∈ l, hi a ≤ lo e) ∧ Layout lo hi l := by
  constructor
  · intro h
    obtain ⟨hhead, htail⟩ := pairwise_cons.mp h.apart
    exact ⟨h.full a mem_cons_self, hhead, htail, fun e he => h.full e (mem_cons_of_mem a he)⟩
  · rintro ⟨hfull, hhead, htail⟩
    exact ⟨pairwise_cons.mpr ⟨hhead, htail.apart⟩,
      forall_mem_cons.mpr ⟨hfull, htail.full⟩⟩

theorem layout_append : Layout lo hi (l ++ r) ↔
    Layout lo hi l ∧ Layout lo hi r ∧ ∀ a ∈ l, ∀ b ∈ r, hi a ≤ lo b := by
  constructor
  · intro h
    obtain ⟨hl, hr, hlr⟩ := pairwise_append.mp h.apart
    exact ⟨⟨hl, fun e he => h.full e (mem_append_left r he)⟩,
      ⟨hr, fun e he => h.full e (mem_append_right l he)⟩, hlr⟩
  · rintro ⟨hl, hr, hlr⟩
    exact ⟨pairwise_append.mpr ⟨hl.apart, hr.apart, hlr⟩, fun e he =>
      (mem_append.mp he).elim (hl.full e) (hr.full e)⟩

/-- An extent of a layout lies behind what is before it and before what is behind it. -/
theorem layout_mid : Layout lo hi (l ++ a :: r) ↔ Layout lo hi l ∧ Layout lo hi r ∧
    lo a < hi a ∧ (∀ e ∈ l, hi e ≤ lo a) ∧ (∀ e ∈ r, hi a ≤ lo e) ∧
    ∀ e ∈ l, ∀ f ∈ r, hi e ≤ lo f := by
  rw [layout_append, layout_cons]
  constructor
  · rintro ⟨hl, ⟨hfull, har, hr⟩, hlr⟩
    exact ⟨hl, hr, hfull, fun e he => hlr e he a mem_cons_self, har,
      fun e he f hf => hlr e he f (mem_cons_of_mem a hf)⟩
  · rintro ⟨hl, hr, hfull, hla, har, hlr⟩
    refine ⟨hl, ⟨hfull, har, hr⟩, fun e he f hf => ?_⟩
    rcases mem_cons.mp hf with rfl | hf
    · exact hla e he
    · exact hlr e he f hf

/-- An address has one extent. -/
theorem Layout.view_mid (h : Layout lo hi (l ++ a :: r)) (hp : In lo hi p a) :
    view lo hi val (l ++ a :: r) p = some (val a) := by
  obtain ⟨-, -, -, hla, -, -⟩ := layout_mid.mp h
  rw [view_append, view_cons_in hp, view_eq_none, Option.none_or]
  intro e he hin
  have := hla e he
  unfold In at hp hin
  omega

theorem Layout.view_mem (h : Layout lo hi l) (he : e ∈ l) (hp : In lo hi p e) :
    view lo hi val l p = some (val e) := by
  obtain ⟨s, t, rfl⟩ := append_of_mem he
  exact h.view_mid hp

theorem Layout.eq_of_in (h : Layout lo hi l) (ha : a ∈ l) (hb : b ∈ l) (hpa : In lo hi p a)
    (hpb : In lo hi p b) : a = b := by
  have hva := @Layout.view_mem _ _ _ _ id _ _ _ h ha hpa
  have hvb := @Layout.view_mem _ _ _ _ id _ _ _ h hb hpb
  rw [hva] at hvb
  exact Option.some_inj.mp hvb

/-- Cutting an extent in two. -/
theorem Layout.split (h : Layout lo hi (l ++ a :: r)) (hb : lo b = lo a) (hbc : hi b = lo c)
    (hc : hi c = hi a) (hbfull : lo b < hi b) (hcfull : lo c < hi c) :
    Layout lo hi (l ++ b :: c :: r) := by
  obtain ⟨hl, hr, -, hla, har, hlr⟩ := layout_mid.mp h
  have hcr : Layout lo hi (c :: r) := layout_cons.mpr ⟨hcfull, fun e he => hc ▸ har e he, hr⟩
  refine layout_mid.mpr ⟨hl, hcr, hbfull, fun e he => hb ▸ hla e he, ?_, ?_⟩
  · intro e he
    rcases mem_cons.mp he with rfl | he
    · omega
    · have := har e he
      omega
  · intro e he f hf
    have := hla e he
    rcases mem_cons.mp hf with rfl | hf
    · omega
    · exact hlr e he f hf

theorem view_split (hb : lo b = lo a) (hbc : hi b = lo c) (hc : hi c = hi a)
    (hbfull : lo b < hi b) (hcfull : lo c < hi c) (hvb : val b = val a) (hvc : val c = val a) :
    view lo hi val (l ++ b :: c :: r) p = view lo hi val (l ++ a :: r) p := by
  rw [view_append, view_append]
  congr 1
  by_cases hpb : In lo hi p b
  · have hpa : In lo hi p a := by
      unfold In at *
      omega
    rw [view_cons_in hpb, view_cons_in hpa, hvb]
  · by_cases hpc : In lo hi p c
    · have hpa : In lo hi p a := by
        unfold In at *
        omega
      rw [view_cons_out hpb, view_cons_in hpc, view_cons_in hpa, hvc]
    · have hpa : ¬ In lo hi p a := by
        unfold In at *
        omega
      rw [view_cons_out hpb, view_cons_out hpc, view_cons_out hpa]

/-- Joining two neighbours. -/
theorem Layout.join (h : Layout lo hi (l ++ b :: c :: r)) (hb : lo a = lo b) (hc : hi a = hi c) :
    Layout lo hi (l ++ a :: r) := by
  obtain ⟨hl, hcr, hbfull, hlb, hbcr, hlcr⟩ := layout_mid.mp h
  obtain ⟨hcfull, hcr', hr⟩ := layout_cons.mp hcr
  have hbc := hbcr c mem_cons_self
  refine layout_mid.mpr ⟨hl, hr, by omega, fun e he => hb ▸ hlb e he, fun e he => hc ▸ hcr' e he,
    fun e he f hf => hlcr e he f (mem_cons_of_mem c hf)⟩

/-- An extent in place of another one that it lies in. -/
theorem Layout.replace (h : Layout lo hi (l ++ a :: r)) (hlo : lo a ≤ lo b) (hhi : hi b ≤ hi a)
    (hfull : lo b < hi b) : Layout lo hi (l ++ b :: r) := by
  obtain ⟨hl, hr, -, hla, har, hlr⟩ := layout_mid.mp h
  refine layout_mid.mpr ⟨hl, hr, hfull, fun e he => ?_, fun e he => ?_, hlr⟩
  · have := hla e he
    omega
  · have := har e he
    omega

/-- The view is that of the other extents wherever one extent is not. -/
theorem view_out (hp : ¬ In lo hi p a) :
    view lo hi val (l ++ a :: r) p = view lo hi val (l ++ r) p := by
  rw [view_append, view_append, view_cons_out hp]

theorem view_replace (hlo : lo b = lo a) (hhi : hi b = hi a) (hp : ¬ In lo hi p a) :
    view lo hi val (l ++ b :: r) p = view lo hi val (l ++ a :: r) p := by
  have hpb : ¬ In lo hi p b := by
    unfold In at *
    omega
  rw [view_out hp, view_out hpb]

/-- A new extent between those before it and those behind it. -/
theorem Layout.insert (h : Layout lo hi (l ++ r)) (hfull : lo a < hi a)
    (hl : ∀ e ∈ l, hi e ≤ lo a) (hr : ∀ e ∈ r, hi a ≤ lo e) : Layout lo hi (l ++ a :: r) := by
  obtain ⟨hll, hrr, hlr⟩ := layout_append.mp h
  exact layout_mid.mpr ⟨hll, hrr, hfull, hl, hr, hlr⟩

end Extents
