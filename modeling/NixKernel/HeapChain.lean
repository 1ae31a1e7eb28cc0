import Mathlib

/-!
# Chains of cells threaded through a heap

A heap is a partial map from addresses to cells; a cell holds a value and a
pointer to the next cell.  `Seg h p l e` says that following the links from
`p` visits exactly the addresses and values of `l`, in that order, and stops
with the pointer `e`; a `Chain` is a segment that stops at nil.
-/

namespace HeapChain

open List

open Function (update update_of_ne)

variable {α γ : Type*}

/-- A heap cell: a value and the link to the next cell. -/
structure Cell (α γ : Type*) where
  next : Option α
  val : γ
  deriving DecidableEq, Repr

/-- The addresses and values of `l` are linked from `p` up to the pointer
`e`. -/
def Seg (h : α → Option (Cell α γ)) :
    Option α → List (α × γ) → Option α → Prop
  | p, [], e => p = e
  | p, (a, v) :: l, e => p = some a ∧ ∃ n, h a = some ⟨n, v⟩ ∧ Seg h n l e

/-- A segment that ends at nil. -/
def Chain (h : α → Option (Cell α γ)) (p : Option α) (l : List (α × γ)) : Prop :=
  Seg h p l none

/-- The addresses of a list of cells. -/
def addrs (l : List (α × γ)) : List α := l.map Prod.fst

@[simp] theorem addrs_nil : addrs ([] : List (α × γ)) = [] := rfl

@[simp] theorem addrs_cons (c : α × γ) (l : List (α × γ)) :
    addrs (c :: l) = c.1 :: addrs l := rfl

@[simp] theorem addrs_append (l r : List (α × γ)) :
    addrs (l ++ r) = addrs l ++ addrs r := map_append

variable {h h' : α → Option (Cell α γ)} {p e : Option α} {l r : List (α × γ)}
  {a : α} {v w : γ}

@[simp] theorem seg_nil : Seg h p [] e ↔ p = e := Iff.rfl

@[simp] theorem seg_cons :
    Seg h p ((a, v) :: l) e ↔
      p = some a ∧ ∃ n, h a = some ⟨n, v⟩ ∧ Seg h n l e := Iff.rfl

@[simp] theorem chain_nil : Chain h p [] ↔ p = none := Iff.rfl

@[simp] theorem chain_cons :
    Chain h p ((a, v) :: l) ↔
      p = some a ∧ ∃ n, h a = some ⟨n, v⟩ ∧ Chain h n l := Iff.rfl

/-- A chain from nil is empty. -/
theorem Chain.eq_nil (hc : Chain h none l) : l = [] := by
  cases l with
  | nil => rfl
  | cons c l => exact absurd hc.1 (by simp)

/-- A chain from a pointer starts with that pointer's cell. -/
theorem Chain.exists_cons (hc : Chain h (some a) l) :
    ∃ v n t, l = (a, v) :: t ∧ h a = some ⟨n, v⟩ ∧ Chain h n t := by
  cases l with
  | nil => exact absurd (chain_nil.mp hc) (by simp)
  | cons c l =>
    obtain ⟨a', v⟩ := c
    obtain ⟨hp, n, ha, htail⟩ := chain_cons.mp hc
    cases hp
    exact ⟨v, n, l, rfl, ha, htail⟩

/-- A segment over an appended list passes through an intermediate pointer. -/
theorem seg_append :
    Seg h p (l ++ r) e ↔ ∃ m, Seg h p l m ∧ Seg h m r e := by
  induction l generalizing p with
  | nil => simp
  | cons c l ih =>
    obtain ⟨a, v⟩ := c
    simp only [cons_append, seg_cons, ih]
    constructor
    · rintro ⟨hp, n, ha, m, hl, hr⟩
      exact ⟨m, ⟨hp, n, ha, hl⟩, hr⟩
    · rintro ⟨m, ⟨hp, n, ha, hl⟩, hr⟩
      exact ⟨hp, n, ha, m, hl, hr⟩

/-- Segments only read the addresses they visit. -/
theorem Seg.frame (hs : Seg h p l e)
    (heq : ∀ a ∈ addrs l, h' a = h a) : Seg h' p l e := by
  induction l generalizing p with
  | nil => exact hs
  | cons c l ih =>
    obtain ⟨a, v⟩ := c
    obtain ⟨hp, n, ha, htail⟩ := hs
    refine ⟨hp, n, ?_, ih htail (fun x hx => heq x (mem_cons_of_mem _ hx))⟩
    rw [heq a mem_cons_self, ha]

/-- Every visited address is allocated, with the recorded value. -/
theorem Seg.lookup (hs : Seg h p l e) (hmem : (a, v) ∈ l) :
    ∃ n, h a = some ⟨n, v⟩ := by
  induction l generalizing p with
  | nil => cases hmem
  | cons c l ih =>
    obtain ⟨a', v'⟩ := c
    obtain ⟨_, n, ha, htail⟩ := hs
    rcases mem_cons.mp hmem with heq | htl
    · cases heq
      exact ⟨n, ha⟩
    · exact ih htail htl

/-- A free address lies on no segment. -/
theorem Seg.not_mem_of_free (hs : Seg h p l e) (hfree : h a = none) :
    a ∉ addrs l := by
  intro hmem
  obtain ⟨⟨a', v⟩, hc, rfl⟩ := mem_map.mp hmem
  obtain ⟨n, hn⟩ := hs.lookup hc
  rw [hfree] at hn
  cases hn

/-- **Chains are functional.**  The first pointer determines the cells. -/
theorem Chain.unique (hl : Chain h p l) (hr : Chain h p r) : l = r := by
  induction l generalizing p r with
  | nil =>
    rw [chain_nil.mp hl] at hr
    exact hr.eq_nil.symm
  | cons c l ih =>
    obtain ⟨a, v⟩ := c
    obtain ⟨rfl, n, ha, htail⟩ := chain_cons.mp hl
    obtain ⟨v', n', t, rfl, ha', htail'⟩ := hr.exists_cons
    have hcell := Option.some.inj (ha.symm.trans ha')
    cases hcell
    rw [ih htail htail']

/-- The part of a chain from one of its cells on is a chain. -/
theorem Chain.suffix (hc : Chain h p (l ++ (a, v) :: r)) :
    Chain h (some a) ((a, v) :: r) := by
  obtain ⟨m, _, hr⟩ := seg_append.mp hc
  obtain ⟨rfl, hrest⟩ := seg_cons.mp hr
  exact ⟨rfl, hrest⟩

/-- **A chain never visits an address twice**: the two visits would start the
same remaining chain, which cannot have two lengths. -/
theorem Chain.nodup (hc : Chain h p l) : (addrs l).Nodup := by
  induction l generalizing p with
  | nil => simp
  | cons c l ih =>
    obtain ⟨a, v⟩ := c
    obtain ⟨rfl, n, ha, htail⟩ := chain_cons.mp hc
    rw [addrs_cons, nodup_cons]
    refine ⟨?_, ih htail⟩
    intro hmem
    obtain ⟨⟨a', v'⟩, hc', ha'⟩ := mem_map.mp hmem
    simp only at ha'
    subst ha'
    obtain ⟨s, t, rfl⟩ := append_of_mem hc'
    have heq := Chain.unique hc htail.suffix
    have hlen := congrArg List.length heq
    simp at hlen
    omega

theorem Chain.frame (hc : Chain h p l)
    (heq : ∀ a ∈ addrs l, h' a = h a) : Chain h' p l :=
  Seg.frame hc heq

/-- The first address of a chain does not occur in its tail. -/
theorem Chain.head_not_mem (hc : Chain h p ((a, v) :: l)) : a ∉ addrs l :=
  (nodup_cons.mp hc.nodup).1

section Update

variable [DecidableEq α]

/-- Writing outside a segment leaves it alone. -/
theorem Seg.update_ne (hs : Seg h p l e) {c : Option (Cell α γ)}
    (ha : a ∉ addrs l) : Seg (update h a c) p l e := by
  apply hs.frame
  intro x hx
  have hne : x ≠ a := by
    rintro rfl
    exact ha hx
  exact update_of_ne hne _ _

theorem Chain.update_ne (hc : Chain h p l) {c : Option (Cell α γ)}
    (ha : a ∉ addrs l) : Chain (update h a c) p l :=
  Seg.update_ne hc ha

/-- Writing the cell in front of a chain makes it the head of the chain. -/
theorem Chain.cons_update {n : Option α} (hc : Chain h n l) (ha : a ∉ addrs l) :
    Chain (update h a (some ⟨n, v⟩)) (some a) ((a, v) :: l) :=
  chain_cons.mpr ⟨rfl, n, by simp, hc.update_ne ha⟩

/-- **Linking behind the last cell.**  Redirecting the link of the last cell
of a chain to a second, disjoint chain concatenates the two. -/
theorem Chain.link_last {q : Option α}
    (hc : Chain h p (l ++ [(a, v)])) (hr : Chain h q r)
    (hdisj : a ∉ addrs r) :
    Chain (update h a (some ⟨q, v⟩)) p (l ++ (a, v) :: r) := by
  have hnodup := hc.nodup
  obtain ⟨m, hl, hlast⟩ := seg_append.mp hc
  obtain ⟨rfl, _, _⟩ := seg_cons.mp hlast
  have hal : a ∉ addrs l := by
    intro hmem
    rw [addrs_append] at hnodup
    exact disjoint_of_nodup_append hnodup hmem (by simp)
  exact seg_append.mpr ⟨some a, hl.update_ne hal, hr.cons_update hdisj⟩

end Update

end HeapChain
