import NixKernel.Iproute

/-!
# Valid trees of ranges

In a valid tree every range lies to the left or right of a node, or below it, as its place says.  Of
two ranges that are prefixes one contains the other or they are apart.
-/

namespace Iproute

open List

/-- A range lies before another. -/
def Before (x y : Route) : Prop := x.endaddress < y.address

def Same (x y : Route) : Prop := x.address = y.address ∧ x.endaddress = y.endaddress

/-- A range is contained in another, larger one. -/
def Under (x y : Route) : Prop := y.address ≤ x.address ∧ x.endaddress ≤ y.endaddress ∧ ¬ Same x y

/-- A range neither contains the other nor is it the same. -/
def Outside (x y : Route) : Prop := Before x y ∨ Before y x ∨ Under x y

def Proper (x : Route) : Prop := x.address ≤ x.endaddress

/-- The routes of a tree. -/
def Tree.Has : Tree → Route → Prop
  | .nil, _ => False
  | .node p _ left mid right, y => y = p ∨ left.Has y ∨ mid.Has y ∨ right.Has y

def Valid : Tree → Prop
  | .nil => True
  | .node p _ left mid right =>
    Proper p ∧ (∀ y, left.Has y → Before y p) ∧ (∀ y, mid.Has y → Under y p) ∧
      (∀ y, right.Has y → Before p y) ∧ Valid left ∧ Valid mid ∧ Valid right

@[simp] theorem has_nil (y : Route) : ¬ Tree.nil.Has y := fun h => h

theorem has_node {p y : Route} {d : Nat} {left mid right : Tree} :
    (Tree.node p d left mid right).Has y ↔ y = p ∨ left.Has y ∨ mid.Has y ∨ right.Has y := Iff.rfl

variable {p x y z : Route} {d : Nat} {t m left mid right : Tree}

theorem Before.trans (hy : Proper y) (h : Before x y) (h' : Before y z) : Before x z := by
  unfold Before Proper at *
  omega

theorem Under.trans (h : Under x y) (h' : Under y z) : Under x z := by
  unfold Under Same at *
  omega

theorem Before.of_under (h : Before y z) (hu : Under x y) : Before x z := by
  unfold Before Under at *
  omega

theorem Before.under_right (h : Before z y) (hu : Under x y) : Before z x := by
  unfold Before Under at *
  omega

theorem Valid.proper (h : Valid t) (hy : t.Has y) : Proper y := by
  induction t with
  | nil => exact hy.elim
  | node p d left mid right ihl ihm ihr =>
    obtain ⟨hp, _, _, _, hvl, hvm, hvr⟩ := h
    rcases hy with hy | hy | hy | hy
    · rw [hy]
      exact hp
    · exact ihl hvl hy
    · exact ihm hvm hy
    · exact ihr hvr hy

theorem rangecompare_before (h : Before x p) :
    rangecompare x.address x.endaddress p = .preceeds := by
  unfold Before at h
  unfold rangecompare
  rw [if_pos h]

theorem rangecompare_after (hx : Proper x) (hp : Proper p) (h : Before p x) :
    rangecompare x.address x.endaddress p = .follows := by
  unfold Before Proper at *
  have hlt : ¬ x.endaddress < p.address := by omega
  unfold rangecompare
  rw [if_neg hlt, if_pos h]

theorem rangecompare_under (hx : Proper x) (h : Under x p) :
    rangecompare x.address x.endaddress p = .contained := by
  unfold Under Same Proper at *
  have hbefore : ¬ x.endaddress < p.address := by omega
  have hafter : ¬ x.address > p.endaddress := by omega
  have hcontains : ¬ (x.address ≤ p.address ∧ x.endaddress ≥ p.endaddress) := by omega
  unfold rangecompare
  rw [if_neg hbefore, if_neg hafter, if_neg hcontains]

theorem rangecompare_over (hp : Proper p) (h : Under p x) :
    rangecompare x.address x.endaddress p = .contains := by
  unfold Under Same Proper at *
  have hbefore : ¬ x.endaddress < p.address := by omega
  have hafter : ¬ x.address > p.endaddress := by omega
  have hcontains : x.address ≤ p.address ∧ x.endaddress ≥ p.endaddress := by omega
  have hsame : ¬ (x.address = p.address ∧ x.endaddress = p.endaddress) := by omega
  unfold rangecompare
  rw [if_neg hbefore, if_neg hafter, if_pos hcontains, if_neg hsame]

theorem rangecompare_same (hp : Proper p) (h : Same x p) :
    rangecompare x.address x.endaddress p = .equals := by
  unfold Same Proper at *
  have hbefore : ¬ x.endaddress < p.address := by omega
  have hafter : ¬ x.address > p.endaddress := by omega
  have hcontains : x.address ≤ p.address ∧ x.endaddress ≥ p.endaddress := by omega
  unfold rangecompare
  rw [if_neg hbefore, if_neg hafter, if_pos hcontains, if_pos h]

/-- A rotation keeps the routes and their order. -/
theorem balancetree_spec (h : Valid (.node p d left mid right)) :
    Valid (balancetree (.node p d left mid right)) ∧
      ∀ y, (balancetree (.node p d left mid right)).Has y ↔
        (Tree.node p d left mid right).Has y := by
  obtain ⟨hp, hleft, hmid, hright, hvl, hvm, hvr⟩ := h
  by_cases hl : left.depth > right.depth + 1
  · cases left with
    | nil => exact absurd hl (Nat.not_lt_zero _)
    | node l ld ll lm lr =>
      have hrot : balancetree (.node p d (.node l ld ll lm lr) mid right) =
          calcd l ll lm (calcd p lr mid right) := by
        simp only [balancetree, if_pos hl]
      obtain ⟨hl', hll, hlm, hlr, hvll, hvlm, hvlr⟩ := hvl
      have hlp : Before l p := hleft l (Or.inl rfl)
      rw [hrot]
      refine ⟨⟨hl', hll, hlm, ?_, hvll, hvlm, hp, ?_, hmid, hright, hvlr, hvm, hvr⟩, ?_⟩
      · intro y hy
        rcases hy with hy | hy | hy | hy
        · rw [hy]
          exact hlp
        · exact hlr y hy
        · exact hlp.under_right (hmid y hy)
        · exact hlp.trans hp (hright y hy)
      · intro y hy
        exact hleft y (Or.inr (Or.inr (Or.inr hy)))
      · intro y
        simp only [calcd, has_node]
        grind
  · by_cases hr : right.depth > left.depth + 1
    · cases right with
      | nil => exact absurd hr (Nat.not_lt_zero _)
      | node r rd rl rm rr =>
        have hrot : balancetree (.node p d left mid (.node r rd rl rm rr)) =
            calcd r (calcd p left mid rl) rm rr := by
          simp only [balancetree, if_neg hl, if_pos hr]
        obtain ⟨hr', hrl, hrm, hrr, hvrl, hvrm, hvrr⟩ := hvr
        have hpr : Before p r := hright r (Or.inl rfl)
        rw [hrot]
        refine ⟨⟨hr', ?_, hrm, hrr, ⟨hp, hleft, hmid, ?_, hvl, hvm, hvrl⟩, hvrm, hvrr⟩, ?_⟩
        · intro y hy
          rcases hy with hy | hy | hy | hy
          · rw [hy]
            exact hpr
          · exact (hleft y hy).trans hp hpr
          · exact hpr.of_under (hmid y hy)
          · exact hrl y hy
        · intro y hy
          exact hright y (Or.inr (Or.inl hy))
        · intro y
          simp only [calcd, has_node]
          grind
    · have hstay : balancetree (.node p d left mid right) = calcd p left mid right := by
        simp only [balancetree, if_neg hl, if_neg hr]
      rw [hstay]
      exact ⟨⟨hp, hleft, hmid, hright, hvl, hvm, hvr⟩, fun _ => Iff.rfl⟩

/-- **Merging a node.**  A range that contains nothing of the tree finds its place, with
what is below it, and nothing is queued. -/
theorem addnode_merge (hv : Valid t) (hx : Proper x) (hm : Valid m)
    (hmx : ∀ y, m.Has y → Under y x) (hout : ∀ y, t.Has y → Outside x y) :
    (addnode x m t).2 = [] ∧ Valid (addnode x m t).1 ∧
      ∀ y, (addnode x m t).1.Has y ↔ t.Has y ∨ y = x ∨ m.Has y := by
  induction t with
  | nil =>
    refine ⟨rfl, ⟨hx, fun _ h => h.elim, hmx, fun _ h => h.elim, trivial, hm, trivial⟩, ?_⟩
    intro y
    simp only [addnode, has_node, has_nil]
    grind
  | node p d left mid right ihl ihm ihr =>
    obtain ⟨hp, hleft, hmid, hright, hvl, hvm, hvr⟩ := hv
    have houtl := fun y hy => hout y (Or.inr (Or.inl hy))
    have houtm := fun y hy => hout y (Or.inr (Or.inr (Or.inl hy)))
    have houtr := fun y hy => hout y (Or.inr (Or.inr (Or.inr hy)))
    unfold addnode
    rcases hout p (Or.inl rfl) with hcase | hcase | hcase
    · obtain ⟨hq, hvl', hhas⟩ := ihl hvl houtl
      rw [rangecompare_before hcase]
      have hvalid : Valid (.node p d (addnode x m left).1 mid right) := by
        refine ⟨hp, ?_, hmid, hright, hvl', hvm, hvr⟩
        intro y hy
        rcases (hhas y).mp hy with hy | hy | hy
        · exact hleft y hy
        · rw [hy]
          exact hcase
        · exact hcase.of_under (hmx y hy)
      obtain ⟨hbv, hbh⟩ := balancetree_spec hvalid
      refine ⟨hq, hbv, ?_⟩
      intro y
      rw [hbh, has_node, hhas, has_node]
      grind
    · obtain ⟨hq, hvr', hhas⟩ := ihr hvr houtr
      rw [rangecompare_after hx hp hcase]
      have hvalid : Valid (.node p d left mid (addnode x m right).1) := by
        refine ⟨hp, hleft, hmid, ?_, hvl, hvm, hvr'⟩
        intro y hy
        rcases (hhas y).mp hy with hy | hy | hy
        · exact hright y hy
        · rw [hy]
          exact hcase
        · exact hcase.under_right (hmx y hy)
      obtain ⟨hbv, hbh⟩ := balancetree_spec hvalid
      refine ⟨hq, hbv, ?_⟩
      intro y
      rw [hbh, has_node, hhas, has_node]
      grind
    · obtain ⟨hq, hvm', hhas⟩ := ihm hvm houtm
      rw [rangecompare_under hx hcase]
      have hvalid : Valid (.node p d left (addnode x m mid).1 right) := by
        refine ⟨hp, hleft, ?_, hright, hvl, hvm', hvr⟩
        intro y hy
        rcases (hhas y).mp hy with hy | hy | hy
        · exact hmid y hy
        · rw [hy]
          exact hcase
        · exact (hmx y hy).trans hcase
      obtain ⟨hbv, hbh⟩ := balancetree_spec hvalid
      refine ⟨hq, hbv, ?_⟩
      intro y
      rw [hbh, has_node, hhas, has_node]
      grind

theorem Before.outside (h : Before x y) : Outside x y := Or.inl h

theorem Before.outside_right (h : Before y x) : Outside x y := Or.inr (Or.inl h)

/-- **Merging a subtree.**  If no range of it contains one of the tree, all of them are
added and nothing is queued. -/
theorem walkadd_merge {q : Tree} (hv : Valid t) (hq : Valid q)
    (hout : ∀ z y, q.Has z → t.Has y → Outside z y) :
    (walkadd q t).2 = [] ∧ Valid (walkadd q t).1 ∧
      ∀ y, (walkadd q t).1.Has y ↔ t.Has y ∨ q.Has y := by
  induction q generalizing t with
  | nil =>
    refine ⟨rfl, hv, ?_⟩
    intro y
    simp [walkadd]
  | node p d left mid right ihl ihm ihr =>
    obtain ⟨hp, hleft, hmid, hright, hvl, hvm, hvr⟩ := hq
    obtain ⟨hq₁, hv₁, hhas₁⟩ := addnode_merge hv hp hvm hmid (fun y hy => hout p y (Or.inl rfl) hy)
    obtain ⟨hq₂, hv₂, hhas₂⟩ := ihl hv₁ hvl (by
      intro z y hz hy
      have hzp := hleft z hz
      rcases (hhas₁ y).mp hy with hy | hy | hy
      · exact hout z y (Or.inr (Or.inl hz)) hy
      · rw [hy]
        exact hzp.outside
      · exact (hzp.under_right (hmid y hy)).outside)
    obtain ⟨hq₃, hv₃, hhas₃⟩ := ihr hv₂ hvr (by
      intro z y hz hy
      have hpz := hright z hz
      rcases (hhas₂ y).mp hy with hy | hy
      · rcases (hhas₁ y).mp hy with hy | hy | hy
        · exact hout z y (Or.inr (Or.inr (Or.inr hz))) hy
        · rw [hy]
          exact hpz.outside_right
        · exact (hpz.of_under (hmid y hy)).outside_right
      · exact ((hleft y hy).trans hp hpz).outside_right)
    unfold walkadd
    refine ⟨?_, hv₃, ?_⟩
    · simp only [hq₁, hq₂, hq₃, append_nil]
    · intro y
      rw [hhas₃, hhas₂, hhas₁, has_node]
      grind

/-- **Draining the queue.**  It ends, and every queued route is in the tree. -/
theorem drain_merge {queue : List Tree} (hv : Valid t) (hq : ∀ q ∈ queue, Valid q)
    (hout : ∀ q ∈ queue, ∀ z y, q.Has z → t.Has y → Outside z y)
    (hpair : queue.Pairwise fun a b => ∀ z y, b.Has z → a.Has y → Outside z y) :
    ∃ t', drain t queue = some t' ∧ Valid t' ∧
      ∀ y, t'.Has y ↔ t.Has y ∨ ∃ q ∈ queue, q.Has y := by
  induction queue generalizing t with
  | nil =>
    refine ⟨t, by rw [drain], hv, ?_⟩
    intro y
    simp
  | cons q queue ih =>
    rw [pairwise_cons] at hpair
    obtain ⟨hempty, hv₁, hhas₁⟩ := walkadd_merge hv (hq q mem_cons_self)
      (hout q mem_cons_self)
    obtain ⟨t', hrun, hv', hhas'⟩ := ih hv₁ (fun a ha => hq a (mem_cons_of_mem _ ha)) (by
      intro a ha z y hz hy
      rcases (hhas₁ y).mp hy with hy | hy
      · exact hout a (mem_cons_of_mem _ ha) z y hz hy
      · exact hpair.1 a ha z y hz hy) hpair.2
    refine ⟨t', ?_, hv', ?_⟩
    · rw [drain]
      simp only [hempty, nil_append]
      exact hrun
    · intro y
      rw [hhas', hhas₁]
      simp only [mem_cons, exists_eq_or_imp]
      exact or_assoc

end Iproute
