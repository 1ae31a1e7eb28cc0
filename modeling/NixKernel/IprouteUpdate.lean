import NixKernel.IprouteTree

/-!
# One tree through an add or a delete

What `addnode` and `delnode` followed by the draining of the queue do to a valid tree: the tree
stays valid, and its routes are those before with the route of one range added, changed or removed.
-/

namespace Iproute

open List

variable {p x y z : Route} {d : Nat} {t left mid right : Tree} {r : Tree × List Tree}
  {o : Option Route}

theorem Under.outside (h : Under x y) : Outside x y := Or.inr (Or.inr h)

theorem Before.not_same (hx : Proper x) (h : Before x y) : ¬ Same x y := by
  unfold Before Proper Same at *
  omega

theorem Before.not_same_right (hx : Proper x) (h : Before y x) : ¬ Same x y := by
  unfold Before Proper Same at *
  omega

theorem Same.before (h : Same x y) (hb : Before x z) : Before y z := by
  unfold Same Before at *
  omega

theorem Same.after (h : Same x y) (hb : Before z x) : Before z y := by
  unfold Same Before at *
  omega

theorem Same.under (h : Same x y) (hu : Under x z) : Under y z := by
  unfold Under Same at *
  omega

theorem Same.symm (h : Same x y) : Same y x := ⟨h.1.symm, h.2.symm⟩

/-- Tree `t` has become `r`, a tree and a queue, in which the routes of the range of `x`
are replaced by `o`. -/
structure Changed (x : Route) (o : Option Route) (t : Tree) (r : Tree × List Tree) : Prop where
  valid : Valid r.1
  valid_queue : ∀ q ∈ r.2, Valid q
  outside : ∀ q ∈ r.2, ∀ z y, q.Has z → r.1.Has y → Outside z y
  pairwise : r.2.Pairwise fun a b => ∀ z y, b.Has z → a.Has y → Outside z y
  has : ∀ y, (r.1.Has y ∨ ∃ q ∈ r.2, q.Has y) ↔ (t.Has y ∧ ¬ Same x y) ∨ o = some y
  same : ∀ y, o = some y → Same x y

/-- A route of the changed tree or of its queue lies where the old routes and the changed
range lie. -/
theorem Changed.place {P : Route → Prop} (h : Changed x o t r) (hold : ∀ y, t.Has y → P y)
    (hnew : ∀ y, Same x y → P y) (hy : r.1.Has y ∨ ∃ q ∈ r.2, q.Has y) : P y := by
  rcases (h.has y).mp hy with hy | hy
  · exact hold y hy.1
  · exact hnew y (h.same y hy)

theorem Changed.in_left (hv : Valid (.node p d left mid right)) (hx : Proper x) (hxp : Before x p)
    (h : Changed x o left r) :
    Changed x o (.node p d left mid right) (.node p d r.1 mid right, r.2) := by
  obtain ⟨hp, hleft, hmid, hright, hvl, hvm, hvr⟩ := hv
  have hbefore : ∀ y, (r.1.Has y ∨ ∃ q ∈ r.2, q.Has y) → Before y p :=
    fun y => h.place hleft (fun y hy => hy.before hxp)
  refine ⟨⟨hp, fun y hy => hbefore y (Or.inl hy), hmid, hright, h.valid, hvm, hvr⟩,
    h.valid_queue, ?_, h.pairwise, ?_, h.same⟩
  · intro q hq z y hz hy
    have hzp := hbefore z (Or.inr ⟨q, hq, hz⟩)
    rcases hy with hy | hy | hy | hy
    · rw [hy]
      exact hzp.outside
    · exact h.outside q hq z y hz hy
    · exact (hzp.under_right (hmid y hy)).outside
    · exact (hzp.trans hp (hright y hy)).outside
  · intro y
    have hy := h.has y
    have hsp : ¬ Same x p := hxp.not_same hx
    have hsm : mid.Has y → ¬ Same x y := fun hy => (hxp.under_right (hmid y hy)).not_same hx
    have hsr : right.Has y → ¬ Same x y := fun hy => (hxp.trans hp (hright y hy)).not_same hx
    simp only [has_node]
    grind

theorem Changed.in_right (hv : Valid (.node p d left mid right)) (hx : Proper x) (hpx : Before p x)
    (h : Changed x o right r) :
    Changed x o (.node p d left mid right) (.node p d left mid r.1, r.2) := by
  obtain ⟨hp, hleft, hmid, hright, hvl, hvm, hvr⟩ := hv
  have hafter : ∀ y, (r.1.Has y ∨ ∃ q ∈ r.2, q.Has y) → Before p y :=
    fun y => h.place hright (fun y hy => hy.after hpx)
  refine ⟨⟨hp, hleft, hmid, fun y hy => hafter y (Or.inl hy), hvl, hvm, h.valid⟩,
    h.valid_queue, ?_, h.pairwise, ?_, h.same⟩
  · intro q hq z y hz hy
    have hpz := hafter z (Or.inr ⟨q, hq, hz⟩)
    rcases hy with hy | hy | hy | hy
    · rw [hy]
      exact hpz.outside_right
    · exact ((hleft y hy).trans hp hpz).outside_right
    · exact (hpz.of_under (hmid y hy)).outside_right
    · exact h.outside q hq z y hz hy
  · intro y
    have hy := h.has y
    have hsp : ¬ Same x p := hpx.not_same_right hx
    have hsm : mid.Has y → ¬ Same x y := fun hy => (hpx.of_under (hmid y hy)).not_same_right hx
    have hsl : left.Has y → ¬ Same x y := fun hy => ((hleft y hy).trans hp hpx).not_same_right hx
    simp only [has_node]
    grind

theorem Changed.in_mid (hv : Valid (.node p d left mid right)) (hx : Proper x) (hxp : Under x p)
    (h : Changed x o mid r) :
    Changed x o (.node p d left mid right) (.node p d left r.1 right, r.2) := by
  obtain ⟨hp, hleft, hmid, hright, hvl, hvm, hvr⟩ := hv
  have hunder : ∀ y, (r.1.Has y ∨ ∃ q ∈ r.2, q.Has y) → Under y p :=
    fun y => h.place hmid (fun y hy => hy.under hxp)
  refine ⟨⟨hp, hleft, fun y hy => hunder y (Or.inl hy), hright, hvl, h.valid, hvr⟩,
    h.valid_queue, ?_, h.pairwise, ?_, h.same⟩
  · intro q hq z y hz hy
    have hzp := hunder z (Or.inr ⟨q, hq, hz⟩)
    rcases hy with hy | hy | hy | hy
    · rw [hy]
      exact hzp.outside
    · exact ((hleft y hy).under_right hzp).outside_right
    · exact h.outside q hq z y hz hy
    · exact ((hright y hy).of_under hzp).outside
  · intro y
    have hy := h.has y
    have hsp : ¬ Same x p := hxp.2.2
    have hsl : left.Has y → ¬ Same x y :=
      fun hy => ((hleft y hy).under_right hxp).not_same_right hx
    have hsr : right.Has y → ¬ Same x y := fun hy => ((hright y hy).of_under hxp).not_same hx
    simp only [has_node]
    grind

/-- A rotation after the change. -/
theorem Changed.balance {l m n : Tree} {qs : List Tree} (h : Changed x o t (.node p d l m n, qs)) :
    Changed x o t (balancetree (.node p d l m n), qs) := by
  obtain ⟨hbv, hbh⟩ := balancetree_spec h.valid
  refine ⟨hbv, h.valid_queue, ?_, h.pairwise, ?_, h.same⟩
  · intro q hq z y hz hy
    exact h.outside q hq z y hz ((hbh y).mp hy)
  · intro y
    rw [← h.has, hbh]

/-- The queue drained after the change. -/
theorem Changed.drain (h : Changed x o t r) :
    ∃ t', drain r.1 r.2 = some t' ∧ Valid t' ∧
      ∀ y, t'.Has y ↔ (t.Has y ∧ ¬ Same x y) ∨ o = some y := by
  obtain ⟨t', hrun, hv', hhas⟩ := drain_merge h.valid h.valid_queue h.outside h.pairwise
  refine ⟨t', hrun, hv', ?_⟩
  intro y
  rw [hhas, h.has]

/-- The node of the range is at the root: the rest of the tree is not of that range. -/
theorem Valid.root_only (hv : Valid (.node p d left mid right)) (hs : Same x p) :
    (Tree.node p d left mid right).Has y ∧ ¬ Same x y ↔ left.Has y ∨ mid.Has y ∨ right.Has y := by
  obtain ⟨hp, hleft, hmid, hright, hvl, hvm, hvr⟩ := hv
  have hx : Proper x := by
    unfold Proper Same at *
    omega
  have hsl : left.Has y → ¬ Same x y :=
    fun hy => (hs.symm.after (hleft y hy)).not_same_right hx
  have hsm : mid.Has y → ¬ Same x y := by
    intro hy hxy
    have := hmid y hy
    unfold Under Same at *
    omega
  have hsr : right.Has y → ¬ Same x y := fun hy => (hs.symm.before (hright y hy)).not_same hx
  rw [has_node]
  grind

/-- A new entry for the route at the root. -/
theorem Changed.root (hv : Valid (.node p d left mid right)) (hs : Same x p) (e : Entry) :
    Changed x (some { p with entry := e }) (.node p d left mid right)
      (.node { p with entry := e } d left mid right, []) := by
  refine ⟨hv, ?_, ?_, List.Pairwise.nil, ?_, ?_⟩
  · intro q hq
    exact absurd hq not_mem_nil
  · intro q hq
    exact absurd hq not_mem_nil
  · intro y
    rw [hv.root_only hs]
    simp only [has_node, not_mem_nil, false_and, exists_false, or_false, Option.some.injEq]
    grind
  · intro y hy
    cases hy
    exact hs

/-- A range that contains the root: the tree is cut off. -/
theorem Changed.over (hv : Valid (.node p d left mid right)) (hx : Proper x) (hpx : Under p x)
    (hlam : ∀ y, (Tree.node p d left mid right).Has y → Outside x y ∨ Under y x) :
    Changed x (some x) (.node p d left mid right)
      (.node x 1 .nil .nil .nil, [.node p d left mid right]) := by
  have hvt := hv
  obtain ⟨hp, hleft, hmid, hright, hvl, hvm, hvr⟩ := hv
  -- no range beside or below the root contains the new one
  have hout : ∀ z, (Tree.node p d left mid right).Has z → Outside z x := by
    intro z hz
    rcases hlam z hz with (h | h | h) | h
    · exact h.outside_right
    · exact h.outside
    · have hpz : Under p z := hpx.trans h
      have hzz := hvt.proper hz
      rcases hz with hz | hz | hz | hz
      · rw [hz] at hpz
        exact absurd ⟨rfl, rfl⟩ hpz.2.2
      · have hzp := hleft z hz
        unfold Before Under Proper at *
        omega
      · have hzp := hmid z hz
        unfold Under Same at *
        omega
      · have hzp := hright z hz
        unfold Before Under Proper at *
        omega
    · exact h.outside
  have hns : ∀ z, (Tree.node p d left mid right).Has z → ¬ Same x z := by
    intro z hz
    have hzz := hvt.proper hz
    have hzx := hout z hz
    unfold Outside Before Under Proper Same at *
    omega
  refine ⟨⟨hx, fun _ h => h.elim, fun _ h => h.elim, fun _ h => h.elim, trivial, trivial, trivial⟩,
    ?_, ?_, pairwise_singleton _ _, ?_, ?_⟩
  · intro q hq
    rw [mem_singleton.mp hq]
    exact hvt
  · intro q hq z y hz hy
    rw [mem_singleton.mp hq] at hz
    rcases hy with hy | hy | hy | hy
    · rw [hy]
      exact hout z hz
    · exact hy.elim
    · exact hy.elim
    · exact hy.elim
  · intro y
    have hy := hns y
    simp only [has_node (p := x), has_nil, mem_singleton, exists_eq_left, Option.some.injEq]
    grind
  · intro y hy
    cases hy
    exact ⟨rfl, rfl⟩

theorem Valid.single (hx : Proper x) : Valid (.node x 1 .nil .nil .nil) :=
  ⟨hx, fun _ h => h.elim, fun _ h => h.elim, fun _ h => h.elim, trivial, trivial, trivial⟩

/-- **Adding a new range.**  What the range contains is in the queue. -/
theorem addnode_fresh (hv : Valid t) (hx : Proper x)
    (hlam : ∀ y, t.Has y → Outside x y ∨ Under y x) :
    Changed x (some x) t (addnode x .nil t) := by
  induction t with
  | nil =>
    refine ⟨Valid.single hx, fun _ hq => absurd hq not_mem_nil,
      fun _ hq => absurd hq not_mem_nil, List.Pairwise.nil, ?_, ?_⟩
    · intro y
      simp only [addnode, has_node, has_nil, not_mem_nil, Option.some.injEq]
      grind
    · intro y hy
      cases hy
      exact ⟨rfl, rfl⟩
  | node p d left mid right ihl ihm ihr =>
    have hvt := hv
    obtain ⟨hp, hleft, hmid, hright, hvl, hvm, hvr⟩ := hv
    unfold addnode
    rcases hlam p (Or.inl rfl) with (hcase | hcase | hcase) | hcase
    · have h := ihl hvl (fun y hy => hlam y (Or.inr (Or.inl hy)))
      rw [rangecompare_before hcase]
      exact (h.in_left hvt hx hcase).balance
    · have h := ihr hvr (fun y hy => hlam y (Or.inr (Or.inr (Or.inr hy))))
      rw [rangecompare_after hx hp hcase]
      exact (h.in_right hvt hx hcase).balance
    · have h := ihm hvm (fun y hy => hlam y (Or.inr (Or.inr (Or.inl hy))))
      rw [rangecompare_under hx hcase]
      exact (h.in_mid hvt hx hcase).balance
    · rw [rangecompare_over hp hcase]
      exact (Changed.over hvt hx hcase hlam).balance

/-- **Adding a range again.**  The old entry is superseded, as `Requals` says. -/
theorem addnode_same {p₀ : Route} (hv : Valid t) (hhas : t.Has p₀) (hs : Same x p₀) :
    Changed x (some { p₀ with entry := supersede p₀.entry x.entry }) t (addnode x .nil t) := by
  have hx : Proper x := by
    have hp := hv.proper hhas
    unfold Proper Same at *
    omega
  induction t with
  | nil => exact hhas.elim
  | node p d left mid right ihl ihm ihr =>
    have hvt := hv
    obtain ⟨hp, hleft, hmid, hright, hvl, hvm, hvr⟩ := hv
    unfold addnode
    rcases hhas with hhas | hhas | hhas | hhas
    · subst hhas
      rw [rangecompare_same hp hs]
      exact (Changed.root hvt hs _).balance
    · have hcase : Before x p := hs.symm.before (hleft p₀ hhas)
      rw [rangecompare_before hcase]
      exact ((ihl hvl hhas).in_left hvt hx hcase).balance
    · have hcase : Under x p := hs.symm.under (hmid p₀ hhas)
      rw [rangecompare_under hx hcase]
      exact ((ihm hvm hhas).in_mid hvt hx hcase).balance
    · have hcase : Before p x := hs.symm.after (hright p₀ hhas)
      rw [rangecompare_after hx hp hcase]
      exact ((ihr hvr hhas).in_right hvt hx hcase).balance

/-- A range that is not in the tree. -/
theorem delnode_absent (hv : Valid t) (hx : Proper x)
    (hlam : ∀ y, t.Has y → Outside x y ∨ Under y x) :
    delnode x.address x.endaddress t = (t, []) := by
  induction t with
  | nil => rfl
  | node p d left mid right ihl ihm ihr =>
    obtain ⟨hp, hleft, hmid, hright, hvl, hvm, hvr⟩ := hv
    unfold delnode
    rcases hlam p (Or.inl rfl) with (hcase | hcase | hcase) | hcase
    · rw [rangecompare_before hcase]
      simp only [ihl hvl (fun y hy => hlam y (Or.inr (Or.inl hy)))]
    · rw [rangecompare_after hx hp hcase]
      simp only [ihr hvr (fun y hy => hlam y (Or.inr (Or.inr (Or.inr hy))))]
    · rw [rangecompare_under hx hcase]
      simp only [ihm hvm (fun y hy => hlam y (Or.inr (Or.inr (Or.inl hy))))]
    · rw [rangecompare_over hp hcase]

theorem mem_addqueue {q : Tree} {queue : List Tree} (hq : q ∈ addqueue queue t) :
    q = t ∨ q ∈ queue := by
  cases t with
  | nil => exact Or.inr hq
  | node p d left mid right => exact mem_cons.mp hq

theorem exists_addqueue {queue : List Tree} :
    (∃ q ∈ addqueue queue t, q.Has y) ↔ t.Has y ∨ ∃ q ∈ queue, q.Has y := by
  cases t with
  | nil => simp [addqueue]
  | node p d left mid right => simp [addqueue]

theorem pairwise_addqueue {queue : List Tree} {R : Tree → Tree → Prop} (hq : queue.Pairwise R)
    (ht : ∀ q ∈ queue, R t q) : (addqueue queue t).Pairwise R := by
  cases t with
  | nil => exact hq
  | node p d left mid right => exact pairwise_cons.mpr ⟨ht, hq⟩

/-- What is left of a node that is removed: its three subtrees, in the queue. -/
theorem Changed.remove (hv : Valid (.node p d left mid right)) (hs : Same x p) :
    Changed x none (.node p d left mid right)
      (.nil, addqueue (addqueue (addqueue [] left) mid) right) := by
  have hvt := hv
  obtain ⟨hp, hleft, hmid, hright, hvl, hvm, hvr⟩ := hv
  have hmem : ∀ {l m : Tree} {q}, q ∈ addqueue (addqueue [] l) m → q = m ∨ q = l := by
    intro l m q hq
    rcases mem_addqueue hq with hq | hq
    · exact Or.inl hq
    · rcases mem_addqueue hq with hq | hq
      · exact Or.inr hq
      · exact absurd hq not_mem_nil
  refine ⟨trivial, ?_, fun _ _ _ _ _ h => h.elim, ?_, ?_, fun _ h => by cases h⟩
  · intro q hq
    rcases mem_addqueue hq with hq | hq
    · rw [hq]
      exact hvr
    · rcases hmem hq with hq | hq
      · rw [hq]
        exact hvm
      · rw [hq]
        exact hvl
  · apply pairwise_addqueue
    · apply pairwise_addqueue
      · exact pairwise_addqueue List.Pairwise.nil (fun _ h => absurd h not_mem_nil)
      · intro q hq z y hz hy
        rcases mem_addqueue hq with hq | hq
        · rw [hq] at hz
          exact ((hleft z hz).under_right (hmid y hy)).outside
        · exact absurd hq not_mem_nil
    · intro q hq z y hz hy
      rcases hmem hq with hq | hq
      · rw [hq] at hz
        exact ((hright y hy).of_under (hmid z hz)).outside
      · rw [hq] at hz
        exact ((hleft z hz).trans hp (hright y hy)).outside
  · intro y
    rw [hvt.root_only hs]
    simp only [exists_addqueue, has_nil, not_mem_nil]
    grind

/-- What a delete leaves of a route. -/
def dropRef (p : Route) : Option Route :=
  if p.entry.ref - 1 = 0 then none
  else some { p with entry := { p.entry with ref := p.entry.ref - 1 } }

/-- **Deleting a range.**  The reference goes, and with the last one the route; what it
contained is in the queue. -/
theorem delnode_present {p₀ : Route} (hv : Valid t) (hhas : t.Has p₀) (hs : Same x p₀) :
    Changed x (dropRef p₀) t (delnode x.address x.endaddress t) := by
  have hx : Proper x := by
    have hp := hv.proper hhas
    unfold Proper Same at *
    omega
  induction t with
  | nil => exact hhas.elim
  | node p d left mid right ihl ihm ihr =>
    have hvt := hv
    obtain ⟨hp, hleft, hmid, hright, hvl, hvm, hvr⟩ := hv
    unfold delnode
    rcases hhas with hhas | hhas | hhas | hhas
    · subst hhas
      rw [rangecompare_same hp hs]
      unfold dropRef
      by_cases href : p₀.entry.ref - 1 = 0
      · simp only [if_pos href]
        exact Changed.remove hvt hs
      · simp only [if_neg href]
        exact Changed.root hvt hs _
    · have hcase : Before x p := hs.symm.before (hleft p₀ hhas)
      rw [rangecompare_before hcase]
      exact (ihl hvl hhas).in_left hvt hx hcase
    · have hcase : Under x p := hs.symm.under (hmid p₀ hhas)
      rw [rangecompare_under hx hcase]
      exact (ihm hvm hhas).in_mid hvt hx hcase
    · have hcase : Before p x := hs.symm.after (hright p₀ hhas)
      rw [rangecompare_after hx hp hcase]
      exact (ihr hvr hhas).in_right hvt hx hcase

end Iproute
