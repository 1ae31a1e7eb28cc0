import NixKernel.AdrSteps

/-!
# The map over whole runs

The results of `adralloc` that stand are part of the state.  One that was allocated for a use other
than `Mfree` is an entry of its own, slop included, until it is freed; one for the use `Mfree` only
says that its addresses are free.
-/

namespace Adr

open Extents StepSystem List Option

/-- A result that stands, in the map. -/
structure Stands (s : Tab) (g : Range) : Prop where
  slop : g.slop ≤ g.base
  len : 0 < g.len
  used : g.use ≠ mfree → ∃ e ∈ s.map, e.base = g.lo ∧ e.fin = g.hi ∧ e.use = g.use
  free : g.use = mfree → ∀ p, g.Has p → ∃ t c, s.attr p = some (t, mfree, c)

/-- **The invariant of a run.** -/
structure Inv (s : Sys) : Prop where
  good : Good s.tab
  stands : ∀ g ∈ s.held, Stands s.tab g
  apart : s.held.Pairwise fun g h => g.hi ≤ h.lo ∨ h.hi ≤ g.lo

/-- What a call does to the type, use and colour of the addresses. -/
def Outcome (s t : Sys) (n : Nat) : Op → Prop
  | .insert a => ∀ p,
      (In Adrmap.base Adrmap.fin p a → s.tab.attr p = none ∧ t.tab.attr p = some a.attr) ∧
      (¬ In Adrmap.base Adrmap.fin p a → t.tab.attr p = s.tab.attr p)
  | .adralloc _ len align type use _ =>
    (n = nomem ∧ ∀ p, t.tab.attr p = s.tab.attr p) ∨
    (n ≠ nomem ∧ (align ≠ 0 → ofInt align ∣ n) ∧ ∃ g ∈ t.held, g.base = n ∧ g.len = len ∧
      g.slop ≤ n ∧ g.slop < max 1 (ofInt align) ∧ ∀ p,
        (g.Has p → ∃ ty c, (type = -1 ∨ (ty.toNat : Int) = type) ∧
          s.tab.attr p = some (ty, mfree, c) ∧ t.tab.attr p = some (ty, use, c)) ∧
        (¬ g.Has p → t.tab.attr p = s.tab.attr p))
  | .adrfree base len => ∃ g ∈ s.held, g.base = base ∧ g.len = len ∧ ∀ p,
      (g.Has p → ∃ ty u c, s.tab.attr p = some (ty, u, c) ∧ t.tab.attr p = some (ty, mfree, c)) ∧
      (¬ g.Has p → t.tab.attr p = s.tab.attr p)

variable {s t : Sys} {tab tab' : Tab} {g h : Range} {n p : Nat}

theorem Stands.of_refines (hs : Stands tab g) (hr : Refines tab tab') : Stands tab' g := by
  refine ⟨hs.slop, hs.len, fun hu => ?_, fun hu p hp => ?_⟩
  · obtain ⟨e, he, hlo, hhi, heu⟩ := hs.used hu
    exact ⟨e, hr.keep e he (heu ▸ hu), hlo, hhi, heu⟩
  · rw [hr.attr]
    exact hs.free hu p hp

/-- A result keeps standing when one entry apart from it changes. -/
theorem Stands.of_swap {l r : List Adrmap} {a b : Adrmap} {rest : List Adrmap}
    (hs : Stands ⟨l ++ a :: r, rest⟩ g) (hbase : b.base = a.base) (hfin : b.fin = a.fin)
    (hfull : a.base < a.fin) (hapart : g.hi ≤ a.base ∨ a.fin ≤ g.lo) :
    Stands ⟨l ++ b :: r, rest⟩ g := by
  refine ⟨hs.slop, hs.len, fun hu => ?_, fun hu p hp => ?_⟩
  · obtain ⟨e, he, hlo, hhi, heu⟩ := hs.used hu
    have hlen := hs.len
    have hslop := hs.slop
    have hne : e ≠ a := by
      rintro rfl
      unfold Range.lo Range.hi at *
      omega
    refine ⟨e, ?_, hlo, hhi, heu⟩
    rcases List.mem_append.mp he with he | he
    · exact mem_append_left _ he
    · exact mem_append_right l (mem_cons_of_mem b (mem_of_ne_of_mem hne he))
  · obtain ⟨ty, c, hattr⟩ := hs.free hu p hp
    refine ⟨ty, c, ?_⟩
    rw [← hattr]
    apply view_replace hbase hfin
    unfold Range.Has at hp
    unfold In
    omega

theorem insert_step {a : Adrmap} (hi : Inv s) (hall : Allowed s (.insert a)) :
    Inv ⟨insert s.tab a, s.held⟩ ∧ Outcome s ⟨insert s.tab a, s.held⟩ 0 (.insert a) := by
  obtain ⟨hrest, hpos, htop, hapart⟩ := hall
  obtain ⟨⟨map, rest⟩, held⟩ := s
  obtain ⟨x, rest, rfl⟩ := exists_cons_of_ne_nil hrest
  obtain ⟨l, r, hmap, hrun, hgood⟩ := insert_spec hi.good hpos htop hapart
  change map = l ++ r at hmap
  subst hmap
  -- an address of the new range has no entry, the others keep theirs
  have hin : ∀ p, In Adrmap.base Adrmap.fin p a → viewOf (l ++ r) p = none := by
    intro p hp
    apply view_eq_none
    intro e he hpe
    have := hapart e he
    unfold In at hp hpe
    omega
  have hout : ∀ p, ¬ In Adrmap.base Adrmap.fin p a →
      viewOf (l ++ a :: r) p = viewOf (l ++ r) p := fun p hp => view_out hp
  rw [hrun]
  refine ⟨⟨hgood, fun g hg => ?_, hi.apart⟩, fun p => ⟨fun hp => ⟨hin p hp, ?_⟩, hout p⟩⟩
  · have hs := hi.stands g hg
    refine ⟨hs.slop, hs.len, fun hu => ?_, fun hu p hp => ?_⟩
    · obtain ⟨e, he, hrange⟩ := hs.used hu
      refine ⟨e, ?_, hrange⟩
      rcases List.mem_append.mp he with he | he
      · exact mem_append_left _ he
      · exact mem_append_right l (mem_cons_of_mem a he)
    · obtain ⟨ty, c, hattr⟩ := hs.free hu p hp
      refine ⟨ty, c, ?_⟩
      rw [← hattr]
      apply hout
      intro hpa
      have hnone : viewOf (l ++ r) p = some (ty, mfree, c) := hattr
      rw [hin p hpa] at hnone
      cases hnone
  · exact hgood.laid.view_mid hp

/-- The new result is the entry taken into use. -/
theorem granted_eq {l r : List Adrmap} {b : Adrmap} {rest : List Adrmap} {len k : Nat}
    {use : UInt8} (hlaid : Laid (l ++ b :: r)) (hlen : b.len = len + k) (hpos : 0 < len) :
    granted ⟨l ++ b :: r, rest⟩ (b.base + k) len use = ⟨b.base + k, len, k, use⟩ := by
  have hin : In Adrmap.base Adrmap.fin (b.base + k) b := by
    unfold In Adrmap.fin
    omega
  have hview := @Extents.Layout.view_mid _ _ _ _ id _ _ _ _ hlaid hin
  have hfind : (l ++ b :: r).find? (fun e => decide (e.base ≤ b.base + k ∧ b.base + k < e.fin)) =
      some b := by
    rw [view, Option.map_id] at hview
    exact hview
  simp only [granted, hfind, elim_some, Nat.add_sub_cancel_left]

theorem besides_apart {held : List Range} :
    (∀ h ∈ g.besides held, h ∈ held ∧ (h.hi ≤ g.lo ∨ g.hi ≤ h.lo)) := by
  intro h hh
  obtain ⟨hmem, hcond⟩ := List.mem_filter.mp hh
  exact ⟨hmem, by simpa using hcond⟩

theorem grant_step (memflags : Nat) {l r rest : List Adrmap} {b : Adrmap} {len k : Nat}
    {use : UInt8} (hi : Inv s) (hr : Refines s.tab ⟨l ++ b :: r, rest⟩) (hfree : b.use = mfree)
    (hlen : b.len = len + k) (hpos : 0 < len) (hg : g = ⟨b.base + k, len, k, use⟩) :
    Inv ⟨⟨l ++ b.grant use cnone memflags :: r, rest⟩, g :: g.besides s.held⟩ ∧ ∀ p,
      (g.Has p → s.tab.attr p = some (b.type, mfree, b.color) ∧
        viewOf (l ++ b.grant use cnone memflags :: r) p = some (b.type, use, b.color)) ∧
      (¬ g.Has p → viewOf (l ++ b.grant use cnone memflags :: r) p = s.tab.attr p) := by
  subst hg
  have hfull := hr.good.laid.full b (mem_append_right l mem_cons_self)
  have hgood : Good ⟨l ++ b.grant use cnone memflags :: r, rest⟩ := hr.good.swap rfl rfl
  have hhas : ∀ p, Range.Has ⟨b.base + k, len, k, use⟩ p ↔ In Adrmap.base Adrmap.fin p b := by
    intro p
    simp only [Range.Has, Range.lo, Range.hi, In, Adrmap.fin]
    omega
  have hin : ∀ p, In Adrmap.base Adrmap.fin p b →
      s.tab.attr p = some (b.type, mfree, b.color) ∧
      viewOf (l ++ b.grant use cnone memflags :: r) p = some (b.type, use, b.color) := by
    intro p hp
    constructor
    · rw [← hr.attr p]
      have hmid : viewOf (l ++ b :: r) p = some b.attr := hr.good.laid.view_mid hp
      rw [Adrmap.attr, hfree] at hmid
      exact hmid
    · exact @Extents.Layout.view_mid _ _ _ _ Adrmap.attr _ _ (b.grant use cnone memflags) _ hgood.laid hp
  have hout : ∀ p, ¬ In Adrmap.base Adrmap.fin p b →
      viewOf (l ++ b.grant use cnone memflags :: r) p = s.tab.attr p := by
    intro p hp
    rw [← hr.attr p]
    exact view_replace rfl rfl hp
  refine ⟨⟨hgood, ?_, ?_⟩, fun p => ⟨fun hp => hin p ((hhas p).mp hp),
    fun hp => hout p (fun hpb => hp ((hhas p).mpr hpb))⟩⟩
  · intro h hh
    rcases List.mem_cons.mp hh with rfl | hh
    · refine ⟨Nat.le_add_left k b.base, hpos, fun hu => ?_, fun hu p hp => ?_⟩
      · refine ⟨b.grant use cnone memflags, mem_append_right l mem_cons_self, ?_, ?_, rfl⟩
        · simp only [Range.lo, Nat.add_sub_cancel]
          rfl
        · simp only [Range.hi, Adrmap.fin, Adrmap.grant, hlen]
          omega
      · obtain ⟨-, hnew⟩ := hin p ((hhas p).mp hp)
        rw [show use = mfree from hu] at hnew
        refine ⟨b.type, b.color, ?_⟩
        rw [show use = mfree from hu]
        exact hnew
    · obtain ⟨hmem, hapart⟩ := besides_apart h hh
      have hsame : b.base + k - k = b.base ∧ b.base + k + len = b.fin := by
        unfold Adrmap.fin
        omega
      simp only [Range.lo, Range.hi, hsame.1, hsame.2] at hapart
      exact ((hi.stands h hmem).of_refines hr).of_swap rfl rfl hfull hapart
  · refine List.pairwise_cons.mpr ⟨fun h hh => ?_, hi.apart.filter _⟩
    exact (besides_apart h hh).2.symm

theorem adralloc_step {base len : Nat} {align type : Int} {use : UInt8} {memflags : Nat}
    (hi : Inv s) (hall : Allowed s (.adralloc base len align type use memflags))
    (hrun : step s (.adralloc base len align type use memflags) = some (t, n)) :
    Inv t ∧ Outcome s t n (.adralloc base len align type use memflags) := by
  obtain ⟨hrest, hpos, hover, hslop, hslops⟩ := hall
  obtain ⟨⟨tab', n'⟩, halloc, heq⟩ := Option.map_eq_some_iff.mp hrun
  have hspec := @intadralloc_spec _ _ _ _ _ _ _ _ hpos hover hslop [] _ _ hi.good hslops halloc
  simp only [] at heq
  cases hspec with
  | fail hr =>
    rw [if_pos rfl] at heq
    cases heq
    exact ⟨⟨hr.good, fun g hg => (hi.stands g hg).of_refines hr, hi.apart⟩,
      Or.inl ⟨rfl, hr.attr⟩⟩
  | grant l r b hr hfree htype hlen hmap =>
    obtain ⟨map', rest'⟩ := tab'
    change map' = _ at hmap
    subst hmap
    have htop := hr.good.top b (mem_append_right l mem_cons_self)
    have hne : b.base + slop b.base align ≠ nomem := by
      unfold Adrmap.fin at htop
      unfold nomem
      omega
    rw [if_neg hne] at heq
    have hgood : Good ⟨l ++ b.grant use cnone memflags :: r, rest'⟩ := hr.good.swap rfl rfl
    have hg : granted ⟨l ++ b.grant use cnone memflags :: r, rest'⟩ (b.base + slop b.base align)
        len use = ⟨b.base + slop b.base align, len, slop b.base align, use⟩ :=
      granted_eq hgood.laid hlen hpos
    obtain ⟨hinv, hattr⟩ := grant_step memflags hi hr hfree hlen hpos hg
    obtain ⟨haligned, hslt⟩ := slop_spec hpos (Nat.le_of_eq hlen.symm) htop
    cases heq
    refine ⟨hinv, Or.inr ⟨hne, haligned, _, mem_cons_self, ?_⟩⟩
    rw [hg] at hattr ⊢
    refine ⟨rfl, rfl, Nat.le_add_left _ _, hslt, fun p => ⟨fun hp => ?_, (hattr p).2⟩⟩
    obtain ⟨hold, hnew⟩ := (hattr p).1 hp
    exact ⟨b.type, b.color, htype, hold, hnew⟩

/-- The entry that `adrlook` finds for a result of the use `Mfree` is a free one. -/
theorem Stands.free_entry {m : Adrmap} (hs : Stands tab g) (hgood : Good tab) (hu : g.use = mfree)
    (hm : m ∈ tab.map) (hbase : m.base ≤ g.base)
    (hlen : uintmem (g.base + g.len - m.base) ≤ m.len) : m.use = mfree := by
  have hpos := hs.len
  have hattr : ∀ p, g.Has p → ∃ e ∈ tab.map, In Adrmap.base Adrmap.fin p e ∧ e.use = mfree := by
    intro p hp
    obtain ⟨ty, c, hattr⟩ := hs.free hu p hp
    obtain ⟨e, he, hin, hval⟩ := view_eq_some hattr
    exact ⟨e, he, hin, congrArg (fun v => v.2.1) hval⟩
  -- the end of the range is below the last address, so the comparison did not overflow
  obtain ⟨last, hlast, hinlast, -⟩ := hattr (g.base + g.len - 1) (by
    unfold Range.Has Range.lo Range.hi
    omega)
  have htop := hgood.top last hlast
  obtain ⟨e, he, hin, hfree⟩ := hattr g.base (by
    unfold Range.Has Range.lo Range.hi
    omega)
  have hmin : In Adrmap.base Adrmap.fin g.base m := by
    unfold In uintmem at *
    unfold Adrmap.fin at *
    omega
  rw [hgood.laid.eq_of_in hm he hmin hin]
  exact hfree

/-- The entry at an index, and what is on both sides of it. -/
theorem split_at {map : List Adrmap} {j : Nat} {m : Adrmap} (h : map[j]? = some m) :
    ∃ l r, map = l ++ m :: r ∧ l.length = j := by
  obtain ⟨hj, heq⟩ := List.getElem?_eq_some_iff.mp h
  refine ⟨map.take j, map.drop (j + 1), ?_, length_take_of_le (Nat.le_of_lt hj)⟩
  rw [← heq, ← drop_eq_getElem_cons hj, take_append_drop]

theorem adrfree_step {base len : Nat} (hi : Inv s) (hall : Allowed s (.adrfree base len)) :
    ∃ t, step s (.adrfree base len) = some (t, 0) ∧ Inv t ∧ Outcome s t 0 (.adrfree base len) := by
  obtain ⟨hrest, g, hg, rfl, rfl⟩ := hall
  have hs := hi.stands g hg
  have hslop := hs.slop
  have hlen := hs.len
  -- the other results that stand are apart from the one that is freed
  have hother : ∀ h ∈ s.held.filter (fun h => decide (¬ (h.base = g.base ∧ h.len = g.len))),
      h ∈ s.held ∧ (h.hi ≤ g.lo ∨ g.hi ≤ h.lo) := by
    intro h hh
    obtain ⟨hmem, hcond⟩ := List.mem_filter.mp hh
    have hne : h ≠ g := by
      rintro rfl
      simp at hcond
    have hsymm : Std.Symm fun g h : Range => g.hi ≤ h.lo ∨ h.hi ≤ g.lo := ⟨fun _ _ => Or.symm⟩
    exact ⟨hmem, hi.apart.forall hmem hg hne⟩
  by_cases hu : g.use = mfree
  · -- nothing was taken, so nothing is given back
    have hsame : adrfree s.tab g.base g.len = some s.tab := by
      rw [adrfree]
      split
      next => rfl
      next j hlook =>
        obtain ⟨m, hm, hmb, hml⟩ := look_sound hlook
        simp only [hm]
        exact if_pos (hs.free_entry hi.good hu (mem_of_getElem? hm) hmb hml)
    refine ⟨⟨s.tab, s.held.filter fun h => decide (¬ (h.base = g.base ∧ h.len = g.len))⟩, ?_, ?_, ?_⟩
    · simp only [step, hsame, map_some]
    · exact ⟨hi.good, fun h hh => hi.stands h (hother h hh).1, hi.apart.filter _⟩
    · refine ⟨g, hg, rfl, rfl, fun p => ⟨fun hp => ?_, fun _ => rfl⟩⟩
      obtain ⟨ty, c, hattr⟩ := hs.free hu p hp
      exact ⟨ty, mfree, c, hattr, hattr⟩
  · obtain ⟨e, he, hlo, hhi, heu⟩ := hs.used hu
    have hbase : e.base ≤ g.base := by
      rw [hlo]
      exact Nat.sub_le _ _
    have hfin : g.base + g.len ≤ e.fin := Nat.le_of_eq hhi.symm
    obtain ⟨j, m, hlook, hget, -, -, hm⟩ := adrlook_finds hi.good he hbase hfin
    cases hm hlen
    obtain ⟨l, r, hmap, rfl⟩ := split_at hget
    obtain ⟨tab', hrun, hr⟩ := adrfree_spec hi.good hmap hrest hlook (heu ▸ hu)
    have hlaid := hi.good.laid
    rw [hmap] at hlaid
    have hfull := hlaid.full e (mem_append_right l mem_cons_self)
    have hhas : ∀ p, g.Has p ↔ In Adrmap.base Adrmap.fin p e := by
      intro p
      rw [Range.Has, In, hlo, hhi]
    refine ⟨⟨tab', s.held.filter fun h => decide (¬ (h.base = g.base ∧ h.len = g.len))⟩, ?_, ?_, ?_⟩
    · simp only [step, hrun, map_some]
    · refine ⟨hr.good, fun h hh => ?_, hi.apart.filter _⟩
      obtain ⟨hmem, hapart⟩ := hother h hh
      have hstands : Stands ⟨l ++ e :: r, s.tab.rest⟩ h := by
        have := hi.stands h hmem
        rwa [show s.tab = ⟨l ++ e :: r, s.tab.rest⟩ by rw [← hmap]] at this
      rw [← hlo, ← hhi] at hapart
      exact (hstands.of_swap (b := e.freed) rfl rfl hfull hapart).of_refines hr
    · refine ⟨g, hg, rfl, rfl, fun p => ⟨fun hp => ?_, fun hp => ?_⟩⟩
      · have hold : s.tab.attr p = some e.attr := by
          rw [Tab.attr, hmap]
          exact hlaid.view_mid ((hhas p).mp hp)
        have hnew : tab'.attr p = some e.freed.attr := by
          rw [hr.attr]
          exact (hlaid.replace (b := e.freed) (Nat.le_refl _) (Nat.le_refl _) hfull).view_mid
            ((hhas p).mp hp)
        exact ⟨e.type, e.use, e.color, hold, hnew⟩
      · change tab'.attr p = s.tab.attr p
        rw [hr.attr, Tab.attr, Tab.attr, hmap]
        exact view_replace rfl rfl (fun hpm => hp ((hhas p).mpr hpm))

theorem Inv.step {op : Op} (hi : Inv s) (hall : Allowed s op) (hrun : step s op = some (t, n)) :
    Inv t ∧ Outcome s t n op := by
  cases op with
  | insert a =>
    cases hrun
    exact insert_step hi hall
  | adralloc base len align type use memflags => exact adralloc_step hi hall hrun
  | adrfree base len =>
    obtain ⟨t', hrun', hinv, hout⟩ := adrfree_step hi hall
    cases hrun.symm.trans hrun'
    exact ⟨hinv, hout⟩

theorem inv_start : Inv ⟨Tab.start, []⟩ := by
  refine ⟨⟨⟨List.Pairwise.nil, fun e he => ?_⟩, fun e he => ?_, fun x hx => ?_⟩, fun g hg => ?_,
    List.Pairwise.nil⟩
  · cases he
  · cases he
  · rw [eq_of_mem_replicate hx]
    exact Or.inl rfl
  · cases hg

theorem reach_inv (hr : Reach s) : Inv s := by
  refine StepSystem.Reach.invariant Inv ?_ ?_ hr
  · rintro s rfl
    exact inv_start
  · intro s op t hi hstep
    obtain ⟨hall, n, hrun⟩ := hstep
    exact (hi.step hall hrun).1

/-- An address that the map covers. -/
def Tab.Covered (tab : Tab) (p : Nat) : Prop := tab.attr p ≠ none

theorem Outcome.covered {op : Op} (h : Outcome s t n op) (hp : s.tab.Covered p) :
    t.tab.Covered p := by
  unfold Tab.Covered at *
  cases op with
  | insert a =>
    obtain ⟨hin, hout⟩ := h p
    by_cases hpa : In Adrmap.base Adrmap.fin p a
    · rw [(hin hpa).2]
      exact some_ne_none _
    · rwa [hout hpa]
  | adralloc base len align type use memflags =>
    rcases h with ⟨-, hsame⟩ | ⟨-, -, g, -, -, -, -, -, hattr⟩
    · rwa [hsame]
    · obtain ⟨hin, hout⟩ := hattr p
      by_cases hpg : g.Has p
      · obtain ⟨ty, c, -, -, hnew⟩ := hin hpg
        rw [hnew]
        exact some_ne_none _
      · rwa [hout hpg]
  | adrfree base len =>
    obtain ⟨g, -, -, -, hattr⟩ := h
    obtain ⟨hin, hout⟩ := hattr p
    by_cases hpg : g.Has p
    · obtain ⟨ty, u, c, -, hnew⟩ := hin hpg
      rw [hnew]
      exact some_ne_none _
    · rwa [hout hpg]

/-- **The map of physical addresses, over whole runs.**  In every state that allowed calls
reach, the entries are sorted and apart, and `adrlook` finds the entry of a range that has one.
Every allowed call returns, unless `adralloc` finds less than two free slots; no address leaves
the map; and types, uses and colours change only as the call says. -/
theorem adr_map_ok (hr : Reach s) :
    (s.tab.map.Pairwise fun a b => a.base < b.base ∧ a.base + a.len ≤ b.base) ∧
    (∀ e ∈ s.tab.map, ∀ pa len, e.base ≤ pa → pa + len ≤ e.base + e.len →
      ∃ j m, adrlook s.tab pa len = some j ∧ s.tab.map[j]? = some m ∧ m.base ≤ pa ∧
        pa + len ≤ m.base + m.len ∧ (0 < len → m = e)) ∧
    ∀ op, Allowed s op →
      (Adr.step s op = none → (∃ base len align type use memflags,
        op = .adralloc base len align type use memflags) ∧ s.tab.rest.length < 2) ∧
      ∀ t n, Adr.step s op = some (t, n) →
        (∀ p, s.tab.Covered p → t.tab.Covered p) ∧ Outcome s t n op := by
  have hi := reach_inv hr
  refine ⟨?_, ?_, ?_⟩
  · refine hi.good.laid.apart.imp_of_mem fun {a b} ha hb hab => ⟨?_, hab⟩
    have hfull := hi.good.laid.full a ha
    unfold Adrmap.fin at hfull
    omega
  · intro e he pa len hbase hfin
    exact adrlook_finds hi.good he hbase hfin
  · intro op hall
    refine ⟨fun hnone => ?_, fun t n hrun => ?_⟩
    · cases op with
      | insert a => cases hnone
      | adralloc base len align type use memflags =>
          refine ⟨⟨base, len, align, type, use, memflags, rfl⟩, ?_⟩
          obtain ⟨-, hpos, hover, -, -⟩ := hall
          exact @intadralloc_none _ _ _ _ _ _ _ hpos hover [] _ _ hi.good (Option.map_eq_none_iff.mp hnone)
      | adrfree base len =>
          obtain ⟨t, hrun, -⟩ := adrfree_step hi hall
          rw [hrun] at hnone
          cases hnone
    · obtain ⟨-, hout⟩ := hi.step hall hrun
      exact ⟨fun p hp => hout.covered hp, hout⟩

/-- One megabyte of free memory at 1 MiB. -/
def megabyte : Adrmap := ⟨0x100000, 0x100000, amemory, mfree, 0, 0⟩

/-- The map with that memory and nothing else. -/
def small : Sys := ⟨⟨[megabyte], List.replicate 399 Adrmap.zero⟩, []⟩

theorem small_reached : Reach small := by
  have hstart : Reach ⟨Tab.start, []⟩ := StepSystem.Reach.start rfl
  have hallowed : Allowed ⟨Tab.start, []⟩ (.insert megabyte) :=
    ⟨by decide, by decide, by decide, fun e he => by cases he⟩
  exact hstart.next ⟨hallowed, 0, rfl⟩

/-- A page out of that memory, aligned to a page. -/
theorem small_page : Adr.step small (.adralloc 0 0x1000 0x1000 1 mkpage 0) =
    some (⟨⟨[(megabyte.upto 0x1000).grant mkpage cnone 0, megabyte.behind 0x1000],
      List.replicate 398 Adrmap.zero⟩, [⟨0x100000, 0x1000, 0, mkpage⟩]⟩, 0x100000) := by
  have halloc : adralloc small.tab 0 0x1000 0x1000 1 mkpage 0 =
      some (⟨[(megabyte.upto 0x1000).grant mkpage cnone 0, megabyte.behind 0x1000],
        List.replicate 398 Adrmap.zero⟩, 0x100000) := by
    rw [adralloc, show small.tab.map = [megabyte] from rfl,
      show small.tab.rest = Adrmap.zero :: List.replicate 398 Adrmap.zero from rfl,
      intadralloc_cons, if_neg (by decide), if_neg (by decide), if_neg (by decide),
      if_neg (by decide), if_pos (by decide)]
    rfl
  simp only [step, halloc, map_some]
  rfl

/-- The calls of the theorem, at a page: the lookup finds the memory, and the page, once
allocated, is in use. -/
theorem adr_map_ok_page : ∃ t ty c,
    Adr.step small (.adralloc 0 0x1000 0x1000 1 mkpage 0) = some (t, 0x100000) ∧
      t.tab.attr 0x100fff = some (ty, mkpage, c) ∧
      ∃ j, adrlook small.tab 0x180000 8 = some j ∧ small.tab.map[j]? = some megabyte := by
  obtain ⟨-, hlook, hops⟩ := adr_map_ok small_reached
  have hallowed : Allowed small (.adralloc 0 0x1000 0x1000 1 mkpage 0) := by
    refine ⟨by decide, by decide, by decide, by decide, fun e he => ?_⟩
    rw [List.mem_singleton.mp he]
    decide
  obtain ⟨-, hdone⟩ := hops _ hallowed
  obtain ⟨-, hout⟩ := hdone _ _ small_page
  obtain ⟨j, m, hj, hm, -, -, heq⟩ := hlook megabyte mem_cons_self 0x180000 8 (by decide)
    (by decide)
  rcases hout with ⟨hfail, -⟩ | ⟨-, -, g, -, hbase, hlen, -, -, hattr⟩
  · exact absurd hfail (by decide)
  · obtain ⟨ty, c, -, -, hnew⟩ := (hattr 0x100fff).1 (by
      unfold Range.Has Range.lo Range.hi
      omega)
    exact ⟨_, ty, c, small_page, hnew, j, hj, heq (by decide) ▸ hm⟩

/-- An entry of length 0 behind that memory. -/
def emptyRange : Adrmap := ⟨0x200000, 0, amemory, mkpage, 0, 0⟩

theorem empty_look (rest : List Adrmap) :
    adrlook ⟨[megabyte, emptyRange], rest⟩ 0x200000 0 = some 1 := by
  have hm : [megabyte, emptyRange][0 + 2 / 2]? = some emptyRange := rfl
  change look [megabyte, emptyRange] 0x200000 0 0 2 = some 1
  rw [look_some (by decide) hm, if_pos (by decide), if_pos (by decide)]

theorem empty_free (rest : List Adrmap) :
    adrfree ⟨[megabyte, emptyRange], rest⟩ 0x200000 0 = none := by
  simp only [adrfree, empty_look]
  rfl

/-- **An empty range at the end of the map.**  Allocating it makes an entry of length 0 there,
and freeing it joins that entry with the memory in front of it; then the slot it was in is taken
for the next neighbour, and `memmove` is told to move -1 entries. -/
theorem empty_range_runs_away :
    ∃ t, Adr.step small (.adralloc 0x200000 0 0 1 mkpage 0) = some (t, 0x200000) ∧
      (∃ g ∈ t.held, g.base = 0x200000 ∧ g.len = 0) ∧
      Adr.step t (.adrfree 0x200000 0) = none := by
  have halloc : adralloc small.tab 0x200000 0 0 1 mkpage 0 =
      some (⟨[megabyte, emptyRange], List.replicate 398 Adrmap.zero⟩, 0x200000) := by
    rw [adralloc, show small.tab.map = [megabyte] from rfl,
      show small.tab.rest = Adrmap.zero :: List.replicate 398 Adrmap.zero from rfl,
      intadralloc_cons, if_neg (by decide), if_neg (by decide), if_pos (by decide)]
    simp only []
    rw [intadralloc_cons, if_neg (by decide), if_neg (by decide), if_neg (by decide),
      if_neg (by decide), if_neg (by decide)]
    rfl
  refine ⟨⟨⟨[megabyte, emptyRange], List.replicate 398 Adrmap.zero⟩,
    [⟨0x200000, 0, 0, mkpage⟩]⟩, ?_, ?_, ?_⟩
  · simp only [step, halloc, map_some]
    rfl
  · exact ⟨⟨0x200000, 0, 0, mkpage⟩, mem_cons_self, rfl, rfl⟩
  · simp only [step, empty_free, map_none]

end Adr
