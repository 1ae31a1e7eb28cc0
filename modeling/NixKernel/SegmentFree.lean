import NixKernel.SegmentFlush
import NixKernel.SegmentTables

/-!
# segfree

`syssegfree` gives the pages of a range back: it rounds the start up and the end
down to whole pages and hands what is left to `mfreeseg`.  A range that does not
start in a segment of the process, or whose last whole page ends behind the
segment, is refused.

The page size is that of the `Physseg` that the segment was attached from.  The
results are for segments that have one, and ranges that it rounds as their own page
size does.
-/

namespace Vmem

open Option

variable {gig : Bool} {v : Vm} {p id : Nat} {s : Segment}

/-- `syssegfree`: the state, the pages given back, and the error.  `pseg` says which
page size the `Physseg` of a segment has; `none` is a nil pointer, or an index outside of
the segment's tables. -/
def Vm.segfree (gig : Bool) (v : Vm) (p : Nat) (pseg : Nat → Option Nat) (start len : Nat) :
    Option ((Vm × List Page) × Except String Unit) :=
  match v.segAt p start with
  | none => some ((v, []), .error ebadarg)
  | some id =>
    let s := v.segs id
    (pseg id).bind fun pgszi =>
      let size := pgsz gig pgszi
      let stop := (start + len) % 2 ^ 64 / size * size
      if stop < start ∨ s.top < stop then some ((v, []), .error ebadarg)
      else
        (s.mfreeseg gig (roundup start size) stop).map fun r =>
          ((v.setSeg id r.1, r.2), .ok ())

/-- The page of an address lies wholly inside the range. -/
def Whole (size start len va : Nat) : Prop :=
  start ≤ va / size * size ∧ va / size * size + size ≤ start + len

instance (size start len va : Nat) : Decidable (Whole size start len va) :=
  inferInstanceAs (Decidable (_ ∧ _))

/-- The addresses of the pages wholly inside the range. -/
def wholePages (size start len : Nat) : List Nat :=
  (List.range ((start + len) / size - (start + size - 1) / size)).map fun k =>
    ((start + size - 1) / size + k) * size

/-- The pages of `s` wholly inside the range are gone from `t`, each given back once, and
the others are in `t` as they are in `s`. -/
def Segment.GivesBack (gig : Bool) (s t : Segment) (start len : Nat) (freed : List Page) : Prop :=
  (∀ va, s.base ≤ va → va < s.top →
      t.page gig va = if Whole (pgsz gig s.pgszi) start len va then none else s.page gig va) ∧
    freed = ((wholePages (pgsz gig s.pgszi) start len).filter fun va => va < s.top).filterMap
      (s.page gig)

/-- All but the tables of the segment is as it was. -/
structure Vm.OnlyTables (v v' : Vm) (id : Nat) : Prop where
  procs : v'.procs = v.procs
  others : ∀ a, a ≠ id → v'.segs a = v.segs a
  segment : v'.segs id = { v.segs id with map := (v'.segs id).map }

/-- Of the segment the range starts in, exactly the pages wholly inside the range and the
segment are given back. -/
def Vm.OnlyWhole (gig : Bool) (v v' : Vm) (p start len : Nat) (freed : List Page) : Prop :=
  ∀ id, v.segAt p start = some id →
    v.OnlyTables v' id ∧ (v.segs id).GivesBack gig (v'.segs id) start len freed

/-- What `segfree` is for: the range is accepted, and exactly its whole pages are given back. -/
def Vm.FreesExactly (gig : Bool) (v : Vm) (p : Nat) (pseg : Nat → Option Nat) (start len : Nat) : Prop :=
  ∃ v' freed, v.segfree gig p pseg start len = some ((v', freed), .ok ()) ∧ v.OnlyWhole gig v' p start len freed

/-- The range is refused: it starts in no segment of the process, holds no end of a page, or its
last page ends behind the segment. -/
def Vm.Refuses (gig : Bool) (v : Vm) (p start len : Nat) : Prop :=
  ∀ id, v.segAt p start = some id →
    (start + len) / pgsz gig (v.segs id).pgszi * pgsz gig (v.segs id).pgszi < start ∨
      (v.segs id).top < (start + len) / pgsz gig (v.segs id).pgszi * pgsz gig (v.segs id).pgszi

/-- A page size rounds both ends of a range as `g` does. -/
def RoundsAs (size g start len : Nat) : Prop :=
  roundup start size = roundup start g ∧
    (start + len) % 2 ^ 64 / size * size = (start + len) % 2 ^ 64 / g * g

/-- The segment that a range starts in is laid out well, with right tables, its `Physseg` has a
page size that rounds the range as its own does, and less than 2^31 whole pages are in the range. -/
structure Vm.Attached (gig : Bool) (v : Vm) (p : Nat) (pseg : Nat → Option Nat) (start len : Nat) : Prop where
  laid : ∀ id, v.segAt p start = some id → (v.segs id).Laid gig
  tabled : ∀ id, v.segAt p start = some id → (v.segs id).Tabled gig
  size : ∀ id, v.segAt p start = some id → (v.segs id).top - (v.segs id).base < 2 ^ 61
  pages : ∀ id, v.segAt p start = some id →
    (wholePages (pgsz gig (v.segs id).pgszi) start len).length < 2 ^ 31
  pseg : ∀ id, v.segAt p start = some id →
    ∃ i, pseg id = some i ∧ RoundsAs (pgsz gig i) (pgsz gig (v.segs id).pgszi) start len

section Pages

variable {g start len va : Nat}

/-- An address is in a whole page of the range if it is between the two rounded ends. -/
theorem whole_iff (hg : 0 < g) :
    Whole g start len va ↔ (start + g - 1) / g * g ≤ va ∧ va < (start + len) / g * g := by
  have hlow : start ≤ va / g * g ↔ (start + g - 1) / g * g ≤ va := by
    rw [← Nat.le_div_iff_mul_le hg]
    have hceil : (start + g - 1) / g ≤ va / g ↔ start + g - 1 < (va / g + 1) * g := by
      rw [← Nat.lt_succ_iff, Nat.div_lt_iff_lt_mul hg]
    rw [hceil, Nat.succ_mul]
    omega
  have hhigh : va / g * g + g ≤ start + len ↔ va < (start + len) / g * g := by
    rw [← Nat.div_lt_iff_lt_mul hg, ← Nat.succ_mul, ← Nat.le_div_iff_mul_le hg]
    rfl
  rw [Whole, hlow, hhigh]

/-- Rounding an address up, where there is no wrap. -/
theorem roundup_eq (hg : g ∣ ptemapmem) (hlt : start + ptemapmem ≤ 2 ^ 64) :
    roundup start g = (start + g - 1) / g * g := by
  have hpos : 0 < g := Nat.pos_of_dvd_of_pos hg (by decide)
  have hle : g ≤ ptemapmem := Nat.le_of_dvd (by decide) hg
  have hsum : start + (g - 1) = start + g - 1 := by omega
  have hround : (start + g - 1) / g * g ≤ start + g - 1 := Nat.div_mul_le_self _ _
  unfold roundup howmany
  rw [hsum, Nat.mod_eq_of_lt (show start + g - 1 < 2 ^ 64 by omega), Nat.mod_eq_of_lt (by omega)]

end Pages

/-- The numbers of the code, which wrap, refuse what the same numbers without a wrap refuse. -/
theorem refused_iff {g start len top : Nat} (hg : g ∣ ptemapmem) (hstart : start < top)
    (htop : top < 2 ^ 64) (hlen : len < 2 ^ 64) :
    ((start + len) % 2 ^ 64 / g * g < start ∨ top < (start + len) % 2 ^ 64 / g * g) ↔
      ((start + len) / g * g < start ∨ top < (start + len) / g * g) := by
  rcases Nat.lt_or_ge (start + len) (2 ^ 64) with hsmall | hwrap
  · rw [Nat.mod_eq_of_lt hsmall]
  · have hword : g ∣ 2 ^ 64 := Nat.dvd_trans hg (by decide)
    have hdown : (start + len) % 2 ^ 64 / g * g ≤ (start + len) % 2 ^ 64 := Nat.div_mul_le_self _ _
    have hup : 2 ^ 64 / g * g ≤ (start + len) / g * g :=
      Nat.mul_le_mul_right g (Nat.div_le_div_right hwrap)
    rw [Nat.div_mul_cancel hword] at hup
    exact iff_of_true (Or.inl (by omega)) (Or.inr (by omega))

section Free

variable {start len : Nat} {pseg : Nat → Option Nat}

/-- A range that is not refused is one that `mfreeseg` can count. -/
theorem counts_of_not_refused (hl : s.Laid gig) (hsize : s.top - s.base < 2 ^ 61)
    (hfew : (wholePages (pgsz gig s.pgszi) start len).length < 2 ^ 31)
    (hbase : s.base ≤ start) (htop : start < s.top)
    (hlow : ¬(start + len) / pgsz gig s.pgszi * pgsz gig s.pgszi < start)
    (hhigh : ¬s.top < (start + len) / pgsz gig s.pgszi * pgsz gig s.pgszi) :
    s.Counts gig ((start + pgsz gig s.pgszi - 1) / pgsz gig s.pgszi * pgsz gig s.pgszi)
      ((start + len) / pgsz gig s.pgszi * pgsz gig s.pgszi) := by
  have hg := pgsz_pos gig s.pgszi
  have hgle : pgsz gig s.pgszi ≤ ptemapmem := Nat.le_of_dvd (by decide) hl.dvd_ptemapmem
  have huser := hl.user
  have hunit : ptemapmem = 2 ^ 30 := rfl
  have hdvdstart : pgsz gig s.pgszi ∣ (start + pgsz gig s.pgszi - 1) / pgsz gig s.pgszi * pgsz gig s.pgszi :=
    Nat.dvd_mul_left _ _
  have hdvdstop : pgsz gig s.pgszi ∣ (start + len) / pgsz gig s.pgszi * pgsz gig s.pgszi :=
    Nat.dvd_mul_left _ _
  have hround := Nat.div_add_mod' (start + pgsz gig s.pgszi - 1) (pgsz gig s.pgszi)
  have hrest := Nat.mod_lt (start + pgsz gig s.pgszi - 1) hg
  have hbasedvd := hl.base
  have hfew : (start + len) / pgsz gig s.pgszi * pgsz gig s.pgszi -
      (start + pgsz gig s.pgszi - 1) / pgsz gig s.pgszi * pgsz gig s.pgszi < 2 ^ 31 * pgsz gig s.pgszi := by
    rw [wholePages, List.length_map, List.length_range] at hfew
    rw [← Nat.sub_mul]
    exact Nat.mul_lt_mul_of_pos_right hfew hg
  unfold Segment.Counts
  generalize pgsz gig s.pgszi = g at *
  generalize (start + g - 1) / g * g = from' at *
  generalize (start + len) / g * g = stop at *
  -- The rounded start is still not behind the rounded end.
  have hle : from' ≤ stop := le_of_dvd_of_lt hdvdstart hdvdstop (by omega)
  rcases Nat.lt_or_ge from' stop with hlt | hge
  · refine Or.inr ⟨by omega, hlt, by omega, ?_, Nat.dvd_sub hdvdstart hbasedvd,
      Nat.dvd_sub hdvdstop hdvdstart, by omega⟩
    omega
  · exact Or.inl ⟨hge, by omega, by omega⟩

/-- What `mfreeseg` does with a range of whole pages is giving them back. -/
theorem givesBack_of_exactFree {g stop : Nat} {t : Segment} {freed : List Page}
    (hg : g = pgsz gig s.pgszi) (hstop : stop = (start + len) / g * g) (htop : stop ≤ s.top)
    (hword : s.top < 2 ^ 64)
    (hclear : ∀ va, s.base ≤ va → va < 2 ^ 64 →
      t.page gig va = if (start + g - 1) / g * g ≤ va ∧ va < stop then none else s.page gig va)
    (hfreed : freed = (List.range ((stop - (start + g - 1) / g * g) / g)).filterMap fun k =>
      s.page gig ((start + g - 1) / g * g + k * g)) :
    s.GivesBack gig t start len freed := by
  have hpos : 0 < g := hg ▸ pgsz_pos gig s.pgszi
  constructor
  · intro va hva hlt
    rw [hclear va hva (by omega), hstop, ← hg]
    exact if_congr (whole_iff hpos).symm rfl rfl
  · have hcount : (stop - (start + g - 1) / g * g) / g = (start + len) / g - (start + g - 1) / g := by
      rw [hstop, ← Nat.sub_mul, Nat.mul_div_cancel _ hpos]
    have hinside : (wholePages g start len).filter (fun va => va < s.top) = wholePages g start len := by
      rw [List.filter_eq_self]
      intro va hva
      obtain ⟨k, hk, rfl⟩ := List.mem_map.mp hva
      have hk := List.mem_range.mp hk
      have hmul : ((start + g - 1) / g + k) * g < (start + len) / g * g :=
        Nat.mul_lt_mul_of_pos_right (by omega) hpos
      exact decide_eq_true (by omega)
    rw [← hg, hinside, wholePages, List.filterMap_map, hfreed, hcount]
    refine List.filterMap_congr fun k _ => ?_
    rw [Function.comp_apply, Nat.add_mul]

/-- The segment that is found changes only in its tables. -/
theorem onlyTables_setSeg {t : Segment} (h : t = { v.segs id with map := t.map }) :
    v.OnlyTables (v.setSeg id t) id := by
  have hat : (v.setSeg id t).segs id = t := Function.update_self _ _ _
  refine ⟨rfl, fun a ha => Function.update_of_ne ha _ _, ?_⟩
  rw [hat]
  exact h

/-- **`segfree` refuses a range, or gives back exactly its whole pages.** -/
theorem segfree_exact (h : v.Attached gig p pseg start len) (hlen : len < 2 ^ 64) :
    (v.Refuses gig p start len →
      v.segfree gig p pseg start len = some ((v, []), .error ebadarg)) ∧
    (¬v.Refuses gig p start len →
      v.FreesExactly gig p pseg start len) := by
  cases hseg : v.segAt p start with
  | none =>
      have hrun : v.segfree gig p pseg start len = some ((v, []), .error ebadarg) := by
        rw [Vm.segfree, hseg]
      refine ⟨fun _ => hrun, fun hnot => absurd (fun id hid => ?_) hnot⟩
      cases hseg.symm.trans hid
  | some id =>
      obtain ⟨_, _, _, hbase, htop⟩ := segAt_some hseg
      have hl := h.laid id hseg
      have huser := hl.user
      have hunit : ptemapmem = 2 ^ 30 := rfl
      obtain ⟨i, hpseg, hup, hdown⟩ := h.pseg id hseg
      have hrefuse := @refused_iff (pgsz gig (v.segs id).pgszi) start len (v.segs id).top
        hl.dvd_ptemapmem htop (by omega) hlen
      have hrefuses : v.Refuses gig p start len ↔
          ((start + len) / pgsz gig (v.segs id).pgszi * pgsz gig (v.segs id).pgszi < start ∨
            (v.segs id).top < (start + len) / pgsz gig (v.segs id).pgszi * pgsz gig (v.segs id).pgszi) := by
        constructor
        · intro hall
          exact hall id hseg
        · intro hcond id' hid'
          cases hseg.symm.trans hid'
          exact hcond
      rw [hrefuses]
      constructor
      · intro hcond
        rw [Vm.segfree, hseg]
        dsimp only
        rw [hpseg, Option.bind_some, hdown, if_pos (hrefuse.mpr hcond)]
      · intro hcond
        have hnot := mt hrefuse.mp hcond
        obtain ⟨hlow, hhigh⟩ := not_or.mp hcond
        have hcounts := counts_of_not_refused hl (h.size id hseg) (h.pages id hseg) hbase htop hlow hhigh
        obtain ⟨t, freed, hrun, hclear, hfreed⟩ := (h.tabled id hseg).exactFree hcounts
        have hstop : (start + len) % 2 ^ 64 = start + len := by
          apply Nat.mod_eq_of_lt
          have hrest := Nat.div_add_mod' (start + len) (pgsz gig (v.segs id).pgszi)
          have hless := Nat.mod_lt (start + len) (pgsz_pos gig (v.segs id).pgszi)
          have hpage := Nat.le_of_dvd (by decide) hl.dvd_ptemapmem
          omega
        refine ⟨v.setSeg id t, freed, ?_, fun id' hid' => ?_⟩
        · rw [Vm.segfree, hseg]
          dsimp only
          rw [hpseg, Option.bind_some, hdown, if_neg hnot, hstop, hup,
            roundup_eq hl.dvd_ptemapmem (by omega), hrun]
          rfl
        · cases hseg.symm.trans hid'
          refine ⟨onlyTables_setSeg ((mfreeTables_spec hrun).1), ?_⟩
          have hat : (v.setSeg id t).segs id = t := Function.update_self _ _ _
          rw [hat]
          exact givesBack_of_exactFree rfl rfl (by omega) (by omega) hclear hfreed

end Free

theorem twoPages_tabled : twoPages.Tabled false := by
  obtain ⟨s, hs⟩ := isSome_iff_exists.mp (show
    ((newseg false .bss (2 ^ 21) (3 * 2 ^ 21)).bind fun s =>
      (s.segpage false ⟨0, 2 ^ 21, 1, 0⟩).bind fun s =>
        s.segpage false ⟨2 ^ 21, 2 ^ 22, 1, 0⟩).isSome = true by rfl)
  have htwo : twoPages = s := by rw [twoPages, hs, getD_some]
  obtain ⟨s₀, hnew, hrest⟩ := bind_eq_some_iff.mp hs
  obtain ⟨s₁, hfirst, hsecond⟩ := bind_eq_some_iff.mp hrest
  rw [htwo]
  exact ((Segment.Tabled.newseg hnew).1.segpage hfirst).segpage hsecond

/-- The segment of two pages was attached from a `Physseg` of 2 MiB pages. -/
def bigPages (_ : Nat) : Option Nat := some 1

theorem twoPages_pgszi : twoPages.pgszi = 1 := by rfl

theorem oneSegment_attached {start len : Nat} (hlen : start + len < 2 ^ 31) :
    oneSegment.Attached false 0 bigPages start len := by
  obtain ⟨hbase, htop, hpgsz, _⟩ := twoPages_values
  refine ⟨fun id _ => oneSegment_laid.segment bseg 0 rfl, fun id _ => twoPages_tabled, fun id _ => ?_, fun id _ => ?_,
    fun id _ => ⟨1, rfl, ?_⟩⟩
  · change twoPages.top - twoPages.base < 2 ^ 61
    rw [hbase, htop]
    decide
  · rw [wholePages, List.length_map, List.length_range]
    calc (start + len) / pgsz false (oneSegment.segs id).pgszi -
          (start + pgsz false (oneSegment.segs id).pgszi - 1) / pgsz false (oneSegment.segs id).pgszi
        ≤ (start + len) / pgsz false (oneSegment.segs id).pgszi := Nat.sub_le _ _
      _ ≤ start + len := Nat.div_le_self _ _
      _ < 2 ^ 31 := hlen
  · change RoundsAs (pgsz false 1) (pgsz false twoPages.pgszi) start len
    rw [twoPages_pgszi]
    exact ⟨rfl, rfl⟩

/-- A range from the middle of the first page gives the second one back. -/
theorem segfree_exact_page : oneSegment.FreesExactly false 0 bigPages (2 ^ 21 + 5) (2 ^ 22 - 5) := by
  refine (segfree_exact (oneSegment_attached (by decide)) (by decide)).2 fun hrefuses => ?_
  obtain ⟨hbase, htop, hpgsz, _⟩ := twoPages_values
  have hseg : oneSegment.segAt 0 (2 ^ 21 + 5) = some 0 :=
    oneSegment_laid.segAt_eq (i := bseg) (by decide) rfl
      (by change twoPages.base ≤ _; rw [hbase]; decide) (by change _ < twoPages.top; rw [htop]; decide)
  have hcond := hrefuses 0 hseg
  change _ / pgsz false twoPages.pgszi * pgsz false twoPages.pgszi < _ ∨
    twoPages.top < _ / pgsz false twoPages.pgszi * pgsz false twoPages.pgszi at hcond
  rw [hpgsz, htop] at hcond
  exact absurd hcond (by decide)

/-- **A range that goes on behind the segment is refused**, with both pages of the segment wholly
inside it. -/
theorem segfree_refuses : ¬∃ v' freed r,
    oneSegment.segfree false 0 bigPages (2 ^ 21) (3 * 2 ^ 21) = some ((v', freed), r) ∧
      oneSegment.OnlyWhole false v' 0 (2 ^ 21) (3 * 2 ^ 21) freed := by
  obtain ⟨hbase, htop, hpgsz, _⟩ := twoPages_values
  have hseg : oneSegment.segAt 0 (2 ^ 21) = some 0 :=
    oneSegment_laid.segAt_eq (i := bseg) (by decide) rfl
      (by change twoPages.base ≤ _; rw [hbase]) (by change _ < twoPages.top; rw [htop]; decide)
  have hrun : oneSegment.segfree false 0 bigPages (2 ^ 21) (3 * 2 ^ 21) =
      some ((oneSegment, []), .error ebadarg) := by
    have hbig : bigPages 0 = some 1 := rfl
    rw [Vm.segfree, hseg]
    dsimp only
    rw [hbig, Option.bind_some, if_pos]
    refine Or.inr ?_
    change twoPages.top < _
    rw [htop]
    decide
  rintro ⟨v', freed, r, hfree, hall⟩
  rw [hrun] at hfree
  cases hfree
  have hpage := (hall 0 hseg).2.1 (2 ^ 21)
    (by change twoPages.base ≤ _; rw [hbase]) (by change _ < twoPages.top; rw [htop]; decide)
  change twoPages.page false (2 ^ 21) = if Whole (pgsz false twoPages.pgszi) _ _ _ then none else _ at hpage
  rw [hpgsz, if_pos (by decide)] at hpage
  have hsome : (twoPages.page false (2 ^ 21)).isSome = true := by decide +kernel
  rw [hpage] at hsome
  cases hsome

end Vmem
