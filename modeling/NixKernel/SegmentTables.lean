import NixKernel.SegmentCopy

/-!
# The tables of a segment

A `Pte` is a table of pages with two pointers, `first` and `last`, that grow as
pages are put in; `ptecpy`, `relocateseg` and `freepte` look only between them.
`mfreeseg` goes by counts instead: it starts in the table of the first address
and clears as many entries as the range has pages, passing over the tables that
are not there.
-/

namespace Vmem

open StepSystem List Option
open Function (update_self update_of_ne)

variable {gig : Bool} {s t : Segment}

/-- The entries of a table that the loops from `first` to `last` see. -/
def Pte.between (t : Pte) : List Page := (List.range' t.first (t.last + 1 - t.first)).filterMap t.pages

/-- `freepte`: the pages it puts.  The pages of a physical segment are looked for in the
whole table. -/
def Pte.freepte (t : Pte) (type : SegType) : List Page :=
  match type with
  | .physical => (List.range t.len).filterMap t.pages
  | .text | .data | .bss | .stack | .shared => t.between

/-- `relocateseg` for one table. -/
def Pte.relocate (t : Pte) (offset : Nat) : Pte :=
  { t with
    pages := fun j =>
      if t.first ≤ j ∧ j ≤ t.last then
        (t.pages j).map fun p => { p with va := (p.va + offset) % 2 ^ 64 }
      else t.pages j }

/-- `relocateseg`, with the segment moved as `sysexec` does before it. -/
def Segment.relocateseg (s : Segment) (offset : Nat) : Segment :=
  { s with
    base := (s.base + offset) % 2 ^ 64
    top := (s.top + offset) % 2 ^ 64
    map := fun i => if i < s.mapsize then (s.map i).map fun t => t.relocate offset else s.map i }

/-- What is done to the tables of a segment.  After `dupseg` the run goes on with the
segment that it returns. -/
inductive TableAct where
  | segpage (p : Page)
  | dupseg (segno : Nat) (share : Bool)
  | relocateseg (offset : Nat)
  | mfreeseg (start stop : Nat)
  | freepte (i : Nat)

def Dup.segment : Dup → Segment
  | .same s => s
  | .text s => s
  | .copy s => s

def Segment.tableAct (gig : Bool) (s : Segment) : TableAct → Option Segment
  | .segpage p => s.segpage gig p
  | .dupseg segno share => (dupseg gig s segno share fun _ => 1).map fun r => r.1.segment
  | .relocateseg offset => some (s.relocateseg offset)
  | .mfreeseg start stop => (s.mfreeseg gig start stop).map Prod.fst
  | .freepte i => some { s with map := Function.update s.map i none }

/-- Every page of every table is between `first` and `last`, in the table. -/
def Segment.Between (s : Segment) : Prop :=
  ∀ i t j p, s.map i = some t → t.pages j = some p → t.first ≤ j ∧ j ≤ t.last ∧ j < t.len

/-- `mfreeseg` touches no index outside of the map and the tables, takes out the pages of
the addresses from `start` to `stop`, leaves those of all others, and puts each page that
it takes out once. -/
def Segment.ExactFree (gig : Bool) (s : Segment) (start stop : Nat) : Prop :=
  ∃ t freed, s.mfreeseg gig start stop = some (t, freed) ∧
    (∀ va, s.base ≤ va → va < 2 ^ 64 →
      t.page gig va = if start ≤ va ∧ va < stop then none else s.page gig va) ∧
    freed = (List.range ((stop - start) / pgsz gig s.pgszi)).filterMap fun k =>
      s.page gig (start + k * pgsz gig s.pgszi)

/-- A range that `mfreeseg` can count: it is empty, or it consists of less than 2^31 pages of
the segment, from its base on. -/
def Segment.Counts (gig : Bool) (s : Segment) (start stop : Nat) : Prop :=
  (stop ≤ start ∧ start < 2 ^ 64 ∧ start - stop ≤ 2 ^ 31 * pgsz gig s.pgszi) ∨
    (s.base ≤ start ∧ start < stop ∧ stop < 2 ^ 64 ∧ start - s.base < 2 ^ 61 ∧
      pgsz gig s.pgszi ∣ start - s.base ∧ pgsz gig s.pgszi ∣ stop - start ∧
      stop - start < 2 ^ 31 * pgsz gig s.pgszi)

/-- The pages of the tables have an index in those that `dupseg` allots, and the tables in
the map. -/
def Segment.Fits (gig : Bool) (s : Segment) : Prop :=
  ∀ n, dupTarget gig s = some n → ∀ i t, s.map i = some t →
    i < n.mapsize ∧ ∀ j p, t.pages j = some p → j < n.ptepertab

section Walk

variable {x : Pte} {n j i : Nat}

/-- The inner loop of `mfreeseg` without its check: the pages freed, and how many of `pages` are left. -/
def Pte.clearFrom (t : Pte) : Nat → Nat → Int → Pte × List Page × Int
  | 0, _, pages => (t, [], pages)
  | n + 1, j, pages =>
    let freed := (t.pages j).toList
    let t := { t with pages := Function.update t.pages j none }
    if pages - 1 = 0 then (t, freed, 0)
    else
      let r := t.clearFrom n (j + 1) (pages - 1)
      (r.1, freed ++ r.2.1, r.2.2)

/-- The outer loop without its check. -/
def Segment.clearTables (s : Segment) : Nat → Nat → Nat → Int → Segment × List Page
  | 0, _, _, _ => (s, [])
  | n + 1, i, j, pages =>
    if pages ≤ 0 then (s, [])
    else
      match s.map i with
      | none => s.clearTables n (i + 1) 0 (pages - (s.ptepertab - j : Nat))
      | some t =>
        let r := t.clearFrom (s.ptepertab - j) j pages
        let s := { s with map := Function.update s.map i (some r.1) }
        let q := s.clearTables n (i + 1) 0 r.2.2
        (q.1, r.2.1 ++ q.2)

theorem less_clearFrom (t : Pte) (k j : Nat) (pages : Int) : Less (t.clearFrom k j pages).1 t := by
  induction k generalizing t j pages with
  | zero => exact Less.refl t
  | succ k ih =>
    unfold Pte.clearFrom
    simp only
    split
    · exact less_clear t j
    · exact (ih _ _ _).trans (less_clear t j)

/-- Within the table the loop is the one without its check. -/
theorem mfree_eq (pages : Int) (h : j + n ≤ x.len) :
    x.mfree n j pages = some (x.clearFrom n j pages) := by
  induction n generalizing x j pages with
  | zero => rfl
  | succ n ih =>
    rw [Pte.mfree, Pte.clearFrom, if_neg (by omega)]
    dsimp only
    split_ifs
    · rfl
    · rw [ih (pages - 1) (by change j + 1 + n ≤ x.len; omega)]
      rfl

/-- The tables of a segment have the length that the segment says. -/
def Segment.Even (s : Segment) : Prop := ∀ i t, s.map i = some t → t.len = s.ptepertab

/-- Freeing in one table leaves their lengths. -/
theorem Segment.Even.update (h : s.Even) (hx : s.map i = some x) (n j : Nat) (pages : Int) :
    Segment.Even { s with map := Function.update s.map i (some (x.clearFrom n j pages).1) } := by
  intro a y hy
  change Function.update s.map i (some (x.clearFrom n j pages).1) a = some y at hy
  by_cases ha : a = i
  · rw [ha, update_self] at hy
    cases hy
    exact (less_clearFrom x n j pages).len.trans (h i x hx)
  · rw [update_of_ne ha] at hy
    exact h a y hy

/-- Within the map the loop is the one without its check. -/
theorem mfreeTables_eq (pages : Int) (heven : s.Even) (hj : j ≤ s.ptepertab)
    (hn : n = 0 ∨ i + n ≤ s.mapsize) :
    s.mfreeTables n i j pages = some (s.clearTables n i j pages) := by
  induction n generalizing s i j pages with
  | zero => rfl
  | succ n ih =>
    have hcast : ((i : Int) + 1) = ((i + 1 : Nat) : Int) := rfl
    rw [Segment.mfreeTables, Segment.clearTables]
    by_cases hpages : pages ≤ 0
    · rw [if_pos hpages, if_pos hpages]
    · rw [if_neg hpages, if_neg hpages, if_neg (by omega), Int.toNat_natCast, hcast]
      cases hx : s.map i with
      | none => exact ih _ heven (Nat.zero_le _) (by omega)
      | some x =>
        have hlen := heven i x hx
        dsimp only
        rw [mfree_eq pages (by omega), bind_some,
          ih _ (heven.update hx _ _ _) (Nat.zero_le _) (by change n = 0 ∨ i + 1 + n ≤ s.mapsize; omega)]
        rfl

/-- The inner loop clears a stretch of entries, as many as there are pages to free, and
puts what was in them. -/
theorem mfree_entries {m : Nat} (hm : 0 < m) :
    (∀ k, (x.clearFrom n j m).1.pages k = if j ≤ k ∧ k < j + min n m then none else x.pages k) ∧
      (x.clearFrom n j m).2.1 = (List.range' j (min n m)).filterMap x.pages ∧
      (x.clearFrom n j m).2.2 = ((m - n : Nat) : Int) := by
  induction n generalizing x j m with
  | zero =>
    refine ⟨fun k => ?_, ?_, by rw [Pte.clearFrom]; simp⟩
    · rw [if_neg (by omega)]
      rfl
    · rw [Nat.zero_min]
      rfl
  | succ n ih =>
    have hcons : (List.range' j (min n (m - 1) + 1)).filterMap x.pages =
        (x.pages j).toList ++ (List.range' (j + 1) (min n (m - 1))).filterMap x.pages := by
      rw [List.range'_succ]
      cases hp : x.pages j with
      | none => rw [filterMap_cons_none hp]; rfl
      | some q => rw [filterMap_cons_some hp]; rfl
    have hmin : min (n + 1) m = min n (m - 1) + 1 := by omega
    rw [Pte.clearFrom, hmin, hcons]
    dsimp only
    by_cases hlast : (m : Int) - 1 = 0
    · have hone : min n (m - 1) = 0 := by omega
      rw [if_pos hlast, hone]
      refine ⟨fun k => ?_, by simp, by simp; omega⟩
      by_cases hk : k = j
      · rw [hk, if_pos (by omega)]
        exact update_self _ _ _
      · rw [if_neg (by omega)]
        exact update_of_ne hk _ _
    · have hpred : (m : Int) - 1 = ((m - 1 : Nat) : Int) := by omega
      rw [if_neg hlast, hpred]
      obtain ⟨hclear, hfreed, hleft⟩ := @ih { x with pages := Function.update x.pages j none } (j + 1)
        (m - 1) (by omega)
      refine ⟨fun k => ?_, ?_, by rw [hleft]; omega⟩
      · rw [hclear]
        dsimp only
        by_cases hk : k = j
        · rw [hk, if_neg (by omega), if_pos (by omega), update_self]
        · rw [update_of_ne hk]
          congr 1
          apply propext
          omega
      · rw [hfreed]
        refine congrArg ((x.pages j).toList ++ ·) (filterMap_congr fun k hk => ?_)
        obtain ⟨hle, _⟩ := mem_range'_1.mp hk
        exact update_of_ne (by omega) _ _

/-- The pages of a segment, numbered through its tables. -/
def Segment.entry (s : Segment) (k : Nat) : Option Page :=
  (s.map (k / s.ptepertab)).bind fun t => t.pages (k % s.ptepertab)

/-- An entry of the table `i`. -/
theorem entry_of_table {k : Nat} (hlo : i * s.ptepertab ≤ k) (hhi : k < (i + 1) * s.ptepertab) :
    s.entry k = (s.map i).bind fun t => t.pages (k - i * s.ptepertab) := by
  have hdiv : k / s.ptepertab = i := Nat.div_eq_of_lt_le hlo hhi
  have hmod := Nat.div_add_mod' k s.ptepertab
  rw [hdiv] at hmod
  rw [Segment.entry, hdiv, Nat.eq_sub_of_add_eq' hmod]

/-- A change of the table `i` is a change of its entries. -/
theorem entry_update {y : Pte} {k : Nat} (hpos : 0 < s.ptepertab) :
    Segment.entry { s with map := Function.update s.map i (some y) } k =
      if i * s.ptepertab ≤ k ∧ k < (i + 1) * s.ptepertab then y.pages (k - i * s.ptepertab)
      else s.entry k := by
  split_ifs with hin
  · rw [@entry_of_table { s with map := Function.update s.map i (some y) } i k hin.1 hin.2]
    change (Function.update s.map i (some y) i).bind _ = _
    rw [update_self]
    rfl
  · change (Function.update s.map i (some y) (k / s.ptepertab)).bind _ = _
    have hne : k / s.ptepertab ≠ i := by
      intro heq
      exact hin ⟨heq ▸ Nat.div_mul_le_self _ _, (Nat.div_lt_iff_lt_mul hpos).mp (by omega)⟩
    rw [update_of_ne hne]
    rfl

/-- A stretch of entries is that in one table and that in the next ones. -/
theorem range'_split {a c m r : Nat} :
    List.range' a (min m (c + r)) = List.range' a (min c m) ++ List.range' (a + c) (min (m - c) r) := by
  rcases Nat.lt_or_ge c m with hmore | hlast
  · have hsum : min m (c + r) = c + min (m - c) r := by omega
    rw [hsum, Nat.min_eq_left (Nat.le_of_lt hmore), ← List.range'_append_1]
  · have hzero : min (m - c) r = 0 := by omega
    rw [hzero, Nat.min_eq_right hlast, Nat.min_eq_left (by omega), List.range'_zero, append_nil]

/-- **The walk of `mfreeseg`** clears a stretch of the entries of a segment, up to the number
of pages and the end of the tables, and puts what was in them. -/
theorem clearTables_entries (pages : Int) (hj : j < s.ptepertab) :
    (∀ k, (s.clearTables n i j pages).1.entry k =
        if i * s.ptepertab + j ≤ k ∧
            k < i * s.ptepertab + j + min pages.toNat (n * s.ptepertab - j) then none
        else s.entry k) ∧
      (s.clearTables n i j pages).2 =
        (List.range' (i * s.ptepertab + j) (min pages.toNat (n * s.ptepertab - j))).filterMap
          s.entry := by
  induction n generalizing s i j pages with
  | zero =>
    have hcount : min pages.toNat (0 * s.ptepertab - j) = 0 := by
      rw [Nat.zero_mul]
      omega
    rw [hcount]
    refine ⟨fun k => ?_, rfl⟩
    rw [if_neg (by omega)]
    rfl
  | succ n ih =>
    rw [Segment.clearTables]
    by_cases hpages : pages ≤ 0
    · have hcount : min pages.toNat ((n + 1) * s.ptepertab - j) = 0 := by omega
      rw [if_pos hpages, hcount]
      refine ⟨fun k => ?_, rfl⟩
      rw [if_neg (by omega)]
    · rw [if_neg hpages]
      obtain ⟨m, rfl⟩ : ∃ m : Nat, pages = m := ⟨pages.toNat, by omega⟩
      -- `c` entries are left in this table, and the next one begins behind them.
      obtain ⟨c, hc⟩ : ∃ c, c = s.ptepertab - j := ⟨_, rfl⟩
      obtain ⟨a, ha⟩ : ∃ a, a = i * s.ptepertab + j := ⟨_, rfl⟩
      have hpos : 0 < s.ptepertab := by omega
      have hsucc : (i + 1) * s.ptepertab = i * s.ptepertab + s.ptepertab := Nat.succ_mul _ _
      have hlimit : (n + 1) * s.ptepertab - j = c + n * s.ptepertab := by
        rw [Nat.succ_mul]
        omega
      have hnext : (i + 1) * s.ptepertab + 0 = a + c := by omega
      have hleft : ((m : Int) - c).toNat = m - c := by omega
      rw [hlimit, Int.toNat_natCast, ← ha, ← hc, range'_split, filterMap_append]
      cases hx : s.map i with
      | none =>
        have hempty : ∀ k, a ≤ k → k < a + c → s.entry k = none := by
          intro k hlo hhi
          rw [entry_of_table (i := i) (by omega) (by omega), hx]
          rfl
        obtain ⟨hclear, hfreed⟩ := @ih s 0 (i + 1) (m - c : Int) hpos
        rw [hnext, hleft, Nat.sub_zero] at hclear hfreed
        refine ⟨fun k => ?_, ?_⟩
        · refine (hclear k).trans ?_
          by_cases hhere : a ≤ k ∧ k < a + c
          · rw [hempty k hhere.1 hhere.2]
            split_ifs <;> rfl
          · refine if_congr ?_ rfl rfl
            omega
        · refine hfreed.trans ?_
          have hnone : (List.range' a (min c m)).filterMap s.entry = [] := by
            refine filterMap_eq_nil_iff.mpr fun k hk => ?_
            obtain ⟨hlo, hhi⟩ := mem_range'_1.mp hk
            exact hempty k hlo (by omega)
          rw [hnone, nil_append]
      | some x =>
        obtain ⟨hclear₁, hfreed₁, hleft₁⟩ := @mfree_entries x c j m (by omega)
        have htable : ∀ k, i * s.ptepertab ≤ k → k < (i + 1) * s.ptepertab →
            s.entry k = x.pages (k - i * s.ptepertab) := by
          intro k hlo hhi
          rw [entry_of_table hlo hhi, hx]
          rfl
        have hentry : ∀ k,
            Segment.entry { s with map := Function.update s.map i (some (x.clearFrom c j m).1) } k =
              if a ≤ k ∧ k < a + min c m then none else s.entry k := by
          intro k
          rw [entry_update hpos]
          by_cases hhere : i * s.ptepertab ≤ k ∧ k < (i + 1) * s.ptepertab
          · rw [if_pos hhere, hclear₁, htable k hhere.1 hhere.2]
            refine if_congr ?_ rfl rfl
            omega
          · rw [if_neg hhere, if_neg (by omega)]
        obtain ⟨hclear, hfreed⟩ :=
          @ih { s with map := Function.update s.map i (some (x.clearFrom c j m).1) } 0 (i + 1)
            (x.clearFrom c j m).2.2 hpos
        have hleft₂ : (x.clearFrom c j m).2.2.toNat = m - c := by
          rw [hleft₁]
          rfl
        change ∀ k, _ = if (i + 1) * s.ptepertab + 0 ≤ k ∧ k < (i + 1) * s.ptepertab + 0 +
          min _ (n * s.ptepertab - 0) then none else _ at hclear
        change _ = (List.range' ((i + 1) * s.ptepertab + 0)
          (min _ (n * s.ptepertab - 0))).filterMap _ at hfreed
        rw [hnext, hleft₂, Nat.sub_zero] at hclear hfreed
        refine ⟨fun k => ?_, ?_⟩
        · refine (hclear k).trans ?_
          rw [hentry]
          generalize n * s.ptepertab = r
          split_ifs <;> first | rfl | omega
        · refine (congrArg₂ (· ++ ·) hfreed₁ hfreed).trans (congrArg₂ (· ++ ·) ?_ ?_)
          · rw [ha, ← map_add_range', filterMap_map]
            refine filterMap_congr fun k hk => ?_
            obtain ⟨hlo, hhi⟩ := mem_range'_1.mp hk
            change _ = s.entry (i * s.ptepertab + k)
            rw [htable _ (by omega) (by omega), Nat.add_sub_cancel_left]
          · refine filterMap_congr fun k hk => ?_
            obtain ⟨hlo, _⟩ := mem_range'_1.mp hk
            rw [hentry, if_neg (by omega)]

end Walk

/-- The tables of a segment are in its map and have the length that goes with its page
size, and their pages are between `first` and `last`. -/
structure Segment.Tabled (gig : Bool) (s : Segment) : Prop where
  shift : s.shift gig ∈ pgszlg2 gig
  ptepertab : s.ptepertab = ptemapmem >>> s.shift gig
  tables : ∀ i t, s.map i = some t → i < s.mapsize ∧ t.len = s.ptepertab
  between : s.Between

section Exact

variable {start stop va k : Nat}

/-- Where a table covers a GiB, the page at an address is the entry with its number. -/
theorem page_eq_entry (hunit : pgsz gig s.pgszi * s.ptepertab = ptemapmem) (hle : s.base ≤ va)
    (hlt : va < 2 ^ 64) : s.page gig va = s.entry ((va - s.base) / pgsz gig s.pgszi) := by
  have hsub : sub64 va s.base = va - s.base := by
    unfold sub64
    omega
  unfold Segment.page Segment.entry Segment.mapIndex Segment.pageIndex
  rw [hsub, Nat.div_div_eq_div_mul, hunit, ← hunit, Nat.mod_mul_right_div_self]
  rfl

theorem Segment.Tabled.even (h : s.Tabled gig) : s.Even := fun i t ht => (h.tables i t ht).2

theorem pgsz_pos (gig : Bool) (i : Nat) : 0 < pgsz gig i := Nat.two_pow_pos _

/-- A table covers a GiB. -/
theorem Segment.Tabled.unit (h : s.Tabled gig) : pgsz gig s.pgszi * s.ptepertab = ptemapmem := by
  have hall : ∀ g : Bool, ∀ x ∈ pgszlg2 g, 2 ^ x * (ptemapmem >>> x) = ptemapmem := by
    intro g
    cases g <;> decide
  rw [h.ptepertab]
  exact hall gig _ h.shift

theorem Segment.Tabled.ptepertab_pos (h : s.Tabled gig) : 0 < s.ptepertab := by
  have hunit := h.unit
  rcases Nat.eq_zero_or_pos s.ptepertab with hzero | hpos
  · rw [hzero, Nat.mul_zero] at hunit
    exact absurd hunit (by decide)
  · exact hpos

/-- The page at an address is the entry with the number of the page. -/
theorem Segment.Tabled.page_eq (h : s.Tabled gig) (hle : s.base ≤ va) (hlt : va < 2 ^ 64) :
    s.page gig va = s.entry ((va - s.base) / pgsz gig s.pgszi) :=
  page_eq_entry h.unit hle hlt

/-- Behind the map there are no pages. -/
theorem Segment.Tabled.entry_none (h : s.Tabled gig) (hk : s.mapsize * s.ptepertab ≤ k) :
    s.entry k = none := by
  unfold Segment.entry
  cases hx : s.map (k / s.ptepertab) with
  | none => rfl
  | some x =>
    have hlt := (h.tables _ x hx).1
    have hle := (Nat.le_div_iff_mul_le h.ptepertab_pos).mpr hk
    omega

/-- Nothing is done when there is no page to free. -/
theorem mfreeTables_none {n j : Nat} {i pages : Int} (hpages : pages ≤ 0) :
    s.mfreeTables n i j pages = some (s, []) := by
  cases n with
  | zero => rfl
  | succ n => rw [Segment.mfreeTables, if_pos hpages]

/-- The number of pages of an empty range, as an `int`. -/
theorem asInt_empty (h : s.shift gig ∈ pgszlg2 gig) (hle : stop ≤ start) (hlt : start < 2 ^ 64)
    (hfar : start - stop ≤ 2 ^ 31 * pgsz gig s.pgszi) :
    asInt (sub64 stop start / pgsz gig s.pgszi) ≤ 0 := by
  have hshift : s.shift gig = 12 ∨ s.shift gig = 21 ∨ s.shift gig = 30 := by
    have hall : ∀ g : Bool, ∀ x ∈ pgszlg2 g, x = 12 ∨ x = 21 ∨ x = 30 := by
      intro g
      cases g <;> decide
    exact hall gig _ h
  have hpgsz : pgsz gig s.pgszi = 2 ^ s.shift gig := rfl
  have hsub : sub64 stop start = if stop = start then 0 else 2 ^ 64 - (start - stop) := by
    unfold sub64
    split_ifs <;> omega
  rw [hpgsz] at hfar ⊢
  rw [hsub]
  unfold asInt
  rcases hshift with hs | hs | hs <;> rw [hs] at hfar ⊢ <;> split_ifs <;> omega

/-- A count below 2^31 is its `int`. -/
theorem asInt_of_lt {n : Nat} (h : n < 2 ^ 31) : asInt n = n := by
  unfold asInt
  rw [if_pos (by omega)]
  omega

/-- **`mfreeseg` frees a range that it can count exactly.** -/
theorem Segment.Tabled.exactFree (h : s.Tabled gig) (hc : s.Counts gig start stop) :
    s.ExactFree gig start stop := by
  rcases hc with ⟨hle, hlt, hfar⟩ | ⟨hbase, hlt, hword, hnear, hstart, hstop, hfew⟩
  · refine ⟨s, [], mfreeTables_none (asInt_empty h.shift hle hlt hfar), fun va _ _ => ?_, ?_⟩
    · rw [if_neg (by omega)]
    · rw [Nat.sub_eq_zero_of_le hle, Nat.zero_div]
      rfl
  · have hg := pgsz_pos gig s.pgszi
    have hP := h.ptepertab_pos
    have hunit := h.unit
    obtain ⟨a, ha⟩ := hstart
    obtain ⟨k, hk⟩ := hstop
    obtain ⟨i, hi⟩ : ∃ i, i = a / s.ptepertab := ⟨_, rfl⟩
    obtain ⟨j, hj⟩ : ∃ j, j = a % s.ptepertab := ⟨_, rfl⟩
    have hij : i * s.ptepertab + j = a := by
      rw [hi, hj]
      exact Nat.div_add_mod' _ _
    have hkfew : k < 2 ^ 31 := by
      rw [hk, Nat.mul_comm] at hfew
      exact Nat.lt_of_mul_lt_mul_right hfew
    have hsub : sub64 start s.base = pgsz gig s.pgszi * a := by
      unfold sub64
      omega
    have hmap : sub64 start s.base / ptemapmem = i := by
      rw [hsub, ← hunit, Nat.mul_div_mul_left _ _ hg, hi]
    have hpage : s.pageIndex gig start = j := by
      unfold Segment.pageIndex
      rw [hsub, ← hunit, Nat.mul_mod_mul_left, Nat.mul_div_cancel_left _ hg, hj]
    have hcount : sub64 stop start / pgsz gig s.pgszi = k := by
      have : sub64 stop start = pgsz gig s.pgszi * k := by
        unfold sub64
        omega
      rw [this, Nat.mul_div_cancel_left _ hg]
    have hismall : i < 2 ^ 31 := by
      have hunit' : ptemapmem = 2 ^ 30 := rfl
      rw [← hmap, hunit']
      omega
    have hjlt : j < s.ptepertab := hj ▸ Nat.mod_lt _ hP
    have hrun : s.mfreeseg gig start stop =
        some (s.clearTables (s.mapsize - i) i j (k : Int)) := by
      unfold Segment.mfreeseg
      rw [hcount, hmap, hpage, asInt_of_lt hkfew, asInt_of_lt hismall]
      have htables : ((s.mapsize : Int) - (i : Int)).toNat = s.mapsize - i := by omega
      dsimp only
      rw [htables]
      exact mfreeTables_eq _ h.even (Nat.le_of_lt hjlt) (by omega)
    obtain ⟨hclear, hfreed⟩ := @clearTables_entries s (s.mapsize - i) j i (k : Int) hjlt
    rw [hij, Int.toNat_natCast] at hclear hfreed
    -- What the end of the tables cuts off are no pages.
    have hcut : ∀ x, a + min k ((s.mapsize - i) * s.ptepertab - j) ≤ x → x < a + k → s.entry x = none := by
      intro x hlo hhi
      apply h.entry_none
      rcases Nat.lt_or_ge i s.mapsize with hin | hout
      · have hmul : (s.mapsize - i) * s.ptepertab + i * s.ptepertab = s.mapsize * s.ptepertab := by
          rw [← Nat.add_mul, Nat.sub_add_cancel (Nat.le_of_lt hin)]
        omega
      · have hmul := Nat.mul_le_mul_right s.ptepertab hout
        omega
    obtain ⟨hsame, _⟩ := mfreeTables_spec hrun
    refine ⟨_, _, hrun, fun va hva hvaword => ?_, ?_⟩
    · have hnum : start ≤ va ∧ va < stop ↔
          a ≤ (va - s.base) / pgsz gig s.pgszi ∧ (va - s.base) / pgsz gig s.pgszi < a + k := by
        rw [Nat.le_div_iff_mul_le hg, Nat.div_lt_iff_lt_mul hg, Nat.mul_comm a, Nat.mul_comm (a + k),
          Nat.mul_add]
        omega
      have hpage' : (s.clearTables (s.mapsize - i) i j (k : Int)).1.page gig va =
          (s.clearTables (s.mapsize - i) i j (k : Int)).1.entry ((va - s.base) / pgsz gig s.pgszi) := by
        rw [hsame]
        exact page_eq_entry hunit hva hvaword
      rw [hpage', hclear, h.page_eq hva hvaword]
      by_cases hin : start ≤ va ∧ va < stop
      · rw [if_pos hin]
        obtain ⟨hlo, hhi⟩ := hnum.mp hin
        split_ifs with hcleared
        · rfl
        · exact hcut _ (by omega) hhi
      · rw [if_neg hin, if_neg]
        intro hc
        exact hin (hnum.mpr ⟨hc.1, by omega⟩)
    · have hquot : (stop - start) / pgsz gig s.pgszi = k := by rw [hk, Nat.mul_div_cancel_left _ hg]
      have hsplit : List.range' a k = List.range' a (min k ((s.mapsize - i) * s.ptepertab - j)) ++
          List.range' (a + min k ((s.mapsize - i) * s.ptepertab - j))
            (k - min k ((s.mapsize - i) * s.ptepertab - j)) := by
        rw [List.range'_append_1, Nat.add_sub_cancel' (Nat.min_le_left _ _)]
      have hrest : (List.range' (a + min k ((s.mapsize - i) * s.ptepertab - j))
          (k - min k ((s.mapsize - i) * s.ptepertab - j))).filterMap s.entry = [] := by
        refine filterMap_eq_nil_iff.mpr fun x hx => ?_
        obtain ⟨hlo, hhi⟩ := mem_range'_1.mp hx
        exact hcut x hlo (by omega)
      calc (s.clearTables (s.mapsize - i) i j (k : Int)).2
          = (List.range' a k).filterMap s.entry := by
            rw [hfreed, hsplit, filterMap_append, hrest, append_nil]
        _ = (List.range k).filterMap fun x => s.page gig (start + x * pgsz gig s.pgszi) := by
            rw [List.range'_eq_map_range, filterMap_map]
            refine filterMap_congr fun x hx => ?_
            have hxk := mem_range.mp hx
            have hmul : pgsz gig s.pgszi * (x + 1) ≤ pgsz gig s.pgszi * k := Nat.mul_le_mul_left _ hxk
            rw [Nat.mul_add, Nat.mul_one] at hmul
            have hva : start + x * pgsz gig s.pgszi - s.base = pgsz gig s.pgszi * (a + x) := by
              rw [Nat.mul_add, Nat.mul_comm x]
              omega
            rw [h.page_eq (by omega) (by rw [Nat.mul_comm x]; omega), hva, Nat.mul_div_cancel_left _ hg]
            rfl
        _ = _ := by rw [hquot]

end Exact

section Invariant

variable {a i j k : Nat} {x y : Pte} {n : Segment} {m : Nat}

/-- A table whose pages are between its pointers. -/
def Pte.Bounded (x : Pte) : Prop := ∀ j p, x.pages j = some p → x.first ≤ j ∧ j ≤ x.last ∧ j < x.len

theorem Pte.Bounded.less (h : y.Bounded) (hless : Less x y) : x.Bounded := by
  intro j p hp
  rw [hless.first, hless.last, hless.len]
  exact h j p (hless.pages hp)

/-- A segment with the shape of a tabled one, whose tables are right. -/
theorem Segment.Tabled.change (h : s.Tabled gig) (hpgszi : t.pgszi = s.pgszi)
    (hpte : t.ptepertab = s.ptepertab)
    (hmap : ∀ i x, t.map i = some x → i < t.mapsize ∧ x.len = s.ptepertab ∧ x.Bounded) :
    t.Tabled gig := by
  have hshift : t.shift gig = s.shift gig := by
    unfold Segment.shift
    rw [hpgszi]
  refine ⟨?_, ?_, fun i x hx => ?_, fun i x j p hx => (hmap i x hx).2.2 j p⟩
  · rw [hshift]
    exact h.shift
  · rw [hshift, hpte]
    exact h.ptepertab
  · rw [hpte]
    exact ⟨(hmap i x hx).1, (hmap i x hx).2.1⟩

/-- A segment with the same tables. -/
theorem Segment.Tabled.same (h : s.Tabled gig) (hpgszi : t.pgszi = s.pgszi)
    (hpte : t.ptepertab = s.ptepertab) (hmapsize : t.mapsize = s.mapsize) (hmap : t.map = s.map) :
    t.Tabled gig := by
  refine h.change hpgszi hpte fun i x hx => ?_
  rw [hmap] at hx
  rw [hmapsize]
  exact ⟨(h.tables i x hx).1, (h.tables i x hx).2, fun j q => h.between i x j q hx⟩

/-- A table is put into the map. -/
theorem Segment.Tabled.update (h : s.Tabled gig) (hi : i < s.mapsize) (hlen : x.len = s.ptepertab)
    (hx : x.Bounded) : Segment.Tabled gig { s with map := Function.update s.map i (some x) } := by
  refine h.change rfl rfl fun a y hy => ?_
  change Function.update s.map i (some x) a = some y at hy
  by_cases ha : a = i
  · rw [ha, update_self] at hy
    cases hy
    rw [ha]
    exact ⟨hi, hlen, hx⟩
  · rw [update_of_ne ha] at hy
    exact ⟨(h.tables a y hy).1, (h.tables a y hy).2, fun j q => h.between a y j q hy⟩

/-- What `newseg` makes has no tables yet. -/
theorem Segment.Tabled.newseg {type : SegType} {base top : Nat}
    (h : newseg gig type base top = some s) : s.Tabled gig ∧ ∀ i, s.map i = none := by
  have hwf := Wf.newseg h
  obtain ⟨_, k, _, _, hs⟩ := newseg_cases h
  have hnone : ∀ i, s.map i = none := fun i => by rw [hs]
  refine ⟨⟨hwf.shift, hwf.ptepertab, fun i x hx => ?_, fun i x j p hx => ?_⟩, hnone⟩
  · cases (hnone i).symm.trans hx
  · cases (hnone i).symm.trans hx

/-- A page that is put moves the pointers around it. -/
theorem Pte.Bounded.put {p : Page} (h : x.Bounded) (hj : j < x.len) : (x.put j p).Bounded := by
  intro k q hq
  change Function.update x.pages j (some p) k = some q at hq
  change min x.first j ≤ k ∧ k ≤ max x.last j ∧ k < x.len
  by_cases hk : k = j
  · omega
  · rw [update_of_ne hk] at hq
    have hbounds := h k q hq
    omega

/-- `segpage` keeps the tables. -/
theorem Segment.Tabled.segpage {p : Page} (h : s.Tabled gig) (hrun : s.segpage gig p = some t) :
    t.Tabled gig := by
  unfold Segment.segpage at hrun
  rw [ite_none_left_eq_some, ite_none_left_eq_some] at hrun
  obtain ⟨_, _, hrun⟩ := hrun
  dsimp only at hrun
  rw [ite_none_right_eq_some] at hrun
  obtain ⟨hin, hrun⟩ := hrun
  obtain rfl := some.inj hrun
  have hold : ((s.map (s.mapIndex p.va)).getD (ptealloc s)).len = s.ptepertab ∧
      ((s.map (s.mapIndex p.va)).getD (ptealloc s)).Bounded := by
    cases hx : s.map (s.mapIndex p.va) with
    | none => exact ⟨rfl, fun j q hq => nomatch hq⟩
    | some x => exact ⟨(h.tables _ x hx).2, fun j q => h.between _ x j q hx⟩
  have hput := hold.2.put (p := p) hin.2
  have hlen : (((s.map (s.mapIndex p.va)).getD (ptealloc s)).put (s.pageIndex gig p.va) p).len =
      s.ptepertab := hold.1
  exact (h.update hin.1 hlen hput).same rfl rfl rfl rfl

/-- `relocateseg` leaves the pages where they are in the tables. -/
theorem Segment.Tabled.relocateseg (h : s.Tabled gig) (offset : Nat) :
    (s.relocateseg offset).Tabled gig := by
  refine h.change rfl rfl fun i y hy => ?_
  change (if i < s.mapsize then (s.map i).map fun t => t.relocate offset else s.map i) = some y at hy
  have hkept : ∃ x, s.map i = some x ∧ y.len = x.len ∧ y.first = x.first ∧ y.last = x.last ∧
      ∀ j, (x.pages j).isSome = (y.pages j).isSome := by
    split_ifs at hy
    · obtain ⟨x, hx, rfl⟩ := map_eq_some_iff.mp hy
      refine ⟨x, hx, rfl, rfl, rfl, fun j => ?_⟩
      unfold Pte.relocate
      dsimp only
      split_ifs
      · rw [isSome_map]
      · rfl
    · exact ⟨y, hy, rfl, rfl, rfl, fun j => rfl⟩
  obtain ⟨x, hx, hlen, hfirst, hlast, hsome⟩ := hkept
  refine ⟨(h.tables i x hx).1, hlen.trans (h.tables i x hx).2, fun j q hq => ?_⟩
  have hold := hsome j
  rw [hq] at hold
  obtain ⟨p, hp⟩ := isSome_iff_exists.mp hold
  rw [hlen, hfirst, hlast]
  exact h.between i x j p hx hp

/-- Freeing leaves the tables, with fewer pages. -/
theorem Segment.Tabled.mfreeTables {i pages : Int} {freed : List Page} (h : s.Tabled gig)
    (hrun : s.mfreeTables k i j pages = some (t, freed)) : t.Tabled gig := by
  obtain ⟨hsame, hmap⟩ := mfreeTables_spec hrun
  rw [hsame]
  refine ⟨h.shift, h.ptepertab, fun a x hx => ?_, fun a x j q hx => ?_⟩
  · obtain ⟨y, hy, hless⟩ := hmap hx
    exact ⟨(h.tables a y hy).1, hless.len.trans (h.tables a y hy).2⟩
  · obtain ⟨y, hy, hless⟩ := hmap hx
    exact Pte.Bounded.less (fun j q => h.between a y j q hy) hless j q

/-- The loop of `ptecpy` puts the pages in order, and `last` at the last of them. -/
theorem ptecpyLoop_bounded {old new new' : Pte} {ref ref' : Page → Nat}
    (hfirst : new.first ≤ j)
    (hnew : ∀ k p, new.pages k = some p → new.first ≤ k ∧ k ≤ new.last ∧ k < j ∧ k < new.len)
    (hrun : ptecpyLoop old m j new ref = some (new', ref')) : new'.len = new.len ∧ new'.Bounded := by
  induction m generalizing j new ref with
  | zero =>
    cases hrun
    refine ⟨rfl, fun k p hp => ?_⟩
    obtain ⟨h1, h2, _, h3⟩ := hnew k p hp
    exact ⟨h1, h2, h3⟩
  | succ m ih =>
    rw [ptecpyLoop] at hrun
    cases hp : old.pages j with
    | none =>
      rw [hp] at hrun
      refine ih (by omega) (fun k p hk => ?_) hrun
      obtain ⟨h1, h2, h3, h4⟩ := hnew k p hk
      exact ⟨h1, h2, by omega, h4⟩
    | some q =>
      rw [hp] at hrun
      dsimp only at hrun
      rw [ite_none_right_eq_some] at hrun
      obtain ⟨hj, hrun⟩ := hrun
      refine @ih (j + 1) { new with last := j, pages := Function.update new.pages j (some q) } _
        (by change new.first ≤ j + 1; omega) (fun k p hk => ?_) hrun
      change Function.update new.pages j (some q) k = some p at hk
      change new.first ≤ k ∧ k ≤ j ∧ k < j + 1 ∧ k < new.len
      by_cases hkj : k = j
      · omega
      · rw [update_of_ne hkj] at hk
        obtain ⟨h1, h2, h3, h4⟩ := hnew k p hk
        omega

/-- `ptecpy` makes a table of the new segment, with its pages between the pointers. -/
theorem ptecpy_bounded {old new : Pte} {ref ref' : Page → Nat}
    (hrun : ptecpy n old ref = some (new, ref')) : new.len = n.ptepertab ∧ new.Bounded := by
  unfold ptecpy at hrun
  refine ptecpyLoop_bounded ?_ ?_ hrun
  · exact Nat.le_refl old.first
  · intro k p hk
    cases hk

/-- The loop of `dupseg` fills the map of the new segment. -/
theorem Segment.Tabled.dupTables {ref ref' : Page → Nat} (h : n.Tabled gig)
    (hrun : dupTables s k i n ref = some (t, ref')) : t.Tabled gig := by
  induction k generalizing i n ref with
  | zero =>
    cases hrun
    exact h
  | succ k ih =>
    rw [Vmem.dupTables] at hrun
    cases hx : s.map i with
    | none =>
      rw [hx] at hrun
      exact ih h hrun
    | some x =>
      rw [hx] at hrun
      obtain ⟨⟨y, ref₁⟩, hy, hrest⟩ := bind_eq_some_iff.mp hrun
      dsimp only at hrest
      rw [ite_none_right_eq_some] at hrest
      obtain ⟨hi, hrest⟩ := hrest
      obtain ⟨hlen, hbounded⟩ := ptecpy_bounded hy
      exact ih (h.update hi hlen hbounded) hrest

/-- The segment that `dupseg` copies into. -/
theorem Segment.Tabled.dupTarget (h : s.Tabled gig) (hrun : dupTarget gig s = some n) :
    n.Tabled gig := by
  unfold Vmem.dupTarget at hrun
  obtain ⟨m, hm, heq⟩ := bind_eq_some_iff.mp hrun
  obtain ⟨hnew, hnone⟩ := Segment.Tabled.newseg hm
  split_ifs at heq
  · obtain rfl := some.inj heq
    exact h.change rfl rfl fun i x hx => nomatch (hnone i).symm.trans hx
  · obtain rfl := some.inj heq
    exact hnew

/-- `dupseg` makes a segment with right tables, or none. -/
theorem Segment.Tabled.dupseg {segno : Nat} {share : Bool} {ref : Page → Nat}
    {r : Dup × (Page → Nat)} (h : s.Tabled gig) (hrun : dupseg gig s segno share ref = some r) :
    r.1.segment.Tabled gig := by
  unfold Vmem.dupseg at hrun
  split_ifs at hrun
  · obtain ⟨m, hm, hrest⟩ := bind_eq_some_iff.mp hrun
    obtain ⟨⟨n, ref₁⟩, hn, heq⟩ := bind_eq_some_iff.mp hrest
    obtain rfl := some.inj heq
    exact ((h.dupTarget hm).dupTables hn).same rfl rfl rfl rfl
  · obtain ⟨m, hm, heq⟩ := bind_eq_some_iff.mp hrun
    obtain rfl := some.inj heq
    obtain ⟨ps, hps, heq⟩ := bind_eq_some_iff.mp hm
    obtain rfl := some.inj heq
    obtain ⟨hnew, hnone⟩ := Segment.Tabled.newseg hps
    exact hnew.change rfl rfl fun i x hx => nomatch (hnone i).symm.trans hx
  · obtain rfl := some.inj hrun
    exact h.same rfl rfl rfl rfl

/-- **Each step keeps the tables right.** -/
theorem Segment.Tabled.act {a : TableAct} (h : s.Tabled gig) (hrun : s.tableAct gig a = some t) :
    t.Tabled gig := by
  cases a with
  | segpage p => exact h.segpage hrun
  | dupseg segno share =>
    obtain ⟨r, hr, rfl⟩ := map_eq_some_iff.mp hrun
    exact h.dupseg hr
  | relocateseg offset =>
    obtain rfl := some.inj hrun
    exact h.relocateseg offset
  | mfreeseg start stop =>
    obtain ⟨⟨t', freed⟩, hr, rfl⟩ := map_eq_some_iff.mp hrun
    exact h.mfreeTables hr
  | freepte i =>
    obtain rfl := some.inj hrun
    refine h.change rfl rfl fun a x hx => ?_
    change Function.update s.map i none a = some x at hx
    by_cases ha : a = i
    · rw [ha, update_self] at hx
      cases hx
    · rw [update_of_ne ha] at hx
      exact ⟨(h.tables a x hx).1, (h.tables a x hx).2, fun j q => h.between a x j q hx⟩

end Invariant

section Main

end Main

end Vmem
