import NixKernel.Segment
import NixKernel.StepSystem

/-!
# Copying a segment

`dupseg` copies a segment that has been faulted into, grown, shrunk and freed in any order.  The
copy has a page size and a map chosen anew from `base` and `top`, so it is faithful exactly when
that choice is the page size of the original and every table of the original fits the map.
-/

namespace Vmem

open StepSystem Option
open Function (update update_self update_of_ne)

variable {gig : Bool} {s t n : Segment} {i j : Nat} {p : Page}

/-- The page shift of a segment. -/
def Segment.shift (gig : Bool) (s : Segment) : Nat := (pgszlg2 gig).getD s.pgszi 0

theorem segshift_mem (gig : Bool) (base top : Nat) : segshift gig base top ∈ pgszlg2 gig := by
  unfold segshift
  cases hfind : (pgszlg2 gig).reverse.find? fun b => (base ||| top) &&& (2 ^ b - 1) == 0 with
  | none =>
    show pgshift ∈ pgszlg2 gig
    cases gig <;> decide
  | some b => exact List.mem_reverse.mp (List.mem_of_find?_eq_some hfind)

theorem shiftFor_mem (gig : Bool) (type : SegType) (base top : Nat) :
    shiftFor gig type base top ∈ pgszlg2 gig := by
  unfold shiftFor
  split
  · exact segshift_mem gig base top
  · cases gig <;> decide

/-- The index of a page size finds it again. -/
theorem getpgszi_shift {sh : Nat} (h : sh ∈ pgszlg2 gig) :
    ∃ k, getpgszi gig (2 ^ sh) = some k ∧ (pgszlg2 gig).getD k 0 = sh := by
  have hall : ∀ g : Bool, ∀ x ∈ pgszlg2 g,
      getpgszi g (2 ^ x) = some ((pgszlg2 g).idxOf x) ∧
        (pgszlg2 g).getD ((pgszlg2 g).idxOf x) 0 = x := by
    intro g
    cases g <;> decide
  exact ⟨_, hall gig sh h⟩

theorem pgsz_dvd {sh : Nat} (h : sh ∈ pgszlg2 gig) : 2 ^ pgshift ∣ 2 ^ sh := by
  apply Nat.pow_dvd_pow
  have hall : ∀ g : Bool, ∀ x ∈ pgszlg2 g, pgshift ≤ x := by
    intro g
    cases g <;> decide
  exact hall gig sh h

theorem and_mask (v b : Nat) : v &&& (2 ^ b - 1) = v % 2 ^ b := Nat.and_two_pow_sub_one_eq_mod v b

theorem or_mask_eq_zero {a b k : Nat} :
    (a ||| b) &&& (2 ^ k - 1) = 0 ↔ 2 ^ k ∣ a ∧ 2 ^ k ∣ b := by
  rw [and_mask, Nat.or_mod_two_pow, Nat.or_eq_zero_iff, Nat.dvd_iff_mod_eq_zero, Nat.dvd_iff_mod_eq_zero]

/-- The pages of a table lie between `first` and `last` and where their address says. -/
def Placed (gig : Bool) (s : Segment) (i : Nat) (t : Pte) : Prop :=
  ∀ j p, t.pages j = some p →
    t.first ≤ j ∧ j ≤ t.last ∧ j < t.len ∧ s.mapIndex p.va = i ∧ s.pageIndex gig p.va = j

structure Wf (gig : Bool) (s : Segment) : Prop where
  shift : s.shift gig ∈ pgszlg2 gig
  fixed : okbigseg s.type = false → s.shift gig = bigpgshift
  ptepertab : s.ptepertab = ptemapmem >>> s.shift gig
  index : getpgszi gig (2 ^ s.shift gig) = some s.pgszi
  base : 2 ^ pgshift ∣ s.base
  top : 2 ^ pgshift ∣ s.top
  tables : ∀ {i t}, s.map i = some t → i < s.mapsize ∧ t.len = s.ptepertab
  placed : ∀ {i t}, s.map i = some t → Placed gig s i t

variable {base top : Nat}

theorem newseg_cases {type : SegType} (h : newseg gig type base top = some s) :
    (base ||| top) &&& (2 ^ pgshift - 1) = 0 ∧ ∃ k,
      getpgszi gig (2 ^ shiftFor gig type base top) = some k ∧
      (pgszlg2 gig).getD k 0 = shiftFor gig type base top ∧
      s = { type := type, base := base, top := top
            size := sub64 top base >>> shiftFor gig type base top, pgszi := k
            ptepertab := ptemapmem >>> shiftFor gig type base top
            mapsize := mapsizeFor base top (shiftFor gig type base top) } := by
  unfold newseg at h
  obtain ⟨k, hk, hkd⟩ := getpgszi_shift (shiftFor_mem gig type base top)
  by_cases hal : (base ||| top) &&& (2 ^ pgshift - 1) ≠ 0
  · rw [if_pos hal] at h
    cases h
  · rw [if_neg hal] at h
    simp only [hk, bind_eq_bind, bind_some, pure_def, some.injEq] at h
    exact ⟨by simpa using hal, k, hk, hkd, h.symm⟩

theorem newseg_range {type : SegType} (h : newseg gig type base top = some s) :
    s.base = base ∧ s.top = top := by
  obtain ⟨_, k, _, _, hs⟩ := newseg_cases h
  rw [hs]
  exact ⟨rfl, rfl⟩

theorem Wf.newseg {type : SegType} (h : newseg gig type base top = some s) :
    Wf gig s := by
  obtain ⟨hal, k, hk, hkd, hs⟩ := newseg_cases h
  obtain ⟨hbase, htop⟩ := or_mask_eq_zero.mp hal
  subst hs
  have hshift : Segment.shift gig
      { type := type, base := base, top := top
        size := sub64 top base >>> shiftFor gig type base top, pgszi := k
        ptepertab := ptemapmem >>> shiftFor gig type base top
        mapsize := mapsizeFor base top (shiftFor gig type base top) } =
      shiftFor gig type base top := hkd
  refine ⟨?_, ?_, ?_, ?_, hbase, htop, ?_, ?_⟩
  · rw [hshift]
    exact shiftFor_mem gig type base top
  · intro hfix
    rw [hshift]
    unfold shiftFor
    rw [if_neg]
    simpa using hfix
  · rw [hshift]
  · rw [hshift]
    exact hk
  · intro i t ht
    cases ht
  · intro i t ht
    cases ht

/-- A change of the map and of the top. -/
theorem Wf.change (h : Wf gig s) (htype : t.type = s.type) (hbase : t.base = s.base)
    (hpgszi : t.pgszi = s.pgszi) (hpte : t.ptepertab = s.ptepertab) (htop : 2 ^ pgshift ∣ t.top)
    (hmap : ∀ {i x}, t.map i = some x →
      i < t.mapsize ∧ x.len = s.ptepertab ∧ Placed gig s i x) : Wf gig t := by
  have hshift : t.shift gig = s.shift gig := by
    unfold Segment.shift
    rw [hpgszi]
  refine ⟨?_, ?_, ?_, ?_, ?_, htop, ?_, ?_⟩
  · rw [hshift]
    exact h.shift
  · rw [hshift, htype]
    exact h.fixed
  · rw [hshift, hpte]
    exact h.ptepertab
  · rw [hshift, hpgszi]
    exact h.index
  · rw [hbase]
    exact h.base
  · intro i x hx
    rw [hpte]
    exact ⟨(hmap hx).1, (hmap hx).2.1⟩
  · intro i x hx j q hq
    have hplaced := (hmap hx).2.2 j q hq
    unfold Segment.mapIndex Segment.pageIndex at hplaced ⊢
    rw [hbase, hpgszi]
    exact hplaced

theorem Wf.segpage (h : Wf gig s) (hrun : s.segpage gig p = some t) : Wf gig t := by
  unfold Segment.segpage at hrun
  split at hrun
  · cases hrun
  · split at hrun
    · cases hrun
    · simp only at hrun
      split at hrun
      · next hin =>
          cases hrun
          refine h.change rfl rfl rfl rfl h.top ?_
          intro i x hx
          simp only at hx
          by_cases hi : i = s.mapIndex p.va
          · rw [hi, update_self] at hx
            cases hx
            -- the table that was there, or an empty one
            have hold : ((s.map (s.mapIndex p.va)).getD (ptealloc s)).len = s.ptepertab ∧
                Placed gig s (s.mapIndex p.va)
                  ((s.map (s.mapIndex p.va)).getD (ptealloc s)) := by
              cases hmap : s.map (s.mapIndex p.va) with
              | none =>
                refine ⟨rfl, ?_⟩
                intro j q hq
                cases hq
              | some x => exact ⟨(h.tables hmap).2, h.placed hmap⟩
            rw [hi]
            refine ⟨hin.1, hold.1, ?_⟩
            intro j q hq
            unfold Pte.put at hq ⊢
            simp only at hq ⊢
            by_cases hj : j = s.pageIndex gig p.va
            · rw [hj, update_self] at hq
              cases hq
              rw [hj]
              exact ⟨Nat.min_le_right _ _, Nat.le_max_right _ _, hin.2, rfl, rfl⟩
            · rw [update_of_ne hj] at hq
              obtain ⟨hfirst, hlast, hlen, hplace⟩ := hold.2 j q hq
              exact ⟨Nat.le_trans (Nat.min_le_left _ _) hfirst,
                Nat.le_trans hlast (Nat.le_max_left _ _), hlen, hplace⟩
          · rw [update_of_ne hi] at hx
            exact ⟨(h.tables hx).1, (h.tables hx).2, h.placed hx⟩
      · cases hrun

/-- A table with fewer pages. -/
structure Less (x t : Pte) : Prop where
  len : x.len = t.len
  first : x.first = t.first
  last : x.last = t.last
  pages : ∀ {j q}, x.pages j = some q → t.pages j = some q

theorem Less.refl (t : Pte) : Less t t := ⟨rfl, rfl, rfl, fun hq => hq⟩

theorem Less.trans {x y z : Pte} (h : Less x y) (h' : Less y z) : Less x z :=
  ⟨h.len.trans h'.len, h.first.trans h'.first, h.last.trans h'.last,
    fun hq => h'.pages (h.pages hq)⟩

theorem less_clear (t : Pte) (j : Nat) :
    Less { t with pages := update t.pages j none } t := by
  refine ⟨rfl, rfl, rfl, ?_⟩
  intro k q hq
  simp only at hq
  by_cases hk : k = j
  · rw [hk, update_self] at hq
    cases hq
  · rw [update_of_ne hk] at hq
    exact hq

theorem less_mfree {x : Pte} {k j : Nat} {pages : Int} {r : Pte × List Page × Int}
    (hrun : x.mfree k j pages = some r) : Less r.1 x := by
  induction k generalizing x j pages r with
  | zero =>
    cases hrun
    exact Less.refl x
  | succ k ih =>
    rw [Pte.mfree] at hrun
    split_ifs at hrun
    · cases hrun
      exact less_clear x j
    · obtain ⟨r', hr', rfl⟩ := map_eq_some_iff.mp hrun
      exact (ih hr').trans (less_clear x j)

theorem Placed.less {x y : Pte} (h : Placed gig s i y) (hless : Less x y) : Placed gig s i x := by
  intro j q hq
  rw [hless.first, hless.last, hless.len]
  exact h j q (hless.pages hq)

/-- Freeing leaves the tables, with fewer pages, and everything else. -/
theorem mfreeTables_spec {k j : Nat} {i pages : Int} {freed : List Page}
    (hrun : s.mfreeTables k i j pages = some (t, freed)) :
    t = { s with map := t.map } ∧ ∀ {a x}, t.map a = some x → ∃ y, s.map a = some y ∧ Less x y := by
  induction k generalizing s i j pages t freed with
  | zero =>
    cases hrun
    exact ⟨rfl, fun hx => ⟨_, hx, Less.refl _⟩⟩
  | succ k ih =>
    rw [Segment.mfreeTables] at hrun
    split_ifs at hrun
    · cases hrun
      exact ⟨rfl, fun hx => ⟨_, hx, Less.refl _⟩⟩
    · cases hy : s.map i.toNat with
      | none =>
        rw [hy] at hrun
        exact ih hrun
      | some y =>
        rw [hy] at hrun
        obtain ⟨r, hr, hrest⟩ := bind_eq_some_iff.mp hrun
        obtain ⟨q, hq, heq⟩ := map_eq_some_iff.mp hrest
        cases heq
        obtain ⟨hsame, hmap⟩ := ih hq
        refine ⟨hsame, fun {a x} hx => ?_⟩
        obtain ⟨z, hz, hless⟩ := hmap hx
        simp only at hz
        by_cases ha : a = i.toNat
        · rw [ha, update_self] at hz
          cases hz
          exact ⟨y, ha ▸ hy, hless.trans (less_mfree hr)⟩
        · rw [update_of_ne ha] at hz
          exact ⟨z, hz, hless⟩

theorem Wf.less {top size mapsize : Nat} {map : Nat → Option Pte} (h : Wf gig s)
    (htop : 2 ^ pgshift ∣ top) (hsize : s.mapsize ≤ mapsize)
    (hmap : ∀ {a x}, map a = some x → ∃ y, s.map a = some y ∧ Less x y) :
    Wf gig { s with map := map, top := top, size := size, mapsize := mapsize } := by
  refine h.change rfl rfl rfl rfl htop ?_
  intro i x hx
  obtain ⟨y, hy, hless⟩ := hmap hx
  obtain ⟨hlt, hlen⟩ := h.tables hy
  exact ⟨Nat.lt_of_lt_of_le hlt hsize, hless.len.trans hlen, (h.placed hy).less hless⟩

theorem Wf.mfreeseg {start stop : Nat} {freed : List Page} (h : Wf gig s)
    (hrun : s.mfreeseg gig start stop = some (t, freed)) : Wf gig t := by
  obtain ⟨hsame, hmap⟩ := mfreeTables_spec hrun
  rw [hsame]
  exact h.less h.top (Nat.le_refl _) hmap

theorem shrink_range {newtop : Nat} (hrun : s.shrink gig newtop = some t) : t.base = s.base ∧ t.top = newtop := by
  obtain ⟨⟨u, freed⟩, hu, rfl⟩ := map_eq_some_iff.mp hrun
  have hbase : u.base = s.base := by rw [(mfreeTables_spec hu).1]
  exact ⟨hbase, rfl⟩

theorem Wf.shrink {newtop : Nat} (h : Wf gig s) (htop : 2 ^ pgshift ∣ newtop)
    (hrun : s.shrink gig newtop = some t) : Wf gig t := by
  obtain ⟨⟨u, freed⟩, hu, rfl⟩ := map_eq_some_iff.mp hrun
  obtain ⟨hsame, hmap⟩ := mfreeTables_spec hu
  rw [hsame]
  exact h.less htop (Nat.le_refl _) hmap

theorem Wf.grow {newtop : Nat} (h : Wf gig s) (htop : 2 ^ pgshift ∣ newtop) :
    Wf gig (s.grow gig newtop) := by
  unfold Segment.grow
  simp only
  refine h.less htop ?_ (fun hx => ⟨_, hx, Less.refl _⟩)
  split
  · next hlt => exact Nat.le_of_lt hlt.1
  · exact Nat.le_refl _

/-- What happens to a segment.  `ibrk` shrinks or grows it to a multiple of its page
size. -/
inductive SegAct where
  | segpage (p : Page)
  | shrink (newtop : Nat)
  | grow (newtop : Nat)
  | mfreeseg (start stop : Nat)

def Segment.act (gig : Bool) (s : Segment) : SegAct → Option Segment
  | .segpage p => s.segpage gig p
  | .shrink newtop => if pgsz gig s.pgszi ∣ newtop then s.shrink gig newtop else none
  | .grow newtop => if pgsz gig s.pgszi ∣ newtop then some (s.grow gig newtop) else none
  | .mfreeseg start stop => (s.mfreeseg gig start stop).map Prod.fst

/-- The segments that come out of `newseg`. -/
def FromNewseg (gig : Bool) (s : Segment) : Prop := ∃ type base top, newseg gig type base top = some s

theorem Wf.act {a : SegAct} (h : Wf gig s) (hrun : s.act gig a = some t) : Wf gig t := by
  cases a with
  | segpage p => exact h.segpage hrun
  | shrink newtop =>
    unfold Segment.act at hrun
    simp only at hrun
    by_cases hdvd : pgsz gig s.pgszi ∣ newtop
    · rw [if_pos hdvd] at hrun
      exact h.shrink (Nat.dvd_trans (pgsz_dvd h.shift) hdvd) hrun
    · rw [if_neg hdvd] at hrun
      cases hrun
  | grow newtop =>
    unfold Segment.act at hrun
    simp only at hrun
    by_cases hdvd : pgsz gig s.pgszi ∣ newtop
    · rw [if_pos hdvd] at hrun
      cases hrun
      exact h.grow (Nat.dvd_trans (pgsz_dvd h.shift) hdvd)
    · rw [if_neg hdvd] at hrun
      cases hrun
  | mfreeseg start stop =>
    obtain ⟨⟨u, freed⟩, hu, rfl⟩ := map_eq_some_iff.mp hrun
    exact h.mfreeseg hu

theorem Wf.reach (hr : Reach (FromNewseg gig) (fun s a t => s.act gig a = some t) s) :
    Wf gig s := by
  refine hr.invariant (Wf gig) ?_ ?_
  · intro s hs
    obtain ⟨type, base, top, hnew⟩ := hs
    exact Wf.newseg hnew
  · intro s a t h hrun
    exact h.act hrun

/-- The loop of `ptecpy` copies the pages it passes, and raises each of their counts. -/
theorem ptecpyLoop_spec {old : Pte} (new : Pte) {k : Nat} (j : Nat) (ref : Page → Nat)
    (hin : ∀ x q, j ≤ x → x < j + k → old.pages x = some q → x < new.len)
    (hinj : ∀ x y q, old.pages x = some q → old.pages y = some q → x = y) :
    ∃ new' ref', ptecpyLoop old k j new ref = some (new', ref') ∧
      (∀ x, new'.pages x =
        if j ≤ x ∧ x < j + k ∧ (old.pages x).isSome then old.pages x else new.pages x) ∧
      (∀ q, (∃ x, j ≤ x ∧ x < j + k ∧ old.pages x = some q) → ref' q = ref q + 1) ∧
      (∀ q, (∀ x, j ≤ x → x < j + k → old.pages x ≠ some q) → ref' q = ref q) := by
  induction k generalizing j new ref with
  | zero =>
    refine ⟨new, ref, rfl, ?_, ?_, fun _ _ => rfl⟩
    · intro x
      rw [if_neg (by omega)]
    · intro q hq
      obtain ⟨x, hlo, hhi, _⟩ := hq
      omega
  | succ k ih =>
    have hsucc : ∀ x, j ≤ x ∧ x < j + (k + 1) ↔ x = j ∨ (j + 1 ≤ x ∧ x < j + 1 + k) := by
      intro x
      omega
    unfold ptecpyLoop
    cases hp : old.pages j with
    | none =>
      obtain ⟨new', ref', hrun, hpages, hone, hsame⟩ := ih new (j + 1) ref
        (fun x q hlo hhi hq => hin x q (by omega) (by omega) hq)
      refine ⟨new', ref', hrun, ?_, ?_, ?_⟩
      · intro x
        rw [hpages]
        by_cases hx : x = j
        · rw [hx, hp]
          simp
        · have hiff : (j ≤ x ∧ x < j + (k + 1) ∧ (old.pages x).isSome) ↔
              (j + 1 ≤ x ∧ x < j + 1 + k ∧ (old.pages x).isSome) := by
            constructor <;> intro h <;> exact ⟨by omega, by omega, h.2.2⟩
          simp only [hiff]
      · intro q hq
        obtain ⟨x, hlo, hhi, hx⟩ := hq
        have hxj : x ≠ j := by
          intro heq
          rw [heq, hp] at hx
          cases hx
        exact hone q ⟨x, by omega, by omega, hx⟩
      · intro q hq
        exact hsame q (fun x hlo hhi => hq x (by omega) (by omega))
    | some p =>
      have hlen := hin j p (Nat.le_refl _) (by omega) hp
      simp only [if_pos hlen]
      obtain ⟨new', ref', hrun, hpages, hone, hsame⟩ := ih
        { new with last := j, pages := update new.pages j (some p) } (j + 1)
        (update ref p (ref p + 1))
        (fun x q hlo hhi hq => hin x q (by omega) (by omega) hq)
      refine ⟨new', ref', hrun, ?_, ?_, ?_⟩
      · intro x
        rw [hpages]
        by_cases hx : x = j
        · rw [hx, hp, if_neg (by omega), if_pos ⟨by omega, by omega, rfl⟩]
          simp only [update_self]
        · simp only [update_of_ne hx]
          have hiff : (j ≤ x ∧ x < j + (k + 1) ∧ (old.pages x).isSome) ↔
              (j + 1 ≤ x ∧ x < j + 1 + k ∧ (old.pages x).isSome) := by
            constructor <;> intro h <;> exact ⟨by omega, by omega, h.2.2⟩
          simp only [hiff]
      · intro q hq
        obtain ⟨x, hlo, hhi, hx⟩ := hq
        by_cases hqp : q = p
        · -- the count was raised here, and `p` does not come again
          have hlater : ∀ y, j + 1 ≤ y → y < j + 1 + k → old.pages y ≠ some q := by
            intro y hy _ hyq
            rw [hqp] at hyq
            have hyj := hinj y j p hyq hp
            omega
          rw [hsame q hlater, hqp, update_self]
        · have hxj : x ≠ j := by
            intro heq
            rw [heq, hp] at hx
            exact hqp (some.inj hx).symm
          rw [hone q ⟨x, by omega, by omega, hx⟩, update_of_ne hqp]
      · intro q hq
        have hqp : q ≠ p := by
          intro heq
          exact hq j (Nat.le_refl _) (by omega) (by rw [heq]; exact hp)
        rw [hsame q (fun x hlo hhi => hq x (by omega) (by omega)), update_of_ne hqp]

/-- `ptecpy` copies every page of a table. -/
theorem ptecpy_spec {old : Pte} (ref : Page → Nat) (hplaced : Placed gig s i old)
    (hlen : old.len ≤ n.ptepertab) :
    ∃ new ref', ptecpy n old ref = some (new, ref') ∧ (∀ x, new.pages x = old.pages x) ∧
      (∀ q, (∃ x, old.pages x = some q) → ref' q = ref q + 1) ∧
      (∀ q, (∀ x, old.pages x ≠ some q) → ref' q = ref q) := by
  obtain ⟨new, ref', hrun, hpages, hone, hsame⟩ := ptecpyLoop_spec
    { ptealloc n with first := old.first } (k := old.last + 1 - old.first) old.first ref
    (fun x q _ _ hq => Nat.lt_of_lt_of_le (hplaced x q hq).2.2.1 hlen)
    (fun x y q hx hy => (hplaced x q hx).2.2.2.2.symm.trans (hplaced y q hy).2.2.2.2)
  have hrange : ∀ x q, old.pages x = some q →
      old.first ≤ x ∧ x < old.first + (old.last + 1 - old.first) := by
    intro x q hq
    obtain ⟨hlo, hhi, _⟩ := hplaced x q hq
    omega
  refine ⟨new, ref', hrun, ?_, ?_, ?_⟩
  · intro x
    rw [hpages]
    cases hx : old.pages x with
    | none => simp [ptealloc]
    | some q =>
      obtain ⟨hlo, hhi⟩ := hrange x q hx
      rw [if_pos ⟨hlo, hhi, rfl⟩]
  · intro q hq
    obtain ⟨x, hx⟩ := hq
    exact hone q ⟨x, (hrange x q hx).1, (hrange x q hx).2, hx⟩
  · intro q hq
    exact hsame q (fun x _ _ => hq x)

/-- Page `q` is in one of `k` tables from `i` on. -/
def Segment.HasPage (s : Segment) (i k : Nat) (q : Page) : Prop :=
  ∃ x t j, i ≤ x ∧ x < i + k ∧ s.map x = some t ∧ t.pages j = some q

/-- The copying loop of `dupseg`, when every table fits the new map. -/
theorem dupTables_spec {k : Nat} (i : Nat) (ref : Page → Nat) (h : Wf gig s)
    (hlen : n.ptepertab = s.ptepertab)
    (hin : ∀ x t, i ≤ x → x < i + k → s.map x = some t → x < n.mapsize) :
    ∃ n' ref', dupTables s k i n ref = some (n', ref') ∧
      (∀ x t, i ≤ x → x < i + k → s.map x = some t →
        ∃ t', n'.map x = some t' ∧ ∀ j, t'.pages j = t.pages j) ∧
      (∀ x, ¬ (i ≤ x ∧ x < i + k) ∨ s.map x = none → n'.map x = n.map x) ∧
      (∀ q, s.HasPage i k q → ref' q = ref q + 1) ∧
      (∀ q, ¬ s.HasPage i k q → ref' q = ref q) := by
  induction k generalizing i n ref with
  | zero =>
    refine ⟨n, ref, rfl, ?_, fun _ _ => rfl, ?_, fun _ _ => rfl⟩
    · intro x t hlo hhi
      omega
    · intro q hq
      obtain ⟨x, _, _, hlo, hhi, _⟩ := hq
      omega
  | succ k ih =>
    unfold dupTables
    cases ht : s.map i with
    | none =>
      obtain ⟨n', ref', hrun, hcopy, hrest, hone, hsame⟩ := ih (i + 1) ref hlen
        (fun x t hlo hhi hx => hin x t (by omega) (by omega) hx)
      have hhas : ∀ q, s.HasPage i (k + 1) q ↔ s.HasPage (i + 1) k q := by
        intro q
        constructor
        · intro hq
          obtain ⟨x, t, j, hlo, hhi, hx, hj⟩ := hq
          have hxi : x ≠ i := by
            intro heq
            rw [heq, ht] at hx
            cases hx
          exact ⟨x, t, j, by omega, by omega, hx, hj⟩
        · intro hq
          obtain ⟨x, t, j, hlo, hhi, hx, hj⟩ := hq
          exact ⟨x, t, j, by omega, by omega, hx, hj⟩
      refine ⟨n', ref', hrun, ?_, ?_, ?_, ?_⟩
      · intro x t hlo hhi hx
        have hxi : x ≠ i := by
          intro heq
          rw [heq, ht] at hx
          cases hx
        exact hcopy x t (by omega) (by omega) hx
      · intro x hx
        apply hrest
        by_cases hxi : x = i
        · rw [hxi]
          exact Or.inr ht
        · exact hx.imp (fun hout => by omega) id
      · intro q hq
        exact hone q ((hhas q).mp hq)
      · intro q hq
        exact hsame q (fun hc => hq ((hhas q).mpr hc))
    | some t =>
      obtain ⟨t', ref₁, hcpy, hpages, hone₁, hsame₁⟩ := ptecpy_spec (n := n) ref
        (h.placed ht) (by rw [hlen]; exact Nat.le_of_eq (h.tables ht).2)
      have hlt := hin i t (Nat.le_refl _) (by omega) ht
      simp only [hcpy, bind_eq_bind, bind_some, if_pos hlt]
      obtain ⟨n', ref', hrun, hcopy, hrest, hone, hsame⟩ := ih (i + 1) ref₁
        (n := { n with map := update n.map i (some t') }) hlen
        (fun x t hlo hhi hx => hin x t (by omega) (by omega) hx)
      -- a page is in one table only, the one its address says
      have honly : ∀ q j, t.pages j = some q → ¬ s.HasPage (i + 1) k q := by
        intro q j hj hq
        obtain ⟨x, y, j', hlo, _, hx, hj'⟩ := hq
        have hi := (h.placed ht j q hj).2.2.2.1
        have hx' := (h.placed hx j' q hj').2.2.2.1
        omega
      have hhas : ∀ q, s.HasPage i (k + 1) q ↔
          (∃ j, t.pages j = some q) ∨ s.HasPage (i + 1) k q := by
        intro q
        constructor
        · intro hq
          obtain ⟨x, y, j, hlo, hhi, hx, hj⟩ := hq
          by_cases hxi : x = i
          · rw [hxi, ht] at hx
            cases hx
            exact Or.inl ⟨j, hj⟩
          · exact Or.inr ⟨x, y, j, by omega, by omega, hx, hj⟩
        · intro hq
          rcases hq with ⟨j, hj⟩ | ⟨x, y, j, hlo, hhi, hx, hj⟩
          · exact ⟨i, t, j, by omega, by omega, ht, hj⟩
          · exact ⟨x, y, j, by omega, by omega, hx, hj⟩
      refine ⟨n', ref', hrun, ?_, ?_, ?_, ?_⟩
      · intro x y hlo hhi hx
        by_cases hxi : x = i
        · rw [hxi, ht] at hx
          cases hx
          rw [hxi, hrest i (Or.inl (by omega))]
          exact ⟨t', update_self _ _ _, hpages⟩
        · exact hcopy x y (by omega) (by omega) hx
      · intro x hx
        have hxi : x ≠ i := by
          intro heq
          rcases hx with hx | hx
          · omega
          · rw [heq, ht] at hx
            cases hx
        rw [hrest x (hx.imp (fun hout => by omega) id)]
        exact update_of_ne hxi _ _
      · intro q hq
        rcases (hhas q).mp hq with ⟨j, hj⟩ | hlater
        · rw [hsame q (honly q j hj), hone₁ q ⟨j, hj⟩]
        · have hnot : ∀ j, t.pages j ≠ some q := fun j hj => honly q j hj hlater
          rw [hone q hlater, hsame₁ q hnot]
      · intro q hq
        have hnot : ∀ j, t.pages j ≠ some q := fun j hj => hq ((hhas q).mpr (Or.inl ⟨j, hj⟩))
        rw [hsame q (fun hc => hq ((hhas q).mpr (Or.inr hc))), hsame₁ q hnot]

/-- The loop leaves all but the map, and gets past a table only if it fits. -/
theorem dupTables_fits {k i : Nat} {ref ref' : Page → Nat} {n' : Segment}
    (hrun : dupTables s k i n ref = some (n', ref')) :
    n' = { n with map := n'.map } ∧
      ∀ x, i ≤ x → x < i + k → s.map x ≠ none → x < n.mapsize := by
  induction k generalizing i n ref with
  | zero =>
    cases hrun
    exact ⟨rfl, fun x hlo hhi => by omega⟩
  | succ k ih =>
    unfold dupTables at hrun
    cases ht : s.map i with
    | none =>
      simp only [ht] at hrun
      obtain ⟨hsame, hfits⟩ := ih hrun
      refine ⟨hsame, ?_⟩
      intro x hlo hhi hx
      have hxi : x ≠ i := by
        intro heq
        rw [heq] at hx
        exact hx ht
      exact hfits x (by omega) (by omega) hx
    | some t =>
      simp only [ht] at hrun
      obtain ⟨⟨t', ref₁⟩, _, hrest⟩ := bind_eq_some_iff.mp hrun
      simp only at hrest
      split at hrest
      · next hlt =>
          obtain ⟨hsame, hfits⟩ := ih hrest
          refine ⟨hsame, ?_⟩
          intro x hlo hhi hx
          by_cases hxi : x = i
          · rw [hxi]
            exact hlt
          · exact hfits x (by omega) (by omega) hx
      · cases hrest

/-- The copy maps every address to the same page, and the counts of these pages, and
no others, are raised by one. -/
structure Faithful (gig : Bool) (s : Segment) (ref : Page → Nat) (n : Segment)
    (ref' : Page → Nat) : Prop where
  pgszi : n.pgszi = s.pgszi
  ptepertab : n.ptepertab = s.ptepertab
  range : n.base = s.base ∧ n.top = s.top
  page : ∀ va, s.base ≤ va → va < s.top → n.page gig va = s.page gig va
  counted : ∀ va q, s.base ≤ va → va < s.top → s.page gig va = some q → ref' q = ref q + 1
  others : ∀ q, (∀ va, s.page gig va ≠ some q) → ref' q = ref q

/-- `dupseg` makes a faithful copy; in particular it writes inside of the map and of
the tables. -/
def Copied (gig : Bool) (s : Segment) (segno : Nat) (share : Bool) (ref : Page → Nat) : Prop :=
  ∃ n ref', dupseg gig s segno share ref = some (.copy n, ref') ∧ Faithful gig s ref n ref'

/-- The range is not aligned to larger pages than those of the segment, and no table
lies beyond a map for the range as it is now. -/
def Segment.Copyable (gig : Bool) (s : Segment) : Prop :=
  (okbigseg s.type = true → segshift gig s.base s.top = s.shift gig) ∧
    ∀ i, s.map i ≠ none → i < mapsizeFor s.base s.top (s.shift gig)

theorem Wf.shiftFor_eq (h : Wf gig s) :
    shiftFor gig s.type s.base s.top = s.shift gig ↔
      (okbigseg s.type = true → segshift gig s.base s.top = s.shift gig) := by
  unfold shiftFor
  cases hbig : okbigseg s.type with
  | true => simp
  | false =>
    have hfix := h.fixed hbig
    simp [hfix]

/-- The segment that is copied into has the page size of the original if its shift is
chosen the same. -/
theorem dupTarget_spec (h : Wf gig s) :
    ∃ n, dupTarget gig s = some n ∧ n.base = s.base ∧ n.top = s.top ∧
      n.mapsize = mapsizeFor s.base s.top (shiftFor gig s.type s.base s.top) ∧
      (∀ i, n.map i = none) ∧
      (shiftFor gig s.type s.base s.top = s.shift gig →
        n.pgszi = s.pgszi ∧ n.ptepertab = s.ptepertab) ∧
      (n.pgszi = s.pgszi → shiftFor gig s.type s.base s.top = s.shift gig) := by
  obtain ⟨k, hk, hkd⟩ := getpgszi_shift (shiftFor_mem gig s.type s.base s.top)
  have hal : ¬ ((s.base ||| s.top) &&& (2 ^ pgshift - 1) ≠ 0) := by
    rw [ne_eq, not_not]
    exact or_mask_eq_zero.mpr ⟨h.base, h.top⟩
  unfold dupTarget newseg
  rw [if_neg hal]
  simp only [hk, bind_eq_bind, bind_some, pure_def, some.injEq, exists_eq_left']
  by_cases hdata : s.type = .data
  · have hshift : shiftFor gig s.type s.base s.top = s.shift gig := by
      rw [h.shiftFor_eq, hdata]
      intro hc
      cases hc
    rw [if_pos hdata]
    exact ⟨rfl, rfl, rfl, fun _ => rfl, fun _ => ⟨rfl, rfl⟩, fun _ => hshift⟩
  · rw [if_neg hdata]
    refine ⟨rfl, rfl, rfl, fun _ => rfl, ?_, ?_⟩
    · intro hshift
      rw [hshift, h.index] at hk
      rw [hshift]
      exact ⟨(some.inj hk).symm, h.ptepertab.symm⟩
    · intro hpgszi
      simp only at hpgszi
      rw [← hkd, hpgszi]
      rfl

/-- A page of a well-formed segment is where its address says. -/
theorem Wf.page_of_has {k : Nat} {q : Page} (h : Wf gig s) (hq : s.HasPage 0 k q) :
    s.page gig q.va = some q := by
  obtain ⟨x, t, j, _, _, hx, hj⟩ := hq
  obtain ⟨_, _, _, hmap, hpage⟩ := h.placed hx j q hj
  unfold Segment.page
  rw [hmap, hpage, hx]
  exact hj

theorem Wf.has_of_page {va : Nat} {q : Page} (h : Wf gig s) (hq : s.page gig va = some q) :
    s.HasPage 0 s.mapsize q := by
  obtain ⟨t, ht, hj⟩ := bind_eq_some_iff.mp hq
  exact ⟨_, t, _, Nat.zero_le _, by have hlt := (h.tables ht).1; omega, ht, hj⟩

theorem Wf.copied (h : Wf gig s) {segno : Nat} {share : Bool}
    (hcopies : copies s.type segno share = true) (ref : Page → Nat) (hcond : s.Copyable gig) :
    Copied gig s segno share ref := by
  obtain ⟨n, htarget, hbase, htop, hmapsize, hnone, hsame, _⟩ := dupTarget_spec h
  have hshift := h.shiftFor_eq.mpr hcond.1
  obtain ⟨hpgszi, hpte⟩ := hsame hshift
  rw [hshift] at hmapsize
  obtain ⟨n', ref', hrun, hcopy, hrest, hone, hother⟩ := dupTables_spec (n := n) (k := s.mapsize)
    0 ref h hpte (by
      intro x t _ _ hx
      rw [hmapsize]
      exact hcond.2 x (by rw [hx]; exact some_ne_none t))
  have hfields := (dupTables_fits hrun).1
  have hbase' : n'.base = s.base := by
    rw [hfields]
    exact hbase
  have hpgszi' : n'.pgszi = s.pgszi := by
    rw [hfields]
    exact hpgszi
  have hpage : ∀ va, n'.page gig va = s.page gig va := by
    intro va
    unfold Segment.page Segment.mapIndex Segment.pageIndex
    rw [hbase', hpgszi']
    cases ht : s.map (sub64 va s.base / ptemapmem) with
    | none =>
      rw [hrest _ (Or.inr ht), hnone]
    | some t =>
      have hlt := (h.tables ht).1
      obtain ⟨t', ht', hpages⟩ := hcopy _ t (Nat.zero_le _) (by omega) ht
      rw [ht']
      exact hpages _
  refine ⟨{ n' with flushme := s.flushme }, ref', ?_, hpgszi', ?_, ⟨hbase', ?_⟩, ?_, ?_, ?_⟩
  · unfold dupseg
    rw [if_pos hcopies]
    simp only [htarget, hrun, bind_eq_bind, bind_some, pure_def]
  · rw [hfields]
    exact hpte
  · rw [hfields]
    exact htop
  · intro va _ _
    exact hpage va
  · intro va q _ _ hq
    exact hone q (h.has_of_page hq)
  · intro q hq
    exact hother q (fun hhas => hq q.va (h.page_of_has hhas))

end Vmem
