import NixKernel.PhysallocAlign

/-!
# Counting free memory

`nfree` of a `Bal` is a running count.  `xphysalloc` takes off what was asked for after it has been
raised to `bminsz`, but divides it before the size is rounded up to a block, and `physfree` adds
what it is given after rounding that up to a power of two.  The lists hold blocks of a power of two
each.
-/

namespace Physalloc

open IndexList Tiling StepSystem List Option
open Function (update update_self update_of_ne)

variable {b b' : Bal} {L : Nat → List Nat} {pmstart i j k n : Nat} {ranges : List (Nat × Nat)}
  {live : List Live} {l : Live}

/-- The blocks of minimum size on the lists. -/
def listed (L : Nat → List Nat) : Nat := ∑ k ∈ Finset.range (bkmax + 1), units k * (L k).length

/-- The avail lists hold `n` blocks of minimum size. -/
def Bal.Listed (b : Bal) (n : Nat) : Prop :=
  ∃ L : Nat → List Nat, (∀ k, Linked (fun i => (b.at i).next) (b.avail k) (L k)) ∧ n = listed L

/-- The blocks of minimum size in use. -/
def inUse (live : List Live) : Nat := (live.map fun l => units (blockKval l.size)).sum

/-- The lists count every available block once. -/
theorem Inv.listed_eq {B : Prop} {given : Nat → Prop} {held : Nat → Bool} {G : Finset Nat}
    (h : Inv B True b given held L) (hG : ∀ x, x ∈ G ↔ given x) :
    listed L = ∑ i ∈ G, if b.low ≤ i ∧ (b.at i).avail = true then units (b.at i).kval else 0 := by
  have hL := h.good.lists
  have hlen : ∀ k, units k * (L k).length = ∑ i ∈ (L k).toFinset,
      if b.low ≤ i ∧ (b.at i).avail = true then units (b.at i).kval else 0 := by
    intro k
    have hsame : ∀ i ∈ (L k).toFinset,
        (if b.low ≤ i ∧ (b.at i).avail = true then units (b.at i).kval else 0) = units k := by
      intro i hi
      obtain ⟨hlow, hav, hk⟩ := hL.mem (List.mem_toFinset.mp hi)
      rw [if_pos ⟨hlow, hav⟩, hk]
    rw [Finset.sum_congr rfl hsame, Finset.sum_const, toFinset_card_of_nodup (hL.linked k).nodup,
      smul_eq_mul, Nat.mul_comm]
  have hdisj : ((Finset.range (bkmax + 1) : Finset Nat) : Set Nat).PairwiseDisjoint
      fun k => (L k).toFinset := by
    intro j _ k _ hjk
    rw [Function.onFun, Finset.disjoint_left]
    intro i hi hi'
    have hj := (hL.mem (List.mem_toFinset.mp hi)).2.2
    have hk := (hL.mem (List.mem_toFinset.mp hi')).2.2
    exact hjk (hj.symm.trans hk)
  unfold listed
  rw [Finset.sum_congr rfl fun k _ => hlen k, ← Finset.sum_biUnion hdisj]
  apply Finset.sum_subset
  · intro i hi
    obtain ⟨k, _, hi⟩ := Finset.mem_biUnion.mp hi
    obtain ⟨hlow, hav, _⟩ := hL.mem (List.mem_toFinset.mp hi)
    exact (hG i).mpr (h.good.within
      (h.good.packed.covers_start (tiles_eq_some.mpr ⟨hlow, Or.inl hav, rfl⟩)))
  · intro i _ hnot
    refine if_neg fun hc => hnot ?_
    have hk := (h.good.kvals hc.1 (Or.inl hc.2)).2.2
    exact Finset.mem_biUnion.mpr ⟨(b.at i).kval, Finset.mem_range.mpr (by omega),
      List.mem_toFinset.mpr (h.attached trivial i hc.1 hc.2)⟩

/-- Every live allocation is counted once. -/
theorem Owned.inUse_eq {G : Finset Nat} (h : Owned pmstart True b ranges live)
    (hG : ∀ x, x ∈ G ↔ givenBy ranges x) :
    inUse live = ∑ i ∈ G, if heldBy live i = true then units (b.at i).kval else 0 := by
  have haddr : ∀ l ∈ live, l.addr = bminsz * index l.addr ∧ heldBy live (index l.addr) = true ∧
      (b.at (index l.addr)).kval = blockKval l.size := by
    intro l hl
    obtain ⟨i, haddr, hheld, _, hk, _⟩ := h.held hl
    have hindex : index l.addr = i := index_of_addr haddr
    rw [hindex]
    exact ⟨haddr, hheld, hk⟩
  have hnodup : (live.map fun l => index l.addr).Nodup := by
    rw [List.Nodup, pairwise_map]
    refine h.distinct.imp_of_mem fun hl hl' hne heq => hne ?_
    rw [(haddr _ hl).1, (haddr _ hl').1, heq]
  have hmap : inUse live = ((live.map fun l => index l.addr).map fun i => units (b.at i).kval).sum := by
    unfold inUse
    rw [List.map_map]
    congr 1
    apply map_congr_left
    intro l hl
    exact congrArg units (haddr l hl).2.2.symm
  rw [hmap, ← sum_toFinset _ hnodup]
  have hheld : ∀ i ∈ (live.map fun l => index l.addr).toFinset, heldBy live i = true := by
    intro i hi
    obtain ⟨l, hl, rfl⟩ := List.mem_map.mp (List.mem_toFinset.mp hi)
    exact (haddr l hl).2.1
  rw [Finset.sum_congr rfl fun i hi => (if_pos (hheld i hi)).symm]
  apply Finset.sum_subset
  · intro i hi
    obtain ⟨L, hinv⟩ := h.inv
    have hlow := (hinv.good.used (hheld i hi)).1
    exact (hG i).mpr (hinv.good.within (hinv.good.packed.covers_start
      (tiles_eq_some.mpr ⟨hlow, Or.inr (hheld i hi), rfl⟩)))
  · intro i _ hnot
    refine if_neg fun hc => hnot ?_
    obtain ⟨l, hl, hli⟩ := heldBy_iff.mp hc
    refine List.mem_toFinset.mpr (List.mem_map.mpr ⟨l, hl, ?_⟩)
    rw [hli]
    exact Nat.mul_div_cancel_left i bminsz_pos

/-- **The memory given is on the lists or in use.** -/
theorem Owned.card_given {G : Finset Nat} (h : Owned pmstart True b ranges live)
    (hG : ∀ x, x ∈ G ↔ givenBy ranges x) : ∃ n, b.Listed n ∧ G.card = n + inUse live := by
  obtain ⟨L, hinv⟩ := h.inv
  refine ⟨listed L, ⟨L, hinv.good.lists.linked, rfl⟩, ?_⟩
  have hcovers : ∀ x, x ∈ G ↔ Covers (b.tiles (heldBy live)) x := fun x =>
    ⟨fun hx => h.full trivial x ((hG x).mp hx), fun hx => (hG x).mpr (hinv.good.within hx)⟩
  rw [hinv.good.packed.card_covered hcovers, hinv.listed_eq hG, h.inUse_eq hG, ← Finset.sum_add_distrib]
  apply Finset.sum_congr rfl
  intro i _
  unfold Bal.tiles
  cases hheld : heldBy live i with
  | true =>
    obtain ⟨hlow, hused⟩ := hinv.good.used hheld
    simp [hlow, hused]
  | false =>
    by_cases hc : b.low ≤ i ∧ (b.at i).avail = true
    · simp [hc.1, hc.2]
    · rw [if_neg hc, if_neg (by simpa using hc)]
      rfl


/-- `b->nfree` and `b->nblocks`.  The numbers of blocks they are compared with are far below
`2^64`, so the two are exact integers here. -/
structure Counts where
  nfree : Int := 0
  nblocks : Int := 0

/-- At the end of `xphysalloc`: `b->nfree -= size/b->bminsz`. -/
def Counts.xphysalloc (c : Counts) (size : Nat) : Counts :=
  { c with nfree := c.nfree - ((if size < bminsz then bminsz else size) / bminsz : Nat) }

/-- At the end of `xphysfree`: `b->nfree += size/b->bminsz`. -/
def Counts.xphysfree (c : Counts) (data size : Nat) : Counts :=
  if data = 0 then c else { c with nfree := c.nfree + (size / bminsz : Nat) }

/-- `physfree`: `size = 1<<log2ceil(size)`.  What is live has at most `2^BKmax` bytes, so the shift
of an int does not overflow. -/
def Counts.physfree (c : Counts) (data size : Nat) : Counts := c.xphysfree data (2 ^ log2ceil size)

/-- `plop`. -/
def Counts.plop (c : Counts) (p : Nat × Nat) : Counts := c.xphysfree p.1 (2 ^ p.2)

/-- `(e-a)/b->bminsz`, with `a` and `e` rounded inwards and the difference a `uintmem`. -/
def chunkCount (a e : Nat) : Nat :=
  let a := (a + (bminsz - 1)) / bminsz * bminsz
  let e := e / bminsz * bminsz
  (if a ≤ e then e - a else 2 ^ 64 - (a - e)) / bminsz

/-- `iimbchunk`. -/
def Counts.iimbchunk (c : Counts) (a e : Nat) : Counts :=
  (chunks a e).foldl Counts.plop { c with nblocks := c.nblocks + chunkCount a e }

/-- The first domain whose range has the address. -/
def Phys.balOf (s : Phys) (data : Nat) : Option Nat :=
  (List.range ndomsMax).find? fun i =>
    (s.bal i).base ≤ data ∧ data < (s.bal i).base + (s.bal i).size

/-- The allocator with its counters. -/
structure Books where
  sys : System := {}
  counts : Nat → Counts := fun _ => {}

/-- One call. -/
def Books.act (pmstart : Nat) (s : Books) : Call → Option Books
  | .physinit addr len dom => do
      let t ← s.sys.act pmstart (.physinit addr len dom)
      let d := domOf dom
      return { sys := t
               counts := update s.counts d ((s.counts d).iimbchunk addr (addr + len)) }
  | .physalloc size color => do
      let (_, c, m) ← s.sys.phys.physalloc size color
      let t ← s.sys.act pmstart (.physalloc size color)
      let d := c.toNat
      return { sys := t
               counts := if m ≠ 0 then update s.counts d ((s.counts d).xphysalloc size)
                 else s.counts }
  | .physfree dom l => do
      let d ← s.sys.phys.balOf l.addr
      let t ← s.sys.act pmstart (.physfree dom l)
      return { sys := t
               counts := update s.counts d ((s.counts d).physfree l.addr l.size) }

def Books.Step (pmstart : Nat) (s : Books) (c : Call) (t : Books) : Prop :=
  s.act pmstart c = some t ∧ s.sys.Promised pmstart c

/-- The size is a power of two, or fits in a block of minimum size. -/
def Exact (size : Nat) : Prop := size ≤ bminsz ∨ ∃ k, size = 2 ^ k

/-- No list has a block for `size` bytes. -/
def Phys.Exhausted (p : Phys) (size : Nat) : Prop :=
  ∀ d k, blockKval size ≤ k → k ≤ bkmax → (p.bal d).avail k = 0

/-- A merge that keeps the lists whole. -/
def Whole (pmstart : Nat) (b : Bal) (p : Nat) : Prop := (pmstart = 0 ∨ Answered b p) ∧ Separable b p

instance (pmstart : Nat) (b : Bal) (p : Nat) : Decidable (Whole pmstart b p) :=
  inferInstanceAs (Decidable (_ ∧ _))

/-- The call counts what it does: no range is empty the wrong way round or starts at address 0, an
allocation that is served has an exact size, more than half a block is freed, and no merge loses
part of a list. -/
def Books.Counted (pmstart : Nat) (s : Books) : Call → Prop
  | .physinit addr len dom =>
    firstUnit addr ≤ lastUnit (addr + len) ∧ (firstUnit addr = 0 → lastUnit (addr + len) = 0) ∧
      initOk (Whole pmstart) pmstart (s.sys.phys.bal (domOf dom)) addr len
  | .physalloc size _ => Exact size ∨ s.sys.phys.Exhausted size
  | .physfree dom l => bminsz / 2 < l.size ∧
      mergesOk (Whole pmstart) (bkmax + 1) (s.sys.phys.bal dom) (index l.addr)

/-- Free memory is counted: `nfree` is the number of blocks of minimum size on the lists, and
equals `nblocks` when everything has been freed. -/
def Books.Right (s : Books) : Prop :=
  ∀ d, (∃ n : Nat, (s.sys.phys.bal d).Listed n ∧ (s.counts d).nfree = n) ∧
    (s.sys.live d = [] → (s.counts d).nfree = (s.counts d).nblocks)

/-- An exact size is counted as the block it gets. -/
theorem Exact.count {size : Nat} (h : Exact size) :
    (if size < bminsz then bminsz else size) / bminsz = units (blockKval size) := by
  unfold units blockKval
  rcases h with hle | ⟨k, rfl⟩
  · have hclamp : (if size < bminsz then bminsz else size) = 2 ^ bkmin := by
      change (if size < bminsz then bminsz else size) = bminsz
      split_ifs <;> omega
    rw [hclamp, log2ceil_two_pow]
  · split_ifs with hlt
    · change 2 ^ bkmin / bminsz = 2 ^ log2ceil (2 ^ bkmin) / bminsz
      rw [log2ceil_two_pow]
    · rw [log2ceil_two_pow]

/-- More than half a block of minimum size is counted as the block it was. -/
theorem count_of_half {size : Nat} (h : bminsz / 2 < size) :
    2 ^ log2ceil size / bminsz = units (blockKval size) := by
  unfold units blockKval
  split_ifs with hlt
  · have hceil : log2ceil size = bkmin := by
      have hlow : bkmin ≤ log2ceil size := by
        by_contra hc
        have hpow : 2 ^ log2ceil size ≤ 2 ^ 20 := Nat.pow_le_pow_right (by decide) (by
          have hb : bkmin = 21 := rfl
          omega)
        have hle := le_two_pow_log2ceil size
        have hhalf : bminsz / 2 = 2 ^ 20 := by decide
        omega
      have hhigh : Nat.log2 size < bkmin := by
        refine (Nat.log2_lt ?_).mpr hlt
        have hhalf : bminsz / 2 = 2 ^ 20 := by decide
        omega
      have hceil : log2ceil size ≤ Nat.log2 size + 1 := by
        unfold log2ceil
        split_ifs <;> omega
      omega
    rw [hceil]
    change 2 ^ bkmin / bminsz = 2 ^ log2ceil (2 ^ bkmin) / bminsz
    rw [log2ceil_two_pow]
  · rfl

theorem plops_count {l : List (Nat × Nat)} {c : Counts} (hl : Consecutive (bminsz * i) l (bminsz * j))
    (hi : i ≠ 0) :
    (l.foldl Counts.plop c).nfree = c.nfree + (j - i) ∧ (l.foldl Counts.plop c).nblocks = c.nblocks := by
  induction l generalizing c i with
  | nil =>
    have hij : i = j := Nat.eq_of_mul_eq_mul_left bminsz_pos hl
    subst hij
    exact ⟨by simp, rfl⟩
  | cons p l ih =>
    obtain ⟨a, k⟩ := p
    obtain ⟨ha, hk, _, hrest⟩ := hl
    dsimp only at ha hk hrest
    subst ha
    rw [← units_mul hk, ← Nat.mul_add] at hrest
    have hne : bminsz * i ≠ 0 := Nat.mul_ne_zero (Nat.ne_of_gt bminsz_pos) hi
    have hplop : c.plop (bminsz * i, k) = { c with nfree := c.nfree + (units k : Nat) } := if_neg hne
    obtain ⟨hfree, hblocks⟩ := @ih (i + units k) (c.plop (bminsz * i, k)) hrest (by omega)
    rw [foldl_cons, hfree, hblocks, hplop]
    refine ⟨?_, rfl⟩
    dsimp only
    push_cast
    omega

/-- The blocks of a range are counted twice, as free and as existing. -/
theorem iimbchunk_count {a e : Nat} (c : Counts) (hle : firstUnit a ≤ lastUnit e)
    (hzero : firstUnit a = 0 → lastUnit e = 0) :
    c.iimbchunk a e =
      ⟨c.nfree + (lastUnit e - firstUnit a : Nat), c.nblocks + (lastUnit e - firstUnit a : Nat)⟩ := by
  have hcons := (chunks_spec a e).1 hle
  have hcount : chunkCount a e = lastUnit e - firstUnit a := by
    change (if firstUnit a * bminsz ≤ lastUnit e * bminsz then lastUnit e * bminsz - firstUnit a * bminsz
      else _) / bminsz = _
    rw [if_pos (Nat.mul_le_mul_right _ hle), ← Nat.sub_mul, Nat.mul_div_cancel _ bminsz_pos]
  unfold Counts.iimbchunk
  rw [hcount]
  rw [Nat.mul_comm _ bminsz, Nat.mul_comm _ bminsz] at hcons
  by_cases hfirst : firstUnit a = 0
  · have hlast := hzero hfirst
    rw [hfirst, hlast] at hcons ⊢
    rw [hcons.eq_nil]
    simp
  · obtain ⟨hfree, hblocks⟩ := plops_count
      (c := { c with nblocks := c.nblocks + (lastUnit e - firstUnit a : Nat) }) hcons hfirst
    generalize (chunks a e).foldl Counts.plop _ = r at hfree hblocks ⊢
    obtain ⟨nfree, nblocks⟩ := r
    dsimp only at hfree hblocks ⊢
    rw [hfree, hblocks, Int.ofNat_sub hle]

theorem inUse_cons (l : Live) (live : List Live) :
    inUse (l :: live) = units (blockKval l.size) + inUse live := sum_cons

theorem inUse_erase (hl : l ∈ live) : inUse live = units (blockKval l.size) + inUse (live.erase l) := by
  rw [← inUse_cons]
  exact ((perm_cons_erase hl).map _).sum_eq


variable {s t : Books}

/-- The history of every domain, memory and counters included. -/
structure Books.Inv (pmstart : Nat) (s : Books) : Prop where
  sys : s.sys.Inv pmstart
  owned : ∀ d, Owned pmstart True (s.sys.phys.bal d) (s.sys.ranges d) (s.sys.live d)
  free : ∀ d, (s.counts d).nfree + inUse (s.sys.live d) = (s.counts d).nblocks
  blocks : ∀ d, ∃ G : Finset Nat, (∀ x, x ∈ G ↔ givenBy (s.sys.ranges d) x) ∧
    (s.counts d).nblocks = G.card

theorem Books.Inv.right (h : s.Inv pmstart) : s.Right := by
  intro d
  have hfree := h.free d
  obtain ⟨G, hG, hblocks⟩ := h.blocks d
  obtain ⟨n, hlisted, hcard⟩ := (h.owned d).card_given hG
  refine ⟨⟨n, hlisted, by omega⟩, fun hlive => ?_⟩
  rw [hlive] at hfree
  have hnone : inUse [] = 0 := rfl
  omega

theorem Books.Inv.start (pmstart : Nat) : Books.Inv pmstart {} := by
  refine ⟨System.Inv.start pmstart, fun _ => Owned.start pmstart True, fun _ => rfl, fun _ => ⟨∅, ?_, rfl⟩⟩
  intro x
  refine iff_of_false (Finset.notMem_empty x) ?_
  rintro ⟨r, hr, _⟩
  cases hr

theorem whole_mergeOk (b : Bal) (p : Nat) (h : Whole pmstart b p) : MergeOk (pmstart = 0) True b p :=
  ⟨h.1, fun _ => h.2⟩

/-- A call that is counted is sound. -/
theorem Books.Counted.sound {c : Call} (h : s.Counted pmstart c) : s.sys.Sound pmstart c := by
  have himp : ∀ b p, Whole pmstart b p → pmstart = 0 ∨ Answered b p := fun _ _ hw => hw.1
  cases c with
  | physinit addr len dom => exact fun b₁ hgrow => (h.2.2 b₁ hgrow).mono himp
  | physalloc size color => trivial
  | physfree dom l => exact mergesOk.mono himp h.2

theorem Books.act_sys {c : Call} (h : s.act pmstart c = some t) : s.sys.act pmstart c = some t.sys := by
  cases c with
  | physinit addr len dom =>
    obtain ⟨u, hu, h⟩ := bind_eq_some_iff.mp h
    cases h
    exact hu
  | physalloc size color =>
    obtain ⟨r, _, h⟩ := bind_eq_some_iff.mp h
    obtain ⟨u, hu, h⟩ := bind_eq_some_iff.mp h
    cases h
    exact hu
  | physfree dom l =>
    obtain ⟨d, _, h⟩ := bind_eq_some_iff.mp h
    obtain ⟨u, hu, h⟩ := bind_eq_some_iff.mp h
    cases h
    exact hu

theorem Books.Inv.physinit {addr len : Nat} {dom : Int} (h : s.Inv pmstart) (hal : bminsz ∣ pmstart)
    (hstep : s.Step pmstart (.physinit addr len dom) t)
    (hcount : s.Counted pmstart (.physinit addr len dom)) : t.Inv pmstart := by
  have hsys := h.sys.step hal ⟨Books.act_sys hstep.1, hstep.2⟩ hcount.sound
  obtain ⟨hact, hfresh, habove⟩ := hstep
  obtain ⟨hle, hzero, hok⟩ := hcount
  obtain ⟨u, hu, heq⟩ := bind_eq_some_iff.mp hact
  obtain ⟨p', hrun, hu⟩ := bind_eq_some_iff.mp hu
  obtain ⟨b, hinit, hbal⟩ := physinit_bal hrun
  cases hu
  cases heq
  have hfits := (hfresh (domOf dom)).fits habove
  have hnew := (h.owned (domOf dom)).physinit hinit hfits (fun _ => hzero)
    (fun b₁ hgrow => (hok b₁ hgrow).mono whole_mergeOk)
  have hcounts := iimbchunk_count (s.counts (domOf dom)) hle hzero
  refine ⟨hsys, fun d => ?_, fun d => ?_, fun d => ?_⟩
  · by_cases hd : d = domOf dom
    · subst hd
      simp only [hbal, update_self]
      exact hnew
    · simp only [hbal, update_of_ne hd]
      exact h.owned d
  · have hfree := h.free d
    by_cases hd : d = domOf dom
    · subst hd
      simp only [update_self, hcounts]
      omega
    · simp only [update_of_ne hd]
      exact hfree
  · obtain ⟨G, hG, hblocks⟩ := h.blocks d
    by_cases hd : d = domOf dom
    · subst hd
      simp only [update_self, hcounts]
      refine ⟨G ∪ Finset.Ico (firstUnit addr) (lastUnit (addr + len)), fun x => ?_, ?_⟩
      · rw [Finset.mem_union, hG, Finset.mem_Ico, ← givenBy_cons]
        rfl
      · rw [Finset.card_union_of_disjoint, Nat.card_Ico, hblocks, Nat.cast_add]
        rw [Finset.disjoint_left]
        intro x hx hx'
        obtain ⟨hlo, hhi⟩ := Finset.mem_Ico.mp hx'
        exact hfits.new x hlo hhi ((hG x).mp hx)
    · simp only [update_of_ne hd]
      exact ⟨G, hG, hblocks⟩

/-- An allocation that is served finds a block on a list. -/
theorem not_exhausted {p : Phys} {b : Bal} {d size m : Nat} (hrun : (p.bal d).xphysalloc size = some (b, m))
    (hm : m ≠ 0) : ¬p.Exhausted size := by
  intro hall
  unfold Bal.xphysalloc at hrun
  split at hrun
  · cases hrun
  · dsimp only at hrun
    split at hrun
    · cases hrun
      exact hm rfl
    · next j hfind =>
        have hj := mem_of_find?_eq_some hfind
        rw [mem_range'_1] at hj
        have hne : (p.bal d).avail j ≠ 0 := by simpa using List.find?_some hfind
        exact hne (hall d j hj.1 (by omega))

theorem Books.Inv.physalloc {size : Nat} {color : Int} (h : s.Inv pmstart) (hal : bminsz ∣ pmstart)
    (hstep : s.Step pmstart (.physalloc size color) t)
    (hcount : s.Counted pmstart (.physalloc size color)) : t.Inv pmstart := by
  have hsys := h.sys.step hal ⟨Books.act_sys hstep.1, hstep.2⟩ hcount.sound
  obtain ⟨hact, _⟩ := hstep
  obtain ⟨⟨p', c, m⟩, hrun, heq⟩ := bind_eq_some_iff.mp hact
  obtain ⟨u, hu, heq⟩ := bind_eq_some_iff.mp heq
  obtain ⟨r, hr, hu⟩ := bind_eq_some_iff.mp hu
  rw [hrun] at hr
  cases hr
  cases hu
  cases heq
  rcases physalloc_cases h.owned hal hrun with ⟨hm, hp⟩ | ⟨d', b, hc, hm, hx, hp⟩
  · simp only [hm, ne_eq, not_true_eq_false, if_false, hp] at hsys ⊢
    exact ⟨hsys, h.owned, h.free, h.blocks⟩
  · have hexact : Exact size := hcount.resolve_right (not_exhausted hx hm)
    have hunits := hexact.count
    simp only [if_pos hm, hp, hc, Int.toNat_natCast, Phys.setBal] at hsys ⊢
    refine ⟨hsys, fun d => ?_, fun d => ?_, fun d => ?_⟩
    · by_cases hd : d = d'
      · subst hd
        simp only [update_self]
        rcases (h.owned d).xphysalloc hal hx with ⟨hz, _⟩ | ⟨_, hown⟩
        · exact absurd hz hm
        · exact hown
      · simp only [update_of_ne hd]
        exact h.owned d
    · have hfree := h.free d
      by_cases hd : d = d'
      · subst hd
        simp only [update_self, Counts.xphysalloc, inUse_cons, hunits]
        push_cast
        omega
      · simp only [update_of_ne hd]
        exact hfree
    · by_cases hd : d = d'
      · subst hd
        simp only [update_self]
        exact h.blocks d
      · simp only [update_of_ne hd]
        exact h.blocks d

/-- The domain of a live allocation is found by its address. -/
theorem balOf_live {p' : Phys} {d dom : Nat} (h : s.Inv pmstart) (hl : l ∈ s.sys.live dom)
    (hfound : s.sys.phys.balOf l.addr = some d) (hrun : s.sys.phys.physfree l.addr = some p') :
    d = dom := by
  obtain ⟨d', hfind, hrest⟩ := bind_eq_some_iff.mp hrun
  obtain ⟨b, hfree, _⟩ := bind_eq_some_iff.mp hrest
  have hsame : d' = d := some.inj (hfind.symm.trans hfound)
  have hrange := List.find?_some hfind
  rw [← hsame]
  exact h.sys.dom_of_xphysfree hl (by simpa using hrange) hfree

theorem Books.Inv.physfree {dom : Nat} (h : s.Inv pmstart) (hal : bminsz ∣ pmstart)
    (hstep : s.Step pmstart (.physfree dom l) t)
    (hcount : s.Counted pmstart (.physfree dom l)) : t.Inv pmstart := by
  have hsys := h.sys.step hal ⟨Books.act_sys hstep.1, hstep.2⟩ hcount.sound
  obtain ⟨hact, _⟩ := hstep
  obtain ⟨hhalf, hok⟩ := hcount
  obtain ⟨d', hfound, heq⟩ := bind_eq_some_iff.mp hact
  obtain ⟨u, hu, heq⟩ := bind_eq_some_iff.mp heq
  cases heq
  obtain ⟨hl, hu⟩ := ite_none_right_eq_some.mp hu
  obtain ⟨p', hrun, hu⟩ := bind_eq_some_iff.mp hu
  cases hu
  cases balOf_live h hl hfound hrun
  obtain ⟨b, hfree, hp⟩ := h.sys.physfree_bal hl hrun
  have hown := (h.owned dom).xphysfree hl hfree (hok.mono whole_mergeOk)
  have hne : l.addr ≠ 0 := by
    obtain ⟨j, haddr, _, _, _, hj, _⟩ := (h.owned dom).held hl
    rw [haddr]
    exact Nat.mul_ne_zero (Nat.ne_of_gt bminsz_pos) hj
  have hunits := count_of_half hhalf
  simp only [hp, Phys.setBal] at hsys ⊢
  refine ⟨hsys, fun d => ?_, fun d => ?_, fun d => ?_⟩
  · by_cases hd : d = dom
    · subst hd
      simp only [update_self]
      exact hown
    · simp only [update_of_ne hd]
      exact h.owned d
  · have hold := h.free d
    by_cases hd : d = dom
    · subst hd
      have huse := inUse_erase hl
      simp only [update_self, Counts.physfree, Counts.xphysfree, if_neg hne, hunits]
      omega
    · simp only [update_of_ne hd]
      exact hold
  · by_cases hd : d = dom
    · subst hd
      simp only [update_self, Counts.physfree, Counts.xphysfree, if_neg hne]
      exact h.blocks d
    · simp only [update_of_ne hd]
      exact h.blocks d

/-- **Free memory is counted** in every state of a run whose calls count what they do. -/
theorem free_counted {s : Books} (hal : bminsz ∣ pmstart)
    (hr : Reach (· = ({} : Books)) (fun s c t => s.Step pmstart c t ∧ s.Counted pmstart c) s) :
    s.Right := by
  have hinv : s.Inv pmstart := by
    refine hr.invariant (Books.Inv pmstart) ?_ ?_
    · rintro s rfl
      exact Books.Inv.start pmstart
    · intro s c t h hstep
      cases c with
      | physinit addr len dom => exact h.physinit hal hstep.1 hstep.2
      | physalloc size color => exact h.physalloc hal hstep.1 hstep.2
      | physfree dom l => exact h.physfree hal hstep.1 hstep.2
  exact hinv.right

/-- The books after the first 8 MiB are given. -/
def freshBooks : Books := (Books.act inimap {} giveBlock).getD {}

theorem giveBlock_books : Books.Step inimap {} giveBlock freshBooks := by
  have hsome : (Books.act inimap {} giveBlock).isSome = true := by rfl
  exact ⟨(getD_of_ne_none (isSome_iff_ne_none.mp hsome) _).symm, promised_first (by decide)⟩

theorem giveBlock_counted : Books.Counted inimap {} giveBlock := by
  refine ⟨by decide, by decide, fun b₁ hgrow => ?_⟩
  have hchunks : chunks (8 * 2 ^ 20) (8 * 2 ^ 20 + 8 * 2 ^ 20) = [(8 * 2 ^ 20, 23)] := by
    rfl
  rw [hchunks]
  cases hgrow
  exact ⟨fun _ => by decide, fun _ _ => trivial⟩

/-- The calls that allocate and free and count what they do. -/
def Books.countAct (s : Books) : Call → Option Books
  | .physinit _ _ _ => none
  | .physalloc size color =>
    if size ≤ bminsz ∨ size = 2 ^ Nat.log2 size then s.act inimap (.physalloc size color) else none
  | .physfree dom l =>
    if bminsz / 2 < l.size ∧
        mergesOk (Whole inimap) (bkmax + 1) (s.sys.phys.bal dom) (index l.addr) then
      s.act inimap (.physfree dom l)
    else none

theorem countAct_step {c : Call} (h : s.countAct c = some t) :
    s.Step inimap c t ∧ s.Counted inimap c := by
  cases c with
  | physinit addr len dom => cases h
  | physalloc size color =>
    obtain ⟨hsize, h⟩ := ite_none_right_eq_some.mp h
    exact ⟨⟨h, trivial⟩, Or.inl (hsize.imp id fun hpow => ⟨_, hpow⟩)⟩
  | physfree dom l =>
    obtain ⟨hok, h⟩ := ite_none_right_eq_some.mp h
    exact ⟨⟨h, trivial⟩, hok⟩

/-- A block of 4 MiB and one of 1.5 MiB are allocated and freed. -/
theorem free_counted_freed :
    ∃ s : Books, s.sys.live 0 = [] ∧ (s.counts 0).nblocks = 4 ∧ s.Right := by
  have hstart : Reach (· = ({} : Books)) (fun s c t => s.Step inimap c t ∧ s.Counted inimap c) {} :=
    Reach.start rfl
  let calls : List Call := [.physalloc (2 ^ 22) 0, .physalloc (3 * 2 ^ 19) 0,
    .physfree 0 ⟨8 * 2 ^ 20, 2 ^ 22⟩, .physfree 0 ⟨12 * 2 ^ 20, 3 * 2 ^ 19⟩]
  have hrun : (exec Books.countAct freshBooks calls).isSome = true ∧
      ((exec Books.countAct freshBooks calls).getD {}).sys.live 0 = [] ∧
      (((exec Books.countAct freshBooks calls).getD {}).counts 0).nblocks = 4 := by
    decide +kernel
  have hr := (hstart.next ⟨giveBlock_books, giveBlock_counted⟩).exec (exec_getD (d := {}) hrun.1)
    (fun s c t _ hact => countAct_step hact)
  exact ⟨_, hrun.2.1, hrun.2.2, free_counted (by decide) hr⟩

/-- **A page of 4 KiB** is allocated and freed: one block of the four is never counted as free
again. -/
theorem free_miscounted :
    ∃ s, Reach (· = ({} : Books)) (Books.Step inimap) s ∧ s.sys.live 0 = [] ∧
      (s.counts 0).nfree = 3 ∧ (s.counts 0).nblocks = 4 ∧ ¬s.Right := by
  have hstart : Reach (· = ({} : Books)) (Books.Step inimap) {} := Reach.start rfl
  let calls : List Call := [.physalloc 4096 0, .physfree 0 ⟨8 * 2 ^ 20, 4096⟩]
  have hrun : (exec (Books.act inimap) freshBooks calls).isSome = true ∧
      ((exec (Books.act inimap) freshBooks calls).getD {}).sys.live 0 = [] ∧
      (((exec (Books.act inimap) freshBooks calls).getD {}).counts 0).nfree = 3 ∧
      (((exec (Books.act inimap) freshBooks calls).getD {}).counts 0).nblocks = 4 := by
    decide +kernel
  have hr := (hstart.next giveBlock_books).exec (exec_getD (d := {}) hrun.1) (by
    intro s c t hc hact
    refine ⟨hact, ?_⟩
    cases c with
    | physinit addr len dom => simp [calls] at hc
    | physalloc size color => trivial
    | physfree dom l => trivial)
  refine ⟨_, hr, hrun.2.1, hrun.2.2.1, hrun.2.2.2, fun hright => ?_⟩
  have hsame := (hright 0).2 hrun.2.1
  rw [hrun.2.2.1, hrun.2.2.2] at hsame
  exact absurd hsame (by decide)

end Physalloc
