import NixKernel.PhysallocInit

/-!
# Ranges and live allocations of one `Bal`

`Owned` ties a `Bal` to its history: the ranges given to `physinit` and the
allocations that have not been freed.  The three operations keep it.
-/

namespace Physalloc

open IndexList Tiling List
open Function (update update_self update_of_ne update_eq_self update_idem)

/-- An allocation: the address returned and the size asked for. -/
structure Live where
  addr : Nat
  size : Nat
  deriving DecidableEq, Repr

/-- The bytes of the block that was handed out. -/
def Live.bytes (l : Live) : Nat := 2 ^ blockKval l.size

/-- The units that start a live allocation. -/
def heldBy (live : List Live) (i : Nat) : Bool := live.any fun l => l.addr == bminsz * i

/-- The units of the ranges given, each rounded inwards. -/
def givenBy (ranges : List (Nat × Nat)) (x : Nat) : Prop :=
  ∃ r ∈ ranges, firstUnit r.1 ≤ x ∧ x < lastUnit (r.1 + r.2)

/-- The history of a `Bal`.  Before the first `physinit` it has none; with `A`, no
memory given has been lost. -/
structure Owned (pmstart : Nat) (A : Prop) (b : Bal) (ranges : List (Nat × Nat))
    (live : List Live) : Prop where
  inv : ∃ L, Inv (pmstart = 0) A b (givenBy ranges) (heldBy live) L
  setup : (b.kmin = 0 ∧ b.size = 0 ∧ ranges = [] ∧ live = []) ∨
    (b.kmin ≠ 0 ∧ b.memory = pmstart)
  distinct : live.Pairwise fun l l' => l.addr ≠ l'.addr
  sized : ∀ {l}, l ∈ live → ∃ i, l.addr = bminsz * i ∧ (b.at i).kval = blockKval l.size
  full : A → ∀ x, givenBy ranges x → Covers (b.tiles (heldBy live)) x

variable {pmstart : Nat} {A : Prop} {b b' : Bal} {ranges : List (Nat × Nat)} {live : List Live} {l : Live}
  {i : Nat}

theorem bminsz_pos : 0 < bminsz := Nat.two_pow_pos _

theorem index_of_addr {a : Nat} (h : a = bminsz * i) : index a = i := by
  rw [h]
  exact Nat.mul_div_cancel_left i bminsz_pos

theorem heldBy_iff : heldBy live i = true ↔ ∃ l ∈ live, l.addr = bminsz * i := by
  unfold heldBy
  simp [any_eq_true]

theorem heldBy_cons (hl : l.addr = bminsz * i) :
    heldBy (l :: live) = update (heldBy live) i true := by
  funext j
  by_cases hji : j = i
  · rw [hji, update_self]
    simp [heldBy, hl]
  · rw [update_of_ne hji]
    have hne : bminsz * i ≠ bminsz * j := by
      intro heq
      exact hji (Nat.eq_of_mul_eq_mul_left bminsz_pos heq).symm
    simp [heldBy, hl, hne]

theorem heldBy_erase (hd : live.Pairwise fun l l' => l.addr ≠ l'.addr) (hmem : l ∈ live)
    (hl : l.addr = bminsz * i) :
    heldBy (live.erase l) = update (heldBy live) i false := by
  induction live with
  | nil => cases hmem
  | cons a t ih =>
    rw [pairwise_cons] at hd
    by_cases hal : a = l
    · subst hal
      have hnot : heldBy t i = false := by
        cases hh : heldBy t i with
        | false => rfl
        | true =>
          obtain ⟨c, hc, hci⟩ := heldBy_iff.mp hh
          exact absurd (hl.trans hci.symm) (hd.1 c hc)
      rw [erase_cons_head, heldBy_cons hl, update_idem, ← hnot, update_eq_self]
    · have hmem' : l ∈ t := by
        rcases mem_cons.mp hmem with heq | h
        · exact absurd heq.symm hal
        · exact h
      have hali : a.addr ≠ bminsz * i := by
        rw [← hl]
        exact hd.1 l hmem'
      have hcons : ∀ m j, heldBy (a :: m) j = (a.addr == bminsz * j || heldBy m j) :=
        fun _ _ => rfl
      rw [erase_cons_tail (by simpa using hal)]
      funext j
      rw [hcons, ih hd.2 hmem']
      by_cases hji : j = i
      · rw [hji, update_self, update_self]
        simpa using hali
      · rw [update_of_ne hji, update_of_ne hji, hcons]

theorem log2ceil_two_pow (k : Nat) : log2ceil (2 ^ k) = k := by
  unfold log2ceil
  have hand : 2 ^ k &&& (2 ^ k - 1) = 0 := by
    rw [Nat.and_two_pow_sub_one_eq_mod]
    exact Nat.mod_self _
  rw [hand, Nat.log2_two_pow]
  rfl

theorem le_two_pow_log2ceil (m : Nat) : m ≤ 2 ^ log2ceil m := by
  unfold log2ceil
  split
  · exact Nat.le_of_lt Nat.lt_log2_self
  · next hpow =>
      by_cases hm : m = 0
      · rw [hm]
        exact Nat.zero_le _
      · obtain ⟨n, hn⟩ := (Nat.and_sub_one_eq_zero_iff_isPowerOfTwo hm).mp (by simpa using hpow)
        rw [hn, Nat.log2_two_pow]
        exact Nat.le_refl _

/-- The block handed out is large enough. -/
theorem size_le_bytes (l : Live) : l.size ≤ l.bytes := by
  unfold Live.bytes blockKval
  split
  · next hlt => exact Nat.le_trans (Nat.le_of_lt hlt) (le_two_pow_log2ceil _)
  · exact le_two_pow_log2ceil _

/-- A live allocation is a held block. -/
theorem Owned.held (h : Owned pmstart A b ranges live) (hl : l ∈ live) :
    ∃ i, l.addr = bminsz * i ∧ heldBy live i = true ∧ b.low ≤ i ∧
      (b.at i).kval = blockKval l.size ∧ i ≠ 0 ∧ l.bytes = bminsz * units (b.at i).kval ∧
      b.tiles (heldBy live) i = some (units (b.at i).kval) := by
  obtain ⟨L, hinv⟩ := h.inv
  obtain ⟨i, haddr, hk⟩ := h.sized hl
  have hheld : heldBy live i = true := heldBy_iff.mpr ⟨l, hl, haddr⟩
  have hlow := (hinv.good.used hheld).1
  have hkv := hinv.good.kvals hlow (Or.inr hheld)
  refine ⟨i, haddr, hheld, hlow, hk, hkv.1, ?_, tiles_eq_some.mpr ⟨hlow, Or.inr hheld, rfl⟩⟩
  rw [units_mul hkv.2.1, hk]
  rfl

/-- A `Bal` whose table is still all zero. -/
theorem Inv.fresh {B : Prop} (hlow : B → b.low = 0) (hblocks : b.blocks = fun _ => {})
    (havail : b.avail = fun _ => 0) :
    Inv B A b (givenBy []) (heldBy []) (fun _ => []) := by
  have hat : ∀ i, b.at i = {} := by
    intro i
    unfold Bal.at
    rw [hblocks]
  have htiles : b.tiles (heldBy []) = fun _ => none := by
    funext i
    unfold Bal.tiles
    rw [hat]
    simp [heldBy]
  have hused : ∀ {i}, ¬ ((b.at i).avail = true ∨ heldBy [] i = true) := by
    intro i
    rw [hat]
    simp [heldBy]
  have hlists : Lists b (fun _ => []) := by
    refine ⟨⟨?_, ?_, ?_⟩, ?_, ?_, ?_⟩
    · intro i _
      rw [hat]
      exact Or.inl rfl
    · intro i _
      rw [hat]
      exact Or.inl rfl
    · intro k
      rw [havail]
      exact Or.inl rfl
    · intro k
      rw [havail]
      rfl
    · intro k i hi
      cases hi
    · intro k i hi
      cases hi
  refine ⟨⟨hlists, ?_, fun _ hblk => absurd hblk hused, ?_, ?_, ?_⟩, ?_, ?_⟩
  · rw [htiles]
    exact ⟨fun {_ _} h => (Option.some_ne_none _ h.symm).elim,
      fun {_ _ _} h => (Option.some_ne_none _ h.symm).elim⟩
  · intro i hi
    cases hi
  · intro x hx
    rw [htiles] at hx
    obtain ⟨i, u, hu, _⟩ := hx
    cases hu
  · intro i _ _
    rw [hat]
  · intro hB
    exact ⟨hlow hB, fun i _ hav => absurd (Or.inl hav) hused⟩
  · intro _ i _ hav
    exact absurd (Or.inl hav) hused

theorem Owned.start (pmstart : Nat) (A : Prop) : Owned pmstart A {} [] [] := by
  refine ⟨⟨_, Inv.fresh ?_ rfl rfl⟩, Or.inl ⟨rfl, rfl, rfl, rfl⟩, List.Pairwise.nil, ?_, ?_⟩
  · intro _
    rfl
  · intro l hl
    cases hl
  · intro _ x hx
    obtain ⟨r, hr, _⟩ := hx
    cases hr

/-- What `grow` leaves has the history of what it started from. -/
theorem Owned.grow {addr len : Nat} (h : Owned pmstart A b ranges live)
    (hrun : b.grow pmstart addr len = some b') :
    Owned pmstart A b' ranges live ∧ b'.kmin ≠ 0 ∧ b'.memory = pmstart := by
  unfold Bal.grow at hrun
  split at hrun
  · next hkmin =>
      cases hrun
      have hset : bkmin ≠ 0 := by decide
      refine ⟨⟨?_, Or.inr ⟨hset, rfl⟩, h.distinct, ?_, ?_⟩, hset, rfl⟩
      all_goals
        obtain ⟨_, hranges, hlive⟩ : b.size = 0 ∧ ranges = [] ∧ live = [] := by
          rcases h.setup with hs | hs
          · exact hs.2
          · exact absurd hkmin hs.1
        subst hranges hlive
      · refine ⟨_, Inv.fresh ?_ rfl rfl⟩
        intro hz
        show index pmstart = 0
        rw [hz]
        rfl
      · intro l hl
        cases hl
      · intro _ x hx
        obtain ⟨r, hr, _⟩ := hx
        cases hr
  · next hkmin =>
      have hmem : b.memory = pmstart := by
        rcases h.setup with hs | hs
        · exact absurd hs.1 hkmin
        · exact hs.2
      split at hrun
      · cases hrun
      · split at hrun
        · cases hrun
          obtain ⟨L, hinv⟩ := h.inv
          have hsame : Inv (pmstart = 0) A { b with size := addr - b.base + len } (givenBy ranges)
              (heldBy live) L := by
            obtain ⟨⟨⟨⟨hn, hp, ha⟩, hli, hm, hb⟩, hpk, hk, hu, hw, hf⟩, hback, hatt⟩ := hinv
            exact ⟨⟨⟨⟨hn, hp, ha⟩, hli, hm, hb⟩, hpk, hk, hu, hw, hf⟩, hback, hatt⟩
          exact ⟨⟨⟨L, hsame⟩, Or.inr ⟨hkmin, hmem⟩, h.distinct, h.sized, h.full⟩, hkmin, hmem⟩
        · cases hrun
          exact ⟨h, hkmin, hmem⟩

theorem givenBy_cons (addr len : Nat) (ranges : List (Nat × Nat)) (x : Nat) :
    givenWith (givenBy ranges) (firstUnit addr) (lastUnit (addr + len)) x ↔
      givenBy ((addr, len) :: ranges) x := by
  unfold givenWith givenBy
  simp only [mem_cons, exists_eq_or_imp]
  exact Or.comm

/-- The range may be given to the allocator: nothing of it was given before, and it
does not start below the table. -/
structure Fits (pmstart : Nat) (ranges : List (Nat × Nat)) (addr len : Nat) : Prop where
  above : firstUnit addr < lastUnit (addr + len) → index pmstart ≤ firstUnit addr
  new : ∀ x, firstUnit addr ≤ x → x < lastUnit (addr + len) → ¬ givenBy ranges x

/-- No byte of the range was given before. -/
def Fresh (ranges : List (Nat × Nat)) (addr len : Nat) : Prop :=
  ∀ r ∈ ranges, ∀ x, addr ≤ x → x < addr + len → ¬ (r.1 ≤ x ∧ x < r.1 + r.2)

/-- The range is cut to start at `pmstart`, as `adrmapinit` does, or has no whole unit. -/
def Above (pmstart addr len : Nat) : Prop :=
  pmstart ≤ addr ∨ lastUnit (addr + len) ≤ firstUnit addr

/-- The merges of one `physinit` meet `ok`. -/
def initOk (ok : Bal → Nat → Prop) (pmstart : Nat) (b : Bal) (addr len : Nat) : Prop :=
  ∀ b₁, b.grow pmstart addr len = some b₁ → plopsOk ok b₁ (chunks addr (addr + len))

theorem Owned.iimbchunk {addr len : Nat} (h : Owned pmstart A b ranges live)
    (hk : b.kmin ≠ 0) (hmem : b.memory = pmstart) (hfits : Fits pmstart ranges addr len)
    (hzero : A → firstUnit addr = 0 → lastUnit (addr + len) = 0)
    (hok : plopsOk (MergeOk (pmstart = 0) A) b (chunks addr (addr + len))) :
    ∃ b', b.iimbchunk addr (addr + len) = some b' ∧ b'.range = b.range ∧
      Owned pmstart A b' ((addr, len) :: ranges) live := by
  obtain ⟨L, hinv⟩ := h.inv
  obtain ⟨hfill, hempty⟩ := chunks_spec addr (addr + len)
  unfold Bal.iimbchunk
  by_cases hlt : firstUnit addr < lastUnit (addr + len)
  · have hcons := hfill (Nat.le_of_lt hlt)
    rw [Nat.mul_comm _ bminsz, Nat.mul_comm _ bminsz] at hcons
    have hlow : b.low ≤ firstUnit addr := by
      unfold Bal.low
      rw [hmem]
      exact hfits.above hlt
    obtain ⟨b', L', hrun, hinv', hkept, hcov⟩ := hinv.plops hcons hlow hfits.new hok
    have hrange := hkept.range
    have hsetup : b'.kmin ≠ 0 ∧ b'.memory = pmstart := by
      unfold Bal.range at hrange
      grind
    refine ⟨b', hrun, hrange,
      ⟨⟨L', hinv'.congr (givenBy_cons addr len ranges)⟩, Or.inr hsetup, h.distinct, ?_, ?_⟩⟩
    · intro l hl
      obtain ⟨i, haddr, hkv⟩ := h.sized hl
      refine ⟨i, haddr, ?_⟩
      rw [hkept.kval i (heldBy_iff.mpr ⟨l, hl, haddr⟩) (fun hf => hf), hkv]
    · intro hA x hx
      have hne : firstUnit addr ≠ 0 := by
        intro hz
        have hz' := hzero hA hz
        omega
      rw [hcov hne]
      rcases (givenBy_cons addr len ranges x).mpr hx with hx | hx
      · exact Or.inl (h.full hA x hx)
      · exact Or.inr hx
  · have hnil : chunks addr (addr + len) = [] := by
      by_cases heq : firstUnit addr = lastUnit (addr + len)
      · have hcons := hfill (Nat.le_of_eq heq)
        rw [heq] at hcons
        exact hcons.eq_nil
      · exact hempty (by omega)
    have hsame : ∀ x, givenBy ranges x ↔ givenBy ((addr, len) :: ranges) x := by
      intro x
      rw [← givenBy_cons]
      constructor
      · intro hx
        exact Or.inl hx
      · intro hx
        rcases hx with hx | hx
        · exact hx
        · omega
    rw [hnil]
    refine ⟨b, rfl, rfl, ⟨⟨L, hinv.congr hsame⟩, Or.inr ⟨hk, hmem⟩, h.distinct, h.sized, ?_⟩⟩
    intro hA x hx
    exact h.full hA x ((hsame x).mpr hx)

/-- **`physinit`.**  The history grows by the range. -/
theorem Owned.physinit {addr len : Nat} (h : Owned pmstart A b ranges live)
    (hrun : b.physinit pmstart addr len = some b') (hfits : Fits pmstart ranges addr len)
    (hzero : A → firstUnit addr = 0 → lastUnit (addr + len) = 0)
    (hok : initOk (MergeOk (pmstart = 0) A) pmstart b addr len) :
    Owned pmstart A b' ((addr, len) :: ranges) live := by
  unfold Bal.physinit at hrun
  obtain ⟨b₁, hgrow, hchunk⟩ := Option.bind_eq_some_iff.mp hrun
  obtain ⟨h₁, hk₁, hmem₁⟩ := h.grow hgrow
  obtain ⟨b₂, hrun₂, _, h₂⟩ := h₁.iimbchunk hk₁ hmem₁ hfits hzero (hok b₁ hgrow)
  rw [hrun₂] at hchunk
  cases hchunk
  exact h₂

/-- **Allocation.**  An address other than 0 is a new live allocation. -/
theorem Owned.xphysalloc {size m : Nat} (h : Owned pmstart A b ranges live)
    (hal : bminsz ∣ pmstart) (hrun : b.xphysalloc size = some (b', m)) :
    (m = 0 ∧ b' = b) ∨ (m ≠ 0 ∧ Owned pmstart A b' ranges (⟨m, size⟩ :: live)) := by
  obtain ⟨L, hinv⟩ := h.inv
  have hset : b.kmin ≠ 0 ∧ b.memory = pmstart := by
    rcases h.setup with hs | hs
    · unfold Bal.xphysalloc at hrun
      rw [if_pos hs.2.1] at hrun
      cases hrun
    · exact hs
  rcases hinv.xphysalloc (by rw [hset.2]; exact hal) hrun with hnone | hsome
  · exact Or.inl hnone
  · right
    obtain ⟨i, L', hm, hi0, _, hfree, hinv', hkept, hkv, hcov⟩ := hsome
    have hheld : heldBy (⟨m, size⟩ :: live) = update (heldBy live) i true :=
      heldBy_cons hm
    have hsetup : b'.kmin ≠ 0 ∧ b'.memory = pmstart := by
      have hrange := hkept.range
      unfold Bal.range at hrange
      grind
    refine ⟨by rw [hm]; exact Nat.mul_ne_zero (Nat.ne_of_gt bminsz_pos) hi0,
      ⟨⟨L', by rw [hheld]; exact hinv'⟩, Or.inr hsetup, ?_, ?_, ?_⟩⟩
    · rw [pairwise_cons]
      refine ⟨?_, h.distinct⟩
      intro l hl heq
      have htrue : heldBy live i = true := heldBy_iff.mpr ⟨l, hl, heq.symm.trans hm⟩
      rw [hfree] at htrue
      cases htrue
    · intro l hl
      rcases mem_cons.mp hl with heq | hmem
      · rw [heq]
        exact ⟨i, hm, hkv⟩
      · obtain ⟨j, haddr, hkj⟩ := h.sized hmem
        refine ⟨j, haddr, ?_⟩
        rw [hkept.kval j (heldBy_iff.mpr ⟨l, hmem, haddr⟩) (fun hf => hf), hkj]
    · intro hA x hx
      rw [hheld, hcov]
      exact h.full hA x hx

/-- **Liberation.**  A live allocation goes. -/
theorem Owned.xphysfree (h : Owned pmstart A b ranges live) (hl : l ∈ live)
    (hrun : b.xphysfree l.addr = some b')
    (hok : mergesOk (MergeOk (pmstart = 0) A) (bkmax + 1) b (index l.addr)) :
    Owned pmstart A b' ranges (live.erase l) := by
  obtain ⟨L, hinv⟩ := h.inv
  obtain ⟨i, haddr, hheld, hlow, hkv, hi0, _⟩ := h.held hl
  have hindex : index l.addr = i := index_of_addr haddr
  have hne : l.addr ≠ 0 := by
    rw [haddr]
    exact Nat.mul_ne_zero (Nat.ne_of_gt bminsz_pos) hi0
  unfold Bal.xphysfree at hrun
  rw [if_neg hne, hindex] at hrun
  rw [hindex] at hok
  obtain ⟨b₁, L', hlib, hinv', hkept, hcov⟩ := hinv.liberate (n := bkmax + 1) hheld (by omega) hok
  rw [hlib] at hrun
  cases hrun
  have herase := heldBy_erase h.distinct hl haddr
  have hsetup : b'.kmin ≠ 0 ∧ b'.memory = pmstart := by
    have hrange := hkept.range
    unfold Bal.range at hrange
    rcases h.setup with hs | hs
    · rw [hs.2.2.2] at hl
      cases hl
    · grind
  refine ⟨⟨L', by rw [herase]; exact hinv'⟩, Or.inr hsetup, h.distinct.sublist erase_sublist,
    ?_, ?_⟩
  · intro l' hl'
    have hold := mem_of_mem_erase hl'
    obtain ⟨j, haddr', hkj⟩ := h.sized hold
    have hji : j ≠ i := by
      intro heq
      rw [heq] at haddr'
      have hstill : heldBy (live.erase l) i = true := heldBy_iff.mpr ⟨l', hl', haddr'⟩
      rw [herase, update_self] at hstill
      cases hstill
    refine ⟨j, haddr', ?_⟩
    rw [hkept.kval j (heldBy_iff.mpr ⟨l', hold, haddr'⟩) hji, hkj]
  · intro hA x hx
    rw [herase, hcov]
    exact h.full hA x hx

/-- An address that was never given to this `Bal` cannot be freed into it. -/
theorem Owned.xphysfree_foreign {a : Nat} (h : Owned pmstart A b ranges live) (ha : a ≠ 0)
    (hlow : b.low ≤ index a) (hg : ¬ givenBy ranges (index a)) : b.xphysfree a = none := by
  obtain ⟨L, hinv⟩ := h.inv
  unfold Bal.xphysfree
  rw [if_neg ha]
  exact liberate_foreign hinv.good hlow hg

/-- Block `i` is on the avail list of size `k`. -/
def Bal.OnList (b : Bal) (k i : Nat) : Prop :=
  ∃ l, Linked (fun j => (b.at j).next) (b.avail k) l ∧ i ∈ l

/-- Two stretches of memory, by first byte and length, that share no byte. -/
def Apart (a n c m : Nat) : Prop := a + n ≤ c ∨ c + m ≤ a

instance (a n c m : Nat) : Decidable (Apart a n c m) := inferInstanceAs (Decidable (_ ∨ _))

theorem apart_units {j u v : Nat} (h : i + u ≤ j ∨ j + v ≤ i) :
    Apart (bminsz * i) (bminsz * u) (bminsz * j) (bminsz * v) := by
  unfold Apart
  rw [← Nat.mul_add, ← Nat.mul_add]
  rcases h with h | h
  · exact Or.inl (Nat.mul_le_mul_left _ h)
  · exact Or.inr (Nat.mul_le_mul_left _ h)

theorem Owned.onList {k : Nat} (h : Owned pmstart A b ranges live) (hon : b.OnList k i) :
    b.low ≤ i ∧ (b.at i).avail = true ∧ (b.at i).kval = k ∧ bkmin ≤ k ∧ k ≤ bkmax ∧
      b.tiles (heldBy live) i = some (units k) := by
  obtain ⟨L, hinv⟩ := h.inv
  obtain ⟨l, hlinked, hmem⟩ := hon
  rw [hlinked.unique (hinv.good.lists.linked k)] at hmem
  obtain ⟨hlow, hav, hkv⟩ := hinv.good.lists.mem hmem
  have hk := (hinv.good.kvals hlow (Or.inl hav)).2
  rw [hkv] at hk
  exact ⟨hlow, hav, hkv, hk.1, hk.2, tiles_eq_some.mpr ⟨hlow, Or.inl hav, by rw [hkv]⟩⟩

theorem Owned.packed (h : Owned pmstart A b ranges live) : Packed (b.tiles (heldBy live)) := by
  obtain ⟨L, hinv⟩ := h.inv
  exact hinv.good.packed

theorem Owned.live_apart {l' : Live} (h : Owned pmstart A b ranges live) (hl : l ∈ live)
    (hl' : l' ∈ live) (hne : l.addr ≠ l'.addr) : Apart l.addr l.bytes l'.addr l'.bytes := by
  obtain ⟨i, haddr, _, _, _, _, hbytes, htile⟩ := h.held hl
  obtain ⟨j, haddr', _, _, _, _, hbytes', htile'⟩ := h.held hl'
  have hij : i ≠ j := by
    intro heq
    rw [haddr, haddr', heq] at hne
    exact hne rfl
  rw [haddr, haddr', hbytes, hbytes']
  exact apart_units (h.packed.disjoint htile htile' hij)

theorem Owned.live_onList_apart {k : Nat} (h : Owned pmstart A b ranges live) (hl : l ∈ live)
    (hon : b.OnList k i) : Apart l.addr l.bytes (bminsz * i) (2 ^ k) := by
  obtain ⟨L, hinv⟩ := h.inv
  obtain ⟨j, haddr, hheld, _, _, _, hbytes, htile⟩ := h.held hl
  obtain ⟨_, hav, _, hkmin, _, htile'⟩ := h.onList hon
  have hji : j ≠ i := by
    intro heq
    have hused := (hinv.good.used hheld).2
    rw [heq, hav] at hused
    cases hused
  rw [haddr, hbytes, ← units_mul hkmin]
  exact apart_units (h.packed.disjoint htile htile' hji)

/-- The units of a live allocation were given to the allocator. -/
theorem Owned.live_given (h : Owned pmstart A b ranges live) (hl : l ∈ live) :
    ∃ i u, l.addr = bminsz * i ∧ l.bytes = bminsz * u ∧ 0 < u ∧ b.low ≤ i ∧
      ∀ x, i ≤ x → x < i + u → givenBy ranges x := by
  obtain ⟨L, hinv⟩ := h.inv
  obtain ⟨i, haddr, _, hlow, _, _, hbytes, htile⟩ := h.held hl
  refine ⟨i, _, haddr, hbytes, hinv.good.packed.pos htile, hlow, ?_⟩
  intro x hx hx'
  exact hinv.good.within ⟨i, _, htile, hx, hx'⟩

theorem Owned.onList_given {k : Nat} (h : Owned pmstart A b ranges live) (hon : b.OnList k i)
    {x : Nat} (hx : i ≤ x) (hx' : x < i + units k) : givenBy ranges x := by
  obtain ⟨L, hinv⟩ := h.inv
  obtain ⟨_, _, _, _, _, htile⟩ := h.onList hon
  exact hinv.good.within ⟨i, _, htile, hx, hx'⟩

theorem le_firstUnit_mul (a : Nat) : a ≤ bminsz * firstUnit a := by
  unfold firstUnit
  have hdiv := Nat.div_add_mod (a + (bminsz - 1)) bminsz
  have hmod := Nat.mod_lt (a + (bminsz - 1)) bminsz_pos
  omega

theorem lastUnit_mul_le (e : Nat) : bminsz * lastUnit e ≤ e := Nat.mul_div_le e bminsz

/-- The bytes of a unit that was given lie in one of the ranges. -/
theorem unit_in_range {r : Nat × Nat} {x : Nat}
    (hx : firstUnit r.1 ≤ x ∧ x < lastUnit (r.1 + r.2)) :
    r.1 ≤ bminsz * x ∧ bminsz * x + bminsz ≤ r.1 + r.2 := by
  have hlo := le_firstUnit_mul r.1
  have hhi := lastUnit_mul_le (r.1 + r.2)
  have hlo' : bminsz * firstUnit r.1 ≤ bminsz * x := Nat.mul_le_mul_left _ hx.1
  have hhi' : bminsz * (x + 1) ≤ bminsz * lastUnit (r.1 + r.2) := Nat.mul_le_mul_left _ hx.2
  rw [Nat.mul_add, Nat.mul_one] at hhi'
  omega

/-- Fresh memory fits. -/
theorem Fresh.fits {addr len : Nat} (h : Fresh ranges addr len) (habove : Above pmstart addr len) :
    Fits pmstart ranges addr len := by
  constructor
  · intro hlt
    rcases habove with hle | hle
    · exact Nat.le_trans (Nat.div_le_div_right hle) (Nat.div_le_div_right (Nat.le_add_right _ _))
    · omega
  · intro x hx hx' hg
    obtain ⟨r, hr, hin⟩ := hg
    have hpos := bminsz_pos
    have hold := unit_in_range hin
    have hnew := unit_in_range (r := (addr, len)) ⟨hx, hx'⟩
    exact h r hr (bminsz * x) hnew.1 (by omega) ⟨hold.1, by omega⟩

/-- The ranges neither overlap nor touch. -/
def Spaced (ranges : List (Nat × Nat)) : Prop :=
  ∀ r ∈ ranges, ∀ r' ∈ ranges, r ≠ r' → r.1 + r.2 < r'.1 ∨ r'.1 + r'.2 < r.1

/-- Consecutive units that were given lie in one range, if the ranges are spaced. -/
theorem run_in_range {u : Nat} (hs : Spaced ranges) (hu : 0 < u)
    (hg : ∀ x, i ≤ x → x < i + u → givenBy ranges x) :
    ∃ r ∈ ranges, r.1 ≤ bminsz * i ∧ bminsz * i + bminsz * u ≤ r.1 + r.2 := by
  obtain ⟨r, hr, hi⟩ := hg i (Nat.le_refl _) (by omega)
  have hall : ∀ n, n < u → firstUnit r.1 ≤ i + n ∧ i + n < lastUnit (r.1 + r.2) := by
    intro n
    induction n with
    | zero =>
      intro _
      exact hi
    | succ n ih =>
      intro hn
      have hprev := ih (by omega)
      obtain ⟨r', hr', hnext⟩ := hg (i + (n + 1)) (by omega) (by omega)
      have hin := unit_in_range hprev
      have hin' := unit_in_range hnext
      have hsucc : bminsz * (i + (n + 1)) = bminsz * (i + n) + bminsz := by
        rw [← Nat.add_assoc, Nat.mul_add, Nat.mul_one]
      by_cases heq : r = r'
      · rw [heq]
        exact hnext
      · rcases hs r hr r' hr' heq with hc | hc
        · omega
        · omega
  refine ⟨r, hr, (unit_in_range hi).1, ?_⟩
  have hlast := (unit_in_range (hall (u - 1) (by omega))).2
  have hmul : bminsz * (i + (u - 1)) + bminsz = bminsz * i + bminsz * u := by
    rw [← Nat.mul_add, ← Nat.mul_succ]
    congr 1
    omega
  omega

end Physalloc
