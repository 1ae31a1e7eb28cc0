import NixKernel.PhysallocFirst

/-!
# Carving a range

`iimbchunk` puts the whole units of a range on the lists and counts them in `nfree` and in `nblocks`.
Two kinds of range are counted in `nblocks` and not in `nfree`.  A range that lies within one unit is
rounded to one that ends before it starts, and the difference is unsigned.  And a block at address 0 is
not put on a list.
-/

namespace Physalloc

open IndexList Tiling

variable {pmstart addr len : Nat} {b b' : Bal} {ranges : List (Nat × Nat)} {live : List Live} {c : Counts}

/-- Unit `x` belongs to a block on an avail list. -/
def Bal.Free (b : Bal) (x : Nat) : Prop :=
  ∃ k i, bkmin ≤ k ∧ k ≤ bkmax ∧ b.OnList k i ∧ i ≤ x ∧ x < i + units k

/-- No two blocks on the lists share a byte. -/
def Bal.Tiled (b : Bal) : Prop :=
  ∀ {k i k' i'}, b.OnList k i → b.OnList k' i' →
    (k = k' ∧ i = i') ∨ Physalloc.Apart (bminsz * i) (2 ^ k) (bminsz * i') (2 ^ k')

/-- **What carving a range is for**: the loops end; the blocks they put on the lists are those of the
range, rounded inwards, and are counted.  A range without a whole unit changes nothing. -/
def Carved (b : Bal) (c : Counts) (a e : Nat) : Prop :=
  ∃ b', b.iimbchunk a e = some b' ∧
    if firstUnit a < lastUnit e then
      Consecutive (firstUnit a * bminsz) (chunks a e) (lastUnit e * bminsz) ∧
        (∀ x, b'.Free x ↔ b.Free x ∨ firstUnit a ≤ x ∧ x < lastUnit e) ∧ b'.Tiled ∧
        c.iimbchunk a e =
          ⟨c.nfree + (lastUnit e - firstUnit a : Nat), c.nblocks + (lastUnit e - firstUnit a : Nat)⟩
    else b' = b ∧ c.iimbchunk a e = c

/-- What is free is what has been given and is not in use. -/
theorem Owned.free_iff (h : Owned pmstart True b ranges live) (x : Nat) :
    b.Free x ↔ givenBy ranges x ∧ ¬(⟨b, ranges, live⟩ : Ledger).InUse x := by
  have hpart := @Owned.partitioned pmstart ⟨b, ranges, live⟩ h
  constructor
  · intro hfree
    refine ⟨(hpart.covered x).mpr (.inl hfree), ?_⟩
    rintro ⟨l, hl, hlo, hhi⟩
    obtain ⟨k, i, hkmin, -, hon, hi, hi'⟩ := hfree
    have hlo' : bminsz * i ≤ bminsz * x := Nat.mul_le_mul_left _ hi
    have hhi' : bminsz * x < bminsz * i + 2 ^ k := by
      rw [← units_mul hkmin, ← Nat.mul_add]
      exact Nat.mul_lt_mul_of_pos_left hi' bminsz_pos
    have hapart := hpart.mixed hl hon
    unfold Physalloc.Apart at hapart
    omega
  · rintro ⟨hgiven, hno⟩
    exact ((hpart.covered x).mp hgiven).resolve_right hno

/-- The units of the range are free once they have been given. -/
theorem Owned.free_iimbchunk (h : Owned pmstart True b ranges live)
    (h' : Owned pmstart True b' ((addr, len) :: ranges) live) (hfits : Fits pmstart ranges addr len)
    (x : Nat) :
    b'.Free x ↔ b.Free x ∨ firstUnit addr ≤ x ∧ x < lastUnit (addr + len) := by
  rw [h.free_iff, h'.free_iff, ← givenBy_cons]
  have hsame : (⟨b', (addr, len) :: ranges, live⟩ : Ledger).InUse x ↔
      (⟨b, ranges, live⟩ : Ledger).InUse x := Iff.rfl
  rw [hsame]
  constructor
  · rintro ⟨hgiven | hrange, hno⟩
    · exact .inl ⟨hgiven, hno⟩
    · exact .inr hrange
  · rintro (⟨hgiven, hno⟩ | hrange)
    · exact ⟨.inl hgiven, hno⟩
    · refine ⟨.inr hrange, fun huse => hfits.new x hrange.1 hrange.2 ?_⟩
      exact ((@Owned.partitioned pmstart ⟨b, ranges, live⟩ h).covered x).mpr (.inr huse)

/-- A range within one unit is counted as very many. -/
theorem chunkCount_pos (hlt : lastUnit (addr + len) < firstUnit addr) : 0 < chunkCount addr (addr + len) := by
  have hone : firstUnit addr = lastUnit (addr + len) + 1 := by
    have hle : firstUnit addr ≤ lastUnit (addr + len) + 1 := by
      unfold firstUnit lastUnit
      rw [← Nat.add_div_right _ bminsz_pos]
      exact Nat.div_le_div_right (by omega)
    omega
  change 0 < (if firstUnit addr * bminsz ≤ lastUnit (addr + len) * bminsz then _
    else 2 ^ 64 - (firstUnit addr * bminsz - lastUnit (addr + len) * bminsz)) / bminsz
  have hgt : ¬firstUnit addr * bminsz ≤ lastUnit (addr + len) * bminsz :=
    Nat.not_le.mpr (Nat.mul_lt_mul_of_pos_right hlt bminsz_pos)
  rw [if_neg hgt, ← Nat.sub_mul, hone, Nat.add_sub_cancel_left]
  decide

/-- Nothing is on a list at address 0. -/
theorem not_free_zero (b : Bal) : ¬b.Free 0 := by
  rintro ⟨k, i, -, -, ⟨l, hlinked, hmem⟩, hi, -⟩
  exact hlinked.ne_zero hmem (Nat.le_zero.mp hi)

/-- **A range is carved as it should be** just when it does not end, rounded inwards, before it starts
and has no unit at address 0.  It is the first one, or no merge on the way loses part of a list. -/
theorem carved_iff (h : Owned pmstart True b ranges live) (hk : b.kmin ≠ 0) (hmem : b.memory = pmstart)
    (hfits : Fits pmstart ranges addr len)
    (hok : ranges = [] ∨ plopsOk (Whole pmstart) b (chunks addr (addr + len))) (c : Counts) :
    Carved b c addr (addr + len) ↔
      firstUnit addr ≤ lastUnit (addr + len) ∧ (firstUnit addr = 0 → lastUnit (addr + len) = 0) := by
  constructor
  · rintro ⟨b', -, hcarved⟩
    by_cases hlt : firstUnit addr < lastUnit (addr + len)
    · rw [if_pos hlt] at hcarved
      refine ⟨Nat.le_of_lt hlt, fun hzero => ?_⟩
      by_contra hne
      exact not_free_zero b' ((hcarved.2.1 0).mpr (.inr ⟨Nat.le_of_eq hzero, Nat.pos_of_ne_zero hne⟩))
    · rw [if_neg hlt] at hcarved
      by_cases heq : lastUnit (addr + len) < firstUnit addr
      · have hnil : chunks addr (addr + len) = [] := (chunks_spec addr (addr + len)).2 heq
        have hblocks := congrArg Counts.nblocks hcarved.2
        rw [Counts.iimbchunk, hnil] at hblocks
        change c.nblocks + chunkCount addr (addr + len) = c.nblocks at hblocks
        have hpos := chunkCount_pos heq
        omega
      · refine ⟨Nat.le_of_not_lt heq, fun hzero => ?_⟩
        omega
  · rintro ⟨hle, hzero⟩
    have hwhole : plopsOk (Whole pmstart) b (chunks addr (addr + len)) := by
      by_cases hlt : firstUnit addr < lastUnit (addr + len)
      · rcases hok with hfirst | hok
        · rw [hfirst] at h
          have hlow := hfits.above hlt
          rw [← hmem] at hlow
          exact h.plopsOk_first hmem hlow fun hz => by omega
        · exact hok
      · have hcons := (chunks_spec addr (addr + len)).1 hle
        have heq : firstUnit addr = lastUnit (addr + len) := by omega
        rw [heq] at hcons
        rw [hcons.eq_nil]
        trivial
    have hmerge := hwhole.mono whole_mergeOk
    obtain ⟨b', hrun, -, h'⟩ := h.iimbchunk hk hmem hfits (fun _ => hzero) hmerge
    have hcons := (chunks_spec addr (addr + len)).1 hle
    have hcount := iimbchunk_count c hle hzero
    refine ⟨b', hrun, ?_⟩
    by_cases hlt : firstUnit addr < lastUnit (addr + len)
    · rw [if_pos hlt]
      exact ⟨hcons, h.free_iimbchunk h' hfits, (@Owned.partitioned pmstart ⟨b', _, live⟩ h').lists, hcount⟩
    · rw [if_neg hlt]
      have heq : firstUnit addr = lastUnit (addr + len) := by omega
      rw [heq] at hcons
      rw [Bal.iimbchunk, hcons.eq_nil] at hrun
      refine ⟨(Option.some.inj hrun).symm, ?_⟩
      rw [hcount, heq, Nat.sub_self]
      simp

/-- A domain set up for 8 MiB at 16 MiB. -/
def setUp : Bal := { base := 16 * 2 ^ 20, size := 8 * 2 ^ 20, kmin := bkmin, memory := 0 }

theorem setUp_owned : Owned 0 True setUp [] [] ∧ setUp.kmin ≠ 0 ∧ setUp.memory = 0 :=
  @Owned.grow 0 True {} setUp [] [] (16 * 2 ^ 20) (8 * 2 ^ 20) (Owned.start 0 True) rfl

/-- Those 8 MiB are carved. -/
theorem carved_iff_setUp : Carved setUp {} (16 * 2 ^ 20) (16 * 2 ^ 20 + 8 * 2 ^ 20) :=
  (carved_iff setUp_owned.1 setUp_owned.2.1 setUp_owned.2.2
    ⟨fun _ => Nat.zero_le _, fun _ _ _ hgiven => by obtain ⟨r, hr, -⟩ := hgiven; cases hr⟩ (.inl rfl) {}).mpr
    ⟨by decide, by decide⟩

/-- **A page within one unit** is counted as `2^43 - 1` blocks. -/
theorem page_counted : ¬Carved setUp {} (17 * 2 ^ 20) (17 * 2 ^ 20 + 4096) := by
  rintro ⟨b', -, hcarved⟩
  rw [if_neg (by decide)] at hcarved
  have hblocks := congrArg Counts.nblocks hcarved.2
  have hcount : (Counts.iimbchunk {} (17 * 2 ^ 20) (17 * 2 ^ 20 + 4096)).nblocks = 2 ^ 43 - 1 := by
    decide +kernel
  rw [hcount] at hblocks
  cases hblocks

end Physalloc
