import NixKernel.PhysallocBlocks

/-!
# What allocation, liberation and initialisation do to the blocks

`xphysfree` turns a held block into available memory, `xphysalloc` takes a block off its list and
splits it, and `iimbchunk` adds a range block by block.
-/

namespace Physalloc

open IndexList Tiling
open Function (update update_self update_of_ne update_eq_self)

variable {B A : Prop} {b b' : Bal} {given : Nat → Prop} {held : Nat → Bool} {L : Nat → List Nat}
  {i j k : Nat}

/-- The fields of a `Bal` that only `physinit` changes. -/
def Bal.range (b : Bal) : Nat × Nat × Nat × Nat := (b.base, b.size, b.kmin, b.memory)

theorem low_of_range (h : b'.range = b.range) : b'.low = b.low := by
  unfold Bal.range at h
  unfold Bal.low
  have hmem : b'.memory = b.memory := by grind
  rw [hmem]

theorem range_putOn (b : Bal) (k i : Nat) : (b.putOn k i).range = b.range := by
  unfold Bal.putOn
  simp only
  split <;> rfl

theorem range_takeOff (b : Bal) (i : Nat) : (b.takeOff i).range = b.range := by
  have hprev : (b.unlinkPrev i).range = b.range := by
    unfold Bal.unlinkPrev
    simp only
    split <;> rfl
  have hnext : ((b.unlinkPrev i).unlinkNext i).range = (b.unlinkPrev i).range := by
    unfold Bal.unlinkNext
    simp only
    split <;> rfl
  rw [← hprev, ← hnext]
  rfl

theorem range_merge (b : Bal) (i : Nat) : (b.merge i).1.range = b.range := by
  unfold Bal.merge
  exact range_takeOff b (b.buddy i)

/-- Every merge of the loop `S1` meets `ok`. -/
def mergesOk (ok : Bal → Nat → Prop) : Nat → Bal → Nat → Prop
  | 0, _, _ => True
  | n + 1, b, i =>
    b.stops i = true ∨ (ok b (b.buddy i) ∧ mergesOk ok n (b.merge i).1 (b.merge i).2)

instance mergesOk.decidable {ok : Bal → Nat → Prop} [∀ b p, Decidable (ok b p)] :
    ∀ n b i, Decidable (mergesOk ok n b i)
  | 0, _, _ => isTrue trivial
  | n + 1, b, i =>
    have : Decidable (mergesOk ok n (b.merge i).1 (b.merge i).2) := mergesOk.decidable n _ _
    inferInstanceAs (Decidable (b.stops i = true ∨
      (ok b (b.buddy i) ∧ mergesOk ok n (b.merge i).1 (b.merge i).2)))

theorem mergesOk.mono {ok ok' : Bal → Nat → Prop} {n : Nat} (himp : ∀ b p, ok b p → ok' b p)
    (h : mergesOk ok n b i) : mergesOk ok' n b i := by
  induction n generalizing b i with
  | zero => trivial
  | succ n ih =>
    rcases h with hstop | ⟨hok, hrest⟩
    · exact Or.inl hstop
    · exact Or.inr ⟨himp _ _ hok, ih hrest⟩

/-- What an operation leaves: the invariant, the same fixed fields, and blocks that
were held before, other than those in `ex`, with their sizes. -/
structure Kept (ex : Nat → Prop) (b : Bal) (held : Nat → Bool) (b' : Bal) : Prop where
  range : b'.range = b.range
  kval : ∀ x, held x = true → ¬ ex x → (b'.at x).kval = (b.at x).kval

theorem Kept.refl (ex : Nat → Prop) (b : Bal) (held : Nat → Bool) : Kept ex b held b :=
  ⟨rfl, fun _ _ _ => rfl⟩

/-- Putting a held block on its list keeps the blocks. -/
theorem Inv.putOn_held (h : Inv B A b given held L) (hheld : held i = true) :
    Inv B A (b.putOn (b.at i).kval i) given (update held i false)
        (update L (b.at i).kval (i :: L (b.at i).kval)) ∧
      Kept (· = i) b held (b.putOn (b.at i).kval i) ∧
      (b.putOn (b.at i).kval i).tiles (update held i false) = b.tiles held := by
  obtain ⟨hlow, hused⟩ := h.good.used hheld
  obtain ⟨hi0, hk⟩ := h.good.kvals hlow (Or.inr hheld)
  have htile : b.tiles held i = some (units (b.at i).kval) :=
    tiles_eq_some.mpr ⟨hlow, Or.inr hheld, rfl⟩
  have hsame : update (b.tiles held) i (some (units (b.at i).kval)) = b.tiles held := by
    rw [← htile]
    exact update_eq_self _ _
  have hne := h.good.lists.avail_ne hi0 hused (b.at i).kval
  refine ⟨?_, ⟨range_putOn _ _ _, ?_⟩, ?_⟩
  · apply h.putOn hlow hi0 hused hk
    · rw [hsame]
      exact h.good.packed
    · intro x hx
      rw [hsame] at hx
      exact h.good.within hx
  · intro x hx hxi
    rw [at_putOn h.good.lists.sane hlow hne (h.good.used hx).1, if_neg hxi]
    split <;> rfl
  · rw [tiles_putOn h.good.lists hlow hi0 hused, hsame]

theorem Pair.kept {p : Nat} (h : Pair b held i p) (hs : b.Sane)
    (hlow : ∀ x, held x = true → b.low ≤ x) : Kept (· = i) b held (b.merge i).1 := by
  refine ⟨range_merge b i, ?_⟩
  intro x hx hxi
  rw [(h.at_merge hs (hlow x hx)).2, if_neg]
  intro heq
  have hxp : x = p := by omega
  rw [hxp, h.notHeld] at hx
  cases hx

/-- **Liberation.**  A held block becomes available memory. -/
theorem Inv.liberate {n : Nat} (h : Inv B A b given held L) (hheld : held i = true)
    (hn : bkmax < (b.at i).kval + n) (hok : mergesOk (MergeOk B A) n b i) :
    ∃ b' L', b.liberate n i = some b' ∧ Inv B A b' given (update held i false) L' ∧
      Kept (· = i) b held b' ∧
      ∀ x, Covers (b'.tiles (update held i false)) x ↔ Covers (b.tiles held) x := by
  induction n generalizing b i held L with
  | zero =>
    have hk := (h.good.kvals (h.good.used hheld).1 (Or.inr hheld)).2.2
    omega
  | succ n ih =>
    obtain ⟨hlow, hused⟩ := h.good.used hheld
    obtain ⟨hi0, hk⟩ := h.good.kvals hlow (Or.inr hheld)
    have hunits : units (b.at i).kval ≠ 0 := by
      have hpos := units_pos hk.1
      omega
    cases hstop : b.stops i with
    | true =>
      obtain ⟨hinv, hkept, htiles⟩ := h.putOn_held hheld
      refine ⟨_, _, ?_, hinv, hkept, fun x => by rw [htiles]⟩
      simp [Bal.liberate, hunits, hstop]
    | false =>
      have hpair := h.good.pair hheld hstop
      have hmerge := hpair.merge_eq
      have hs := h.good.lists.sane
      have hok' : MergeOk B A b (b.buddy i) ∧
          mergesOk (MergeOk B A) n (b.merge i).1 (b.merge i).2 := by
        rcases hok with hc | hc
        · rw [hstop] at hc
          cases hc
        · exact hc
      have hinv := h.merge hpair hok'.1
      have hmin : (b.merge i).2 = min (b.buddy i) i := by rw [hmerge]
      have hheld' : heldMerged held (b.buddy i) i (b.merge i).2 = true := by
        rw [hmin]
        exact update_self _ _ _
      have hkval : ((b.merge i).1.at (b.merge i).2).kval = (b.at i).kval + 1 := by
        rw [hmin, (hpair.at_merge hs hpair.low_min).2, if_pos rfl]
      obtain ⟨b', L', hrun, hinv', hkept', hcov⟩ := ih hinv hheld' (by omega) hok'.2
      rw [hmin, hpair.heldMerged_freed] at hinv' hcov
      refine ⟨b', L', ?_, hinv', ?_, ?_⟩
      · simp [Bal.liberate, hunits, hstop, hrun]
      · have hkept := hpair.kept hs (fun x hx => (h.good.used hx).1)
        refine ⟨hkept'.range.trans hkept.range, ?_⟩
        intro x hx hxi
        have hxm : x ≠ min (b.buddy i) i := by
          intro heq
          have hxp : x = b.buddy i := by omega
          rw [hxp, hpair.notHeld] at hx
          cases hx
        have hheldx : heldMerged held (b.buddy i) i x = true := by
          unfold heldMerged
          rw [update_of_ne hxm, update_of_ne hxi]
          exact hx
        rw [hkept'.kval x hheldx (by rw [hmin]; exact hxm), hkept.kval x hx hxi]
      · intro x
        obtain ⟨hlo, hhi⟩ := hpair.tiles_eq
        rw [hcov, hpair.tiles_merge hs, h.good.packed.covers_join hlo hhi]

/-- A block that was never given to this allocator: the division by zero. -/
theorem liberate_foreign {n : Nat} (h : Good b given held L) (hlow : b.low ≤ i)
    (hg : ¬ given i) : b.liberate n i = none := by
  cases n with
  | zero => rfl
  | succ n =>
    have hk := h.fresh i hlow hg
    have hunits : units (b.at i).kval = 0 := by
      rw [hk]
      exact units_small (by decide)
    simp [Bal.liberate, hunits]

theorem Lists.first_at (h : Lists b L) (hne : b.avail j ≠ 0) :
    b.low ≤ b.avail j ∧ (b.at (b.avail j)).avail = true ∧ (b.at (b.avail j)).kval = j :=
  h.mem (h.first_mem hne)

theorem Good.not_held_of_avail (h : Good b given held L) (hav : (b.at i).avail = true) :
    held i = false := by
  cases hh : held i with
  | false => rfl
  | true =>
    have hfalse := (h.used hh).2
    rw [hav] at hfalse
    cases hfalse

/-- The tags and sizes after the first block is popped. -/
theorem at_pop_fields {x : Nat} (hi : b.low ≤ b.avail j) (hx : b.low ≤ x) :
    ((b.pop j k).at x).avail = (if x = b.avail j then false else (b.at x).avail) ∧
      ((b.pop j k).at x).kval = (if x = b.avail j then k else (b.at x).kval) ∧
      ((b.pop j k).at x).next = if x = b.avail j then 0 else (b.at x).next := by
  rw [at_pop hi hx]
  by_cases hxi : x = b.avail j
  · simp [hxi]
  · simp only [if_neg hxi]
    split <;> exact ⟨rfl, rfl, rfl⟩

theorem Backed.pop (h : Backed b) (hL : Lists b L) (hzero : b.low = 0) (hne : b.avail j ≠ 0) :
    Backed (b.pop j k) := by
  obtain ⟨hilow, hiav, _⟩ := hL.first_at hne
  intro x hx hav hprev
  rw [low_pop] at hx
  obtain ⟨hfav, _, _⟩ := at_pop_fields (k := k) hilow hx
  have hxi : x ≠ b.avail j := by
    intro heq
    rw [hfav, if_pos heq] at hav
    cases hav
  rw [hfav, if_neg hxi] at hav
  rw [at_pop hilow hx, if_neg hxi, hzero, Nat.add_zero] at hprev ⊢
  by_cases hclr : x = (b.at (b.avail j)).next
  · rw [if_pos hclr] at hprev
    exact absurd rfl hprev
  · rw [if_neg hclr] at hprev ⊢
    obtain ⟨hpav, hpnext⟩ := h x hx hav hprev
    have hlowp : b.low ≤ (b.at x).prev := by
      rw [hzero]
      exact Nat.zero_le _
    have hpi : (b.at x).prev ≠ b.avail j := by
      intro heq
      rw [heq] at hpnext
      exact hclr hpnext.symm
    obtain ⟨hpav', _, hpnext'⟩ := at_pop_fields (k := k) hilow hlowp
    rw [hpav', hpnext', if_neg hpi, if_neg hpi]
    exact ⟨hpav, hpnext⟩

theorem Attached.pop (h : Attached b L) (hL : Lists b L) (hne : b.avail j ≠ 0) :
    Attached (b.pop j k) (update L j (L j).tail) := by
  obtain ⟨hilow, _, hik⟩ := hL.first_at hne
  intro x hx hav
  rw [low_pop] at hx
  obtain ⟨hfav, hfk, _⟩ := at_pop_fields (k := k) hilow hx
  have hxi : x ≠ b.avail j := by
    intro heq
    rw [hfav, if_pos heq] at hav
    cases hav
  rw [hfav, if_neg hxi] at hav
  rw [hfk, if_neg hxi]
  have hold := h x hx hav
  by_cases hxk : (b.at x).kval = j
  · rw [hxk] at hold ⊢
    rw [update_self]
    obtain ⟨t, ht, _⟩ := (hL.linked j).of_ne_zero hne
    rw [ht] at hold ⊢
    rcases List.mem_cons.mp hold with heq | hmem
    · exact absurd heq hxi
    · exact hmem
  · rw [update_of_ne hxk]
    exact hold

/-- The first block of a list becomes a held block, of a smaller size. -/
theorem Inv.pop (h : Inv B A b given held L) (hne : b.avail j ≠ 0) (hk : bkmin ≤ k ∧ k ≤ j) :
    Inv B A (b.pop j k) given (update held (b.avail j) true)
        (update L j (L j).tail) ∧
      (b.pop j k).tiles (update held (b.avail j) true) =
        update (b.tiles held) (b.avail j) (some (units k)) := by
  have hL := h.good.lists
  have hg := h.good
  obtain ⟨hilow, hiav, hik⟩ := hL.first_at hne
  have hfields := fun {x} hx => at_pop_fields (x := x) (k := k) hilow hx
  have htiles : (b.pop j k).tiles (update held (b.avail j) true) =
      update (b.tiles held) (b.avail j) (some (units k)) := by
    apply tiles_update (low_pop b j k)
    · intro x hx hxi
      obtain ⟨hfav, hfk, _⟩ := hfields hx
      rw [hfav, hfk, if_neg hxi, if_neg hxi, update_of_ne hxi]
      exact ⟨rfl, rfl, rfl⟩
    · rw [tiles_eq_some, low_pop, (hfields hilow).2.1, if_pos rfl]
      exact ⟨hilow, Or.inr (update_self _ _ _), rfl⟩
  have htile : b.tiles held (b.avail j) = some (units j) :=
    tiles_eq_some.mpr ⟨hilow, Or.inl hiav, by rw [hik]⟩
  have hle := units_mono hk.2
  obtain ⟨hi0, hjmin, hjmax⟩ := hg.kvals hilow (Or.inl hiav)
  rw [hik] at hjmin hjmax
  refine ⟨⟨⟨hL.pop hne, ?_, ?_, ?_, ?_, ?_⟩, ?_, ?_⟩, htiles⟩
  · rw [htiles]
    exact hg.packed.shrink htile (units_pos hk.1) hle
  · intro x hx hblk
    rw [low_pop] at hx
    obtain ⟨hfav, hfk, _⟩ := hfields hx
    rw [hfk]
    by_cases hxi : x = b.avail j
    · rw [if_pos hxi, hxi]
      exact ⟨hi0, hk.1, Nat.le_trans hk.2 hjmax⟩
    · rw [if_neg hxi]
      rw [hfav, if_neg hxi, update_of_ne hxi] at hblk
      exact hg.kvals hx hblk
  · intro x hheld
    rw [low_pop]
    by_cases hxi : x = b.avail j
    · rw [hxi]
      refine ⟨hilow, ?_⟩
      rw [(hfields hilow).1, if_pos rfl]
    · rw [update_of_ne hxi] at hheld
      have hold := hg.used hheld
      refine ⟨hold.1, ?_⟩
      rw [(hfields hold.1).1, if_neg hxi]
      exact hold.2
  · intro x hx
    rw [htiles, hg.packed.covers_shrink htile hle] at hx
    exact hg.within hx.1
  · intro x hx hgiv
    rw [low_pop] at hx
    have hxi : x ≠ b.avail j := by
      intro heq
      rw [heq] at hgiv
      exact hgiv (hg.within (hg.packed.covers_start htile))
    rw [(hfields hx).2.1, if_neg hxi]
    exact hg.fresh x hx hgiv
  · intro hB
    obtain ⟨hzero, hback⟩ := h.backed hB
    exact ⟨hzero, hback.pop hL hzero hne⟩
  · intro hA
    exact (h.attached hA).pop hL hne

/-- A block is made out of memory that nothing covers. -/
theorem Inv.putOn_free (h : Inv B A b given held L) (hlow : b.low ≤ i) (hi : i ≠ 0)
    (hk : bkmin ≤ k ∧ k ≤ bkmax)
    (hfree : ∀ x, i ≤ x → x < i + units k → ¬ Covers (b.tiles held) x)
    (hgiven : ∀ x, i ≤ x → x < i + units k → given x) :
    Inv B A (b.putOn k i) given held (update L k (i :: L k)) ∧
      Kept (fun _ => False) b held (b.putOn k i) ∧
      (b.putOn k i).tiles held = update (b.tiles held) i (some (units k)) := by
  have hL := h.good.lists
  have hpos := units_pos hk.1
  obtain ⟨hused, hheld⟩ := h.good.used_of_uncovered hlow (hfree i (Nat.le_refl _) (by omega))
  have hnone := (tiles_eq_none hlow).mpr ⟨hused, hheld⟩
  have hsame : update held i false = held := by
    rw [← hheld]
    exact update_eq_self _ _
  have hinv := h.putOn hlow hi hused hk (h.good.packed.add hpos hfree) ?_
  · rw [hsame] at hinv
    have htiles : (b.putOn k i).tiles (update held i false) =
        update (b.tiles held) i (some (units k)) := tiles_putOn hL hlow hi hused
    rw [hsame] at htiles
    refine ⟨hinv, ⟨range_putOn _ _ _, ?_⟩, htiles⟩
    intro x hx _
    have hxi : x ≠ i := by
      intro heq
      rw [heq, hheld] at hx
      cases hx
    rw [at_putOn hL.sane hlow (hL.avail_ne hi hused k) (h.good.used hx).1, if_neg hxi]
    split <;> rfl
  · intro x hx
    rw [covers_add hnone] at hx
    rcases hx with hc | hc
    · exact h.good.within hc
    · exact hgiven x hc.1 hc.2

/-- The splitting loop covers what the popped block gave up. -/
theorem Inv.split {n : Nat} (h : Inv B A b given held L) (hlow : b.low ≤ i) (hi : i ≠ 0)
    (hk : bkmin ≤ k ∧ k + n ≤ bkmax)
    (hfree : ∀ x, i + units k ≤ x → x < i + units (k + n) → ¬ Covers (b.tiles held) x)
    (hgiven : ∀ x, i + units k ≤ x → x < i + units (k + n) → given x) :
    ∃ L', Inv B A (b.split i k n) given held L' ∧ Kept (fun _ => False) b held (b.split i k n) ∧
      ∀ x, Covers ((b.split i k n).tiles held) x ↔
        Covers (b.tiles held) x ∨ (i + units k ≤ x ∧ x < i + units (k + n)) := by
  induction n generalizing b L with
  | zero =>
    refine ⟨L, h, Kept.refl _ _ _, ?_⟩
    intro x
    constructor
    · intro hc
      exact Or.inl hc
    · intro hc
      rcases hc with hc | hc
      · exact hc
      · rw [Nat.add_zero] at hc
        omega
  | succ n ih =>
    have hkn : bkmin ≤ k + n := by omega
    have hhalf : units (k + (n + 1)) = units (k + n) + units (k + n) := units_succ hkn
    have hmono : units k ≤ units (k + n) := units_mono (Nat.le_add_right _ _)
    obtain ⟨hinv, hkept, htiles⟩ := h.putOn_free (i := i + units (k + n)) (k := k + n)
      (by omega) (by omega) (by omega)
      (fun x hx hx' => hfree x (by omega) (by omega))
      (fun x hx hx' => hgiven x (by omega) (by omega))
    have hpos := units_pos hkn
    have hnone : b.tiles held (i + units (k + n)) = none := by
      obtain ⟨hused, hheld⟩ := h.good.used_of_uncovered (i := i + units (k + n)) (by omega)
        (hfree _ (by omega) (by omega))
      exact (tiles_eq_none (by omega)).mpr ⟨hused, hheld⟩
    have hcov : ∀ x, Covers ((b.putOn (k + n) (i + units (k + n))).tiles held) x ↔
        Covers (b.tiles held) x ∨
          (i + units (k + n) ≤ x ∧ x < i + units (k + n) + units (k + n)) := by
      intro x
      rw [htiles, covers_add hnone]
    obtain ⟨L', hinv', hkept', hcov'⟩ := ih hinv (by rw [low_putOn]; exact hlow)
      ⟨hk.1, by omega⟩
      (by
        intro x hx hx'
        rw [hcov]
        intro hc
        rcases hc with hc | hc
        · exact hfree x hx (by omega) hc
        · omega)
      (fun x hx hx' => hgiven x hx (by omega))
    refine ⟨L', hinv', ⟨hkept'.range.trans hkept.range, ?_⟩, ?_⟩
    · intro x hx hno
      have hstep := hkept'.kval x hx hno
      exact hstep.trans (hkept.kval x hx hno)
    · intro x
      have hx := hcov' x
      rw [hcov] at hx
      show Covers (((b.putOn (k + n) (i + units (k + n))).split i k n).tiles held) x ↔ _
      rw [hx]
      constructor
      · intro hc
        rcases hc with (hc | hc) | hc
        · exact Or.inl hc
        · exact Or.inr (by omega)
        · exact Or.inr (by omega)
      · intro hc
        rcases hc with hc | hc
        · exact Or.inl (Or.inl hc)
        · by_cases hlt : x < i + units (k + n)
          · exact Or.inr ⟨hc.1, hlt⟩
          · exact Or.inl (Or.inr (by omega))

theorem bkmin_le_blockKval (size : Nat) : bkmin ≤ blockKval size := by
  have hlog : ∀ m, bminsz ≤ m → bkmin ≤ log2ceil m := by
    intro m hm
    have hpos : m ≠ 0 := by
      have hb : 0 < bminsz := Nat.two_pow_pos _
      omega
    have hle : bkmin ≤ Nat.log2 m := (Nat.le_log2 hpos).mpr hm
    unfold log2ceil
    omega
  unfold blockKval
  apply hlog
  split
  · exact Nat.le_refl _
  · omega

/-- **Allocation.**  Either nothing is large enough and nothing changes, or a block
of the size asked for is held from now on, at the address returned. -/
theorem Inv.xphysalloc {size m : Nat} (h : Inv B A b given held L) (hmem : bminsz ∣ b.memory)
    (hrun : b.xphysalloc size = some (b', m)) :
    (m = 0 ∧ b' = b) ∨
    ∃ i L', m = bminsz * i ∧ i ≠ 0 ∧ b.low ≤ i ∧ held i = false ∧
      Inv B A b' given (update held i true) L' ∧ Kept (fun _ => False) b held b' ∧
      (b'.at i).kval = blockKval size ∧
      ∀ x, Covers (b'.tiles (update held i true)) x ↔ Covers (b.tiles held) x := by
  unfold Bal.xphysalloc at hrun
  split at hrun
  · cases hrun
  · simp only at hrun
    have hkmin := bkmin_le_blockKval size
    generalize hkv : blockKval size = k at hrun hkmin ⊢
    split at hrun
    · cases hrun
      exact Or.inl ⟨rfl, rfl⟩
    · next j hfind =>
        right
        have hj := List.mem_of_find?_eq_some hfind
        rw [List.mem_range'_1] at hj
        have hne : b.avail j ≠ 0 := by
          have hp := List.find?_some hfind
          simpa using hp
        have hL := h.good.lists
        obtain ⟨hilow, hiav, hik⟩ := hL.first_at hne
        obtain ⟨hi0, hjmin, hjmax⟩ := h.good.kvals hilow (Or.inl hiav)
        rw [hik] at hjmin hjmax
        have htile : b.tiles held (b.avail j) = some (units j) :=
          tiles_eq_some.mpr ⟨hilow, Or.inl hiav, by rw [hik]⟩
        have hkj : k + (j - k) = j := by omega
        obtain ⟨hinv, htiles⟩ := h.pop hne (k := k) ⟨hkmin, hj.1⟩
        have hmono : units k ≤ units j := units_mono hj.1
        have hcov : ∀ x, Covers ((b.pop j k).tiles (update held (b.avail j) true)) x ↔
            Covers (b.tiles held) x ∧ ¬ (b.avail j + units k ≤ x ∧ x < b.avail j + units j) := by
          intro x
          rw [htiles, h.good.packed.covers_shrink htile hmono]
        obtain ⟨L', hinv', hkept, hcov'⟩ := hinv.split (i := b.avail j) (n := j - k) hilow hi0
          ⟨hkmin, by omega⟩
          (by
            intro x hx hx'
            rw [hkj] at hx'
            rw [hcov]
            exact fun hc => hc.2 ⟨hx, hx'⟩)
          (by
            intro x hx hx'
            rw [hkj] at hx'
            exact h.good.within ⟨_, _, htile, by omega, hx'⟩)
        have hnot := h.good.not_held_of_avail hiav
        have hrange : ((b.pop j k).split (b.avail j) k (j - k)).range = b.range := hkept.range
        have hfields := fun {x} hx => at_pop_fields (x := x) (k := k) hilow hx
        split at hrun
        · cases hrun
          refine ⟨b.avail j, L', ?_, hi0, hilow, hnot, hinv', ⟨hrange, ?_⟩, ?_, ?_⟩
          · have hmemory : ((b.pop j k).split (b.avail j) k (j - k)).memory = b.memory := by
              unfold Bal.range at hrange
              grind
            have hblock : ((b.pop j k).split (b.avail j) k (j - k)).block (b.avail j) =
                b.avail j - b.low := by
              unfold Bal.block Bal.low
              rw [hmemory]
            have hbase : b.memory = bminsz * b.low := (Nat.mul_div_cancel' hmem).symm
            rw [hmemory, hblock, hbase, ← Nat.mul_add, Nat.add_sub_cancel' hilow]
          · intro x hx _
            have hxi : x ≠ b.avail j := by
              intro heq
              rw [heq, hnot] at hx
              cases hx
            have hheldx : update held (b.avail j) true x = true := by
              rw [update_of_ne hxi]
              exact hx
            rw [hkept.kval x hheldx (fun hf => hf), (hfields (h.good.used hx).1).2.1, if_neg hxi]
          · rw [hkept.kval (b.avail j) (update_self _ _ _) (fun hf => hf), (hfields hilow).2.1, if_pos rfl]
          · intro x
            rw [hcov', hcov, hkj]
            constructor
            · intro hc
              rcases hc with hc | hc
              · exact hc.1
              · exact ⟨_, _, htile, by omega, hc.2⟩
            · intro hc
              by_cases hx : b.avail j + units k ≤ x ∧ x < b.avail j + units j
              · exact Or.inr hx
              · exact Or.inl ⟨hc, hx⟩
        · cases hrun

end Physalloc
