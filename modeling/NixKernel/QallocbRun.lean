import NixKernel.Qallocb

/-!
# The free lists of `qallocb`

Chunks do not overlap, and neither do the blocks of a chunk; so a block has been carved for one
class.
-/

namespace Qallocb

open LinkList List
open Function (update update_self update_of_ne)

variable {s t : Pool} {a b va i j k n : Nat} {l : List Nat} {h : Block}

theorem sizes (hi : i < 5) : bsz (sz i) = sz i + 136 ∧ ROUNDUP (sz i) Align = sz i ∧ sz i % 8 = 0 ∧
    count i * bsz (sz i) ≤ 2 * MiB ∧ 0 < count i := by
  revert i
  decide

theorem sz_le (hi : i < 5) : sz i ≤ 65536 := by
  revert i
  decide

/-- The size of a class finds the class. -/
theorem findIdx_sz (hi : i < 5) : (qtab.findIdx? fun size => sz i ≤ size) = some i := by
  revert i
  decide

theorem findIdx_lt {size : Nat} (hfind : (qtab.findIdx? fun sz => size ≤ sz) = some i) :
    i < 5 ∧ size ≤ sz i := by
  obtain ⟨hlt, hle, -⟩ := List.findIdx?_eq_some_iff_getElem.mp hfind
  have hget : sz i = qtab[i] := by
    rw [sz, getD_eq_getElem?_getD, List.getElem?_eq_getElem hlt, Option.getD_some]
  exact ⟨hlt, by rw [hget]; simpa using hle⟩

/-- A block ends where the next one begins. -/
theorem blockAt_end (hi : i < 5) : blockAt va i k + sizeofBlock = va + (k + 1) * bsz (sz i) := by
  obtain ⟨hsize, -⟩ := sizes hi
  have hle : bsz (sz i) ≤ (k + 1) * bsz (sz i) := Nat.le_mul_of_pos_left _ (Nat.succ_pos k)
  rw [blockAt, sizeofBlock]
  omega

def Pool.next (s : Pool) (b : Nat) : Option Nat := (s.block b).next

/-- What is found of a header that `binit` has written. -/
structure Fits (s : Pool) (b : Nat) (i : Nat) : Prop where
  base : (s.block b).base + bsz (sz i) = b + sizeofBlock
  rp : (s.block b).rp = (s.block b).base + (Hdrspc + Align)

/-- **`binit` does not panic.** -/
theorem binit_spec (s : Pool) (hi : i < 5) (hva : Align ∣ va) :
    s.binit va (sz i) = .ok (s.set (blockAt va i 0) (header va (blockAt va i 0) (sz i)), blockAt va i 0) ∧
      (header va (blockAt va i 0) (sz i)).rp = va + (Hdrspc + Align) := by
  obtain ⟨hsize, hround, hmod, -, -⟩ := sizes hi
  have hend := @blockAt_end va _ 0 hi
  have hplace : va + bsz (sz i) - sizeofBlock = blockAt va i 0 := by
    rw [blockAt, Nat.zero_add, Nat.one_mul]
  obtain ⟨m, hm⟩ := hva
  simp only [sizeofBlock, Align, Nat.zero_add, Nat.one_mul] at hend hm hround
  have hlim : blockAt va i 0 / Align * Align = blockAt va i 0 := by
    rw [Align]
    omega
  have hrp : (header va (blockAt va i 0) (sz i)).rp = va + (Hdrspc + Align) := by
    change blockAt va i 0 / Align * Align - ROUNDUP (sz i) Align = va + (64 + 8)
    rw [hlim, Align, hround]
    omega
  refine ⟨?_, hrp⟩
  rw [Pool.binit, hplace]
  refine if_neg fun hbad => ?_
  rw [hrp] at hbad
  change va + (64 + 8) < va ∨ blockAt va i 0 / Align * Align - (va + (64 + 8)) < sz i at hbad
  rw [hlim] at hbad
  omega

/-- The blocks from `va`. -/
def blocks (va : Nat) (i k : Nat) : List Nat := (List.range k).map (blockAt va i)

theorem mem_blocks : b ∈ blocks va i k ↔ ∃ j < k, b = blockAt va i j := by
  simp only [blocks, mem_map, mem_range, eq_comm]

theorem blocks_succ : blocks va i (k + 1) = blockAt va i 0 :: blocks (va + bsz (sz i)) i k := by
  rw [blocks, range_succ_eq_map, map_cons, map_map, blocks]
  refine congrArg _ (map_congr_left fun j _ => ?_)
  simp only [Function.comp, blockAt, Nat.succ_eq_add_one]
  have hmul : (j + 1 + 1) * bsz (sz i) = (j + 1) * bsz (sz i) + bsz (sz i) := Nat.succ_mul _ _
  omega

theorem blockAt_lt (hi : i < 5) (hjk : j < k) : blockAt va i j + bsz (sz i) ≤ blockAt va i k := by
  have hj := @blockAt_end va _ j hi
  have hk := @blockAt_end va _ k hi
  have hmul : (j + 1 + 1) * bsz (sz i) ≤ (k + 1) * bsz (sz i) := Nat.mul_le_mul_right _ (by omega)
  have hsucc : (j + 1 + 1) * bsz (sz i) = (j + 1) * bsz (sz i) + bsz (sz i) := Nat.succ_mul _ _
  omega

/-- What `push` leaves of a header. -/
theorem push_self : (s.push i b).block b = { s.block b with next := s.free i } :=
  update_self _ _ _

theorem push_block (hne : a ≠ b) : (s.push i b).block a = s.block a := update_of_ne hne _ _

theorem set_block (hne : a ≠ b) : (s.set b h).block a = s.block a := update_of_ne hne _ _

/-- A block in front of the free list. -/
theorem push_path (hpath : Path s.next (s.free i) l none) (hb : b ∉ l) :
    Path (s.push i b).next ((s.push i b).free i) (b :: l) none := by
  refine ⟨update_self _ _ _, ?_⟩
  have hnext : (s.push i b).next b = s.free i := by rw [Pool.next, push_self]
  rw [hnext]
  exact hpath.frame fun a ha => congrArg Block.next (push_block fun heq => hb (heq ▸ ha))

/-- A block that has been through `binit` and put on its list. -/
theorem push_set_fits (hi : i < 5) (hva : Align ∣ va) :
    Fits ((s.set (blockAt va i 0) (header va (blockAt va i 0) (sz i))).push i (blockAt va i 0))
      (blockAt va i 0) i := by
  have hself : (s.set (blockAt va i 0) (header va (blockAt va i 0) (sz i))).block (blockAt va i 0) =
      header va (blockAt va i 0) (sz i) := update_self _ _ _
  have hend := @blockAt_end va _ 0 hi
  rw [Nat.zero_add, Nat.one_mul] at hend
  constructor
  · rw [push_self, hself]
    exact hend.symm
  · rw [push_self, hself]
    exact (binit_spec s hi hva).2

/-- What carving leaves as it was. -/
structure Frame (s t : Pool) (i : Nat) (new : List Nat) : Prop where
  block : ∀ a, a ∉ new → t.block a = s.block a
  free : ∀ j, j ≠ i → t.free j = s.free j
  live : t.live = s.live
  chunks : t.chunks = s.chunks

/-- **Carving a chunk** puts its blocks on the free list. -/
theorem carve_spec (hi : i < 5) (k : Nat) (s : Pool) (va : Nat) (l : List Nat) (hva : Align ∣ va)
    (hpath : Path s.next (s.free i) l none) (hnew : ∀ b ∈ blocks va i k, b ∉ l) :
    ∃ t, s.carve i k va = .ok t ∧ Path t.next (t.free i) ((blocks va i k).reverse ++ l) none ∧
      (∀ b ∈ blocks va i k, Fits t b i) ∧ Frame s t i (blocks va i k) := by
  induction k generalizing s va l with
  | zero => exact ⟨s, rfl, hpath, fun b hb => absurd hb not_mem_nil, fun _ _ => rfl, fun _ _ => rfl, rfl, rfl⟩
  | succ k ih =>
    let b := blockAt va i 0
    let u := (s.set b (header va b (sz i))).push i b
    have hb : b ∉ l := hnew b (mem_blocks.mpr ⟨0, Nat.succ_pos k, rfl⟩)
    have hrest : ∀ a ∈ blocks (va + bsz (sz i)) i k, a ∈ blocks va i (k + 1) ∧ a ≠ b := by
      intro a ha
      refine ⟨by rw [blocks_succ]; exact mem_cons_of_mem _ ha, ?_⟩
      obtain ⟨j, hj, rfl⟩ := mem_blocks.mp ha
      have hlast := @blockAt_end (va + bsz (sz i)) _ j hi
      have hfirst := @blockAt_end va _ 0 hi
      have hpos : bsz (sz i) ≤ (j + 1) * bsz (sz i) := Nat.le_mul_of_pos_left _ (Nat.succ_pos j)
      have hsize := (sizes hi).1
      intro heq
      change blockAt (va + bsz (sz i)) i j = blockAt va i 0 at heq
      omega
    have hset : Path (s.set b (header va b (sz i))).next ((s.set b (header va b (sz i))).free i) l none :=
      hpath.frame fun a ha => congrArg Block.next (set_block fun heq => hb (heq ▸ ha))
    have hva' : Align ∣ va + bsz (sz i) := by
      refine Nat.dvd_add hva ?_
      obtain ⟨hsize, -, hmod, -⟩ := sizes hi
      exact Nat.dvd_of_mod_eq_zero (by rw [Align]; omega)
    obtain ⟨t, hrun, hpath', hfits, hframe⟩ := ih u (va + bsz (sz i)) (b :: l) hva' (push_path hset hb)
      (fun a ha hmem => by
        rcases mem_cons.mp hmem with heq | hmem
        · exact (hrest a ha).2 heq
        · exact hnew a (hrest a ha).1 hmem)
    have hbnew : b ∉ blocks (va + bsz (sz i)) i k := fun hmem => (hrest b hmem).2 rfl
    refine ⟨t, ?_, ?_, ?_, ?_, ?_, hframe.live, hframe.chunks⟩
    · rw [Pool.carve, (binit_spec s hi hva).1]
      exact hrun
    · rw [blocks_succ, reverse_cons, append_assoc]
      exact hpath'
    · intro a ha
      rw [blocks_succ] at ha
      rcases mem_cons.mp ha with rfl | ha
      · have hfit := push_set_fits (s := s) hi hva
        have hsame := hframe.block b hbnew
        exact ⟨by rw [hsame]; exact hfit.base, by rw [hsame]; exact hfit.rp⟩
      · exact hfits a ha
    · intro a ha
      rw [blocks_succ, mem_cons, not_or] at ha
      rw [hframe.block a ha.2]
      exact (push_block ha.1).trans (set_block ha.1)
    · intro j hj
      rw [hframe.free j hj]
      exact update_of_ne hj _ _

/-- The free lists are those of the blocks that are not live. -/
structure Lists (s : Pool) (fl : Nat → List Nat) : Prop where
  path : ∀ i, Path s.next (s.free i) (fl i) none
  mem : ∀ b i, b ∈ fl i ↔ s.Carved b i ∧ s.live b = false
  rp : ∀ b i, b ∈ fl i → (s.block b).rp = (s.block b).base + (Hdrspc + Align)

def Apart (c d : Nat × Nat) : Prop := c.1 + 2 * MiB ≤ d.1 ∨ d.1 + 2 * MiB ≤ c.1

instance : Std.Symm Apart := ⟨fun _ _ h => h.symm⟩

structure Inv (s : Pool) : Prop where
  chunk : ∀ c ∈ s.chunks, Align ∣ c.1 ∧ c.2 < 5
  apart : s.chunks.Pairwise Apart
  base : ∀ b i, s.Carved b i → (s.block b).base + bsz (sz i) = b + sizeofBlock
  live : ∀ b, s.live b = true → ∃ i, s.Carved b i
  lists : ∃ fl, Lists s fl

theorem Inv.carved_lt (hs : Inv s) (hb : s.Carved b i) : i < 5 := by
  obtain ⟨va, k, hmem, -⟩ := hb
  exact (hs.chunk _ hmem).2

/-- **A block lies inside its chunk.** -/
theorem Inv.inside (hs : Inv s) (hb : s.Carved b i) : ∃ va, (va, i) ∈ s.chunks ∧
    va ≤ (s.block b).base ∧ (s.block b).base + (sz i + 136) = b + sizeofBlock ∧
      b + sizeofBlock ≤ va + 2 * MiB := by
  have hi := hs.carved_lt hb
  have hbase := hs.base b i hb
  obtain ⟨va, k, hmem, hk, rfl⟩ := hb
  have hend := @blockAt_end va _ k hi
  obtain ⟨hsize, -, -, hfit, -⟩ := sizes hi
  have hle : (k + 1) * bsz (sz i) ≤ count i * bsz (sz i) := Nat.mul_le_mul_right _ hk
  have hpos : bsz (sz i) ≤ (k + 1) * bsz (sz i) := Nat.le_mul_of_pos_left _ (Nat.succ_pos k)
  exact ⟨va, hmem, by omega, by omega, by omega⟩

/-- **Blocks do not overlap.** -/
theorem Inv.disjoint (hs : Inv s) (ha : s.Carved a i) (hb : s.Carved b j) (hne : (a, i) ≠ (b, j)) :
    a + sizeofBlock ≤ (s.block b).base ∨ b + sizeofBlock ≤ (s.block a).base := by
  have hi := hs.carved_lt ha
  have hj := hs.carved_lt hb
  obtain ⟨va, hva, hva1, hva2, hva3⟩ := hs.inside ha
  have hbasea := hs.base a i ha
  have hbaseb := hs.base b j hb
  obtain ⟨va', k, hmem, hk, rfl⟩ := ha
  obtain ⟨vb, k', hmem', hk', rfl⟩ := hb
  have hends := @blockAt_end va' _ k hi
  have hends' := @blockAt_end vb _ k' hj
  obtain ⟨hsize, -, -, hfit, -⟩ := sizes hi
  obtain ⟨hsize', -, -, hfit', -⟩ := sizes hj
  by_cases hsame : (va', i) = (vb, j)
  · -- two blocks of one chunk
    obtain ⟨rfl, rfl⟩ := Prod.mk.inj hsame
    rcases Nat.lt_trichotomy k k' with hlt | rfl | hlt
    · have hstep := @blockAt_lt va' _ _ _ hi hlt
      omega
    · exact absurd rfl hne
    · have hstep := @blockAt_lt va' _ _ _ hi hlt
      omega
  · -- two blocks of two chunks
    have hchunks : va' + 2 * MiB ≤ vb ∨ vb + 2 * MiB ≤ va' := hs.apart.forall hmem hmem' hsame
    have hle : (k + 1) * bsz (sz i) ≤ count i * bsz (sz i) := Nat.mul_le_mul_right _ hk
    have hpos : bsz (sz i) ≤ (k + 1) * bsz (sz i) := Nat.le_mul_of_pos_left _ (Nat.succ_pos k)
    have hle' : (k' + 1) * bsz (sz j) ≤ count j * bsz (sz j) := Nat.mul_le_mul_right _ hk'
    have hpos' : bsz (sz j) ≤ (k' + 1) * bsz (sz j) := Nat.le_mul_of_pos_left _ (Nat.succ_pos k')
    omega

/-- **A block has one class.** -/
theorem Inv.class_unique (hs : Inv s) (hi : s.Carved b i) (hj : s.Carved b j) : i = j := by
  by_contra hne
  have hapart := hs.disjoint hi hj (fun h => hne (Prod.mk.inj h).2)
  have hbase := hs.base b i hi
  have hsize := (sizes (hs.carved_lt hi)).1
  omega

theorem carved_cons (hchunks : t.chunks = (va, i) :: s.chunks) :
    t.Carved b j ↔ (j = i ∧ b ∈ blocks va i (count i)) ∨ s.Carved b j := by
  simp only [Pool.Carved, hchunks, mem_cons, Prod.mk.injEq, mem_blocks]
  constructor
  · rintro ⟨va', k, ⟨rfl, rfl⟩ | hmem, hk, rfl⟩
    · exact Or.inl ⟨rfl, k, hk, rfl⟩
    · exact Or.inr ⟨va', k, hmem, hk, rfl⟩
  · rintro (⟨rfl, k, hk, rfl⟩ | ⟨va', k, hmem, hk, rfl⟩)
    · exact ⟨va, k, Or.inl ⟨rfl, rfl⟩, hk, rfl⟩
    · exact ⟨va', k, Or.inr hmem, hk, rfl⟩

/-- **A free list that is empty** is filled, if there is memory. -/
theorem fill_spec {pa : Option Nat} (hs : Inv s) (hi : i < 5) (hpa : ∀ va, pa = some va → Fresh s va) :
    s.fill i pa = .ok none ∨ ∃ t, s.fill i pa = .ok (some t) ∧ Inv t ∧ t.free i ≠ none ∧ t.live = s.live := by
  unfold Pool.fill
  by_cases hfree : s.free i = none
  swap
  · rw [if_neg hfree]
    exact Or.inr ⟨s, rfl, hs, hfree, rfl⟩
  rw [if_pos hfree]
  cases pa with
  | none => exact Or.inl rfl
  | some va =>
    obtain ⟨hva, hapart⟩ := hpa va rfl
    obtain ⟨fl, hfl⟩ := hs.lists
    have hempty : fl i = [] := (hfree ▸ hfl.path i).eq_nil
    have hcount := (sizes hi).2.2.2.2
    -- the new blocks are none of the old ones
    have hnew : ∀ b ∈ blocks va i (count i), ∀ j, ¬ s.Carved b j := by
      intro b hb j hold
      obtain ⟨k, hk, rfl⟩ := mem_blocks.mp hb
      obtain ⟨va', hmem, hlo, hbase, hhi⟩ := hs.inside hold
      have hend := @blockAt_end va _ k hi
      obtain ⟨hsize, -, -, hfit, -⟩ := sizes hi
      have hle : (k + 1) * bsz (sz i) ≤ count i * bsz (sz i) := Nat.mul_le_mul_right _ hk
      have hpos : bsz (sz i) ≤ (k + 1) * bsz (sz i) := Nat.le_mul_of_pos_left _ (Nat.succ_pos k)
      have hchunk := hapart _ hmem
      dsimp only at hchunk
      omega
    obtain ⟨t, hrun, hpath, hfits, hframe⟩ := carve_spec hi (count i)
      { s with chunks := (va, i) :: s.chunks } va [] hva (by rw [← hempty]; exact hfl.path i)
      (fun _ _ => not_mem_nil)
    rw [append_nil] at hpath
    have hcarved : ∀ b j, t.Carved b j ↔ (j = i ∧ b ∈ blocks va i (count i)) ∨ s.Carved b j := fun b j =>
      carved_cons hframe.chunks
    have hlive : t.live = s.live := hframe.live
    have hdead : ∀ b ∈ blocks va i (count i), s.live b = false := by
      intro b hb
      by_contra hl
      obtain ⟨j, hj⟩ := hs.live b (Bool.not_eq_false _ ▸ hl)
      exact hnew b hb j hj
    have hblock : ∀ b j, s.Carved b j → t.block b = s.block b := fun b j hb =>
      hframe.block b fun hmem => hnew b hmem j hb
    refine Or.inr ⟨t, by dsimp only; rw [hrun], ⟨?_, ?_, ?_, ?_, ?_⟩, ?_, hlive⟩
    · rw [hframe.chunks]
      exact forall_mem_cons.mpr ⟨⟨hva, hi⟩, hs.chunk⟩
    · rw [hframe.chunks]
      exact pairwise_cons.mpr ⟨hapart, hs.apart⟩
    · intro b j hb
      rcases (hcarved b j).mp hb with ⟨rfl, hmem⟩ | hold
      · exact (hfits b hmem).base
      · rw [hblock b j hold]
        exact hs.base b j hold
    · intro b hl
      rw [hlive] at hl
      obtain ⟨j, hj⟩ := hs.live b hl
      exact ⟨j, (hcarved b j).mpr (Or.inr hj)⟩
    · refine ⟨update fl i (blocks va i (count i)).reverse, ?_, ?_, ?_⟩
      · intro j
        by_cases hj : j = i
        · rw [hj, update_self]
          exact hpath
        · rw [update_of_ne hj, hframe.free j hj]
          exact (hfl.path j).frame fun a ha =>
            congrArg Block.next (hblock a j ((hfl.mem a j).mp ha).1)
      · intro b j
        rw [hcarved, hlive]
        by_cases hj : j = i
        · rw [hj, update_self, mem_reverse]
          constructor
          · exact fun hmem => ⟨Or.inl ⟨rfl, hmem⟩, hdead b hmem⟩
          · rintro ⟨⟨-, hmem⟩ | hold, hl⟩
            · exact hmem
            · have hmem := (hfl.mem b i).mpr ⟨hold, hl⟩
              rw [hempty] at hmem
              exact absurd hmem not_mem_nil
        · rw [update_of_ne hj, hfl.mem]
          constructor
          · exact fun ⟨hold, hl⟩ => ⟨Or.inr hold, hl⟩
          · rintro ⟨⟨rfl, -⟩ | hold, hl⟩
            · exact absurd rfl hj
            · exact ⟨hold, hl⟩
      · intro b j hmem
        by_cases hj : j = i
        · rw [hj, update_self, mem_reverse] at hmem
          exact (hfits b hmem).rp
        · rw [update_of_ne hj] at hmem
          rw [hblock b j ((hfl.mem b j).mp hmem).1]
          exact hfl.rp b j hmem
    · intro hnil
      rw [hnil] at hpath
      have hnone := reverse_eq_nil_iff.mp hpath.eq_nil
      obtain ⟨c, hc⟩ := Nat.exists_eq_succ_of_ne_zero (Nat.ne_of_gt hcount)
      rw [hc, blocks_succ] at hnone
      cases hnone

/-- **A block is taken** from a list that is not empty. -/
theorem pop_spec {size : Nat} (hs : Inv s) (hfree : s.free i ≠ none) (hsize : size ≤ sz i) :
    ∃ b t, s.pop i size = .ok (some b, t) ∧ Inv t ∧ s.live b = false ∧ t.live b = true ∧
      (t.block b).lim = (t.block b).rp + size ∧ (t.block b).rp = (t.block b).base + (Hdrspc + Align) ∧
      (t.block b).lim ≤ b := by
  obtain ⟨fl, hfl⟩ := hs.lists
  obtain ⟨b, hb⟩ := Option.ne_none_iff_exists'.mp hfree
  have hpath := hfl.path i
  rw [hb] at hpath
  obtain ⟨l, hl, hrest⟩ := hpath.of_some
  have hbmem : b ∈ fl i := by
    rw [hl]
    exact mem_cons_self
  have hbl : b ∉ l := by
    have hnodup := hpath.nodup
    rw [hl] at hnodup
    exact (nodup_cons.mp hnodup).1
  obtain ⟨hcarved, hdead⟩ := (hfl.mem b i).mp hbmem
  let t : Pool := { s.set b { s.block b with next := none, lim := (s.block b).rp + size } with
    free := update s.free i (s.block b).next
    live := update s.live b true }
  have hrun : s.pop i size = .ok (some b, t) := by
    rw [Pool.pop, hb]
  have hself : t.block b = { s.block b with next := none, lim := (s.block b).rp + size } :=
    update_self _ _ _
  have hother : ∀ a, a ≠ b → t.block a = s.block a := fun a ha => set_block ha
  have hlive : ∀ a, a ≠ b → t.live a = s.live a := fun a ha => update_of_ne ha _ _
  have hbase : ∀ a, (t.block a).base = (s.block a).base := by
    intro a
    by_cases ha : a = b
    · rw [ha, hself]
    · rw [hother a ha]
  refine ⟨b, t, hrun, ⟨hs.chunk, hs.apart, ?_, ?_, ?_⟩, hdead, update_self _ _ _, ?_, ?_, ?_⟩
  · intro a j ha
    rw [hbase]
    exact hs.base a j ha
  · intro a ha
    by_cases hab : a = b
    · exact ⟨i, hab ▸ hcarved⟩
    · rw [hlive a hab] at ha
      exact hs.live a ha
  · refine ⟨update fl i l, ?_, ?_, ?_⟩
    · intro j
      by_cases hj : j = i
      · rw [hj, update_self]
        change Path t.next (update s.free i (s.block b).next i) l none
        rw [update_self]
        exact hrest.frame fun a ha => congrArg Block.next (hother a fun heq => hbl (heq ▸ ha))
      · rw [update_of_ne hj]
        change Path t.next (update s.free i (s.block b).next j) (fl j) none
        rw [update_of_ne hj]
        refine (hfl.path j).frame fun a ha => congrArg Block.next (hother a fun heq => ?_)
        exact hj (hs.class_unique ((hfl.mem a j).mp ha).1 (heq ▸ hcarved))
    · intro a j
      have hcar : t.Carved a j ↔ s.Carved a j := Iff.rfl
      by_cases hab : a = b
      · -- `b` is on no list any more
        have htrue : t.live b = true := update_self _ _ _
        rw [hab, htrue]
        constructor
        · intro hmem
          by_cases hj : j = i
          · rw [hj, update_self] at hmem
            exact absurd hmem hbl
          · rw [update_of_ne hj] at hmem
            exact absurd (hs.class_unique ((hfl.mem b j).mp hmem).1 hcarved) hj
        · exact fun hfalse => nomatch hfalse.2
      · rw [hcar, hlive a hab, ← hfl.mem]
        by_cases hj : j = i
        · rw [hj, update_self, hl, mem_cons]
          exact ⟨Or.inr, fun h => h.resolve_left hab⟩
        · rw [update_of_ne hj]
    · intro a j hmem
      have hmem' : a ∈ fl j ∧ a ≠ b := by
        by_cases hj : j = i
        · rw [hj, update_self] at hmem
          exact ⟨by rw [hj, hl]; exact mem_cons_of_mem b hmem, fun heq => hbl (heq ▸ hmem)⟩
        · rw [update_of_ne hj] at hmem
          exact ⟨hmem, fun heq => hj (hs.class_unique ((hfl.mem a j).mp hmem).1 (heq ▸ hcarved))⟩
      rw [hother a hmem'.2]
      exact hfl.rp a j hmem'.1
  · rw [hself]
  · rw [hself]
    exact hfl.rp b i hbmem
  · rw [hself]
    have hrp := hfl.rp b i hbmem
    have hend := hs.base b i hcarved
    have hclass := (sizes (hs.carved_lt hcarved)).1
    simp only [Hdrspc, Align, sizeofBlock] at hrp hend
    change (s.block b).rp + size ≤ b
    omega

/-- What an allocation of `size` gives. -/
structure Got (s t : Pool) (b size : Nat) : Prop where
  inv : Inv t
  dead : s.live b = false
  live : t.live b = true
  space : size ≤ (t.block b).lim - (t.block b).rp
  headroom : Hdrspc ≤ (t.block b).rp - (t.block b).base
  below : (t.block b).lim ≤ b

/-- What comes of an allocation, panics for want of something apart. -/
def Outcome (s : Pool) (size : Nat) (r : Except Panic (Option Nat × Pool)) : Prop :=
  r = .error .unsupported ∨ r = .error .nomemory ∨ r = .error .limited ∨ r = .ok (none, s) ∨
    ∃ b t, r = .ok (some b, t) ∧ Got s t b size

/-- **`·allocb`.** -/
theorem alloc_spec {size : UInt32} {pa : Option Nat} (hs : Inv s)
    (hpa : ∀ va, pa = some va → Fresh s va) : Outcome s size.toNat (s.alloc size pa) := by
  rw [Pool.alloc]
  cases hfind : qtab.findIdx? fun sz => size.toNat ≤ sz with
  | none => exact Or.inl rfl
  | some i =>
    obtain ⟨hi, hle⟩ := findIdx_lt hfind
    rcases fill_spec hs hi hpa with hnone | ⟨u, hfill, hu, hfree, hlive⟩
    · dsimp only
      rw [hnone]
      exact Or.inr (Or.inr (Or.inr (Or.inl rfl)))
    · obtain ⟨b, t, hpop, ht, hdead, hlive', hlim, hrp, hbelow⟩ := pop_spec hu hfree hle
      dsimp only
      rw [hfill]
      dsimp only
      rw [hpop]
      refine Or.inr (Or.inr (Or.inr (Or.inr ⟨b, t, rfl, ht, ?_, hlive', ?_, ?_, hbelow⟩)))
      · rw [← hlive]
        exact hdead
      · omega
      · rw [hrp, Nat.add_sub_cancel_left]
        decide

theorem allocb_spec {size : UInt32} {pa : Option Nat} (hs : Inv s)
    (hpa : ∀ va, pa = some va → Fresh s va) : Outcome s size.toNat (s.allocb size pa) := by
  rw [Pool.allocb]
  rcases @alloc_spec _ size _ hs hpa with h | h | h | h | ⟨b, t, h, hgot⟩ <;> rw [h]
  · exact Or.inl rfl
  · exact Or.inr (Or.inl rfl)
  · exact Or.inr (Or.inr (Or.inl rfl))
  · exact Or.inr (Or.inl rfl)
  · exact Or.inr (Or.inr (Or.inr (Or.inr ⟨b, t, rfl, hgot⟩)))

/-- **The header of a live block** may be changed but for its `base`. -/
theorem set_inv (hs : Inv s) (hlive : s.live b = true) (hbase : h.base = (s.block b).base) :
    Inv (s.set b h) := by
  obtain ⟨fl, hfl⟩ := hs.lists
  have hself : (s.set b h).block b = h := update_self _ _ _
  have hout : ∀ a j, a ∈ fl j → a ≠ b := by
    intro a j ha heq
    cases (heq ▸ ((hfl.mem a j).mp ha).2).symm.trans hlive
  refine ⟨hs.chunk, hs.apart, ?_, hs.live, fl, ?_, hfl.mem, ?_⟩
  · intro a j ha
    by_cases hab : a = b
    · rw [hab] at ha ⊢
      rw [hself, hbase]
      exact hs.base b j ha
    · rw [set_block hab]
      exact hs.base a j ha
  · exact fun j => (hfl.path j).frame fun a ha => congrArg Block.next (set_block (hout a j ha))
  · intro a j ha
    rw [set_block (hout a j ha)]
    exact hfl.rp a j ha

theorem iallocb_spec {size : UInt32} {pa : Option Nat} (hs : Inv s)
    (hpa : ∀ va, pa = some va → Fresh s va) : Outcome s size.toNat (s.iallocb size pa) := by
  rw [Pool.iallocb]
  split
  next => exact Or.inr (Or.inr (Or.inl rfl))
  next =>
    rcases @alloc_spec _ size _ hs hpa with h | h | h | h | ⟨b, t, h, hgot⟩ <;> rw [h]
    · exact Or.inl rfl
    · exact Or.inr (Or.inl rfl)
    · exact Or.inr (Or.inr (Or.inl rfl))
    · exact Or.inr (Or.inr (Or.inr (Or.inl rfl)))
    · have hself : (t.set b { t.block b with flag := BINTR }).block b = { t.block b with flag := BINTR } :=
        update_self _ _ _
      have hset := set_inv (h := { t.block b with flag := BINTR }) hgot.inv hgot.live rfl
      refine Or.inr (Or.inr (Or.inr (Or.inr ⟨b, _, rfl, ⟨hset.chunk, hset.apart, hset.base, hset.live,
        ?_⟩, hgot.dead, hgot.live, ?_, ?_, ?_⟩)))
      · obtain ⟨fl, hfl⟩ := hset.lists
        exact ⟨fl, hfl.path, hfl.mem, hfl.rp⟩
      · change size.toNat ≤ ((t.set b _).block b).lim - ((t.set b _).block b).rp
        rw [hself]
        exact hgot.space
      · change Hdrspc ≤ ((t.set b _).block b).rp - ((t.set b _).block b).base
        rw [hself]
        exact hgot.headroom
      · change ((t.set b _).block b).lim ≤ b
        rw [hself]
        exact hgot.below

/-- **`fre`** puts a block on the list of its class. -/
theorem fre_spec (hs : Inv s) (hlive : s.live b = true) : ∃ t, s.fre b = .ok t ∧ Inv t ∧ t.live b = false := by
  obtain ⟨i, hcarved⟩ := hs.live b hlive
  have hi := hs.carved_lt hcarved
  have hbase := hs.base b i hcarved
  obtain ⟨hclass, -, hmod, -⟩ := sizes hi
  -- the distance gives the class back
  have hsize : s.size b = sz i := by
    have hsmall := sz_le hi
    simp only [sizeofBlock] at hbase
    simp only [Pool.size, Hdrspc, Align]
    omega
  have hva : Align ∣ (s.block b).base := by
    obtain ⟨va, k, hmem, -, rfl⟩ := hcarved
    have hchunk := (hs.chunk _ hmem).1
    have hend := @blockAt_end va _ k hi
    have hmul : Align ∣ k * bsz (sz i) := Nat.dvd_mul_left_of_dvd (Nat.dvd_of_mod_eq_zero (by rw [Align]; omega)) k
    have hsucc : (k + 1) * bsz (sz i) = k * bsz (sz i) + bsz (sz i) := Nat.succ_mul _ _
    have heq : (s.block (blockAt va i k)).base = va + k * bsz (sz i) := by omega
    rw [heq]
    exact Nat.dvd_add hchunk hmul
  have hplace : blockAt (s.block b).base i 0 = b := by
    have hend := @blockAt_end (s.block b).base _ 0 hi
    omega
  obtain ⟨hbinit, -⟩ := binit_spec s hi hva
  have hfits := push_set_fits (s := s) hi hva
  rw [hplace] at hbinit hfits
  let u := s.set b (header (s.block b).base b (sz i))
  obtain ⟨fl, hfl⟩ := hs.lists
  have hout : ∀ a j, a ∈ fl j → a ≠ b := by
    intro a j ha heq
    cases (heq ▸ ((hfl.mem a j).mp ha).2).symm.trans hlive
  have hblock : ∀ a, a ≠ b → (u.push i b).block a = s.block a := fun a ha =>
    (push_block ha).trans (set_block ha)
  have hupath : ∀ j, Path u.next (u.free j) (fl j) none := fun j =>
    (hfl.path j).frame fun a ha => congrArg Block.next (set_block (hout a j ha))
  have hdead : ∀ a, a ≠ b → update s.live b false a = s.live a := fun a ha =>
    update_of_ne ha _ _
  refine ⟨{ u.push i b with live := update s.live b false }, ?_, ⟨hs.chunk, hs.apart, ?_, ?_, ?_⟩,
    update_self _ _ _⟩
  · rw [Pool.fre, hsize, findIdx_sz hi]
    dsimp only
    rw [hbinit]
    rfl
  · intro a j ha
    change ((u.push i b).block a).base + bsz (sz j) = a + sizeofBlock
    by_cases hab : a = b
    · have hj := hs.class_unique (hab ▸ ha) hcarved
      rw [hab, hj]
      exact hfits.base
    · rw [hblock a hab]
      exact hs.base a j ha
  · intro a ha
    by_cases hab : a = b
    · exact ⟨i, hab ▸ hcarved⟩
    · exact hs.live a ((hdead a hab).symm.trans ha)
  · refine ⟨update fl i (b :: fl i), ?_, ?_, ?_⟩
    · intro j
      by_cases hj : j = i
      · rw [hj, update_self]
        exact push_path (hupath i) fun hmem => hout b i hmem rfl
      · rw [update_of_ne hj]
        have hfree : (u.push i b).free j = u.free j := update_of_ne hj _ _
        change Path (u.push i b).next ((u.push i b).free j) (fl j) none
        rw [hfree]
        exact (hupath j).frame fun a ha => congrArg Block.next (push_block (hout a j ha))
    · intro a j
      change a ∈ update fl i (b :: fl i) j ↔ s.Carved a j ∧ update s.live b false a = false
      by_cases hab : a = b
      · rw [hab, update_self]
        by_cases hj : j = i
        · rw [hj, update_self]
          exact ⟨fun _ => ⟨hcarved, rfl⟩, fun _ => mem_cons_self⟩
        · rw [update_of_ne hj]
          exact ⟨fun hmem => absurd rfl (hout b j hmem), fun h => absurd (hs.class_unique h.1 hcarved) hj⟩
      · rw [hdead a hab, ← hfl.mem]
        by_cases hj : j = i
        · rw [hj, update_self, mem_cons]
          exact ⟨fun h => h.resolve_left hab, Or.inr⟩
        · rw [update_of_ne hj]
    · intro a j hmem
      change ((u.push i b).block a).rp = ((u.push i b).block a).base + (Hdrspc + Align)
      by_cases hab : a = b
      · rw [hab]
        exact hfits.rp
      · have hmem' : a ∈ fl j := by
          by_cases hj : j = i
          · rw [hj, update_self] at hmem
            exact hj ▸ (mem_cons.mp hmem).resolve_left hab
          · rwa [update_of_ne hj] at hmem
        rw [hblock a hab]
        exact hfl.rp a j hmem'

/-- **`freeb`.** -/
theorem freeb_spec (hs : Inv s) (hlive : s.live b = true) :
    s.freeb b = .error .assert ∨ ∃ t, s.freeb b = .ok t ∧ Inv t := by
  have hfre : ∀ bytes, ∃ t, Pool.fre { s with bytes } b = .ok t ∧ Inv t := by
    intro bytes
    obtain ⟨fl, hfl⟩ := hs.lists
    have hs' : Inv { s with bytes } :=
      ⟨hs.chunk, hs.apart, hs.base, hs.live, fl, hfl.path, hfl.mem, hfl.rp⟩
    obtain ⟨t, hrun, ht, -⟩ := fre_spec hs' hlive
    exact ⟨t, hrun, ht⟩
  rw [Pool.freeb]
  split
  next =>
    split
    next => exact Or.inl rfl
    next => exact Or.inr ⟨_, rfl, set_inv hs hlive rfl⟩
  next =>
    split
    next => exact Or.inr (hfre _)
    next => exact Or.inr (hfre s.bytes)

theorem start_inv (hs : Start s) : Inv s := by
  have hnone : ∀ b i, ¬ s.Carved b i := by
    rintro b i ⟨va, k, hmem, -⟩
    rw [hs.chunks] at hmem
    exact absurd hmem not_mem_nil
  refine ⟨?_, ?_, fun b i hb => absurd hb (hnone b i), fun b hb => ?_, fun _ => [], ?_, ?_, ?_⟩
  · rw [hs.chunks]
    exact fun c hc => absurd hc not_mem_nil
  · rw [hs.chunks]
    exact List.Pairwise.nil
  · rw [hs.live b] at hb
    cases hb
  · exact fun i => hs.free i
  · exact fun b i => ⟨fun hb => absurd hb not_mem_nil, fun hb => absurd hb.1 (hnone b i)⟩
  · exact fun b i hb => absurd hb not_mem_nil

/-- **One call**: it keeps the invariant, or panics for want of something. -/
theorem act_spec {op : Op} (hs : Inv s) (hop : Allowed s op) :
    (∃ t, act s op = .ok t ∧ Inv t) ∨ act s op = .error .unsupported ∨ act s op = .error .nomemory ∨
      act s op = .error .limited ∨ act s op = .error .assert := by
  have hout : ∀ {size r}, Outcome s size r → (∃ t, r.map Prod.snd = .ok t ∧ Inv t) ∨
      r.map Prod.snd = .error .unsupported ∨ r.map Prod.snd = .error .nomemory ∨
        r.map Prod.snd = .error .limited ∨ r.map Prod.snd = .error .assert := by
    intro size r h
    rcases h with rfl | rfl | rfl | rfl | ⟨b, t, rfl, hgot⟩
    · exact Or.inr (Or.inl rfl)
    · exact Or.inr (Or.inr (Or.inl rfl))
    · exact Or.inr (Or.inr (Or.inr (Or.inl rfl)))
    · exact Or.inl ⟨s, rfl, hs⟩
    · exact Or.inl ⟨t, rfl, hgot.inv⟩
  cases op with
  | allocb size pa => exact hout (allocb_spec hs hop)
  | iallocb size pa => exact hout (iallocb_spec hs hop)
  | freeb b =>
    rcases freeb_spec hs hop with hpanic | hrun
    · exact Or.inr (Or.inr (Or.inr (Or.inr hpanic)))
    · exact Or.inl hrun
  | set b h => exact Or.inl ⟨_, rfl, set_inv hs hop.1 hop.2⟩

theorem reach_inv (hr : Reach s) : Inv s :=
  hr.invariant Inv (fun _ hs => start_inv hs) fun _ _ _ hs hstep => by
    rcases act_spec hs hstep.1 with ⟨u, hrun, hu⟩ | hrun | hrun | hrun | hrun
    · cases hrun.symm.trans hstep.2
      exact hu
    all_goals exact nomatch hrun.symm.trans hstep.2

/-- What the allocator promises. -/
structure PoolOk (s : Pool) : Prop where
  inside : ∀ b i, s.Carved b i → ∃ va, (va, i) ∈ s.chunks ∧ va ≤ (s.block b).base ∧
    (s.block b).base < b ∧ b + sizeofBlock ≤ va + 2 * MiB
  disjoint : ∀ a b i j, s.Carved a i → s.Carved b j → (a, i) ≠ (b, j) →
    a + sizeofBlock ≤ (s.block b).base ∨ b + sizeofBlock ≤ (s.block a).base
  lists : ∃ fl : Nat → List Nat, (∀ i, Path s.next (s.free i) (fl i) none ∧ (fl i).Nodup) ∧
    (∀ b i, b ∈ fl i → s.Carved b i) ∧ (∀ b, s.live b = true → ∃ i, s.Carved b i) ∧
    ∀ b i, s.Carved b i →
      (s.live b = true ∧ ∀ j, b ∉ fl j) ∨ (s.live b = false ∧ ∀ j, b ∈ fl j ↔ j = i)
  got : ∀ size pa b t, (∀ va, pa = some va → Fresh s va) →
    s.allocb size pa = .ok (some b, t) ∨ s.iallocb size pa = .ok (some b, t) →
      s.live b = false ∧ t.live b = true ∧ size.toNat ≤ (t.block b).lim - (t.block b).rp ∧
        64 ≤ (t.block b).rp - (t.block b).base ∧ (t.block b).lim ≤ b
  panic : ∀ op, Allowed s op →
    act s op ≠ .error .binit ∧ act s op ≠ .error .badsize ∧ act s op ≠ .error .fault

/-- **The block pool**: in every state that allocations and frees reach, blocks lie in their
chunks, apart from each other, each of them in use or on the one list of its class; and none of
the panics about sizes comes. -/
theorem qallocb_ok (hr : Reach s) : PoolOk s := by
  have hs := reach_inv hr
  refine ⟨?_, fun a b i j ha hb hne => hs.disjoint ha hb hne, ?_, ?_, ?_⟩
  · intro b i hb
    obtain ⟨va, hmem, hlo, hend, hhi⟩ := hs.inside hb
    simp only [sizeofBlock] at hend
    exact ⟨va, hmem, hlo, by omega, hhi⟩
  · obtain ⟨fl, hfl⟩ := hs.lists
    refine ⟨fl, fun i => ⟨hfl.path i, (hfl.path i).nodup⟩, fun b i hb => ((hfl.mem b i).mp hb).1, hs.live,
      fun b i hb => ?_⟩
    cases hlive : s.live b with
    | true =>
        left
        exact ⟨rfl, fun j hmem => by cases ((hfl.mem b j).mp hmem).2.symm.trans hlive⟩
    | false =>
        right
        refine ⟨rfl, fun j => ⟨fun hmem => hs.class_unique ((hfl.mem b j).mp hmem).1 hb, ?_⟩⟩
        rintro rfl
        exact (hfl.mem b j).mpr ⟨hb, hlive⟩
  · intro size pa b t hpa hrun
    have hout : ∃ r : Except Panic (Option Nat × Pool), Outcome s size.toNat r ∧ r = .ok (some b, t) := by
      rcases hrun with hrun | hrun
      · exact ⟨_, allocb_spec hs hpa, hrun⟩
      · exact ⟨_, iallocb_spec hs hpa, hrun⟩
    obtain ⟨r, hout, rfl⟩ := hout
    rcases hout with h | h | h | h | ⟨b', t', h, hgot⟩
    · cases h
    · cases h
    · cases h
    · cases h
    · cases h
      exact ⟨hgot.dead, hgot.live, hgot.space, hgot.headroom, hgot.below⟩
  · intro op hop
    rcases act_spec hs hop with ⟨u, hrun, -⟩ | hrun | hrun | hrun | hrun <;> rw [hrun] <;>
      exact ⟨(by simp), (by simp), (by simp)⟩

/-- Nothing has been allocated yet. -/
def empty : Pool where
  block := fun _ => ⟨none, none, 0, 0, 0, 0, none, 0⟩
  free := fun _ => none
  bytes := 0
  ialloc := 0
  live := fun _ => false
  chunks := []

/-- Whether a block has been allocated that can be freed. -/
def freeable : Except Panic (Option Nat × Pool) → Bool
  | .ok (some b, t) => t.live b && (act t (.freeb b)).isOk
  | _ => false

/-- A block of 40000 bytes is allocated from a new chunk, and freed. -/
theorem qallocb_ok_big : ∃ b t u, empty.allocb 40000 (some (2 * MiB)) = .ok (some b, t) ∧
    act t (.freeb b) = .ok u ∧ PoolOk u := by
  have hempty : Reach empty := StepSystem.Reach.start ⟨fun _ => rfl, fun _ => rfl, rfl⟩
  have hfresh : Allowed empty (.allocb 40000 (some (2 * MiB))) := by
    intro va hva
    cases hva
    exact ⟨by decide, fun c hc => absurd hc not_mem_nil⟩
  have hok : freeable (empty.allocb 40000 (some (2 * MiB))) = true := by decide +kernel
  cases hrun : empty.allocb 40000 (some (2 * MiB)) with
  | error e =>
    rw [hrun] at hok
    cases hok
  | ok r =>
    obtain ⟨_ | b, t⟩ := r
    · rw [hrun] at hok
      cases hok
    · rw [hrun, freeable, Bool.and_eq_true] at hok
      have hact : act empty (.allocb 40000 (some (2 * MiB))) = .ok t := by
        rw [act, hrun]
        rfl
      cases hfree : act t (.freeb b) with
      | error e =>
        rw [hfree] at hok
        cases hok.2
      | ok u =>
        have hallowed : Allowed t (.freeb b) := hok.1
        exact ⟨b, t, u, rfl, hfree, qallocb_ok ((hempty.next ⟨hfresh, hact⟩).next ⟨hallowed, hfree⟩)⟩

end Qallocb
