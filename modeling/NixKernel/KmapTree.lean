import NixKernel.Kmap

/-!
# The tree of page tables

Each table of a tree has one place: a level, and the part of the address space that it is for.  What
is written to an entry is then seen by the addresses of its part only.
-/

namespace Kmap

open Mmu (PTLX)
open Function (update update_self update_of_ne update_apply)

variable {s t : Sys} {va va' l level e k p x : Nat} {home : Nat → Option (Nat × Nat)} {w : Walkalloc}

theorem and_P (e : Nat) : e &&& PteP = 0 ↔ e % 2 = 0 := by
  rw [PteP, Nat.and_one_is_mod]

theorem and_PS (e : Nat) : e &&& PtePS = 0 ↔ e / 128 % 2 = 0 := by
  have hand := Nat.and_two_pow e 7
  rw [Nat.testBit_eq_decide_div_mod_eq] at hand
  change e &&& 2 ^ 7 = 0 ↔ _
  rw [hand]
  have h7 : (2 : Nat) ^ 7 = 128 := rfl
  rw [h7]
  by_cases h : e / 128 % 2 = 1
  · rw [decide_eq_true h, Bool.toNat_true, h]
    decide
  · rw [decide_eq_false h, Bool.toNat_false]
    omega

theorem and_mask (e n : Nat) : e &&& (2 ^ n - 1) = e % 2 ^ n := Nat.and_two_pow_sub_one_eq_mod e n

theorem ppn_eq (e : Nat) : PPN e = e % 2 ^ 32 / 4096 * 4096 := by
  have hmask : (0xfffff000 : Nat) = (2 ^ 20 - 1) <<< 12 := rfl
  have hsplit : e % 2 ^ 32 / 4096 * 4096 = (e >>> 12 &&& (2 ^ 20 - 1)) <<< 12 := by
    rw [and_mask, Nat.shiftLeft_eq, Nat.shiftRight_eq_div_pow]
    omega
  rw [PPN, hmask, hsplit]
  refine Nat.eq_of_testBit_eq fun i => ?_
  rw [Nat.testBit_and, Nat.testBit_shiftLeft, Nat.testBit_shiftLeft, Nat.testBit_and, Nat.testBit_shiftRight]
  by_cases hi : 12 ≤ i
  · rw [decide_eq_true hi, Bool.true_and, Bool.true_and, Nat.add_sub_cancel' hi]
  · rw [decide_eq_false hi, Bool.false_and, Bool.false_and, Bool.and_false]

theorem or_lt {a b n : Nat} (ha : a < 2 ^ n) (hb : b < 2 ^ n) : a ||| b < 2 ^ n := Nat.or_lt_two_pow ha hb

/-- Flags below the bits of an address. -/
theorem or_flags {a f n : Nat} (ha : a % 2 ^ n = 0) (hf : f < 2 ^ n) : a ||| f = a + f := by
  obtain ⟨b, rfl⟩ := Nat.dvd_of_mod_eq_zero ha
  exact (Nat.two_pow_add_eq_or_of_lt hf b).symm

/-- The part of the address space that an entry of a level is for. -/
def block (va l : Nat) : Nat := va % 2 ^ 48 / size l

/-- The tables of a tree: each has one place, which is a level and what it is for, and an entry that
is a table has one for its part. -/
structure Homed (home : Nat → Option (Nat × Nat)) (s : Sys) : Prop where
  root : home s.pml4 = some (3, 0)
  used : ∀ t h, home t = some h → t ∈ s.used
  low : ∀ t h, home t = some h → t % 4096 = 0 ∧ t < 2 ^ 32
  top : ∀ t p x, home t = some (3, p) → s.mem t x % 2 = 1 → s.mem t x / 128 % 2 = 0
  down : ∀ t l p x, home t = some (l + 1, p) → x < 512 → s.mem t x % 2 = 1 → s.mem t x / 128 % 2 = 0 →
    home (PPN (s.mem t x)) = some (l, p * 512 + x) ∧ s.mem t x % 2 ^ 52 / 4096 * 4096 = PPN (s.mem t x)
  word : ∀ t x, s.mem t x < 2 ^ 52
  list : ∀ l page, page ∈ s.mmuptp (l + 1) → ∃ p, home page.prev = some (l + 1, p) ∧
    home page.pa = some (l, p * 512 + page.daddr)
  npgsz : 0 < s.npgsz ∧ s.npgsz ≤ 3

theorem ptlx_lt (va l : Nat) : PTLX va l < 512 := Nat.mod_lt _ (by decide)

theorem block_succ (hl : l ≤ 3) (va : Nat) : block va (l + 1) * 512 + PTLX va l = block va l := by
  rw [block, block, size, size, PTLX]
  change va % 2 ^ 48 / 2 ^ ((l + 1) * 9 + 12) * 512 + va / 2 ^ (l * 9 + 12) % 512 = _
  interval_cases l <;> norm_num <;> omega

/-- Addresses of one part are of one part above, at the same place in its table. -/
theorem block_up (hl : l ≤ 3) (h : block va' l = block va l) :
    block va' (l + 1) = block va (l + 1) ∧ PTLX va' l = PTLX va l := by
  have h₁ := block_succ hl va'
  have h₂ := block_succ hl va
  have h₃ := ptlx_lt va' l
  have h₄ := ptlx_lt va l
  omega

theorem block_four (va : Nat) : block va 4 = 0 := Nat.div_eq_of_lt (Nat.mod_lt _ (by decide))

/-- An address comes through a table of a level. -/
inductive Path (s : Sys) (va : Nat) : Nat → Nat → Prop
  | root : Path s va 3 s.pml4
  | down {l t : Nat} : Path s va (l + 1) t → s.mem t (PTLX va (l + 1)) % 2 = 1 →
      s.mem t (PTLX va (l + 1)) / 128 % 2 = 0 → Path s va l (PPN (s.mem t (PTLX va (l + 1))))

theorem Path.le (h : Path s va l k) : l ≤ 3 := by
  induction h with
  | root => exact Nat.le_refl 3
  | down _ _ _ ih => exact Nat.le_of_succ_le ih

/-- The tables on the way are at home where the address is. -/
theorem Path.at_home (hs : Homed home s) (h : Path s va l k) : home k = some (l, block va (l + 1)) := by
  induction h with
  | root => rw [hs.root, block_four]
  | down hpath hp hps ih =>
    rw [(hs.down _ _ _ _ ih (ptlx_lt va _) hp hps).1, block_succ hpath.le]

/-- From a table at home for the address the lookup meets such tables only. -/
theorem Path.leaf (hs : Homed home s) (h : Path s va l k) : s.lookup va = s.leaf va l k := by
  induction h with
  | root => rfl
  | down hpath hp hps ih =>
    have hbase := (hs.down _ _ _ _ (hpath.at_home hs) (ptlx_lt va _) hp hps).2
    rw [ih, Sys.leaf]
    rw [if_neg (by omega), if_neg (by omega), hbase]

@[simp] theorem set_mem (s : Sys) (k x e k' x' : Nat) :
    (s.set k x e).mem k' x' = if k' = k ∧ x' = x then e else s.mem k' x' := by
  rw [Sys.set]
  dsimp only
  by_cases hk : k' = k
  · subst hk
    rw [update_self, update_apply]
    simp
  · rw [update_of_ne hk, if_neg fun h => hk h.1]

@[simp] theorem set_pml4 (s : Sys) (k x e : Nat) : (s.set k x e).pml4 = s.pml4 := rfl

/-- An entry that is for others is not read. -/
theorem read_congr (hk : home k = some (l, block va (l + 1))) (hl : l ≤ 3) (hne : block va' l ≠ block va l)
    {l' k' : Nat} (hk' : home k' = some (l', block va' (l' + 1))) : ¬(k' = k ∧ PTLX va' l' = PTLX va l) := by
  rintro ⟨rfl, hx⟩
  rw [hk] at hk'
  simp only [Option.some.injEq, Prod.mk.injEq] at hk'
  obtain ⟨rfl, hblock⟩ := hk'
  refine hne ?_
  rw [← block_succ hl va', ← block_succ hl va, hx, hblock]

/-- A lookup depends on the words of the tables at home for the address. -/
theorem leaf_congr (hs : Homed home s)
    (hread : ∀ l' k', l' ≤ 3 → home k' = some (l', block va' (l' + 1)) →
      t.mem k' (PTLX va' l') = s.mem k' (PTLX va' l'))
    (hl : l ≤ 3) (hk : home k = some (l, block va' (l + 1))) : t.leaf va' l k = s.leaf va' l k := by
  induction l generalizing k with
  | zero => rw [Sys.leaf, Sys.leaf, hread 0 k hl hk]
  | succ l ih =>
    rw [Sys.leaf, Sys.leaf, hread (l + 1) k hl hk]
    by_cases hp : s.mem k (PTLX va' (l + 1)) % 2 = 0
    · rw [if_pos hp, if_pos hp]
    · by_cases hps : s.mem k (PTLX va' (l + 1)) / 128 % 2 = 1
      · rw [if_neg hp, if_neg hp, if_pos hps, if_pos hps]
      · have hp' : s.mem k (PTLX va' (l + 1)) % 2 = 1 := by omega
        have hps' : s.mem k (PTLX va' (l + 1)) / 128 % 2 = 0 := by omega
        obtain ⟨hhome, hbase⟩ := hs.down _ _ _ _ hk (ptlx_lt va' _) hp' hps'
        rw [block_succ hl] at hhome
        rw [if_neg hp, if_neg hp, if_neg hps, if_neg hps, hbase]
        exact ih (by omega) hhome

/-- An entry that is a page, or absent, or the table for its part. -/
theorem Homed.write (hs : Homed home s) (hk : home k = some (l, p)) (hl : e % 2 = 1 → l = 3 → e / 128 % 2 = 0)
    (he : l ≠ 0 → e % 2 = 1 → e / 128 % 2 = 1 ∨
      (home (PPN e) = some (l - 1, p * 512 + x) ∧ e % 2 ^ 52 / 4096 * 4096 = PPN e)) (hword : e < 2 ^ 52) :
    Homed home (s.set k x e) where
  root := hs.root
  used := hs.used
  low := hs.low
  npgsz := hs.npgsz
  list := hs.list
  top k' p' x' hk' := by
    rw [set_mem]
    split
    · rename_i heq
      rw [heq.1, hk] at hk'
      simp only [Option.some.injEq, Prod.mk.injEq] at hk'
      exact fun hp => hl hp hk'.1
    · exact hs.top k' p' x' hk'
  down k' l' p' x' hk' hx' := by
    rw [set_mem]
    split
    · rename_i heq
      rw [heq.1, hk] at hk'
      simp only [Option.some.injEq, Prod.mk.injEq] at hk'
      obtain ⟨rfl, rfl⟩ := hk'
      intro hp hps
      rw [heq.2]
      exact (he (Nat.succ_ne_zero l') hp).resolve_left (by omega)
    · exact hs.down k' l' p' x' hk' hx'
  word k' x' := by
    rw [set_mem]
    split
    · exact hword
    · exact hs.word k' x'

/-- The way to a table is the same for the addresses of its part. -/
theorem Path.congr (h : Path s va l k) (hblock : block va' (l + 1) = block va (l + 1)) :
    Path s va' l k := by
  induction h with
  | root => exact .root
  | @down l k hpath hp hps ih =>
    obtain ⟨hup, hx⟩ := block_up hpath.le hblock
    have hpath' := ih hup
    rw [← hx] at hp hps ⊢
    exact .down hpath' hp hps

/-- The way to a table depends on the words of the tables above. -/
theorem Path.same (hs : Homed home s) (h : Path s va l k) (hroot : t.pml4 = s.pml4)
    (hread : ∀ l' k', l < l' → home k' = some (l', block va (l' + 1)) →
      t.mem k' (PTLX va l') = s.mem k' (PTLX va l')) : Path t va l k := by
  induction h with
  | root => exact hroot ▸ .root
  | @down l k hpath hp hps ih =>
    have hpath' := ih fun l' k' hlt => hread l' k' (by omega)
    have heq := hread (l + 1) k (Nat.lt_succ_self l) (hpath.at_home hs)
    rw [← heq] at hp hps ⊢
    exact .down hpath' hp hps

/-- An entry of the table itself is not on the way. -/
theorem Path.write (hs : Homed home s) (h : Path s va l k) (x e : Nat) : Path (s.set k x e) va l k := by
  refine h.same hs rfl fun l' k' hlt hk' => ?_
  rw [set_mem, if_neg]
  rintro ⟨rfl, -⟩
  rw [h.at_home hs] at hk'
  simp only [Option.some.injEq, Prod.mk.injEq] at hk'
  omega

/-- **What a page written to an entry does**: the addresses of the entry come to it, the others
where they came before. -/
theorem leaf_write (hs : Homed home s) (h : Path s va l k) (ht : Homed home (s.set k (PTLX va l) e))
    (he : l ≠ 0 → e % 2 = 1 → e / 128 % 2 = 1) (va' : Nat) :
    (s.set k (PTLX va l) e).lookup va' =
      if block va' l = block va l then if e % 2 = 1 then some (l, e) else none else s.lookup va' := by
  have hk := h.at_home hs
  by_cases hblock : block va' l = block va l
  · rw [if_pos hblock]
    obtain ⟨hup, hx⟩ := block_up h.le hblock
    have hpath : Path (s.set k (PTLX va l) e) va' l k := (h.congr hup).write hs _ _
    rw [hpath.leaf ht]
    have hread : (s.set k (PTLX va l) e).mem k (PTLX va' l) = e := by rw [set_mem, if_pos ⟨rfl, hx⟩]
    cases l with
    | zero => rw [Sys.leaf, hread]
    | succ l =>
      rw [Sys.leaf, hread]
      by_cases hp : e % 2 = 1
      · have hps := he (Nat.succ_ne_zero l) hp
        simp only [hp, hps, Nat.one_ne_zero, if_true, if_false]
      · have hp' : e % 2 = 0 := by omega
        simp only [hp', Nat.zero_ne_one, if_true, if_false]
  · rw [if_neg hblock, Sys.lookup, set_pml4]
    refine leaf_congr hs (fun l' k' _ hk' => ?_) (Nat.le_refl 3) (by rw [hs.root, block_four])
    rw [set_mem, if_neg (read_congr hk h.le hblock hk')]

theorem table_word {pa f : Nat} (hal : pa % 4096 = 0) (hlow : pa < 2 ^ 32) (hf : f < 128) (hp : f % 2 = 1) :
    (pa ||| f) % 2 = 1 ∧ (pa ||| f) / 128 % 2 = 0 ∧ PPN (pa ||| f) = pa ∧
      (pa ||| f) % 2 ^ 52 / 4096 * 4096 = PPN (pa ||| f) := by
  have hor : pa ||| f = pa + f := or_flags (n := 12) hal (by omega)
  rw [ppn_eq, hor]
  omega

theorem table_mem (s : Sys) (pa k' x' : Nat) :
    (s.table pa).mem k' x' = if k' = pa then 0 else s.mem k' x' := by
  rw [Sys.table]
  dsimp only
  by_cases hk : k' = pa
  · rw [hk, update_self, if_pos rfl]
  · rw [update_of_ne hk, if_neg hk]

/-- What a table is known to be for, with a new one. -/
def grown (home : Nat → Option (Nat × Nat)) (pa l p : Nat) : Nat → Option (Nat × Nat) :=
  update home pa (some (l, p))

/-- A page of the allocator has no place yet. -/
theorem Homed.fresh (hs : Homed home s) {pa : Nat} (hget : w.get s.used = some pa) : home pa = none := by
  cases hhome : home pa with
  | none => rfl
  | some h => exact absurd (hs.used pa h hhome) (w.fresh _ _ hget)

theorem grown_of_some {pa : Nat} (hfresh : home pa = none) {h : Nat × Nat} (hk : home k = some h)
    (l p : Nat) : k ≠ pa ∧ grown home pa l p k = some h := by
  have hne : k ≠ pa := by
    rintro rfl
    rw [hfresh] at hk
    cases hk
  exact ⟨hne, (update_of_ne hne _ _).trans hk⟩

theorem grown_ne {pa : Nat} (hne : k ≠ pa) (l p : Nat) : grown home pa l p k = home k :=
  update_of_ne hne _ _

/-- A page of zeros is a table for any part. -/
theorem Homed.table (hs : Homed home s) {pa : Nat} (hget : w.get s.used = some pa) (l p : Nat) :
    Homed (grown home pa l p) (s.table pa) := by
  have hfresh := hs.fresh hget
  have hself : grown home pa l p pa = some (l, p) := update_self pa _ home
  refine ⟨(grown_of_some hfresh hs.root l p).2, fun k' h' hk' => ?_, fun k' h' hk' => ?_,
    fun k' p' x hk' => ?_, fun k' l' p' x hk' hx => ?_, fun k' x => ?_, fun l' page hpage => ?_, hs.npgsz⟩
  · by_cases hne : k' = pa
    · exact hne ▸ List.mem_cons_self
    · rw [grown_ne hne] at hk'
      exact List.mem_cons_of_mem pa (hs.used k' h' hk')
  · by_cases hne : k' = pa
    · exact hne ▸ ⟨w.aligned _ _ hget, w.low _ _ hget⟩
    · rw [grown_ne hne] at hk'
      exact hs.low k' h' hk'
  · rw [table_mem]
    split
    · exact fun hone => absurd hone (by decide)
    · rename_i hne
      rw [grown_ne hne] at hk'
      exact hs.top k' p' x hk'
  · rw [table_mem]
    split
    · exact fun hone => absurd hone (by decide)
    · rename_i hne
      rw [grown_ne hne] at hk'
      intro hone hps
      obtain ⟨hdown, hbase⟩ := hs.down k' l' p' x hk' hx hone hps
      exact ⟨(grown_of_some hfresh hdown l p).2, hbase⟩
  · rw [table_mem]
    split
    · decide
    · exact hs.word k' x
  · obtain ⟨p', hprev, hpa⟩ := hs.list l' page hpage
    exact ⟨p', (grown_of_some hfresh hprev l p).2, (grown_of_some hfresh hpa l p).2⟩

/-- **A new table** for an entry keeps the tree. -/
theorem alloc_homed (hs : Homed home s) (h : Path s va (l + 1) k) {pa f : Nat} (hget : w.get s.used = some pa)
    (hf : f < 128) (hp : f % 2 = 1) :
    Homed (grown home pa l (block va (l + 1))) ((s.table pa).set k (PTLX va (l + 1)) (pa ||| f)) ∧
      Path ((s.table pa).set k (PTLX va (l + 1)) (pa ||| f)) va (l + 1) k ∧
      Path ((s.table pa).set k (PTLX va (l + 1)) (pa ||| f)) va l pa := by
  obtain ⟨hp', hps', hppn, hbase⟩ := table_word (w.aligned _ _ hget) (w.low _ _ hget) hf hp
  have hle := h.le
  have hs' := hs.table hget l (block va (l + 1))
  have hfresh := hs.fresh hget
  have hpath : Path (s.table pa) va (l + 1) k := by
    refine h.same hs rfl fun l' k' _ hk' => ?_
    rw [table_mem, if_neg (grown_of_some hfresh hk' l 0).1]
  have hword : pa ||| f < 2 ^ 52 := Nat.lt_trans
    (or_lt (w.low _ _ hget) (Nat.lt_trans hf (by decide))) (by decide)
  have hpath' := hpath.write hs' (PTLX va (l + 1)) (pa ||| f)
  refine ⟨hs'.write (hpath.at_home hs') (fun _ _ => hps') (fun _ _ => .inr ⟨?_, hbase⟩) hword, hpath', ?_⟩
  · rw [hppn, block_succ hle]
    exact update_self pa _ home
  · have hread : ((s.table pa).set k (PTLX va (l + 1)) (pa ||| f)).mem k (PTLX va (l + 1)) = pa ||| f := by
      rw [set_mem, if_pos ⟨rfl, rfl⟩]
    have hdown := Path.down hpath' (by rwa [hread]) (by rwa [hread])
    rwa [hread, hppn] at hdown

/-- Where the entry was absent, no lookup changes. -/
theorem alloc_lookup (hs : Homed home s) (h : Path s va (l + 1) k) {pa f : Nat}
    (hget : w.get s.used = some pa)
    (hf : f < 128) (hp : f % 2 = 1) (habsent : s.mem k (PTLX va (l + 1)) % 2 = 0) (va' : Nat) :
    ((s.table pa).set k (PTLX va (l + 1)) (pa ||| f)).lookup va' = s.lookup va' := by
  obtain ⟨hhome, _, hdown⟩ := alloc_homed hs h hget hf hp
  have hfresh := hs.fresh hget
  have hk := h.at_home hs
  by_cases hblock : block va' (l + 1) = block va (l + 1)
  · have hup := block_up h.le hblock
    have hold : s.lookup va' = none := by
      rw [(h.congr hup.1).leaf hs, Sys.leaf, hup.2, if_pos habsent]
    have hkpa := (grown_of_some hfresh hk l 0).1
    have hzero : ((s.table pa).set k (PTLX va (l + 1)) (pa ||| f)).mem pa (PTLX va' l) = 0 := by
      rw [set_mem, if_neg fun h => hkpa h.1.symm, table_mem, if_pos rfl]
    rw [hold, (hdown.congr hblock).leaf hhome]
    cases l with
    | zero => rw [Sys.leaf, hzero]; rfl
    | succ l => rw [Sys.leaf, hzero]; rfl
  · change Sys.leaf _ va' 3 s.pml4 = _
    refine leaf_congr hs (fun l' k' _ hk' => ?_) (Nat.le_refl 3) (by rw [hs.root, block_four])
    rw [set_mem, if_neg (read_congr hk h.le hblock hk'), table_mem, if_neg (grown_of_some hfresh hk' l 0).1]

/-- **A walk that may allocate** changes no lookup.  It stops at the level, or at a larger page. -/
theorem mmuwalk_alloc (hs : Homed home s) (h : Path s va l k) (hle : level ≤ l) {r : Nat × Nat × Sys}
    (hrun : mmuwalk (some w) va level l k s = some r) :
    ∃ home', Homed home' r.2.2 ∧ Path r.2.2 va r.1 r.2.1 ∧ (∀ va', r.2.2.lookup va' = s.lookup va') ∧
      r.2.2.npgsz = s.npgsz ∧
      (r.1 = level ∨ (level < r.1 ∧ r.2.2.mem r.2.1 (PTLX va r.1) % 2 = 1 ∧
        r.2.2.mem r.2.1 (PTLX va r.1) / 128 % 2 = 1)) := by
  induction l generalizing s k home with
  | zero =>
    cases hrun
    exact ⟨home, hs, h, fun _ => rfl, rfl, .inl (Nat.le_zero.mp hle).symm⟩
  | succ l ih =>
    rw [mmuwalk] at hrun
    split_ifs at hrun with hlevel habsent hps
    · cases hrun
      exact ⟨home, hs, h, fun _ => rfl, rfl, .inl hlevel⟩
    · obtain ⟨pa, hget, hrun⟩ := Option.bind_eq_some_iff.mp hrun
      rw [and_P] at habsent
      obtain ⟨hs', _, hpath⟩ := alloc_homed (f := PteRW ||| PteP) hs h hget (by decide) (by decide)
      have hlookup := alloc_lookup (f := PteRW ||| PteP) hs h hget (by decide) (by decide) habsent
      have hword := table_word (f := PteRW ||| PteP) (w.aligned _ _ hget) (w.low _ _ hget) (by decide)
        (by decide)
      rw [Nat.or_assoc, hword.2.2.1] at hrun
      obtain ⟨home'', hs'', hpath', hlookup', hsize, hstop⟩ := ih hs' hpath (by omega) hrun
      exact ⟨home'', hs'', hpath', fun va' => (hlookup' va').trans (hlookup va'), hsize, hstop⟩
    · rw [ne_eq, and_PS] at hps
      rw [and_P] at habsent
      have hp : s.mem k (PTLX va (l + 1)) % 2 = 1 := by omega
      have hps' : s.mem k (PTLX va (l + 1)) / 128 % 2 = 1 := by omega
      cases hrun
      exact ⟨home, hs, h, fun _ => rfl, rfl, .inr ⟨by omega, hp, hps'⟩⟩
    · rw [ne_eq, not_not, and_PS] at hps
      rw [and_P] at habsent
      exact ih hs (.down h (by omega) hps) (by omega) hrun

end Kmap
