import NixKernel.KmapTree
import NixKernel.StepSystem

/-!
# Runs of `kseg2map`

A turn of `mmumap` maps a block of the level where its walk stopped, and this is the page that it
means unless a larger one is there.  Where it is, the address and the flags of the small page are
written over the entry of the large one.
-/

namespace Kmap

open List Option
open Mmu (PTLX KSEG2)

variable {s t : Sys} {va va' l level e k p x : Nat} {home : Nat → Option (Nat × Nat)} {w : Walkalloc}

/-- What a turn needs: no larger page has its address, but one that maps it so already, with the
word that is written. -/
def Clear (s : Sys) (basef : Nat) (r : Turn) : Prop :=
  ∀ l e, s.lookup r.va = some (l, e) → r.i < l →
    e = r.mem ||| memflagssz basef (PGLSZ l) ∧ s.translate r.va = some (r.mem, basef)

theorem pglsz_eq (hl : l < 3) : PGLSZ l = size l := by
  interval_cases l <;> rfl

theorem pglsz_gt (h0 : l ≠ 0) (hl : l < 3) : PGLSZ l > 4 * 1024 := by
  interval_cases l <;> first | exact absurd rfl h0 | decide

/-- A large page is marked as one. -/
theorem memflagssz_PS {ps : Nat} (hps : ps > 4 * 1024) (f : Nat) : (memflagssz f ps).testBit 7 = true := by
  rw [memflagssz, if_pos hps]
  split
  all_goals
    rw [Nat.testBit_or]
    exact Bool.or_eq_true_iff.mpr (.inr (by decide))

theorem memflagssz_lt {f : Nat} (hf : f < 2 ^ 32) (ps : Nat) : memflagssz f ps < 2 ^ 52 := by
  have hbits : (Pte2MPAT ||| PtePS : Nat) < 2 ^ 52 := by decide
  have hflag : PtePS < 2 ^ 52 := by decide
  rw [memflagssz]
  split_ifs
  · exact or_lt (by omega) hbits
  · exact or_lt (by omega) hflag
  · omega

theorem page_word (hl : l < 3) (mem f : Nat) (h0 : l ≠ 0) :
    (mem ||| memflagssz f (PGLSZ l)) / 128 % 2 = 1 := by
  have hbit : (mem ||| memflagssz f (PGLSZ l)).testBit 7 = true := by
    rw [Nat.testBit_or, memflagssz_PS (pglsz_gt h0 hl), Bool.or_true]
  rw [Nat.testBit_eq_decide_div_mod_eq, decide_eq_true_eq] at hbit
  exact hbit

/-- **One turn** maps a block of the level that its walk came to. -/
theorem mappage_spec (hs : Homed home s) {r : Turn} {f : Nat} (hi : r.i < 3) (hmem : r.mem < 2 ^ 52)
    (hf : f < 2 ^ 32) (hrun : mappage w f s r = some t) :
    ∃ home' l, Homed home' t ∧ t.npgsz = s.npgsz ∧ l < 3 ∧
      (∀ va', t.lookup va' = if block va' l = block r.va l then
          if (r.mem ||| memflagssz f (PGLSZ l)) % 2 = 1 then some (l, r.mem ||| memflagssz f (PGLSZ l))
          else none
        else s.lookup va') ∧
      (l = r.i ∨ (r.i < l ∧ ∃ e, e % 2 = 1 ∧ e / 128 % 2 = 1 ∧
        ∀ va', block va' l = block r.va l → s.lookup va' = some (l, e))) := by
  obtain ⟨⟨l, k, u⟩, hwalk, rfl⟩ := map_eq_some_iff.mp hrun
  obtain ⟨home', hu, hpath, hlookup, hsize, hstop⟩ := mmuwalk_alloc hs .root (Nat.le_of_lt hi) hwalk
  dsimp only at hu hpath hlookup hsize hstop ⊢
  have hk := hpath.at_home hu
  have hl : l < 3 := by
    rcases hstop with rfl | ⟨_, hp, hps⟩
    · exact hi
    · refine Nat.lt_of_le_of_ne hpath.le fun h3 => ?_
      subst h3
      have htop := hu.top _ _ _ hk hp
      omega
  have hword := page_word hl r.mem f
  have ht := hu.write (x := PTLX r.va l) hk (fun _ h3 => absurd h3 (by omega)) (fun h0 _ => .inl (hword h0))
    (or_lt hmem (memflagssz_lt hf _))
  refine ⟨home', l, ht, hsize, hl, fun va' => ?_, ?_⟩
  · rw [leaf_write hu hpath ht (fun h0 _ => hword h0), hlookup]
  · rcases hstop with rfl | ⟨hlt, hp, hps⟩
    · exact .inl rfl
    · refine .inr ⟨hlt, u.mem k (PTLX r.va l), hp, hps, fun va' hblock => ?_⟩
      have hup := block_up hpath.le hblock
      rw [← hlookup, (hpath.congr hup.1).leaf hu]
      cases l with
      | zero => exact absurd hlt (Nat.not_lt_zero _)
      | succ l =>
        rw [Sys.leaf, hup.2, if_neg (by omega), if_pos hps]

/-- A bit that is clear is added. -/
theorem or_128 {f : Nat} (h : f / 128 % 2 = 0) : f ||| 128 = f + 128 := by
  have hsplit : f = f / 256 * 256 + f % 128 := by omega
  have hlow : f % 128 ||| 128 = f % 128 + 128 := by
    have hlt : f % 128 < 2 ^ 7 := Nat.mod_lt f (by decide)
    rw [Nat.or_comm, or_flags (a := 128) (by decide) hlt, Nat.add_comm]
  have hhigh : ∀ b < 256, f / 256 * 256 ||| b = f / 256 * 256 + b := fun b hb =>
    or_flags (n := 8) (Nat.mul_mod_left _ _) hb
  calc f ||| 128 = f / 256 * 256 ||| f % 128 ||| 128 := by rw [hhigh _ (by omega), ← hsplit]
    _ = f / 256 * 256 + (f % 128 + 128) := by rw [Nat.or_assoc, hlow, hhigh _ (by omega)]
    _ = f + 128 := by omega

/-- The flags of a page: in a large one the bit of the PAT moves, to make room for that of the size. -/
theorem memflagssz_eq (hl : l < 3) {f : Nat} (hf : f < 4096) :
    memflagssz f (PGLSZ l) = if l = 0 then f else if f / 128 % 2 = 1 then f + 4096 else f + 128 := by
  have hpat : f &&& Pte4KPAT = 0 ↔ f / 128 % 2 = 0 := and_PS f
  rw [memflagssz]
  by_cases h0 : l = 0
  · rw [if_pos h0, h0, if_neg fun h => absurd h.2 (by decide), if_neg (by decide)]
  · have hps := pglsz_gt h0 hl
    rw [if_neg h0]
    by_cases hbit : f / 128 % 2 = 1
    · have hclear : (f - 128) / 128 % 2 = 0 := by omega
      have hor : f - 128 ||| (Pte2MPAT ||| PtePS) = 4096 ||| (f - 128 ||| 128) := by
        rw [Pte2MPAT, PtePS, ← Nat.or_assoc, Nat.or_comm (f - 128), Nat.or_assoc]
      have hlow : f - 128 ||| 128 = f := by
        rw [or_128 hclear]
        omega
      rw [if_pos ⟨fun h => by omega, hps⟩, if_pos hbit]
      change f - 128 ||| (Pte2MPAT ||| PtePS) = _
      rw [hor, hlow, or_flags (n := 12) (by decide) hf, Nat.add_comm]
    · rw [if_neg fun h => h.1 (hpat.mpr (by omega)), if_pos hps, if_neg hbit, PtePS, or_128 (by omega)]

/-- What a page is decoded to. -/
theorem decode_page (hl : l < 3) {mem f : Nat} (hal : mem % size l = 0) (hmem : mem < 2 ^ 41) (hf : f < 4096)
    (va : Nat) : decode va (l, mem ||| memflagssz f (PGLSZ l)) = some (mem + va % size l, f) ∧
      (mem ||| memflagssz f (PGLSZ l)) % 2 = f % 2 := by
  have hflags := memflagssz_eq hl hf
  have hsmall : mem % 4096 = 0 := by
    interval_cases l <;> simp only [size] at hal <;> omega
  have hor : mem ||| memflagssz f (PGLSZ l) = mem + memflagssz f (PGLSZ l) := by
    by_cases h0 : l = 0
    · rw [hflags, if_pos h0]
      exact or_flags (n := 12) hsmall hf
    · have hal' : mem % 2 ^ 13 = 0 := by
        interval_cases l <;> simp only [size] at hal <;> omega
      refine or_flags hal' ?_
      rw [hflags, if_neg h0]
      split <;> omega
  rw [hor, hflags]
  interval_cases l
  · simp only [if_true, decode]
    refine ⟨?_, by omega⟩
    rw [some.injEq, Prod.mk.injEq]
    change _ = mem + va % 4096 ∧ _
    omega
  all_goals
    simp only [size] at hal
    norm_num at hal
    simp only [decode, size, Nat.one_ne_zero, OfNat.ofNat_ne_zero, if_false]
    norm_num
    split <;> omega

/-- The canonical addresses of a block of KSEG2. -/
theorem block_iff (hl : l < 3) {mem : Nat} (hal : mem % size l = 0) (hmem : mem + size l ≤ 2 ^ 41)
    (hva : Canonical va) : block va l = block (KSEG2 + mem) l ↔ KSEG2 + mem ≤ va ∧ va < KSEG2 + mem + size l := by
  rw [block, block]
  rw [Canonical] at hva
  have hk : KSEG2 = 0xfffffe0000000000 := rfl
  rw [hk]
  interval_cases l <;> simp only [size] at hal hmem ⊢ <;> norm_num at hal hmem ⊢ <;> omega

/-- An address of KSEG2 translates to its own physical address, with these flags if they say present. -/
def Own (f va : Nat) : Option (Nat × Nat) := if f % 2 = 1 then some (va - KSEG2, f) else none

theorem canonical_kseg2 {mem : Nat} (h : mem < 2 ^ 41) : Canonical (KSEG2 + mem) := by
  have hk : KSEG2 = 0xfffffe0000000000 := rfl
  rw [Canonical, hk]
  omega

theorem translate_page (hl : l < 3) {mem f : Nat} (hal : mem % size l = 0) (hmem : mem + size l ≤ 2 ^ 41)
    (hf : f < 4096) (hva : Canonical va) (hge : KSEG2 + mem ≤ va) (hlt : va < KSEG2 + mem + size l)
    (hlookup : t.lookup va = if (mem ||| memflagssz f (PGLSZ l)) % 2 = 1 then
      some (l, mem ||| memflagssz f (PGLSZ l)) else none) : t.translate va = Own f va := by
  have hpos : 0 < size l := Nat.two_pow_pos _
  obtain ⟨hdecode, hbit⟩ := decode_page hl hal (by omega) hf va
  have hoff : mem + va % size l = va - KSEG2 := by
    have hk : KSEG2 = 0xfffffe0000000000 := rfl
    rw [hk] at hge hlt ⊢
    interval_cases l <;> simp only [size] at hal hlt ⊢ <;> norm_num at hal hlt ⊢ <;> omega
  rw [Sys.translate, if_pos hva, hlookup, hbit, Own]
  split
  · rw [bind_some, hdecode, hoff]
  · rfl

/-- A larger page that maps one address of a page to its own maps them all so. -/
theorem decode_larger {i mem f : Nat} (hi : i < l) (hl : l < 3) (he : e % 2 = 1) (hps : e / 128 % 2 = 1)
    (hal : mem % size i = 0) (hmem : mem < 2 ^ 41)
    (hdecode : decode (KSEG2 + mem) (l, e) = some (mem, f)) (hge : KSEG2 + mem ≤ va)
    (hlt : va < KSEG2 + mem + size i) :
    block va l = block (KSEG2 + mem) l ∧ decode va (l, e) = Own f va := by
  have hk : KSEG2 = 0xfffffe0000000000 := rfl
  have hmod : va % size l = (KSEG2 + mem) % size l + (va - (KSEG2 + mem)) ∧
      block va l = block (KSEG2 + mem) l := by
    rw [hk] at hge hlt ⊢
    rw [block, block]
    interval_cases l <;> interval_cases i <;> simp only [size] at hal hlt ⊢ <;>
      norm_num at hal hlt ⊢ <;> omega
  refine ⟨hmod.2, ?_⟩
  cases l with
  | zero => exact absurd hi (Nat.not_lt_zero i)
  | succ l =>
    rw [decode] at hdecode ⊢
    obtain ⟨hreserved, hpage⟩ := ite_none_left_eq_some.mp hdecode
    simp only [some.injEq, Prod.mk.injEq] at hpage
    obtain ⟨hbase, hflags⟩ := hpage
    have hodd : f % 2 = 1 := by omega
    have hoff : mem + (va - (KSEG2 + mem)) = va - KSEG2 := by omega
    rw [if_neg hreserved, Own, if_pos hodd, hflags, hmod.1, ← Nat.add_assoc, hbase, hoff]

/-- **One turn maps its page**, and leaves the other addresses. -/
theorem mappage_ok (hs : Homed home s) {r : Turn} {f : Nat} (hi : r.i < 3) (hva : r.va = KSEG2 + r.mem)
    (hal : r.mem % size r.i = 0) (hfit : r.mem + size r.i ≤ 2 ^ 41) (hf : f < 4096) (hclear : Clear s f r)
    (hrun : mappage w f s r = some t) :
    ∃ home', Homed home' t ∧ t.npgsz = s.npgsz ∧ ∀ va, Canonical va →
      (r.va ≤ va → va < r.va + size r.i → t.translate va = Own f va) ∧
      (¬(r.va ≤ va ∧ va < r.va + size r.i) → t.lookup va = s.lookup va) := by
  obtain ⟨home', l, ht, hsize, hl, hlookup, hstop⟩ := mappage_spec hs hi (by omega) (by omega) hrun
  refine ⟨home', ht, hsize, fun va hcan => ?_⟩
  rcases hstop with rfl | ⟨hlt, e, he, hps, hold⟩
  · rw [hva] at hlookup ⊢
    have hblock := block_iff hl hal hfit hcan
    refine ⟨fun hge hlt => ?_, fun hout => ?_⟩
    · refine translate_page hl hal hfit hf hcan hge hlt ?_
      rw [hlookup, if_pos (hblock.mpr ⟨hge, hlt⟩)]
    · rw [hlookup, if_neg fun h => hout (hblock.mp h)]
  · -- what is written is there already
    have hpos : 0 < size r.i := Nat.two_pow_pos _
    have hself := hold _ rfl
    obtain ⟨rfl, htranslate⟩ := hclear l e hself hlt
    have hsame : ∀ va', t.lookup va' = s.lookup va' := fun va' => by
      rw [hlookup, if_pos he]
      split
      · rename_i hblock
        exact (hold va' hblock).symm
      · rfl
    have hdecode : decode (KSEG2 + r.mem) (l, r.mem ||| memflagssz f (PGLSZ l)) = some (r.mem, f) := by
      have hcan' : Canonical (KSEG2 + r.mem) := canonical_kseg2 (by omega)
      rw [Sys.translate, hself, hva, if_pos hcan', bind_some] at htranslate
      exact htranslate
    refine ⟨fun hge hlt' => ?_, fun _ => hsame va⟩
    rw [hva] at hge hlt'
    obtain ⟨hblock, hpage⟩ := decode_larger hlt hl he hps hal (by omega) hdecode hge hlt'
    rw [Sys.translate, if_pos hcan, hsame, hold va (hva ▸ hblock), bind_some, hpage]

theorem aligned_add (hl : l < 3) {mem : Nat} (hmem : mem % 4096 = 0) : (mem + size l) % 4096 = 0 := by
  interval_cases l <;> simp only [size] <;> omega

/-- A turn of aligned addresses finds a size, which fits. -/
theorem pick_spec {npgsz mem e : Nat} (hn : 0 < npgsz) (hmem : mem % 4096 = 0) (he : e % 4096 = 0)
    (hlt : mem < e) (hn3 : npgsz ≤ 3) : ∃ i, pick npgsz mem e = some i ∧ i < 3 ∧ mem % size i = 0 ∧ mem + size i ≤ e := by
  cases hpick : pick npgsz mem e with
  | none =>
    have hzero := List.find?_eq_none.mp hpick 0 (mem_reverse.mpr (mem_range.mpr hn))
    have hand : mem &&& (PGLSZ 0 - 1) = 0 := by
      rw [PGLSZ, and_mask]
      exact hmem
    refine absurd ?_ hzero
    rw [hand, Bool.and_eq_true, decide_eq_true_eq]
    refine ⟨rfl, ?_⟩
    change mem + 4096 ≤ e
    omega
  | some i =>
    have hfind := List.find?_some hpick
    have hi := mem_range.mp (mem_reverse.mp (mem_of_find?_eq_some hpick))
    rw [Bool.and_eq_true, beq_iff_eq, decide_eq_true_eq, PGLSZ, and_mask, ← PGLSZ,
      pglsz_eq (by omega)] at hfind
    exact ⟨i, rfl, by omega, hfind⟩

/-- The turns of an aligned range go up through it. -/
theorem turns_mem {npgsz e mem : Nat} (hn : 0 < npgsz) (hn3 : npgsz ≤ 3) (he : e % 4096 = 0)
    (hmem : mem % 4096 = 0) {r : Turn} (hr : r ∈ turns npgsz e mem (KSEG2 + mem)) :
    mem ≤ r.mem ∧ r.mem < e ∧ r.va = KSEG2 + r.mem ∧ r.i < 3 := by
  induction hm : e - mem using Nat.strong_induction_on generalizing mem with
  | _ m ih =>
    rw [turns] at hr
    by_cases hlt : mem < e
    · obtain ⟨i, hpick, hi, hal, hle⟩ := pick_spec hn hmem he hlt hn3
      have hpos : 0 < size i := Nat.two_pow_pos _
      simp only [if_pos hlt, hpick, mem_cons] at hr
      rw [pglsz_eq hi, Nat.add_assoc] at hr
      rcases hr with rfl | hr
      · exact ⟨Nat.le_refl _, hlt, rfl, hi⟩
      · have hrest := ih _ (by omega) (aligned_add hi hmem) hr rfl
        exact ⟨by omega, hrest.2⟩
    · rw [if_neg hlt] at hr
      cases hr

/-- **The loop of `mmumap`** over what is left of a range. -/
theorem mmumap_loop {npgsz e f : Nat} (hn : 0 < npgsz) (hn3 : npgsz ≤ 3) (he : e % 4096 = 0)
    (hfit : e ≤ 2 ^ 41)
    (hf : f < 4096) {mem : Nat} (hs : Homed home s) (hmem : mem % 4096 = 0)
    (hclear : ∀ r ∈ turns npgsz e mem (KSEG2 + mem), Clear s f r)
    (hrun : (turns npgsz e mem (KSEG2 + mem)).foldlM (mappage w f) s = some t) :
    ∃ home', Homed home' t ∧ t.npgsz = s.npgsz ∧ ∀ va, Canonical va →
      (KSEG2 + mem ≤ va → va < KSEG2 + e → t.translate va = Own f va) ∧
      (¬(KSEG2 + mem ≤ va ∧ va < KSEG2 + e) → t.lookup va = s.lookup va) := by
  induction hm : e - mem using Nat.strong_induction_on generalizing mem s home with
  | _ m ih =>
    rw [turns] at hclear hrun
    by_cases hlt : mem < e
    · obtain ⟨i, hpick, hi, hal, hle⟩ := pick_spec hn hmem he hlt hn3
      have hpos : 0 < size i := Nat.two_pow_pos _
      simp only [if_pos hlt, hpick] at hclear hrun
      rw [pglsz_eq hi, Nat.add_assoc] at hclear hrun
      rw [foldlM_cons] at hrun
      obtain ⟨u, hfirst, hrest⟩ := bind_eq_some_iff.mp hrun
      have hfit' : mem + size i ≤ 2 ^ 41 := by omega
      obtain ⟨home₁, hu, hsize₁, hpage⟩ := mappage_ok (r := ⟨mem, KSEG2 + mem, i⟩) hs hi rfl hal hfit' hf
        (hclear _ mem_cons_self) hfirst
      have hal' := aligned_add hi hmem
      have hclear' : ∀ r ∈ turns npgsz e (mem + size i) (KSEG2 + (mem + size i)), Clear u f r := by
        intro r hr l e' hl hi'
        obtain ⟨hge, hlt', hva, _⟩ := turns_mem hn hn3 he hal' hr
        have hcan : Canonical r.va := hva ▸ canonical_kseg2 (by omega)
        have hout : ¬(KSEG2 + mem ≤ r.va ∧ r.va < KSEG2 + mem + size i) := by
          rw [hva]
          omega
        have hsame := (hpage r.va hcan).2 hout
        obtain ⟨hword, hold⟩ := hclear r (mem_cons_of_mem _ hr) l e' (hsame ▸ hl) hi'
        refine ⟨hword, ?_⟩
        rw [Sys.translate, hsame]
        exact hold
      obtain ⟨home₂, ht, hsize₂, hwhole⟩ :=
        @ih (e - (mem + size i)) (by omega) u home₁ (mem + size i) hu hal' hclear' hrest rfl
      refine ⟨home₂, ht, hsize₂.trans hsize₁, fun va hcan => ⟨fun hge hlt' => ?_, fun hout => ?_⟩⟩
      · by_cases hin : va < KSEG2 + mem + size i
        · have hlookup := (hwhole va hcan).2 (by omega)
          rw [Sys.translate, hlookup]
          exact (hpage va hcan).1 hge hin
        · exact (hwhole va hcan).1 (by omega) hlt'
      · rw [(hwhole va hcan).2 (by omega)]
        exact (hpage va hcan).2 (by dsimp only; omega)
    · rw [if_neg hlt] at hrun
      cases hrun
      exact ⟨home, hs, rfl, fun va _ => ⟨fun h1 h2 => by omega, fun _ => rfl⟩⟩

/-- A call of `kseg2map`. -/
structure Call where
  pa : Nat
  len : Nat
  basef : Nat
deriving DecidableEq

/-- Pages, of addresses that KSEG2 has, with flags of a page. -/
structure Call.Allowed (c : Call) : Prop where
  pa : c.pa % 4096 = 0
  len : c.len % 4096 = 0
  fits : c.pa + c.len ≤ 2 ^ 41
  basef : c.basef < 4096

/-- A tree to begin with. -/
def Tree (s : Sys) : Prop := ∃ home, Homed home s

def act (w : Walkalloc) (s : Sys) (c : Call) : Option Sys := kseg2map w s c.pa c.len c.basef

def Reach (w : Walkalloc) : Sys → Prop := StepSystem.Reach Tree fun s c t => c.Allowed ∧ act w s c = some t

/-- The call maps its range, and leaves all other addresses as they are. -/
structure Maps (s : Sys) (c : Call) (t : Sys) : Prop where
  range : ∀ va, Canonical va → KSEG2 + c.pa ≤ va → va < KSEG2 + (c.pa + c.len) →
    t.translate va = Own c.basef va
  others : ∀ va, Canonical va → ¬(KSEG2 + c.pa ≤ va ∧ va < KSEG2 + (c.pa + c.len)) →
    t.translate va = s.translate va

/-- No page of the call lies in a larger page, but one that maps it so already. -/
def Regular (s : Sys) (c : Call) : Prop :=
  ∀ r ∈ turns s.npgsz (c.pa + c.len) c.pa (KSEG2 + c.pa), Clear s c.basef r

/-- The tree stays one, whatever is in the way. -/
theorem foldlM_tree {f : Nat} (hf : f < 2 ^ 32) {l : List Turn} (hl : ∀ r ∈ l, r.i < 3 ∧ r.mem < 2 ^ 52)
    (hs : Tree s) (hrun : l.foldlM (mappage w f) s = some t) : Tree t := by
  induction l generalizing s with
  | nil =>
    cases hrun
    exact hs
  | cons r l ih =>
    obtain ⟨u, hfirst, hrest⟩ := bind_eq_some_iff.mp hrun
    obtain ⟨home, hhome⟩ := hs
    obtain ⟨hi, hmem⟩ := hl r mem_cons_self
    obtain ⟨home', _, hu, _⟩ := mappage_spec hhome hi hmem hf hfirst
    exact ih (fun r' hr' => hl r' (mem_cons_of_mem r hr')) ⟨home', hu⟩ hrest

theorem turns_lt {npgsz e mem va : Nat} (hn : npgsz ≤ 3) :
    ∀ r ∈ turns npgsz e mem va, r.i < 3 ∧ r.mem < e := by
  induction hm : e - mem using Nat.strong_induction_on generalizing mem va with
  | _ m ih =>
    intro r hr
    rw [turns] at hr
    by_cases hlt : mem < e
    · cases hpick : pick npgsz mem e with
      | none =>
        simp only [if_pos hlt, hpick] at hr
        refine ih _ ?_ rfl r hr
        change e - (mem + 4096) / 4096 * 4096 < m
        omega
      | some i =>
        have hi := mem_range.mp (mem_reverse.mp (mem_of_find?_eq_some hpick))
        have hpos : 0 < PGLSZ i := Nat.two_pow_pos _
        simp only [if_pos hlt, hpick, mem_cons] at hr
        have hi3 : i < 3 := by omega
        rcases hr with rfl | hr
        · exact ⟨hi3, hlt⟩
        · exact ih _ (by omega) rfl r hr
    · rw [if_neg hlt] at hr
      cases hr

theorem mmumap_tree {pa len f : Nat} (hfit : pa + len ≤ 2 ^ 52) (hf : f < 2 ^ 32) (hs : Tree s)
    (hrun : mmumap w s pa va len f = some t) : Tree t := by
  refine foldlM_tree hf (fun r hr => ?_) hs hrun
  obtain ⟨home, hhome⟩ := hs
  obtain ⟨hi, hlt⟩ := turns_lt hhome.npgsz.2 r hr
  exact ⟨hi, by omega⟩

theorem reach_tree (hr : Reach w s) : Tree s := by
  refine hr.invariant Tree (fun s hs => hs) fun s c t hs hstep => ?_
  have hfits := hstep.1.fits
  have hbasef := hstep.1.basef
  exact mmumap_tree (by omega) (by omega) hs hstep.2

/-- **A call of `kseg2map` maps its range**, after any calls, if no page of it lies in a larger one
that is there, but for one that maps it so already. -/
theorem kseg2map_maps {c : Call} (hr : Reach w s) (hc : c.Allowed) (hreg : Regular s c)
    (hrun : act w s c = some t) : Maps s c t := by
  obtain ⟨home, hs⟩ := reach_tree hr
  have he : (c.pa + c.len) % 4096 = 0 := by
    have hpa := hc.pa
    have hlen := hc.len
    omega
  obtain ⟨_, _, _, hpage⟩ := mmumap_loop hs.npgsz.1 hs.npgsz.2 he hc.fits hc.basef hs hc.pa hreg hrun
  refine ⟨fun va hcan => (hpage va hcan).1, fun va hcan hout => ?_⟩
  rw [Sys.translate, (hpage va hcan).2 hout, Sys.translate]

/-- A page behind those in use. -/
def pool : Walkalloc where
  get used := if 4096 * (used.sum / 4096 + 1) < 2 ^ 32 then some (4096 * (used.sum / 4096 + 1)) else none
  fresh used pa h hmem := by
    obtain ⟨_, heq⟩ := ite_none_right_eq_some.mp h
    cases heq
    have hle := le_sum_of_mem hmem
    omega
  aligned used pa h := by
    obtain ⟨_, heq⟩ := ite_none_right_eq_some.mp h
    cases heq
    exact Nat.mul_mod_right 4096 _
  low used pa h := by
    obtain ⟨hlt, heq⟩ := ite_none_right_eq_some.mp h
    cases heq
    exact hlt

/-- A top table without entries. -/
def empty : Sys := ⟨fun _ _ => 0, 4096, [4096], 3, fun _ => []⟩

theorem empty_tree : Tree empty := by
  have hmem : ∀ t x, ¬empty.mem t x % 2 = 1 := fun _ _ => Nat.zero_ne_one
  refine ⟨fun t => if t = 4096 then some (3, 0) else none, ⟨rfl, fun t h ht => ?_, fun t h ht => ?_,
    fun t _ x _ hp => absurd hp (hmem t x), fun t _ _ x _ _ hp => absurd hp (hmem t x),
    fun _ _ => Nat.two_pow_pos 52,
    fun l page hpage => (not_mem_nil hpage).elim, by decide⟩⟩
  · obtain ⟨rfl, _⟩ := ite_none_right_eq_some.mp ht
    exact mem_singleton_self _
  · obtain ⟨rfl, _⟩ := ite_none_right_eq_some.mp ht
    decide

/-- A range of one page has one turn. -/
theorem turns_single {npgsz mem va i : Nat} (hlt : mem < e) (hpick : pick npgsz mem e = some i)
    (hle : e ≤ mem + PGLSZ i) : turns npgsz e mem va = [⟨mem, va, i⟩] := by
  have hend : turns npgsz e (mem + PGLSZ i) (va + PGLSZ i) = [] := by
    rw [turns, if_neg (by omega)]
  rw [turns]
  simp only [if_pos hlt, hpick, hend]

def large : Call := ⟨0x200000, 0x200000, 3⟩

/-- A page of 2 MiB is mapped, -/
def mapped : Sys := (mappage pool 3 empty ⟨0x200000, KSEG2 + 0x200000, 1⟩).getD empty

def small : Call := ⟨0x201000, 0x1000, 0x13⟩

/-- and then one of its small pages, without a cache. -/
def remapped : Sys := (mappage pool 0x13 mapped ⟨0x201000, KSEG2 + 0x201000, 0⟩).getD mapped

theorem large_turns : turns 3 (large.pa + large.len) large.pa (KSEG2 + large.pa) =
    [⟨0x200000, KSEG2 + 0x200000, 1⟩] :=
  turns_single (by decide) (by decide) (by decide)

theorem large_allowed : large.Allowed := ⟨by decide, by decide, by decide, by decide⟩

theorem large_mapped : act pool empty large = some mapped := by
  change (turns 3 (large.pa + large.len) large.pa (KSEG2 + large.pa)).foldlM (mappage pool 3) empty = _
  have hsome : (mappage pool 3 empty ⟨0x200000, KSEG2 + 0x200000, 1⟩).isSome = true := by decide +kernel
  rw [large_turns, foldlM_cons, mapped, ← getD_of_ne_none (isSome_iff_ne_none.mp hsome) empty]
  rfl

theorem mapped_reach : Reach pool mapped :=
  (StepSystem.Reach.start empty_tree).next ⟨large_allowed, large_mapped⟩

/-- The page is mapped again, where it is. -/
theorem kseg2map_maps_large : ∃ t, act pool mapped large = some t ∧ Maps mapped large t := by
  have hsize : mapped.npgsz = 3 := by decide +kernel
  have hturns : turns mapped.npgsz (large.pa + large.len) large.pa (KSEG2 + large.pa) =
      [⟨0x200000, KSEG2 + 0x200000, 1⟩] := hsize ▸ large_turns
  have hsome : (act pool mapped large).isSome = true := by
    change ((turns mapped.npgsz (large.pa + large.len) large.pa (KSEG2 + large.pa)).foldlM
      (mappage pool 3) mapped).isSome = true
    rw [hturns]
    decide +kernel
  obtain ⟨t, hrun⟩ := isSome_iff_exists.mp hsome
  refine ⟨t, hrun, kseg2map_maps mapped_reach large_allowed ?_ hrun⟩
  intro r hr
  rw [hturns, mem_singleton] at hr
  subst hr
  intro l e hl hlt
  have hlevel : (mapped.lookup (KSEG2 + 0x200000)).map Prod.fst = some 1 := by decide +kernel
  rw [hl] at hlevel
  cases hlevel
  exact absurd hlt (Nat.lt_irrefl 1)

/-- The small page's address and flags are written over the large page, which is uncached then. -/
theorem kseg2map_overwrites : Reach pool mapped ∧ small.Allowed ∧ act pool mapped small = some remapped ∧
    mapped.translate (KSEG2 + 0x200000) = some (0x200000, 3) ∧
    remapped.translate (KSEG2 + 0x200000) = some (0x200000, 0x93) ∧ ¬Maps mapped small remapped := by
  have hbefore : mapped.translate (KSEG2 + 0x200000) = some (0x200000, 3) := by decide +kernel
  have hafter : remapped.translate (KSEG2 + 0x200000) = some (0x200000, 0x93) := by decide +kernel
  refine ⟨mapped_reach, ⟨by decide, by decide, by decide, by decide⟩, ?_, hbefore, hafter, fun h => ?_⟩
  · have hturns : turns 3 (small.pa + small.len) small.pa (KSEG2 + small.pa) =
        [⟨0x201000, KSEG2 + 0x201000, 0⟩] :=
      turns_single (by decide) (by decide) (by decide)
    have hsome : (mappage pool 0x13 mapped ⟨0x201000, KSEG2 + 0x201000, 0⟩).isSome = true := by decide +kernel
    have hsize : mapped.npgsz = 3 := by decide +kernel
    change (turns mapped.npgsz (small.pa + small.len) small.pa (KSEG2 + small.pa)).foldlM
      (mappage pool 0x13) mapped = _
    rw [hsize, hturns, foldlM_cons, remapped,
      ← Option.getD_of_ne_none (Option.isSome_iff_ne_none.mp hsome) mapped]
    rfl
  · have hother := h.others (KSEG2 + 0x200000) (by decide) (by decide)
    rw [hbefore, hafter] at hother
    exact absurd hother (by decide)

end Kmap
