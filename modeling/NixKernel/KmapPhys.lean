import NixKernel.KmapRun

/-!
# `mmuphysaddr` in the trees that are built

The walks, the maps and the pages that are put keep a tree.  In a tree `mmuphysaddr` finds what the
hardware finds; where that is nothing it takes the absent entry for a page.
-/

namespace Kmap

open Option

open Mmu (PTLX)

variable {s t : Sys} {va va' l level e k p x : Nat} {home : Nat → Option (Nat × Nat)} {w : Walkalloc}

/-- `mmuphysaddr` is what the hardware makes of the address, or ~0. -/
def Right (s : Sys) (va : Nat) : Prop :=
  mmuphysaddr s va = some (((s.translate va).map Prod.fst).getD (2 ^ 64 - 1))

/-- A walk without an allocator stops at the last level, at an absent entry, or at a page. -/
theorem mmuwalk_none (h : Path s va l k) :
    ∃ l' k', mmuwalk none va 0 l k s = some (l', k', s) ∧ Path s va l' k' ∧
      (l' = 0 ∨ s.mem k' (PTLX va l') % 2 = 0 ∨
        (s.mem k' (PTLX va l') % 2 = 1 ∧ s.mem k' (PTLX va l') / 128 % 2 = 1)) := by
  induction l generalizing k with
  | zero => exact ⟨0, k, rfl, h, .inl rfl⟩
  | succ l ih =>
    rw [mmuwalk, if_neg (Nat.succ_ne_zero l)]
    split_ifs with habsent hps
    · exact ⟨l + 1, k, rfl, h, .inr (.inl ((and_P _).mp habsent))⟩
    · rw [ne_eq, and_PS] at hps
      rw [and_P] at habsent
      exact ⟨l + 1, k, rfl, h, .inr (.inr ⟨by omega, by omega⟩)⟩
    · rw [ne_eq, not_not, and_PS] at hps
      rw [and_P] at habsent
      exact ih (.down h (by omega) hps)

theorem pglsz_le (l : Nat) : PGLSZ l ≤ 2 ^ 31 :=
  Nat.pow_le_pow_right (by decide) (Nat.le_of_lt_succ (Nat.mod_lt _ (by decide)))

/-- Where the walk has stopped, the lookup does. -/
theorem leaf_stop (he : s.mem k (PTLX va l) = e)
    (hstop : l = 0 ∨ e % 2 = 0 ∨ (e % 2 = 1 ∧ e / 128 % 2 = 1)) :
    s.leaf va l k = if e % 2 = 1 then some (l, e) else none := by
  cases l with
  | zero => rw [Sys.leaf, he]
  | succ l =>
    rw [Sys.leaf, he]
    rcases hstop with h0 | hp | ⟨hp, hps⟩
    · exact absurd h0 (Nat.succ_ne_zero l)
    · rw [if_pos hp, if_neg (by omega)]
    · rw [if_neg (by omega), if_pos hps, if_pos hp]

/-- In a tree `mmuphysaddr` is right just where there is a translation: it returns no ~0. -/
theorem Tree.right_iff (hs : Tree s) (va : Nat) : Right s va ↔ s.translate va ≠ none := by
  obtain ⟨home, hs⟩ := hs
  obtain ⟨l, k, hwalk, hpath, hstop⟩ := mmuwalk_none (.root : Path s va 3 s.pml4)
  have hword := hs.word k (PTLX va l)
  have hlookup := hpath.leaf hs
  have hle := hpath.le
  generalize he : s.mem k (PTLX va l) = e at hword hstop
  have hval : mmuphysaddr s va = some (e / PGLSZ l * PGLSZ l + va % PGLSZ l) := by
    have hpow := Nat.div_add_mod e (PGLSZ l)
    have hlt : va % PGLSZ l < PGLSZ l := Nat.mod_lt _ (Nat.two_pow_pos _)
    have hsz := pglsz_le l
    rw [mmuphysaddr, hwalk, map_some]
    dsimp only
    rw [he, PGLSZ, and_mask, and_mask, ← PGLSZ]
    rw [Nat.mul_comm] at hpow
    rw [Nat.mod_eq_of_lt (by omega)]
    congr 1
    omega
  have hlarge : e / PGLSZ l * PGLSZ l + va % PGLSZ l ≠ 2 ^ 64 - 1 := by
    have hpow := Nat.div_mul_le_self e (PGLSZ l)
    have hlt : va % PGLSZ l < PGLSZ l := Nat.mod_lt _ (Nat.two_pow_pos _)
    have hsz := pglsz_le l
    omega
  rw [Right, hval, some.injEq]
  rw [leaf_stop he hstop] at hlookup
  cases htrans : s.translate va with
  | none => exact iff_of_false hlarge (not_not_intro rfl)
  | some r =>
    refine iff_of_true ?_ (some_ne_none r)
    rw [Sys.translate, hlookup] at htrans
    obtain ⟨_, hpage⟩ := ite_none_right_eq_some.mp htrans
    obtain ⟨⟨l', e'⟩, hfound, hdecode⟩ := bind_eq_some_iff.mp hpage
    obtain ⟨_, heq⟩ := ite_none_right_eq_some.mp hfound
    cases heq
    have hmod : e % 2 ^ 52 = e := Nat.mod_eq_of_lt hword
    cases l with
    | zero =>
      rw [decode, some.injEq, hmod] at hdecode
      rw [← hdecode]
      rfl
    | succ l =>
      obtain ⟨hreserved, heq⟩ := ite_none_left_eq_some.mp hdecode
      rw [some.injEq, hmod] at heq
      rw [pglsz_eq (by omega), ← heq]
      rfl

theorem ppn_self {pa : Nat} (hal : pa % 4096 = 0) (hlow : pa < 2 ^ 32) : PPN pa = pa := by
  have heq := ppn_eq pa
  omega

/-- A page of the process, linked in its place. -/
theorem putpage_spec (hs : Homed home s) (h : Path s va (l + 1) k) {prev : Nat}
    (hprev : home prev = some (l + 1, block va (l + 2))) {r : Nat × Sys}
    (hrun : putpage w s (l + 1) k prev (PTLX va (l + 1)) = some r) :
    ∃ home', Homed home' r.2 ∧ Path r.2 va (l + 1) k ∧ home' r.1 = some (l, block va (l + 1)) := by
  rw [putpage] at hrun
  cases hfind : (s.mmuptp (l + 1)).find? fun page => page.prev == prev && page.daddr == PTLX va (l + 1) with
  | some page =>
    have hmatch := List.find?_some hfind
    rw [Bool.and_eq_true, beq_iff_eq, beq_iff_eq] at hmatch
    obtain ⟨p', hprev', hpa⟩ := hs.list l page (List.mem_of_find?_eq_some hfind)
    rw [hmatch.1, hprev] at hprev'
    simp only [some.injEq, Prod.mk.injEq, true_and] at hprev'
    rw [← hprev', hmatch.2, block_succ h.le] at hpa
    obtain ⟨hal, hlow⟩ := hs.low _ _ hpa
    obtain ⟨hp, hps, hppn, hbase⟩ :=
      table_word (f := PteU ||| PteRW ||| PteP) hal hlow (by decide) (by decide)
    have hself := ppn_self hal hlow
    rw [hfind] at hrun
    cases hrun
    dsimp only
    rw [hself]
    split
    · refine ⟨home, hs.write (h.at_home hs) (fun _ _ => hps) (fun _ _ => .inr ⟨?_, hbase⟩) ?_,
        h.write hs _ _, hpa⟩
      · rw [hppn, block_succ h.le]
        exact hpa
      · exact Nat.lt_trans (or_lt hlow (by decide)) (by decide)
    · exact ⟨home, hs, h, hpa⟩
  | none =>
    rw [hfind] at hrun
    obtain ⟨pa, hget, rfl⟩ := map_eq_some_iff.mp hrun
    have hself := ppn_self (w.aligned _ _ hget) (w.low _ _ hget)
    obtain ⟨hs', hpath, _⟩ := alloc_homed (f := PteU ||| PteRW ||| PteP) hs h hget (by decide) (by decide)
    dsimp only
    rw [hself]
    have hpa : grown home pa l (block va (l + 1)) pa = some (l, block va (l + 1)) :=
      Function.update_self pa _ home
    refine ⟨_, ⟨hs'.root, hs'.used, hs'.low, hs'.top, hs'.down, hs'.word,
      fun l' page hpage => ?_, hs'.npgsz⟩, hpath.same hs' rfl fun _ _ _ _ => rfl, hpa⟩
    dsimp only at hpage
    by_cases hl : l' + 1 = l + 1
    · rw [hl, Function.update_self] at hpage
      rcases List.mem_cons.mp hpage with rfl | hpage
      · cases hl
        refine ⟨_, (grown_of_some (hs.fresh hget) hprev _ _).2, ?_⟩
        rw [block_succ h.le]
        exact hpa
      · exact hs'.list l' page (hl ▸ hpage)
    · rw [Function.update_of_ne hl] at hpage
      exact hs'.list l' page hpage

/-- The way of `mmuput` goes through tables. -/
theorem putwalk_spec {pgsz : Nat} (hs : Homed home s) (h : Path s va l k) {prev : Nat}
    (hprev : home prev = some (l, block va (l + 1))) {r : Nat × Nat × Sys}
    (hrun : putwalk w va pgsz l k prev s = some r) :
    ∃ home', Homed home' r.2.2 ∧ Path r.2.2 va r.1 r.2.1 ∧ (r.1 = 0 ∨ lvltab[r.1]? = some pgsz) := by
  induction l generalizing s k prev home with
  | zero =>
    cases hrun
    exact ⟨home, hs, h, .inl rfl⟩
  | succ l ih =>
    rw [putwalk] at hrun
    split_ifs at hrun with hlevel
    · cases hrun
      exact ⟨home, hs, h, .inr hlevel⟩
    · obtain ⟨⟨page, u⟩, hpage, hrest⟩ := bind_eq_some_iff.mp hrun
      obtain ⟨home', hu, hpath, hhome⟩ := putpage_spec hs h hprev hpage
      obtain ⟨htable, hrest⟩ := ite_none_left_eq_some.mp hrest
      rw [not_or, and_P, ne_eq, not_not, and_PS] at htable
      have hp : u.mem k (PTLX va (l + 1)) % 2 = 1 := Nat.mod_two_ne_zero.mp htable.1
      exact ih hu (.down hpath hp htable.2) hhome hrest

theorem mmuput_tree {pa i attr f : Nat} (hpa : pa < 2 ^ 52) (hf : f < 2 ^ 32) (hi : i < 3) (hs : Tree s)
    (hrun : mmuput w s va pa i attr f = some t) : Tree t := by
  obtain ⟨home, hs⟩ := hs
  obtain ⟨_, hrun⟩ := ite_none_left_eq_some.mp hrun
  obtain ⟨⟨l, k, u⟩, hwalk, rfl⟩ := map_eq_some_iff.mp hrun
  obtain ⟨home', hu, hpath, hlevel⟩ :=
    putwalk_spec hs (.root : Path s va 3 s.pml4) (by rw [hs.root, block_four]) hwalk
  dsimp only at hu hpath hlevel ⊢
  have hattr : pteflags attr < 2 ^ 52 := by
    rw [pteflags]
    split_ifs <;> decide
  refine ⟨home', hu.write (hpath.at_home hu) (fun _ h3 => ?_) (fun h0 _ => .inl ?_)
    (or_lt (or_lt (or_lt hpa (by decide)) hattr) (memflagssz_lt hf _))⟩
  · subst h3
    exact absurd hlevel (by simp [lvltab])
  · have hbig : PGLSZ i > 4 * 1024 := by
      have hsz := hlevel.resolve_left h0
      have hle := hpath.le
      refine pglsz_gt (fun hzero => ?_) hi
      subst hzero
      interval_cases l
      · exact h0 rfl
      all_goals exact absurd hsz (by decide)
    have hbit : (pa ||| PteU ||| pteflags attr ||| memflagssz f (PGLSZ i)).testBit 7 = true := by
      rw [Nat.testBit_or, memflagssz_PS hbig, Bool.or_true]
    rw [Nat.testBit_eq_decide_div_mod_eq, decide_eq_true_eq] at hbit
    exact hbit

/-- The calls that build tables. -/
inductive Op
  | walk (va level : Nat)
  | map (pa va len basef : Nat)
  | put (va pa pgszi attr memflags : Nat)
deriving DecidableEq

/-- Memory is below 2^52, flags are of 32 bits, and sizes those of the machine. -/
def Op.Allowed : Op → Prop
  | .walk _ level => level ≤ 3
  | .map pa _ len basef => pa + len ≤ 2 ^ 52 ∧ basef < 2 ^ 32
  | .put _ pa pgszi _ memflags => pa < 2 ^ 52 ∧ pgszi < 3 ∧ memflags < 2 ^ 32

def build (w : Walkalloc) (s : Sys) : Op → Option Sys
  | .walk va level => (mmuwalk (some w) va level 3 s.pml4 s).map fun r => r.2.2
  | .map pa va len basef => mmumap w s pa va len basef
  | .put va pa pgszi attr memflags => mmuput w s va pa pgszi attr memflags

/-- The trees that are built, from any. -/
def Built (w : Walkalloc) : Sys → Prop :=
  StepSystem.Reach Tree fun s op t => op.Allowed ∧ build w s op = some t

theorem built_tree (hb : Built w s) : Tree s := by
  refine hb.invariant Tree (fun s hs => hs) fun s op t hs ⟨hop, hrun⟩ => ?_
  cases op with
  | walk va level =>
    obtain ⟨home, hs⟩ := hs
    obtain ⟨r, hwalk, rfl⟩ := map_eq_some_iff.mp hrun
    obtain ⟨home', hr, _⟩ := mmuwalk_alloc hs .root hop hwalk
    exact ⟨home', hr⟩
  | map pa va len basef => exact mmumap_tree hop.1 hop.2 hs hrun
  | put va pa pgszi attr memflags => exact mmuput_tree hop.1 hop.2.2 hop.2.1 hs hrun

/-- **`mmuphysaddr` is the hardware's translation just where there is one**, in every tree that the
calls build. -/
theorem mmuphysaddr_iff (hb : Built w s) (va : Nat) : Right s va ↔ s.translate va ≠ none :=
  (built_tree hb).right_iff va

/-- A page of 2 MiB that a process has. -/
def puton : Op := .put 0x400000 0x600000 1 3 0

/-- An address in it. -/
theorem mmuphysaddr_iff_put : Right ((build pool empty puton).getD empty) 0x400123 ∧
    mmuphysaddr ((build pool empty puton).getD empty) 0x400123 = some 0x600123 := by
  have hsome : (build pool empty puton).isSome = true := by decide +kernel
  have hop : puton.Allowed := ⟨by decide, by decide, by decide⟩
  have hb : Built pool ((build pool empty puton).getD empty) := (StepSystem.Reach.start empty_tree).next
    ⟨hop, (Option.getD_of_ne_none (Option.isSome_iff_ne_none.mp hsome) empty).symm⟩
  exact ⟨(mmuphysaddr_iff hb 0x400123).mpr (by decide +kernel), by decide +kernel⟩

/-- Nothing is mapped, and `mmuphysaddr` returns 0. -/
theorem mmuphysaddr_absent : Built pool empty ∧ empty.translate 0x200000 = none ∧
    mmuphysaddr empty 0x200000 = some 0 ∧ ¬Right empty 0x200000 := by
  refine ⟨StepSystem.Reach.start empty_tree, by decide +kernel, by decide +kernel, fun h => ?_⟩
  have hval : mmuphysaddr empty 0x200000 = some 0 := by decide +kernel
  have hnone : empty.translate 0x200000 = none := by decide +kernel
  rw [Right, hval, hnone] at h
  exact absurd h (by decide)

end Kmap
