import NixKernel.MmuTables

/-!
# Stale pages

Every step of a process that stays on its processor keeps its tables and the pages in step, but for two
things that `mmuput` and `mmuptpfree` leave: tables of the level 3 are taken back with their pages of
1 GiB, and a page of 2 MiB is put without regard to a page of 1 GiB where its table would hang.
-/

namespace Mmu

open Function StepSystem List Option

variable {s t : Sys} {m p q x k j va vb pa pgsz attr : Nat} {f : Frame} {e : Pte} {puts : List Put}

variable {prev : Frame} {lvl : Nat}

theorem Hung.keeps (hu : Hung s m p lvl prev f x k t) {q l : Nat} (hl : l ≠ 0)
    (hj : j ∈ s.mmuptp q l) : j ≠ k ∧ t.daddr j = s.daddr j ∧ t.prev j = s.prev j := by
  have hne : j ≠ k := fun heq => hu.fresh q l hl (heq ▸ hj)
  rw [hu.daddr, hu.prev, update_of_ne hne, update_of_ne hne]
  exact ⟨hne, rfl, rfl⟩

/-- A table on a list has its entries, but for the one that the new table hangs in. -/
theorem Hung.keeps_mem (hu : Hung s m p lvl prev f x k t) {q l y : Nat} (hl : l ≠ 0)
    (hj : j ∈ s.mmuptp q l) (hne : ¬(.tab j = f ∧ y = x)) : t.mem (.tab j) y = s.mem (.tab j) y :=
  hu.mem _ _ hne fun heq => (hu.keeps hl hj).1 (Frame.tab.inj heq)

theorem Hung.list_eq {lvl l : Nat} (hu : Hung s m p lvl prev f x k t) (hl : l ≠ 0) (hne : l ≠ lvl) :
    t.mmuptp p l = s.mmuptp p l :=
  (hu.lists p l).resolve_left fun h => h.2.elim hl hne

/-- A new table is empty. -/
theorem Hung.empty (hu : Hung s m p lvl prev f x k t) (ht : Tree s p) (hf : f ≠ .tab k) (y : Nat) :
    t.mem (.tab k) y = .zero := by
  rcases hu.clear y fun h => hf h.1 with hz | ⟨hin, hsame⟩
  · exact hz
  · rw [hsame]
    exact ht.zero k hin y

theorem Hung.mem_list (hu : Hung s m p lvl prev f x k t) : k ∈ t.mmuptp p lvl := by
  rw [hu.list]
  exact mem_cons_self

theorem Hung.mem_iff (hu : Hung s m p lvl prev f x k t) (i : Nat) :
    i ∈ t.mmuptp p lvl ↔ i = k ∨ i ∈ s.mmuptp p lvl := by
  rw [hu.list]
  exact mem_cons

theorem Hung.free (hu : Hung s m p lvl prev f x k t) (ht : Tree s p) (hlvl : lvl ≠ 0)
    (hf : ∀ i ∈ s.mmuptp p 0, f ≠ .tab i) (i : Nat) (hi : i ∈ t.mmuptp p 0) (y : Nat) :
    t.mem (.tab i) y = .zero := by
  have hold := hu.sub i hi
  have hnot : k ∉ t.mmuptp p 0 := fun hin => hlvl (hu.apart.sep p 0 p lvl k hin hu.mem_list).2.symm
  rw [hu.mem _ _ (fun h => hf i hold h.1.symm) fun heq => hnot (Frame.tab.inj heq ▸ hi)]
  exact ht.zero i hold y

/-- **A table of the level 3 is hung** in the pml4. -/
theorem Tree.hung_three (h : Tree s p) (hn : Noted s p puts)
    (hu : Hung s m p 3 (.pml4 m) (.pml4 m) x k t) (hno : ∀ i ∈ s.mmuptp p 3, s.daddr i ≠ x) : Tree t p ∧ Noted t p puts := by
  have h2 : t.mmuptp p 2 = s.mmuptp p 2 := hu.list_eq (by decide) (by decide)
  have hback : ∀ i ∈ s.mmuptp p 3, i ∈ t.mmuptp p 3 := fun i hi => (hu.mem_iff i).mpr (Or.inr hi)
  have hthree := fun i => (hu.mem_iff i).mp
  have hmem3 : ∀ i ∈ s.mmuptp p 3, ∀ y, t.mem (.tab i) y = s.mem (.tab i) y :=
    fun i hi y => hu.keeps_mem (by decide) hi fun heq => by cases heq.1
  have hmem2 : ∀ i ∈ s.mmuptp p 2, ∀ y, t.mem (.tab i) y = s.mem (.tab i) y :=
    fun i hi y => hu.keeps_mem (by decide) hi fun heq => by cases heq.1
  have hempty := hu.empty h nofun
  have hself : t.daddr k = x := by rw [hu.daddr, update_self]
  refine ⟨⟨?_, fun j hj => ?_, fun i hi j hj hp hd => ?_, fun j hj => ?_, fun i hi y f hf => ?_, fun j hj y f => ?_,
    hu.free h (by decide) fun _ _ => nofun⟩, hn.known, fun i hi y pa attr hleaf => ?_, fun u hm hsz => ?_,
    fun va hva i hi hd => ?_, fun va hva hnone => ?_⟩
  · rw [hu.list_eq (by decide) (by decide), h.one]
  · rw [h2] at hj
    obtain ⟨i, hi, hprev⟩ := h.above j hj
    exact ⟨i, hback i hi, by rw [(hu.keeps (by decide) hj).2.2, hprev]⟩
  · rw [h2] at hi hj
    rw [(hu.keeps (by decide) hi).2.2, (hu.keeps (by decide) hj).2.2] at hp
    rw [(hu.keeps (by decide) hi).2.1, (hu.keeps (by decide) hj).2.1] at hd
    exact h.inj i hi j hj hp hd
  · rw [h2] at hj
    obtain ⟨i, hi, hprev⟩ := h.above j hj
    have hne := h.hung j hj
    rw [hprev] at hne
    rw [(hu.keeps (by decide) hj).2.2, (hu.keeps (by decide) hj).2.1, hprev, hmem3 i hi]
    exact hne
  · rcases hthree i hi with rfl | hold
    · rw [hempty] at hf
      cases hf
    · rw [hmem3 i hold] at hf
      obtain ⟨j, hj, hfj, hprev, hdaddr⟩ := h.below i hold y f hf
      exact ⟨j, h2 ▸ hj, hfj, by rw [(hu.keeps (by decide) hj).2.2, hprev],
        by rw [(hu.keeps (by decide) hj).2.1, hdaddr]⟩
  · rw [h2] at hj
    rw [hmem2 j hj]
    exact h.flat j hj y f
  · rcases hthree i hi with rfl | hold
    · rw [hempty] at hleaf
      cases hleaf
    · rw [hmem3 i hold] at hleaf
      rw [(hu.keeps (by decide) hold).2.1]
      exact hn.big i hold y pa attr hleaf
  · obtain ⟨i, hi, j, hj, hprev, hdi, hdj⟩ := hn.small u hm hsz
    exact ⟨i, hback i hi, j, h2 ▸ hj, by rw [(hu.keeps (by decide) hj).2.2, hprev],
      by rw [(hu.keeps (by decide) hi).2.1, hdi], by rw [(hu.keeps (by decide) hj).2.1, hdj]⟩
  · rcases hthree i hi with rfl | hold
    · rw [look_zero (hempty _)]
      refine (hn.none va hva fun j hj => ?_).symm
      rw [← hd, hself]
      exact hno j hj
    · rw [(hu.keeps (by decide) hold).2.1] at hd
      rw [h.look_eq hold (hmem3 i hold _) fun j hj _ => hmem2 j hj _]
      exact hn.view va hva i hold hd
  · refine hn.none va hva fun i hi => ?_
    rw [← (hu.keeps (by decide) hi).2.1]
    exact hnone i (hback i hi)

/-- **A table of the level 2 is hung** in an entry that is empty. -/
theorem Tree.hung_two (h : Tree s p) (hn : Noted s p puts) (hapart : Apart s) {i : Nat} (hi : i ∈ s.mmuptp p 3)
    (hu : Hung s m p 2 (.tab i) (.tab i) x k t) (hzero : s.mem (.tab i) x = .zero) :
    Tree t p ∧ Noted t p puts := by
  have h3 : t.mmuptp p 3 = s.mmuptp p 3 := hu.list_eq (by decide) (by decide)
  have hback : ∀ j ∈ s.mmuptp p 2, j ∈ t.mmuptp p 2 := fun j hj => (hu.mem_iff j).mpr (Or.inr hj)
  have htwo := fun j => (hu.mem_iff j).mp
  have hik : Frame.tab i ≠ .tab k := fun heq => (hu.keeps (by decide) hi).1 (Frame.tab.inj heq)
  have hmem3 : ∀ a ∈ s.mmuptp p 3, ∀ y, ¬(a = i ∧ y = x) → t.mem (.tab a) y = s.mem (.tab a) y :=
    fun a ha y hne => hu.keeps_mem (by decide) ha fun heq => hne ⟨Frame.tab.inj heq.1, heq.2⟩
  have hmem2 : ∀ j ∈ s.mmuptp p 2, ∀ y, t.mem (.tab j) y = s.mem (.tab j) y := fun j hj y =>
    hu.keeps_mem (by decide) hj fun heq => by
      obtain rfl := Frame.tab.inj heq.1
      exact absurd (hapart.sep p 2 p 3 j hj hi).2 (by decide)
  have hempty := hu.empty h hik
  have hself : t.daddr k = x ∧ t.prev k = .tab i := by
    rw [hu.daddr, hu.prev, update_self, update_self]
    exact ⟨rfl, rfl⟩
  -- nothing hangs in the entry before
  have hnone : ∀ j ∈ s.mmuptp p 2, ¬(s.prev j = .tab i ∧ s.daddr j = x) := fun j hj ⟨hprev, hdaddr⟩ => by
    have hne := h.hung j hj
    rw [hprev, hdaddr] at hne
    exact hne hzero
  refine ⟨⟨?_, fun j hj => ?_, fun a ha b hb hp hd => ?_, fun j hj => ?_, fun a ha y f hf => ?_, fun j hj y f => ?_,
    hu.free h (by decide) fun b hb heq => ?_⟩, hn.known, fun a ha y pa attr hleaf => ?_, fun u hm hsz => ?_,
    fun va hva a ha hd => ?_, fun va hva hno => ?_⟩
  · rw [hu.list_eq (by decide) (by decide), h.one]
  · rw [h3]
    rcases htwo j hj with rfl | hold
    · exact ⟨i, hi, hself.2⟩
    · rw [(hu.keeps (by decide) hold).2.2]
      exact h.above j hold
  · rcases htwo a ha with rfl | hold
    · rcases htwo b hb with rfl | hold'
      · rfl
      · rw [hself.2, (hu.keeps (by decide) hold').2.2] at hp
        rw [hself.1, (hu.keeps (by decide) hold').2.1] at hd
        exact absurd ⟨hp.symm, hd.symm⟩ (hnone b hold')
    · rw [(hu.keeps (by decide) hold).2.2] at hp
      rw [(hu.keeps (by decide) hold).2.1] at hd
      rcases htwo b hb with rfl | hold'
      · rw [hself.2] at hp
        rw [hself.1] at hd
        exact absurd ⟨hp, hd⟩ (hnone a hold)
      · rw [(hu.keeps (by decide) hold').2.2] at hp
        rw [(hu.keeps (by decide) hold').2.1] at hd
        exact h.inj a hold b hold' hp hd
  · rcases htwo j hj with rfl | hold
    · rw [hself.1, hself.2, hu.entry]
      nofun
    · obtain ⟨a, ha, hprev⟩ := h.above j hold
      have hne := h.hung j hold
      rw [hprev] at hne
      rw [(hu.keeps (by decide) hold).2.2, (hu.keeps (by decide) hold).2.1, hprev,
        hmem3 a ha _ fun heq => hnone j hold ⟨by rw [hprev, heq.1], heq.2⟩]
      exact hne
  · rw [h3] at ha
    by_cases hax : a = i ∧ y = x
    · rw [hax.1, hax.2, hu.entry] at hf
      exact ⟨k, hu.mem_list, (Pte.table.inj hf).symm, by rw [hself.2, hax.1], by rw [hself.1, hax.2]⟩
    · rw [hmem3 a ha y hax] at hf
      obtain ⟨j, hj, hfj, hprev, hdaddr⟩ := h.below a ha y f hf
      exact ⟨j, hback j hj, hfj, by rw [(hu.keeps (by decide) hj).2.2, hprev],
        by rw [(hu.keeps (by decide) hj).2.1, hdaddr]⟩
  · rcases htwo j hj with rfl | hold
    · rw [hempty]
      nofun
    · rw [hmem2 j hold]
      exact h.flat j hold y f
  · obtain rfl := Frame.tab.inj heq
    exact absurd (hapart.sep p 0 p 3 i hb hi).2 (by decide)
  · rw [h3] at ha
    rw [(hu.keeps (by decide) ha).2.1]
    by_cases hax : a = i ∧ y = x
    · rw [hax.1, hax.2, hu.entry] at hleaf
      cases hleaf
    · rw [hmem3 a ha y hax] at hleaf
      exact hn.big a ha y pa attr hleaf
  · obtain ⟨a, ha, j, hj, hprev, hda, hdj⟩ := hn.small u hm hsz
    exact ⟨a, h3 ▸ ha, j, hback j hj, by rw [(hu.keeps (by decide) hj).2.2, hprev],
      by rw [(hu.keeps (by decide) ha).2.1, hda], by rw [(hu.keeps (by decide) hj).2.1, hdj]⟩
  · rw [h3] at ha
    rw [(hu.keeps (by decide) ha).2.1] at hd
    rw [← hn.view va hva a ha hd]
    by_cases hax : a = i ∧ PTLX va 2 = x
    · obtain ⟨rfl, rfl⟩ := hax
      rw [look_zero hzero, look_empty hu.entry (hempty _)]
    · exact h.look_eq ha (hmem3 a ha _ hax) fun j hj _ => hmem2 j hj _
  · refine hn.none va hva fun a ha => ?_
    rw [← (hu.keeps (by decide) ha).2.1]
    exact hno a (h3 ▸ ha)

theorem setpte_tab_ne {a y : Nat} (hne : ¬(a = k ∧ y = x)) :
    (s.setpte (.tab k) x e).mem (.tab a) y = s.mem (.tab a) y :=
  setpte_ne fun heq => hne ⟨Frame.tab.inj heq.1, heq.2⟩

/-- A write to a table leaves those of the other lists alone. -/
theorem Apart.setpte_mem (h : Apart s) {l n : Nat} (hk : k ∈ s.mmuptp p n) (hj : j ∈ s.mmuptp p l) (hl : l ≠ n) (y : Nat) :
    (s.setpte (.tab k) x e).mem (.tab j) y = s.mem (.tab j) y :=
  setpte_tab_ne fun heq => hl (h.sep p l p n j hj (heq.1 ▸ hk)).2

/-- **A page of 1 GiB** takes the place of what was in its entry. -/
theorem Tree.big (h : Tree s p) (hn : Noted s p puts) (hapart : Apart s) (hk : k ∈ s.mmuptp p 3) (hva : va < 2 ^ 47)
    (hdaddr : s.daddr k = PTLX va 3)
    (hinj : ∀ a ∈ s.mmuptp p 3, ∀ b ∈ s.mmuptp p 3, s.daddr a = s.daddr b → a = b) :
    Tree (s.setpte (.tab k) (PTLX va 2) (.leaf pa attr)) p ∧
      Noted (s.setpte (.tab k) (PTLX va 2) (.leaf pa attr)) p (⟨va, pa, GiB, attr⟩ :: puts) := by
  refine ⟨⟨h.one, h.above, h.inj, fun j hj => ?_, fun a ha y f hf => ?_, fun j hj y f => ?_, fun a ha y => ?_⟩,
    fun u hu => ?_, fun a ha y pa' attr' hleaf => ?_, fun u hu hsz => ?_, fun vb hvb a ha hd => ?_, fun vb hvb hno => ?_⟩
  · obtain ⟨a, ha, hprev⟩ := h.above j hj
    have hne := h.hung j hj
    change (s.setpte (.tab k) (PTLX va 2) (.leaf pa attr)).mem (s.prev j) (s.daddr j) ≠ _
    rw [hprev] at hne ⊢
    by_cases heq : a = k ∧ s.daddr j = PTLX va 2
    · rw [heq.1, heq.2, setpte_self]
      nofun
    · rw [setpte_tab_ne heq]
      exact hne
  · by_cases heq : a = k ∧ y = PTLX va 2
    · rw [heq.1, heq.2, setpte_self] at hf
      cases hf
    · rw [setpte_tab_ne heq] at hf
      exact h.below a ha y f hf
  · rw [hapart.setpte_mem hk hj (by decide)]
    exact h.flat j hj y f
  · rw [hapart.setpte_mem hk ha (by decide)]
    exact h.zero a ha y
  · rcases mem_cons.mp hu with rfl | hu
    · exact hva
    · exact hn.known u hu
  · by_cases heq : a = k ∧ y = PTLX va 2
    · exact ⟨_, mem_cons_self, rfl, by rw [heq.1]; exact hdaddr.symm, heq.2.symm⟩
    · rw [setpte_tab_ne heq] at hleaf
      obtain ⟨u, hu, hsz, hp3, hp2⟩ := hn.big a ha y pa' attr' hleaf
      exact ⟨u, mem_cons_of_mem _ hu, hsz, hp3, hp2⟩
  · rcases mem_cons.mp hu with rfl | hu
    · exact absurd hsz (by decide : ¬GiB = 2 * MiB)
    · exact hn.small u hu hsz
  · rw [expected_cons]
    by_cases hsame : vb / GiB = va / GiB
    · rw [if_pos hsame]
      obtain ⟨h3, h2⟩ := (GiB_iff hvb hva).mp hsame
      obtain rfl : a = k := hinj a ha k hk (by rw [hdaddr, ← h3]; exact hd)
      rw [look, h2, setpte_self]
      rfl
    · rw [if_neg hsame, ← hn.view vb hvb a ha hd]
      refine h.look_eq ha (setpte_tab_ne fun heq => hsame ((GiB_iff hvb hva).mpr ⟨?_, heq.2⟩))
        fun j hj _ => hapart.setpte_mem hk hj (by decide) _
      rw [← hdaddr, ← heq.1]
      exact hd.symm
  · rw [expected_cons]
    by_cases hsame : vb / GiB = va / GiB
    · exact absurd (hdaddr.trans ((GiB_iff hvb hva).mp hsame).1.symm) (hno k hk)
    · rw [if_neg hsame]
      exact hn.none vb hvb hno

/-- **A page of 2 MiB**, in a table that hangs in place. -/
theorem Tree.small (h : Tree s p) (hn : Noted s p puts) (hapart : Apart s) (hk : k ∈ s.mmuptp p 3) (hj : j ∈ s.mmuptp p 2)
    (hva : va < 2 ^ 47) (hdaddr : s.daddr k = PTLX va 3) (hentry : s.mem (.tab k) (PTLX va 2) = .table (.tab j))
    (hinj : ∀ a ∈ s.mmuptp p 3, ∀ b ∈ s.mmuptp p 3, s.daddr a = s.daddr b → a = b) :
    Tree (s.setpte (.tab j) (PTLX va 1) (.leaf pa attr)) p ∧
      Noted (s.setpte (.tab j) (PTLX va 1) (.leaf pa attr)) p (⟨va, pa, 2 * MiB, attr⟩ :: puts) := by
  obtain ⟨i, hi, hij, hprev, hdj⟩ := h.below k hk _ _ hentry
  obtain rfl := Frame.tab.inj hij
  refine ⟨⟨h.one, h.above, h.inj, fun i hi => ?_, fun a ha y f hf => ?_, fun i hi y f hf => ?_, fun a ha y => ?_⟩,
    fun u hu => ?_, fun a ha y pa' attr' hleaf => ?_, fun u hu hsz => ?_, fun vb hvb a ha hd => ?_, fun vb hvb hno => ?_⟩
  · obtain ⟨a, ha, hprev⟩ := h.above i hi
    have hne := h.hung i hi
    change (s.setpte (.tab j) (PTLX va 1) (.leaf pa attr)).mem (s.prev i) (s.daddr i) ≠ _
    rw [hprev] at hne ⊢
    rw [hapart.setpte_mem hj ha (by decide)]
    exact hne
  · rw [hapart.setpte_mem hj ha (by decide)] at hf
    exact h.below a ha y f hf
  · by_cases heq : i = j ∧ y = PTLX va 1
    · rw [heq.1, heq.2, setpte_self] at hf
      cases hf
    · rw [setpte_tab_ne heq] at hf
      exact h.flat i hi y f hf
  · rw [hapart.setpte_mem hj ha (by decide)]
    exact h.zero a ha y
  · rcases mem_cons.mp hu with rfl | hu
    · exact hva
    · exact hn.known u hu
  · rw [hapart.setpte_mem hj ha (by decide)] at hleaf
    obtain ⟨u, hu, hsz, hp3, hp2⟩ := hn.big a ha y pa' attr' hleaf
    exact ⟨u, mem_cons_of_mem _ hu, hsz, hp3, hp2⟩
  · rcases mem_cons.mp hu with rfl | hu
    · exact ⟨k, hk, j, hj, hprev, hdaddr, hdj⟩
    · exact hn.small u hu hsz
  · rw [expected_cons]
    by_cases hsame : vb / (2 * MiB) = va / (2 * MiB)
    · rw [if_pos hsame]
      obtain ⟨h3, h2, h1⟩ := (MiB_iff hvb hva).mp hsame
      obtain rfl : a = k := hinj a ha k hk (by rw [hdaddr, ← h3]; exact hd)
      simp only [look, h2, hapart.setpte_mem hj ha (by decide : 3 ≠ 2), hentry, h1, setpte_self]
      rfl
    · rw [if_neg hsame, ← hn.view vb hvb a ha hd]
      refine h.look_eq ha (hapart.setpte_mem hj ha (by decide) _) fun i hi hat => setpte_tab_ne fun heq => hsame ?_
      -- the table hangs in one place, so the address differs below
      obtain ⟨b, hb, hbi, hprev', hdi⟩ := h.below a ha _ _ hat
      obtain rfl := Frame.tab.inj hbi
      obtain ⟨rfl, h1⟩ := heq
      rw [hprev] at hprev'
      obtain rfl := Frame.tab.inj hprev'
      exact (MiB_iff hvb hva).mpr ⟨by rw [← hdaddr]; exact hd.symm, by rw [← hdj, hdi], h1⟩
  · rw [expected_cons]
    by_cases hsame : vb / (2 * MiB) = va / (2 * MiB)
    · exact absurd (hdaddr.trans ((MiB_iff hvb hva).mp hsame).1.symm) (hno k hk)
    · rw [if_neg hsame]
      exact hn.none vb hvb hno

/-- A run of the process, with the calls of `mmuput` since the last flush. -/
structure Run where
  s : Sys
  puts : List Put

/-- The steps of `p` on `m`. -/
def Stays (m p : Nat) : Op → Prop
  | .mmuswitch j q => j = m ∧ q = p
  | .mmuput j _ _ _ _ => j = m
  | .mmuflush j => j = m
  | .mmurelease _ _ => False
  | .procsave j => j = m
  | .newtlb q => q = p

/-- Whether the step takes the tables of `p` back. -/
def flushes (s : Sys) : Op → Bool
  | .mmuswitch _ q => s.newtlb q
  | .mmuflush _ => true
  | _ => false

def noted (r : Run) (op : Op) : List Put :=
  match op with
  | .mmuput _ va pa pgsz attr => ⟨va, pa, pgsz, attr⟩ :: r.puts
  | op => if flushes r.s op then [] else r.puts

/-- A step of `p`, which stays on `m`. -/
def Stay (m p : Nat) (r : Run) (op : Op) (r' : Run) : Prop := Step r.s op r'.s ∧ Stays m p op ∧ r'.puts = noted r op

/-- No page of 2 MiB is put where a page of 1 GiB is, and none is flushed but where pages of 2 MiB have
been put before. -/
def Sound (r : Run) : Op → Prop
  | .mmuput _ va _ pgsz _ => pgsz = 2 * MiB → ∀ u ∈ r.puts, u.pgsz = GiB → u.va / GiB ≠ va / GiB
  | op => flushes r.s op = true →
      ∀ u ∈ r.puts, u.pgsz = GiB → ∃ v ∈ r.puts, v.pgsz = 2 * MiB ∧ v.va / GiB = u.va / GiB

/-- A process that has no tables, on the processor `m` or on none. -/
structure Fresh (m p : Nat) (r : Run) : Prop where
  reach : Reach Start Step r.s
  mmuptp : ∀ l, r.s.mmuptp p l = []
  stay : r.s.at m = none ∨ r.s.at m = some p
  away : ∀ j, j ≠ m → r.s.at j ≠ some p
  puts : r.puts = []

/-- What the tables are to do: translate by the last page put, and hold nothing when they are free. -/
def NoStale (m p : Nat) (r : Run) : Prop :=
  (r.s.at m = some p → ∀ va, va < 2 ^ 47 → translate r.s m va = expected r.puts va) ∧
    ∀ k ∈ r.s.mmuptp p 0, ∀ x, r.s.mem (.tab k) x = .zero

/-- What holds between the steps of the process. -/
structure Good (m p : Nat) (r : Run) : Prop where
  inv : Inv r.s
  stay : r.s.at m = none ∨ r.s.at m = some p
  away : ∀ j, j ≠ m → r.s.at j ≠ some p
  full : r.s.at m = some p → ∀ k ∈ r.s.mmuptp p 3, r.s.mem (.pml4 m) (r.s.daddr k) = .table (.tab k)
  tree : Tree r.s p
  noted : Noted r.s p r.puts

variable {r : Run}

theorem Fresh.good (h : Fresh m p r) : Good m p r := by
  have hno : ∀ l k, k ∉ r.s.mmuptp p l := fun l k hk => by
    rw [h.mmuptp] at hk
    cases hk
  have hput : ∀ u, u ∉ r.puts := fun u hu => by
    rw [h.puts] at hu
    cases hu
  refine ⟨h.reach.invariant Inv (fun _ => Start.inv) fun _ _ _ h => h.step, h.stay, h.away,
    fun _ k hk => absurd hk (hno 3 k), ⟨h.mmuptp 1, fun j hj => absurd hj (hno 2 j), fun i hi => absurd hi (hno 2 i),
      fun j hj => absurd hj (hno 2 j), fun i hi => absurd hi (hno 3 i), fun j hj => absurd hj (hno 2 j),
      fun i hi => absurd hi (hno 0 i)⟩,
    ⟨fun u hu => absurd hu (hput u), fun i hi => absurd hi (hno 3 i), fun u hu => absurd hu (hput u),
      fun _ _ k hk => absurd hk (hno 3 k), fun va _ _ => ?_⟩⟩
  rw [h.puts]
  rfl

theorem Good.runs (h : Good m p r) (hat : r.s.at m = some q) : q = p := by
  rcases h.stay with hnone | hp
  · rw [hnone] at hat
    cases hat
  · rw [hp] at hat
    exact (some.inj hat).symm

/-- **The tables that are reached translate** as the lists say. -/
theorem Good.noStale (h : Good m p r) : NoStale m p r := by
  refine ⟨fun hat va hva => ?_, h.tree.zero⟩
  by_cases hex : ∃ k ∈ r.s.mmuptp p 3, r.s.daddr k = PTLX va 3
  · obtain ⟨k, hk, hd⟩ := hex
    have hentry := h.full hat k hk
    rw [hd] at hentry
    rw [translate_table hentry]
    exact h.noted.view va hva k hk hd
  · have hno : ∀ k ∈ r.s.mmuptp p 3, r.s.daddr k ≠ PTLX va 3 := fun k hk hd => hex ⟨k, hk, hd⟩
    rw [h.noted.none va hva hno]
    refine translate_zero ?_
    by_contra hne
    obtain ⟨q, k, hq, hk, hd, -⟩ := h.inv.own m _ (PTLX_user hva) hne
    rw [hat] at hq
    cases hq
    exact hno k hk hd

/-- **The process is switched to**, whether or not its tables are taken back. -/
theorem Good.switched (h : Good m p r) (hsw : Switched s m p t) (hsame : Same r.s s p)
    (hbare : s.newtlb p = true → ∀ u ∈ r.puts, u.pgsz = GiB → ∃ v ∈ r.puts, v.pgsz = 2 * MiB ∧ v.va / GiB = u.va / GiB)
    (hinv : Inv t) (hat : t.at m = some p) : Good m p ⟨t, if s.newtlb p then [] else r.puts⟩ := by
  have htree := h.tree.same hsame
  have hnoted := h.noted.same h.tree hsame
  obtain ⟨mem, high, prev, ht⟩ := hsw.frame
  have hdaddr : t.daddr = s.daddr := by rw [ht]
  have hlow : ∀ k ∈ s.mmuptp p 3, ∀ i ∈ s.mmuptp p 3, s.daddr k = s.daddr i → k = i := by
    rw [hsame.lists, hsame.daddr]
    exact h.inv.inj p
  have hfull : ∀ k ∈ t.mmuptp p 3, t.mem (.pml4 m) (t.daddr k) = .table (.tab k) := fun k hk => by
    rw [hdaddr]
    exact (hsw.here k hk).1
  have haway : ∀ j, j ≠ m → t.at j ≠ some p := fun j hj hjp => hj (hinv.one j m p hjp hat)
  suffices hboth : Tree t p ∧ Noted t p (if s.newtlb p then [] else r.puts) from
    ⟨hinv, Or.inr hat, haway, fun _ => hfull, hboth.1, hboth.2⟩
  cases hnew : s.newtlb p with
  | true =>
    refine htree.flushed hnew hsw fun k hk x pa attr hleaf => ?_
    obtain ⟨u, hu, hsz, hu3, hu2⟩ := hnoted.big k hk x pa attr hleaf
    obtain ⟨v, hv, hvsz, hsame⟩ := hbare hnew u hu hsz
    obtain ⟨i, hi, j, hj, hprev, hdi, hdj⟩ := hnoted.small v hv hvsz
    obtain ⟨h3, h2⟩ := (GiB_iff (hnoted.known v hv) (hnoted.known u hu)).mp hsame
    obtain rfl : i = k := hlow i hi k hk (by rw [hdi, h3, hu3])
    exact ⟨j, hj, hprev, by rw [hdj, h2, hu2]⟩
  | false =>
    have hlists : t.mmuptp = s.mmuptp := by
      rw [ht]
      change update s.mmuptp p (kept s p) = _
      rw [kept, hnew, if_neg Bool.false_ne_true, update_eq_self]
    have hkeep : Same s t p := by
      refine ⟨by rw [hlists], hdaddr, fun j hj => ?_, fun k x => hsw.same hnew _ x (by simp)⟩
      refine hsw.prev j fun hin => ?_
      rw [hlists] at hin
      exact absurd (hinv.apart.sep p 2 p 3 j (hlists ▸ hj) (hlists ▸ hin)).2 (by decide)
    exact ⟨htree.same hkeep, hnoted.same htree hkeep⟩

/-- **A page is put**, and the tables that it needs are hung. -/
theorem Good.mmuput (h : Good m p r) (hat : r.s.at m = some p) (hva : va < 2 ^ 47)
    (hpgsz : pgsz = 2 * MiB ∨ pgsz = GiB)
    (hsound : pgsz = 2 * MiB → ∀ u ∈ r.puts, u.pgsz = GiB → u.va / GiB ≠ va / GiB)
    (hput : mmuput r.s m p va pa pgsz attr = some t) :
    Good m p ⟨t, ⟨va, pa, pgsz, attr⟩ :: r.puts⟩ := by
  obtain ⟨s, puts⟩ := r
  dsimp only at hat hsound hput ⊢
  have hinv : Inv t := h.inv.mmuput hat (@Mapped.clear s (.mmuput m va pa pgsz attr) ⟨hva, hpgsz⟩) hput
  -- the table of the level 3
  have hthree : ∀ u : Nat × Sys, u = descend s m p 3 (.pml4 m) (.pml4 m) (PTLX va 3) →
      Inv u.2 ∧ u.2.proc = s.proc ∧ Tree u.2 p ∧ Noted u.2 p puts ∧ u.1 ∈ u.2.mmuptp p 3 ∧ u.2.daddr u.1 = PTLX va 3 ∧
        ∀ k ∈ u.2.mmuptp p 3, u.2.mem (.pml4 m) (u.2.daddr k) = .table (.tab k) := by
    intro u hu
    have hinv' := (h.inv.descend_three hat hu).1
    rcases descend_spec (p := p) h.inv.apart m (by decide : 3 ≠ 0) (.pml4 m) (.pml4 m) (PTLX va 3) with
      ⟨k, hk, -, hd, hrun⟩ | ⟨hno, hung⟩
    · have hentry := h.full hat k hk
      dsimp only at hentry
      rw [hd] at hentry
      rw [hrun, if_neg (by rw [hentry]; nofun)] at hu
      subst hu
      exact ⟨h.inv, rfl, h.tree, h.noted, hk, hd, h.full hat⟩
    · rw [← hu] at hung
      have hfree : ∀ i ∈ s.mmuptp p 3, s.daddr i ≠ PTLX va 3 := fun i hi hd =>
        hno i hi ⟨(h.inv.here m p i hat hi).1, hd⟩
      obtain ⟨htree, hnoted⟩ := h.tree.hung_three h.noted hung hfree
      have hself : u.2.daddr u.1 = PTLX va 3 := by rw [hung.daddr, update_self]
      refine ⟨hinv', ?_, htree, hnoted, ?_, hself, fun k hk => ?_⟩
      · obtain ⟨_, _, _, _, _, _, _, hframe⟩ := hung.frame
        rw [hframe]
      · rw [hung.list]
        exact mem_cons_self
      · rw [hung.list] at hk
        rcases mem_cons.mp hk with rfl | hk
        · rw [hself, hung.entry]
        · rw [(hung.keeps (by decide) hk).2.1, hung.mem _ _ (fun heq => hfree k hk heq.2) (by nofun)]
          exact h.full hat k hk
  -- the step ends with the entry of the page
  have hdone : ∀ (u : Sys) (j : Nat) y, u.proc = s.proc → Inv (u.setpte (.tab j) y (.leaf pa attr)) →
      (∀ k ∈ u.mmuptp p 3, u.mem (.pml4 m) (u.daddr k) = .table (.tab k)) →
      Tree (u.setpte (.tab j) y (.leaf pa attr)) p ∧
        Noted (u.setpte (.tab j) y (.leaf pa attr)) p (⟨va, pa, pgsz, attr⟩ :: puts) →
      Good m p ⟨u.setpte (.tab j) y (.leaf pa attr), ⟨va, pa, pgsz, attr⟩ :: puts⟩ := by
    intro u j y hproc hinv hfull hboth
    have hsame : ∀ i, (u.setpte (.tab j) y (.leaf pa attr)).at i = s.at i := fun i => congrArg (fun l => l.getD i none) hproc
    refine ⟨hinv, ?_, fun i hi => ?_, fun _ k hk => ?_, hboth.1, hboth.2⟩
    · dsimp only
      rw [hsame]
      exact Or.inr hat
    · dsimp only
      rw [hsame]
      exact h.away i hi
    · exact (setpte_ne (by nofun)).trans (hfull k hk)
  rcases hpgsz with rfl | rfl
  · obtain ⟨u, g, v, g', hu, hg, hv, hg', rfl⟩ := mmuput_MiB hput
    obtain ⟨hinvu, hprocu, htree, hnoted, hk, hd, hfull⟩ := hthree u hu
    rw [← hd, hfull _ hk] at hg
    cases hg
    have hleaf : ∀ pa attr, u.2.mem (.tab u.1) (PTLX va 2) ≠ .leaf pa attr := by
      intro pa attr hleaf
      obtain ⟨w, hw, hsz, h3, h2⟩ := hnoted.big u.1 hk _ pa attr hleaf
      exact hsound rfl w hw hsz ((GiB_iff (hnoted.known w hw) hva).mpr ⟨h3.trans hd, h2⟩)
    rcases descend_spec (p := p) hinvu.apart m (by decide : 2 ≠ 0) (.tab u.1) (.tab u.1) (PTLX va 2) with
      ⟨j, hj, hprev, hdj, hrun⟩ | ⟨hno, hung⟩
    · have hne := htree.hung j hj
      rw [hprev, hdj] at hne
      obtain ⟨i, hi, hentry⟩ : ∃ i ∈ u.2.mmuptp p 2, u.2.mem (.tab u.1) (PTLX va 2) = .table (.tab i) := by
        cases hat2 : u.2.mem (.tab u.1) (PTLX va 2) with
        | zero => exact absurd hat2 hne
        | leaf pa attr => exact absurd hat2 (hleaf pa attr)
        | table f =>
          obtain ⟨i, hi, rfl, -, -⟩ := htree.below u.1 hk _ f hat2
          exact ⟨i, hi, rfl⟩
      rw [hrun, if_neg hne] at hv
      subst hv
      dsimp only at hg' hinv ⊢
      rw [hentry] at hg'
      cases hg'
      exact hdone _ _ _ hprocu hinv hfull (htree.small hnoted hinvu.apart hk hi hva hd hentry (hinvu.inj p))
    · rw [← hv] at hung
      have hzero : u.2.mem (.tab u.1) (PTLX va 2) = .zero := by
        cases hat2 : u.2.mem (.tab u.1) (PTLX va 2) with
        | zero => rfl
        | leaf pa attr => exact absurd hat2 (hleaf pa attr)
        | table f =>
          obtain ⟨i, hi, -, hprev, hdi⟩ := htree.below u.1 hk _ f hat2
          exact absurd ⟨hprev, hdi⟩ (hno i hi)
      obtain ⟨htree', hnoted'⟩ := htree.hung_two hnoted hinvu.apart hk hung hzero
      rw [hung.entry] at hg'
      cases hg'
      have h3 : v.2.mmuptp p 3 = u.2.mmuptp p 3 := hung.list_eq (by decide) (by decide)
      have hprocv : v.2.proc = u.2.proc := by
        obtain ⟨_, _, _, _, _, _, _, hframe⟩ := hung.frame
        rw [hframe]
      have hkv : u.1 ∈ v.2.mmuptp p 3 := h3 ▸ hk
      have hjv : v.1 ∈ v.2.mmuptp p 2 := by
        rw [hung.list]
        exact mem_cons_self
      have hdv : v.2.daddr u.1 = PTLX va 3 := by rw [(hung.keeps (by decide) hk).2.1, hd]
      have hinj : ∀ a ∈ v.2.mmuptp p 3, ∀ b ∈ v.2.mmuptp p 3, v.2.daddr a = v.2.daddr b → a = b := by
        rw [h3]
        intro a ha b hb hab
        rw [(hung.keeps (by decide) ha).2.1, (hung.keeps (by decide) hb).2.1] at hab
        exact hinvu.inj p a ha b hb hab
      refine hdone _ _ _ (hprocv.trans hprocu) hinv (fun k hk => ?_)
        (htree'.small hnoted' hung.apart hkv hjv hva hdv hung.entry hinj)
      rw [h3] at hk
      rw [(hung.keeps (by decide) hk).2.1, hung.mem _ _ (by nofun) (by nofun)]
      exact hfull k hk
  · obtain ⟨g, hg, rfl⟩ := mmuput_GiB hput
    obtain ⟨hinvu, hprocu, htree, hnoted, hk, hd, hfull⟩ := hthree _ rfl
    have hentry := hfull _ hk
    rw [hd] at hentry
    rw [hentry] at hg
    cases hg
    exact hdone _ _ _ hprocu hinv hfull (htree.big hnoted hinvu.apart hk hva hd (hinvu.inj p))

theorem Good.procsave (h : Good m p r) (hm : m < r.s.proc.length) :
    Good m p ⟨run (mmuflushtlb r.s m) m none, r.puts⟩ := by
  have hproc : ∀ j, (run (mmuflushtlb r.s m) m none).at j = if j = m then none else r.s.at j := by
    intro j
    rw [mmuflushtlb]
    split
    next => exact run_at (s := r.s.unmap m) hm none j
    next => exact run_at hm none j
  have hmem : ∀ k x, (run (mmuflushtlb r.s m) m none).mem (.tab k) x = r.s.mem (.tab k) x := by
    intro k x
    rw [mmuflushtlb]
    split
    next =>
      have hne : Frame.tab k ≠ .pml4 m := (by simp)
      have hkeep : (r.s.unmap m).mem (.tab k) = r.s.mem (.tab k) := by
        rw [Sys.unmap]
        dsimp only
        rw [update_of_ne hne]
      exact congrFun hkeep x
    next => rfl
  have hrest : (run (mmuflushtlb r.s m) m none).mmuptp = r.s.mmuptp ∧
      (run (mmuflushtlb r.s m) m none).daddr = r.s.daddr ∧ (run (mmuflushtlb r.s m) m none).prev = r.s.prev := by
    rw [mmuflushtlb]
    split
    next => exact ⟨rfl, rfl, rfl⟩
    next => exact ⟨rfl, rfl, rfl⟩
  have hsame : Same r.s (run (mmuflushtlb r.s m) m none) p :=
    ⟨congrFun hrest.1 p, hrest.2.1, fun j _ => congrFun hrest.2.2 j, hmem⟩
  refine ⟨h.inv.procsave hm, Or.inl (by rw [hproc, if_pos rfl]), fun j hj => ?_, fun hat => ?_, h.tree.same hsame,
    h.noted.same h.tree hsame⟩
  · rw [hproc, if_neg hj]
    exact h.away j hj
  · rw [hproc, if_pos rfl] at hat
    cases hat

/-- **Every sound step keeps it.** -/
theorem Good.step {r r' : Run} {op : Op} (h : Good m p r) (hstay : Stay m p r op r') (hsound : Sound r op) :
    Good m p r' := by
  obtain ⟨t, puts⟩ := r'
  obtain ⟨⟨hact, hmapped, hsaved⟩, hop, hputs⟩ := hstay
  dsimp only at hact hputs
  subst hputs
  cases op with
  | mmuswitch j q =>
    obtain ⟨rfl, rfl⟩ := hop
    obtain ⟨⟨hm, helse⟩, hrun⟩ := ite_none_right_eq_some.mp hact
    cases hrun
    obtain ⟨hinv, hsw⟩ := h.inv.mmuswitch hm helse hsaved
    refine h.switched (s := run r.s j (some q)) hsw ⟨rfl, rfl, fun _ _ => rfl, fun _ _ => rfl⟩ hsound hinv ?_
    obtain ⟨_, _, _, hframe⟩ := hsw.frame
    rw [hframe]
    exact (run_at hm _ j).trans (if_pos rfl)
  | mmuput j va pa pgsz attr =>
    obtain rfl : j = m := hop
    obtain ⟨q, hat, hput⟩ := bind_eq_some_iff.mp hact
    obtain rfl := h.runs hat
    exact h.mmuput hat hmapped.1 hmapped.2 hsound hput
  | mmuflush j =>
    obtain rfl : j = m := hop
    obtain ⟨q, hat, hrun⟩ := map_eq_some_iff.mp hact
    obtain rfl := h.runs hat
    subst hrun
    obtain ⟨hinv, hsw⟩ := h.inv.mmuflush hat
    have hnew : update r.s.newtlb q true q = true := update_self _ _ _
    have hgood := h.switched hsw ⟨rfl, rfl, fun _ _ => rfl, fun _ _ => rfl⟩ (fun _ => hsound rfl) hinv (by
      obtain ⟨_, _, _, hframe⟩ := hsw.frame
      rw [hframe]
      exact hat)
    rw [if_pos hnew] at hgood
    exact hgood
  | mmurelease j q => exact hop.elim
  | procsave j =>
    obtain rfl : j = m := hop
    obtain ⟨hm, hrun⟩ := ite_none_right_eq_some.mp hact
    cases hrun
    exact h.procsave hm
  | newtlb q =>
    obtain rfl : q = p := hop
    cases hact
    have hsame : Same r.s { r.s with newtlb := update r.s.newtlb q true } q :=
      ⟨rfl, rfl, fun _ _ => rfl, fun _ _ => rfl⟩
    exact ⟨@Inv.step _ _ (.newtlb q) h.inv ⟨rfl, trivial, trivial⟩, h.stay, h.away, h.full, h.tree.same hsame,
      h.noted.same h.tree hsame⟩

/-- **No stale translations**, in the runs whose steps are sound. -/
theorem no_stale {r : Run} (hr : Reach (Fresh m p) (fun r op r' => Stay m p r op r' ∧ Sound r op) r) : NoStale m p r := by
  have hgood : Good m p r :=
    hr.invariant (Good m p) (fun _ => Fresh.good) fun _ _ _ h hstep => h.step hstep.1 hstep.2
  exact hgood.noStale

def Run.after (r : Run) (op : Op) : Run := ⟨r.s.after op, noted r op⟩

theorem Run.after_stay {op : Op} (h : (act r.s op).isSome = true) (hm : Mapped op)
    (hs : Saved r.s op) (hop : Stays m p op) : Stay m p r op (r.after op) :=
  ⟨⟨(after_step h hm.clear hs).1, hm, hs⟩, hop, rfl⟩

/-- The process 0 on the processor 0, which nobody has used. -/
def began : Run := ⟨(start 1).after (.mmuswitch 0 0), []⟩

theorem began_fresh : Fresh 0 0 began := by
  have hreach := @Reach.next _ _ _ Step _ _ _ (Reach.start (start_start 1))
    ⟨(@after_step _ (.mmuswitch 0 0) (by decide +kernel) trivial (Or.inl rfl)).1, trivial, Or.inl rfl⟩
  refine ⟨hreach, fun l => ?_, Or.inr (by decide +kernel), fun j hj => ?_, rfl⟩
  · rfl
  · cases j with
    | zero => exact absurd rfl hj
    | succ j => exact (by nofun : (none : Option Nat) ≠ some 0)

/-- A page of 2 MiB is put, hidden by one of 1 GiB, and flushed; the next page is alone. -/
def renewed : Run :=
  (((began.after (.mmuput 0 0 (2 * MiB) (2 * MiB) 1)).after (.mmuput 0 0 GiB GiB 1)).after (.mmuflush 0)).after
    (.mmuput 0 GiB (2 * GiB) GiB 1)

theorem no_stale_renewed : NoStale 0 0 renewed ∧ translate renewed.s 0 (GiB + 5) = some (2 * GiB + 5, 1) := by
  have hsmall : Mapped (.mmuput 0 0 (2 * MiB) (2 * MiB) 1) := ⟨by decide, Or.inl rfl⟩
  have hbig : ∀ va pa, va < 2 ^ 47 → Mapped (.mmuput 0 va pa GiB 1) := fun _ _ hva => ⟨hva, Or.inr rfl⟩
  have hsound : ∀ r va pa, Sound r (.mmuput 0 va pa GiB 1) := fun _ _ _ heq => absurd heq (by decide)
  have h₁ := (@Reach.start _ _ _ (fun r op r' => Stay 0 0 r op r' ∧ Sound r op) _ began_fresh).next
    ⟨Run.after_stay (by decide +kernel) hsmall trivial rfl, fun _ _ hu => by cases hu⟩
  have h₂ := h₁.next ⟨Run.after_stay (by decide +kernel) (hbig 0 GiB (by decide)) trivial rfl, hsound _ 0 GiB⟩
  have hflush : Sound ((began.after (.mmuput 0 0 (2 * MiB) (2 * MiB) 1)).after (.mmuput 0 0 GiB GiB 1)) (.mmuflush 0) := by
    intro _ u hu _
    refine ⟨⟨0, 2 * MiB, 2 * MiB, 1⟩, mem_cons_of_mem _ mem_cons_self, rfl, ?_⟩
    rcases List.mem_cons.mp hu with rfl | hu
    · rfl
    · rcases List.mem_cons.mp hu with rfl | hu
      · rfl
      · cases hu
  have h₃ := h₂.next ⟨@Run.after_stay _ _ _ (.mmuflush 0) (by decide +kernel) trivial trivial rfl, hflush⟩
  have h₄ := h₃.next ⟨Run.after_stay (by decide +kernel) (hbig GiB (2 * GiB) (by decide)) trivial rfl, hsound _ GiB (2 * GiB)⟩
  exact ⟨no_stale h₄, by decide +kernel⟩

/-- A page of 1 GiB is flushed, and its table hung again for another page. -/
def again : Run := ((began.after (.mmuput 0 GiB GiB GiB 1)).after (.mmuflush 0)).after (.mmuput 0 0 GiB GiB 1)

/-- **The first page is still there**, at the address that it had. -/
theorem stale_GiB : ¬∀ m p r, Reach (Fresh m p) (Stay m p) r → NoStale m p r := by
  intro hall
  have h₁ := (@Reach.start _ _ _ (Stay 0 0) _ began_fresh).next
    (@Run.after_stay _ _ _ (.mmuput 0 GiB GiB GiB 1) (by decide +kernel) ⟨by decide, Or.inr rfl⟩ trivial rfl)
  have h₂ := h₁.next (@Run.after_stay _ _ _ (.mmuflush 0) (by decide +kernel) trivial trivial rfl)
  have h₃ := h₂.next
    (@Run.after_stay _ _ _ (.mmuput 0 0 GiB GiB 1) (by decide +kernel) ⟨by decide, Or.inr rfl⟩ trivial rfl)
  have htranslate := (hall 0 0 again h₃).1 (by decide +kernel) GiB (by decide)
  have hstale : translate again.s 0 GiB = some (GiB, 1) := by decide +kernel
  rw [hstale] at htranslate
  exact absurd htranslate (by decide +kernel)

end Mmu
