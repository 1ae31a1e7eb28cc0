import NixKernel.MmuRun

/-!
# The tables of a process

A process that stays on a processor has tables at two levels below the pml4: those of the level 3, with
pages of 1 GiB and tables for entries, and those of the level 2, with pages of 2 MiB.  The tables that
it has free hold nothing, and its addresses are translated by the last page put there.
-/

namespace Mmu

open Function StepSystem

variable {s t : Sys} {m p q x k j va vb pa pgsz attr : Nat} {f : Frame} {e : Pte}

/-- A call of `mmuput`. -/
structure Put where
  va : Nat
  pa : Nat
  pgsz : Nat
  attr : Nat
deriving Repr, DecidableEq

/-- What a page makes of an address in it. -/
def Put.gives (u : Put) (va : Nat) : Option (Nat × Nat) :=
  if u.attr &&& PTEVALID ≠ 0 then some (u.pa + va % u.pgsz, u.attr) else none

def Put.covers (u : Put) (va : Nat) : Bool := va / u.pgsz == u.va / u.pgsz

/-- The translation by the last of the calls that covers the address, the last one first. -/
def expected (puts : List Put) (va : Nat) : Option (Nat × Nat) := (puts.find? (·.covers va)).bind (·.gives va)

theorem translate_table (h : s.mem (.pml4 m) (PTLX va 3) = .table f) : translate s m va = look s f va := by
  rw [translate, h]

theorem translate_zero (h : s.mem (.pml4 m) (PTLX va 3) = .zero) : translate s m va = none := by
  rw [translate, h]

theorem look_zero (h : s.mem f (PTLX va 2) = .zero) : look s f va = none := by
  rw [look, h]

theorem look_empty {g : Frame} (h : s.mem f (PTLX va 2) = .table g) (hz : s.mem g (PTLX va 1) = .zero) :
    look s f va = none := by
  simp only [look, h, hz]

theorem expected_cons (u : Put) (puts : List Put) (va : Nat) :
    expected (u :: puts) va = if va / u.pgsz = u.va / u.pgsz then u.gives va else expected puts va := by
  rw [expected, List.find?_cons, Put.covers]
  split
  next hc => rw [if_pos (beq_iff_eq.mp hc), Option.bind_some]
  next hc =>
    rw [if_neg (beq_eq_false_iff_ne.mp hc)]
    rfl

theorem GiB_iff (ha : va < 2 ^ 47) (hb : vb < 2 ^ 47) :
    va / GiB = vb / GiB ↔ PTLX va 3 = PTLX vb 3 ∧ PTLX va 2 = PTLX vb 2 := by
  simp only [GiB, PTLX, PTSHIFT, PGSHIFT]
  omega

theorem MiB_iff (ha : va < 2 ^ 47) (hb : vb < 2 ^ 47) : va / (2 * MiB) = vb / (2 * MiB) ↔
    PTLX va 3 = PTLX vb 3 ∧ PTLX va 2 = PTLX vb 2 ∧ PTLX va 1 = PTLX vb 1 := by
  simp only [MiB, PTLX, PTSHIFT, PGSHIFT]
  omega

/-- The tables of a process: those of the level 2 hang in those of the level 3. -/
structure Tree (s : Sys) (p : Nat) : Prop where
  one : s.mmuptp p 1 = []
  above : ∀ j ∈ s.mmuptp p 2, ∃ k ∈ s.mmuptp p 3, s.prev j = .tab k
  inj : ∀ i ∈ s.mmuptp p 2, ∀ j ∈ s.mmuptp p 2, s.prev i = s.prev j → s.daddr i = s.daddr j → i = j
  hung : ∀ j ∈ s.mmuptp p 2, s.mem (s.prev j) (s.daddr j) ≠ .zero
  below : ∀ k ∈ s.mmuptp p 3, ∀ x f, s.mem (.tab k) x = .table f →
    ∃ j ∈ s.mmuptp p 2, f = .tab j ∧ s.prev j = .tab k ∧ s.daddr j = x
  flat : ∀ j ∈ s.mmuptp p 2, ∀ x f, s.mem (.tab j) x ≠ .table f
  zero : ∀ k ∈ s.mmuptp p 0, ∀ x, s.mem (.tab k) x = .zero

/-- The tables have the pages that were put. -/
structure Noted (s : Sys) (p : Nat) (puts : List Put) : Prop where
  known : ∀ u ∈ puts, u.va < 2 ^ 47
  big : ∀ k ∈ s.mmuptp p 3, ∀ x pa attr, s.mem (.tab k) x = .leaf pa attr →
    ∃ u ∈ puts, u.pgsz = GiB ∧ PTLX u.va 3 = s.daddr k ∧ PTLX u.va 2 = x
  small : ∀ u ∈ puts, u.pgsz = 2 * MiB →
    ∃ k ∈ s.mmuptp p 3, ∃ j ∈ s.mmuptp p 2, s.prev j = .tab k ∧ s.daddr k = PTLX u.va 3 ∧ s.daddr j = PTLX u.va 2
  view : ∀ va, va < 2 ^ 47 → ∀ k ∈ s.mmuptp p 3, s.daddr k = PTLX va 3 → look s (.tab k) va = expected puts va
  none : ∀ va, va < 2 ^ 47 → (∀ k ∈ s.mmuptp p 3, s.daddr k ≠ PTLX va 3) → expected puts va = none

/-- What is below a table of the level 3 stays, where the tables stay. -/
theorem Tree.look_eq (h : Tree s p) (hk : k ∈ s.mmuptp p 3) (hmem : t.mem (.tab k) (PTLX va 2) = s.mem (.tab k) (PTLX va 2))
    (hbelow : ∀ j ∈ s.mmuptp p 2, s.mem (.tab k) (PTLX va 2) = .table (.tab j) →
      t.mem (.tab j) (PTLX va 1) = s.mem (.tab j) (PTLX va 1)) : look t (.tab k) va = look s (.tab k) va := by
  rw [look, look, hmem]
  cases hentry : s.mem (.tab k) (PTLX va 2) with
  | zero => rfl
  | leaf pa attr => rfl
  | table f =>
    obtain ⟨j, hj, rfl, -, -⟩ := h.below k hk _ f hentry
    dsimp only
    rw [hbelow j hj hentry]
    cases hlow : s.mem (.tab j) (PTLX va 1) with
    | zero => rfl
    | leaf pa attr => rfl
    | table f => exact absurd hlow (h.flat j hj _ f)

/-- The tables of `p` are as they were. -/
structure Same (s t : Sys) (p : Nat) : Prop where
  lists : t.mmuptp p = s.mmuptp p
  daddr : t.daddr = s.daddr
  prev : ∀ j ∈ s.mmuptp p 2, t.prev j = s.prev j
  mem : ∀ k x, t.mem (.tab k) x = s.mem (.tab k) x

theorem Tree.same (h : Tree s p) (hs : Same s t p) : Tree t p := by
  refine ⟨by rw [hs.lists, h.one], fun j hj => ?_, fun i hi j hj hp hd => ?_, fun j hj => ?_, fun k hk x f hf => ?_,
    fun j hj x f => ?_, fun k hk x => ?_⟩
  · rw [hs.lists] at hj ⊢
    rw [hs.prev j hj]
    exact h.above j hj
  · rw [hs.lists] at hi hj
    rw [hs.prev i hi, hs.prev j hj] at hp
    rw [hs.daddr] at hd
    exact h.inj i hi j hj hp hd
  · rw [hs.lists] at hj
    obtain ⟨k, hk, hprev⟩ := h.above j hj
    have hne := h.hung j hj
    rw [hprev] at hne
    rw [hs.prev j hj, hprev, hs.daddr, hs.mem]
    exact hne
  · rw [hs.lists] at hk ⊢
    rw [hs.mem] at hf
    obtain ⟨j, hj, hfj, hprev, hdaddr⟩ := h.below k hk x f hf
    exact ⟨j, hj, hfj, by rw [hs.prev j hj, hprev], by rw [hs.daddr, hdaddr]⟩
  · rw [hs.lists] at hj
    rw [hs.mem]
    exact h.flat j hj x f
  · rw [hs.lists] at hk
    rw [hs.mem]
    exact h.zero k hk x

theorem Noted.same {puts : List Put} (h : Noted s p puts) (ht : Tree s p) (hs : Same s t p) : Noted t p puts := by
  refine ⟨h.known, fun k hk x pa attr hleaf => ?_, fun u hu hsz => ?_, fun va hva k hk hd => ?_, fun va hva hno => ?_⟩
  · rw [hs.lists] at hk
    rw [hs.mem] at hleaf
    rw [hs.daddr]
    exact h.big k hk x pa attr hleaf
  · obtain ⟨k, hk, j, hj, hprev, hdk, hdj⟩ := h.small u hu hsz
    rw [hs.lists, hs.daddr]
    exact ⟨k, hk, j, hj, by rw [hs.prev j hj, hprev], hdk, hdj⟩
  · rw [hs.lists] at hk
    rw [hs.daddr] at hd
    rw [ht.look_eq hk (hs.mem _ _) fun _ _ _ => hs.mem _ _]
    exact h.view va hva k hk hd
  · rw [hs.lists, hs.daddr] at hno
    exact h.none va hva hno

/-- **All is taken back.** -/
theorem Tree.flushed (h : Tree s p) (hnew : s.newtlb p = true) (hsw : Switched s m p t)
    (hbare : ∀ k ∈ s.mmuptp p 3, ∀ x pa attr, s.mem (.tab k) x = .leaf pa attr →
      ∃ j ∈ s.mmuptp p 2, s.prev j = .tab k ∧ s.daddr j = x) : Tree t p ∧ Noted t p [] := by
  obtain ⟨mem, high, prev, ht⟩ := hsw.frame
  have hlist : t.mmuptp p = freed (s.mmuptp p) := by
    rw [ht]
    change update s.mmuptp p (kept s p) p = _
    rw [update_self, kept, hnew, if_pos rfl]
  have hnil : ∀ l, 1 ≤ l → l ≤ 3 → t.mmuptp p l = [] := by
    intro l hl hl3
    rw [hlist, freed, if_neg (Nat.ne_of_gt hl), if_pos hl3]
  have h2 := hnil 2 (by decide) (by decide)
  have h3 := hnil 3 (by decide) (by decide)
  have hzero : ∀ k ∈ t.mmuptp p 0, ∀ x, t.mem (.tab k) x = .zero := by
    intro k hk x
    rw [hlist, freed, if_pos rfl, h.one, List.nil_append, List.mem_append, List.mem_append] at hk
    have hkeep : s.mem (.tab k) x = .zero → t.mem (.tab k) x = .zero := fun hz =>
      (hsw.other (.tab k) x (by simp)).elim id fun heq => heq.trans hz
    have hback : (∃ j ∈ s.mmuptp p 2, s.prev j = .tab k ∧ s.daddr j = x) → t.mem (.tab k) x = .zero := by
      rintro ⟨j, hj, hprev, hdaddr⟩
      have hz := hsw.freed hnew 2 j (by decide) (by decide) hj (by rw [hprev]; simp)
      rwa [hprev, hdaddr] at hz
    rcases hk with hk | hk | hk
    · -- a table of the level 3 is not cleared, but all that hangs in it is taken out
      cases hentry : s.mem (.tab k) x with
      | zero => exact hkeep hentry
      | leaf pa attr => exact hback (hbare k hk x pa attr hentry)
      | table f =>
        obtain ⟨j, hj, -, hprev, hdaddr⟩ := h.below k hk x f hentry
        exact hback ⟨j, hj, hprev, hdaddr⟩
    · exact hsw.cleared hnew 2 k (by decide) (by decide) hk x
    · exact hkeep (h.zero k hk x)
  refine ⟨⟨hnil 1 (by decide) (by decide), ?_, ?_, ?_, ?_, ?_, hzero⟩, (by simp), ?_, (by simp), ?_, fun _ _ _ => rfl⟩
  · rw [h2]
    simp
  · rw [h2]
    simp
  · rw [h2]
    simp
  · rw [h3]
    simp
  · rw [h2]
    simp
  · rw [h3]
    simp
  · intro va _ k hk
    rw [h3] at hk
    cases hk

end Mmu
