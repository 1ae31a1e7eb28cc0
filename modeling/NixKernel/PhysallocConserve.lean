import NixKernel.PhysallocOwned
import NixKernel.StepSystem

/-!
# Conservation of memory

One `Bal` whose table starts at address 0, with the ranges and the live
allocations it has seen.  As long as no merge takes its buddy off the front of a
longer list, and no range starts at address 0, the blocks on the avail lists and
the live allocations partition the memory that was given.
-/

namespace Physalloc

open IndexList Tiling StepSystem

/-- A `Bal` with its history. -/
structure Ledger where
  bal : Bal := {}
  ranges : List (Nat × Nat) := []
  live : List Live := []

inductive LedgerAct where
  | physinit (addr len : Nat)
  | physalloc (size : Nat)
  | physfree (l : Live)

/-- One call.  `physfree` is called with a live allocation. -/
def Ledger.act (s : Ledger) : LedgerAct → Option Ledger
  | .physinit addr len => do
      let b ← s.bal.physinit 0 addr len
      return { s with bal := b, ranges := (addr, len) :: s.ranges }
  | .physalloc size =>
    if s.bal.kmin = 0 then some s
    else do
      let (b, m) ← s.bal.xphysalloc size
      return { s with bal := b, live := if m ≠ 0 then ⟨m, size⟩ :: s.live else s.live }
  | .physfree l =>
    if l ∈ s.live then do
      let b ← s.bal.xphysfree l.addr
      return { s with bal := b, live := s.live.erase l }
    else none

/-- What the callers of `physinit` promise. -/
def Ledger.Promised (s : Ledger) : LedgerAct → Prop
  | .physinit addr len => Fresh s.ranges addr len
  | _ => True

def Ledger.Step (s : Ledger) (a : LedgerAct) (t : Ledger) : Prop := s.act a = some t ∧ s.Promised a

/-- Nothing is lost: every buddy that is merged has a predecessor or is alone on its
list, and no block is at address 0. -/
def Ledger.Keeps (s : Ledger) : LedgerAct → Prop
  | .physinit addr len =>
    (firstUnit addr = 0 → lastUnit (addr + len) = 0) ∧ initOk Separable 0 s.bal addr len
  | .physalloc _ => True
  | .physfree l => mergesOk Separable (bkmax + 1) s.bal (index l.addr)

/-- Unit `x` belongs to a block on an avail list. -/
def Ledger.Free (s : Ledger) (x : Nat) : Prop :=
  ∃ k i, bkmin ≤ k ∧ k ≤ bkmax ∧ s.bal.OnList k i ∧ i ≤ x ∧ x < i + units k

/-- Unit `x` belongs to a live allocation. -/
def Ledger.InUse (s : Ledger) (x : Nat) : Prop :=
  ∃ l ∈ s.live, l.addr ≤ bminsz * x ∧ bminsz * x < l.addr + l.bytes

/-- The blocks on the lists and the live allocations partition the memory given. -/
structure Ledger.Partitioned (s : Ledger) : Prop where
  covered : ∀ x, givenBy s.ranges x ↔ s.Free x ∨ s.InUse x
  lists : ∀ {k i k' i'}, s.bal.OnList k i → s.bal.OnList k' i' →
    (k = k' ∧ i = i') ∨ Apart (bminsz * i) (2 ^ k) (bminsz * i') (2 ^ k')
  mixed : ∀ {l k i}, l ∈ s.live → s.bal.OnList k i →
    Apart l.addr l.bytes (bminsz * i) (2 ^ k)
  live : s.live.Pairwise fun l l' => Apart l.addr l.bytes l'.addr l'.bytes

theorem separable_mergeOk (b : Bal) (p : Nat) (h : Separable b p) : MergeOk (0 = 0) True b p :=
  ⟨Or.inl rfl, fun _ => h⟩

/-- One call keeps the history, memory included. -/
theorem Owned.ledger_step {s t : Ledger} {a : LedgerAct}
    (h : Owned 0 True s.bal s.ranges s.live) (hstep : s.Step a t) (hkeeps : s.Keeps a) :
    Owned 0 True t.bal t.ranges t.live := by
  obtain ⟨hact, hprom⟩ := hstep
  cases a with
  | physinit addr len =>
    obtain ⟨b, hrun, heq⟩ := Option.bind_eq_some_iff.mp hact
    cases heq
    have hfits : Fits 0 s.ranges addr len := Fresh.fits hprom (Or.inl (Nat.zero_le _))
    exact h.physinit hrun hfits (fun _ => hkeeps.1)
      (fun b₁ hgrow => (hkeeps.2 b₁ hgrow).mono separable_mergeOk)
  | physalloc size =>
    unfold Ledger.act at hact
    simp only at hact
    split at hact
    · cases hact
      exact h
    · obtain ⟨⟨b, m⟩, hrun, heq⟩ := Option.bind_eq_some_iff.mp hact
      cases heq
      rcases h.xphysalloc (Nat.dvd_zero _) hrun with ⟨hm, hb⟩ | ⟨hm, hown⟩
      · simp only [hm, hb]
        exact h
      · simp only [if_pos hm]
        exact hown
  | physfree l =>
    unfold Ledger.act at hact
    simp only at hact
    split at hact
    · next hl =>
        obtain ⟨b, hrun, heq⟩ := Option.bind_eq_some_iff.mp hact
        cases heq
        exact h.xphysfree hl hrun (hkeeps.mono separable_mergeOk)
    · cases hact

/-- A covered unit is free or in use: every available block is on its list. -/
theorem Owned.free_or_inUse {pmstart : Nat} {s : Ledger} {x : Nat}
    (h : Owned pmstart True s.bal s.ranges s.live)
    (hc : Covers (s.bal.tiles (heldBy s.live)) x) : s.Free x ∨ s.InUse x := by
  obtain ⟨L, hinv⟩ := h.inv
  obtain ⟨i, u, htile, hlo, hhi⟩ := hc
  obtain ⟨hlow, hblk, hu⟩ := tiles_eq_some.mp htile
  have hk := hinv.good.kvals hlow hblk
  rcases hblk with hav | hheld
  · left
    refine ⟨(s.bal.at i).kval, i, hk.2.1, hk.2.2,
      ⟨_, hinv.good.lists.linked _, hinv.attached trivial i hlow hav⟩, hlo, ?_⟩
    rw [hu]
    exact hhi
  · right
    obtain ⟨l, hl, haddr⟩ := heldBy_iff.mp hheld
    obtain ⟨j, haddr', _, _, _, _, hbytes, _⟩ := h.held hl
    have hji : j = i := Nat.eq_of_mul_eq_mul_left bminsz_pos (haddr'.symm.trans haddr)
    rw [hji, hu] at hbytes
    refine ⟨l, hl, ?_, ?_⟩
    · rw [haddr]
      exact Nat.mul_le_mul_left _ hlo
    · rw [haddr, hbytes, ← Nat.mul_add]
      exact Nat.mul_lt_mul_of_pos_left hhi bminsz_pos

theorem Owned.partitioned {pmstart : Nat} {s : Ledger} (h : Owned pmstart True s.bal s.ranges s.live) :
    s.Partitioned := by
  refine ⟨?_, ?_, fun hl hon => h.live_onList_apart hl hon, ?_⟩
  · intro x
    constructor
    · intro hx
      exact h.free_or_inUse (h.full trivial x hx)
    · intro hx
      rcases hx with ⟨k, i, _, _, hon, hlo, hhi⟩ | ⟨l, hl, hlo, hhi⟩
      · exact h.onList_given hon hlo hhi
      · obtain ⟨i, u, haddr, hbytes, _, _, hgiven⟩ := h.live_given hl
        rw [haddr] at hlo
        rw [haddr, hbytes, ← Nat.mul_add] at hhi
        exact hgiven x (Nat.le_of_mul_le_mul_left hlo bminsz_pos) (Nat.lt_of_mul_lt_mul_left hhi)
  · intro k i k' i' hon hon'
    obtain ⟨_, _, hkv, hkmin, _, htile⟩ := h.onList hon
    obtain ⟨_, _, hkv', hkmin', _, htile'⟩ := h.onList hon'
    by_cases heq : i = i'
    · left
      refine ⟨?_, heq⟩
      rw [← hkv, ← hkv', heq]
    · right
      rw [← units_mul hkmin, ← units_mul hkmin']
      exact apart_units (h.packed.disjoint htile htile' heq)
  · apply h.distinct.imp_of_mem
    intro l l' hl hl' hne
    exact h.live_apart hl hl' hne

/-- **Conservation.**  In every run whose merges take no block off the front of a
longer list, the blocks on the avail lists and the live allocations partition the
memory given; once everything is freed all of it is on the lists. -/
theorem memory_conserved {s : Ledger}
    (hr : Reach (· = ({} : Ledger)) (fun s a t => s.Step a t ∧ s.Keeps a) s) :
    s.Partitioned ∧ (s.live = [] → ∀ x, givenBy s.ranges x ↔ s.Free x) := by
  have hown : Owned 0 True s.bal s.ranges s.live := by
    refine hr.invariant (fun s => Owned 0 True s.bal s.ranges s.live) ?_ ?_
    · intro s hs
      rw [hs]
      exact Owned.start 0 True
    · intro s a t h hstep
      exact h.ledger_step hstep.1 hstep.2
  have hpart := hown.partitioned
  refine ⟨hpart, ?_⟩
  intro hlive x
  rw [hpart.covered]
  constructor
  · intro hx
    rcases hx with hx | ⟨l, hl, _⟩
    · exact hx
    · rw [hlive] at hl
      cases hl
  · intro hx
    exact Or.inl hx

/-- Units 8 to 11 are the only range given in the runs below. -/
def giveUnits : LedgerAct := .physinit (16 * 2 ^ 20) (8 * 2 ^ 20)

def freshUnits : Ledger := (Ledger.act {} giveUnits).getD {}

theorem giveUnits_step : Ledger.Step {} giveUnits freshUnits := by
  refine ⟨?_, ?_⟩
  · have hsome : (Ledger.act {} giveUnits).isSome = true := by rfl
    exact (Option.getD_of_ne_none (Option.isSome_iff_ne_none.mp hsome) _).symm
  · intro r hr
    cases hr

theorem giveUnits_keeps : Ledger.Keeps {} giveUnits := by
  have hchunks : chunks (16 * 2 ^ 20) (16 * 2 ^ 20 + 8 * 2 ^ 20) = [(16 * 2 ^ 20, 23)] := by
    rfl
  refine ⟨?_, ?_⟩
  · decide
  · intro b₁ hgrow
    rw [hchunks]
    cases hgrow
    refine ⟨fun _ => ?_, fun _ _ => trivial⟩
    decide

/-- The calls that only allocate and free, the latter when nothing is lost. -/
def Ledger.keepAct (s : Ledger) : LedgerAct → Option Ledger
  | .physinit _ _ => none
  | .physalloc size => s.act (.physalloc size)
  | .physfree l =>
    if mergesOk Separable (bkmax + 1) s.bal (index l.addr) then s.act (.physfree l) else none

theorem keepAct_step {s t : Ledger} {a : LedgerAct} (h : s.keepAct a = some t) :
    s.Step a t ∧ s.Keeps a := by
  cases a with
  | physinit addr len => cases h
  | physalloc size => exact ⟨⟨h, trivial⟩, trivial⟩
  | physfree l =>
    unfold Ledger.keepAct at h
    simp only at h
    split at h
    · next hok => exact ⟨⟨h, trivial⟩, hok⟩
    · cases h

/-- One unit is allocated and freed again: two merges put the range back together. -/
theorem memory_conserved_freed :
    ∃ s : Ledger, s.ranges = [(16 * 2 ^ 20, 8 * 2 ^ 20)] ∧ s.live = [] ∧ s.Partitioned ∧
      ∀ x, givenBy s.ranges x ↔ s.Free x := by
  have hstart : Reach (· = ({} : Ledger)) (fun s a t => s.Step a t ∧ s.Keeps a) {} :=
    Reach.start rfl
  let freed := exec Ledger.keepAct freshUnits [.physalloc bminsz, .physfree ⟨8 * bminsz, bminsz⟩]
  have hrun : freed.isSome = true ∧ (freed.getD {}).ranges = [(16 * 2 ^ 20, 8 * 2 ^ 20)] ∧
      (freed.getD {}).live = [] := by
    decide +kernel
  have hr := (hstart.next ⟨giveUnits_step, giveUnits_keeps⟩).exec (exec_getD (d := {}) hrun.1)
    (fun s a t _ hact => keepAct_step hact)
  obtain ⟨hpart, hall⟩ := memory_conserved hr
  exact ⟨_, hrun.2.1, hrun.2.2, hpart, hall hrun.2.2⟩

/-- Three blocks of one unit are allocated, the second is freed, then the first. -/
def leakCalls : List LedgerAct :=
  [.physalloc bminsz, .physalloc bminsz, .physalloc bminsz,
    .physfree ⟨9 * bminsz, bminsz⟩, .physfree ⟨8 * bminsz, bminsz⟩]

def leaked : Ledger := (exec Ledger.act freshUnits leakCalls).getD {}

theorem leaked_reach : Reach (· = ({} : Ledger)) Ledger.Step leaked := by
  have hstart : Reach (· = ({} : Ledger)) Ledger.Step {} := Reach.start rfl
  refine (hstart.next giveUnits_step).exec (exec_getD (by decide +kernel)) ?_
  intro s a t ha hact
  refine ⟨hact, ?_⟩
  cases a with
  | physinit addr len => simp [leakCalls] at ha
  | physalloc size => trivial
  | physfree l => trivial

/-- What the run leaves: one block on a list, and the third block in use. -/
theorem leaked_computed :
    (∀ k, k < bkmax + 1 → leaked.bal.avail k = if k = 22 then 8 else 0) ∧
      (leaked.bal.at 8).next = 0 ∧ leaked.ranges = [(16 * 2 ^ 20, 8 * 2 ^ 20)] ∧
      leaked.live = [⟨10 * bminsz, bminsz⟩] := by
  decide +kernel

theorem leaked_onList {k i : Nat} (hk : k ≤ bkmax) (hon : leaked.bal.OnList k i) :
    k = 22 ∧ i = 8 := by
  obtain ⟨l, hlinked, hmem⟩ := hon
  rw [leaked_computed.1 k (Nat.lt_succ_of_le hk)] at hlinked
  by_cases h22 : k = 22
  · rw [if_pos h22] at hlinked
    obtain ⟨t, ht, htail⟩ := hlinked.of_ne_zero (by decide)
    rw [leaked_computed.2.1] at htail
    rw [ht, htail.eq_nil] at hmem
    exact ⟨h22, List.mem_singleton.mp hmem⟩
  · rw [if_neg h22] at hlinked
    rw [hlinked.eq_nil] at hmem
    cases hmem

/-- A run after which unit 11 was given, is not in use and is on no list: it was the
successor of unit 9, which was merged with unit 8. -/
theorem memory_leaked :
    ∃ s, Reach (· = ({} : Ledger)) Ledger.Step s ∧ givenBy s.ranges 11 ∧ ¬ s.Free 11 ∧
      ¬ s.InUse 11 ∧ ¬ s.Partitioned := by
  have hgiven : givenBy leaked.ranges 11 := by
    refine ⟨(16 * 2 ^ 20, 8 * 2 ^ 20), ?_, ?_⟩
    · rw [leaked_computed.2.2.1]
      exact List.mem_singleton_self _
    · decide
  have hfree : ¬ leaked.Free 11 := by
    intro hf
    obtain ⟨k, i, _, hk, hon, _, hlt⟩ := hf
    obtain ⟨hk22, hi8⟩ := leaked_onList hk hon
    rw [hk22, hi8] at hlt
    exact absurd hlt (by decide)
  have huse : ¬ leaked.InUse 11 := by
    intro hu
    obtain ⟨l, hl, _, hlt⟩ := hu
    rw [leaked_computed.2.2.2, List.mem_singleton] at hl
    rw [hl] at hlt
    exact absurd hlt (by decide)
  refine ⟨leaked, leaked_reach, hgiven, hfree, huse, ?_⟩
  intro hpart
  rcases (hpart.covered 11).mp hgiven with hf | hu
  · exact hfree hf
  · exact huse hu

end Physalloc
