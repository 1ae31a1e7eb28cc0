import NixKernel.PhysallocOwned
import NixKernel.StepSystem

/-!
# Safety of physical memory over all domains

`physinit`, `physalloc` and `physfree` over the sixteen domains, with the ranges
and the live allocations of each.  Live allocations are apart from one another
and from the blocks on the avail lists, and lie in memory that was given, as long
as every buddy that is merged has a `prev` that is nil or answered.  With
`pmstart` 0 that is always so.
-/

namespace Physalloc

open IndexList Tiling StepSystem Option
open Function (update update_self update_of_ne update_eq_self)

/-- The allocator with the history of each domain. -/
structure System where
  phys : Phys := {}
  ranges : Nat → List (Nat × Nat) := fun _ => []
  live : Nat → List Live := fun _ => []

inductive Call where
  | physinit (addr len : Nat) (dom : Int)
  | physalloc (size : Nat) (color : Int)
  | physfree (dom : Nat) (l : Live)

/-- One call.  An allocation is booked under the domain that `*colorp` names, and
`physfree` is called with a live allocation. -/
def System.act (pmstart : Nat) (s : System) : Call → Option System
  | .physinit addr len dom => do
      let p ← s.phys.physinit pmstart addr len dom
      let d := domOf dom
      return { s with phys := p, ranges := update s.ranges d ((addr, len) :: s.ranges d) }
  | .physalloc size color => do
      let (p, c, m) ← s.phys.physalloc size color
      let d := c.toNat
      return { s with
        phys := p
        live := if m ≠ 0 then update s.live d (⟨m, size⟩ :: s.live d) else s.live }
  | .physfree dom l =>
    if l ∈ s.live dom then do
      let p ← s.phys.physfree l.addr
      return { s with phys := p, live := update s.live dom ((s.live dom).erase l) }
    else none

/-- What the callers of `physinit` promise: no range twice, in whatever domain, and
none below `pmstart`. -/
def System.Promised (pmstart : Nat) (s : System) : Call → Prop
  | .physinit addr len _ => (∀ d, Fresh (s.ranges d) addr len) ∧ Above pmstart addr len
  | _ => True

def System.Step (pmstart : Nat) (s : System) (c : Call) (t : System) : Prop :=
  s.act pmstart c = some t ∧ s.Promised pmstart c

/-- The merges take off no block with a stale `prev`. -/
def System.Sound (pmstart : Nat) (s : System) : Call → Prop
  | .physinit addr len dom =>
    initOk (fun b p => pmstart = 0 ∨ Answered b p) pmstart (s.phys.bal (domOf dom)) addr len
  | .physalloc _ _ => True
  | .physfree dom l => mergesOk (fun b p => pmstart = 0 ∨ Answered b p) (bkmax + 1)
      (s.phys.bal dom) (index l.addr)

/-- Physical page safety. -/
structure System.Safe (s : System) : Prop where
  large : ∀ {d l}, l ∈ s.live d → l.size ≤ l.bytes
  apart : ∀ d, (s.live d).Pairwise fun l l' => Apart l.addr l.bytes l'.addr l'.bytes
  across : ∀ {d d' l l'}, d ≠ d' → l ∈ s.live d → l' ∈ s.live d' →
    Apart l.addr l.bytes l'.addr l'.bytes
  free : ∀ {d d' l k i}, l ∈ s.live d → (s.phys.bal d').OnList k i →
    Apart l.addr l.bytes (bminsz * i) (2 ^ k)
  inside : ∀ {d l}, l ∈ s.live d → ∀ x, l.addr ≤ x → x < l.addr + l.bytes →
    ∃ r ∈ s.ranges d, r.1 ≤ x ∧ x < r.1 + r.2
  within : ∀ {d l}, l ∈ s.live d → Spaced (s.ranges d) →
    ∃ r ∈ s.ranges d, r.1 ≤ l.addr ∧ l.addr + l.bytes ≤ r.1 + r.2

variable {pmstart : Nat} {p p' : Phys}

theorem setBal_self (p : Phys) (d : Nat) : p.setBal d (p.bal d) = p := by
  unfold Phys.setBal
  rw [update_eq_self]

theorem physinit_bal {addr len : Nat} {dom : Int}
    (hrun : p.physinit pmstart addr len dom = some p') :
    ∃ b, (p.bal (domOf dom)).physinit pmstart addr len = some b ∧
      p'.bal = update p.bal (domOf dom) b := by
  unfold Phys.physinit at hrun
  simp only [bind_eq_bind] at hrun
  obtain ⟨b₁, hgrow, hrest⟩ := bind_eq_some_iff.mp hrun
  by_cases hover : (p.bal (domOf dom)).kmin ≠ 0 ∧ p.domsOverlap (domOf dom) b₁ = true
  · rw [if_pos hover] at hrest
    cases hrest
  · rw [if_neg hover] at hrest
    obtain ⟨b, hchunk, heq⟩ := bind_eq_some_iff.mp hrest
    cases heq
    refine ⟨b, ?_, rfl⟩
    unfold Bal.physinit
    rw [hgrow, bind_eq_bind, bind_some]
    exact hchunk

/-- What an attempt to allocate does: nothing, or one domain gives a block. -/
def Allocated (p : Phys) (size : Nat) (p' : Phys) (c : Int) (m : Nat) : Prop :=
  (m = 0 ∧ p' = p) ∨
    ∃ d : Nat, ∃ b, c = d ∧ m ≠ 0 ∧ (p.bal d).xphysalloc size = some (b, m) ∧ p' = p.setBal d b

variable {ranges : Nat → List (Nat × Nat)} {live : Nat → List Live} {size m : Nat} {A : Prop}

theorem allocFrom_cases {d : Nat} (h : Owned pmstart A (p.bal d) (ranges d) (live d))
    (hal : bminsz ∣ pmstart) (hrun : p.allocFrom d size = some (p', m)) :
    Allocated p size p' d m := by
  unfold Phys.allocFrom at hrun
  split at hrun
  · cases hrun
    exact Or.inl ⟨rfl, rfl⟩
  · obtain ⟨⟨b, m'⟩, hx, heq⟩ := bind_eq_some_iff.mp hrun
    cases heq
    rcases h.xphysalloc hal hx with ⟨hm, hb⟩ | ⟨hm, _⟩
    · left
      rw [hb, setBal_self]
      exact ⟨hm, rfl⟩
    · exact Or.inr ⟨d, b, rfl, hm, hx, rfl⟩

theorem allocAny_cases {color c : Int} {n i : Nat}
    (h : ∀ d, Owned pmstart A (p.bal d) (ranges d) (live d)) (hal : bminsz ∣ pmstart)
    (hrun : p.allocAny size color n i = some (p', c, m)) : Allocated p size p' c m := by
  induction n generalizing i with
  | zero =>
    cases hrun
    exact Or.inl ⟨rfl, rfl⟩
  | succ n ih =>
    unfold Phys.allocAny at hrun
    obtain ⟨⟨p₁, m₁⟩, hfrom, hrest⟩ := bind_eq_some_iff.mp hrun
    have hcase := allocFrom_cases (h i) hal hfrom
    simp only at hrest
    split at hrest
    · cases hrest
      exact hcase
    · next hm =>
        rcases hcase with ⟨_, hp⟩ | ⟨_, _, _, hne, _⟩
        · subst hp
          exact ih hrest
        · exact absurd hne hm

theorem physalloc_cases {color c : Int} (h : ∀ d, Owned pmstart A (p.bal d) (ranges d) (live d))
    (hal : bminsz ∣ pmstart) (hrun : p.physalloc size color = some (p', c, m)) :
    Allocated p size p' c m := by
  unfold Phys.physalloc at hrun
  split at hrun
  · split at hrun
    · cases hrun
    · simp only [bind_eq_bind] at hrun
      obtain ⟨⟨p₁, m₁⟩, hfrom, hrest⟩ := bind_eq_some_iff.mp hrun
      have hcase := allocFrom_cases (h _) hal hfrom
      simp only at hrest
      split at hrest
      · next hm =>
          have hkmin : (p.bal (color.toNat % p.ndoms)).kmin ≠ 0 := by
            intro hz
            unfold Phys.allocFrom at hfrom
            rw [if_pos hz] at hfrom
            cases hfrom
            exact hm rfl
          rw [if_neg hkmin] at hrest
          cases hrest
          exact hcase
      · next hm =>
          rcases hcase with ⟨_, hp⟩ | ⟨_, _, _, hne, _⟩
          · subst hp
            exact allocAny_cases h hal hrest
          · exact absurd hne hm
  · exact allocAny_cases h hal hrun

/-- Every domain has its history, and no unit was given to two domains. -/
structure System.Inv (pmstart : Nat) (s : System) : Prop where
  owned : ∀ d, Owned pmstart False (s.phys.bal d) (s.ranges d) (s.live d)
  single : ∀ {d d' x}, givenBy (s.ranges d) x → givenBy (s.ranges d') x → d = d'

variable {s t : System} {l : Live}

/-- A domain that has memory has its table at `pmstart`. -/
theorem Owned.low_eq {b : Bal} {rs : List (Nat × Nat)} {ls : List Live}
    (h : Owned pmstart A b rs ls) (hsize : b.size ≠ 0) : b.low = index pmstart := by
  unfold Bal.low
  rcases h.setup with hs | hs
  · exact absurd hs.2.1 hsize
  · rw [hs.2]

theorem System.Inv.start (pmstart : Nat) : System.Inv pmstart {} := by
  refine ⟨fun _ => Owned.start pmstart False, ?_⟩
  intro d d' x hx
  obtain ⟨r, hr, _⟩ := hx
  cases hr

/-- A live allocation can be freed into its own domain only: in any other one the block has no
size, and the search for its buddy traps. -/
theorem System.Inv.dom_of_xphysfree {d d' : Nat} {b : Bal} (h : s.Inv pmstart) (hl : l ∈ s.live d)
    (hrange : (s.phys.bal d').base ≤ l.addr ∧ l.addr < (s.phys.bal d').base + (s.phys.bal d').size)
    (hfree : (s.phys.bal d').xphysfree l.addr = some b) : d' = d := by
  obtain ⟨i, u, haddr, _, hu, hlow, hgiven⟩ := (h.owned d).live_given hl
  have hindex : index l.addr = i := index_of_addr haddr
  by_contra hdd
  have hne : l.addr ≠ 0 := by
    obtain ⟨j, haddr', _, _, _, hj, _⟩ := (h.owned d).held hl
    rw [haddr']
    exact Nat.mul_ne_zero (Nat.ne_of_gt bminsz_pos) hj
  have hlow' : (s.phys.bal d').low ≤ index l.addr := by
    have hset : (s.phys.bal d).low = index pmstart := by
      rcases (h.owned d).setup with hs | hs
      · rw [hs.2.2.2] at hl
        cases hl
      · unfold Bal.low
        rw [hs.2]
    rw [(h.owned d').low_eq (by omega), ← hset, hindex]
    exact hlow
  have hforeign : ¬ givenBy (s.ranges d') (index l.addr) := by
    intro hg
    rw [hindex] at hg
    exact hdd (h.single hg (hgiven i (Nat.le_refl _) (by omega)))
  rw [(h.owned d').xphysfree_foreign hne hlow' hforeign] at hfree
  cases hfree

/-- `physfree` finds the domain the allocation came from. -/
theorem System.Inv.physfree_bal {d : Nat} (h : s.Inv pmstart) (hl : l ∈ s.live d)
    (hrun : s.phys.physfree l.addr = some p') :
    ∃ b, (s.phys.bal d).xphysfree l.addr = some b ∧ p' = s.phys.setBal d b := by
  obtain ⟨d', hfind, hrest⟩ := bind_eq_some_iff.mp hrun
  obtain ⟨b, hfree, heq⟩ := bind_eq_some_iff.mp hrest
  cases heq
  have hrange : (s.phys.bal d').base ≤ l.addr ∧
      l.addr < (s.phys.bal d').base + (s.phys.bal d').size := by
    have hp := List.find?_some hfind
    simpa using hp
  cases h.dom_of_xphysfree hl hrange hfree
  exact ⟨b, hfree, rfl⟩

theorem answered_mergeOk (b : Bal) (q : Nat) (h : pmstart = 0 ∨ Answered b q) :
    MergeOk (pmstart = 0) False b q :=
  ⟨h, fun hf => hf.elim⟩

/-- A unit of a fresh range was given to no domain. -/
theorem Fresh.not_given {rs : List (Nat × Nat)} {addr len x : Nat} (h : Fresh rs addr len)
    (habove : Above pmstart addr len)
    (hx : firstUnit addr ≤ x ∧ x < lastUnit (addr + len)) : ¬ givenBy rs x :=
  (h.fits habove).new x hx.1 hx.2

theorem System.Inv.physinit {addr len : Nat} {dom : Int} (h : s.Inv pmstart)
    (hstep : s.Step pmstart (.physinit addr len dom) t)
    (hsound : s.Sound pmstart (.physinit addr len dom)) : t.Inv pmstart := by
  obtain ⟨hact, hfresh, habove⟩ := hstep
  obtain ⟨p', hrun, heq⟩ := bind_eq_some_iff.mp hact
  obtain ⟨b, hinit, hbal⟩ := physinit_bal hrun
  cases heq
  have hnew := (h.owned (domOf dom)).physinit hinit ((hfresh _).fits habove)
    (fun hf => hf.elim) (fun b₁ hgrow => (hsound b₁ hgrow).mono answered_mergeOk)
  constructor
  · intro d
    simp only [hbal]
    by_cases hd : d = domOf dom
    · subst hd
      simp only [update_self]
      exact hnew
    · simp only [update_of_ne hd]
      exact h.owned d
  · have hcases : ∀ {d x}, givenBy (update s.ranges (domOf dom)
        ((addr, len) :: s.ranges (domOf dom)) d) x →
        givenBy (s.ranges d) x ∨
          (d = domOf dom ∧ firstUnit addr ≤ x ∧ x < lastUnit (addr + len)) := by
      intro d x hx
      by_cases hd : d = domOf dom
      · subst hd
        rw [update_self, ← givenBy_cons] at hx
        exact hx.imp id (fun hin => ⟨rfl, hin⟩)
      · rw [update_of_ne hd] at hx
        exact Or.inl hx
    intro d d' x hx hx'
    rcases hcases hx with hold | ⟨hd, hin⟩
    · rcases hcases hx' with hold' | ⟨hd', hin'⟩
      · exact h.single hold hold'
      · exact absurd hold ((hfresh d).not_given habove hin')
    · rcases hcases hx' with hold' | ⟨hd', _⟩
      · exact absurd hold' ((hfresh d').not_given habove hin)
      · rw [hd, hd']

theorem System.Inv.physalloc {size : Nat} {color : Int} (h : s.Inv pmstart)
    (hal : bminsz ∣ pmstart) (hstep : s.Step pmstart (.physalloc size color) t) :
    t.Inv pmstart := by
  obtain ⟨hact, _⟩ := hstep
  obtain ⟨⟨p', c, m⟩, hrun, heq⟩ := bind_eq_some_iff.mp hact
  cases heq
  refine ⟨?_, h.single⟩
  intro d
  rcases physalloc_cases h.owned hal hrun with ⟨hm, hp⟩ | ⟨d', b, hc, hm, hx, hp⟩
  · simp only [hm, hp]
    exact h.owned d
  · simp only [if_pos hm, hp, Phys.setBal, hc, Int.toNat_natCast]
    by_cases hd : d = d'
    · subst hd
      simp only [update_self]
      rcases (h.owned d).xphysalloc hal hx with ⟨hz, _⟩ | ⟨_, hown⟩
      · exact absurd hz hm
      · exact hown
    · simp only [update_of_ne hd]
      exact h.owned d

theorem System.Inv.physfree {dom : Nat} (h : s.Inv pmstart)
    (hstep : s.Step pmstart (.physfree dom l) t) (hsound : s.Sound pmstart (.physfree dom l)) :
    t.Inv pmstart := by
  obtain ⟨hact, _⟩ := hstep
  unfold System.act at hact
  simp only at hact
  by_cases hl : l ∈ s.live dom
  · rw [if_pos hl] at hact
    obtain ⟨p', hrun, heq⟩ := bind_eq_some_iff.mp hact
    cases heq
    obtain ⟨b, hfree, hp⟩ := h.physfree_bal hl hrun
    have hown := (h.owned dom).xphysfree hl hfree (hsound.mono answered_mergeOk)
    refine ⟨?_, h.single⟩
    intro d
    simp only [hp, Phys.setBal]
    by_cases hd : d = dom
    · subst hd
      simp only [update_self]
      exact hown
    · simp only [update_of_ne hd]
      exact h.owned d
  · rw [if_neg hl] at hact
    cases hact

/-- One call keeps the invariant. -/
theorem System.Inv.step {c : Call} (h : s.Inv pmstart) (hal : bminsz ∣ pmstart)
    (hstep : s.Step pmstart c t) (hsound : s.Sound pmstart c) : t.Inv pmstart := by
  cases c with
  | physinit addr len dom => exact h.physinit hstep hsound
  | physalloc size color => exact h.physalloc hal hstep
  | physfree dom l => exact h.physfree hstep hsound

/-- Blocks of units that were given to different domains are apart. -/
theorem System.Inv.apart_of_given {d d' i u j v : Nat} (h : s.Inv pmstart) (hd : d ≠ d')
    (hu : 0 < u) (hv : 0 < v) (hg : ∀ x, i ≤ x → x < i + u → givenBy (s.ranges d) x)
    (hg' : ∀ x, j ≤ x → x < j + v → givenBy (s.ranges d') x) :
    Apart (bminsz * i) (bminsz * u) (bminsz * j) (bminsz * v) := by
  apply apart_units
  by_contra hc
  have hboth := hg (max i j) (by omega) (by omega)
  have hboth' := hg' (max i j) (by omega) (by omega)
  exact hd (h.single hboth hboth')

theorem System.Inv.safe (h : s.Inv pmstart) : s.Safe := by
  refine ⟨fun _ => size_le_bytes _, ?_, ?_, ?_, ?_, ?_⟩
  · intro d
    apply (h.owned d).distinct.imp_of_mem
    intro l l' hl hl' hne
    exact (h.owned d).live_apart hl hl' hne
  · intro d d' l l' hd hl hl'
    obtain ⟨i, u, haddr, hbytes, hu, _, hg⟩ := (h.owned d).live_given hl
    obtain ⟨j, v, haddr', hbytes', hv, _, hg'⟩ := (h.owned d').live_given hl'
    rw [haddr, haddr', hbytes, hbytes']
    exact h.apart_of_given hd hu hv hg hg'
  · intro d d' l k i hl hon
    by_cases hd : d = d'
    · subst hd
      exact (h.owned d).live_onList_apart hl hon
    · obtain ⟨j, v, haddr, hbytes, hv, _, hg⟩ := (h.owned d).live_given hl
      have hkmin := ((h.owned d').onList hon).2.2.2.1
      rw [haddr, hbytes, ← units_mul hkmin]
      exact h.apart_of_given hd hv (units_pos hkmin) hg
        (fun x hx hx' => (h.owned d').onList_given hon hx hx')
  · intro d l hl x hx hx'
    obtain ⟨i, u, haddr, hbytes, hu, _, hg⟩ := (h.owned d).live_given hl
    rw [haddr] at hx hx'
    rw [hbytes, ← Nat.mul_add] at hx'
    have hlo : i ≤ x / bminsz := (Nat.le_div_iff_mul_le bminsz_pos).mpr (by rw [Nat.mul_comm]; exact hx)
    have hhi : x / bminsz < i + u := Nat.div_lt_of_lt_mul hx'
    obtain ⟨r, hr, hin⟩ := hg _ hlo hhi
    have hunit := unit_in_range hin
    have hmod := Nat.div_add_mod x bminsz
    have hlt := Nat.mod_lt x bminsz_pos
    exact ⟨r, hr, by omega, by omega⟩
  · intro d l hl hs
    obtain ⟨i, u, haddr, hbytes, hu, _, hg⟩ := (h.owned d).live_given hl
    rw [haddr, hbytes]
    exact run_in_range hs hu hg

/-- **Physical page safety.**  It holds in every state of a run in which no merge
takes off a block with a stale `prev`. -/
theorem live_memory_safe {pmstart : Nat} {s : System} (hal : bminsz ∣ pmstart)
    (hr : Reach (· = ({} : System)) (fun s c t => s.Step pmstart c t ∧ s.Sound pmstart c) s) :
    s.Safe := by
  have hinv : s.Inv pmstart := by
    refine hr.invariant (System.Inv pmstart) ?_ ?_
    · intro s hs
      rw [hs]
      exact System.Inv.start pmstart
    · intro s c t h hstep
      exact h.step hal hstep.1 hstep.2
  exact hinv.safe

/-- `INIMAP`, the `pmstart` of this machine. -/
def inimap : Nat := 6 * 2 ^ 20

/-- Units 4 to 11 are the only range given in the runs below. -/
def giveRange : Call := .physinit (8 * 2 ^ 20) (16 * 2 ^ 20) 0

def freshRange : System := (System.act inimap {} giveRange).getD {}

theorem promised_first {addr len : Nat} {dom : Int} (h : inimap ≤ addr) :
    System.Promised inimap {} (.physinit addr len dom) := by
  refine ⟨?_, Or.inl h⟩
  intro d r hr
  cases hr

theorem giveRange_step : System.Step inimap {} giveRange freshRange := by
  have hsome : (System.act inimap {} giveRange).isSome = true := by rfl
  exact ⟨(getD_of_ne_none (isSome_iff_ne_none.mp hsome) _).symm, promised_first (by decide)⟩

theorem giveRange_sound : System.Sound inimap {} giveRange := by
  intro b₁ hgrow
  have hchunks : chunks (8 * 2 ^ 20) (8 * 2 ^ 20 + 16 * 2 ^ 20) =
      [(8 * 2 ^ 20, 23), (16 * 2 ^ 20, 23)] := by
    decide +kernel
  rw [hchunks]
  cases hgrow
  refine ⟨fun _ => by decide +kernel, ?_⟩
  intro b₂ hplop
  cases hplop
  exact ⟨fun _ => by decide +kernel, fun _ _ => trivial⟩

/-- The calls that only allocate and free, the latter when no merge is unsound. -/
def System.soundAct (pmstart : Nat) (s : System) : Call → Option System
  | .physinit _ _ _ => none
  | .physalloc size color => s.act pmstart (.physalloc size color)
  | .physfree dom l =>
    if mergesOk (fun b p => pmstart = 0 ∨ Answered b p) (bkmax + 1) (s.phys.bal dom)
        (index l.addr) then
      s.act pmstart (.physfree dom l)
    else none

theorem soundAct_step {c : Call} (h : s.soundAct pmstart c = some t) :
    s.Step pmstart c t ∧ s.Sound pmstart c := by
  cases c with
  | physinit addr len dom => cases h
  | physalloc size color => exact ⟨⟨h, trivial⟩, trivial⟩
  | physfree dom l =>
    unfold System.soundAct at h
    simp only at h
    split at h
    · next hok => exact ⟨⟨h, trivial⟩, hok⟩
    · cases h

/-- Three units are allocated, the first two are freed with a merge, and four units are
allocated. -/
theorem live_memory_safe_reused :
    ∃ s : System, s.live 0 = [⟨16 * 2 ^ 20, 4 * bminsz⟩, ⟨12 * 2 ^ 20, bminsz⟩] ∧ s.Safe := by
  have hstart : Reach (· = ({} : System))
      (fun s c t => s.Step inimap c t ∧ s.Sound inimap c) {} := Reach.start rfl
  have hsome : (exec (System.soundAct inimap) freshRange
      [.physalloc bminsz 0, .physalloc bminsz 0, .physalloc bminsz 0,
        .physfree 0 ⟨8 * 2 ^ 20, bminsz⟩, .physfree 0 ⟨10 * 2 ^ 20, bminsz⟩,
        .physalloc (4 * bminsz) 0]).isSome = true := by
    decide +kernel
  have hr := (hstart.next ⟨giveRange_step, giveRange_sound⟩).exec (exec_getD (d := {}) hsome)
    (fun s c t _ hact => soundAct_step hact)
  exact ⟨_, by decide +kernel, live_memory_safe (by decide) hr⟩

/-- All eight units are allocated.  Freeing units 5 and 7 and allocating unit 7 again
leaves a stale `prev` in unit 5, with which unit 6 is then merged. -/
def overlapCalls : List Call :=
  List.replicate 8 (.physalloc bminsz 0) ++
    [.physfree 0 ⟨10 * 2 ^ 20, bminsz⟩, .physfree 0 ⟨14 * 2 ^ 20, bminsz⟩, .physalloc bminsz 0,
      .physfree 0 ⟨12 * 2 ^ 20, bminsz⟩, .physalloc bminsz 0, .physalloc (2 * bminsz) 0]

def overlapped : System := (exec (System.act inimap) freshRange overlapCalls).getD {}

theorem overlapped_reach : Reach (· = ({} : System)) (System.Step inimap) overlapped := by
  have hstart : Reach (· = ({} : System)) (System.Step inimap) {} := Reach.start rfl
  refine (hstart.next giveRange_step).exec (exec_getD (by decide +kernel)) ?_
  intro s c t hc hact
  refine ⟨hact, ?_⟩
  cases c with
  | physinit addr len dom => simp [overlapCalls] at hc
  | physalloc size color => trivial
  | physfree dom l => trivial

/-- A run after which two live allocations start at the same address. -/
theorem live_memory_overlaps :
    ∃ s, Reach (· = ({} : System)) (System.Step inimap) s ∧
      (∃ r, s.live 0 = ⟨10 * 2 ^ 20, 2 * bminsz⟩ :: ⟨10 * 2 ^ 20, bminsz⟩ :: r) ∧ ¬ s.Safe := by
  have hlive : overlapped.live 0 = ⟨10 * 2 ^ 20, 2 * bminsz⟩ :: ⟨10 * 2 ^ 20, bminsz⟩ ::
      (overlapped.live 0).drop 2 := by
    decide +kernel
  refine ⟨overlapped, overlapped_reach, ⟨_, hlive⟩, ?_⟩
  intro hsafe
  have hpair := hsafe.apart 0
  rw [hlive, List.pairwise_cons] at hpair
  have hapart := hpair.1 _ List.mem_cons_self
  exact absurd hapart (by decide +kernel)

end Physalloc
