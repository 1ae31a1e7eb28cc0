import NixKernel.PhysallocLists
import NixKernel.Tiling

/-!
# The blocks of the buddy allocator

The blocks of a `Bal` are the available ones and those that are `held`: handed
out, or in the hands of the code that is freeing one.  `Good` says that they are
disjoint and made of memory that was given to the allocator, next to what
`Lists` says of the avail lists.

Two stronger invariants are carried along on demand.  With `Backed` (which needs a table that starts
at address 0) every `prev` of an available block is answered by a `next`; with `Attached` every
available block is on its list.
-/

namespace Physalloc

open IndexList Tiling
open Function (update update_self update_of_ne update_idem)

theorem units_pos {k : Nat} (hk : bkmin ≤ k) : 0 < units k := by
  unfold units bminsz
  exact Nat.div_pos (Nat.pow_le_pow_right (by omega) hk) (Nat.two_pow_pos _)

theorem units_succ {k : Nat} (hk : bkmin ≤ k) : units (k + 1) = units k + units k := by
  obtain ⟨n, hn⟩ := Nat.exists_eq_add_of_le hk
  subst hn
  have hpos : 0 < 2 ^ bkmin := Nat.two_pow_pos _
  have hunits : ∀ n, units (bkmin + n) = 2 ^ n := by
    intro n
    unfold units bminsz
    rw [Nat.pow_add, Nat.mul_div_cancel_left _ hpos]
  rw [Nat.add_assoc, hunits, hunits, Nat.pow_succ]
  omega

theorem units_small {k : Nat} (hk : k < bkmin) : units k = 0 := by
  unfold units bminsz
  exact Nat.div_eq_of_lt (Nat.pow_lt_pow_right (by omega) hk)

theorem units_mono {j k : Nat} (hjk : j ≤ k) : units j ≤ units k :=
  Nat.div_le_div_right (Nat.pow_le_pow_right (by omega) hjk)

/-- The blocks by first index and length. -/
def Bal.tiles (b : Bal) (held : Nat → Bool) (i : Nat) : Option Nat :=
  if b.low ≤ i ∧ ((b.at i).avail = true ∨ held i = true) then some (units (b.at i).kval) else none

structure Good (b : Bal) (given : Nat → Prop) (held : Nat → Bool) (L : Nat → List Nat) : Prop where
  lists : Lists b L
  packed : Packed (b.tiles held)
  kvals : ∀ {i}, b.low ≤ i → ((b.at i).avail = true ∨ held i = true) →
    i ≠ 0 ∧ bkmin ≤ (b.at i).kval ∧ (b.at i).kval ≤ bkmax
  used : ∀ {i}, held i = true → b.low ≤ i ∧ (b.at i).avail = false
  within : ∀ {x}, Covers (b.tiles held) x → given x
  fresh : ∀ i, b.low ≤ i → ¬ given i → (b.at i).kval = 0

/-- Every `prev` of an available block is answered. -/
def Backed (b : Bal) : Prop :=
  ∀ i, b.low ≤ i → (b.at i).avail = true → (b.at i).prev ≠ 0 →
    (b.at (b.at i).prev).avail = true ∧ (b.at (b.at i).prev).next = i

/-- Every available block is on its list. -/
def Attached (b : Bal) (L : Nat → List Nat) : Prop :=
  ∀ i, b.low ≤ i → (b.at i).avail = true → i ∈ L (b.at i).kval

/-- The `prev` of `p` is nil or answered. -/
def Answered (b : Bal) (p : Nat) : Prop := (b.at p).prev = 0 ∨ (b.at (b.at p).prev).next = p

/-- `p` has a predecessor or is the only block of its list. -/
def Separable (b : Bal) (p : Nat) : Prop :=
  (b.at p).prev ≠ 0 ∨ (b.avail (b.at p).kval = p ∧ (b.at p).next = 0)

instance (b : Bal) (p : Nat) : Decidable (Answered b p) := inferInstanceAs (Decidable (_ ∨ _))

instance (b : Bal) (p : Nat) : Decidable (Separable b p) := inferInstanceAs (Decidable (_ ∨ _))

/-- The invariant, with `Backed` if `B` and `Attached` if `A`. -/
structure Inv (B A : Prop) (b : Bal) (given : Nat → Prop) (held : Nat → Bool)
    (L : Nat → List Nat) : Prop where
  good : Good b given held L
  backed : B → b.low = 0 ∧ Backed b
  attached : A → Attached b L

/-- What a merge with `p` has to meet. -/
def MergeOk (B A : Prop) (b : Bal) (p : Nat) : Prop := (B ∨ Answered b p) ∧ (A → Separable b p)

variable {B A : Prop} {b : Bal} {given : Nat → Prop} {held : Nat → Bool} {L : Nat → List Nat}
  {i j k p u : Nat}

theorem tiles_eq_some : b.tiles held i = some u ↔
    b.low ≤ i ∧ ((b.at i).avail = true ∨ held i = true) ∧ units (b.at i).kval = u := by
  unfold Bal.tiles
  constructor
  · intro h
    split at h
    · next hc =>
        cases h
        exact ⟨hc.1, hc.2, rfl⟩
    · cases h
  · intro h
    rw [if_pos ⟨h.1, h.2.1⟩, h.2.2]

theorem tiles_eq_none (hlow : b.low ≤ i) : b.tiles held i = none ↔
    (b.at i).avail = false ∧ held i = false := by
  unfold Bal.tiles
  constructor
  · intro h
    split at h
    · cases h
    · next hc =>
        have hnot : ¬ ((b.at i).avail = true ∨ held i = true) := fun hor => hc ⟨hlow, hor⟩
        rw [not_or] at hnot
        exact ⟨by simpa using hnot.1, by simpa using hnot.2⟩
  · intro h
    rw [if_neg]
    intro hc
    rcases hc.2 with ha | ha
    · rw [h.1] at ha
      cases ha
    · rw [h.2] at ha
      cases ha

/-- A change of one entry, with the list links left alone, changes one block. -/
theorem tiles_update {b' : Bal} {held' : Nat → Bool} {o : Option Nat} (hlow' : b'.low = b.low)
    (hoff : ∀ j, b.low ≤ j → j ≠ i → (b'.at j).avail = (b.at j).avail ∧
      (b'.at j).kval = (b.at j).kval ∧ held' j = held j)
    (hat : b'.tiles held' i = o) :
    b'.tiles held' = update (b.tiles held) i o := by
  funext j
  by_cases hji : j = i
  · subst hji
    rw [update_self, hat]
  · rw [update_of_ne hji]
    unfold Bal.tiles
    rw [hlow']
    by_cases hj : b.low ≤ j
    · obtain ⟨ha, hk, hh⟩ := hoff j hj hji
      rw [ha, hk, hh]
    · rw [if_neg (fun hc => hj hc.1), if_neg (fun hc => hj hc.1)]

/-- Nothing starts where nothing is covered. -/
theorem Good.used_of_uncovered (h : Good b given held L) (hlow : b.low ≤ i)
    (hfree : ¬ Covers (b.tiles held) i) : (b.at i).avail = false ∧ held i = false := by
  rw [← tiles_eq_none hlow]
  cases ht : b.tiles held i with
  | none => rfl
  | some w => exact absurd (h.packed.covers_start ht) hfree

theorem tiles_putOn (hL : Lists b L) (hlow : b.low ≤ i) (hi : i ≠ 0)
    (hused : (b.at i).avail = false) :
    (b.putOn k i).tiles (update held i false) =
      update (b.tiles held) i (some (units k)) := by
  have hne := hL.avail_ne hi hused k
  apply tiles_update (low_putOn b k i)
  · intro j hj hji
    rw [at_putOn hL.sane hlow hne hj, if_neg hji, update_of_ne hji]
    split <;> exact ⟨rfl, rfl, rfl⟩
  · rw [tiles_eq_some, low_putOn, at_putOn hL.sane hlow hne hlow, if_pos rfl]
    exact ⟨hlow, Or.inl rfl, rfl⟩

/-- The entries other than `i` keep tag and size. -/
theorem Good.putOn (h : Good b given held L) (hlow : b.low ≤ i) (hi : i ≠ 0)
    (hused : (b.at i).avail = false) (hk : bkmin ≤ k ∧ k ≤ bkmax)
    (hpacked : Packed (update (b.tiles held) i (some (units k))))
    (hwithin : ∀ x, Covers (update (b.tiles held) i (some (units k))) x → given x) :
    Good (b.putOn k i) given (update held i false) (update L k (i :: L k)) := by
  have hne := h.lists.avail_ne hi hused k
  have hat := fun {j} => at_putOn (j := j) h.lists.sane hlow hne
  have htiles : (b.putOn k i).tiles (update held i false) =
      update (b.tiles held) i (some (units k)) := tiles_putOn h.lists hlow hi hused
  refine ⟨h.lists.putOn hlow hi hused, by rw [htiles]; exact hpacked, ?_, ?_, ?_, ?_⟩
  · intro j hj hblk
    rw [low_putOn] at hj
    rw [hat hj] at hblk ⊢
    by_cases hji : j = i
    · rw [if_pos hji]
      exact ⟨by rw [hji]; exact hi, hk⟩
    · rw [if_neg hji] at hblk ⊢
      rw [update_of_ne hji] at hblk
      split at hblk
      · next hc =>
          rw [if_pos hc]
          exact h.kvals hj hblk
      · next hc =>
          rw [if_neg hc]
          exact h.kvals hj hblk
  · intro j hheld
    rw [low_putOn]
    by_cases hji : j = i
    · rw [hji, update_self] at hheld
      cases hheld
    · rw [update_of_ne hji] at hheld
      have hold := h.used hheld
      refine ⟨hold.1, ?_⟩
      rw [hat hold.1, if_neg hji]
      split <;> exact hold.2
  · intro x hx
    rw [htiles] at hx
    exact hwithin x hx
  · intro j hj hg
    rw [low_putOn] at hj
    have hji : j ≠ i := by
      intro heq
      apply hg
      apply hwithin
      rw [heq]
      exact hpacked.covers_start (update_self _ _ _)
    rw [hat hj, if_neg hji]
    split <;> exact h.fresh j hj hg

theorem Backed.putOn (h : Backed b) (hL : Lists b L) (hlow : b.low ≤ i) (hi : i ≠ 0)
    (hused : (b.at i).avail = false) : Backed (b.putOn k i) := by
  have hne := hL.avail_ne hi hused k
  have hat := fun {j} => at_putOn (j := j) hL.sane hlow hne
  intro j hj havail hprev
  rw [low_putOn] at hj
  rw [hat hj] at havail hprev ⊢
  by_cases hji : j = i
  · rw [if_pos hji] at hprev
    exact absurd rfl hprev
  · rw [if_neg hji] at havail hprev ⊢
    by_cases hfirst : j = b.avail k ∧ j ≠ 0
    · rw [if_pos hfirst]
      simp only
      rw [hat hlow, if_pos rfl]
      exact ⟨rfl, hfirst.1.symm⟩
    · rw [if_neg hfirst] at havail hprev ⊢
      obtain ⟨hav, hnext⟩ := h j hj havail hprev
      have hpi : (b.at j).prev ≠ i := by
        intro heq
        rw [heq, hused] at hav
        cases hav
      have hlowp := (hL.sane.prev j hj).resolve_left hprev
      rw [hat hlowp, if_neg hpi]
      split <;> exact ⟨hav, hnext⟩

theorem Attached.putOn (h : Attached b L) (hL : Lists b L) (hlow : b.low ≤ i) (hi : i ≠ 0)
    (hused : (b.at i).avail = false) :
    Attached (b.putOn k i) (update L k (i :: L k)) := by
  have hne := hL.avail_ne hi hused k
  have hat := fun {j} => at_putOn (j := j) hL.sane hlow hne
  intro j hj havail
  rw [low_putOn] at hj
  rw [hat hj] at havail ⊢
  by_cases hji : j = i
  · rw [if_pos hji]
    simp only
    rw [update_self, hji]
    exact List.mem_cons_self
  · rw [if_neg hji] at havail ⊢
    have hmem : (b.at j).avail = true → j ∈ update L k (i :: L k) (b.at j).kval := by
      intro hav
      have hold := h j hj hav
      by_cases hk : (b.at j).kval = k
      · rw [hk] at hold ⊢
        rw [update_self]
        exact List.mem_cons_of_mem _ hold
      · rw [update_of_ne hk]
        exact hold
    split at havail
    · next hc =>
        rw [if_pos hc]
        exact hmem havail
    · next hc =>
        rw [if_neg hc]
        exact hmem havail

/-- A block is put on its list: either it was held, or it comes from memory that
nothing covers. -/
theorem Inv.putOn (h : Inv B A b given held L) (hlow : b.low ≤ i) (hi : i ≠ 0)
    (hused : (b.at i).avail = false) (hk : bkmin ≤ k ∧ k ≤ bkmax)
    (hpacked : Packed (update (b.tiles held) i (some (units k))))
    (hwithin : ∀ x, Covers (update (b.tiles held) i (some (units k))) x → given x) :
    Inv B A (b.putOn k i) given (update held i false)
      (update L k (i :: L k)) := by
  have hL := h.good.lists
  refine ⟨h.good.putOn hlow hi hused hk hpacked hwithin, ?_, ?_⟩
  · intro hB
    obtain ⟨hzero, hback⟩ := h.backed hB
    refine ⟨?_, hback.putOn hL hlow hi hused⟩
    rw [low_putOn]
    exact hzero
  · intro hA
    exact (h.attached hA).putOn hL hlow hi hused

theorem at_setKval (hlow : b.low ≤ i) (hj : b.low ≤ j) (f : Nat → Nat) :
    (b.set (b.block i) fun l => { l with kval := f l.kval }).at j =
      { b.at j with kval := if j = i then f (b.at i).kval else (b.at j).kval } := by
  rw [at_set hlow hj]
  by_cases hji : j = i
  · rw [if_pos hji, if_pos hji, hji]
  · rw [if_neg hji, if_neg hji]

theorem Lists.setKval (h : Lists b L) (hlow : b.low ≤ i) (hused : (b.at i).avail = false)
    (f : Nat → Nat) : Lists (b.set (b.block i) fun l => { l with kval := f l.kval }) L := by
  have hat := fun {j} hj => at_setKval (j := j) hlow hj f
  refine ⟨⟨?_, ?_, h.sane.avail⟩, ?_, ?_, ?_⟩
  · intro j hj
    rw [hat hj]
    exact h.sane.next j hj
  · intro j hj
    rw [hat hj]
    exact h.sane.prev j hj
  · intro k
    apply (h.linked k).frame
    intro a ha
    rw [hat (h.mem ha).1]
  · intro k a ha
    have hold := h.mem ha
    have hai : a ≠ i := fun heq => h.not_mem hused k (heq ▸ ha)
    rw [hat hold.1]
    simp only [if_neg hai]
    exact hold
  · intro k a ha hprev hanswer
    have hlowa := (h.mem ha).1
    rw [hat hlowa] at hprev hanswer ⊢
    simp only at hprev hanswer ⊢
    have hlowp := (h.sane.prev a hlowa).resolve_left hprev
    rw [hat hlowp] at hanswer
    exact h.back ha hprev hanswer

theorem Backed.setKval (h : Backed b) (hs : b.Sane) (hlow : b.low ≤ i) (f : Nat → Nat) :
    Backed (b.set (b.block i) fun l => { l with kval := f l.kval }) := by
  have hat := fun {j} hj => at_setKval (j := j) hlow hj f
  intro j hj havail hprev
  change b.low ≤ j at hj
  rw [hat hj] at havail hprev ⊢
  simp only at havail hprev ⊢
  have hlowp := (hs.prev j hj).resolve_left hprev
  rw [hat hlowp]
  exact h j hj havail hprev

theorem Attached.setKval (h : Attached b L) (hlow : b.low ≤ i)
    (hused : (b.at i).avail = false) (f : Nat → Nat) :
    Attached (b.set (b.block i) fun l => { l with kval := f l.kval }) L := by
  have hat := fun {j} hj => at_setKval (j := j) hlow hj f
  intro j hj havail
  change b.low ≤ j at hj
  rw [hat hj] at havail ⊢
  simp only at havail ⊢
  have hji : j ≠ i := by
    intro heq
    rw [heq, hused] at havail
    cases havail
  rw [if_neg hji]
  exact h j hj havail

theorem Backed.takeOff (h : Backed b) (hg : Good b given held L) (hlow : b.low ≤ p)
    (hp : (b.at p).avail = true) : Backed (b.takeOff p) := by
  have hs := hg.lists.sane
  have hat := fun {j} => at_takeOff (j := j) hs hlow
  intro j hj havail hprev
  rw [low_takeOff] at hj
  rw [hat hj] at havail hprev ⊢
  simp only at havail hprev ⊢
  by_cases hjp : j = p
  · rw [if_pos hjp] at havail
    cases havail
  · rw [if_neg hjp] at havail hprev ⊢
    have hj0 := (hg.kvals hj (Or.inl havail)).1
    by_cases hsucc : (b.at p).next ≠ 0 ∧ j = (b.at p).next
    · rw [if_pos hsucc] at hprev
      exact absurd rfl hprev
    · rw [if_neg hsucc] at hprev ⊢
      obtain ⟨hav, hnext⟩ := h j hj havail hprev
      have hlowp := (hs.prev j hj).resolve_left hprev
      have hyp : (b.at j).prev ≠ p := by
        intro heq
        rw [heq] at hnext
        exact hsucc ⟨by rw [hnext]; exact hj0, hnext.symm⟩
      have hyq : ¬ ((b.at p).prev ≠ 0 ∧ (b.at j).prev = (b.at p).prev) := by
        intro hc
        have hback := (h p hlow hp hc.1).2
        rw [← hc.2, hnext] at hback
        exact hjp hback
      rw [hat hlowp]
      simp only [if_neg hyp, if_neg hyq]
      exact ⟨hav, hnext⟩

theorem Attached.takeOff (h : Attached b L) (hL : Lists b L) (hlow : b.low ≤ p)
    (hp : p ≠ 0) (hsep : Separable b p) : Attached (b.takeOff p) (b.listsOff L p) := by
  intro j hj havail
  rw [low_takeOff] at hj
  rw [at_takeOff hL.sane hlow hj] at havail ⊢
  simp only at havail ⊢
  by_cases hjp : j = p
  · rw [if_pos hjp] at havail
    cases havail
  · rw [if_neg hjp] at havail
    have hold := h j hj havail
    unfold Bal.listsOff
    by_cases hk : (b.at j).kval = (b.at p).kval
    · rw [hk] at hold ⊢
      rw [update_self]
      rcases hsep with hprev | ⟨hfirst, hnext⟩
      · rw [if_pos hprev]
        exact (List.mem_erase_of_ne hjp).mpr hold
      · -- alone on its list, so `j` is not there
        obtain ⟨t, ht, htail⟩ := (hL.linked (b.at p).kval).of_ne_zero (by rw [hfirst]; exact hp)
        rw [hfirst] at ht htail
        simp only [hnext] at htail
        rw [ht, htail.eq_nil] at hold
        exact absurd (List.mem_singleton.mp hold) hjp
    · rw [update_of_ne hk]
      exact hold

/-- The buddy is the neighbour of the same size on one side. -/
theorem buddy_cases (hlow : b.low ≤ i) :
    b.buddy i = i + units (b.at i).kval ∨
      (b.buddy i + units (b.at i).kval = i ∧ b.low ≤ b.buddy i) := by
  unfold Bal.buddy
  simp only
  split
  · next hodd =>
      right
      have hle : units (b.at i).kval ≤ b.block i := by
        by_contra hlt
        rw [Nat.div_eq_of_lt (by omega)] at hodd
        omega
      unfold Bal.block at hle
      unfold Bal.low at hlow ⊢
      omega
  · exact Or.inl rfl

/-- When the loop goes on, the buddy is an available block of the same size. -/
theorem not_stops (hstop : b.stops i = false) :
    (b.at i).kval ≠ bkmax ∧ (b.at (b.buddy i)).avail = true ∧
      (b.at (b.buddy i)).kval = (b.at i).kval := by
  unfold Bal.stops at hstop
  simp only [Bool.or_eq_false_iff, decide_eq_false_iff_not, Bool.not_eq_false',
    Bool.and_eq_false_iff] at hstop
  obtain ⟨⟨hmax, hav⟩, hsame⟩ := hstop
  refine ⟨hmax, hav, ?_⟩
  rcases hsame with hc | hc
  · rw [hav] at hc
    cases hc
  · simpa using hc

/-- A held block next to an available one of the same size, its buddy. -/
structure Pair (b : Bal) (held : Nat → Bool) (i p : Nat) : Prop where
  buddy : b.buddy i = p
  low : b.low ≤ i
  plow : b.low ≤ p
  ne : p ≠ i
  pos : i ≠ 0 ∧ p ≠ 0
  isHeld : held i = true
  notHeld : held p = false
  used : (b.at i).avail = false
  pavail : (b.at p).avail = true
  pkval : (b.at p).kval = (b.at i).kval
  kval : bkmin ≤ (b.at i).kval ∧ (b.at i).kval < bkmax
  next : p = i + units (b.at i).kval ∨ p + units (b.at i).kval = i

theorem Good.pair (h : Good b given held L) (hheld : held i = true)
    (hstop : b.stops i = false) : Pair b held i (b.buddy i) := by
  obtain ⟨hmax, hpav, hpk⟩ := not_stops hstop
  obtain ⟨hlow, hiused⟩ := h.used hheld
  obtain ⟨hi0, hkmin, hkmax⟩ := h.kvals hlow (Or.inr hheld)
  have hu := units_pos hkmin
  have hcase := buddy_cases (b := b) hlow
  have hplow : b.low ≤ b.buddy i := by
    rcases hcase with hc | hc
    · omega
    · exact hc.2
  have hpheld : held (b.buddy i) = false := by
    cases hhp : held (b.buddy i) with
    | false => rfl
    | true =>
      have hfalse := (h.used hhp).2
      rw [hpav] at hfalse
      cases hfalse
  have hp0 := (h.kvals hplow (Or.inl hpav)).1
  exact ⟨rfl, hlow, hplow, by omega, ⟨hi0, hp0⟩, hheld, hpheld, hiused, hpav, hpk,
    ⟨hkmin, by omega⟩, hcase.imp id And.left⟩

/-- The blocks held once `i` has been merged with `p`. -/
def heldMerged (held : Nat → Bool) (p i : Nat) : Nat → Bool :=
  update (update held i false) (min p i) true

/-- Freeing the merged block in the end is freeing `i`. -/
theorem Pair.heldMerged_freed (h : Pair b held i p) :
    update (heldMerged held p i) (min p i) false = update held i false := by
  unfold heldMerged
  rw [update_idem]
  rcases Nat.le_total p i with hle | hle
  · rw [Nat.min_eq_left hle]
    funext x
    by_cases hx : x = p
    · rw [hx, update_self, update_of_ne h.ne, h.notHeld]
    · rw [update_of_ne hx]
  · rw [Nat.min_eq_right hle, update_idem]

theorem Pair.low_min (h : Pair b held i p) : b.low ≤ min p i := by
  have hi := h.low
  have hp := h.plow
  omega

theorem Pair.merge_eq (h : Pair b held i p) :
    b.merge i = ((b.takeOff p).set ((b.takeOff p).block (min p i))
      fun l => { l with kval := l.kval + 1 }, min p i) := by
  unfold Bal.merge
  rw [h.buddy]

@[simp] theorem Pair.low_merge (h : Pair b held i p) : (b.merge i).1.low = b.low := by
  rw [h.merge_eq, low_set, low_takeOff]

/-- The tags and sizes after a merge. -/
theorem Pair.at_merge (h : Pair b held i p) (hs : b.Sane) (hj : b.low ≤ j) :
    ((b.merge i).1.at j).avail = (if j = p then false else (b.at j).avail) ∧
      ((b.merge i).1.at j).kval = if j = min p i then (b.at i).kval + 1 else (b.at j).kval := by
  have hmin := h.low_min
  have hkmin : (b.at (min p i)).kval = (b.at i).kval := by
    rcases Nat.le_total p i with hle | hle
    · rw [Nat.min_eq_left hle, h.pkval]
    · rw [Nat.min_eq_right hle]
  rw [h.merge_eq, at_setKval (by rw [low_takeOff]; exact hmin) (by rw [low_takeOff]; exact hj)
    (fun k => k + 1), at_takeOff hs h.plow hj, at_takeOff hs h.plow hmin]
  refine ⟨rfl, ?_⟩
  simp only [hkmin]

theorem Pair.used_min (h : Pair b held i p) (hs : b.Sane) :
    ((b.takeOff p).at (min p i)).avail = false := by
  rw [at_takeOff hs h.plow h.low_min]
  simp only
  rcases Nat.le_total p i with hle | hle
  · rw [Nat.min_eq_left hle, if_pos rfl]
  · rw [Nat.min_eq_right hle, if_neg h.ne.symm]
    exact h.used

/-- Where the two blocks are. -/
theorem Pair.tiles_eq (h : Pair b held i p) :
    b.tiles held (min p i) = some (units (b.at i).kval) ∧
      b.tiles held (min p i + units (b.at i).kval) = some (units (b.at i).kval) := by
  have hi : b.tiles held i = some (units (b.at i).kval) :=
    tiles_eq_some.mpr ⟨h.low, Or.inr h.isHeld, rfl⟩
  have hp : b.tiles held p = some (units (b.at i).kval) :=
    tiles_eq_some.mpr ⟨h.plow, Or.inl h.pavail, by rw [h.pkval]⟩
  rcases h.next with hn | hn
  · rw [Nat.min_eq_right (by omega), ← hn]
    exact ⟨hi, hp⟩
  · rw [Nat.min_eq_left (by omega), hn]
    exact ⟨hp, hi⟩

/-- The blocks after a merge: two neighbours are joined. -/
theorem Pair.tiles_merge (h : Pair b held i p) (hs : b.Sane) :
    (b.merge i).1.tiles (heldMerged held p i) =
      update (update (b.tiles held) (min p i + units (b.at i).kval) none)
        (min p i) (some (units (b.at i).kval + units (b.at i).kval)) := by
  have hu := units_pos h.kval.1
  have hmax : min p i + units (b.at i).kval = max p i := by
    rcases h.next with hn | hn
    · omega
    · omega
  rw [hmax]
  funext j
  by_cases hj : b.low ≤ j
  · obtain ⟨hav, hkv⟩ := h.at_merge hs hj
    unfold Bal.tiles
    rw [h.low_merge, hav, hkv]
    by_cases hmin : j = min p i
    · rw [hmin, update_self, if_pos rfl, units_succ h.kval.1, if_pos]
      refine ⟨h.low_min, Or.inr ?_⟩
      exact update_self _ _ _
    · rw [update_of_ne hmin, if_neg hmin]
      by_cases hjmax : j = max p i
      · rw [hjmax, update_self, if_neg]
        intro hc
        rcases Nat.le_total p i with hle | hle
        · rw [Nat.max_eq_right hle] at hc
          rw [Nat.max_eq_right hle, Nat.min_eq_left hle] at *
          simp [heldMerged, h.ne.symm, h.used, Nat.min_eq_left hle] at hc
        · rw [Nat.max_eq_left hle] at hc
          simp [heldMerged, h.ne, h.notHeld, Nat.min_eq_right hle] at hc
      · have hji : j ≠ i := by omega
        have hjp : j ≠ p := by omega
        rw [update_of_ne hjmax, if_neg hjp]
        have hheld : heldMerged held p i j = held j := by
          unfold heldMerged
          rw [update_of_ne hmin, update_of_ne hji]
        rw [hheld]
  · have hnone : ∀ (c : Bal) (g : Nat → Bool), c.low = b.low → c.tiles g j = none := by
      intro c g hc
      unfold Bal.tiles
      rw [hc, if_neg (fun hand => hj hand.1)]
    have hmin := h.low_min
    rw [hnone _ _ h.low_merge, update_of_ne (by omega), update_of_ne (by omega), hnone b held rfl]

theorem Pair.lists_merge (h : Pair b held i p) (hL : Lists b L) (hans : Answered b p) :
    Lists (b.merge i).1 (b.listsOff L p) := by
  rw [h.merge_eq]
  exact (hL.takeOff h.plow h.pos.2 hans).setKval (by rw [low_takeOff]; exact h.low_min)
    (h.used_min hL.sane) (fun k => k + 1)

theorem Good.merge (h : Good b given held L) (hpair : Pair b held i p) (hans : Answered b p) :
    Good (b.merge i).1 given (heldMerged held p i) (b.listsOff L p) := by
  have hs := h.lists.sane
  obtain ⟨hlo, hhi⟩ := hpair.tiles_eq
  have htiles := hpair.tiles_merge hs
  have hmin := hpair.low_min
  refine ⟨hpair.lists_merge h.lists hans, ?_, ?_, ?_, ?_, ?_⟩
  · rw [htiles]
    exact h.packed.join hlo hhi
  · intro j hj hblk
    rw [hpair.low_merge] at hj
    obtain ⟨hav, hkv⟩ := hpair.at_merge hs hj
    rw [hkv]
    by_cases hjm : j = min p i
    · rw [if_pos hjm]
      have hpos := hpair.pos
      have hk := hpair.kval
      omega
    · rw [if_neg hjm]
      apply h.kvals hj
      rcases hblk with ha | ha
      · rw [hav] at ha
        left
        by_cases hjp : j = p
        · rw [if_pos hjp] at ha
          cases ha
        · rw [if_neg hjp] at ha
          exact ha
      · right
        unfold heldMerged at ha
        rw [update_of_ne hjm] at ha
        by_cases hji : j = i
        · rw [hji, update_self] at ha
          cases ha
        · rw [update_of_ne hji] at ha
          exact ha
  · intro j hheld
    rw [hpair.low_merge]
    by_cases hjm : j = min p i
    · rw [hjm]
      refine ⟨hmin, ?_⟩
      rw [(hpair.at_merge hs hmin).1]
      rcases Nat.le_total p i with hle | hle
      · rw [Nat.min_eq_left hle, if_pos rfl]
      · rw [Nat.min_eq_right hle, if_neg hpair.ne.symm]
        exact hpair.used
    · unfold heldMerged at hheld
      rw [update_of_ne hjm] at hheld
      by_cases hji : j = i
      · rw [hji, update_self] at hheld
        cases hheld
      · rw [update_of_ne hji] at hheld
        have hold := h.used hheld
        refine ⟨hold.1, ?_⟩
        rw [(hpair.at_merge hs hold.1).1]
        split
        · rfl
        · exact hold.2
  · intro x hx
    rw [htiles, h.packed.covers_join hlo hhi] at hx
    exact h.within hx
  · intro j hj hg
    rw [hpair.low_merge] at hj
    have hjm : j ≠ min p i := by
      intro heq
      apply hg
      rw [heq]
      exact h.within (h.packed.covers_start hlo)
    rw [(hpair.at_merge hs hj).2, if_neg hjm]
    exact h.fresh j hj hg

/-- **One merge.**  The block and its buddy become one held block, and nothing
else changes hands. -/
theorem Inv.merge (h : Inv B A b given held L) (hpair : Pair b held i p)
    (hok : MergeOk B A b p) :
    Inv B A (b.merge i).1 given (heldMerged held p i) (b.listsOff L p) := by
  have hL := h.good.lists
  have hlow : (b.takeOff p).low ≤ min p i := by
    rw [low_takeOff]
    exact hpair.low_min
  have hans : Answered b p := by
    rcases hok.1 with hB | hans
    · by_cases hz : (b.at p).prev = 0
      · exact Or.inl hz
      · exact Or.inr ((h.backed hB).2 p hpair.plow hpair.pavail hz).2
    · exact hans
  refine ⟨h.good.merge hpair hans, ?_, ?_⟩
  · intro hB
    obtain ⟨hzero, hback⟩ := h.backed hB
    refine ⟨hpair.low_merge.trans hzero, ?_⟩
    rw [hpair.merge_eq]
    exact (hback.takeOff h.good hpair.plow hpair.pavail).setKval (hL.sane.takeOff hpair.plow) hlow
      (fun k => k + 1)
  · intro hA
    rw [hpair.merge_eq]
    exact ((h.attached hA).takeOff hL hpair.plow hpair.pos.2 (hok.2 hA)).setKval hlow
      (hpair.used_min hL.sane) (fun k => k + 1)

end Physalloc
