import NixKernel.PhysallocConserve
import NixKernel.PhysallocCount

/-!
# A table that is filled for the first time

`iimbchunk` plops blocks that grow, then blocks of the largest size, then blocks that shrink.  If
nothing was there before, a block can only be joined with the one just before it, of the same size,
and that happens where the sizes turn from growing to shrinking.
-/

namespace Physalloc

open IndexList Tiling
open Function (update update_self update_of_ne)

variable {B : Prop} {b b' : Bal} {given : Nat → Prop} {held : Nat → Bool} {L : Nat → List Nat}
  {a e i j k m n p s : Nat}

/-- The blocks lie below unit `m`.  Those smaller than `2^n` are alone on their lists, and if one of them
is the last, the others are not larger. -/
structure Young (b : Bal) (n m : Nat) : Prop where
  fits : ∀ i, b.low ≤ i → (b.at i).avail = true → i + units (b.at i).kval ≤ m
  alone : ∀ i, b.low ≤ i → (b.at i).avail = true → (b.at i).kval < n →
    (b.at i).prev = 0 ∧ b.avail (b.at i).kval = i ∧ (b.at i).next = 0
  last : ∀ i, b.low ≤ i → (b.at i).avail = true → (b.at i).kval < n → i + units (b.at i).kval = m →
    ∀ j, b.low ≤ j → (b.at j).avail = true → (b.at j).kval ≤ (b.at i).kval

theorem Young.mono (h : Young b n m) (hle : j ≤ n) : Young b j m :=
  ⟨h.fits, fun i hlow hav hlt => h.alone i hlow hav (by omega),
    fun i hlow hav hlt => h.last i hlow hav (by omega)⟩

/-- The table after block `i` is put on its list at once. -/
theorem at_noted_putOn (hL : Lists b L) (hlow : b.low ≤ i) (hi : i ≠ 0) (hused : (b.at i).avail = false)
    (hj : b.low ≤ j) :
    ((b.noted i k).putOn k i).at j =
      if j = i then { avail := true, kval := k, next := b.avail k, prev := 0 }
      else if j = b.avail k ∧ j ≠ 0 then { b.at j with prev := i } else b.at j := by
  have hL' : Lists (b.noted i k) L := hL.setKval hlow hused (fun _ => k)
  rw [at_putOn hL'.sane hlow (hL.avail_ne hi hused k) hj]
  by_cases hji : j = i
  · rw [if_pos hji, if_pos hji]
    rfl
  · have hat : (b.noted i k).at j = b.at j := by
      rw [Bal.noted, at_set hlow hj, if_neg hji]
    rw [if_neg hji, if_neg hji, hat]
    rfl

/-- A block larger than those that are watched is put on its list. -/
theorem Young.put (h : Young b n i) (hL : Lists b L) (hlow : b.low ≤ i) (hi : i ≠ 0)
    (hused : (b.at i).avail = false) (hk : bkmin ≤ k) (hn : n ≤ k) :
    Young ((b.noted i k).putOn k i) n (i + units k) := by
  have hat := fun {j} hj => at_noted_putOn (k := k) (j := j) hL hlow hi hused hj
  have hpos := units_pos hk
  have hlow' : ((b.noted i k).putOn k i).low = b.low := low_putOn _ _ _
  -- what was there keeps its size, and its links if it is smaller
  have hold : ∀ j, b.low ≤ j → (((b.noted i k).putOn k i).at j).avail = true → j ≠ i →
      (b.at j).avail = true ∧ (((b.noted i k).putOn k i).at j).kval = (b.at j).kval ∧
        ((b.at j).kval ≠ k → ((b.noted i k).putOn k i).at j = b.at j) := by
    intro j hj hav hji
    rw [hat hj, if_neg hji] at hav ⊢
    by_cases hhead : j = b.avail k ∧ j ≠ 0
    · rw [if_pos hhead] at hav ⊢
      refine ⟨hav, rfl, fun hne => absurd ?_ hne⟩
      have hmem := hL.first_mem (k := k) (hhead.1 ▸ hhead.2)
      rw [hhead.1]
      exact (hL.mem hmem).2.2
    · rw [if_neg hhead] at hav ⊢
      exact ⟨hav, rfl, fun _ => rfl⟩
  have hnew : (((b.noted i k).putOn k i).at i).kval = k := by rw [hat hlow, if_pos rfl]
  refine ⟨fun j hj hav => ?_, fun j hj hav hlt => ?_, fun j hj hav hlt hend => ?_⟩
  · rw [hlow'] at hj
    by_cases hji : j = i
    · rw [hji, hnew]
    · obtain ⟨hav', hkval, -⟩ := hold j hj hav hji
      rw [hkval]
      exact Nat.le_trans (h.fits j hj hav') (Nat.le_add_right _ _)
  · rw [hlow'] at hj
    have hji : j ≠ i := fun heq => by
      rw [heq, hnew] at hlt
      omega
    obtain ⟨hav', hkval, hsame⟩ := hold j hj hav hji
    rw [hkval] at hlt
    rw [hsame (by omega), avail_putOn, update_of_ne (by omega)]
    exact h.alone j hj hav' hlt
  · rw [hlow'] at hj
    have hji : j ≠ i := fun heq => by
      rw [heq, hnew] at hlt
      omega
    obtain ⟨hav', hkval, -⟩ := hold j hj hav hji
    have hfit := h.fits j hj hav'
    rw [hkval] at hend
    omega

/-- The blocks are smaller than `2^k`. -/
def Below (b : Bal) (k : Nat) : Prop := ∀ j, b.low ≤ j → (b.at j).avail = true → (b.at j).kval < k

/-- A block larger than all that are there is put on its list. -/
theorem Young.put_above (h : Young b n i) (hL : Lists b L) (hbelow : Below b k) (hlow : b.low ≤ i)
    (hi : i ≠ 0) (hused : (b.at i).avail = false) (hk : bkmin ≤ k) :
    Young ((b.noted i k).putOn k i) n (i + units k) ∧ Below ((b.noted i k).putOn k i) (k + 1) := by
  have hat := fun {j} hj => at_noted_putOn (k := k) (j := j) hL hlow hi hused hj
  have hpos := units_pos hk
  have hlow' : ((b.noted i k).putOn k i).low = b.low := low_putOn _ _ _
  have hempty : b.avail k = 0 := by
    by_contra hne
    obtain ⟨hlowk, havk, hkval⟩ := hL.mem (hL.first_mem hne)
    have hlt := hbelow _ hlowk havk
    omega
  have hold : ∀ j, b.low ≤ j → j ≠ i → ((b.noted i k).putOn k i).at j = b.at j := by
    intro j hj hji
    rw [hat hj, if_neg hji, if_neg]
    rw [hempty]
    exact fun hc => hc.2 hc.1
  have hnew : ((b.noted i k).putOn k i).at i = { avail := true, kval := k, next := 0, prev := 0 } := by
    rw [hat hlow, if_pos rfl, hempty]
  have hsmall : Below ((b.noted i k).putOn k i) (k + 1) := by
    intro j hj hav
    rw [hlow'] at hj
    by_cases hji : j = i
    · rw [hji, hnew]
      exact Nat.lt_succ_self k
    · rw [hold j hj hji] at hav ⊢
      exact Nat.lt_succ_of_lt (hbelow j hj hav)
  refine ⟨⟨fun j hj hav => ?_, fun j hj hav hlt => ?_, fun j hj hav hlt hend => ?_⟩, hsmall⟩
  · rw [hlow'] at hj
    by_cases hji : j = i
    · rw [hji, hnew]
    · rw [hold j hj hji] at hav ⊢
      exact Nat.le_trans (h.fits j hj hav) (Nat.le_add_right _ _)
  · rw [hlow'] at hj
    by_cases hji : j = i
    · rw [hji, hnew, avail_putOn, update_self]
      exact ⟨rfl, rfl, rfl⟩
    · rw [hold j hj hji] at hav hlt ⊢
      have hbel := hbelow j hj hav
      rw [avail_putOn, update_of_ne (by omega)]
      exact h.alone j hj hav hlt
  · rw [hlow'] at hj
    by_cases hji : j = i
    · intro j' hj' hav'
      rw [hji, hnew]
      exact Nat.le_of_lt_succ (hsmall j' hj' hav')
    · rw [hold j hj hji] at hav hend
      have hfit := h.fits j hj hav
      omega

/-- The entries once block `i` has been joined with the lone block `p` before it. -/
theorem at_merge_lone (hL : Lists b L) (hp : b.low ≤ p) (hlt : p < i)
    (hbuddy : b.buddy i = p) (hprev : (b.at p).prev = 0) (hnext : (b.at p).next = 0) (hj : b.low ≤ j) :
    (b.merge i).1.at j =
      if j = p then { avail := false, kval := (b.at p).kval + 1, next := 0, prev := 0 } else b.at j := by
  have hmin : min p i = p := Nat.min_eq_left (Nat.le_of_lt hlt)
  have hlow' : (b.takeOff p).low = b.low := low_takeOff b p
  have hmerge : (b.merge i).1 =
      (b.takeOff p).set ((b.takeOff p).block p) fun l => { l with kval := l.kval + 1 } := by
    unfold Bal.merge
    simp only [hbuddy, hmin]
  have htake : ∀ x, b.low ≤ x → (b.takeOff p).at x =
      if x = p then { avail := false, kval := (b.at p).kval, next := 0, prev := 0 } else b.at x := by
    intro x hx
    rw [at_takeOff hL.sane hp hx, hprev, hnext]
    by_cases hxp : x = p
    · rw [if_pos hxp, if_pos hxp, if_pos hxp, if_pos hxp, hxp]
    · simp only [if_neg hxp, ne_eq, not_true_eq_false, false_and, if_false]
  rw [hmerge, at_set (by rw [hlow']; exact hp) (by rw [hlow']; exact hj), htake p hp, htake j hj]
  by_cases hjp : j = p
  · rw [if_pos hjp, if_pos hjp, if_pos rfl]
  · rw [if_neg hjp, if_neg hjp, if_neg hjp]

/-- A block of the size of the last one is joined with it, if they are buddies, and then with no other. -/
theorem Young.join (h : Young b n i) (hL : Lists b L) (hlow : b.low ≤ i)
    (hzero : ∀ j, b.low ≤ j → (b.at j).avail = true → j ≠ 0)
    (hused : (b.at i).avail = false) (hk : bkmin ≤ k) (hn : k < n)
    (hstop : (b.noted i k).stops i = false) :
    let m := (b.noted i k).merge i
    Whole s (b.noted i k) ((b.noted i k).buddy i) ∧ (m.1.at m.2).kval = k + 1 ∧ m.1.stops m.2 = true ∧
      Young (m.1.putOn (m.1.at m.2).kval m.2) k (i + units k) := by
  intro m
  have hpos := units_pos hk
  have hL₁ : Lists (b.noted i k) L := hL.setKval hlow hused (fun _ => k)
  have hi : ((b.noted i k).at i).kval = k := by rw [Bal.noted, at_set hlow hlow, if_pos rfl]
  have hother : ∀ j, b.low ≤ j → j ≠ i → (b.noted i k).at j = b.at j := fun j hj hji => by
    rw [Bal.noted, at_set hlow hj, if_neg hji]
  have hiused : ((b.noted i k).at i).avail = false := by
    rw [Bal.noted, at_set hlow hlow, if_pos rfl]
    exact hused
  -- the buddy is the last block, and the largest
  obtain ⟨hmax, hpav, hpk⟩ := not_stops hstop
  rw [hi] at hpk
  have hcase := buddy_cases (b := b.noted i k) hlow
  rw [hi] at hcase
  generalize hbuddy : (b.noted i k).buddy i = p at hpav hpk hcase
  have hne : p ≠ i := fun heq => by
    rw [heq, hiused] at hpav
    cases hpav
  have hplow : b.low ≤ p := by
    rcases hcase with hc | hc
    · omega
    · exact hc.2
  rw [hother p hplow hne] at hpav hpk
  have hfit := h.fits p hplow hpav
  rw [hpk] at hfit
  have hlt : p < i := by omega
  have hend : p + units k = i := by omega
  obtain ⟨hprev, hhead, hnext⟩ := h.alone p hplow hpav (by omega)
  rw [hpk] at hhead
  have hlargest : ∀ j, b.low ≤ j → (b.at j).avail = true → (b.at j).kval ≤ k := by
    have hlast := h.last p hplow hpav (by omega) (by rw [hpk]; exact hend)
    rw [hpk] at hlast
    exact hlast
  have hat : ∀ j, b.low ≤ j → m.1.at j =
      if j = p then { avail := false, kval := k + 1, next := 0, prev := 0 } else (b.noted i k).at j := by
    intro j hj
    have hp := hother p hplow hne
    have hlone := at_merge_lone (b := b.noted i k) (i := i) hL₁ hplow hlt hbuddy (by rw [hp]; exact hprev)
      (by rw [hp]; exact hnext) hj
    rw [hp, hpk] at hlone
    exact hlone
  have hm : m.2 = p := by
    change min ((b.noted i k).buddy i) i = p
    rw [hbuddy]
    exact Nat.min_eq_left (Nat.le_of_lt hlt)
  have hmlow : m.1.low = b.low := by
    change ((b.noted i k).merge i).1.low = b.low
    unfold Bal.merge
    simp only [low_set, low_takeOff]
    exact low_noted b i k
  have hkval : (m.1.at p).kval = k + 1 := by rw [hat p hplow, if_pos rfl]
  -- what was there before is as it was
  have hold : ∀ j, b.low ≤ j → j ≠ p → (m.1.at j).avail = true → m.1.at j = b.at j ∧ j ≠ i := by
    intro j hj hjp hav
    rw [hat j hj, if_neg hjp] at hav ⊢
    have hji : j ≠ i := fun heq => by
      rw [heq, hiused] at hav
      cases hav
    exact ⟨hother j hj hji, hji⟩
  have hstops : m.1.stops p = true := by
    by_contra hgo
    obtain ⟨-, hqav, hqk⟩ := not_stops (Bool.eq_false_iff.mpr hgo)
    have hqlow : b.low ≤ m.1.buddy p := by
      have hq := buddy_cases (b := m.1) (i := p) (by rw [hmlow]; exact hplow)
      rw [hmlow] at hq
      omega
    have hqp : m.1.buddy p ≠ p := fun heq => by
      rw [heq, hat p hplow, if_pos rfl] at hqav
      cases hqav
    obtain ⟨hsame, -⟩ := hold _ hqlow hqp hqav
    rw [hsame] at hqav hqk
    have hle := hlargest _ hqlow hqav
    omega
  have havail : m.1.avail = update b.avail k 0 := by
    change ((b.noted i k).merge i).1.avail = _
    unfold Bal.merge
    simp only [avail_set]
    rw [hbuddy, avail_takeOff, hother p hplow hne, if_neg (by rw [hprev]; exact fun hc => hc rfl), hpk]
    rfl
  have hempty : m.1.avail (k + 1) = 0 := by
    rw [havail, update_of_ne (Nat.succ_ne_self k)]
    by_contra hno
    obtain ⟨hlowk, havk, hkval'⟩ := hL.mem (hL.first_mem hno)
    have hle := hlargest _ hlowk havk
    omega
  have hsane : m.1.Sane := by
    refine ⟨fun j hj => ?_, fun j hj => ?_, fun j => ?_⟩
    · rw [hmlow] at hj ⊢
      rw [hat j hj]
      split
      · exact .inl rfl
      · exact hL₁.sane.next j hj
    · rw [hmlow] at hj ⊢
      rw [hat j hj]
      split
      · exact .inl rfl
      · exact hL₁.sane.prev j hj
    · rw [hmlow, havail]
      by_cases hjk : j = k
      · rw [hjk, update_self]
        exact .inl rfl
      · rw [update_of_ne hjk]
        exact hL.sane.avail j
  refine ⟨⟨.inr (.inl ?_), .inr ⟨?_, ?_⟩⟩, by rw [hm, hkval], by rw [hm]; exact hstops, ?_⟩
  · rw [hother p hplow hne]
    exact hprev
  · rw [hother p hplow hne, hpk]
    exact hhead
  · rw [hother p hplow hne]
    exact hnext
  rw [hm, hkval]
  have hput : ∀ j, b.low ≤ j → (m.1.putOn (k + 1) p).at j =
      if j = p then { avail := true, kval := k + 1, next := 0, prev := 0 } else m.1.at j := by
    intro j hj
    rw [at_putOn hsane (by rw [hmlow]; exact hplow) (by rw [hempty]; exact (hzero p hplow hpav).symm)
      (by rw [hmlow]; exact hj), hempty]
    by_cases hjp : j = p
    · rw [if_pos hjp, if_pos hjp]
    · rw [if_neg hjp, if_neg hjp, if_neg fun hc => hc.2 hc.1]
  have hlow' : (m.1.putOn (k + 1) p).low = b.low := (low_putOn _ _ _).trans hmlow
  have hsucc := units_succ hk
  refine ⟨fun j hj hav => ?_, fun j hj hav hlt' => ?_, fun j hj hav hlt' hend' => ?_⟩
  · rw [hlow'] at hj
    by_cases hjp : j = p
    · rw [hjp, hput p hplow, if_pos rfl]
      dsimp only
      omega
    · rw [hput j hj, if_neg hjp] at hav ⊢
      obtain ⟨hsame, -⟩ := hold j hj hjp hav
      rw [hsame] at hav ⊢
      exact Nat.le_trans (h.fits j hj hav) (Nat.le_add_right _ _)
  · rw [hlow'] at hj
    have hjp : j ≠ p := fun heq => by
      rw [heq, hput p hplow, if_pos rfl] at hlt'
      dsimp only at hlt'
      omega
    rw [hput j hj, if_neg hjp] at hav hlt' ⊢
    obtain ⟨hsame, -⟩ := hold j hj hjp hav
    rw [hsame] at hav hlt' ⊢
    rw [avail_putOn, update_of_ne (by omega), havail, update_of_ne (by omega)]
    exact h.alone j hj hav (by omega)
  · rw [hlow'] at hj
    have hjp : j ≠ p := fun heq => by
      rw [heq, hput p hplow, if_pos rfl] at hlt'
      dsimp only at hlt'
      omega
    rw [hput j hj, if_neg hjp] at hav hend'
    obtain ⟨hsame, -⟩ := hold j hj hjp hav
    rw [hsame] at hav hend'
    have hfit' := h.fits j hj hav
    omega

/-- A range that is being filled from unit `s` on, up to unit `m`. -/
structure Filling (b : Bal) (s n m : Nat) : Prop where
  inv : ∃ L, Inv (b.memory = 0) True b (fun x => s ≤ x ∧ x < m) (fun _ => false) L
  young : Young b n m
  start : b.low ≤ s ∧ s ≤ m ∧ s ≠ 0

theorem Filling.mono (h : Filling b s n m) (hle : j ≤ n) : Filling b s j m :=
  ⟨h.inv, h.young.mono hle, h.start⟩

/-- What a plop that keeps the blocks young leaves. -/
structure Plopped (b b' : Bal) (s n m k : Nat) : Prop where
  run : b.plop (bminsz * m) k = some b'
  ok : plopOk (Whole b.memory) b m k
  filling : Filling b' s n (m + units k)
  memory : b'.memory = b.memory

theorem Filling.used (h : Filling b s n m) : b.low ≤ m ∧ m ≠ 0 ∧ (b.at m).avail = false := by
  obtain ⟨L, hinv⟩ := h.inv
  obtain ⟨hlow, hle, hs⟩ := h.start
  refine ⟨by omega, by omega, (hinv.good.used_of_uncovered (by omega) fun hc => ?_).1⟩
  have hgiven := hinv.good.within hc
  omega

theorem Filling.plopped (h : Filling b s n m) (hk : bkmin ≤ k ∧ k ≤ bkmax)
    (hrun : b.plop (bminsz * m) k = some b') (hok : plopOk (Whole b.memory) b m k)
    (hyoung : Young b' j (m + units k)) : Plopped b b' s j m k := by
  obtain ⟨L, hinv⟩ := h.inv
  obtain ⟨hlow, hle, hs⟩ := h.start
  have hmerge : plopOk (MergeOk (b.memory = 0) True) b m k := fun hne => (hok hne).mono whole_mergeOk
  obtain ⟨b₁, L', hrun', hinv', hkept, -⟩ := hinv.plop (by omega) hk
    (fun x hx hx' hc => by omega) hmerge
  rw [hrun] at hrun'
  cases hrun'
  have hmem : b'.memory = b.memory := congrArg (fun r => r.2.2.2) hkept.range
  refine ⟨hrun, hok, ⟨⟨L', ?_⟩, hyoung, ?_, by omega, hs⟩, hmem⟩
  · rw [hmem]
    refine hinv'.congr fun x => ?_
    unfold givenWith
    have hpos := units_pos hk.1
    omega
  · rw [low_of_range hkept.range]
    exact hlow

theorem noted_kval (hlow : b.low ≤ m) : ((b.noted m k).at m).kval = k := by
  rw [Bal.noted, at_set hlow hlow, if_pos rfl]

theorem plop_eq (hm : m ≠ 0) : b.plop (bminsz * m) k = (b.noted m k).liberate (bkmax + 1) m := by
  have hindex : index (bminsz * m) = m := Nat.mul_div_cancel_left m bminsz_pos
  unfold Bal.plop Bal.xphysfree
  rw [hindex, if_neg (Nat.mul_ne_zero (Nat.ne_of_gt bminsz_pos) hm)]
  rfl

/-- The block is put on its list at once. -/
theorem plop_stops (hlow : b.low ≤ m) (hm : m ≠ 0) (hk : bkmin ≤ k) (hstop : (b.noted m k).stops m = true) :
    b.plop (bminsz * m) k = some ((b.noted m k).putOn k m) ∧ plopOk (Whole s) b m k := by
  have hpos := units_pos hk
  refine ⟨?_, fun _ => .inl hstop⟩
  rw [plop_eq hm, Bal.liberate, noted_kval hlow, if_neg (by omega), if_pos hstop]

/-- The block is put on its list after one merge. -/
theorem plop_joins (hlow : b.low ≤ m) (hm : m ≠ 0) (hk : bkmin ≤ k) (hgo : (b.noted m k).stops m = false)
    (hok : Whole s (b.noted m k) ((b.noted m k).buddy m))
    (hkval : (((b.noted m k).merge m).1.at ((b.noted m k).merge m).2).kval = k + 1)
    (hstop : ((b.noted m k).merge m).1.stops ((b.noted m k).merge m).2 = true) :
    b.plop (bminsz * m) k = some (((b.noted m k).merge m).1.putOn
        (((b.noted m k).merge m).1.at ((b.noted m k).merge m).2).kval ((b.noted m k).merge m).2) ∧
      plopOk (Whole s) b m k := by
  have hpos := units_pos hk
  refine ⟨?_, fun _ => .inr ⟨hok, .inl hstop⟩⟩
  have hpos' := units_pos (k := k + 1) (by omega)
  rw [plop_eq hm, Bal.liberate, noted_kval hlow, if_neg (by omega), hgo, if_neg Bool.false_ne_true]
  change Bal.liberate (29 + 1) _ _ = _
  rw [Bal.liberate, hkval, if_neg (by omega), if_pos hstop]

/-- A block larger than all before it. -/
theorem Filling.above (h : Filling b s n m) (hk : bkmin ≤ k ∧ k ≤ bkmax) (hbelow : Below b k) :
    ∃ b', Plopped b b' s n m k ∧ Below b' (k + 1) := by
  obtain ⟨L, hinv⟩ := h.inv
  obtain ⟨hlow, hm, hused⟩ := h.used
  have hstop : (b.noted m k).stops m = true := by
    by_contra hgo
    obtain ⟨-, hpav, hpk⟩ := not_stops (Bool.eq_false_iff.mpr hgo)
    rw [noted_kval hlow] at hpk
    have hplow : b.low ≤ (b.noted m k).buddy m := by
      have hcase := buddy_cases (b := b.noted m k) (i := m) hlow
      rw [low_noted] at hcase
      omega
    obtain ⟨hav, hkval⟩ := noted_fields (k := k) hlow hplow
    rw [hav] at hpav
    have hpm : (b.noted m k).buddy m ≠ m := fun heq => by
      rw [heq, hused] at hpav
      cases hpav
    rw [hkval, if_neg hpm] at hpk
    have hlt := hbelow _ hplow hpav
    omega
  obtain ⟨hrun, hok⟩ := plop_stops hlow hm hk.1 hstop
  obtain ⟨hyoung, hsmall⟩ := h.young.put_above hinv.good.lists hbelow hlow hm hused hk.1
  exact ⟨_, h.plopped hk hrun hok hyoung, hsmall⟩

/-- A block of the largest size. -/
theorem Filling.top (h : Filling b s n m) (hn : n ≤ bkmax) : ∃ b', Plopped b b' s n m bkmax := by
  obtain ⟨L, hinv⟩ := h.inv
  obtain ⟨hlow, hm, hused⟩ := h.used
  have hk : bkmin ≤ bkmax ∧ bkmax ≤ bkmax := ⟨by decide, Nat.le_refl _⟩
  have hstop : (b.noted m bkmax).stops m = true := by
    by_contra hgo
    exact (not_stops (Bool.eq_false_iff.mpr hgo)).1 (noted_kval hlow)
  obtain ⟨hrun, hok⟩ := plop_stops hlow hm hk.1 hstop
  exact ⟨_, h.plopped hk hrun hok (h.young.put hinv.good.lists hlow hm hused hk.1 hn)⟩

/-- A block smaller than those that are watched. -/
theorem Filling.smaller (h : Filling b s n m) (hk : bkmin ≤ k ∧ k ≤ bkmax) (hn : k < n) :
    ∃ b', Plopped b b' s k m k := by
  obtain ⟨L, hinv⟩ := h.inv
  obtain ⟨hlow, hm, hused⟩ := h.used
  cases hstop : (b.noted m k).stops m with
  | true =>
    obtain ⟨hrun, hok⟩ := plop_stops hlow hm hk.1 hstop
    have hyoung := (h.young.mono (Nat.le_of_lt hn)).put hinv.good.lists hlow hm hused hk.1 (Nat.le_refl k)
    exact ⟨_, h.plopped hk hrun hok hyoung⟩
  | false =>
    have hzero : ∀ j, b.low ≤ j → (b.at j).avail = true → j ≠ 0 := fun j hj hav =>
      (hinv.good.kvals hj (.inl hav)).1
    obtain ⟨hwhole, hkval, hstop', hyoung⟩ := h.young.join hinv.good.lists hlow hzero hused hk.1 hn hstop
    obtain ⟨hrun, hok⟩ := plop_joins hlow hm hk.1 hstop hwhole hkval hstop'
    exact ⟨_, h.plopped hk hrun hok hyoung⟩

/-- What a sequence of plops leaves, no merge of which loses part of a list. -/
structure Filled (b b' : Bal) (l : List (Nat × Nat)) : Prop where
  run : b.plops l = some b'
  ok : plopsOk (Whole b.memory) b l
  memory : b'.memory = b.memory

variable {b₁ : Bal} {l r : List (Nat × Nat)}

theorem Plopped.cons (h : Plopped b b₁ s n m k) (hl : Filled b₁ b' l) :
    Filled b b' ((bminsz * m, k) :: l) := by
  have hindex : index (bminsz * m) = m := Nat.mul_div_cancel_left m bminsz_pos
  refine ⟨?_, ⟨?_, fun b₂ hrun => ?_⟩, hl.memory.trans h.memory⟩
  · rw [Bal.plops, h.run]
    exact hl.run
  · rw [hindex]
    exact h.ok
  · rw [h.run] at hrun
    cases hrun
    rw [← h.memory]
    exact hl.ok

theorem plops_append (b : Bal) (l r : List (Nat × Nat)) :
    b.plops (l ++ r) = (b.plops l).bind fun b₁ => b₁.plops r := by
  induction l generalizing b with
  | nil => rfl
  | cons c l ih =>
    obtain ⟨a, k⟩ := c
    change (b.plop a k).bind (fun b₁ => b₁.plops (l ++ r)) =
      ((b.plop a k).bind fun b₁ => b₁.plops l).bind fun b₁ => b₁.plops r
    rw [Option.bind_assoc]
    exact congrArg _ (funext fun b₁ => ih b₁)

theorem plopsOk.append {ok : Bal → Nat → Prop} (hl : plopsOk ok b l)
    (hr : ∀ b₁, b.plops l = some b₁ → plopsOk ok b₁ r) : plopsOk ok b (l ++ r) := by
  induction l generalizing b with
  | nil => exact hr b rfl
  | cons c l ih =>
    obtain ⟨a, k⟩ := c
    refine ⟨hl.1, fun b₁ hplop => ih (hl.2 b₁ hplop) fun b₂ hrun => hr b₂ ?_⟩
    rw [Bal.plops, hplop]
    exact hrun

theorem Filled.append (hl : Filled b b₁ l) (hr : Filled b₁ b' r) : Filled b b' (l ++ r) := by
  refine ⟨?_, hl.ok.append fun b₂ hrun => ?_, hr.memory.trans hl.memory⟩
  · rw [plops_append, hl.run]
    exact hr.run
  · rw [hl.run] at hrun
    cases hrun
    rw [← hl.memory]
    exact hr.ok

/-- The first loop: every block is larger than those before it. -/
theorem Filling.head (h : Filling b s (bkmax + 1) m) (hbelow : Below b k) (hk : bkmin ≤ k)
    (hn : n + k = bkmax) :
    ∃ b' m', Filled b b' (headChunks e n (bminsz * m) k).1 ∧
      (headChunks e n (bminsz * m) k).2.1 = bminsz * m' ∧ Filling b' s (bkmax + 1) m' ∧
      Below b' (headChunks e n (bminsz * m) k).2.2 ∧
      ((headChunks e n (bminsz * m) k).2.2 < bkmax →
        e ≤ (headChunks e n (bminsz * m) k).2.1 + 2 ^ (headChunks e n (bminsz * m) k).2.2) := by
  induction n generalizing b m k with
  | zero =>
    refine ⟨b, m, ⟨rfl, trivial, rfl⟩, rfl, h, hbelow, fun hlt => ?_⟩
    change k < bkmax at hlt
    omega
  | succ n ih =>
    rw [headChunks]
    by_cases hlt : bminsz * m + 2 ^ k < e
    · rw [if_pos hlt]
      by_cases hbit : bminsz * m &&& 2 ^ k ≠ 0
      · rw [if_pos hbit]
        obtain ⟨b₁, hplop, hsmall⟩ := h.above ⟨hk, by omega⟩ hbelow
        rw [← units_mul hk, ← Nat.mul_add]
        obtain ⟨b', m', hfill, hrest⟩ := ih hplop.filling hsmall (by omega) (by omega)
        exact ⟨b', m', hplop.cons hfill, hrest⟩
      · rw [if_neg hbit]
        exact ih h (fun j hj hav => Nat.lt_succ_of_lt (hbelow j hj hav)) (by omega) (by omega)
    · rw [if_neg hlt]
      exact ⟨b, m, ⟨rfl, trivial, rfl⟩, rfl, h, hbelow, fun _ => Nat.le_of_not_lt hlt⟩

/-- The second loop with blocks of the largest size. -/
theorem Filling.body_top (h : Filling b s bkmax m) :
    ∃ b' m', Filled b b' (bodyChunks e bkmax n (bminsz * m)).1 ∧
      (bodyChunks e bkmax n (bminsz * m)).2 = bminsz * m' ∧ Filling b' s bkmax m' := by
  induction n generalizing b m with
  | zero => exact ⟨b, m, ⟨rfl, trivial, rfl⟩, rfl, h⟩
  | succ n ih =>
    rw [bodyChunks]
    by_cases hle : bminsz * m + 2 ^ bkmax ≤ e
    · rw [if_pos hle]
      obtain ⟨b₁, hplop⟩ := h.top (Nat.le_refl _)
      rw [← units_mul (k := bkmax) (by decide), ← Nat.mul_add]
      obtain ⟨b', m', hfill, hrest⟩ := ih hplop.filling
      exact ⟨b', m', hplop.cons hfill, hrest⟩
    · rw [if_neg hle]
      exact ⟨b, m, ⟨rfl, trivial, rfl⟩, rfl, h⟩

/-- The second loop with the block that is the last one, if there is one. -/
theorem Filling.body_last (h : Filling b s (bkmax + 1) m) (hbelow : Below b k) (hk : bkmin ≤ k ∧ k < bkmax)
    (hend : e ≤ bminsz * m + 2 ^ k) :
    ∃ b' m', Filled b b' (bodyChunks e k n (bminsz * m)).1 ∧
      (bodyChunks e k n (bminsz * m)).2 = bminsz * m' ∧ Filling b' s k m' := by
  have hnone : ∀ n, bodyChunks e k n (bminsz * m + 2 ^ k) = ([], bminsz * m + 2 ^ k) := fun n => by
    have hpow := Nat.two_pow_pos k
    cases n with
    | zero => rfl
    | succ n => rw [bodyChunks, if_neg (by omega)]
  cases n with
  | zero => exact ⟨b, m, ⟨rfl, trivial, rfl⟩, rfl, h.mono (by omega)⟩
  | succ n =>
    rw [bodyChunks, hnone]
    by_cases hle : bminsz * m + 2 ^ k ≤ e
    · rw [if_pos hle]
      obtain ⟨b₁, hplop, -⟩ := h.above ⟨hk.1, Nat.le_of_lt hk.2⟩ hbelow
      refine ⟨b₁, m + units k, hplop.cons ⟨rfl, trivial, rfl⟩, ?_, hplop.filling.mono (by omega)⟩
      rw [Nat.mul_add, units_mul hk.1]
    · rw [if_neg hle]
      exact ⟨b, m, ⟨rfl, trivial, rfl⟩, rfl, h.mono (by omega)⟩

/-- The last loop: every block is smaller than the one before it. -/
theorem Filling.tail (h : Filling b s n m) (hn : n ≤ bkmax + 1)
    (hcons : Consecutive (bminsz * m) (tailChunks e n (bminsz * m)) a) :
    ∃ b', Filled b b' (tailChunks e n (bminsz * m)) := by
  induction n generalizing b m with
  | zero => exact ⟨b, rfl, trivial, rfl⟩
  | succ n ih =>
    rw [tailChunks] at hcons ⊢
    by_cases hlt : bminsz * m < e
    · rw [if_pos hlt] at hcons ⊢
      by_cases hle : bminsz * m + 2 ^ n ≤ e
      · rw [if_pos hle] at hcons ⊢
        obtain ⟨-, hkmin, hkmax, hcons⟩ := hcons
        obtain ⟨b₁, hplop⟩ := h.smaller ⟨hkmin, hkmax⟩ (Nat.lt_succ_self n)
        dsimp only at hkmin hcons
        rw [← units_mul hkmin, ← Nat.mul_add] at hcons ⊢
        obtain ⟨b', hfill⟩ := ih hplop.filling (by omega) hcons
        exact ⟨b', hplop.cons hfill⟩
      · rw [if_neg hle] at hcons ⊢
        exact ih (h.mono (Nat.le_succ n)) (by omega) hcons
    · rw [if_neg hlt]
      exact ⟨b, rfl, trivial, rfl⟩

/-- All three loops. -/
theorem Filling.loops (h : Filling b s (bkmax + 1) m) (hnine : n + bkmin = bkmax) (hbelow : Below b bkmin)
    (hle : bminsz * m ≤ e) (hdvd : bminsz ∣ e) :
    let r := headChunks e n (bminsz * m) bkmin
    let t := bodyChunks e r.2.2 (e / 2 ^ r.2.2) r.2.1
    ∃ b', Filled b b' (r.1 ++ t.1 ++ tailChunks e r.2.2 t.2) := by
  intro r t
  obtain ⟨-, hle₁, hk⟩ := headChunks_spec (Nat.le_refl bkmin) hnine hle
  obtain ⟨b₁, m₁, hfill₁, hm₁, hfilling₁, hbelow₁, hexit⟩ :=
    @Filling.head b e bkmin m n s h hbelow (Nat.le_refl _) hnine
  change r.2.1 ≤ e at hle₁
  change bkmin ≤ r.2.2 ∧ r.2.2 ≤ bkmax at hk
  change r.2.1 = bminsz * m₁ at hm₁
  change Below b₁ r.2.2 at hbelow₁
  change r.2.2 < bkmax → e ≤ r.2.1 + 2 ^ r.2.2 at hexit
  have hfuel : e < r.2.1 + (e / 2 ^ r.2.2 + 1) * 2 ^ r.2.2 := by
    have hdiv := Nat.lt_div_mul_add (a := e) (b := 2 ^ r.2.2) (Nat.two_pow_pos _)
    rw [Nat.add_mul, Nat.one_mul]
    omega
  obtain ⟨-, hle₂, hlt₂⟩ := bodyChunks_spec hk hle₁ hfuel
  have hbody : ∃ b₂ m₂, Filled b₁ b₂ t.1 ∧ t.2 = bminsz * m₂ ∧ Filling b₂ s r.2.2 m₂ := by
    change ∃ b₂ m₂, Filled b₁ b₂ (bodyChunks e r.2.2 (e / 2 ^ r.2.2) r.2.1).1 ∧
      (bodyChunks e r.2.2 (e / 2 ^ r.2.2) r.2.1).2 = bminsz * m₂ ∧ Filling b₂ s r.2.2 m₂
    rw [hm₁]
    by_cases hmax : r.2.2 = bkmax
    · rw [hmax]
      exact (hfilling₁.mono (Nat.le_succ _)).body_top
    · have hlt : r.2.2 < bkmax := Nat.lt_of_le_of_ne hk.2 hmax
      exact hfilling₁.body_last hbelow₁ ⟨hk.1, hlt⟩ (hm₁ ▸ hexit hlt)
  obtain ⟨b₂, m₂, hfill₂, hm₂, hfilling₂⟩ := hbody
  change t.2 ≤ e at hle₂
  change e < t.2 + 2 ^ r.2.2 at hlt₂
  rw [hm₂] at hle₂ hlt₂ ⊢
  have hcons := tailChunks_spec (Nat.le_succ_of_le hk.2) hle₂ hlt₂ (Nat.dvd_mul_right _ _) hdvd
  obtain ⟨b', hfill₃⟩ := hfilling₂.tail (Nat.le_succ_of_le hk.2) hcons
  exact ⟨b', (hfill₁.append hfill₂).append hfill₃⟩

/-- **No merge loses part of a list** when a table is filled for the first time: no block was given before. -/
theorem Owned.plopsOk_first {pmstart addr len : Nat} {live : List Live} (h : Owned pmstart True b [] live)
    (hmem : b.memory = pmstart) (hlow : b.low ≤ firstUnit addr) (hne : firstUnit addr ≠ 0) :
    plopsOk (Whole pmstart) b (chunks addr (addr + len)) := by
  obtain ⟨L, hinv⟩ := h.inv
  have hcovers : ∀ x, ¬Covers (b.tiles (heldBy live)) x := fun x hc => by
    obtain ⟨r, hr, -⟩ := hinv.good.within hc
    cases hr
  have hnone : ∀ j, b.low ≤ j → (b.at j).avail = false ∧ heldBy live j = false := fun j hj =>
    hinv.good.used_of_uncovered hj (hcovers j)
  have hheld : heldBy live = fun _ => false := funext fun j => by
    cases hj : heldBy live j with
    | false => rfl
    | true =>
      have hlowj := (hinv.good.used hj).1
      rw [(hnone j hlowj).2] at hj
      cases hj
  have hgiven : ∀ x, givenBy [] x ↔ firstUnit addr ≤ x ∧ x < firstUnit addr := fun x => by
    refine iff_of_false ?_ (by omega)
    rintro ⟨r, hr, -⟩
    cases hr
  have hbelow : ∀ k, Below b k := fun k j hj hav => by
    rw [(hnone j hj).1] at hav
    cases hav
  have hfilling : Filling b (firstUnit addr) (bkmax + 1) (firstUnit addr) := by
    have hinv' := hinv.congr hgiven
    rw [hheld] at hinv'
    rw [← hmem] at hinv'
    refine ⟨⟨L, hinv'⟩, ⟨fun j hj hav => ?_, fun j hj hav => ?_, fun j hj hav => ?_⟩, hlow,
      Nat.le_refl _, hne⟩
    all_goals
      rw [(hnone j hj).1] at hav
      cases hav
  rw [← hmem]
  by_cases hlt : lastUnit (addr + len) < firstUnit addr
  · rw [(chunks_spec addr (addr + len)).2 hlt]
    trivial
  have hle : firstUnit addr * bminsz ≤ lastUnit (addr + len) * bminsz := Nat.mul_le_mul_right _ (by omega)
  rw [Nat.mul_comm (firstUnit addr)] at hle
  have hnine : bkmax - bkmin + bkmin = bkmax := by decide
  obtain ⟨b', hfill⟩ := hfilling.loops hnine (hbelow bkmin) hle (Nat.dvd_mul_left _ _)
  have hchunks := hfill.ok
  rw [Nat.mul_comm bminsz (firstUnit addr)] at hchunks
  exact hchunks

end Physalloc
