import NixKernel.MmuPut
import NixKernel.StepSystem
import NixKernel.Tally

/-!
# Processors and their processes

Whatever steps the processors take, the entries of the users in the pml4 of a processor are tables of
the process that runs there and lie below the mark.  It is `procsave` that this rests on: what a switch
clears ends at the mark, and a switch to a process that must flush takes the mark away.
-/

namespace Mmu

open Function StepSystem List Option

variable {s t : Sys} {m p q x k va pa pgsz attr : Nat} {f : Frame} {e : Pte}

theorem at_lt (h : s.at m = some p) : m < s.proc.length := Tally.lt_of_getD_ne (by
  change s.at m ≠ none
  rw [h]
  exact some_ne_none p)

theorem run_at (h : m < s.proc.length) (r : Option Nat) (j : Nat) :
    (run s m r).at j = if j = m then r else s.at j := Tally.getD_set h r j

theorem run_same {r : Option Nat} (h : s.at m = r) (hm : m < s.proc.length) : run s m r = s := by
  have hset : s.proc.set m r = s.proc := by
    refine ext_getElem? fun j => ?_
    rw [List.getElem?_set]
    split
    next hj =>
      subst hj
      rw [← h, Sys.at, Tally.getD_lt hm, List.getElem?_eq_getElem hm]
    next => rfl
  rw [run, hset]

theorem elsewhere_at (h : elsewhere s m p = false) (j : Nat) (hj : j ≠ m) : s.at j ≠ some p := by
  intro hat
  have hlt := at_lt hat
  have hget : (s.proc.set m none).getD j none = some p := by
    have hset : (s.proc.set m none).getD j none = s.proc.getD j none := by
      by_cases hm : m < s.proc.length
      · rw [Tally.getD_set hm, if_neg hj]
      · rw [set_eq_of_length_le (Nat.le_of_not_lt hm)]
    rw [hset]
    exact hat
  have hmem : some p ∈ s.proc.set m none := by
    have hlen : j < (s.proc.set m none).length := by rwa [length_set]
    rw [Tally.getD_lt hlen] at hget
    rw [← hget]
    exact getElem_mem hlen
  rw [elsewhere, List.any_eq_false] at h
  exact h _ hmem (beq_self_eq_true _)

/-- Nothing hangs in `k` but tables. -/
def Tables (s : Sys) (k : Nat) : Prop := ∀ x f, s.mem (.tab k) x = .table f → ∃ j, f = .tab j

/-- What holds of the tables between the steps. -/
structure Inv (s : Sys) : Prop where
  apart : Apart s
  one : ∀ m j p, s.at m = some p → s.at j = some p → m = j
  inj : ∀ p, ∀ k ∈ s.mmuptp p 3, ∀ j ∈ s.mmuptp p 3, s.daddr k = s.daddr j → k = j
  own : ∀ m x, x < Nuser → s.mem (.pml4 m) x ≠ .zero → ∃ p k, s.at m = some p ∧ k ∈ s.mmuptp p 3 ∧ s.daddr k = x ∧
    s.mem (.pml4 m) x = .table (.tab k)
  full : ∀ m p k, s.at m = some p → k ∈ s.mmuptp p 3 →
    s.mem (.pml4 m) (s.daddr k) = .zero ∨ s.mem (.pml4 m) (s.daddr k) = .table (.tab k)
  here : ∀ m p k, s.at m = some p → k ∈ s.mmuptp p 3 → s.prev k = .pml4 m ∧ s.daddr k < s.high m
  above : ∀ p, ∀ j ∈ s.mmuptp p 2, ∃ k ∈ s.mmuptp p 3, s.prev j = .tab k
  inner : ∀ p l k, k ∈ s.mmuptp p l → Tables s k ∧ ∀ x j, s.mem (.tab k) x = .table (.tab j) → Tables s j

theorem Tables.mono (h : Tables s k) (hkeep : ∀ x, t.mem (.tab k) x = s.mem (.tab k) x ∨
    ∀ f, t.mem (.tab k) x = .table f → ∃ j, f = .tab j) : Tables t k := by
  intro x f hf
  rcases hkeep x with hsame | hnew
  · exact h x f (hsame ▸ hf)
  · exact hnew f hf

/-- Where entries are only cleared, what hangs in the tables is as before. -/
theorem Inv.inner_less (h : Inv s) (hlists : ∀ q l k, k ∈ t.mmuptp q l → ∃ j, k ∈ s.mmuptp q j)
    (hless : ∀ k x, t.mem (.tab k) x = .zero ∨ t.mem (.tab k) x = s.mem (.tab k) x) (q l k : Nat)
    (hk : k ∈ t.mmuptp q l) : Tables t k ∧ ∀ x j, t.mem (.tab k) x = .table (.tab j) → Tables t j := by
  have hkeep : ∀ i, Tables s i → Tables t i := fun i hi => hi.mono fun x => (hless i x).symm.imp_right fun hz f hf => by
    rw [hz] at hf
    cases hf
  obtain ⟨l', hl⟩ := hlists q l k hk
  refine ⟨hkeep k (h.inner q l' k hl).1, fun x i hi => hkeep i ?_⟩
  rcases hless k x with hz | hsame
  · rw [hz] at hi
    cases hi
  · exact (h.inner q l' k hl).2 x i (hsame ▸ hi)

/-- Where `p` is on `m`, or nobody is, the entries are of `p`. -/
theorem Inv.mine (h : Inv s) (hat : s.at m = none ∨ s.at m = some p) : Own s m p := by
  intro x hx hne
  obtain ⟨q, k, hq, hk, hdaddr, hentry⟩ := h.own m x hx hne
  rcases hat with hat | hat
  · rw [hat] at hq
    cases hq
  · rw [hat] at hq
    cases hq
    obtain ⟨hprev, hlt⟩ := h.here m p k hat hk
    rw [hentry]
    exact ⟨rfl, hdaddr ▸ hlt, k, hk, hprev, hdaddr⟩

theorem kept_three (h : k ∈ kept s p 3) : k ∈ s.mmuptp p 3 := by
  rw [kept] at h
  split at h
  next => cases h
  next => exact h

theorem kept_mem {l : Nat} (h : k ∈ kept s p l) : ∃ j, k ∈ s.mmuptp p j := by
  rw [kept] at h
  split at h
  next =>
    rcases mem_freed h with ⟨-, hj⟩ | hl
    · exact hj
    · exact ⟨l, hl⟩
  next => exact ⟨l, h⟩

/-- **A switch keeps it.** -/
theorem Inv.mmuswitch (h : Inv s) (hm : m < s.proc.length) (helse : elsewhere s m p = false)
    (hat : s.at m = none ∨ s.at m = some p) :
    Inv (mmuswitch (run s m (some p)) m p) ∧ Switched (run s m (some p)) m p (mmuswitch (run s m (some p)) m p) := by
  have hsw : Switched (run s m (some p)) m p (Mmu.mmuswitch (run s m (some p)) m p) := mmuswitch_spec (h.inj p) (h.mine hat)
  refine ⟨?_, hsw⟩
  generalize Mmu.mmuswitch (run s m (some p)) m p = t at hsw ⊢
  obtain ⟨mem, high, prev, ht⟩ := hsw.frame
  have hproc : ∀ j, t.at j = if j = m then some p else s.at j := by
    intro j
    rw [← run_at hm, ht]
    rfl
  have hdaddr : t.daddr = s.daddr := by rw [ht]; rfl
  have hlist : t.mmuptp = update s.mmuptp p (kept (run s m (some p)) p) := by rw [ht]; rfl
  have hthree : ∀ q k, k ∈ t.mmuptp q 3 → k ∈ s.mmuptp q 3 := by
    intro q k hk
    rw [hlist, update_apply] at hk
    split at hk
    next hq =>
      rw [hq]
      exact kept_three hk
    next => exact hk
  have hany : ∀ q l k, k ∈ t.mmuptp q l → ∃ j, k ∈ s.mmuptp q j := by
    intro q l k hk
    rw [hlist, update_apply] at hk
    split at hk
    next hq =>
      rw [hq]
      exact kept_mem hk
    next => exact ⟨l, hk⟩
  have htwo : ∀ q, (t.mmuptp q 2 = s.mmuptp q 2 ∧ t.mmuptp q 3 = s.mmuptp q 3) ∨ t.mmuptp q 2 = [] := by
    intro q
    rw [hlist, update_apply]
    split
    next hq =>
      rw [kept, hq]
      split
      next => exact Or.inr rfl
      next => exact Or.inl ⟨rfl, rfl⟩
    next => exact Or.inl ⟨rfl, rfl⟩
  -- another process is on another processor, and its tables stay
  have hother : ∀ j q k, j ≠ m → s.at j = some q → k ∈ s.mmuptp q 3 →
      k ∈ t.mmuptp q 3 ∧ t.prev k = s.prev k ∧ t.high j = s.high j := by
    intro j q k hj hq hk
    have hqp : q ≠ p := fun heq => elsewhere_at helse j hj (heq ▸ hq)
    refine ⟨?_, hsw.prev k fun hin => ?_, hsw.high j hj⟩
    · rw [hlist, update_of_ne hqp]
      exact hk
    · exact hqp (h.apart.sep q 3 p 3 k hk (hthree p k hin)).1
  refine ⟨?_, fun i j q hi hj => ?_, fun q k hk j hj heq => ?_, fun j x hx hne => ?_, fun j q k hj hk => ?_,
    fun j q k hj hk => ?_, fun q j hj => ?_, h.inner_less hany fun k x => hsw.other (.tab k) x (by simp)⟩
  · have hfree : t.mmuptpfreelist = s.mmuptpfreelist := by rw [ht]; rfl
    have hmade : t.made = s.made := by rw [ht]; rfl
    cases hnew : s.newtlb p with
    | true =>
      refine h.apart.freed (p := p) (hlist.trans ?_) hfree hmade
      rw [kept, run, hnew, if_pos rfl]
    | false =>
      have hsame : t.mmuptp = s.mmuptp := by
        rw [hlist, kept, run, hnew, if_neg Bool.false_ne_true]
        exact update_eq_self p s.mmuptp
      exact ⟨hsame ▸ h.apart.nodup, hsame ▸ h.apart.sep, hfree ▸ h.apart.free, hsame ▸ hfree ▸ h.apart.unused,
        hsame ▸ hfree ▸ hmade ▸ h.apart.bound⟩
  · rw [hproc] at hi hj
    split at hi
    next him =>
      cases hi
      split at hj
      next hjm => rw [him, hjm]
      next hjm => exact absurd hj (elsewhere_at helse j hjm)
    next him =>
      split at hj
      next hjm =>
        cases hj
        exact absurd hi (elsewhere_at helse i him)
      next => exact h.one i j q hi hj
  · rw [hdaddr] at heq
    exact h.inj q k (hthree q k hk) j (hthree q j hj) heq
  · by_cases hjm : j = m
    · subst hjm
      obtain ⟨k, hk, hkx⟩ : ∃ k ∈ t.mmuptp p 3, s.daddr k = x := by
        by_contra hno
        exact hne (hsw.empty x hx fun k hk heq => hno ⟨k, hk, heq⟩)
      have hentry := (hsw.here k hk).1
      have hkx' : (run s j (some p)).daddr k = x := hkx
      rw [hkx'] at hentry
      exact ⟨p, k, by rw [hproc, if_pos rfl], hk, by rw [hdaddr, hkx], hentry⟩
    · have hsame : t.mem (.pml4 j) x = s.mem (.pml4 j) x :=
        (hsw.other (.pml4 j) x fun heq => hjm (Frame.pml4.inj heq)).resolve_left hne
      rw [hsame] at hne
      obtain ⟨q, k, hq, hk, hkx, hentry⟩ := h.own j x hx hne
      exact ⟨q, k, by rw [hproc, if_neg hjm, hq], (hother j q k hjm hq hk).1, by rw [hdaddr, hkx],
        by rw [hsame, hentry]⟩
  · rw [hproc] at hj
    rw [hdaddr]
    split at hj
    next hjm =>
      cases hj
      exact Or.inr (hjm ▸ (hsw.here k hk).1)
    next hjm =>
      have hold := h.full j q k hj (hthree q k hk)
      rcases hsw.other (.pml4 j) (s.daddr k) fun heq => hjm (Frame.pml4.inj heq) with hz | hsame
      · exact Or.inl hz
      · exact hsame.symm ▸ hold
  · rw [hproc] at hj
    split at hj
    next hjm =>
      cases hj
      obtain ⟨-, hlt, hprev⟩ := hsw.here k hk
      subst hjm
      rw [hdaddr]
      exact ⟨hprev, hlt⟩
    next hjm =>
      obtain ⟨-, hprev, hhigh⟩ := hother j q k hjm hj (hthree q k hk)
      rw [hprev, hdaddr, hhigh]
      exact h.here j q k hj (hthree q k hk)
  · rcases htwo q with ⟨h2, h3⟩ | h2
    · rw [h2] at hj
      obtain ⟨k, hk, hprev⟩ := h.above q j hj
      refine ⟨k, h3 ▸ hk, (hsw.prev j fun hin => ?_).trans hprev⟩
      exact absurd (h.apart.sep q 2 p 3 j hj (hthree p j hin)).2 (by decide)
    · rw [h2] at hj
      cases hj

/-- **A flush keeps it.** -/
theorem Inv.mmuflush (h : Inv s) (hat : s.at m = some p) :
    Inv (mmuflush s m p) ∧ Switched { s with newtlb := update s.newtlb p true } m p (mmuflush s m p) := by
  have hm := at_lt hat
  have hmark : Inv { s with newtlb := update s.newtlb p true } :=
    ⟨{ h.apart with }, h.one, h.inj, h.own, h.full, h.here, h.above, h.inner⟩
  have hsame : run { s with newtlb := update s.newtlb p true } m (some p) = { s with newtlb := update s.newtlb p true } :=
    run_same hat hm
  have helse : elsewhere { s with newtlb := update s.newtlb p true } m p = false := by
    rw [elsewhere, List.any_eq_false]
    intro r hr heq
    obtain rfl : r = some p := beq_iff_eq.mp heq
    obtain ⟨j, hj, hget⟩ := getElem_of_mem hr
    rw [length_set] at hj
    rw [getElem_set] at hget
    split at hget
    next => cases hget
    next hne =>
      have hat' : s.at j = some p := by
        rw [Sys.at, Tally.getD_lt hj]
        exact hget
      exact hne (h.one m j p hat hat')
  have hboth := hmark.mmuswitch hm helse (Or.inr hat)
  rw [hsame] at hboth
  exact hboth

/-- A processor that is left has no entry of the users. -/
theorem Inv.leave (h : Inv s) (hproc : ∀ j, t.at j = if j = m then none else s.at j)
    (hdaddr : t.daddr = s.daddr) (hprev : t.prev = s.prev) (hless : Less s.mem t.mem)
    (hgone : ∀ x, x < Nuser → t.mem (.pml4 m) x = .zero) (hhigh : ∀ j, j ≠ m → t.high j = s.high j) (hapart : Apart t)
    (hlists : ∀ q l k, k ∈ t.mmuptp q l → ∃ j, k ∈ s.mmuptp q j)
    (hthree : ∀ q, (t.mmuptp q 3 = s.mmuptp q 3 ∧ t.mmuptp q 2 = s.mmuptp q 2) ∨
      (t.mmuptp q 3 = [] ∧ t.mmuptp q 2 = [] ∧ ∀ j, j ≠ m → s.at j ≠ some q)) : Inv t := by
  have hin : ∀ q k, k ∈ t.mmuptp q 3 → k ∈ s.mmuptp q 3 := by
    intro q k hk
    rcases hthree q with ⟨heq, -⟩ | ⟨hnil, -⟩
    · exact heq ▸ hk
    · rw [hnil] at hk
      cases hk
  refine ⟨hapart, fun i j q hi hj => ?_, fun q k hk j hj heq => ?_, fun j x hx hne => ?_, fun j q k hj hk => ?_,
    fun j q k hj hk => ?_, fun q j hj => ?_, h.inner_less hlists fun k => hless (.tab k)⟩
  · rw [hproc] at hi hj
    split at hi
    next => cases hi
    next =>
      split at hj
      next => cases hj
      next => exact h.one i j q hi hj
  · rw [hdaddr] at heq
    exact h.inj q k (hin q k hk) j (hin q j hj) heq
  · have hjm : j ≠ m := fun heq => hne (heq ▸ hgone x hx)
    have hsame : t.mem (.pml4 j) x = s.mem (.pml4 j) x := (hless (.pml4 j) x).resolve_left hne
    rw [hsame] at hne
    obtain ⟨q, k, hq, hk, hkx, hentry⟩ := h.own j x hx hne
    refine ⟨q, k, by rw [hproc, if_neg hjm, hq], ?_, by rw [hdaddr, hkx], by rw [hsame, hentry]⟩
    rcases hthree q with ⟨heq, -⟩ | ⟨-, -, hno⟩
    · rw [heq]
      exact hk
    · exact absurd hq (hno j hjm)
  · rw [hproc] at hj
    split at hj
    next => cases hj
    next hjm =>
      rw [hdaddr]
      rcases hless (.pml4 j) (s.daddr k) with hz | hsame
      · exact Or.inl hz
      · rw [hsame]
        exact h.full j q k hj (hin q k hk)
  · rw [hproc] at hj
    split at hj
    next => cases hj
    next hjm =>
      rw [hprev, hdaddr, hhigh j hjm]
      exact h.here j q k hj (hin q k hk)
  · rw [hprev]
    rcases hthree q with ⟨h3, h2⟩ | ⟨-, h2, -⟩
    · rw [h2] at hj
      rw [h3]
      exact h.above q j hj
    · rw [h2] at hj
      cases hj

theorem Inv.procsave (h : Inv s) (hm : m < s.proc.length) : Inv (run (mmuflushtlb s m) m none) := by
  have hown : ∀ x, x < Nuser → s.mem (.pml4 m) x ≠ .zero → (s.mem (.pml4 m) x).present = true ∧ x < s.high m := by
    intro x hx hne
    obtain ⟨q, k, hq, hk, rfl, hentry⟩ := h.own m x hx hne
    rw [hentry]
    exact ⟨rfl, (h.here m q k hq hk).2⟩
  by_cases hhigh : s.high m ≠ 0
  · rw [mmuflushtlb, if_pos hhigh]
    refine h.leave (run_at (s := s) hm none) rfl rfl (fun g y => ?_) (fun x hx => ?_) (fun j hj => update_of_ne hj _ _)
      { h.apart with } (fun q l k hk => ⟨l, hk⟩) fun q => Or.inl ⟨rfl, rfl⟩
    · change update s.mem (.pml4 m) _ g y = _ ∨ update s.mem (.pml4 m) _ g y = _
      by_cases hg : g = .pml4 m
      · subst hg
        rw [update_self]
        split
        next => exact Or.inl rfl
        next => exact Or.inr rfl
      · rw [update_of_ne hg]
        exact Or.inr rfl
    · change update s.mem (.pml4 m) _ (.pml4 m) x = _
      rw [update_self]
      split
      next => rfl
      next hno =>
        by_contra hne
        exact hno ⟨(hown x hx hne).2, (hown x hx hne).1⟩
  · rw [mmuflushtlb, if_neg hhigh]
    refine h.leave (run_at hm none) rfl rfl (fun _ _ => Or.inr rfl) (fun x hx => ?_) (fun _ _ => rfl)
      { h.apart with } (fun q l k hk => ⟨l, hk⟩) fun q => Or.inl ⟨rfl, rfl⟩
    by_contra hne
    have hlt := (hown x hx hne).2
    omega

/-- The free tables of a process go to the list of all. -/
theorem Apart.release (h : Apart s) (hmmuptp : t.mmuptp = update s.mmuptp p (update (s.mmuptp p) 0 []))
    (hfree : t.mmuptpfreelist = (s.mmuptp p 0).reverse ++ s.mmuptpfreelist) (hmade : t.made = s.made) : Apart t := by
  have hold : ∀ q j k, k ∈ t.mmuptp q j → k ∈ s.mmuptp q j ∧ ¬(q = p ∧ j = 0) := by
    intro q j k hk
    rw [hmmuptp] at hk
    by_cases hq : q = p
    · subst hq
      rw [update_self] at hk
      by_cases hj : j = 0
      · subst hj
        rw [update_self] at hk
        cases hk
      · rw [update_of_ne hj] at hk
        exact ⟨hk, fun h => hj h.2⟩
    · rw [update_of_ne hq] at hk
      exact ⟨hk, fun h => hq h.1⟩
  refine ⟨fun q j => ?_, fun q j r i k hk hk' => h.sep q j r i k (hold q j k hk).1 (hold r i k hk').1, ?_,
    fun q j k hk hin => ?_, fun k hk => ?_⟩
  · by_cases hqj : t.mmuptp q j = []
    · rw [hqj]
      exact nodup_nil
    · obtain ⟨k, hk⟩ := exists_mem_of_ne_nil _ hqj
      have hno := (hold q j k hk).2
      have hsame : t.mmuptp q j = s.mmuptp q j := by
        rw [hmmuptp]
        by_cases hq : q = p
        · subst hq
          rw [update_self, update_of_ne fun hj => hno ⟨rfl, hj⟩]
        · rw [update_of_ne hq]
      rw [hsame]
      exact h.nodup q j
  · rw [hfree]
    refine nodup_append'.mpr ⟨List.nodup_reverse.mpr (h.nodup p 0), h.free, fun k hk hin => ?_⟩
    exact h.unused p 0 k (List.mem_reverse.mp hk) hin
  · obtain ⟨hin', hno⟩ := hold q j k hk
    rw [hfree, mem_append, mem_reverse] at hin
    rcases hin with hin | hin
    · exact hno (h.sep q j p 0 k hin' hin)
    · exact h.unused q j k hin' hin
  · rw [hmade]
    refine h.bound k ?_
    rcases hk with hk | ⟨q, j, hk⟩
    · rw [hfree, mem_append, mem_reverse] at hk
      rcases hk with hk | hk
      · exact Or.inr ⟨p, 0, hk⟩
      · exact Or.inl hk
    · exact Or.inr ⟨q, j, (hold q j k hk).1⟩

theorem Inv.mmurelease (h : Inv s) (hm : m < s.proc.length) (helse : elsewhere s m p = false)
    (hat : s.at m = none ∨ s.at m = some p) : Inv (mmurelease (run s m none) m p) := by
  obtain ⟨mem, hfree, hless, hzero, -⟩ := mmuptpfree_spec (run s m none) m p false
  have hlists : (mmuptpfree (run s m none) m p false).mmuptp = update s.mmuptp p (freed (s.mmuptp p)) := by rw [hfree]; rfl
  have hrelease : Mmu.mmurelease (run s m none) m p =
      { run s m none with
        mem
        high := update s.high m 0
        mmuptp := update s.mmuptp p (update (freed (s.mmuptp p)) 0 [])
        mmuptpfreelist := (freed (s.mmuptp p) 0).reverse ++ s.mmuptpfreelist } := by
    rw [Mmu.mmurelease, hfree]
    simp only [Sys.setlist, run, update_self, update_idem]
  have hapart : Apart (mmuptpfree (run s m none) m p false) :=
    h.apart.freed (p := p) hlists (by rw [hfree]; rfl) (by rw [hfree]; rfl)
  have hold : ∀ l k, k ∈ update (freed (s.mmuptp p)) 0 [] l → ∃ j, k ∈ s.mmuptp p j := by
    intro l k hk
    by_cases hl : l = 0
    · subst hl
      rw [update_self] at hk
      cases hk
    · rw [update_of_ne hl] at hk
      rcases mem_freed hk with ⟨-, hj⟩ | hj
      · exact hj
      · exact ⟨l, hj⟩
  rw [hrelease]
  refine h.leave (run_at (s := s) hm none) rfl rfl hless (fun x hx => ?_) (fun j hj => update_of_ne hj _ _) ?_
    (fun q l k hk => ?_) fun q => ?_
  · by_contra hne
    have hold : s.mem (.pml4 m) x ≠ .zero := fun hz => hne (hless.zero hz)
    obtain ⟨-, -, k, hk, hprev, rfl⟩ := h.mine hat x hx hold
    have hz := hzero 3 k (by decide) (by decide) hk
    change mem (s.prev k) (s.daddr k) = .zero at hz
    rw [hprev] at hz
    exact hne hz
  · refine hapart.release (p := p) ?_ ?_ ?_
    · rw [hlists]
      change update s.mmuptp p _ = _
      rw [update_self, update_idem]
    · rw [hlists, hfree, update_self]
      rfl
    · rw [hfree]
  · change k ∈ update s.mmuptp p (update (freed (s.mmuptp p)) 0 []) q l at hk
    by_cases hq : q = p
    · subst hq
      rw [update_self] at hk
      exact hold l k hk
    · rw [update_of_ne hq] at hk
      exact ⟨l, hk⟩
  · by_cases hq : q = p
    · subst hq
      have hnil : ∀ l, l ≠ 0 → l ≤ 3 → update s.mmuptp q (update (freed (s.mmuptp q)) 0 []) q l = [] := by
        intro l h0 h3
        rw [update_self, update_of_ne h0, freed, if_neg h0, if_pos h3]
      exact Or.inr ⟨hnil 3 (by decide) (by decide), hnil 2 (by decide) (by decide), elsewhere_at helse⟩
    · have hother : update s.mmuptp p (update (freed (s.mmuptp p)) 0 []) q = s.mmuptp q := update_of_ne hq _ _
      exact Or.inl ⟨congrFun hother 3, congrFun hother 2⟩

/-- An entry is written, in a pml4 only for a table of the process there. -/
theorem Inv.setpte (h : Inv s) (htop : ∀ m, f = .pml4 m → ∃ p k, s.at m = some p ∧ k ∈ s.mmuptp p 3 ∧
    s.daddr k = x ∧ e = .table (.tab k)) (htab : ∀ g, e = .table g → ∃ j, g = .tab j ∧ Tables s j) :
    Inv (s.setpte f x e) := by
  have hkeep : ∀ i, Tables s i → Tables (s.setpte f x e) i := fun i hi => hi.mono fun y => by
    by_cases hfx : Frame.tab i = f ∧ y = x
    · rw [hfx.1, hfx.2, setpte_self]
      exact Or.inr fun g hg => (htab g hg).imp fun _ hj => hj.1
    · exact Or.inl (setpte_ne hfx)
  refine ⟨{ h.apart with }, h.one, h.inj, fun j y hy hne => ?_, fun j q i hj hi => ?_, h.here, h.above,
    fun q l k hk => ⟨hkeep k (h.inner q l k hk).1, fun y j hj => hkeep j ?_⟩⟩
  · by_cases hfx : Frame.pml4 j = f ∧ y = x
    · obtain ⟨hf, rfl⟩ := hfx
      obtain ⟨q, k, hq, hk, hkx, rfl⟩ := htop j hf.symm
      refine ⟨q, k, hq, hk, hkx, ?_⟩
      rw [hf]
      exact setpte_self
    · rw [setpte_ne hfx] at hne ⊢
      exact h.own j y hy hne
  · change s.at j = some q at hj
    change (s.setpte f x e).mem (.pml4 j) (s.daddr i) = _ ∨ (s.setpte f x e).mem (.pml4 j) (s.daddr i) = _
    by_cases hfx : Frame.pml4 j = f ∧ s.daddr i = x
    · obtain ⟨q', k, hq, hk, hkx, rfl⟩ := htop j hfx.1.symm
      rw [hj] at hq
      cases hq
      rw [h.inj q i hi k hk (hfx.2.trans hkx.symm), hfx.1, hkx, setpte_self]
      exact Or.inr rfl
    · rw [setpte_ne hfx]
      exact h.full j q i hj hi
  · by_cases hfx : Frame.tab k = f ∧ y = x
    · rw [hfx.1, hfx.2, setpte_self] at hj
      obtain ⟨i, hi, htables⟩ := htab _ hj
      cases hi
      exact htables
    · rw [setpte_ne hfx] at hj
      exact (h.inner q l k hk).2 y j hj

/-- Where a table may be hung: in the pml4 of the process, in one of its tables of the level 3, or below. -/
def Place (s : Sys) (m p lvl : Nat) (prev f : Frame) (x : Nat) : Prop :=
  (lvl = 3 ∧ prev = .pml4 m ∧ f = .pml4 m ∧ ∀ k ∈ s.mmuptp p 3, s.daddr k ≠ x) ∨
    ((lvl = 2 ∧ ∃ k ∈ s.mmuptp p 3, prev = .tab k) ∨ lvl = 1) ∧ ∃ j, f = .tab j

theorem Inv.hung_inner {lvl : Nat} {prev : Frame} (h : Inv s) (hu : Hung s m p lvl prev f x k t) (q l i : Nat)
    (hi : i ∈ t.mmuptp q l) : Tables t i ∧ ∀ y j, t.mem (.tab i) y = .table (.tab j) → Tables t j := by
  have hentry : ∀ i y, (i = k ∨ ∃ q l, i ∈ s.mmuptp q l) → t.mem (.tab i) y = .table (.tab k) ∨
      t.mem (.tab i) y = .zero ∨ ∃ q l, i ∈ s.mmuptp q l ∧ t.mem (.tab i) y = s.mem (.tab i) y := by
    intro i y hi
    by_cases hfx : Frame.tab i = f ∧ y = x
    · rw [hfx.1, hfx.2, hu.entry]
      exact Or.inl rfl
    · right
      by_cases hik : i = k
      · subst hik
        exact (hu.clear y fun hf => hfx ⟨hf.1.symm, hf.2⟩).imp_right fun hin => ⟨p, 0, hin⟩
      · obtain ⟨q, l, hl⟩ := hi.resolve_left hik
        exact Or.inr ⟨q, l, hl, hu.mem _ _ hfx fun heq => hik (Frame.tab.inj heq)⟩
  have htables : ∀ i, (i = k ∨ ∃ q l, i ∈ s.mmuptp q l) → Tables t i := by
    intro i hi y g hg
    rcases hentry i y hi with he | hz | ⟨q, l, hl, hsame⟩
    · rw [he] at hg
      exact ⟨k, (Pte.table.inj hg).symm⟩
    · rw [hz] at hg
      cases hg
    · exact (h.inner q l i hl).1 y g (hsame ▸ hg)
  have hkeep : ∀ i, Tables s i → Tables t i := by
    intro i hi
    by_cases hik : i = k
    · exact htables i (Or.inl hik)
    · refine hi.mono fun y => ?_
      by_cases hfx : Frame.tab i = f ∧ y = x
      · rw [hfx.1, hfx.2, hu.entry]
        exact Or.inr fun g hg => ⟨k, (Pte.table.inj hg).symm⟩
      · exact Or.inl (hu.mem _ _ hfx fun heq => hik (Frame.tab.inj heq))
  have hi' : i = k ∨ ∃ q l, i ∈ s.mmuptp q l := by
    rcases hu.lists q l with ⟨rfl, rfl | rfl⟩ | heq
    · exact Or.inr ⟨q, 0, hu.sub i hi⟩
    · rw [hu.list] at hi
      exact (List.mem_cons.mp hi).imp_right fun hi => ⟨q, l, hi⟩
    · exact Or.inr ⟨q, l, heq ▸ hi⟩
  refine ⟨htables i hi', fun y j hj => ?_⟩
  rcases hentry i y hi' with he | hz | ⟨q', l', hl, hsame⟩
  · rw [he] at hj
    cases hj
    exact htables k (Or.inl rfl)
  · rw [hz] at hj
    cases hj
  · exact hkeep j ((h.inner q' l' i hl).2 y j (hsame ▸ hj))

theorem Inv.hung {lvl : Nat} {prev : Frame} (h : Inv s) (hat : s.at m = some p) (hu : Hung s m p lvl prev f x k t)
    (hplace : Place s m p lvl prev f x) : Inv t := by
  obtain ⟨mem, high, daddr, before, mmuptp, mmuptpfreelist, made, ht⟩ := hu.frame
  have hproc : ∀ j, t.at j = s.at j := by
    intro j
    rw [ht]
    rfl
  have hne : ∀ q l i, l ≠ 0 → i ∈ s.mmuptp q l → i ≠ k := fun q l i hl hi heq => hu.fresh q l hl (heq ▸ hi)
  have hdaddr : ∀ q i, i ∈ s.mmuptp q 3 → t.daddr i = s.daddr i := by
    intro q i hi
    rw [hu.daddr, update_of_ne (hne q 3 i (by decide) hi)]
  have hprev : ∀ q l i, l ≠ 0 → i ∈ s.mmuptp q l → t.prev i = s.prev i := by
    intro q l i hl hi
    rw [hu.prev, update_of_ne (hne q l i hl hi)]
  have hself : t.daddr k = x := by rw [hu.daddr, update_self]
  have hlist : ∀ q l i, l ≠ 0 → i ∈ t.mmuptp q l → i ∈ s.mmuptp q l ∨ (q = p ∧ i = k ∧ lvl = l) := by
    intro q l i hl hi
    rcases hu.lists q l with ⟨rfl, hlvl⟩ | heq
    · obtain rfl : l = lvl := hlvl.resolve_left hl
      rw [hu.list] at hi
      rcases List.mem_cons.mp hi with rfl | hi
      · exact Or.inr ⟨rfl, rfl, rfl⟩
      · exact Or.inl hi
    · exact Or.inl (heq ▸ hi)
  have hback : ∀ q i, i ∈ s.mmuptp q 3 → i ∈ t.mmuptp q 3 := by
    intro q i hi
    rcases hu.lists q 3 with ⟨rfl, h3⟩ | heq
    · obtain rfl : 3 = lvl := h3.resolve_left (by decide)
      rw [hu.list]
      exact mem_cons_of_mem k hi
    · rwa [heq]
  have hhigh : ∀ j, s.high j ≤ t.high j := by
    intro j
    by_cases hj : j = m
    · rw [hj]
      exact hu.above
    · exact Nat.le_of_eq (hu.high j hj).symm
  -- what there is to know of the place where the table is hung
  have htop : lvl = 3 → prev = .pml4 m ∧ f = .pml4 m ∧ ∀ k ∈ s.mmuptp p 3, s.daddr k ≠ x := by
    rintro rfl
    rcases hplace with ⟨-, hall⟩ | ⟨⟨h2, -⟩ | h1, -⟩
    · exact hall
    · cases h2
    · cases h1
  have hpml4 : ∀ j, .pml4 j = f → j = m ∧ lvl = 3 := by
    rintro j rfl
    rcases hplace with ⟨h3, -, hf, -⟩ | ⟨-, i, hf⟩
    · exact ⟨Frame.pml4.inj hf, h3⟩
    · cases hf
  refine ⟨hu.apart, fun i j q hi hj => ?_, fun q i hi j hj heq => ?_, fun j y hy hz => ?_, fun j q i hj hi => ?_,
    fun j q i hj hi => ?_, fun q j hj => ?_, h.hung_inner hu⟩
  · rw [hproc] at hi hj
    exact h.one i j q hi hj
  · rcases hlist q 3 i (by decide) hi with hold | ⟨hq, hik, h3⟩
    · rw [hdaddr q i hold] at heq
      rcases hlist q 3 j (by decide) hj with hold' | ⟨rfl, rfl, h3⟩
      · rw [hdaddr q j hold'] at heq
        exact h.inj q i hold j hold' heq
      · exact absurd (heq.trans hself) ((htop h3).2.2 i hold)
    · subst hq hik
      rcases hlist q 3 j (by decide) hj with hold' | ⟨-, rfl, -⟩
      · rw [hself, hdaddr q j hold'] at heq
        exact absurd heq.symm ((htop h3).2.2 j hold')
      · rfl
  · by_cases hfx : Frame.pml4 j = f ∧ y = x
    · obtain ⟨hjf, rfl⟩ := hfx
      obtain ⟨rfl, rfl⟩ := hpml4 j hjf
      refine ⟨p, k, by rw [hproc, hat], ?_, hself, hjf ▸ hu.entry⟩
      rw [hu.list]
      exact mem_cons_self
    · have hsame := hu.mem _ _ hfx (by nofun)
      rw [hsame] at hz
      obtain ⟨q, i, hq, hi, hiy, hentry⟩ := h.own j y hy hz
      exact ⟨q, i, by rw [hproc, hq], hback q i hi, by rw [hdaddr q i hi, hiy], by rw [hsame, hentry]⟩
  · rw [hproc] at hj
    rcases hlist q 3 i (by decide) hi with hold | ⟨rfl, rfl, h3⟩
    · rw [hdaddr q i hold, hu.mem _ _ (fun hfx => ?_) (by nofun)]
      · exact h.full j q i hj hold
      · obtain ⟨rfl, h3⟩ := hpml4 j hfx.1
        rw [hat] at hj
        cases hj
        exact (htop h3).2.2 i hold hfx.2
    · obtain rfl := h.one j m q hj hat
      rw [hself, ← (htop h3).2.1]
      exact Or.inr hu.entry
  · rw [hproc] at hj
    rcases hlist q 3 i (by decide) hi with hold | ⟨rfl, rfl, h3⟩
    · obtain ⟨hp, hlt⟩ := h.here j q i hj hold
      rw [hprev q 3 i (by decide) hold, hdaddr q i hold]
      exact ⟨hp, Nat.lt_of_lt_of_le hlt (hhigh j)⟩
    · obtain rfl := h.one j m q hj hat
      rw [hu.prev, update_self, hself]
      exact ⟨(htop h3).1, hu.mark h3⟩
  · rcases hlist q 2 j (by decide) hj with hold | ⟨rfl, rfl, h2⟩
    · obtain ⟨i, hi, hij⟩ := h.above q j hold
      exact ⟨i, hback q i hi, by rw [hprev q 2 j (by decide) hold, hij]⟩
    · subst h2
      rcases hplace with ⟨h3, -⟩ | ⟨⟨-, i, hi, hpi⟩ | h1, -⟩
      · cases h3
      · exact ⟨i, hback q i hi, by rw [hu.prev, update_self, hpi]⟩
      · cases h1

/-- The first turn leads to a table of the process, and what hangs below that one hung there before. -/
theorem Inv.descend_three (h : Inv s) (hat : s.at m = some p) {r : Nat × Sys}
    (hr : r = descend s m p 3 (.pml4 m) (.pml4 m) x) :
    Inv r.2 ∧ r.2.at m = some p ∧ r.1 ∈ r.2.mmuptp p 3 ∧ r.2.mem (.pml4 m) x = .table (.tab r.1) ∧
      ∀ j ∈ r.2.mmuptp p 2, r.2.prev j = .tab r.1 → r.1 ∈ s.mmuptp p 3 ∧ s.daddr r.1 = x ∧ j ∈ s.mmuptp p 2 ∧
        s.prev j = .tab r.1 ∧ r.2.daddr j = s.daddr j ∧ r.2.mem (.tab r.1) = s.mem (.tab r.1) := by
  rcases descend_spec h.apart m (by decide : 3 ≠ 0) (.pml4 m) (.pml4 m) x with ⟨k, hk, -, hkx, hrun⟩ | ⟨hno, hu⟩
  · rw [hrun] at hr
    subst hr
    by_cases hz : s.mem (.pml4 m) x = .zero
    · rw [if_pos hz]
      refine ⟨h.setpte (fun j hj => ?_) fun g hg => ⟨k, (Pte.table.inj hg).symm, (h.inner p 3 k hk).1⟩, hat, hk,
        setpte_self, fun j hj hprev => ⟨hk, hkx, hj, hprev, rfl, funext fun y => setpte_ne (by nofun)⟩⟩
      obtain rfl := Frame.pml4.inj hj
      exact ⟨p, k, hat, hk, hkx, rfl⟩
    · rw [if_neg hz]
      refine ⟨h, hat, hk, ?_, fun j hj hprev => ⟨hk, hkx, hj, hprev, rfl, rfl⟩⟩
      rw [← hkx] at hz ⊢
      exact (h.full m p k hat hk).resolve_left hz
  · rw [← hr] at hu
    have hplace : Place s m p 3 (.pml4 m) (.pml4 m) x :=
      Or.inl ⟨rfl, rfl, rfl, fun k hk heq => hno k hk ⟨(h.here m p k hat hk).1, heq⟩⟩
    obtain ⟨mem, high, daddr, before, mmuptp, mmuptpfreelist, made, ht⟩ := hu.frame
    refine ⟨h.hung hat hu hplace, by rw [ht]; exact hat, ?_, hu.entry, fun j hj hprev => ?_⟩
    · rw [hu.list]
      exact mem_cons_self
    · -- the tables of the level 2 hang in those that were there
      rw [(hu.lists p 2).resolve_left (by simp)] at hj
      obtain ⟨i, hi, hij⟩ := h.above p j hj
      rw [hu.prev, update_of_ne fun heq : j = r.1 => hu.fresh p 2 (by decide) (heq ▸ hj), hij] at hprev
      exact absurd (Frame.tab.inj hprev ▸ hi) (hu.fresh p 3 (by decide))

/-- A turn below leads to a table, or to a page over one. -/
theorem Inv.descend_below {lvl : Nat} {prev : Frame} (h : Inv s) (hat : s.at m = some p) (hk : Tables s k)
    (hlvl : (lvl = 2 ∧ ∃ k ∈ s.mmuptp p 3, prev = .tab k) ∨ lvl = 1) {r : Nat × Sys}
    (hr : r = descend s m p lvl prev (.tab k) x) :
    Inv r.2 ∧ r.2.at m = some p ∧ r.2.mmuptp p 3 = s.mmuptp p 3 ∧ ∀ g, (r.2.mem (.tab k) x).ppn = some g →
      (∃ j, g = .tab j ∧ r.2.mem (.tab k) x = .table (.tab j)) ∨
        ∃ pa attr, g = .user pa ∧ s.mem (.tab k) x = .leaf pa attr ∧ ∃ j ∈ s.mmuptp p lvl, s.prev j = prev ∧ s.daddr j = x := by
  have hne : lvl ≠ 0 ∧ 3 ≠ lvl := by omega
  rcases descend_spec h.apart m hne.1 prev (.tab k) x with ⟨i, hi, hprev, hix, hrun⟩ | ⟨-, hu⟩
  · rw [hrun] at hr
    subst hr
    by_cases hz : s.mem (.tab k) x = .zero
    · rw [if_pos hz]
      refine ⟨h.setpte (fun j hj => by cases hj) fun g hg => ⟨i, (Pte.table.inj hg).symm, (h.inner p lvl i hi).1⟩,
        hat, rfl, fun g hg => Or.inl ⟨i, ?_, setpte_self⟩⟩
      rw [setpte_self] at hg
      exact (Option.some.inj hg).symm
    · rw [if_neg hz]
      refine ⟨h, hat, rfl, fun g hg => ?_⟩
      cases hentry : s.mem (.tab k) x with
      | zero => exact absurd hentry hz
      | table g' =>
        obtain ⟨j, rfl⟩ := hk x g' hentry
        rw [hentry] at hg
        exact Or.inl ⟨j, (Option.some.inj hg).symm, rfl⟩
      | leaf pa attr =>
        rw [hentry] at hg
        exact Or.inr ⟨pa, attr, (Option.some.inj hg).symm, rfl, i, hi, hprev, hix⟩
  · rw [← hr] at hu
    obtain ⟨mem, high, daddr, before, mmuptp, mmuptpfreelist, made, ht⟩ := hu.frame
    refine ⟨h.hung hat hu (Or.inr ⟨hlvl, k, rfl⟩), by rw [ht]; exact hat, ?_, fun g hg => Or.inl ⟨r.1, ?_, hu.entry⟩⟩
    · exact (hu.lists p 3).resolve_left fun h => hne.2 (h.2.resolve_left (by decide))
    · rw [hu.entry] at hg
      exact (Option.some.inj hg).symm

theorem PTLX_user (h : va < 2 ^ 47) : PTLX va 3 < Nuser := by
  rw [PTLX, Nuser, PTSHIFT, PGSHIFT]
  omega

/-- **Mapping keeps it.** -/
theorem Inv.mmuput (h : Inv s) (hat : s.at m = some p) (hclear : pgsz = 4 * KiB → ¬ Hidden s m va)
    (hput : mmuput s m p va pa pgsz attr = some t) : Inv t := by
  have hleaf : ∀ {u : Sys} {g : Frame} {y : Nat}, Inv u → (∀ j, g ≠ .pml4 j) → Inv (u.setpte g y (.leaf pa attr)) :=
    fun hu hg => hu.setpte (fun j hj => absurd hj (hg j)) nofun
  obtain ⟨e, hwalk, rfl⟩ := mmuput_walk hput
  obtain ⟨u, g, hu, hg, hwalk⟩ := walk_turn (by nofun) hwalk
  obtain ⟨hinv, hatu, hk, hentry, hback⟩ := h.descend_three hat hu
  rw [hentry] at hg
  cases hg
  by_cases hG : pgsz = GiB
  · obtain rfl := walk_last (by rw [hG]; rfl) hwalk
    exact hleaf hinv (by nofun)
  obtain ⟨v, g, hv, hg, hwalk⟩ := walk_turn (fun heq => hG (Option.some.inj heq).symm) hwalk
  obtain ⟨hinv', hatv, hlist, hbelow⟩ := hinv.descend_below hatu (hinv.inner p 3 _ hk).1 (Or.inl ⟨rfl, _, hk, rfl⟩) hv
  have hcase := hbelow g hg
  by_cases hM : pgsz = 2 * MiB
  · obtain rfl := walk_last (by rw [hM]; rfl) hwalk
    refine hleaf hinv' fun j hj => ?_
    rcases hcase with ⟨i, hi, -⟩ | ⟨pa, attr, hi, -⟩ <;> cases hj.symm.trans hi
  obtain ⟨w, g', hw, hg', hlast⟩ := walk_turn (fun heq => hM (Option.some.inj heq).symm) hwalk
  by_cases hK : pgsz = 4 * KiB
  · obtain ⟨j, rfl, hentry⟩ : ∃ j, g = .tab j ∧ v.2.mem (.tab u.1) (PTLX va 2) = .table (.tab j) := by
      refine hcase.resolve_right ?_
      rintro ⟨pa', attr', -, hover, j, hj, hprev, hjx⟩
      obtain ⟨hk', hkx, hj', hprev', hdaddr, hsame⟩ := hback j hj hprev
      exact hclear hK ⟨p, u.1, j, pa', attr', hat, hk', hkx, hj', hprev', hdaddr ▸ hjx, hsame ▸ hover⟩
    have htables := (hinv'.inner p 3 _ (hlist ▸ hk)).2 _ j hentry
    obtain ⟨hinv'', -, -, hlow⟩ := hinv'.descend_below hatv htables (Or.inr rfl) hw
    obtain rfl := walk_last (by rw [hK]; rfl) hlast
    refine hleaf hinv'' fun i hi => ?_
    rcases hlow g' hg' with ⟨_, hj, -⟩ | ⟨_, _, hj, -⟩ <;> cases hi.symm.trans hj
  · obtain ⟨_, _, _, _, hnone⟩ := walk_turn (fun heq => hK (Option.some.inj heq).symm) hlast
    cases hnone

/-- The steps of processors that keep to `sched`. -/
def Sched (s : Sys) (op : Op) (t : Sys) : Prop := act s op = some t ∧ Clear s op ∧ Saved s op

/-- The same, with the pages of 2 MiB and 1 GiB only. -/
def Step (s : Sys) (op : Op) (t : Sys) : Prop := act s op = some t ∧ Mapped op ∧ Saved s op

theorem Start.inv (h : Start s) : Inv s := by
  have hnil : ∀ p l k, k ∉ s.mmuptp p l := by
    intro p l k hk
    rw [h.mmuptp] at hk
    cases hk
  have hnone : ∀ m p, s.at m ≠ some p := by
    intro m p hp
    rw [h.proc] at hp
    cases hp
  refine ⟨⟨fun p l => by rw [h.mmuptp]; exact nodup_nil, fun p l q j k hk => absurd hk (hnil p l k),
    by rw [h.free]; exact nodup_nil, fun p l k hk => absurd hk (hnil p l k), fun k hk => ?_⟩,
    fun m j p hm => absurd hm (hnone m p), fun p k hk => absurd hk (hnil p 3 k),
    fun m x hx hne => absurd (h.user m x hx) hne, fun m p k hm => absurd hm (hnone m p),
    fun m p k hm => absurd hm (hnone m p), fun p j hj => absurd hj (hnil p 2 j), fun p l k hk => absurd hk (hnil p l k)⟩
  rcases hk with hk | ⟨p, l, hk⟩
  · rw [h.free] at hk
    cases hk
  · exact absurd hk (hnil p l k)

/-- **Every step keeps it.** -/
theorem Inv.sched {op : Op} (h : Inv s) (hstep : Sched s op t) : Inv t := by
  obtain ⟨hact, hclear, hsaved⟩ := hstep
  cases op with
  | mmuswitch m p =>
    obtain ⟨⟨hm, helse⟩, hrun⟩ := ite_none_right_eq_some.mp hact
    cases hrun
    exact (h.mmuswitch hm helse hsaved).1
  | mmuput m va pa pgsz attr =>
    obtain ⟨p, hat, hput⟩ := bind_eq_some_iff.mp hact
    exact h.mmuput hat hclear hput
  | mmuflush m =>
    obtain ⟨p, hat, rfl⟩ := map_eq_some_iff.mp hact
    exact (h.mmuflush hat).1
  | mmurelease m p =>
    obtain ⟨⟨hm, helse⟩, hrun⟩ := ite_none_right_eq_some.mp hact
    cases hrun
    exact h.mmurelease hm helse hsaved
  | procsave m =>
    obtain ⟨hm, hrun⟩ := ite_none_right_eq_some.mp hact
    cases hrun
    exact h.procsave hm
  | newtlb p =>
    cases hact
    exact ⟨{ h.apart with }, h.one, h.inj, h.own, h.full, h.here, h.above, h.inner⟩

theorem Mapped.clear {op : Op} (h : Mapped op) : Clear s op := by
  cases op with
  | mmuput m va pa pgsz attr =>
    rintro rfl
    exact absurd h.2 (by decide)
  | _ => trivial

theorem Inv.step {op : Op} (h : Inv s) (hstep : Step s op t) : Inv t :=
  h.sched ⟨hstep.1, hstep.2.1.clear, hstep.2.2⟩

/-- The entries of the users that are present are those of the tables of `p`. -/
def Exact (s : Sys) (m p : Nat) : Prop := ∀ x, x < Nuser →
  ((s.mem (.pml4 m) x).present = true ↔ ∃ k ∈ s.mmuptp p 3, s.daddr k = x) ∧
    ∀ k ∈ s.mmuptp p 3, s.daddr k = x → s.mem (.pml4 m) x = .table (.tab k)

theorem Switched.exact (h : Switched s m p t) : Exact t m p := by
  obtain ⟨mem, high, prev, ht⟩ := h.frame
  have hdaddr : t.daddr = s.daddr := by rw [ht]
  intro x hx
  rw [hdaddr]
  refine ⟨⟨fun hpresent => ?_, fun ⟨k, hk, hkx⟩ => ?_⟩, fun k hk hkx => ?_⟩
  · by_contra hno
    have hz := h.empty x hx fun k hk hkx => hno ⟨k, hk, hkx⟩
    rw [hz] at hpresent
    cases hpresent
  · have hentry := (h.here k hk).1
    rw [hkx] at hentry
    rw [hentry]
    rfl
  · rw [← hkx]
    exact (h.here k hk).1

/-- **A process has only its own tables.**  Behind a switch, on whatever processor, the entries of the
users are those of the process, and always they are below the mark. -/
theorem isolation (hr : Reach Start Sched s) :
    (∀ m x, x < Nuser → (s.mem (.pml4 m) x).present = true → x < s.high m) ∧
      (∀ m p t, Sched s (.mmuswitch m p) t → Exact t m p) ∧
      ∀ m p t, s.at m = some p → Sched s (.mmuflush m) t → Exact t m p := by
  have hinv : Inv s := hr.invariant Inv (fun _ => Start.inv) fun _ _ _ h => h.sched
  refine ⟨fun m x hx hpresent => ?_, fun m p t hstep => ?_, fun m p t hat hstep => ?_⟩
  · have hne : s.mem (.pml4 m) x ≠ .zero := fun hz => by
      rw [hz] at hpresent
      cases hpresent
    obtain ⟨p, k, hp, hk, rfl, -⟩ := hinv.own m x hx hne
    exact (hinv.here m p k hp hk).2
  · obtain ⟨⟨hm, helse⟩, hrun⟩ := Option.ite_none_right_eq_some.mp hstep.1
    cases hrun
    exact (hinv.mmuswitch hm helse hstep.2.2).2.exact
  · obtain ⟨q, hq, rfl⟩ := Option.map_eq_some_iff.mp hstep.1
    rw [hat] at hq
    cases hq
    exact (hinv.mmuflush hat).2.exact

/-- The start with `n` processors. -/
def start (n : Nat) : Sys where
  mem _ _ := .zero
  high _ := 0
  daddr _ := 0
  prev _ := .pml4 0
  mmuptp _ _ := []
  newtlb _ := false
  mmuptpfreelist := []
  made := 0
  proc := List.replicate n none

theorem start_start (n : Nat) : Start (start n) := by
  refine ⟨fun _ _ _ => rfl, fun m => ?_, fun _ _ => rfl, rfl⟩
  rw [Sys.at, start, getD_eq_getElem?_getD, List.getElem?_replicate]
  split
  next => rfl
  next => rfl

def Sys.after (s : Sys) (op : Op) : Sys := (act s op).getD s

theorem after_step {op : Op} (h : (act s op).isSome = true) (hc : Clear s op) (hs : Saved s op) :
    Sched s op (s.after op) :=
  ⟨(getD_of_ne_none (isSome_iff_ne_none.mp h) s).symm, hc, hs⟩

/-- The process 0 maps a page on the processor 0, where 1 follows it, and moves on to the processor 1. -/
def moved : Sys :=
  ((((start 2).after (.mmuswitch 0 0)).after (.mmuput 0 0 (4 * KiB) (4 * KiB) 1)).after (.procsave 0)).after (.newtlb 1)

theorem isolation_moved : Exact (moved.after (.mmuswitch 0 1)) 0 1 ∧
    Exact ((moved.after (.mmuswitch 0 1)).after (.mmuswitch 1 0)) 1 0 ∧
    (((moved.after (.mmuswitch 0 1)).after (.mmuswitch 1 0)).mem (.pml4 1) 0).present = true := by
  have hmoved : Reach Start Sched moved := by
    have hput : Clear ((start 2).after (.mmuswitch 0 0)) (.mmuput 0 0 (4 * KiB) (4 * KiB) 1) := by
      rintro - ⟨p, k, j, pa, attr, -, hk, -⟩
      have hnil : ((start 2).after (.mmuswitch 0 0)).mmuptp p 3 = [] := by rfl
      rw [hnil] at hk
      cases hk
    have h₁ := (Reach.start (start_start 2)).next
      (@after_step _ (.mmuswitch 0 0) (by decide +kernel) trivial (Or.inl rfl))
    have h₂ := h₁.next (after_step (by decide +kernel) hput trivial)
    have h₃ := h₂.next (@after_step _ (.procsave 0) (by decide +kernel) trivial trivial)
    exact h₃.next (@after_step _ (.newtlb 1) rfl trivial trivial)
  have hstep := @after_step moved (.mmuswitch 0 1) (by decide +kernel) trivial (Or.inl (by decide +kernel))
  have hnext := @after_step (moved.after (.mmuswitch 0 1)) (.mmuswitch 1 0) (by decide +kernel) trivial
    (Or.inl (by decide +kernel))
  exact ⟨(isolation hmoved).2.1 0 1 _ hstep, (isolation (hmoved.next hstep)).2.1 1 0 _ hnext, by decide +kernel⟩

/-- Without `procsave`, a process that must flush leaves what another had. -/
theorem leftover : ¬∀ ops s t m p, exec act (start 1) ops = some s →
    (∀ op ∈ ops, Mapped op ∧ ∀ j, op ≠ .procsave j) → act s (.mmuswitch m p) = some t → Exact t m p := by
  intro hall
  have hrun := @exec_getD _ _ act [.mmuswitch 0 0, .mmuput 0 0 (2 * MiB) (2 * MiB) 1, .newtlb 1] (start 1) (start 1)
    (by decide +kernel)
  generalize hs : (exec act (start 1) [.mmuswitch 0 0, .mmuput 0 0 (2 * MiB) (2 * MiB) 1, .newtlb 1]).getD (start 1) = s
    at hrun
  have hnext : act s (.mmuswitch 0 1) = some (s.after (.mmuswitch 0 1)) := by
    refine (Option.getD_of_ne_none (Option.isSome_iff_ne_none.mp ?_) s).symm
    rw [← hs]
    decide +kernel
  have hexact := hall _ _ _ 0 1 hrun (by simp [Mapped]) hnext
  have hnone : ¬∃ k ∈ (s.after (.mmuswitch 0 1)).mmuptp 1 3, (s.after (.mmuswitch 0 1)).daddr k = 0 := by
    rw [← hs]
    decide +kernel
  refine hnone ((hexact 0 (by decide)).1.mp ?_)
  rw [← hs]
  decide +kernel

/-- Where its tables are hidden, a page of 4 KiB is put where the words of the page of 1 GiB lead: here, into the
pml4 above the mark. -/
theorem hidden_walk : ∃ s t, Start s ∧ exec act s [.mmuswitch 0 0, .mmuput 0 0 (4 * KiB) (4 * KiB) 1,
    .mmuput 0 0 GiB GiB 1, .mmuput 0 (5 * (4 * KiB)) (4 * KiB) (4 * KiB) 1] = some t ∧
    (t.mem (.pml4 0) 5).present = true ∧ t.high 0 = 1 := by
  have hstart := start_start 1
  refine ⟨(start 1).setpte (.user GiB) 0 (.table (.pml4 0)), _, ⟨fun m x hx => ?_, hstart.proc, hstart.mmuptp, rfl⟩,
    exec_getD (d := start 1) (by decide +kernel), by decide +kernel, by decide +kernel⟩
  exact (setpte_ne (by nofun)).trans (hstart.user m x hx)

end Mmu
