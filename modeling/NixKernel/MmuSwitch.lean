import NixKernel.Mmu

/-!
# What a processor has mapped

The entries of the users in a pml4 are tables of the process that runs on the processor, below the
mark that the next switch clears up to.  Taking tables back only clears entries, wherever they are,
so it does no harm to the other processors; and a processor that its process has left has none.
-/

namespace Mmu

open Function List

variable {s t : Sys} {m p x k : Nat} {f : Frame} {e : Pte}

/-- Entries are cleared, and nothing else is written. -/
def Less (mem mem' : Frame → Nat → Pte) : Prop := ∀ f x, mem' f x = .zero ∨ mem' f x = mem f x

theorem Less.trans {mem mem' mem'' : Frame → Nat → Pte} (h : Less mem mem') (h' : Less mem' mem'') : Less mem mem'' := by
  intro f x
  rcases h' f x with hz | he
  · exact Or.inl hz
  · rw [he]
    exact h f x

theorem Less.zero {mem mem' : Frame → Nat → Pte} (h : Less mem mem') (hz : mem f x = .zero) : mem' f x = .zero := by
  rcases h f x with hz' | he
  · exact hz'
  · exact he.trans hz

theorem setpte_self : (s.setpte f x e).mem f x = e := by
  change update s.mem f (update (s.mem f) x e) f x = e
  rw [update_self, update_self]

theorem setpte_ne {g : Frame} {y : Nat} (h : ¬(g = f ∧ y = x)) : (s.setpte f x e).mem g y = s.mem g y := by
  change update s.mem f (update (s.mem f) x e) g y = _
  by_cases hg : g = f
  · rw [hg, update_self, update_of_ne fun hy => h ⟨hg, hy⟩]
  · rw [update_of_ne hg]

theorem clear_self : (s.clear k).mem (.tab k) x = .zero := by
  change update s.mem (.tab k) (fun _ => .zero) (.tab k) x = _
  rw [update_self]

theorem clear_ne (h : f ≠ .tab k) : (s.clear k).mem f x = s.mem f x := by
  change update s.mem (.tab k) (fun _ => .zero) f x = _
  rw [update_of_ne h]

theorem freepage_less (clear : Bool) (s : Sys) (k : Nat) : Less s.mem (freepage clear s k).mem := by
  intro g y
  rw [freepage]
  by_cases hgy : g = s.prev k ∧ y = s.daddr k
  · rw [hgy.1, hgy.2]
    exact Or.inl setpte_self
  · rw [setpte_ne hgy]
    cases clear with
    | false => exact Or.inr rfl
    | true =>
      rw [if_pos rfl]
      by_cases hg : g = .tab k
      · rw [hg]
        exact Or.inl clear_self
      · exact Or.inr (clear_ne hg)

theorem freepage_eq (clear : Bool) (s : Sys) (k : Nat) :
    freepage clear s k = { s with mem := (freepage clear s k).mem } := by
  rw [freepage]
  cases clear <;> rfl

/-- **Tables are taken out** of the ones above them. -/
theorem freepages_spec (clear : Bool) (ks : List Nat) (s : Sys) : ∃ mem, ks.foldl (freepage clear) s = { s with mem } ∧
    Less s.mem mem ∧ (∀ k ∈ ks, mem (s.prev k) (s.daddr k) = .zero) ∧
    (clear = true → ∀ k ∈ ks, ∀ x, mem (.tab k) x = .zero) := by
  induction ks generalizing s with
  | nil => exact ⟨s.mem, rfl, fun _ _ => Or.inr rfl, nofun, fun _ => nofun⟩
  | cons k ks ih =>
    obtain ⟨mem, hrun, hless, hzero, hclear⟩ := ih (freepage clear s k)
    have heq := freepage_eq clear s k
    have hprev : (freepage clear s k).prev = s.prev ∧ (freepage clear s k).daddr = s.daddr := by
      rw [heq]
      exact ⟨rfl, rfl⟩
    rw [hprev.1, hprev.2] at hzero
    refine ⟨mem, ?_, (freepage_less clear s k).trans hless, fun j hj => ?_, fun hc j hj x => ?_⟩
    · rw [foldl_cons, hrun, heq]
    · rcases mem_cons.mp hj with rfl | hj
      · exact hless.zero setpte_self
      · exact hzero j hj
    · rcases mem_cons.mp hj with rfl | hj
      · refine hless.zero ?_
        rw [freepage, hc, if_pos rfl]
        by_cases hgy : Frame.tab j = s.prev j ∧ x = s.daddr j
        · rw [hgy.1, hgy.2]
          exact setpte_self
        · rw [setpte_ne hgy]
          exact clear_self
      · exact hclear hc j hj x

/-- The lists of a process whose tables are all free. -/
def freed (lists : Nat → List Nat) (l : Nat) : List Nat :=
  if l = 0 then lists 3 ++ (lists 2 ++ (lists 1 ++ lists 0)) else if l ≤ 3 then [] else lists l

theorem mmuptpfree_spec (s : Sys) (m p : Nat) (clear : Bool) : ∃ mem,
    mmuptpfree s m p clear = { s with mem, high := update s.high m 0,
                                      mmuptp := update s.mmuptp p (freed (s.mmuptp p)) } ∧
    Less s.mem mem ∧ (∀ l k, 1 ≤ l → l ≤ 3 → k ∈ s.mmuptp p l → mem (s.prev k) (s.daddr k) = .zero) ∧
    (clear = true → ∀ l k, 1 ≤ l → l ≤ 2 → k ∈ s.mmuptp p l → ∀ x, mem (.tab k) x = .zero) := by
  have hlevel : ∀ (s : Sys) l, l ≠ 0 → ∃ mem, freelevel s p clear l =
      { s with mem, mmuptp := update s.mmuptp p (update (update (s.mmuptp p) 0 (s.mmuptp p l ++ s.mmuptp p 0)) l []) } ∧
      Less s.mem mem ∧
      (∀ k ∈ s.mmuptp p l, mem (s.prev k) (s.daddr k) = .zero) ∧
      ((decide (l ≤ 2) && clear) = true → ∀ k ∈ s.mmuptp p l, ∀ x, mem (.tab k) x = .zero) := by
    intro s l hl
    obtain ⟨mem, hrun, hless, hzero, hclear⟩ := freepages_spec (decide (l ≤ 2) && clear) (s.mmuptp p l) s
    refine ⟨mem, ?_, hless, hzero, hclear⟩
    rw [freelevel, hrun]
    simp only [Sys.setlist, update_self, update_idem]
  obtain ⟨mem₁, hrun₁, hless₁, hzero₁, hclear₁⟩ := hlevel s 1 (by decide)
  obtain ⟨mem₂, hrun₂, hless₂, hzero₂, hclear₂⟩ := hlevel (freelevel s p clear 1) 2 (by decide)
  obtain ⟨mem₃, hrun₃, hless₃, hzero₃, hclear₃⟩ := hlevel (freelevel (freelevel s p clear 1) p clear 2) 3 (by decide)
  -- a level is not touched before its turn
  have hlist₂ : (freelevel s p clear 1).mmuptp p 2 = s.mmuptp p 2 := by
    rw [hrun₁]
    simp
  have hlist₃ : (freelevel (freelevel s p clear 1) p clear 2).mmuptp p 3 = s.mmuptp p 3 := by
    rw [hrun₂, hrun₁]
    simp
  rw [hlist₂] at hzero₂ hclear₂
  rw [hlist₃] at hzero₃ hclear₃
  have hsame₁ : (freelevel s p clear 1).prev = s.prev ∧ (freelevel s p clear 1).daddr = s.daddr ∧
      (freelevel s p clear 1).mem = mem₁ := by
    rw [hrun₁]
    exact ⟨rfl, rfl, rfl⟩
  have hsame₂ : (freelevel (freelevel s p clear 1) p clear 2).prev = s.prev ∧
      (freelevel (freelevel s p clear 1) p clear 2).daddr = s.daddr ∧
      (freelevel (freelevel s p clear 1) p clear 2).mem = mem₂ := by
    rw [hrun₂]
    exact hsame₁.imp id (And.imp id fun _ => rfl)
  rw [hsame₁.1, hsame₁.2.1] at hzero₂
  rw [hsame₂.1, hsame₂.2.1] at hzero₃
  rw [hsame₁.2.2] at hless₂
  rw [hsame₂.2.2] at hless₃
  refine ⟨mem₃, ?_, hless₁.trans (hless₂.trans hless₃), fun l k hl hl3 hk => ?_, fun hc l k hl hl2 hk x => ?_⟩
  · rw [mmuptpfree, hrun₃, hrun₂, hrun₁]
    have hlists : update (update (update (update (update (update (s.mmuptp p) 0 (s.mmuptp p 1 ++ s.mmuptp p 0)) 1 []) 0
        (s.mmuptp p 2 ++ (s.mmuptp p 1 ++ s.mmuptp p 0))) 2 []) 0
        (s.mmuptp p 3 ++ (s.mmuptp p 2 ++ (s.mmuptp p 1 ++ s.mmuptp p 0)))) 3 [] = freed (s.mmuptp p) := by
      funext l
      rw [freed]
      by_cases h0 : l = 0
      · simp [h0]
      · by_cases h1 : l = 1
        · simp [h1]
        · by_cases h2 : l = 2
          · simp [h2]
          · by_cases h3 : l = 3
            · simp [h3]
            · have hbig : ¬l ≤ 3 := by omega
              simp [h0, h1, h2, h3, hbig]
    simp only [update_self, update_idem]
    rw [← hlists]
    simp
  · obtain rfl | rfl | rfl : l = 1 ∨ l = 2 ∨ l = 3 := by omega
    · exact hless₃.zero (hless₂.zero (hzero₁ k hk))
    · exact hless₃.zero (hzero₂ k hk)
    · exact hzero₃ k hk
  · obtain rfl | rfl : l = 1 ∨ l = 2 := by omega
    · exact hless₃.zero (hless₂.zero (hclear₁ hc k hk x))
    · exact hless₃.zero (hclear₂ hc k hk x)

/-- **Tables are put into the pml4**, each in its own entry. -/
theorem installs_spec (m : Nat) (ks : List Nat) (s : Sys) (hinj : ∀ k ∈ ks, ∀ j ∈ ks, s.daddr k = s.daddr j → k = j) :
    ∃ mem high prev, ks.foldl (install m) s = { s with mem, high, prev } ∧
      (∀ f x, f ≠ .pml4 m → mem f x = s.mem f x) ∧
      (∀ k ∈ ks, mem (.pml4 m) (s.daddr k) = .table (.tab k) ∧ s.daddr k < high m ∧ prev k = .pml4 m) ∧
      (∀ x, (∀ k ∈ ks, s.daddr k ≠ x) → mem (.pml4 m) x = s.mem (.pml4 m) x) ∧
      (∀ k, k ∉ ks → prev k = s.prev k) ∧ (∀ j, j ≠ m → high j = s.high j) ∧ s.high m ≤ high m := by
  induction ks generalizing s with
  | nil => exact ⟨s.mem, s.high, s.prev, rfl, fun _ _ _ => rfl, nofun, fun _ _ => rfl, fun _ _ => rfl, fun _ _ => rfl,
      Nat.le_refl _⟩
  | cons k ks ih =>
    obtain ⟨mem, high, prev, hrun, hother, hin, hout, hprev, hhigh, hmark⟩ := ih (install m s k)
      fun i hi j hj => hinj i (mem_cons_of_mem k hi) j (mem_cons_of_mem k hj)
    have hmem : ∀ f x, ¬(f = .pml4 m ∧ x = s.daddr k) → (install m s k).mem f x = s.mem f x :=
      fun f x h => setpte_ne h
    have hself : (install m s k).mem (.pml4 m) (s.daddr k) = .table (.tab k) := setpte_self
    have hhigh' : (install m s k).high = if s.daddr k ≥ s.high m then update s.high m (s.daddr k + 1) else s.high :=
      rfl
    have hle : s.high m ≤ (install m s k).high m ∧ s.daddr k < (install m s k).high m := by
      rw [hhigh']
      split
      next => rw [update_self]; omega
      next => omega
    have hdaddr : (install m s k).daddr = s.daddr := rfl
    rw [hdaddr] at hin hout
    refine ⟨mem, high, prev, hrun, fun f x hf => ?_, fun j hj => ?_, fun x hx => ?_, fun j hj => ?_, fun j hj => ?_,
      Nat.le_trans hle.1 hmark⟩
    · rw [hother f x hf, hmem f x fun h => hf h.1]
    · by_cases hjk : j ∈ ks
      · exact hin j hjk
      · obtain rfl := (mem_cons.mp hj).resolve_right hjk
        have hnone : ∀ i ∈ ks, s.daddr i ≠ s.daddr j := fun i hi heq =>
          hjk (hinj i (mem_cons_of_mem j hi) j mem_cons_self heq ▸ hi)
        refine ⟨by rw [hout _ hnone, hself], Nat.lt_of_lt_of_le hle.2 hmark, ?_⟩
        rw [hprev j hjk]
        exact @update_self _ (fun _ => Frame) _ _ _ _
    · rw [hout x fun i hi => hx i (mem_cons_of_mem k hi), hmem _ _ fun h => hx k mem_cons_self h.2.symm]
    · rw [hprev j fun hmem => hj (mem_cons_of_mem k hmem)]
      exact update_of_ne (fun heq : j = k => hj (heq ▸ mem_cons_self)) _ _
    · rw [hhigh j hj, hhigh']
      split
      next => exact update_of_ne hj _ _
      next => rfl

/-- Every entry of the users in the pml4 is present, below the mark, and of a table of `p`. -/
def Own (s : Sys) (m p : Nat) : Prop := ∀ x, x < Nuser → s.mem (.pml4 m) x ≠ .zero →
  (s.mem (.pml4 m) x).present = true ∧ x < s.high m ∧ ∃ k ∈ s.mmuptp p 3, s.prev k = .pml4 m ∧ s.daddr k = x

/-- The tables of the process behind the switch. -/
def kept (s : Sys) (p : Nat) : Nat → List Nat := if s.newtlb p then freed (s.mmuptp p) else s.mmuptp p

/-- What `mmuswitch` leaves. -/
structure Switched (s : Sys) (m p : Nat) (t : Sys) : Prop where
  frame : ∃ mem high prev, t = { s with mem, high, prev, mmuptp := update s.mmuptp p (kept s p),
                                        newtlb := update s.newtlb p false }
  other : ∀ f x, f ≠ .pml4 m → t.mem f x = .zero ∨ t.mem f x = s.mem f x
  same : s.newtlb p = false → ∀ f x, f ≠ .pml4 m → t.mem f x = s.mem f x
  freed : s.newtlb p = true → ∀ l k, 1 ≤ l → l ≤ 3 → k ∈ s.mmuptp p l → s.prev k ≠ .pml4 m →
    t.mem (s.prev k) (s.daddr k) = .zero
  cleared : s.newtlb p = true → ∀ l k, 1 ≤ l → l ≤ 2 → k ∈ s.mmuptp p l → ∀ x, t.mem (.tab k) x = .zero
  here : ∀ k ∈ t.mmuptp p 3, t.mem (.pml4 m) (s.daddr k) = .table (.tab k) ∧ s.daddr k < t.high m ∧ t.prev k = .pml4 m
  empty : ∀ x, x < Nuser → (∀ k ∈ t.mmuptp p 3, s.daddr k ≠ x) → t.mem (.pml4 m) x = .zero
  prev : ∀ k, k ∉ t.mmuptp p 3 → t.prev k = s.prev k
  high : ∀ j, j ≠ m → t.high j = s.high j

theorem mmuswitch_spec (hinj : ∀ k ∈ s.mmuptp p 3, ∀ j ∈ s.mmuptp p 3, s.daddr k = s.daddr j → k = j)
    (hown : Own s m p) : Switched s m p (mmuswitch s m p) := by
  -- the tables are taken back, if the process must flush
  obtain ⟨mem₁, high₁, hstart, hless₁, hsame₁, hfreed₁, hclear₁, hhigh₁, hempty₁⟩ : ∃ mem high,
      (if s.newtlb p then { mmuptpfree s m p true with newtlb := update s.newtlb p false } else s) =
        { s with mem, high, mmuptp := update s.mmuptp p (kept s p), newtlb := update s.newtlb p false } ∧
      Less s.mem mem ∧ (s.newtlb p = false → mem = s.mem) ∧
      (s.newtlb p = true → ∀ l k, 1 ≤ l → l ≤ 3 → k ∈ s.mmuptp p l → mem (s.prev k) (s.daddr k) = .zero) ∧
      (s.newtlb p = true → ∀ l k, 1 ≤ l → l ≤ 2 → k ∈ s.mmuptp p l → ∀ x, mem (.tab k) x = .zero) ∧
      (∀ j, j ≠ m → high j = s.high j) ∧
      (∀ x, x < Nuser → mem (.pml4 m) x ≠ .zero → (mem (.pml4 m) x).present = true ∧ x < high m) := by
    cases hnew : s.newtlb p with
    | false =>
      refine ⟨s.mem, s.high, ?_, fun _ _ => Or.inr rfl, fun _ => rfl, nofun, nofun, fun _ _ => rfl, fun x hx hne => ?_⟩
      · have hkept : update s.mmuptp p (kept s p) = s.mmuptp := by
          rw [kept, hnew, if_neg Bool.false_ne_true, update_eq_self]
        have hnewtlb : update s.newtlb p false = s.newtlb := by rw [← hnew, update_eq_self]
        rw [if_neg Bool.false_ne_true, hkept, hnewtlb]
      · exact ⟨(hown x hx hne).1, (hown x hx hne).2.1⟩
    | true =>
      obtain ⟨mem, hrun, hless, hzero, hclear⟩ := mmuptpfree_spec s m p true
      refine ⟨mem, update s.high m 0, ?_, hless, nofun, fun _ => hzero, fun _ => hclear rfl,
        fun j hj => update_of_ne hj _ _, fun x hx hne => ?_⟩
      · rw [if_pos rfl, hrun, kept, hnew, if_pos rfl]
      · -- what there was is of a table that has been taken back
        have hold : s.mem (.pml4 m) x ≠ .zero := fun hz => hne (hless.zero hz)
        obtain ⟨-, -, k, hk, hprev, hdaddr⟩ := hown x hx hold
        have hz := hzero 3 k (by decide) (by decide) hk
        rw [hprev, hdaddr] at hz
        exact absurd hz hne
  -- what is left in the pml4 is cleared
  obtain ⟨mem₂, high₂, hclean, hother₂, hempty₂, hhigh₂⟩ : ∃ mem high,
      (if high₁ m ≠ 0 then Sys.unmap { s with mem := mem₁, high := high₁, mmuptp := update s.mmuptp p (kept s p),
                                              newtlb := update s.newtlb p false } m
        else { s with mem := mem₁, high := high₁, mmuptp := update s.mmuptp p (kept s p),
                      newtlb := update s.newtlb p false }) =
        { s with mem, high, mmuptp := update s.mmuptp p (kept s p), newtlb := update s.newtlb p false } ∧
      (∀ f x, f ≠ .pml4 m → mem f x = mem₁ f x) ∧ (∀ x, x < Nuser → mem (.pml4 m) x = .zero) ∧
      (∀ j, j ≠ m → high j = high₁ j) := by
    split
    next hne =>
      refine ⟨_, _, rfl, fun f x hf => ?_, fun x hx => ?_, fun j hj => ?_⟩
      · exact congrFun (update_of_ne hf _ _) x
      · change update mem₁ (.pml4 m) _ (.pml4 m) x = _
        rw [update_self]
        split
        next => rfl
        next hno =>
          by_contra hz
          exact hno ⟨(hempty₁ x hx hz).2, (hempty₁ x hx hz).1⟩
      · exact update_of_ne hj _ _
    next hzero =>
      rw [ne_eq, not_not] at hzero
      refine ⟨mem₁, high₁, rfl, fun _ _ _ => rfl, fun x hx => ?_, fun _ _ => rfl⟩
      by_contra hz
      have hlt := (hempty₁ x hx hz).2
      omega
  have hthree : ∀ k ∈ kept s p 3, k ∈ s.mmuptp p 3 := by
    intro k hk
    rw [kept] at hk
    split at hk
    next => cases hk
    next => exact hk
  have hlist : (update s.mmuptp p (kept s p)) p 3 = kept s p 3 := by rw [update_self]
  obtain ⟨mem, high, prev, hrun, hother, hin, hout, hprev, hhigh, -⟩ := installs_spec m (kept s p 3)
    { s with mem := mem₂, high := high₂, mmuptp := update s.mmuptp p (kept s p), newtlb := update s.newtlb p false }
    fun k hk j hj => hinj k (hthree k hk) j (hthree j hj)
  have hswitch : mmuswitch s m p = { s with mem, high, prev, mmuptp := update s.mmuptp p (kept s p),
                                            newtlb := update s.newtlb p false } := by
    rw [mmuswitch, hstart]
    dsimp only
    rw [hclean]
    dsimp only
    rw [hlist]
    exact hrun
  have hback : ∀ f x, f ≠ .pml4 m → mem f x = mem₁ f x := fun f x hf => (hother f x hf).trans (hother₂ f x hf)
  rw [hswitch]
  refine ⟨⟨mem, high, prev, rfl⟩, fun f x hf => ?_, fun hnew f x hf => ?_, fun hnew l k hl hl3 hk hne => ?_,
    fun hnew l k hl hl2 hk x => ?_, ?_, fun x hx hno => ?_, ?_, fun j hj => ?_⟩
  · change mem f x = _ ∨ mem f x = _
    rw [hback f x hf]
    exact hless₁ f x
  · change mem f x = _
    rw [hback f x hf, hsame₁ hnew]
  · change mem _ _ = _
    rw [hback _ _ hne, hfreed₁ hnew l k hl hl3 hk]
  · change mem _ _ = _
    rw [hback _ _ (by nofun), hclear₁ hnew l k hl hl2 hk x]
  · change ∀ k ∈ update s.mmuptp p (kept s p) p 3, _
    rw [hlist]
    exact hin
  · change ∀ k ∈ update s.mmuptp p (kept s p) p 3, _ at hno
    rw [hlist] at hno
    exact (hout x hno).trans (hempty₂ x hx)
  · change ∀ k, k ∉ update s.mmuptp p (kept s p) p 3 → _
    rw [hlist]
    exact hprev
  · exact (hhigh j hj).trans ((hhigh₂ j hj).trans (hhigh₁ j hj))

/-- A table is on one list, once. -/
structure Apart (s : Sys) : Prop where
  nodup : ∀ p l, (s.mmuptp p l).Nodup
  sep : ∀ p l q j k, k ∈ s.mmuptp p l → k ∈ s.mmuptp q j → p = q ∧ l = j
  free : s.mmuptpfreelist.Nodup
  unused : ∀ p l k, k ∈ s.mmuptp p l → k ∉ s.mmuptpfreelist
  bound : ∀ k, (k ∈ s.mmuptpfreelist ∨ ∃ p l, k ∈ s.mmuptp p l) → k < s.made

theorem mem_freed {lists : Nat → List Nat} {l : Nat} (h : k ∈ freed lists l) :
    (l = 0 ∧ ∃ j, k ∈ lists j) ∨ k ∈ lists l := by
  rw [freed] at h
  split at h
  next h0 =>
    simp only [mem_append] at h
    rcases h with h | h | h | h
    · exact Or.inl ⟨h0, 3, h⟩
    · exact Or.inl ⟨h0, 2, h⟩
    · exact Or.inl ⟨h0, 1, h⟩
    · exact Or.inl ⟨h0, 0, h⟩
  next =>
    split at h
    next => cases h
    next => exact Or.inr h

/-- Taking the tables back keeps them apart. -/
theorem Apart.freed (h : Apart s) (hlists : t.mmuptp = update s.mmuptp p (freed (s.mmuptp p)))
    (hfree : t.mmuptpfreelist = s.mmuptpfreelist) (hmade : t.made = s.made) : Apart t := by
  have hold : ∀ q j k, k ∈ t.mmuptp q j → ∃ i, k ∈ s.mmuptp q i ∧ (i = j ∨ (q = p ∧ j = 0 ∧ i ≤ 3)) ∧
      (q = p → 1 ≤ j → j ≤ 3 → False) := by
    intro q j k hk
    rw [hlists, update_apply] at hk
    split at hk
    next hq =>
      subst hq
      rw [Mmu.freed] at hk
      split at hk
      next h0 =>
        subst h0
        simp only [mem_append] at hk
        rcases hk with hk | hk | hk | hk
        · exact ⟨3, hk, Or.inr ⟨rfl, rfl, by decide⟩, fun _ h => absurd h (by decide)⟩
        · exact ⟨2, hk, Or.inr ⟨rfl, rfl, by decide⟩, fun _ h => absurd h (by decide)⟩
        · exact ⟨1, hk, Or.inr ⟨rfl, rfl, by decide⟩, fun _ h => absurd h (by decide)⟩
        · exact ⟨0, hk, Or.inl rfl, fun _ h => absurd h (by decide)⟩
      next h0 =>
        split at hk
        next => cases hk
        next hbig => exact ⟨j, hk, Or.inl rfl, fun _ _ hj => hbig hj⟩
    next hq => exact ⟨j, hk, Or.inl rfl, fun heq => absurd heq hq⟩
  refine ⟨fun q j => ?_, fun q j r i k hk hk' => ?_, hfree ▸ h.free, fun q j k hk => ?_, fun k hk => ?_⟩
  · rw [hlists, update_apply]
    split
    next hq =>
      rw [Mmu.freed]
      split
      next =>
        have hne : ∀ a b, a ≠ b → List.Disjoint (s.mmuptp p a) (s.mmuptp p b) := fun a b hab k ha hb =>
          hab (h.sep p a p b k ha hb).2
        simp only [nodup_append', h.nodup, true_and, disjoint_append_right]
        exact ⟨⟨hne 1 0 (by decide), hne 2 1 (by decide), hne 2 0 (by decide)⟩, hne 3 2 (by decide), hne 3 1 (by decide),
          hne 3 0 (by decide)⟩
      next =>
        split
        next => exact nodup_nil
        next => exact h.nodup p j
    next => exact h.nodup q j
  · obtain ⟨a, ha, hja, hno⟩ := hold q j k hk
    obtain ⟨b, hb, hib, hno'⟩ := hold r i k hk'
    obtain ⟨rfl, rfl⟩ := h.sep q a r b k ha hb
    refine ⟨rfl, ?_⟩
    rcases hja with rfl | ⟨hq, rfl, hle⟩
    · rcases hib with rfl | ⟨hq, rfl, hle⟩
      · rfl
      · by_contra hne
        exact hno hq (by omega) hle
    · rcases hib with rfl | ⟨-, rfl, -⟩
      · by_contra hne
        exact hno' hq (by omega) hle
      · rfl
  · obtain ⟨a, ha, -⟩ := hold q j k hk
    rw [hfree]
    exact h.unused q a k ha
  · rw [hmade]
    refine h.bound k ?_
    rcases hk with hk | ⟨q, j, hk⟩
    · exact Or.inl (hfree ▸ hk)
    · obtain ⟨a, ha, -⟩ := hold q j k hk
      exact Or.inr ⟨q, a, ha⟩

/-- What `getpage` gives: a table that is on no list. -/
structure Got (s : Sys) (p : Nat) (r : Nat × Sys) : Prop where
  frame : ∃ mem mmuptp mmuptpfreelist made, r.2 = { s with mem, mmuptp, mmuptpfreelist, made }
  apart : Apart r.2
  lists : ∀ q j, (q = p ∧ j = 0) ∨ r.2.mmuptp q j = s.mmuptp q j
  sub : ∀ k, k ∈ r.2.mmuptp p 0 → k ∈ s.mmuptp p 0
  outside : (∀ q j, r.1 ∉ r.2.mmuptp q j) ∧ r.1 ∉ r.2.mmuptpfreelist ∧ r.1 < r.2.made
  old : ∀ q j, (q = p ∧ j = 0) ∨ r.1 ∉ s.mmuptp q j
  mem : ∀ f x, f ≠ .tab r.1 → r.2.mem f x = s.mem f x
  clear : ∀ x, r.2.mem (.tab r.1) x = .zero ∨ (r.1 ∈ s.mmuptp p 0 ∧ r.2.mem (.tab r.1) x = s.mem (.tab r.1) x)

theorem getpage_spec (h : Apart s) (p : Nat) : Got s p (getpage s p) := by
  rw [getpage]
  split
  next k l hlist =>
    have hk : k ∈ s.mmuptp p 0 := hlist ▸ mem_cons_self
    have hnodup := h.nodup p 0
    rw [hlist, nodup_cons] at hnodup
    have hmem : ∀ q j i, i ∈ (s.setlist p 0 l).mmuptp q j → i ∈ s.mmuptp q j ∧ i ≠ k := by
      intro q j i hi
      change i ∈ update s.mmuptp p (update (s.mmuptp p) 0 l) q j at hi
      by_cases hq : q = p
      · subst hq
        rw [update_self] at hi
        by_cases hj : j = 0
        · subst hj
          rw [update_self] at hi
          exact ⟨hlist ▸ mem_cons_of_mem k hi, fun heq => hnodup.1 (heq ▸ hi)⟩
        · rw [update_of_ne hj] at hi
          exact ⟨hi, fun heq => hj (h.sep q j q 0 k (heq ▸ hi) hk).2⟩
      · rw [update_of_ne hq] at hi
        exact ⟨hi, fun heq => hq (h.sep q j p 0 k (heq ▸ hi) hk).1⟩
    have hother : ∀ q j, (q = p ∧ j = 0) ∨ (s.setlist p 0 l).mmuptp q j = s.mmuptp q j := by
      intro q j
      change _ ∨ update s.mmuptp p (update (s.mmuptp p) 0 l) q j = _
      by_cases hq : q = p
      · subst hq
        by_cases hj : j = 0
        · exact Or.inl ⟨rfl, hj⟩
        · rw [update_self, update_of_ne hj]
          exact Or.inr rfl
      · rw [update_of_ne hq]
        exact Or.inr rfl
    refine ⟨⟨_, _, _, _, rfl⟩, ⟨fun q j => ?_, fun q j r i a ha ha' => h.sep q j r i a (hmem q j a ha).1 (hmem r i a ha').1,
      h.free, fun q j a ha => h.unused q j a (hmem q j a ha).1, fun a ha => h.bound a (ha.imp id fun ⟨q, j, hq⟩ =>
        ⟨q, j, (hmem q j a hq).1⟩)⟩, hother, fun a ha => (hmem p 0 a ha).1,
      ⟨fun q j hq => (hmem q j k hq).2 rfl, h.unused p 0 k hk, h.bound k (Or.inr ⟨p, 0, hk⟩)⟩, fun q j => ?_,
      fun _ _ _ => rfl, fun _ => Or.inr ⟨hk, rfl⟩⟩
    · rcases hother q j with ⟨rfl, rfl⟩ | heq
      · change (update s.mmuptp q (update (s.mmuptp q) 0 l) q 0).Nodup
        rw [update_self, update_self]
        exact hnodup.2
      · rw [heq]
        exact h.nodup q j
    · by_cases hq : q = p ∧ j = 0
      · exact Or.inl hq
      · exact Or.inr fun hin => hq (h.sep q j p 0 k hin hk)
  next =>
    rw [mmuptpalloc]
    split
    next k l hfree =>
      have hnodup := h.free
      rw [hfree, nodup_cons] at hnodup
      have hk : k ∈ s.mmuptpfreelist := hfree ▸ mem_cons_self
      refine ⟨⟨_, _, _, _, rfl⟩, ⟨h.nodup, h.sep, hnodup.2, fun q j a ha hin => h.unused q j a ha (hfree ▸
        mem_cons_of_mem k hin), fun a ha => h.bound a (ha.imp (fun hin => hfree ▸ mem_cons_of_mem k hin) id)⟩,
        fun _ _ => Or.inr rfl, fun _ => id, ⟨fun q j hq => h.unused q j k hq hk, hnodup.1, h.bound k (Or.inl hk)⟩,
        fun q j => Or.inr fun hq => h.unused q j k hq hk, fun f x hf => clear_ne hf, fun x => Or.inl clear_self⟩
    next hfree =>
      have hnew : ∀ q j, s.made ∉ s.mmuptp q j := fun q j hq => Nat.lt_irrefl _ (h.bound _ (Or.inr ⟨q, j, hq⟩))
      refine ⟨⟨_, _, _, _, rfl⟩, { h with bound := fun a ha => Nat.lt_succ_of_lt (h.bound a ha) },
        fun _ _ => Or.inr rfl, fun _ => id, ⟨hnew, fun hin => Nat.lt_irrefl _ (h.bound _ (Or.inl hin)),
          Nat.lt_succ_self _⟩, fun q j => Or.inr (hnew q j), fun f x hf => clear_ne hf, fun x => Or.inl clear_self⟩

end Mmu
