import NixKernel.PhysallocOps

/-!
# physinit

`iimbchunk` covers its range, rounded inwards to `bminsz`, with consecutive
blocks.  Each is plopped into memory that nothing covers yet, so the invariant is
kept and exactly the range is added, except that a block at address 0 is dropped:
`xphysfree` takes that address for nil.
-/

namespace Physalloc

open IndexList Tiling
open Function (update update_self update_of_ne update_eq_self update_idem)

/-- The blocks of `l` follow one another from `a` to `e`. -/
def Consecutive : Nat → List (Nat × Nat) → Nat → Prop
  | a, [], e => a = e
  | a, c :: l, e => c.1 = a ∧ bkmin ≤ c.2 ∧ c.2 ≤ bkmax ∧ Consecutive (a + 2 ^ c.2) l e

theorem Consecutive.append {a m e : Nat} {l r : List (Nat × Nat)} (hl : Consecutive a l m)
    (hr : Consecutive m r e) : Consecutive a (l ++ r) e := by
  induction l generalizing a with
  | nil =>
    have heq : a = m := hl
    rw [heq]
    exact hr
  | cons c l ih => exact ⟨hl.1, hl.2.1, hl.2.2.1, ih hl.2.2.2⟩

theorem Consecutive.le {a e : Nat} {l : List (Nat × Nat)} (h : Consecutive a l e) : a ≤ e := by
  induction l generalizing a with
  | nil => exact Nat.le_of_eq h
  | cons c l ih => exact Nat.le_trans (Nat.le_add_right _ _) (ih h.2.2.2)

theorem Consecutive.eq_nil {a : Nat} {l : List (Nat × Nat)} (h : Consecutive a l a) : l = [] := by
  cases l with
  | nil => rfl
  | cons c l =>
    have hle := h.2.2.2.le
    have hpos := Nat.two_pow_pos c.2
    omega

theorem headChunks_spec {e n a k : Nat} (hk : bkmin ≤ k) (hn : n + k = bkmax) (hae : a ≤ e) :
    Consecutive a (headChunks e n a k).1 (headChunks e n a k).2.1 ∧
      (headChunks e n a k).2.1 ≤ e ∧ bkmin ≤ (headChunks e n a k).2.2 ∧
      (headChunks e n a k).2.2 ≤ bkmax := by
  induction n generalizing a k with
  | zero =>
    have hkmax : k ≤ bkmax := by omega
    exact ⟨rfl, hae, hk, hkmax⟩
  | succ n ih =>
    have hkmax : k ≤ bkmax := by omega
    unfold headChunks
    split
    · next hlt =>
        split
        · obtain ⟨hc, hrest⟩ := ih (a := a + 2 ^ k) (k := k + 1) (by omega) (by omega) (by omega)
          exact ⟨⟨rfl, hk, hkmax, hc⟩, hrest⟩
        · exact ih (by omega) (by omega) hae
    · exact ⟨rfl, hae, hk, hkmax⟩

theorem bodyChunks_spec {e k n a : Nat} (hk : bkmin ≤ k ∧ k ≤ bkmax) (hae : a ≤ e)
    (hn : e < a + (n + 1) * 2 ^ k) :
    Consecutive a (bodyChunks e k n a).1 (bodyChunks e k n a).2 ∧
      (bodyChunks e k n a).2 ≤ e ∧ e < (bodyChunks e k n a).2 + 2 ^ k := by
  induction n generalizing a with
  | zero =>
    refine ⟨rfl, hae, ?_⟩
    rw [Nat.zero_add, Nat.one_mul] at hn
    exact hn
  | succ n ih =>
    unfold bodyChunks
    split
    · next hle =>
        have hmul : (n + 1 + 1) * 2 ^ k = 2 ^ k + (n + 1) * 2 ^ k := by
          rw [Nat.add_mul (n + 1), Nat.one_mul, Nat.add_comm]
        obtain ⟨hc, hrest⟩ := ih (a := a + 2 ^ k) hle (by omega)
        exact ⟨⟨rfl, hk.1, hk.2, hc⟩, hrest⟩
    · exact ⟨rfl, hae, by omega⟩

theorem bminsz_dvd_pow {k : Nat} (hk : bkmin ≤ k) : bminsz ∣ 2 ^ k :=
  Nat.pow_dvd_pow 2 hk

theorem tailChunks_spec {e n a : Nat} (hn : n ≤ bkmax + 1) (hae : a ≤ e) (hlt : e < a + 2 ^ n)
    (ha : bminsz ∣ a) (he : bminsz ∣ e) : Consecutive a (tailChunks e n a) e := by
  induction n generalizing a with
  | zero =>
    show a = e
    omega
  | succ n ih =>
    unfold tailChunks
    split
    · next hlt' =>
        have hdvd : bminsz ∣ e - a := Nat.dvd_sub he ha
        have hge : bminsz ≤ e - a := Nat.le_of_dvd (by omega) hdvd
        have hpow : 2 ^ (n + 1) = 2 ^ n + 2 ^ n := by
          rw [Nat.pow_succ]
          omega
        have hkn : bkmin ≤ n := by
          by_contra hc
          have hle : 2 ^ (n + 1) ≤ bminsz := Nat.pow_le_pow_right (by omega) (by omega)
          omega
        split
        · next hle =>
            have hrest : e < a + 2 ^ n + 2 ^ n := by omega
            refine ⟨rfl, hkn, Nat.le_of_succ_le_succ hn, ?_⟩
            exact ih (by omega) hle hrest (Nat.dvd_add ha (bminsz_dvd_pow hkn))
        · exact ih (by omega) hae (by omega) ha
    · show a = e
      omega

theorem Consecutive.dvd {a e : Nat} {l : List (Nat × Nat)} (h : Consecutive a l e)
    (ha : bminsz ∣ a) : bminsz ∣ e := by
  induction l generalizing a with
  | nil =>
    have heq : a = e := h
    rw [← heq]
    exact ha
  | cons c l ih => exact ih h.2.2.2 (Nat.dvd_add ha (bminsz_dvd_pow h.2.1))

/-- The first and the last index of a range, rounded inwards. -/
def firstUnit (a : Nat) : Nat := (a + (bminsz - 1)) / bminsz

def lastUnit (e : Nat) : Nat := e / bminsz

/-- **The blocks of a range.**  They follow one another and fill it. -/
theorem chunks_spec (a e : Nat) :
    (firstUnit a ≤ lastUnit e →
      Consecutive (firstUnit a * bminsz) (chunks a e) (lastUnit e * bminsz)) ∧
    (lastUnit e < firstUnit a → chunks a e = []) := by
  have hbpos : 0 < bminsz := Nat.two_pow_pos _
  have hchunks : ∀ h, headChunks (lastUnit e * bminsz) (bkmax - bkmin) (firstUnit a * bminsz) bkmin = h →
      ∀ b, bodyChunks (lastUnit e * bminsz) h.2.2 (lastUnit e * bminsz / 2 ^ h.2.2) h.2.1 = b →
        chunks a e = h.1 ++ b.1 ++ tailChunks (lastUnit e * bminsz) h.2.2 b.2 := by
    rintro _ rfl _ rfl
    rfl
  have hnine : bkmax - bkmin + bkmin = bkmax := by decide
  generalize hA : firstUnit a * bminsz = A at hchunks ⊢
  generalize hE : lastUnit e * bminsz = E at hchunks ⊢
  replace hchunks := hchunks _ rfl _ rfl
  constructor
  · intro hle
    have hAE : A ≤ E := by
      rw [← hA, ← hE]
      exact Nat.mul_le_mul_right _ hle
    have hdA : bminsz ∣ A := by
      rw [← hA]
      exact Nat.dvd_mul_left _ _
    have hdE : bminsz ∣ E := by
      rw [← hE]
      exact Nat.dvd_mul_left _ _
    obtain ⟨hc₁, hle₁, hk₁⟩ := headChunks_spec (Nat.le_refl bkmin) hnine hAE
    generalize headChunks E (bkmax - bkmin) A bkmin = r at hchunks hc₁ hle₁ hk₁
    have hfuel : E < r.2.1 + (E / 2 ^ r.2.2 + 1) * 2 ^ r.2.2 := by
      have hdiv := Nat.lt_div_mul_add (a := E) (b := 2 ^ r.2.2) (Nat.two_pow_pos _)
      rw [Nat.add_mul, Nat.one_mul]
      omega
    obtain ⟨hc₂, hle₂, hlt₂⟩ := bodyChunks_spec hk₁ hle₁ hfuel
    have hd₂ := hc₂.dvd (hc₁.dvd hdA)
    have hc₃ := tailChunks_spec (by omega) hle₂ hlt₂ hd₂ hdE
    rw [hchunks]
    exact (hc₁.append hc₂).append hc₃
  · intro hlt
    have hEA : E < A := by
      rw [← hA, ← hE]
      exact Nat.mul_lt_mul_of_pos_right hlt hbpos
    have hhead : headChunks E (bkmax - bkmin) A bkmin = ([], A, bkmin) := by
      have hnot : ¬ A + 2 ^ bkmin < E := by
        have hpow := Nat.two_pow_pos bkmin
        omega
      show headChunks E (8 + 1) A bkmin = _
      rw [headChunks, if_neg hnot]
    have hbody : ∀ n, bodyChunks E bkmin n A = ([], A) := by
      intro n
      cases n with
      | zero => rfl
      | succ n =>
        have hnot : ¬ A + 2 ^ bkmin ≤ E := by
          have hpow := Nat.two_pow_pos bkmin
          omega
        rw [bodyChunks, if_neg hnot]
    have htail : tailChunks E bkmin A = [] := by
      have hnot : ¬ A < E := by omega
      show tailChunks E (20 + 1) A = []
      rw [tailChunks, if_neg hnot]
    rw [hchunks, hhead]
    simp only [hbody, htail, List.append_nil]

variable {B A : Prop} {b b' : Bal} {given : Nat → Prop} {held : Nat → Bool} {L : Nat → List Nat}
  {i j k : Nat}

/-- The table with the size of block `i` noted, before `plop` frees it. -/
def Bal.noted (b : Bal) (i k : Nat) : Bal := b.set (b.block i) fun l => { l with kval := k }

/-- Memory given to the allocator, with one block more. -/
def givenWith (given : Nat → Prop) (i j : Nat) (x : Nat) : Prop := given x ∨ (i ≤ x ∧ x < j)

theorem noted_fields (hlow : b.low ≤ i) (hj : b.low ≤ j) :
    ((b.noted i k).at j).avail = (b.at j).avail ∧
      ((b.noted i k).at j).kval = if j = i then k else (b.at j).kval := by
  unfold Bal.noted
  rw [at_setKval hlow hj (fun _ => k)]
  exact ⟨rfl, rfl⟩

theorem low_noted (b : Bal) (i k : Nat) : (b.noted i k).low = b.low := rfl

/-- New memory becomes a block that is held, or one that nobody has. -/
theorem Inv.noted (h : Inv B A b given held L) (hlow : b.low ≤ i) (v : Bool)
    (hi : v = true → i ≠ 0) (hk : bkmin ≤ k ∧ k ≤ bkmax)
    (hnew : ∀ x, i ≤ x → x < i + units k → ¬ given x) :
    Inv B A (b.noted i k) (givenWith given i (i + units k)) (update held i v) L ∧
      (b.noted i k).tiles (update held i v) =
        update (b.tiles held) i (if v then some (units k) else none) ∧
      held i = false ∧ b.tiles held i = none := by
  have hg := h.good
  have hpos := units_pos hk.1
  have hfree : ∀ x, i ≤ x → x < i + units k → ¬ Covers (b.tiles held) x :=
    fun x hx hx' hc => hnew x hx hx' (hg.within hc)
  obtain ⟨hused, hheld⟩ := hg.used_of_uncovered hlow (hfree i (Nat.le_refl _) (by omega))
  have hnone := (tiles_eq_none hlow).mpr ⟨hused, hheld⟩
  have hat := fun {j} hj => noted_fields (k := k) (j := j) hlow hj
  have htiles : (b.noted i k).tiles (update held i v) =
      update (b.tiles held) i (if v then some (units k) else none) := by
    apply tiles_update (low_noted b i k)
    · intro j hj hji
      rw [(hat hj).1, (hat hj).2, if_neg hji, update_of_ne hji]
      exact ⟨rfl, rfl, rfl⟩
    · unfold Bal.tiles
      rw [low_noted, (hat hlow).1, (hat hlow).2, if_pos rfl, hused, update_self]
      simp [hlow]
  refine ⟨⟨⟨hg.lists.setKval hlow hused (fun _ => k), ?_, ?_, ?_, ?_, ?_⟩, ?_, ?_⟩, htiles, hheld, hnone⟩
  · rw [htiles]
    cases v with
    | true => exact hg.packed.add hpos hfree
    | false => exact hg.packed.remove i
  · intro j hj hblk
    rw [low_noted] at hj
    rw [(hat hj).1] at hblk
    rw [(hat hj).2]
    by_cases hji : j = i
    · rw [hji, hused, update_self] at hblk
      rw [if_pos hji, hji]
      exact ⟨hi (by simpa using hblk), hk⟩
    · rw [if_neg hji]
      rw [update_of_ne hji] at hblk
      exact hg.kvals hj hblk
  · intro j hj
    rw [low_noted]
    by_cases hji : j = i
    · rw [hji, (hat hlow).1]
      exact ⟨hlow, hused⟩
    · rw [update_of_ne hji] at hj
      have hold := hg.used hj
      rw [(hat hold.1).1]
      exact hold
  · intro x hx
    rw [htiles] at hx
    cases v with
    | true =>
      rw [if_pos rfl, covers_add hnone] at hx
      exact hx.imp hg.within id
    | false =>
      rw [if_neg (by decide), ← hnone, update_eq_self] at hx
      exact Or.inl (hg.within hx)
  · intro j hj hgiv
    rw [low_noted] at hj
    have hji : j ≠ i := fun heq => hgiv (Or.inr (by omega))
    rw [(hat hj).2, if_neg hji]
    exact hg.fresh j hj (fun hc => hgiv (Or.inl hc))
  · intro hB
    obtain ⟨hzero, hback⟩ := h.backed hB
    exact ⟨hzero, hback.setKval hg.lists.sane hlow (fun _ => k)⟩
  · intro hA
    exact (h.attached hA).setKval hlow hused (fun _ => k)

/-- The merges of one `plop` meet `ok`. -/
def plopOk (ok : Bal → Nat → Prop) (b : Bal) (i k : Nat) : Prop :=
  i ≠ 0 → mergesOk ok (bkmax + 1) (b.noted i k) i

/-- `plop` adds one block of new memory. -/
theorem Inv.plop (h : Inv B A b given held L) (hlow : b.low ≤ i)
    (hk : bkmin ≤ k ∧ k ≤ bkmax) (hnew : ∀ x, i ≤ x → x < i + units k → ¬ given x)
    (hok : plopOk (MergeOk B A) b i k) :
    ∃ b' L', b.plop (bminsz * i) k = some b' ∧
      Inv B A b' (givenWith given i (i + units k)) held L' ∧ Kept (fun _ => False) b held b' ∧
      (i ≠ 0 → ∀ x, Covers (b'.tiles held) x ↔
        Covers (b.tiles held) x ∨ (i ≤ x ∧ x < i + units k)) := by
  have hbpos : 0 < bminsz := Nat.two_pow_pos _
  have hindex : index (bminsz * i) = i := Nat.mul_div_cancel_left i hbpos
  have hrun : b.plop (bminsz * i) k = (b.noted i k).xphysfree (bminsz * i) := by
    unfold Bal.plop Bal.noted
    rw [hindex]
  have hkeep : ∀ x, held x = true → x ≠ i → ((b.noted i k).at x).kval = (b.at x).kval := by
    intro x hx hxi
    rw [(noted_fields hlow (h.good.used hx).1).2, if_neg hxi]
  by_cases hi : i = 0
  · obtain ⟨hinv, _, hheld, _⟩ := h.noted hlow false (fun hc => by cases hc) hk hnew
    have hsame : update held i false = held := by
      rw [← hheld]
      exact update_eq_self _ _
    rw [hsame] at hinv
    refine ⟨b.noted i k, L, ?_, hinv, ⟨rfl, ?_⟩, fun hne => absurd hi hne⟩
    · rw [hrun, hi]
      rfl
    · intro x hx _
      apply hkeep x hx
      intro heq
      rw [heq, hheld] at hx
      cases hx
  · obtain ⟨hinv, htiles, hheld, hnone⟩ := h.noted hlow true (fun _ => hi) hk hnew
    have hnoted : ((b.noted i k).at i).kval = k := by
      rw [(noted_fields hlow hlow).2, if_pos rfl]
    obtain ⟨b', L', hlib, hinv', hkept, hcov⟩ := hinv.liberate (n := bkmax + 1)
      (update_self _ _ _) (by omega) (hok hi)
    have hsame : update (update held i true) i false = held := by
      rw [update_idem, ← hheld]
      exact update_eq_self _ _
    rw [hsame] at hinv' hcov
    refine ⟨b', L', ?_, hinv', ⟨hkept.range, ?_⟩, ?_⟩
    · have hne : bminsz * i ≠ 0 := Nat.mul_ne_zero (by omega) hi
      rw [hrun]
      unfold Bal.xphysfree
      rw [if_neg hne, hindex, hlib]
    · intro x hx _
      have hxi : x ≠ i := by
        intro heq
        rw [heq, hheld] at hx
        cases hx
      have hx' : update held i true x = true := by
        rw [update_of_ne hxi]
        exact hx
      rw [hkept.kval x hx' hxi, hkeep x hx hxi]
    · intro _ x
      rw [hcov, htiles, if_pos rfl, covers_add hnone]

/-- The merges of a sequence of plops meet `ok`. -/
def plopsOk (ok : Bal → Nat → Prop) : Bal → List (Nat × Nat) → Prop
  | _, [] => True
  | b, (a, k) :: l =>
    plopOk ok b (index a) k ∧ ∀ b', b.plop a k = some b' → plopsOk ok b' l

theorem plopsOk.mono {ok ok' : Bal → Nat → Prop} {l : List (Nat × Nat)}
    (himp : ∀ b p, ok b p → ok' b p) (h : plopsOk ok b l) : plopsOk ok' b l := by
  induction l generalizing b with
  | nil => trivial
  | cons c l ih =>
    obtain ⟨hfirst, hrest⟩ := h
    exact ⟨fun hne => (hfirst hne).mono himp, fun b' hrun => ih (hrest b' hrun)⟩

theorem units_mul (hk : bkmin ≤ k) : bminsz * units k = 2 ^ k :=
  Nat.mul_div_cancel' (bminsz_dvd_pow hk)

theorem Inv.congr {given' : Nat → Prop} (h : Inv B A b given held L)
    (hg : ∀ x, given x ↔ given' x) : Inv B A b given' held L := by
  have heq : given = given' := funext fun x => propext (hg x)
  rw [← heq]
  exact h

/-- **Plopping a range.** -/
theorem Inv.plops {l : List (Nat × Nat)} (h : Inv B A b given held L)
    (hl : Consecutive (bminsz * i) l (bminsz * j)) (hlow : b.low ≤ i)
    (hnew : ∀ x, i ≤ x → x < j → ¬ given x) (hok : plopsOk (MergeOk B A) b l) :
    ∃ b' L', b.plops l = some b' ∧ Inv B A b' (givenWith given i j) held L' ∧
      Kept (fun _ => False) b held b' ∧
      (i ≠ 0 → ∀ x, Covers (b'.tiles held) x ↔ Covers (b.tiles held) x ∨ (i ≤ x ∧ x < j)) := by
  have hbpos : 0 < bminsz := Nat.two_pow_pos _
  induction l generalizing b i given L with
  | nil =>
    have hij : i = j := Nat.eq_of_mul_eq_mul_left hbpos hl
    subst hij
    refine ⟨b, L, rfl, h.congr ?_, Kept.refl _ _ _, ?_⟩
    · intro x
      constructor
      · intro hx
        exact Or.inl hx
      · intro hx
        rcases hx with hx | hx
        · exact hx
        · omega
    · intro _ x
      constructor
      · intro hx
        exact Or.inl hx
      · intro hx
        rcases hx with hx | hx
        · exact hx
        · omega
  | cons c l ih =>
    obtain ⟨a, k⟩ := c
    obtain ⟨ha, hkmin, hkmax, hrest⟩ := hl
    simp only at ha hkmin hkmax hrest
    subst ha
    have hindex : index (bminsz * i) = i := Nat.mul_div_cancel_left i hbpos
    rw [← units_mul hkmin, ← Nat.mul_add] at hrest
    have hle : i + units k ≤ j := Nat.le_of_mul_le_mul_left hrest.le hbpos
    have hpos := units_pos hkmin
    obtain ⟨hok₁, hok₂⟩ := hok
    rw [hindex] at hok₁
    obtain ⟨b₁, L₁, hrun₁, hinv₁, hkept₁, hcov₁⟩ := h.plop hlow ⟨hkmin, hkmax⟩
      (fun x hx hx' => hnew x hx (by omega)) hok₁
    have hlow₁ : b₁.low ≤ i + units k := by
      rw [low_of_range hkept₁.range]
      omega
    have hnew₁ : ∀ x, i + units k ≤ x → x < j → ¬ givenWith given i (i + units k) x := by
      intro x hx hx' hc
      rcases hc with hc | hc
      · exact hnew x (by omega) hx' hc
      · omega
    obtain ⟨b', L', hrun, hinv, hkept, hcov⟩ := ih hinv₁ hrest hlow₁ hnew₁ (hok₂ b₁ hrun₁)
    have hjoin : ∀ {P : Prop} x, ((P ∨ (i ≤ x ∧ x < i + units k)) ∨ (i + units k ≤ x ∧ x < j)) ↔
        (P ∨ (i ≤ x ∧ x < j)) := by
      intro P x
      by_cases hP : P
      · simp [hP]
      · simp only [hP, false_or]
        omega
    refine ⟨b', L', ?_, hinv.congr (fun x => hjoin x), ⟨hkept.range.trans hkept₁.range, ?_⟩, ?_⟩
    · simp [Bal.plops, hrun₁, hrun]
    · intro x hx hno
      exact (hkept.kval x hx hno).trans (hkept₁.kval x hx hno)
    · intro hi x
      rw [hcov (by omega), hcov₁ hi]
      exact hjoin x

end Physalloc
