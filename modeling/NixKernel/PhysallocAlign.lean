import NixKernel.PhysallocDomains

/-!
# Alignment of physical memory

`iimbchunk` cuts a range by absolute addresses, so every block it makes starts at a multiple of its
size, and splitting keeps that.  Buddies, on the other hand, are counted from `memory`, which is
`sys->pmstart`, 6 MiB or three units on this machine.
-/

namespace Physalloc

open IndexList Tiling StepSystem List Option
open Function (update update_self update_of_ne)

variable {b b' : Bal} {L : Nat → List Nat} {i j k n p x : Nat}

theorem kval_set_same {f : Buddy → Buddy} (hf : ∀ l, (f l).kval = l.kval) (b : Bal) (r x : Nat) :
    ((b.set r f).at x).kval = (b.at x).kval := by
  change (update b.blocks r (f (b.blocks r)) (b.block x)).kval = _
  by_cases hr : b.block x = r
  · rw [hr, update_self, hf, ← hr]
    rfl
  · rw [update_of_ne hr]
    rfl

theorem kval_putOn (hi : b.low ≤ i) (hx : b.low ≤ x) :
    ((b.putOn k i).at x).kval = if x = i then k else (b.at x).kval := by
  have hset : ((b.set (b.block i) fun _ =>
      { avail := true, kval := k, next := b.avail k, prev := 0 }).at x).kval =
      if x = i then k else (b.at x).kval := by
    rw [at_set hi hx]
    split_ifs <;> rfl
  rw [← hset]
  unfold Bal.putOn
  dsimp only
  by_cases hn : b.avail k = 0
  · rw [if_neg (not_not.mpr hn)]
    rfl
  · rw [if_pos hn]
    change ((Bal.set (Bal.set b (b.block i) fun _ => _) _ fun l => { l with prev := i }).at x).kval = _
    exact kval_set_same (fun _ => by rfl) _ _ _

theorem kval_takeOff (b : Bal) (p x : Nat) : ((b.takeOff p).at x).kval = (b.at x).kval := by
  have hprev : ((b.unlinkPrev p).at x).kval = (b.at x).kval := by
    unfold Bal.unlinkPrev
    dsimp only
    split
    · exact (kval_set_same (fun _ => by rfl) _ _ _).trans (kval_set_same (fun _ => by rfl) _ _ _)
    · rfl
  have hnext : (((b.unlinkPrev p).unlinkNext p).at x).kval = ((b.unlinkPrev p).at x).kval := by
    unfold Bal.unlinkNext
    dsimp only
    split
    · exact (kval_set_same (fun _ => by rfl) _ _ _).trans (kval_set_same (fun _ => by rfl) _ _ _)
    · rfl
  exact (kval_set_same (fun _ => by rfl) _ _ _).trans (hnext.trans hprev)

theorem kval_merge (hlow : b.low ≤ min (b.buddy i) i) (hx : b.low ≤ x) :
    ((b.merge i).1.at x).kval =
      if x = min (b.buddy i) i then (b.at x).kval + 1 else (b.at x).kval := by
  unfold Bal.merge
  dsimp only
  rw [at_set (by rw [low_takeOff]; exact hlow) (by rw [low_takeOff]; exact hx)]
  split_ifs with heq
  · rw [heq]
    exact congrArg (· + 1) (kval_takeOff b _ _)
  · exact kval_takeOff b _ _

theorem kval_pop (hi : b.low ≤ b.avail j) (hx : b.low ≤ x) :
    ((b.pop j k).at x).kval = if x = b.avail j then k else (b.at x).kval :=
  (at_pop_fields hi hx).2.1

theorem units_eq_two_pow (n : Nat) : units (bkmin + n) = 2 ^ n := by
  unfold units bminsz
  rw [Nat.pow_add, Nat.mul_div_cancel_left _ (Nat.two_pow_pos _)]

/-- **Buddies are counted from `pmstart`.**  With the table at 6 MiB, the lower one of two aligned
buddies starts a block of twice the size exactly when both have 4 MiB. -/
theorem units_dvd_min_buddy (hlow3 : b.low = 3) (hlow : b.low ≤ i) (hk : bkmin ≤ (b.at i).kval)
    (hdvd : units (b.at i).kval ∣ i) :
    units ((b.at i).kval + 1) ∣ min (b.buddy i) i ↔ (b.at i).kval = bkmin + 1 := by
  obtain ⟨n, hn⟩ := Nat.exists_eq_add_of_le hk
  have hblock : b.block i = i - 3 := by
    change i - b.low = _
    rw [hlow3]
  rw [hlow3] at hlow
  rw [units_succ hk]
  unfold Bal.buddy
  dsimp only
  rw [hblock, hn]
  rw [hn, units_eq_two_pow] at hdvd
  rw [units_eq_two_pow]
  match n with
  | 0 =>
    rw [Nat.pow_zero, Nat.div_one]
    refine iff_of_false ?_ (by omega)
    split_ifs <;> omega
  | 1 =>
    rw [Nat.pow_one] at hdvd ⊢
    refine iff_of_true ?_ rfl
    split_ifs <;> omega
  | n + 2 =>
    obtain ⟨m, rfl⟩ := hdvd
    generalize hu : 2 ^ (n + 2) = u at *
    have hfour : 4 ≤ u := by
      rw [← hu, Nat.pow_add]
      have hpos := Nat.two_pow_pos n
      omega
    refine iff_of_false ?_ (by omega)
    obtain ⟨m, rfl⟩ : ∃ k, m = k + 1 := ⟨m - 1, by
      have hm : m ≠ 0 := by
        rintro rfl
        omega
      omega⟩
    have hquot : (u * (m + 1) - 3) / u = m := by
      have hsplit : u * (m + 1) - 3 = u - 3 + u * m := by
        rw [Nat.mul_succ]
        omega
      rw [hsplit, Nat.add_mul_div_left _ _ (by omega), Nat.div_eq_of_lt (by omega), Nat.zero_add]
    rw [hquot]
    have hodd : ∀ q, q % 2 = 1 → ¬u + u ∣ u * q := by
      intro q hq hc
      rw [← Nat.mul_two] at hc
      have hdvd := Nat.dvd_of_mul_dvd_mul_left (by omega) hc
      omega
    by_cases hm : m % 2 = 1
    · rw [if_pos hm]
      have hmin : min (u * (m + 1) - u) (u * (m + 1)) = u * m := by
        rw [Nat.mul_succ]
        omega
      rw [hmin]
      exact hodd m hm
    · rw [if_neg hm]
      have hmin : min (u * (m + 1) + u) (u * (m + 1)) = u * (m + 1) := by omega
      rw [hmin]
      exact hodd _ (by omega)

/-- Every entry of the table has the size of a block that may start there. -/
def Bal.Aligned (b : Bal) : Prop :=
  ∀ i, b.low ≤ i → bkmin ≤ (b.at i).kval → units (b.at i).kval ∣ i

theorem units_dvd_units {j k : Nat} (hk : bkmin ≤ k) (hkj : k ≤ j) : units k ∣ units j := by
  obtain ⟨m, rfl⟩ := Nat.exists_eq_add_of_le hk
  obtain ⟨n, rfl⟩ := Nat.exists_eq_add_of_le hkj
  rw [Nat.add_assoc, units_eq_two_pow, units_eq_two_pow]
  exact Nat.pow_dvd_pow 2 (by omega)

theorem Bal.Aligned.putOn (h : b.Aligned) (hi : b.low ≤ i) (hdvd : bkmin ≤ k → units k ∣ i) :
    (b.putOn k i).Aligned := by
  intro x hx hk
  rw [low_putOn] at hx
  rw [kval_putOn hi hx] at hk ⊢
  split_ifs at hk ⊢ with hxi
  · rw [hxi]
    exact hdvd hk
  · exact h x hx hk

/-- The merge of two blocks of 4 MiB. -/
theorem Bal.Aligned.merge (h : b.Aligned) (hlow3 : b.low = 3) (hi : b.low ≤ i)
    (hstop : b.stops i = false) (hk : (b.at (b.buddy i)).kval = bkmin + 1) :
    b.low ≤ (b.merge i).2 ∧ (b.merge i).1.low = b.low ∧ (b.merge i).1.Aligned := by
  obtain ⟨_, _, hsame⟩ := not_stops hstop
  have hmin : b.low ≤ min (b.buddy i) i := by
    rcases buddy_cases (b := b) hi with hc | hc <;> omega
  have hlow : (b.merge i).1.low = b.low := low_of_range (range_merge b i)
  refine ⟨hmin, hlow, fun x hx hkx => ?_⟩
  rw [hlow] at hx
  rw [kval_merge hmin hx] at hkx ⊢
  split_ifs at hkx ⊢ with hxm
  · have hki : (b.at x).kval = (b.at i).kval := by
      rw [hxm]
      rcases Nat.le_total (b.buddy i) i with hle | hle
      · rw [Nat.min_eq_left hle, hsame]
      · rw [Nat.min_eq_right hle]
    have hkmin : bkmin ≤ (b.at i).kval := by omega
    rw [hki, hxm]
    exact (units_dvd_min_buddy hlow3 hi hkmin (h i hi hkmin)).mpr (by omega)
  · exact h x hx hkx

/-- Two blocks of 4 MiB are merged, and the `prev` of the one taken off is nil or answered. -/
def Mates (b : Bal) (p : Nat) : Prop := Answered b p ∧ (b.at p).kval = bkmin + 1

instance (b : Bal) (p : Nat) : Decidable (Mates b p) := inferInstanceAs (Decidable (_ ∧ _))

theorem Bal.Aligned.liberate (h : b.Aligned) (hlow3 : b.low = 3) (hi : b.low ≤ i)
    (hok : mergesOk Mates n b i) (hrun : b.liberate n i = some b') : b'.Aligned := by
  induction n generalizing b i with
  | zero => cases hrun
  | succ n ih =>
    unfold Bal.liberate at hrun
    split at hrun
    · cases hrun
    · next hunits =>
        split at hrun
        · cases hrun
          exact h.putOn hi fun hk => h i hi hk
        · next hstop =>
            have hstop' : b.stops i = false := by simpa using hstop
            rcases hok with hc | ⟨hmates, hrest⟩
            · exact absurd hc hstop
            · obtain ⟨hi', hlow', hmerge⟩ := h.merge hlow3 hi hstop' hmates.2
              exact ih hmerge (hlow'.trans hlow3) (by rw [hlow']; exact hi') hrest hrun

theorem Bal.Aligned.xphysfree {a : Nat} (h : b.Aligned) (hlow3 : b.low = 3) (hi : b.low ≤ index a)
    (hok : mergesOk Mates (bkmax + 1) b (index a)) (hrun : b.xphysfree a = some b') : b'.Aligned := by
  unfold Bal.xphysfree at hrun
  split at hrun
  · cases hrun
    exact h
  · exact h.liberate hlow3 hi hok hrun

theorem Bal.Aligned.split (h : b.Aligned) (hi : b.low ≤ i) (hk : bkmin ≤ k)
    (hdvd : units (k + n) ∣ i) : (b.split i k n).Aligned := by
  induction n generalizing b with
  | zero => exact h
  | succ n ih =>
    have hhalf : units (k + n) ∣ i := Nat.dvd_trans (units_dvd_units (by omega) (by omega)) hdvd
    have hput := h.putOn (k := k + n) (i := i + units (k + n)) (by omega)
      fun _ => Nat.dvd_add hhalf (Nat.dvd_refl _)
    exact ih hput (by rw [low_putOn]; exact hi) hhalf

theorem Bal.Aligned.pop (h : b.Aligned) (hlow : b.low ≤ b.avail j) (hdvd : units k ∣ b.avail j) :
    (b.pop j k).Aligned := by
  intro x hx hk
  rw [low_pop] at hx
  rw [kval_pop hlow hx] at hk ⊢
  split_ifs at hk ⊢ with hxi
  · rw [hxi]
    exact hdvd
  · exact h x hx hk

theorem Bal.Aligned.xphysalloc {size m : Nat} (h : b.Aligned) (hL : Lists b L)
    (hrun : b.xphysalloc size = some (b', m)) : b'.Aligned := by
  unfold Bal.xphysalloc at hrun
  split at hrun
  · cases hrun
  · dsimp only at hrun
    have hkmin := bkmin_le_blockKval size
    split at hrun
    · cases hrun
      exact h
    · next j hfind =>
        have hj := mem_of_find?_eq_some hfind
        rw [mem_range'_1] at hj
        have hne : b.avail j ≠ 0 := by simpa using List.find?_some hfind
        obtain ⟨hlow, _, hkj⟩ := hL.first_at hne
        have hdvd : units j ∣ b.avail j := by
          have hown := h _ hlow (by omega)
          rwa [hkj] at hown
        have hpop := h.pop hlow (Nat.dvd_trans (units_dvd_units hkmin hj.1) hdvd)
        have hsplit := hpop.split (i := b.avail j) (n := j - blockKval size) hlow hkmin
          (by rw [Nat.add_sub_cancel' hj.1]; exact hdvd)
        split at hrun
        · cases hrun
          exact hsplit
        · cases hrun


/-- A bit that is set in an aligned address and added to it clears. -/
theorem dvd_add_of_and {a : Nat} (hdvd : 2 ^ k ∣ a) (hbit : a &&& 2 ^ k ≠ 0) :
    2 ^ (k + 1) ∣ a + 2 ^ k := by
  obtain ⟨m, rfl⟩ := hdvd
  have hodd : m % 2 = 1 := by
    by_contra hm
    apply hbit
    rw [Nat.and_two_pow, Nat.testBit_eq_decide_div_mod_eq, Nat.mul_div_cancel_left _ (Nat.two_pow_pos k),
      decide_eq_false hm]
    simp
  rw [Nat.pow_succ, ← Nat.mul_succ]
  exact Nat.mul_dvd_mul_left _ (by omega)

/-- The same with the bit clear. -/
theorem dvd_of_and {a : Nat} (hdvd : 2 ^ k ∣ a) (hbit : ¬a &&& 2 ^ k ≠ 0) : 2 ^ (k + 1) ∣ a := by
  obtain ⟨m, rfl⟩ := hdvd
  have heven : ¬m % 2 = 1 := by
    intro hm
    apply hbit
    rw [Nat.and_two_pow, Nat.testBit_eq_decide_div_mod_eq, Nat.mul_div_cancel_left _ (Nat.two_pow_pos k),
      decide_eq_true hm]
    simp
  rw [Nat.pow_succ]
  exact Nat.mul_dvd_mul_left _ (by omega)

theorem headChunks_aligned {a e : Nat} (hdvd : 2 ^ k ∣ a) :
    (∀ c ∈ (headChunks e n a k).1, 2 ^ c.2 ∣ c.1) ∧
      2 ^ (headChunks e n a k).2.2 ∣ (headChunks e n a k).2.1 := by
  induction n generalizing a k with
  | zero => exact ⟨fun _ hc => absurd hc not_mem_nil, hdvd⟩
  | succ n ih =>
    unfold headChunks
    split
    · split
      · next hbit =>
          obtain ⟨hall, hend⟩ := ih (dvd_add_of_and hdvd hbit)
          refine ⟨fun c hc => ?_, hend⟩
          rcases mem_cons.mp hc with rfl | hc
          · exact hdvd
          · exact hall c hc
      · next hbit => exact ih (dvd_of_and hdvd hbit)
    · exact ⟨fun _ hc => absurd hc not_mem_nil, hdvd⟩

theorem bodyChunks_aligned {a e : Nat} (hdvd : 2 ^ k ∣ a) :
    (∀ c ∈ (bodyChunks e k n a).1, 2 ^ c.2 ∣ c.1) ∧ 2 ^ k ∣ (bodyChunks e k n a).2 := by
  induction n generalizing a with
  | zero => exact ⟨fun _ hc => absurd hc not_mem_nil, hdvd⟩
  | succ n ih =>
    unfold bodyChunks
    split
    · obtain ⟨hall, hend⟩ := ih (Nat.dvd_add hdvd (Nat.dvd_refl _))
      refine ⟨fun c hc => ?_, hend⟩
      rcases mem_cons.mp hc with rfl | hc
      · exact hdvd
      · exact hall c hc
    · exact ⟨fun _ hc => absurd hc not_mem_nil, hdvd⟩

theorem tailChunks_aligned {a e : Nat} (hdvd : 2 ^ n ∣ a) :
    ∀ c ∈ tailChunks e n a, 2 ^ c.2 ∣ c.1 := by
  induction n generalizing a with
  | zero =>
    intro c hc
    cases hc
  | succ n ih =>
    intro c hc
    have hless : 2 ^ n ∣ a := Nat.dvd_trans (Nat.pow_dvd_pow 2 (Nat.le_succ n)) hdvd
    unfold tailChunks at hc
    split at hc
    · split at hc
      · rcases mem_cons.mp hc with rfl | hc
        · exact hless
        · exact ih (Nat.dvd_add hless (Nat.dvd_refl _)) c hc
      · exact ih hless c hc
    · cases hc

/-- **The initial blocks are aligned**: `iimbchunk` goes by absolute addresses. -/
theorem chunks_aligned (a e : Nat) : ∀ c ∈ chunks a e, 2 ^ c.2 ∣ c.1 := by
  intro c hc
  have hstart : 2 ^ bkmin ∣ (a + (bminsz - 1)) / bminsz * bminsz := Nat.dvd_mul_left _ _
  obtain ⟨hhead, hmid⟩ := headChunks_aligned (e := e / bminsz * bminsz) (n := bkmax - bkmin) hstart
  obtain ⟨hbody, hend⟩ := bodyChunks_aligned (e := e / bminsz * bminsz)
    (n := e / bminsz * bminsz / 2 ^ (headChunks (e / bminsz * bminsz) (bkmax - bkmin)
      ((a + (bminsz - 1)) / bminsz * bminsz) bkmin).2.2) hmid
  have htail := tailChunks_aligned (e := e / bminsz * bminsz) hend
  rcases mem_append.mp hc with hc | hc
  · rcases mem_append.mp hc with hc | hc
    · exact hhead c hc
    · exact hbody c hc
  · exact htail c hc

theorem Bal.Aligned.plop {a : Nat} (h : b.Aligned) (hlow3 : b.low = 3) (hi : b.low ≤ index a)
    (hk : bkmin ≤ k) (hdvd : 2 ^ k ∣ a) (hok : plopOk Mates b (index a) k)
    (hrun : b.plop a k = some b') : b'.Aligned := by
  have hunits : units k ∣ index a := by
    obtain ⟨m, rfl⟩ := hdvd
    unfold index
    rw [← units_mul hk, Nat.mul_assoc, Nat.mul_div_cancel_left _ bminsz_pos]
    exact Nat.dvd_mul_right _ _
  have hnoted : (b.noted (index a) k).Aligned := by
    intro x hx hkx
    rw [low_noted] at hx
    rw [(noted_fields hi hx).2] at hkx ⊢
    split_ifs at hkx ⊢ with hxi
    · rw [hxi]
      exact hunits
    · exact h x hx hkx
  exact hnoted.xphysfree hlow3 hi (hok (by omega)) hrun

theorem range_liberate (hrun : b.liberate n i = some b') : b'.range = b.range := by
  induction n generalizing b i with
  | zero => cases hrun
  | succ n ih =>
    unfold Bal.liberate at hrun
    split at hrun
    · cases hrun
    · split at hrun
      · cases hrun
        exact range_putOn _ _ _
      · exact (ih hrun).trans (range_merge b i)

theorem range_plop {a : Nat} (hrun : b.plop a k = some b') : b'.range = b.range := by
  unfold Bal.plop Bal.xphysfree at hrun
  split at hrun
  · cases hrun
    rfl
  · have hlib := range_liberate hrun
    exact hlib

theorem Bal.Aligned.plops {a e : Nat} {l : List (Nat × Nat)} (h : b.Aligned) (hlow3 : b.low = 3)
    (ha : bminsz * b.low ≤ a) (hl : Consecutive a l e) (hall : ∀ c ∈ l, 2 ^ c.2 ∣ c.1)
    (hok : plopsOk Mates b l) (hrun : b.plops l = some b') : b'.Aligned := by
  induction l generalizing b a with
  | nil =>
    cases hrun
    exact h
  | cons c l ih =>
    obtain ⟨a', k⟩ := c
    obtain ⟨rfl, hk, _, hrest⟩ := hl
    obtain ⟨b₁, hplop, hrun⟩ := bind_eq_some_iff.mp hrun
    have hi : b.low ≤ index a' := (Nat.le_div_iff_mul_le bminsz_pos).mpr (by rw [Nat.mul_comm]; exact ha)
    have hplopped := h.plop hlow3 hi hk (hall _ mem_cons_self) hok.1 hplop
    have hlow : b₁.low = b.low := low_of_range (range_plop hplop)
    exact ih hplopped (hlow.trans hlow3) (by rw [hlow]; exact Nat.le_add_right_of_le ha) hrest
      (fun c hc => hall c (mem_cons_of_mem _ hc)) (hok.2 b₁ hplop) hrun

/-- Every merge of the call joins two blocks of 4 MiB. -/
def System.Mates (pmstart : Nat) (s : System) : Call → Prop
  | .physinit addr len dom => initOk Physalloc.Mates pmstart (s.phys.bal (domOf dom)) addr len
  | .physalloc _ _ => True
  | .physfree dom l => mergesOk Physalloc.Mates (bkmax + 1) (s.phys.bal dom) (index l.addr)

/-- A live allocation of `2^k` bytes starts at a multiple of `2^k`. -/
def System.Aligned (s : System) : Prop :=
  ∀ d, ∀ l ∈ s.live d, ∀ k, bkmin ≤ k → k ≤ bkmax → l.size = 2 ^ k → 2 ^ k ∣ l.addr

variable {s t : System}

theorem System.Mates.sound {c : Call} (h : s.Mates k c) : s.Sound k c := by
  have himp : ∀ b p, Physalloc.Mates b p → k = 0 ∨ Answered b p := fun _ _ hm => Or.inr hm.1
  cases c with
  | physinit addr len dom => exact fun b₁ hgrow => (h b₁ hgrow).mono himp
  | physalloc size color => trivial
  | physfree dom l => exact mergesOk.mono himp h

theorem Bal.Aligned.grow {addr len : Nat} (h : b.Aligned) (hrun : b.grow inimap addr len = some b') :
    b'.Aligned := by
  unfold Bal.grow at hrun
  split at hrun
  · cases hrun
    intro x _ hk
    change bkmin ≤ 0 at hk
    exact absurd hk (by decide)
  · split at hrun
    · cases hrun
    · split at hrun
      · cases hrun
        exact h
      · cases hrun
        exact h

theorem low_inimap (h : b.memory = inimap) : b.low = 3 := by
  unfold Bal.low
  rw [h]
  decide

theorem Bal.Aligned.physinit {addr len : Nat} {ranges : List (Nat × Nat)} {live : List Live}
    (h : b.Aligned) (hown : Owned inimap False b ranges live) (hfits : Fits inimap ranges addr len)
    (hok : initOk Mates inimap b addr len) (hrun : b.physinit inimap addr len = some b') :
    b'.Aligned := by
  obtain ⟨b₁, hgrow, hrun⟩ := bind_eq_some_iff.mp hrun
  obtain ⟨_, _, hmem⟩ := hown.grow hgrow
  have hlow3 := low_inimap hmem
  obtain ⟨hfill, hempty⟩ := chunks_spec addr (addr + len)
  by_cases hlt : firstUnit addr < lastUnit (addr + len)
  · have habove := hfits.above hlt
    refine (h.grow hgrow).plops hlow3 ?_ (hfill (Nat.le_of_lt hlt)) (chunks_aligned _ _) (hok b₁ hgrow) hrun
    rw [Nat.mul_comm]
    unfold Bal.low
    rw [hmem]
    exact Nat.mul_le_mul_right _ habove
  · have hnil : chunks addr (addr + len) = [] := by
      by_cases heq : firstUnit addr = lastUnit (addr + len)
      · have hcons := hfill (Nat.le_of_eq heq)
        rw [heq] at hcons
        exact hcons.eq_nil
      · exact hempty (by omega)
    unfold Bal.iimbchunk at hrun
    rw [hnil] at hrun
    cases hrun
    exact h.grow hgrow

/-- **One call** leaves every table aligned. -/
theorem System.aligned_step {c : Call} (hinv : s.Inv inimap) (h : ∀ d, (s.phys.bal d).Aligned)
    (hstep : s.Step inimap c t) (hmates : s.Mates inimap c) : ∀ d, (t.phys.bal d).Aligned := by
  obtain ⟨hact, hprom⟩ := hstep
  cases c with
  | physinit addr len dom =>
    obtain ⟨p', hrun, heq⟩ := bind_eq_some_iff.mp hact
    obtain ⟨b, hinit, hbal⟩ := physinit_bal hrun
    cases heq
    intro d
    simp only [hbal]
    by_cases hd : d = domOf dom
    · rw [hd, update_self]
      exact (h _).physinit (hinv.owned _) ((hprom.1 _).fits hprom.2) hmates hinit
    · rw [update_of_ne hd]
      exact h d
  | physalloc size color =>
    obtain ⟨⟨p', c, m⟩, hrun, heq⟩ := bind_eq_some_iff.mp hact
    cases heq
    intro d
    rcases physalloc_cases hinv.owned (by decide) hrun with ⟨_, hp⟩ | ⟨d', b, _, _, hx, hp⟩
    · rw [hp]
      exact h d
    · rw [hp]
      by_cases hd : d = d'
      · rw [hd]
        change (update s.phys.bal d' b d').Aligned
        rw [update_self]
        obtain ⟨L, hL⟩ := (hinv.owned d').inv
        exact (h d').xphysalloc hL.good.lists hx
      · change (update s.phys.bal d' b d).Aligned
        rw [update_of_ne hd]
        exact h d
  | physfree dom l =>
    unfold System.act at hact
    dsimp only at hact
    split at hact
    · next hl =>
        obtain ⟨p', hrun, heq⟩ := bind_eq_some_iff.mp hact
        cases heq
        obtain ⟨b, hfree, hp⟩ := hinv.physfree_bal hl hrun
        obtain ⟨i, haddr, _, hlow, _, _, _⟩ := (hinv.owned dom).held hl
        have hindex : index l.addr = i := index_of_addr haddr
        have hmem : (s.phys.bal dom).memory = inimap := by
          rcases (hinv.owned dom).setup with hs | hs
          · rw [hs.2.2.2] at hl
            cases hl
          · exact hs.2
        intro d
        rw [hp]
        by_cases hd : d = dom
        · rw [hd]
          change (update s.phys.bal dom b dom).Aligned
          rw [update_self]
          exact (h dom).xphysfree (low_inimap hmem) (by rw [hindex]; exact hlow) hmates hfree
        · change (update s.phys.bal dom b d).Aligned
          rw [update_of_ne hd]
          exact h d
    · cases hact

/-- Aligned tables hand out aligned blocks. -/
theorem System.aligned_of_tables (hinv : s.Inv inimap) (h : ∀ d, (s.phys.bal d).Aligned) : s.Aligned := by
  intro d l hl k hk _ hsize
  obtain ⟨i, haddr, _, hlow, hkv, _⟩ := (hinv.owned d).held hl
  have hkval : blockKval l.size = k := by
    have hle : bminsz ≤ 2 ^ k := Nat.pow_le_pow_right (by decide) hk
    unfold blockKval
    rw [hsize, if_neg (Nat.not_lt.mpr hle), log2ceil_two_pow]
  rw [hkval] at hkv
  have hdvd := h d i hlow (by rw [hkv]; exact hk)
  rw [hkv] at hdvd
  rw [haddr, ← units_mul hk]
  exact Nat.mul_dvd_mul_left _ hdvd

/-- **Alignment.**  With `pmstart` at 6 MiB it holds in every state of a run in which only blocks
of 4 MiB are merged. -/
theorem physalloc_aligned {s : System}
    (hr : Reach (· = ({} : System)) (fun s c t => s.Step inimap c t ∧ s.Mates inimap c) s) :
    s.Aligned := by
  have hinv : s.Inv inimap ∧ ∀ d, (s.phys.bal d).Aligned := by
    refine hr.invariant (fun s => s.Inv inimap ∧ ∀ d, (s.phys.bal d).Aligned) ?_ ?_
    · rintro s rfl
      refine ⟨System.Inv.start inimap, fun d x _ hk => ?_⟩
      change bkmin ≤ 0 at hk
      exact absurd hk (by decide)
    · intro s c t h hstep
      exact ⟨h.1.step (by decide) hstep.1 hstep.2.sound, System.aligned_step h.1 h.2 hstep.1 hstep.2⟩
  exact System.aligned_of_tables hinv.1 hinv.2


/-- Units 4 to 7 as one block. -/
def giveBlock : Call := .physinit (8 * 2 ^ 20) (8 * 2 ^ 20) 0

def freshBlock : System := (System.act inimap {} giveBlock).getD {}

theorem giveBlock_step : System.Step inimap {} giveBlock freshBlock := by
  have hsome : (System.act inimap {} giveBlock).isSome = true := by rfl
  exact ⟨(getD_of_ne_none (isSome_iff_ne_none.mp hsome) _).symm, promised_first (by decide)⟩

theorem giveBlock_mates : System.Mates inimap {} giveBlock := by
  intro b₁ hgrow
  have hchunks : chunks (8 * 2 ^ 20) (8 * 2 ^ 20 + 8 * 2 ^ 20) = [(8 * 2 ^ 20, 23)] := by
    rfl
  rw [hchunks]
  cases hgrow
  exact ⟨fun _ => by decide, fun _ _ => trivial⟩

/-- The calls that allocate and free, the latter when only blocks of 4 MiB are merged. -/
def System.matesAct (s : System) : Call → Option System
  | .physinit _ _ _ => none
  | .physalloc size color => s.act inimap (.physalloc size color)
  | .physfree dom l =>
    if mergesOk Physalloc.Mates (bkmax + 1) (s.phys.bal dom) (index l.addr) then
      s.act inimap (.physfree dom l)
    else none

theorem matesAct_step {c : Call} (h : s.matesAct c = some t) :
    s.Step inimap c t ∧ s.Mates inimap c := by
  cases c with
  | physinit addr len dom => cases h
  | physalloc size color => exact ⟨⟨h, trivial⟩, trivial⟩
  | physfree dom l =>
    obtain ⟨hok, h⟩ := ite_none_right_eq_some.mp h
    exact ⟨⟨h, trivial⟩, hok⟩

/-- Two blocks of 4 MiB are allocated and freed, and one of 8 MiB is allocated. -/
theorem physalloc_aligned_merged :
    ∃ s : System, s.live 0 = [⟨8 * 2 ^ 20, 2 ^ 23⟩] ∧ s.Aligned := by
  have hstart : Reach (· = ({} : System)) (fun s c t => s.Step inimap c t ∧ s.Mates inimap c) {} :=
    Reach.start rfl
  have hsome : (exec System.matesAct freshBlock
      [.physalloc (2 ^ 22) 0, .physalloc (2 ^ 22) 0, .physfree 0 ⟨8 * 2 ^ 20, 2 ^ 22⟩,
        .physfree 0 ⟨12 * 2 ^ 20, 2 ^ 22⟩, .physalloc (2 ^ 23) 0]).isSome = true := by
    decide +kernel
  have hr := (hstart.next ⟨giveBlock_step, giveBlock_mates⟩).exec (exec_getD (d := {}) hsome)
    (fun s c t _ hact => matesAct_step hact)
  exact ⟨_, by decide +kernel, physalloc_aligned hr⟩

/-- **A block of 16 MiB at 8 MiB.**  The two blocks of 8 MiB that `physinit` makes of the range are
buddies when they are counted from 6 MiB. -/
theorem physalloc_misaligns :
    ∃ s, Reach (· = ({} : System)) (System.Step inimap) s ∧
      s.live 0 = [⟨8 * 2 ^ 20, 2 ^ 24⟩] ∧ ¬s.Aligned := by
  have hstart : Reach (· = ({} : System)) (System.Step inimap) {} := Reach.start rfl
  have hlive : ((System.act inimap freshRange (.physalloc (2 ^ 24) 0)).map fun s => s.live 0) =
      some [⟨8 * 2 ^ 20, 2 ^ 24⟩] := by
    decide +kernel
  obtain ⟨s, hact, hs⟩ := Option.map_eq_some_iff.mp hlive
  refine ⟨s, (hstart.next giveRange_step).next ⟨hact, trivial⟩, hs, fun h => ?_⟩
  have hdvd := h 0 ⟨8 * 2 ^ 20, 2 ^ 24⟩ (by rw [hs]; exact mem_singleton_self _) 24
    (by decide) (by decide) rfl
  exact absurd hdvd (by decide)

end Physalloc
