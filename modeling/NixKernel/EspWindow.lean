import NixKernel.Esp

/-!
# The replay window of ESP

`ckwindow` keeps a map of the 64 numbers behind `w0` and moves it up one number at a time.  The
numbers of a packet have 32 bits and go around; `place` is where a number lies as counted from the
first base, and a number that was accepted lies below the base or has its bit in the map, for as
long as the base has not gone around.
-/

namespace Esp

open List

variable {D : Type} {ecb : Espcb D} {seq : UInt32}

/-- The number `i` behind the base is in the map. -/
def Marked (w : UInt64) (i : Nat) : Prop := i < 64 ∧ w.toBitVec.getLsbD (63 - i) = true

theorem toBitVec_shift_one {j : UInt64} (hj : j.toNat < 64) :
    ((1 : UInt64) <<< j).toBitVec = BitVec.twoPow 64 j.toNat := by
  have hmod : j.toBitVec % 64 = j.toBitVec := by
    apply BitVec.eq_of_toNat_eq
    rw [BitVec.toNat_umod]
    exact Nat.mod_eq_of_lt hj
  rw [UInt64.toBitVec_shiftLeft]
  change 1#64 <<< (j.toBitVec % 64).toNat = _
  rw [hmod, BitVec.twoPow_eq]
  rfl

theorem and_bit_ne_zero (w : UInt64) {j : UInt64} (hj : j.toNat < 64) :
    w &&& ((1 : UInt64) <<< j) ≠ 0 ↔ w.toBitVec.getLsbD j.toNat = true := by
  rw [← UInt64.toBitVec_inj.ne, UInt64.toBitVec_and, toBitVec_shift_one hj, BitVec.and_twoPow]
  split
  next hset =>
    refine iff_of_true (fun hzero => ?_) hset
    have hget := congrArg (fun v => v.getLsbD j.toNat) hzero
    simp [hj] at hget
  next hclear => exact iff_of_false (fun h => h rfl) hclear

/-- With `k` numbers moved past and `m` to go the map has no more than `m` bits left: the loop moves
on by some `j` numbers, at most `m`, and ends. -/
theorem slide_spec {m k n : Nat} {w0 δ : UInt32} {w : UInt64} (hmk : m + k = 64) (hn : m < n)
    (hlow : ∀ i < k, w.toBitVec.getLsbD i = false) (hδ : δ.toNat + k ≤ 63 ∨ 63 + m < δ.toNat) :
    ∃ j w', j ≤ m ∧ slide n w0 w δ = some (w0 + UInt32.ofNat j, w') ∧
      w'.toBitVec = w.toBitVec <<< j := by
  induction m generalizing k n w0 δ w with
  | zero =>
    obtain ⟨n, rfl⟩ := Nat.exists_eq_succ_of_ne_zero (Nat.ne_of_gt hn)
    have hclear : ¬(w &&& ((1 : UInt64) <<< 63) ≠ 0 ∨ (δ ≥ 32 ∧ δ ≤ 63)) := by
      rintro (htop | ⟨_, hle⟩)
      · rw [and_bit_ne_zero w (by decide), hlow _ (by change 63 < k; omega)] at htop
        cases htop
      · have hle' : δ.toNat ≤ 63 := hle
        omega
    exact ⟨0, w, Nat.le_refl _, by rw [slide, if_neg hclear]; simp, by simp⟩
  | succ m ih =>
    obtain ⟨n, rfl⟩ := Nat.exists_eq_succ_of_ne_zero (Nat.ne_of_gt (Nat.zero_lt_of_lt hn))
    by_cases hgo : w &&& ((1 : UInt64) <<< 63) ≠ 0 ∨ (δ ≥ 32 ∧ δ ≤ 63)
    · have hshift : (w <<< 1).toBitVec = w.toBitVec <<< 1 := by
        rw [UInt64.toBitVec_shiftLeft]
        rfl
      have hlow' : ∀ i < k + 1, (w <<< 1).toBitVec.getLsbD i = false := by
        intro i hi
        rw [hshift, BitVec.getLsbD_shiftLeft]
        cases i with
        | zero => simp
        | succ i => simp [hlow i (by omega)]
      have hδ' : (δ - 1).toNat + (k + 1) ≤ 63 ∨ 63 + m < (δ - 1).toNat := by
        have hone : (1 : UInt32).toNat = 1 := rfl
        have hlt := δ.toNat_lt
        rw [UInt32.toNat_sub, hone]
        omega
      obtain ⟨j, w', hj, hrun, hw'⟩ :=
        @ih (k + 1) n (w0 + 1) (δ - 1) (w <<< 1) (by omega) (Nat.lt_of_succ_lt_succ hn) hlow' hδ'
      refine ⟨j + 1, w', Nat.succ_le_succ hj, ?_, ?_⟩
      · rw [slide, if_pos hgo, hrun, UInt32.ofNat_add, UInt32.add_assoc, UInt32.add_comm 1]
        rfl
      · rw [hw', hshift, ← BitVec.shiftLeft_add, Nat.add_comm]
    · exact ⟨0, w, Nat.zero_le _, by rw [slide, if_neg hgo]; simp, by simp⟩

/-- The base that the call counts from. -/
def Espcb.base (ecb : Espcb D) (seq : UInt32) : UInt32 := if ecb.w0set then ecb.w0 else seq - 1

/-- The number is not behind the base, or too far, or in the map. -/
def Espcb.Refuses (ecb : Espcb D) (seq : UInt32) : Prop :=
  seq - ecb.base seq - 1 > 63 ∨
    ecb.w &&& ((1 : UInt64) <<< (63 - (seq - ecb.base seq - 1).toUInt64)) ≠ 0

instance (ecb : Espcb D) (seq : UInt32) : Decidable (ecb.Refuses seq) :=
  inferInstanceAs (Decidable (_ ∨ _))

/-- **What a call does**: it refuses the number, or puts it into the map and moves that up by `k`
numbers. -/
theorem ckwindow_spec (ecb : Espcb D) (seq : UInt32) :
    (ecb.Refuses seq ∧ ecb.ckwindow seq = none) ∨
    (¬ecb.Refuses seq ∧ ∃ δ k w, seq - ecb.base seq - 1 = δ ∧ δ.toNat < 64 ∧ k ≤ 64 ∧
      ¬Marked ecb.w δ.toNat ∧
      ecb.ckwindow seq = some { ecb with w0set := true, w0 := ecb.base seq + UInt32.ofNat k, w := w } ∧
      ∀ i, Marked w i ↔ Marked ecb.w (i + k) ∨ i + k = δ.toNat) := by
  by_cases href : ecb.Refuses seq
  · left
    refine ⟨href, ?_⟩
    rw [Espcb.ckwindow]
    exact if_pos href
  · right
    refine ⟨href, ?_⟩
    have hnot := href
    rw [Espcb.Refuses, not_or] at hnot
    obtain ⟨hfar, hmark⟩ := hnot
    generalize hδ : seq - ecb.base seq - 1 = δ at hfar hmark
    have hlt : δ.toNat < 64 := by
      have hle : δ.toNat ≤ 63 := Nat.le_of_not_lt hfar
      omega
    have hj : (63 - δ.toUInt64).toNat = 63 - δ.toNat := by
      have hwide : δ.toUInt64.toNat = δ.toNat := UInt32.toNat_toUInt64 δ
      have hconst : (63 : UInt64).toNat = 63 := rfl
      rw [UInt64.toNat_sub_of_le _ _ (by rw [UInt64.le_iff_toNat_le, hwide, hconst]; omega), hwide, hconst]
    rw [and_bit_ne_zero _ (by omega), hj] at hmark
    obtain ⟨k, w, hk, hrun, hw⟩ := @slide_spec 64 0 128 (ecb.base seq) δ
      (ecb.w ||| ((1 : UInt64) <<< (63 - δ.toUInt64))) rfl (by decide) (by simp) (Or.inl (by omega))
    refine ⟨δ, k, w, rfl, hlt, hk, fun hin => hmark hin.2, ?_, ?_⟩
    · rw [Espcb.ckwindow]
      change (if ecb.Refuses seq then _ else _) = _
      rw [if_neg href]
      change (slide 128 (ecb.base seq) (ecb.w ||| ((1 : UInt64) <<< (63 - (seq - ecb.base seq - 1).toUInt64)))
        (seq - ecb.base seq - 1)).map _ = _
      rw [hδ, hrun]
      rfl
    · intro i
      have hbit : ((ecb.w ||| ((1 : UInt64) <<< (63 - δ.toUInt64))).toBitVec) =
          ecb.w.toBitVec ||| BitVec.twoPow 64 (63 - δ.toNat) := by
        rw [UInt64.toBitVec_or, toBitVec_shift_one (by omega), hj]
      rw [Marked, Marked, hw, hbit, BitVec.getLsbD_shiftLeft, BitVec.getLsbD_or, BitVec.getLsbD_twoPow]
      by_cases hin : i + k < 64
      · have hback : 63 - i - k = 63 - (i + k) := by omega
        have hle : ¬63 - i < k := by omega
        have hsame : 63 - δ.toNat = 63 - (i + k) ↔ i + k = δ.toNat := by omega
        simp [hback, hle, hsame, hin, show i < 64 by omega, show 63 - i < 64 by omega,
          show 63 - (i + k) < 64 by omega, show 63 - δ.toNat < 64 by omega]
      · have hle : i < 64 → 63 - i < k := by omega
        refine iff_of_false (fun h => ?_) ?_
        · have hlow := hle h.1
          simp [hlow] at h
        · omega

/-- A window with what it has accepted, and how far its base has moved. -/
structure Heard (D : Type) where
  ecb : Espcb D
  accepted : List UInt32
  advance : Nat

def Heard.ckwindow (h : Heard D) (seq : UInt32) : Heard D :=
  match h.ecb.ckwindow seq with
  | none => h
  | some ecb => ⟨ecb, h.accepted ++ [seq], h.advance + (ecb.w0 - h.ecb.base seq).toNat⟩

/-- The calls with the numbers `seqs`. -/
def Espcb.heard (ecb : Espcb D) (seqs : List UInt32) : Heard D := seqs.foldl Heard.ckwindow ⟨ecb, [], 0⟩

/-- The window as it is made. -/
def Espcb.Zeroed (ecb : Espcb D) : Prop := ecb.w0set = false ∧ ecb.w0 = 0 ∧ ecb.w = 0

/-- How far a number lies behind the first base `b`. -/
def place (b s : UInt32) : Nat := (s - b - 1).toNat

/-- The base is `advance` numbers behind `b`, and what was accepted lies below it or is in the map. -/
structure Heard.Inv (h : Heard D) (b : UInt32) : Prop where
  base : h.ecb.w0 = b + UInt32.ofNat h.advance
  seen : ∀ s ∈ h.accepted, place b s < h.advance ∨
    ∃ i, place b s = h.advance + i ∧ Marked h.ecb.w i
  nodup : h.accepted.Nodup

/-- Nothing has come, or the base is set. -/
def Heard.Ok (h : Heard D) : Prop :=
  (h.ecb.w0set = false ∧ h.ecb.w = 0 ∧ h.accepted = [] ∧ h.advance = 0) ∨ (h.ecb.w0set = true ∧ ∃ b, h.Inv b)

/-- Before a call there is a first base, that of the call if it is the first. -/
theorem Heard.Ok.inv {h : Heard D} (hok : h.Ok) (seq : UInt32) :
    ∃ b, Heard.Inv { h with ecb := { h.ecb with w0 := h.ecb.base seq } } b := by
  rcases hok with ⟨hset, hw, hnil, hzero⟩ | ⟨hset, b, hinv⟩
  · refine ⟨seq - 1, ?_, ?_, ?_⟩
    · change h.ecb.base seq = _
      rw [Espcb.base, hset, hzero]
      simp
    · intro s hs
      rw [hnil] at hs
      cases hs
    · rw [hnil]
      exact nodup_nil
  · refine ⟨b, ?_, hinv.seen, hinv.nodup⟩
    change h.ecb.base seq = _
    rw [Espcb.base, if_pos hset]
    exact hinv.base

theorem ckwindow_le (h : Heard D) (seq : UInt32) : h.advance ≤ (h.ckwindow seq).advance := by
  rw [Heard.ckwindow]
  split
  · exact Nat.le_refl _
  · exact Nat.le_add_right _ _

/-- **A call keeps the window right**, while the base has not gone around. -/
theorem Heard.Ok.ckwindow {h : Heard D} (hok : h.Ok) (seq : UInt32)
    (hlt : (h.ckwindow seq).advance < 2 ^ 32 - 64) : (h.ckwindow seq).Ok := by
  have hbefore := Nat.lt_of_le_of_lt (ckwindow_le h seq) hlt
  obtain ⟨b, hinv⟩ := hok.inv seq
  rcases ckwindow_spec h.ecb seq with ⟨_, hnone⟩ | ⟨_, δ, k, w, hδ, hδ64, hk, hfresh, hsome, hmarked⟩
  · rw [Heard.ckwindow, hnone]
    exact hok
  · have hmoved : (h.ecb.base seq + UInt32.ofNat k - h.ecb.base seq).toNat = k := by
      have hback : h.ecb.base seq + UInt32.ofNat k - h.ecb.base seq = UInt32.ofNat k := by grind
      rw [hback, UInt32.toNat_ofNat']
      omega
    have hplace : place b seq = h.advance + δ.toNat := by
      have hbase : h.ecb.base seq = b + UInt32.ofNat h.advance := hinv.base
      have hsum : seq - b - 1 = UInt32.ofNat h.advance + δ := by
        rw [← hδ, hbase]
        grind
      rw [place, hsum, UInt32.toNat_add, UInt32.toNat_ofNat']
      omega
    rw [Heard.ckwindow, hsome]
    refine Or.inr ⟨rfl, b, ?_, ?_, ?_⟩
    · change h.ecb.base seq + UInt32.ofNat k = b + UInt32.ofNat (h.advance + _)
      rw [hmoved, UInt32.ofNat_add, ← UInt32.add_assoc]
      congr 1
      exact hinv.base
    · intro s hs
      change place b s < h.advance + _ ∨ ∃ i, place b s = h.advance + _ + i ∧ Marked w i
      rw [hmoved]
      -- a number of the map, old or new, stays in it or is moved past
      have hstays : ∀ i, place b s = h.advance + i → (Marked h.ecb.w i ∨ i = δ.toNat) →
          place b s < h.advance + k ∨ ∃ i, place b s = h.advance + k + i ∧ Marked w i := by
        intro i hi hin
        by_cases hik : i < k
        · left
          omega
        · right
          refine ⟨i - k, by omega, (hmarked _).mpr ?_⟩
          rwa [Nat.sub_add_cancel (Nat.le_of_not_lt hik)]
      rcases mem_append.mp hs with hold | hnew
      · rcases hinv.seen s hold with hbelow | ⟨i, hi, hin⟩
        · exact Or.inl (Nat.lt_of_lt_of_le hbelow (Nat.le_add_right _ _))
        · exact hstays i hi (Or.inl hin)
      · rw [mem_singleton] at hnew
        subst hnew
        exact hstays δ.toNat hplace (Or.inr rfl)
    · refine nodup_append.mpr ⟨hinv.nodup, nodup_singleton _, ?_⟩
      intro s hs s' hs' heq
      rw [mem_singleton] at hs'
      subst heq hs'
      rcases hinv.seen s hs with hbelow | ⟨i, hi, hin⟩
      · change place b s < h.advance at hbelow
        omega
      · change place b s = h.advance + i at hi
        have hsame : i = δ.toNat := by omega
        exact hfresh (hsame ▸ hin)

theorem heard_append (ecb : Espcb D) (seqs : List UInt32) (seq : UInt32) :
    ecb.heard (seqs ++ [seq]) = (ecb.heard seqs).ckwindow seq := foldl_append

theorem heard_ok (hzero : ecb.Zeroed) (seqs : List UInt32) (hlt : (ecb.heard seqs).advance < 2 ^ 32 - 64) :
    (ecb.heard seqs).Ok := by
  induction seqs using List.reverseRecOn with
  | nil => exact Or.inl ⟨hzero.1, hzero.2.2, rfl, rfl⟩
  | append_singleton seqs seq ih =>
    rw [heard_append] at hlt ⊢
    exact (ih (Nat.lt_of_le_of_lt (ckwindow_le _ seq) hlt)).ckwindow seq hlt

/-- **No replay.**  From a zeroed window no number is accepted twice, as long as the base moves by
less than `2 ^ 32 - 64` in all.  A call that is refused is refused by its test: the loop of every
other one ends. -/
theorem no_replay (hzero : ecb.Zeroed) (seqs : List UInt32) :
    ((ecb.heard seqs).advance < 2 ^ 32 - 64 → (ecb.heard seqs).accepted.Nodup) ∧
      ∀ seq, (ecb.heard seqs).ecb.ckwindow seq = none ↔ (ecb.heard seqs).ecb.Refuses seq := by
  constructor
  · intro hlt
    rcases heard_ok hzero seqs hlt with ⟨-, -, hnil, -⟩ | ⟨-, b, hinv⟩
    · rw [hnil]
      exact List.nodup_nil
    · exact hinv.nodup
  · intro seq
    rcases ckwindow_spec (ecb.heard seqs).ecb seq with ⟨hrefuses, hnone⟩ | ⟨hnot, _, _, _, _, _, _, _, hsome, _⟩
    · exact iff_of_true hnone hrefuses
    · refine iff_of_false (fun hnone => ?_) hnot
      rw [hnone] at hsome
      cases hsome

/-- Three numbers and a replay of the second. -/
theorem no_replay_three : ((connect true 7 : Espcb Unit).heard [5, 20, 6, 20]).accepted = [5, 20, 6] ∧
    ((connect true 7 : Espcb Unit).heard [5, 20, 6, 20]).accepted.Nodup := by
  have hrun : ((connect true 7 : Espcb Unit).heard [5, 20, 6, 20]).accepted = [5, 20, 6] ∧
      ((connect true 7 : Espcb Unit).heard [5, 20, 6, 20]).advance < 2 ^ 32 - 64 := by
    decide +kernel
  exact ⟨hrun.1, (no_replay ⟨rfl, rfl, rfl⟩ _).1 hrun.2⟩

end Esp
