import NixKernel.EspWindow

/-!
# Losses and the window of ESP

Numbers that grow are behind the base and behind all bits of the map, so `ckwindow` can refuse one
only for being more than 64 ahead of the base.
-/

namespace Esp

open List

variable {D : Type} {ecb : Espcb D} {h : Heard D} {seq : UInt32} {seqs : List UInt32} {m : Nat}

/-- Each number is at most 64 ahead of the base when it comes. -/
def Near : Heard D → List UInt32 → Prop
  | _, [] => True
  | h, seq :: seqs => seq - h.ecb.base seq - 1 ≤ 63 ∧ Near (h.ckwindow seq) seqs

/-- The numbers that have come are below `m`: the base is `g` behind the last of them, and so are the
bits of the map. -/
def Espcb.Below (ecb : Espcb D) (m : Nat) : Prop :=
  (ecb.w0set = false ∧ ecb.w = 0) ∨
    (ecb.w0set = true ∧ ∃ g, g ≤ m ∧ (ecb.w0 + UInt32.ofNat g).toNat + 1 = m ∧ ∀ i, Marked ecb.w i → i < g)

theorem Marked.of_shift {w : UInt64} {i : Nat} (h : Marked (w <<< 1) i) : Marked w (i + 1) := by
  have hshift : (w <<< 1).toBitVec = w.toBitVec <<< 1 := by
    rw [UInt64.toBitVec_shiftLeft]
    rfl
  obtain ⟨hlt, hbit⟩ := h
  rw [hshift, BitVec.getLsbD_shiftLeft] at hbit
  by_cases hlast : i = 63
  · subst hlast
    simp at hbit
  · have hpos : ¬63 - i < 1 := by omega
    have hin : 63 - i < 64 := by omega
    have hplace : 63 - (i + 1) = 63 - i - 1 := by omega
    refine ⟨by omega, ?_⟩
    rw [hplace]
    simpa [hpos, hin] using hbit

/-- The top bit is that of the number next to the base. -/
theorem marked_zero_of_top {w : UInt64} (h : w &&& ((1 : UInt64) <<< 63) ≠ 0) : Marked w 0 :=
  ⟨by decide, (and_bit_ne_zero w (by decide)).mp h⟩

/-- **The loop** does not move the base past the last number of the map. -/
theorem slide_le {n : Nat} {w0 w0' δ : UInt32} {w w' : UInt64} (hmarks : ∀ i, Marked w i → i ≤ δ.toNat)
    (hδ : δ.toNat ≤ 63) (hrun : slide n w0 w δ = some (w0', w')) :
    ∃ j, j ≤ δ.toNat + 1 ∧ w0' = w0 + UInt32.ofNat j := by
  induction n generalizing w0 w δ with
  | zero => cases hrun
  | succ n ih =>
    rw [slide] at hrun
    split at hrun
    · by_cases hzero : δ.toNat = 0
      · -- the map is empty behind it, and `δ` goes around
        cases n with
        | zero => cases hrun
        | succ n =>
          rw [slide, if_neg] at hrun
          · cases hrun
            exact ⟨1, by omega, rfl⟩
          · rintro (htop | ⟨_, hle⟩)
            · have hmark := hmarks _ (marked_zero_of_top htop).of_shift
              omega
            · have hlast : (δ - 1).toNat = 2 ^ 32 - 1 := by
                rw [UInt32.toNat_sub, hzero]
                rfl
              have hle' : (δ - 1).toNat ≤ 63 := hle
              omega
      · have hone : (δ - 1).toNat = δ.toNat - 1 := by
          have hlt := δ.toNat_lt
          have hn : (1 : UInt32).toNat = 1 := rfl
          rw [UInt32.toNat_sub, hn]
          omega
        have hmarks' : ∀ i, Marked (w <<< 1) i → i ≤ (δ - 1).toNat := fun i hi => by
          have hle := hmarks _ hi.of_shift
          omega
        obtain ⟨j, hj, heq⟩ := ih hmarks' (by omega) hrun
        refine ⟨j + 1, by omega, ?_⟩
        rw [heq, UInt32.ofNat_add, UInt32.add_assoc, UInt32.add_comm (UInt32.ofNat j)]
        rfl
    · cases hrun
      exact ⟨0, Nat.zero_le _, (UInt32.add_zero _).symm⟩

theorem Marked.of_or {w : UInt64} {j : UInt64} {i : Nat} (hj : j.toNat ≤ 63)
    (h : Marked (w ||| ((1 : UInt64) <<< (63 - j))) i) : Marked w i ∨ i = j.toNat := by
  have hconst : (63 : UInt64).toNat = 63 := rfl
  have hsub : (63 - j).toNat = 63 - j.toNat := by
    rw [UInt64.toNat_sub_of_le _ _ (by rw [UInt64.le_iff_toNat_le]; exact hj), hconst]
  obtain ⟨hlt, hbit⟩ := h
  rw [UInt64.toBitVec_or, toBitVec_shift_one (by omega), hsub, BitVec.getLsbD_or, BitVec.getLsbD_twoPow,
    Bool.or_eq_true, Bool.and_eq_true, decide_eq_true_eq, decide_eq_true_eq] at hbit
  rcases hbit with hbit | ⟨_, heq⟩
  · exact .inl ⟨hlt, hbit⟩
  · right
    omega

/-- Where a number behind all others is. -/
theorem Espcb.Below.place (h : ecb.Below m) (hm : m ≤ seq.toNat) : ∃ d, d ≤ seq.toNat ∧
    (seq - ecb.base seq - 1).toNat = d ∧ ecb.base seq + UInt32.ofNat (d + 1) = seq ∧
      ∀ i, Marked ecb.w i → i < d := by
  have hone : (1 : UInt32).toNat = 1 := rfl
  rcases h with ⟨hset, hw⟩ | ⟨hset, g, hgm, hlast, hmarks⟩
  · rw [Espcb.base, hset]
    refine ⟨0, Nat.zero_le _, ?_, ?_, fun i hi => ?_⟩
    · have hzero : seq - (seq - 1) - 1 = 0 := by grind
      rw [if_neg Bool.false_ne_true, hzero]
      rfl
    · have hback : seq - 1 + UInt32.ofNat 1 = seq := by
        change seq - 1 + 1 = seq
        grind
      rw [if_neg Bool.false_ne_true]
      exact hback
    · rw [hw] at hi
      obtain ⟨_, hbit⟩ := hi
      simp at hbit
  · rw [Espcb.base, if_pos hset]
    have hw0 := ecb.w0.toNat_lt
    have hseq := seq.toNat_lt
    have hg : g < 2 ^ 32 := by omega
    rw [UInt32.toNat_add, UInt32.toNat_ofNat', Nat.mod_eq_of_lt hg] at hlast
    refine ⟨seq.toNat + g - m, by omega, ?_, ?_, fun i hi => ?_⟩
    · rw [UInt32.toNat_sub, UInt32.toNat_sub, hone]
      omega
    · rw [← UInt32.toNat_inj, UInt32.toNat_add, UInt32.toNat_ofNat']
      omega
    · have hlt := hmarks i hi
      omega

/-- **A number behind all others** is refused if it is too far ahead, and for nothing else. -/
theorem Espcb.Below.refuses_iff (h : ecb.Below m) (hm : m ≤ seq.toNat) :
    ecb.Refuses seq ↔ ¬seq - ecb.base seq - 1 ≤ 63 := by
  obtain ⟨d, _, hd, _, hmarks⟩ := h.place hm
  rw [Espcb.Refuses]
  generalize seq - ecb.base seq - 1 = δ at hd
  refine ⟨fun hrefuses hle => ?_, fun hfar => .inl (Nat.lt_of_not_le hfar)⟩
  have hle' : δ.toNat ≤ 63 := hle
  rcases hrefuses with hfar | hbit
  · have hfar' : 63 < δ.toNat := hfar
    omega
  · have hwide : δ.toUInt64.toNat = δ.toNat := UInt32.toNat_toUInt64 δ
    have hconst : (63 : UInt64).toNat = 63 := rfl
    have hsub : (63 - δ.toUInt64).toNat = 63 - δ.toNat := by
      rw [UInt64.toNat_sub_of_le _ _ (by rw [UInt64.le_iff_toNat_le, hwide]; exact hle'), hwide, hconst]
    rw [and_bit_ne_zero _ (by omega), hsub] at hbit
    have hlt := hmarks δ.toNat ⟨by omega, hbit⟩
    omega

/-- **What is accepted** is the last number then. -/
theorem Espcb.Below.ckwindow {ecb' : Espcb D} (h : ecb.Below m) (hm : m ≤ seq.toNat)
    (hsome : ecb.ckwindow seq = some ecb') : ecb'.Below (seq.toNat + 1) := by
  obtain ⟨d, hdle, hd, hseq, hmarks⟩ := h.place hm
  rcases ckwindow_spec ecb seq with ⟨_, hnone⟩ | ⟨hnot, δ, k, w, hδ, hδ64, hk, -, hsome', hmarked⟩
  · rw [hnone] at hsome
    cases hsome
  · have hwide : δ.toUInt64.toNat = δ.toNat := UInt32.toNat_toUInt64 δ
    rw [hδ] at hd
    -- the same step, as the loop has it
    have hloop := hsome'
    rw [Espcb.ckwindow] at hloop
    change (if ecb.Refuses seq then none else _) = _ at hloop
    rw [if_neg hnot] at hloop
    obtain ⟨r, hr, heq⟩ := Option.map_eq_some_iff.mp hloop
    change slide 128 (ecb.base seq) (ecb.w ||| ((1 : UInt64) <<< (63 - (seq - ecb.base seq - 1).toUInt64)))
      (seq - ecb.base seq - 1) = some r at hr
    rw [hδ] at hr
    have hlast : ∀ i, Marked (ecb.w ||| ((1 : UInt64) <<< (63 - δ.toUInt64))) i → i ≤ δ.toNat := by
      intro i hi
      rcases hi.of_or (by omega) with hold | hnew
      · have hlt := hmarks i hold
        omega
      · omega
    obtain ⟨j, hj, hw0⟩ := slide_le hlast (by omega) hr
    have hsame : UInt32.ofNat j = UInt32.ofNat k := by
      have hfield := congrArg Espcb.w0 heq
      change r.1 = ecb.base seq + UInt32.ofNat k at hfield
      rw [hw0] at hfield
      exact (UInt32.add_right_inj (ecb.base seq)).mp hfield
    have hjk : j = k := by
      have hnat := congrArg UInt32.toNat hsame
      rw [UInt32.toNat_ofNat', UInt32.toNat_ofNat'] at hnat
      omega
    rw [hsome'] at hsome
    cases hsome
    refine .inr ⟨rfl, d + 1 - k, by omega, ?_, fun i hi => ?_⟩
    · have hsum : ecb.base seq + UInt32.ofNat k + UInt32.ofNat (d + 1 - k) = seq := by
        rw [UInt32.add_assoc, ← UInt32.ofNat_add, Nat.add_sub_cancel' (by omega)]
        exact hseq
      dsimp only
      rw [hsum]
    · rcases (hmarked i).mp hi with hold | hnew
      · have hlt := hmarks _ hold
        omega
      · omega

theorem accepted_length_le (seqs : List UInt32) (h : Heard D) :
    (seqs.foldl Heard.ckwindow h).accepted.length ≤ h.accepted.length + seqs.length := by
  induction seqs generalizing h with
  | nil => exact Nat.le_refl _
  | cons seq seqs ih =>
    have hone : (h.ckwindow seq).accepted.length ≤ h.accepted.length + 1 := by
      rw [Heard.ckwindow]
      split
      · exact Nat.le_succ _
      · rw [length_append, length_singleton]
    have hrest := ih (h.ckwindow seq)
    rw [foldl_cons, length_cons]
    omega

theorem accepted_iff (h : Heard D) (hbelow : h.ecb.Below m) (hm : ∀ seq ∈ seqs, m ≤ seq.toNat)
    (hinc : seqs.Pairwise fun a b => a.toNat < b.toNat) :
    (seqs.foldl Heard.ckwindow h).accepted = h.accepted ++ seqs ↔ Near h seqs := by
  induction seqs generalizing h m with
  | nil => exact iff_of_true (append_nil _).symm trivial
  | cons seq seqs ih =>
    obtain ⟨hlater, hinc⟩ := pairwise_cons.mp hinc
    have hseq := hm seq mem_cons_self
    have hrefuses := hbelow.refuses_iff hseq
    rw [foldl_cons, Near]
    rcases ckwindow_spec h.ecb seq with ⟨href, hnone⟩ | ⟨hnot, _, _, _, _, _, _, _, hsome, _⟩
    · -- one that is refused is missing at the end
      have hstay : h.ckwindow seq = h := by rw [Heard.ckwindow, hnone]
      refine iff_of_false (fun heq => ?_) fun hnear => hrefuses.mp href hnear.1
      have hlen := accepted_length_le seqs h
      rw [hstay] at heq
      rw [heq, length_append, length_cons] at hlen
      omega
    · rw [not_congr hrefuses, not_not] at hnot
      have hrest := ih (h.ckwindow seq) (by
        rw [Heard.ckwindow, hsome]
        exact hbelow.ckwindow hseq hsome) hlater hinc
      have haccepted : (h.ckwindow seq).accepted = h.accepted ++ [seq] := by
        rw [Heard.ckwindow, hsome]
      rw [haccepted, append_assoc, singleton_append] at hrest
      rw [hrest]
      exact (and_iff_right hnot).symm

/-- **Growing numbers are all accepted** from a zeroed window just when each is at most 64 ahead of the
base. -/
theorem survives_iff (hzero : ecb.Zeroed) (hinc : seqs.Pairwise fun a b => a.toNat < b.toNat) :
    (ecb.heard seqs).accepted = seqs ↔ Near ⟨ecb, [], 0⟩ seqs :=
  @accepted_iff D seqs 0 ⟨ecb, [], 0⟩ (.inl ⟨hzero.1, hzero.2.2⟩) (fun _ _ => Nat.zero_le _) hinc

/-- A loss of three, and one of sixty. -/
theorem survives_iff_sixty : ((connect true 7 : Espcb Unit).heard [1, 5, 66]).accepted = [1, 5, 66] ↔
    Near ⟨(connect true 7 : Espcb Unit), [], 0⟩ [1, 5, 66] :=
  survives_iff ⟨rfl, rfl, rfl⟩ (by decide)

/-- **A loss of 64** after the first number, and nothing is accepted any more. -/
theorem loss_refuses : ([1, 66, 67, 68] : List UInt32).Pairwise (fun a b => a.toNat < b.toNat) ∧
    ((connect true 7 : Espcb Unit).heard [1, 66, 67, 68]).accepted = [1] := by
  exact ⟨by decide, by decide +kernel⟩

end Esp
