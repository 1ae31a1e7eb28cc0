import NixKernel.Sdbio

/-!
# A partition is a file of bytes

A call does what a file promises except at three places, and `Clean` says where they are.
-/

namespace Sd

variable {r : Req} {m : Medium} {t : Turn} {buf b f g : Nat → UInt8} {x : Run} {a i k l n o len nb : Nat}

/-- The request in sectors: inside the partition, not more than the rounded length. -/
structure Bounds (r : Req) (m : Medium) : Prop where
  bno : r.bno m = r.off / m.secsize + m.start
  inside : r.bno m + r.nb m ≤ m.stop
  pos : 0 < r.nb m
  rounded : r.nb m * m.secsize < r.offset m + r.len + m.secsize

theorem Medium.stop_lt (m : Medium) : m.stop < 2 ^ 62 := by
  have hmul : m.stop * 2 ≤ m.stop * m.secsize := Nat.mul_le_mul_left _ m.secsize_lt.1
  have hfits := m.fits
  omega

/-- The number of the first sector does not overflow. -/
theorem bno_eq (r : Req) (m : Medium) : r.bno m = r.off / m.secsize + m.start := by
  have hdiv : r.off / m.secsize ≤ r.off / 2 := Nat.div_le_div_left m.secsize_lt.1 (by decide)
  have hoff := r.off_lt
  have hstop := m.stop_lt
  have hord := m.ordered
  exact Nat.mod_eq_of_lt (by omega)

/-- At or past the end there is nothing to transfer. -/
theorem idle_behind (h : (m.stop - m.start) * m.secsize ≤ r.off) : r.idle m = true := by
  have hpos : 0 < m.secsize := Nat.lt_of_lt_of_le Nat.zero_lt_one (Nat.le_of_lt m.secsize_lt.1)
  have hdiv : m.stop - m.start ≤ r.off / m.secsize := (Nat.le_div_iff_mul_le hpos).mpr h
  refine decide_eq_true (Or.inl ?_)
  rw [bno_eq]
  omega

theorem wanted_eq (hlt : r.bno m < m.stop) :
    r.wanted m = (r.offset m + r.len + m.secsize - 1) / m.secsize ∧ r.wanted m < 2 ^ 32 := by
  obtain ⟨hss, hss'⟩ := m.secsize_lt
  have hpos : 0 < m.secsize := by omega
  have hbno := bno_eq r m
  have hlen := r.len_lt
  have hfits := m.fits
  have hstop := m.stop_lt
  have hsplit : m.secsize * (r.off / m.secsize) + r.offset m = r.off := Nat.div_add_mod r.off m.secsize
  have hoffset : r.offset m < m.secsize := Nat.mod_lt _ hpos
  -- the offset is on the medium, so the sum does not overflow
  have hoff : (r.off / m.secsize + 1) * m.secsize ≤ m.stop * m.secsize := Nat.mul_le_mul_right _ (by omega)
  rw [Nat.add_mul, Nat.one_mul, Nat.mul_comm] at hoff
  have hsum : (r.off + r.len + m.secsize - 1) / m.secsize =
      r.off / m.secsize + (r.offset m + r.len + m.secsize - 1) / m.secsize := by
    have hsplit' : r.off + r.len + m.secsize - 1 =
        r.offset m + r.len + m.secsize - 1 + m.secsize * (r.off / m.secsize) := by omega
    rw [hsplit', Nat.add_mul_div_left _ _ hpos, Nat.add_comm]
  have hsmall : (r.offset m + r.len + m.secsize - 1) / m.secsize < 2 ^ 32 := by
    have hle : (r.offset m + r.len + m.secsize - 1) / m.secsize ≤ (r.offset m + r.len + m.secsize - 1) / 2 :=
      Nat.div_le_div_left hss (by decide)
    rw [Nat.div_lt_iff_lt_mul hpos]
    have hbig : 2 ^ 32 * 2 ≤ 2 ^ 32 * m.secsize := Nat.mul_le_mul_left _ hss
    have hbig' : m.secsize * 2 ^ 32 = 2 ^ 32 * m.secsize := Nat.mul_comm _ _
    omega
  have hmod : (r.off + r.len + m.secsize - 1) % 2 ^ 64 = r.off + r.len + m.secsize - 1 := Nat.mod_eq_of_lt (by omega)
  have hw : r.wanted m = (r.offset m + r.len + m.secsize - 1) / m.secsize := by
    rw [Req.wanted, hmod, hsum, hbno]
    clear hsum hmod hsplit hoff hbno
    generalize r.off / m.secsize = q
    generalize (r.offset m + r.len + m.secsize - 1) / m.secsize = w at hsmall ⊢
    have hsub : q + w + m.start + 2 ^ 64 - (q + m.start) = w + 2 ^ 64 := by omega
    rw [hsub]
    omega
  exact ⟨hw, hw ▸ hsmall⟩

/-- Cutting the number of sectors to the partition. -/
theorem cut_spec {bno stop nb : Nat} (hlt : bno < stop) (hstop : stop < 2 ^ 62) (hnb : nb < 2 ^ 32) :
    (if stop < (bno + nb) % 2 ^ 64 then (stop + 2 ^ 64 - bno) % 2 ^ 64 % 2 ^ 32 else nb) = min nb (stop - bno) := by
  have hsum : (bno + nb) % 2 ^ 64 = bno + nb := Nat.mod_eq_of_lt (by omega)
  have hsub : stop + 2 ^ 64 - bno = stop - bno + 2 ^ 64 := by omega
  rw [hsum, hsub, Nat.add_mod_right]
  split
  · rw [Nat.mod_eq_of_lt (by omega), Nat.mod_eq_of_lt (by omega)]
    omega
  · omega

theorem bounds (hidle : r.idle m = false) : Bounds r m := by
  have hnot := of_decide_eq_false hidle
  rw [not_or] at hnot
  obtain ⟨hlt, hne⟩ := hnot
  have hpos : 0 < m.secsize := Nat.lt_of_lt_of_le Nat.zero_lt_one (Nat.le_of_lt m.secsize_lt.1)
  obtain ⟨hwanted, hsmall⟩ := wanted_eq (r := r) (m := m) (by omega)
  have hround := Nat.div_mul_le_self (r.offset m + r.len + m.secsize - 1) m.secsize
  rw [← hwanted] at hround
  have hstop := m.stop_lt
  have hle : r.nb m ≤ r.wanted m ∧ r.bno m + r.nb m ≤ m.stop := by
    rw [Req.nb, cut_spec (by omega) hstop (by split <;> omega)]
    split <;> omega
  have hmul := Nat.mul_le_mul_right m.secsize hle.1
  exact ⟨bno_eq r m, hle.2, Nat.pos_of_ne_zero hne, by omega⟩

theorem Bounds.sectors (h : Bounds r m) : r.offset m < m.secsize ∧ m.secsize ≤ r.nb m * m.secsize := by
  have hpos : 0 < m.secsize := Nat.lt_of_lt_of_le Nat.zero_lt_one (Nat.le_of_lt m.secsize_lt.1)
  exact ⟨Nat.mod_lt _ hpos, Nat.le_mul_of_pos_left _ h.pos⟩

theorem Bounds.clip (h : Bounds r m) : r.clip m ≤ r.len ∧ r.offset m + r.clip m ≤ r.nb m * m.secsize := by
  obtain ⟨hoffset, hone⟩ := h.sectors
  rw [Req.clip]
  split <;> omega

/-- Whole sectors are all the sectors. -/
theorem Bounds.whole (h : Bounds r m) (hoffset : r.offset m = 0) (haligned : r.clip m % m.secsize = 0) :
    r.clip m = r.nb m * m.secsize := by
  have hround := h.rounded
  obtain ⟨-, hle⟩ := h.clip
  rw [Req.clip] at haligned hle ⊢
  split
  · omega
  · next hfit =>
    rw [if_neg hfit] at haligned hle
    obtain ⟨c, hc⟩ := Nat.dvd_of_mod_eq_zero haligned
    rw [hoffset, hc, Nat.zero_add, Nat.mul_comm m.secsize c, ← Nat.succ_mul] at hround
    have hlt := Nat.lt_of_mul_lt_mul_right hround
    have hmul := Nat.mul_le_mul_right m.secsize (Nat.le_of_lt_succ hlt)
    rw [hc, Nat.mul_comm m.secsize c] at hle ⊢
    omega

/-- Fewer sectors do not have more bytes than were asked for. -/
theorem Bounds.fewer (h : Bounds r m) (hoffset : r.offset m = 0) {got : Nat} (hgot : got < r.nb m) :
    got * m.secsize ≤ r.clip m := by
  have hround := h.rounded
  have hmul := Nat.mul_le_mul_right m.secsize hgot
  rw [Nat.succ_mul] at hmul
  rw [Req.clip]
  split
  · omega
  · omega

/-- The first byte of the request on the medium. -/
def Req.base (r : Req) (m : Medium) : Nat := m.start * m.secsize + r.off

theorem base_eq (r : Req) (m : Medium) : r.base m = r.bno m * m.secsize + r.offset m := by
  have hsplit : m.secsize * (r.off / m.secsize) + r.offset m = r.off := Nat.div_add_mod r.off m.secsize
  rw [bno_eq, Nat.add_mul, Nat.mul_comm (r.off / m.secsize), Req.base]
  omega

theorem Bounds.base (h : Bounds r m) : r.base m + r.clip m ≤ m.stop * m.secsize := by
  have hclip := h.clip.2
  have hmul := Nat.mul_le_mul_right m.secsize h.inside
  rw [Nat.add_mul] at hmul
  rw [base_eq]
  omega

theorem paste_in (f g : Nat → UInt8) (h : a ≤ i) (hlt : i < a + n) : paste f a n g i = g (i - a) := if_pos ⟨h, hlt⟩

theorem paste_out (f g : Nat → UInt8) (h : i < a ∨ a + n ≤ i) : paste f a n g i = f i := if_neg (by omega)

theorem within_spec (l o len : Nat) : within l o len ≤ len ∧ (0 < within l o len → o + within l o len ≤ l) ∧
    (o ≤ l → within l o len = min len (l - o)) ∧ (l < o → within l o len = 0) := by
  rw [within]
  split
  · exact ⟨by omega, by omega, by omega, fun _ => rfl⟩
  · split <;> exact ⟨by omega, by omega, by omega, by omega⟩

/-- **Sectors with the new bytes in their place** are the medium with the new bytes in their place. -/
theorem paste_sectors {base p : Nat} (hlen : ∀ j, j < l → b j = if o ≤ j ∧ j < o + len then g (j - o) else f (p + j))
    (hbase : base = p + o) : paste f p l b = paste f base (within l o len) g := by
  obtain ⟨hle, -, hin, hout⟩ := within_spec l o len
  funext i
  rw [paste, paste]
  by_cases hi : p ≤ i ∧ i < p + l
  · rw [if_pos hi, hlen (i - p) (by omega)]
    by_cases hj : o ≤ i - p ∧ i - p < o + len
    · have hk := hin (by omega)
      rw [if_pos hj, if_pos (by omega)]
      congr 1
      omega
    · rw [if_neg hj, if_neg (by omega)]
      congr 1
      omega
  · rw [if_neg hi]
    by_cases hl : o ≤ l
    · have hk := hin hl
      rw [if_neg (by omega)]
    · have hk := hout (by omega)
      rw [if_neg (by omega)]

/-- **The partition is a file.**  The call does not run wild, releases the device and the lock, and asks for no sector
outside the partition.  Reading stores as many bytes as it returns, and they are those of the partition; writing
changes so many bytes of the partition to those of the buffer, and no others.  At or past the end reading returns 0
and writing fails. -/
structure Right (r : Req) (m : Medium) (buf : Nat → UInt8) (x : Run) : Prop where
  tame : x.ending ≠ .wild
  released : x.refs = 0
  unlocked : x.ctl = false
  inside : ∀ s ∈ x.asked, m.start ≤ s.1 ∧ s.1 + s.2 ≤ m.stop
  count : ∀ k, x.ending = .returned k → k ≤ r.len ∧ (0 < k → r.base m + k ≤ m.stop * m.secsize)
  reading : r.write = false → x.disc = m.disc ∧ ∀ k, x.ending = .returned k →
    x.stored = k ∧ x.buf = paste buf 0 k fun i => m.disc (r.base m + i)
  writing : r.write = true → x.stored = 0 ∧ x.buf = buf ∧ ∀ k, x.ending = .returned k →
    x.disc = paste m.disc (r.base m) k buf
  behind : m.vers = r.vers → (m.stop - m.start) * m.secsize ≤ r.off →
    x.ending = if r.write then .raised .eio else .returned 0

/-- The request reaches the device. -/
def Busy (r : Req) (m : Medium) : Prop := m.vers = r.vers ∧ r.idle m = false

/-- **The condition.**  The transfer does not go straight to a kernel address when it ends inside a sector and all the
sectors come, the read half of an unaligned write gets a sector, and there is memory for a buffer unless the medium
is removable. -/
structure Clean (r : Req) (t : Turn) : Prop where
  kernel : r.write = false → r.direct t.m = true → r.clip t.m % t.m.secsize ≠ 0 →
    ∀ got, t.bio₁ = some got → got < r.nb t.m
  half : r.write = true → r.offset t.m ≠ 0 → t.mem.isSome = true → t.bio₁ ≠ some 0
  memory : r.direct t.m = false → t.m.removable = false → t.mem.isSome = true

theorem not_behind (hidle : r.idle m = false) : ¬ (m.stop - m.start) * m.secsize ≤ r.off := by
  intro hend
  rw [idle_behind hend] at hidle
  cases hidle

/-- A device error. -/
theorem failed_right {asked : List (Nat × Nat)} (hidle : r.idle m = false)
    (hasked : ∀ s ∈ asked, m.start ≤ s.1 ∧ s.1 + s.2 ≤ m.stop) : Right r m buf (giveUp (failed m buf asked)) := by
  have hgive : giveUp (failed m buf asked) = ⟨.raised .eio, m.disc, buf, 0, asked, false, 0⟩ := by
    cases hrem : m.removable with
    | true => simp only [giveUp, failed, hrem, if_true]
    | false => simp only [giveUp, failed, hrem, Bool.false_eq_true, if_false]
  rw [hgive]
  exact ⟨nofun, rfl, rfl, hasked, nofun, fun _ => ⟨rfl, nofun⟩, fun _ => ⟨rfl, rfl, nofun⟩,
    fun _ hend => absurd hend (not_behind hidle)⟩

theorem Bounds.start (h : Bounds r m) : m.start ≤ r.bno m := by
  rw [h.bno]
  exact Nat.le_add_left _ _

/-- What is returned when `l` bytes of sectors came or went, of which `len` bytes from the offset on count. -/
theorem Bounds.count (h : Bounds r m) (hlen : len ≤ r.clip m) :
    within l (r.offset m) len ≤ r.len ∧
      (0 < within l (r.offset m) len → r.base m + within l (r.offset m) len ≤ m.stop * m.secsize) := by
  have hclip := h.clip.1
  have hbase := h.base
  have hle := (within_spec l (r.offset m) len).1
  exact ⟨by omega, by omega⟩

/-- **Reading.** -/
theorem readSectors_right (hidle : r.idle t.m = false) (hread : r.write = false) {b : Option (Nat → UInt8)}
    (hb : b = none → r.offset t.m = 0 ∧ ∀ got, t.bio₁ = some got →
      r.clip t.m % t.m.secsize ≠ 0 → got < r.nb t.m) :
    Right r t.m buf (giveUp (readSectors r t buf b)) := by
  have h := bounds hidle
  have hasked : ∀ s ∈ [(r.bno t.m, r.nb t.m)], t.m.start ≤ s.1 ∧ s.1 + s.2 ≤ t.m.stop :=
    List.forall_mem_singleton.mpr ⟨h.start, h.inside⟩
  rw [readSectors]
  cases hbio : t.bio₁ with
  | none => exact failed_right hidle hasked
  | some got =>
    have hcount := h.count (l := min got (r.nb t.m) * t.m.secsize) (Nat.le_refl (r.clip t.m))
    obtain ⟨hle, hmost, hin, -⟩ := within_spec (min got (r.nb t.m) * t.m.secsize) (r.offset t.m) (r.clip t.m)
    have hwrong : ¬ r.write = true := by
      rw [hread]
      exact Bool.false_ne_true
    cases b with
    | none =>
      obtain ⟨hoffset, hkernel⟩ := hb rfl
      -- the bytes that come are those that count
      have hstored : min got (r.nb t.m) * t.m.secsize ≤ r.clip t.m := by
        by_cases haligned : r.clip t.m % t.m.secsize = 0
        · rw [h.whole hoffset haligned]
          exact Nat.mul_le_mul_right _ (Nat.min_le_right _ _)
        · have hgot := hkernel got hbio haligned
          rw [Nat.min_eq_left (Nat.le_of_lt hgot)]
          exact h.fewer hoffset hgot
      have hall : within (min got (r.nb t.m) * t.m.secsize) (r.offset t.m) (r.clip t.m) =
          min got (r.nb t.m) * t.m.secsize := by
        rw [hin (by omega)]
        omega
      have hbase := base_eq r t.m
      rw [hoffset, Nat.add_zero] at hbase
      dsimp only at hcount ⊢
      rw [hall] at hcount ⊢
      refine ⟨nofun, rfl, rfl, hasked, fun k hk => ?_, fun _ => ⟨rfl, fun k hk => ?_⟩, fun hw => absurd hw hwrong,
        fun _ hend => absurd hend (not_behind hidle)⟩
      · cases hk
        exact hcount
      · cases hk
        rw [hbase]
        exact ⟨rfl, rfl⟩
    | some b =>
      refine ⟨nofun, rfl, rfl, hasked, fun k hk => ?_, fun _ => ⟨rfl, fun k hk => ?_⟩, fun hw => absurd hw hwrong,
        fun _ hend => absurd hend (not_behind hidle)⟩
      · cases hk
        exact hcount
      · cases hk
        refine ⟨rfl, funext fun i => ?_⟩
        change paste buf 0 _ (fun i => paste b 0 _ _ (r.offset t.m + i)) i = _
        generalize within (min got (r.nb t.m) * t.m.secsize) (r.offset t.m) (r.clip t.m) = k at hmost
        by_cases hi : i < k
        · have hpos := hmost (by omega)
          rw [paste_in _ _ (Nat.zero_le _) (by omega), paste_in _ _ (Nat.zero_le _) (by omega),
            paste_in _ _ (Nat.zero_le _) (by omega), base_eq]
          congr 1
          omega
        · rw [paste_out _ _ (by omega), paste_out _ _ (by omega)]

/-- **The last transfer of a write.** -/
theorem writeSectors_right {bio : Option Nat} {asked : List (Nat × Nat)} (hidle : r.idle t.m = false)
    (hwrite : r.write = true) (hasked : ∀ s ∈ asked, t.m.start ≤ s.1 ∧ s.1 + s.2 ≤ t.m.stop) (hnb : nb ≤ r.nb t.m)
    (hlen : len ≤ r.clip t.m) (hb : ∀ j, j < nb * t.m.secsize →
      b j = if r.offset t.m ≤ j ∧ j < r.offset t.m + len then buf (j - r.offset t.m)
        else t.m.disc (r.bno t.m * t.m.secsize + j)) :
    Right r t.m buf (giveUp (writeSectors r t buf b nb len bio asked)) := by
  have h := bounds hidle
  have hinside := h.inside
  have hasked' : ∀ s ∈ asked ++ [(r.bno t.m, nb)], t.m.start ≤ s.1 ∧ s.1 + s.2 ≤ t.m.stop :=
    List.forall_mem_append.mpr ⟨hasked, List.forall_mem_singleton.mpr ⟨h.start, by dsimp only; omega⟩⟩
  cases bio with
  | none => exact failed_right hidle hasked'
  | some put =>
    have hcount := h.count (l := min put nb * t.m.secsize) hlen
    have hl : min put nb * t.m.secsize ≤ nb * t.m.secsize := Nat.mul_le_mul_right _ (Nat.min_le_right _ _)
    have hwrong : ¬ r.write = false := by
      rw [hwrite]
      nofun
    refine ⟨nofun, rfl, rfl, hasked', fun k hk => ?_, fun hr => absurd hr hwrong, fun _ => ⟨rfl, rfl, fun k hk => ?_⟩,
      fun _ hend => absurd hend (not_behind hidle)⟩
    · cases hk
      exact hcount
    · cases hk
      exact paste_sectors (fun j hj => hb j (Nat.lt_of_lt_of_le hj hl)) (base_eq r t.m)

/-- The buffer of a hard write: the sectors as they are, with the new bytes in their place. -/
theorem buffered (b : Nat → UInt8) (hi : i < l) :
    paste (paste b 0 l f) o len buf i = if o ≤ i ∧ i < o + len then buf (i - o) else f i := by
  rw [paste]
  split
  · rfl
  · rw [paste_in _ _ (Nat.zero_le _) (by omega), Nat.sub_zero]

theorem soft (h : r.hard m = false) : r.offset m = 0 ∧ (r.write = true → r.clip m % m.secsize = 0) := by
  have hnot := of_decide_eq_false h
  rw [not_or, not_not, not_and] at hnot
  exact ⟨hnot.1, fun hw => not_not.mp (hnot.2 hw)⟩

theorem direct_soft (h : r.direct m = true) : r.kaddr = true ∧ r.hard m = false := by
  rw [Req.direct, Bool.and_eq_true, Bool.not_eq_true'] at h
  exact h

/-- **A hard write** that got a sector for its offset. -/
theorem writeHard_right {got : Nat} (hidle : r.idle t.m = false) (hwrite : r.write = true)
    (hhalf : r.offset t.m ≠ 0 → got ≠ 0) :
    Right r t.m buf (giveUp (writeHard r t buf b (min got (r.nb t.m) * t.m.secsize))) := by
  have h := bounds hidle
  have hasked : ∀ s ∈ [(r.bno t.m, r.nb t.m)], t.m.start ≤ s.1 ∧ s.1 + s.2 ≤ t.m.stop :=
    List.forall_mem_singleton.mpr ⟨h.start, h.inside⟩
  obtain ⟨hoffset, hone⟩ := h.sectors
  have hpos : 0 < t.m.secsize := by omega
  have hl : min got (r.nb t.m) * t.m.secsize ≤ r.nb t.m * t.m.secsize := Nat.mul_le_mul_right _ (Nat.min_le_right _ _)
  -- where there is an offset, there is a sector for it
  have hroom : r.offset t.m ≤ min got (r.nb t.m) * t.m.secsize := by
    by_cases hzero : r.offset t.m = 0
    · omega
    · have hgot := hhalf hzero
      have hnb := h.pos
      have hmin : 1 ≤ min got (r.nb t.m) := by omega
      have hmul := Nat.mul_le_mul_right t.m.secsize hmin
      omega
  have hnb : r.halfNb t.m (min got (r.nb t.m) * t.m.secsize) ≤ r.nb t.m ∧
      r.halfNb t.m (min got (r.nb t.m) * t.m.secsize) * t.m.secsize ≤ min got (r.nb t.m) * t.m.secsize := by
    rw [Req.halfNb, Nat.mul_div_cancel _ hpos]
    split
    · exact ⟨Nat.min_le_right _ _, Nat.le_refl _⟩
    · exact ⟨Nat.le_refl _, by omega⟩
  have hlen : 0 ≤ r.halfLen t.m (min got (r.nb t.m) * t.m.secsize) ∧
      r.halfLen t.m (min got (r.nb t.m) * t.m.secsize) ≤ r.clip t.m := by
    rw [Req.halfLen, Nat.mul_div_cancel _ hpos]
    split <;> omega
  rw [writeHard, if_neg (by omega)]
  exact writeSectors_right hidle hwrite hasked hnb.1 (by omega) fun j hj => buffered b (Nat.lt_of_lt_of_le hj hnb.2)

/-- **Writing by way of a buffer.** -/
theorem writeBuffered_right (hidle : r.idle t.m = false) (hwrite : r.write = true)
    (hhalf : r.offset t.m ≠ 0 → t.bio₁ ≠ some 0) : Right r t.m buf (giveUp (writeBuffered r t buf b)) := by
  have h := bounds hidle
  rw [writeBuffered]
  by_cases hhard : r.hard t.m = true
  · rw [if_pos hhard]
    cases hbio : t.bio₁ with
    | none => exact failed_right hidle (List.forall_mem_singleton.mpr ⟨h.start, h.inside⟩)
    | some got =>
      rw [hbio] at hhalf
      exact writeHard_right hidle hwrite fun hzero hgot => hhalf hzero (congrArg some hgot)
  · rw [if_neg hhard]
    obtain ⟨hzero, haligned⟩ := soft (Bool.eq_false_iff.mpr hhard)
    have hwhole := h.whole hzero (haligned hwrite)
    refine writeSectors_right hidle hwrite nofun (Nat.le_refl _) (Nat.le_refl _) fun j hj => ?_
    rw [paste, if_pos (by omega), if_pos (by omega)]

/-- **What an attempt does** when nothing goes wrong that `Clean` names. -/
theorem attempt_right (hclean : Busy r t.m → Clean r t) : Right r t.m buf (giveUp (attempt r t buf)) := by
  rw [attempt]
  by_cases hvers : t.m.vers = r.vers
  · rw [if_neg (not_not.mpr hvers)]
    cases hidle : r.idle t.m with
    | true =>
      rw [if_pos rfl]
      cases hwrite : r.write with
      | true =>
        rw [if_pos rfl]
        exact ⟨nofun, rfl, rfl, nofun, nofun, fun _ => ⟨rfl, nofun⟩, fun _ => ⟨rfl, rfl, nofun⟩,
          fun _ _ => by rw [hwrite]; rfl⟩
      | false =>
        rw [if_neg Bool.false_ne_true]
        refine ⟨nofun, rfl, rfl, nofun, fun k hk => ?_, fun _ => ⟨rfl, fun k hk => ?_⟩, fun hw => ?_,
          fun _ _ => by rw [hwrite]; rfl⟩
        · cases hk
          exact ⟨Nat.zero_le _, fun hpos => absurd hpos (Nat.lt_irrefl 0)⟩
        · cases hk
          exact ⟨rfl, funext fun i => (paste_out _ _ (by omega)).symm⟩
        · rw [hwrite] at hw
          cases hw
    | false =>
      rw [if_neg Bool.false_ne_true]
      obtain ⟨hkernel, hhalf, hmemory⟩ := hclean ⟨hvers, hidle⟩
      cases hdirect : r.direct t.m with
      | true =>
        rw [if_pos rfl]
        obtain ⟨hzero, haligned⟩ := soft (direct_soft hdirect).2
        cases hwrite : r.write with
        | true =>
          rw [if_pos rfl]
          have hwhole := (bounds hidle).whole hzero (haligned hwrite)
          refine writeSectors_right hidle hwrite nofun (Nat.le_refl _) (Nat.le_refl _) fun j hj => ?_
          rw [if_pos (by omega), hzero, Nat.sub_zero]
        | false =>
          rw [if_neg Bool.false_ne_true]
          exact readSectors_right hidle hwrite fun _ =>
            ⟨hzero, fun got hgot hpart => hkernel hwrite hdirect hpart got hgot⟩
      | false =>
        rw [if_neg Bool.false_ne_true]
        cases hmem : t.mem with
        | none =>
          have hrem : t.m.removable = true := by
            rw [hmem] at hmemory
            cases hr : t.m.removable with
            | true => rfl
            | false => exact absurd (hmemory hdirect hr) Bool.false_ne_true
          rw [hrem]
          exact ⟨nofun, rfl, rfl, nofun, nofun, fun _ => ⟨rfl, nofun⟩, fun _ => ⟨rfl, rfl, nofun⟩,
            fun _ hend => absurd hend (not_behind hidle)⟩
        | some b =>
          dsimp only
          cases hwrite : r.write with
          | true =>
            rw [if_pos rfl]
            rw [hmem] at hhalf
            exact writeBuffered_right hidle hwrite fun hoff => hhalf hwrite hoff rfl
          | false =>
            rw [if_neg Bool.false_ne_true]
            exact readSectors_right hidle hwrite nofun
  · rw [if_pos hvers]
    exact ⟨nofun, rfl, rfl, nofun, nofun, fun _ => ⟨rfl, nofun⟩, fun _ => ⟨rfl, rfl, nofun⟩,
      fun heq => absurd heq hvers⟩

/-- A read that goes straight to a kernel address stores whole sectors. -/
theorem stores_beyond {got : Nat} (hidle : r.idle t.m = false) (hread : r.write = false)
    (hdirect : r.direct t.m = true) (hpart : r.clip t.m % t.m.secsize ≠ 0) (hbio : t.bio₁ = some got)
    (hgot : r.nb t.m ≤ got) : ¬ Right r t.m buf (giveUp (readSectors r t buf none)) := by
  obtain ⟨hzero, -⟩ := soft (direct_soft hdirect).2
  have hclip := (bounds hidle).clip.2
  intro h
  rw [readSectors, hbio] at h
  obtain ⟨hstored, -⟩ := (h.reading hread).2 _ rfl
  have hcount : min got (r.nb t.m) * t.m.secsize =
      within (min got (r.nb t.m) * t.m.secsize) (r.offset t.m) (r.clip t.m) := hstored
  rw [Nat.min_eq_right hgot] at hcount
  have hk := (within_spec (r.nb t.m * t.m.secsize) (r.offset t.m) (r.clip t.m)).2.2.1 (by omega)
  have hwhole : r.clip t.m = r.nb t.m * t.m.secsize := by omega
  rw [hwhole, Nat.mul_mod_left] at hpart
  exact hpart rfl

/-- A write that gets no sector in its read half copies a negative number of bytes. -/
theorem runs_wild (hidle : r.idle t.m = false) (hzero : r.offset t.m ≠ 0) (hbio : t.bio₁ = some 0) :
    (writeBuffered r t buf b).ending = .wild := by
  have hone := (bounds hidle).sectors.2
  have hoffset := (bounds hidle).sectors.1
  have hhard : r.hard t.m = true := decide_eq_true (Or.inl hzero)
  have hneg : r.halfLen t.m 0 < 0 := by
    rw [Req.halfLen, if_pos (by omega), Nat.zero_div, Nat.zero_mul]
    omega
  rw [writeBuffered, if_pos hhard, hbio]
  change (writeHard r t buf b (min 0 (r.nb t.m) * t.m.secsize)).ending = .wild
  rw [Nat.zero_min, Nat.zero_mul, writeHard, if_pos hneg]

theorem attempt_wrong (hbusy : Busy r t.m) (hdirty : ¬ Clean r t) : ¬ Right r t.m buf (giveUp (attempt r t buf)) := by
  obtain ⟨hvers, hidle⟩ := hbusy
  intro h
  rw [attempt, if_neg (not_not.mpr hvers), if_neg (by rw [hidle]; exact Bool.false_ne_true)] at h
  refine hdirty ⟨fun hread hdirect hpart got hbio => ?_, fun hwrite hzero hmem hbio => ?_, fun hdirect hrem => ?_⟩
  · rw [if_pos hdirect, if_neg (by rw [hread]; exact Bool.false_ne_true)] at h
    exact Nat.not_le.mp fun hgot => stores_beyond hidle hread hdirect hpart hbio hgot h
  · have hhard : r.hard t.m = true := decide_eq_true (Or.inl hzero)
    have hdirect : r.direct t.m = false := by rw [Req.direct, hhard, Bool.not_true, Bool.and_false]
    obtain ⟨b, hb⟩ := Option.isSome_iff_exists.mp hmem
    rw [if_neg (by rw [hdirect]; exact Bool.false_ne_true), hb] at h
    dsimp only at h
    rw [if_pos hwrite] at h
    have hwild := @runs_wild _ _ buf b hidle hzero hbio
    refine h.tame ?_
    rw [giveUp, hwild]
    exact hwild
  · cases hmem : t.mem with
    | some b => rfl
    | none =>
      rw [if_neg (by rw [hdirect]; exact Bool.false_ne_true), hmem, hrem] at h
      exact absurd h.released Nat.one_ne_zero

theorem writeBuffered_buf : (writeBuffered r t buf b).buf = buf := by
  rw [writeBuffered]
  split
  · split
    · rfl
    · rw [writeHard]
      split
      · rfl
      · cases t.bio₂ <;> rfl
  · cases t.bio₁ <;> rfl

/-- An attempt that is repeated has left the buffer alone. -/
theorem again_buf (h : again t (attempt r t buf) = true) : (attempt r t buf).buf = buf := by
  have hending := (of_decide_eq_true h).1
  rw [attempt] at hending ⊢
  split
  · rfl
  · next hvers =>
    rw [if_neg hvers] at hending
    split
    · split <;> rfl
    · next hidle =>
      rw [if_neg hidle] at hending
      have hread : ∀ c, (readSectors r t buf c).ending = .raised .eio → (readSectors r t buf c).buf = buf := by
        intro c hc
        rw [readSectors] at hc ⊢
        cases hbio : t.bio₁ with
        | none => rfl
        | some got =>
          rw [hbio] at hc
          cases c <;> cases hc
      split
      · next hdirect =>
        rw [if_pos hdirect] at hending
        split
        · cases t.bio₁ <;> rfl
        · next hwrite =>
          rw [if_neg hwrite] at hending
          exact hread none hending
      · next hdirect =>
        rw [if_neg hdirect] at hending
        split
        · rfl
        · next c hmem =>
          rw [hmem] at hending
          dsimp only at hending
          split
          · exact writeBuffered_buf
          · next hwrite =>
            rw [if_neg hwrite] at hending
            exact hread (some c) hending

/-- **What the call promises**, with a unit or without one. -/
def Kept (r : Req) (f : Found) (buf : Nat → UInt8) (x : Run) : Prop :=
  match f with
  | .nodev => x.ending = .raised .enonexist ∧ x.refs = 0
  | .nounit => x.ending ≠ .wild ∧ x.refs = 0
  | .unit t => Right r (deciding r t buf).m buf x

/-- The channel's unit is there, and a request that reaches the device is `Clean`. -/
def Sane (r : Req) (f : Found) (buf : Nat → UInt8) : Prop :=
  match f with
  | .nodev => True
  | .nounit => False
  | .unit t => Busy r (deciding r t buf).m → Clean r (deciding r t buf)

/-- **Partitions are byte files**, but for the cases that `Sane` names. -/
theorem sdbio_file (r : Req) (f : Found) (buf : Nat → UInt8) : Kept r f buf (sdbio r f buf) ↔ Sane r f buf := by
  cases f with
  | nodev => exact iff_of_true ⟨rfl, rfl⟩ trivial
  | nounit => exact iff_of_false (fun h => h.1 rfl) id
  | unit t =>
      have hrun : sdbio r (.unit t) buf = giveUp (attempt r (deciding r t buf) buf) := by
        rw [sdbio, deciding]
        split
        · next hagain => rw [again_buf hagain]
        · rfl
      change Right r (deciding r t buf).m buf (sdbio r (.unit t) buf) ↔ (Busy r (deciding r t buf).m → Clean r (deciding r t buf))
      rw [hrun]
      constructor
      · intro h hbusy
        by_contra hdirty
        exact attempt_wrong hbusy hdirty h
      · exact attempt_right

/-- A medium of eight sectors of 512 bytes, with one partition. -/
def someMedium : Medium :=
  ⟨512, 2, 6, 1, false, fun i => UInt8.ofNat i, by decide, by decide, by decide⟩

/-- 100 bytes for a kernel address at the start of the partition. -/
def someRead : Req := ⟨false, true, 100, 0, 1, by decide, by decide⟩

/-- The sector goes straight to `a`: 512 bytes are stored there. -/
theorem stores_sector :
    ¬ ∀ (r : Req) (f : Found) (buf : Nat → UInt8), Kept r f buf (sdbio r f buf) := by
  intro hall
  have hkept := hall someRead (.unit fun _ => ⟨someMedium, none, some 1, none, false⟩) fun _ => 0
  have hrun : (sdbio someRead (.unit fun _ => ⟨someMedium, none, some 1, none, false⟩) fun _ => 0).ending = .returned 100 ∧
      (sdbio someRead (.unit fun _ => ⟨someMedium, none, some 1, none, false⟩) fun _ => 0).stored = 512 :=
    ⟨by decide +kernel, by decide +kernel⟩
  have hstored := ((Right.reading hkept rfl).2 100 hrun.1).1
  rw [hrun.2] at hstored
  exact absurd hstored (by decide)

variable {w : Req} {tw tr : Bool → Turn} {buf' : Nat → UInt8}

theorem sdbio_right (h : Sane r (.unit tw) buf) :
    Right r (deciding r tw buf).m buf (sdbio r (.unit tw) buf) := by
  have hrun : sdbio r (.unit tw) buf = giveUp (attempt r (deciding r tw buf) buf) := by
    rw [sdbio, deciding]
    split
    · next hagain => rw [again_buf hagain]
    · rfl
  rw [hrun]
  exact attempt_right h

/-- **What is written is read**: after a write that has returned `k`, a read of the partition returns the bytes
written where it meets them, and elsewhere what was there before. -/
theorem read_write (hwrite : w.write = true) (hread : r.write = false) (hw : Sane w (.unit tw) buf)
    (hr : Sane r (.unit tr) buf') (hk : (sdbio w (.unit tw) buf).ending = .returned k)
    (hm : (deciding r tr buf').m = { (deciding w tw buf).m with disc := (sdbio w (.unit tw) buf).disc })
    (hn : (sdbio r (.unit tr) buf').ending = .returned n) (hi : i < n) :
    (sdbio r (.unit tr) buf').buf i = if w.off ≤ r.off + i ∧ r.off + i < w.off + k then buf (r.off + i - w.off)
      else (deciding w tw buf).m.disc (r.base (deciding w tw buf).m + i) := by
  have hwritten := ((sdbio_right hw).writing hwrite).2.2 k hk
  have hgot := (((sdbio_right hr).reading hread).2 n hn).2
  rw [hgot, paste_in _ _ (Nat.zero_le i) (by omega), hm]
  generalize (deciding w tw buf).m = m at hwritten ⊢
  change (sdbio w (.unit tw) buf).disc (r.base m + (i - 0)) = _
  rw [hwritten, paste, Req.base, Req.base, Nat.sub_zero]
  congr 1
  · exact propext (by omega)
  · congr 1
    omega

/-- A unit that transfers a sector. -/
def someUnit (disc : Nat → UInt8) : Bool → Turn :=
  fun _ => ⟨{ someMedium with disc }, some fun _ => 0, some 1, some 1, false⟩

/-- 100 bytes at the start of the partition, by way of a buffer. -/
def someReq (write : Bool) : Req := ⟨write, false, 100, 0, 1, by decide, by decide⟩

/-- The medium with 100 bytes written. -/
def written : Nat → UInt8 := (sdbio (someReq true) (.unit (someUnit fun _ => 0)) fun _ => 9).disc

theorem read_write_hundred : (sdbio (someReq false) (.unit (someUnit written)) fun _ => 0).buf 5 = 9 := by
  have hdecides (write : Bool) (disc buf : Nat → UInt8) :
      deciding (someReq write) (someUnit disc) buf = someUnit disc true := by
    unfold deciding
    split <;> rfl
  have hsane (write : Bool) (disc buf : Nat → UInt8) : Sane (someReq write) (.unit (someUnit disc)) buf := by
    rw [Sane, hdecides]
    exact fun _ => ⟨fun _ h => Bool.noConfusion (show false = true from h), fun _ h => absurd rfl h, fun _ _ => rfl⟩
  have hk : (sdbio (someReq true) (.unit (someUnit fun _ => 0)) fun _ => 9).ending = .returned 100 := by
    decide +kernel
  have hn : (sdbio (someReq false) (.unit (someUnit written)) fun _ => 0).ending = .returned 100 := by decide +kernel
  rw [read_write rfl rfl (hsane true _ _) (hsane false _ _) hk (by rw [hdecides, hdecides]; rfl) hn (by decide)]
  rfl

end Sd
