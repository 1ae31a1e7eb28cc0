import NixKernel.SdbioFile

/-!
# Two writes at once

A write of part of a sector reads the sectors, puts its bytes in and writes them back.  When the medium
is not removable, the lock of the unit is released before that: "this is a little fast and loose".  So
two writes of different bytes of one sector may both read it before either writes it back, and the
second puts back what the first has changed.

Each call of the driver is one step, and the two writers take turns in any order.
-/

namespace Sd

/-- A call of `sdbio` that writes: what it gets from `sdmalloc`, its bytes, and how many sectors each of
its transfers moves when it does not fail. -/
structure Job where
  r : Req
  buf : Nat → UInt8
  mem : Option (Nat → UInt8)
  bio₁ : Option Nat
  bio₂ : Option Nat
  writes : r.write = true

def Job.turn (j : Job) (m : Medium) : Turn := ⟨m, j.mem, j.bio₁, j.bio₂, false⟩

/-- The medium with other bytes on it. -/
def Medium.on (m : Medium) (disc : Nat → UInt8) : Medium := { m with disc }

@[simp] theorem on_secsize (m : Medium) (disc : Nat → UInt8) : (m.on disc).secsize = m.secsize := rfl

@[simp] theorem on_bytes (m : Medium) (disc : Nat → UInt8) : (m.on disc).disc = disc := rfl

@[simp] theorem base_on (r : Req) (m : Medium) (disc : Nat → UInt8) : r.base (m.on disc) = r.base m := rfl

@[simp] theorem bno_on (r : Req) (m : Medium) (disc : Nat → UInt8) : r.bno (m.on disc) = r.bno m := rfl

@[simp] theorem nb_on (r : Req) (m : Medium) (disc : Nat → UInt8) : r.nb (m.on disc) = r.nb m := rfl

@[simp] theorem clip_on (r : Req) (m : Medium) (disc : Nat → UInt8) : r.clip (m.on disc) = r.clip m := rfl

@[simp] theorem offset_on (r : Req) (m : Medium) (disc : Nat → UInt8) :
    r.offset (m.on disc) = r.offset m := rfl

@[simp] theorem idle_on (r : Req) (m : Medium) (disc : Nat → UInt8) : r.idle (m.on disc) = r.idle m := rfl

@[simp] theorem halfLen_on (r : Req) (m : Medium) (disc : Nat → UInt8) (l : Nat) :
    r.halfLen (m.on disc) l = r.halfLen m l := rfl

@[simp] theorem halfNb_on (r : Req) (m : Medium) (disc : Nat → UInt8) (l : Nat) :
    r.halfNb (m.on disc) l = r.halfNb m l := rfl

/-- Where a writer is: before its first transfer, between the two with what it is to write back, or
done. -/
inductive Stage
  | start
  | holding (b : Nat → UInt8) (nb len : Nat)
  | done (e : Ending)

/-- What is read by a write that has to read first and goes on: the buffer and the number of bytes. -/
def Job.reads (j : Job) (m : Medium) : Option ((Nat → UInt8) × Nat) :=
  if m.vers = j.r.vers ∧ j.r.idle m = false ∧ j.r.hard m = true then
    match j.mem, j.bio₁ with
    | some b, some got =>
      let l := min got (j.r.nb m) * m.secsize
      if j.r.halfLen m l < 0 then none else some (b, l)
    | _, _ => none
  else none

/-- One step of a writer: up to the first transfer and through it, or the second. -/
def Job.step (j : Job) (m : Medium) : Stage → Stage × (Nat → UInt8)
  | .start =>
    match j.reads m with
    | some (b, l) =>
      (.holding
        (paste (paste b 0 l fun i => m.disc (j.r.bno m * m.secsize + i)) (j.r.offset m)
          (j.r.halfLen m l).toNat j.buf)
        (j.r.halfNb m l) (j.r.halfLen m l).toNat, m.disc)
    | none =>
      let x := attempt j.r (j.turn m) j.buf
      (.done x.ending, x.disc)
  | .holding b nb len =>
    let x := writeSectors j.r (j.turn m) j.buf b nb len j.bio₂ []
    (.done x.ending, x.disc)
  | .done e => (.done e, m.disc)

/-- The bytes of the two are different ones. -/
def Job.Disjoint (j k : Job) : Prop := j.r.off + j.r.len ≤ k.r.off ∨ k.r.off + k.r.len ≤ j.r.off

/-- Two writers of bytes of their own, on a medium that is not removable. -/
structure Race where
  m : Medium
  fixed : m.removable = false
  fst : Job
  snd : Job
  disjoint : fst.Disjoint snd

/-- The medium and the two writers. -/
structure Both where
  disc : Nat → UInt8
  fst : Stage
  snd : Stage

/-- The next step is that of the second writer, or of the first. -/
def Race.step (R : Race) (s : Both) : Bool → Both
  | false => let x := R.fst.step (R.m.on s.disc) s.fst; ⟨x.2, x.1, s.snd⟩
  | true => let x := R.snd.step (R.m.on s.disc) s.snd; ⟨x.2, s.fst, x.1⟩

def Race.run (R : Race) (l : List Bool) : Both := l.foldl R.step ⟨R.m.disc, .start, .start⟩

/-- The medium holds the bytes of a write that is done. -/
def Job.Held (j : Job) (m : Medium) (disc : Nat → UInt8) : Stage → Prop
  | .done (.returned k) => k ≤ j.r.len ∧ ∀ i, i < k → disc (j.r.base m + i) = j.buf i
  | _ => True

/-- No sector of one is a sector of the other. -/
def Job.Clear (j k : Job) (m : Medium) : Prop :=
  j.r.bno m + j.r.nb m ≤ k.r.bno m ∨ k.r.bno m + k.r.nb m ≤ j.r.bno m

/-- The step is the last one of a write, whether or not the driver moves anything. -/
def Job.Writing (j : Job) (m : Medium) : Stage → Prop
  | .start => j.reads m = none
  | .holding _ _ _ => True
  | .done _ => False

def Stage.Holding : Stage → Prop
  | .holding _ _ _ => True
  | _ => False

/-- **What a step has to meet**: nothing is written to a sector that the other has read and will write
back. -/
def Race.Fits (R : Race) (s : Both) : Bool → Prop
  | false => R.fst.Writing (R.m.on s.disc) s.fst → s.snd.Holding → R.fst.Clear R.snd R.m
  | true => R.snd.Writing (R.m.on s.disc) s.snd → s.fst.Holding → R.fst.Clear R.snd R.m

def Race.AllFit (R : Race) (s : Both) : List Bool → Prop
  | [] => True
  | who :: l => R.Fits s who ∧ R.AllFit (R.step s who) l

variable {j k : Job} {m : Medium} {b : Nat → UInt8} {l nb len n : Nat}

/-- What a writer is to write back when it has read. -/
theorem reads_spec (h : j.reads m = some (b, l)) :
    ∃ got, m.vers = j.r.vers ∧ j.r.idle m = false ∧ j.r.hard m = true ∧ j.mem = some b ∧ j.bio₁ = some got ∧
      l = min got (j.r.nb m) * m.secsize ∧ ¬j.r.halfLen m l < 0 := by
  rw [Job.reads, Option.ite_none_right_eq_some] at h
  obtain ⟨⟨hvers, hidle, hhard⟩, h⟩ := h
  cases hmem : j.mem with
  | none =>
    rw [hmem] at h
    cases h
  | some b' =>
    cases hbio : j.bio₁ with
    | none =>
      rw [hmem, hbio] at h
      cases h
    | some got =>
      rw [hmem, hbio] at h
      dsimp only at h
      rw [Option.ite_none_left_eq_some] at h
      obtain ⟨hlen, h⟩ := h
      cases h
      exact ⟨got, hvers, hidle, hhard, rfl, rfl, rfl, hlen⟩

theorem step_reads (h : j.reads m = some (b, l)) : j.step m .start =
    (.holding (paste (paste b 0 l fun i => m.disc (j.r.bno m * m.secsize + i)) (j.r.offset m)
      (j.r.halfLen m l).toNat j.buf) (j.r.halfNb m l) (j.r.halfLen m l).toNat, m.disc) := by
  rw [Job.step, h]

theorem step_attempts (h : j.reads m = none) : j.step m .start =
    (.done (attempt j.r (j.turn m) j.buf).ending, (attempt j.r (j.turn m) j.buf).disc) := by
  rw [Job.step, h]

theorem step_holding (j : Job) (m : Medium) (b : Nat → UInt8) (nb len : Nat) :
    j.step m (.holding b nb len) =
      (.done (writeSectors j.r (j.turn m) j.buf b nb len j.bio₂ []).ending,
        (writeSectors j.r (j.turn m) j.buf b nb len j.bio₂ []).disc) := rfl

theorem on_disc (m : Medium) : m.on m.disc = m := rfl

/-- What a transfer does is not changed by those before it. -/
theorem writeSectors_asked (r : Req) (t : Turn) (buf b : Nat → UInt8) (nb len : Nat) (bio : Option Nat)
    (asked asked' : List (Nat × Nat)) :
    (writeSectors r t buf b nb len bio asked).ending = (writeSectors r t buf b nb len bio asked').ending ∧
      (writeSectors r t buf b nb len bio asked).disc = (writeSectors r t buf b nb len bio asked').disc := by
  cases bio with
  | none => exact ⟨rfl, rfl⟩
  | some put => exact ⟨rfl, rfl⟩

/-- A writer that is not disturbed does what `sdbio` does. -/
theorem Job.alone (j : Job) (m : Medium) :
    j.step (m.on (j.step m .start).2) (j.step m .start).1 =
      (.done (attempt j.r (j.turn m) j.buf).ending, (attempt j.r (j.turn m) j.buf).disc) := by
  cases hreads : j.reads m with
  | none =>
    rw [step_attempts hreads]
    rfl
  | some p =>
    obtain ⟨b, l⟩ := p
    obtain ⟨got, hvers, hidle, hhard, hmem, hbio, hl, hlen⟩ := reads_spec hreads
    have hdirect : j.r.direct m = false := by rw [Req.direct, hhard, Bool.not_true, Bool.and_false]
    have hattempt : attempt j.r (j.turn m) j.buf = writeHard j.r (j.turn m) j.buf b l := by
      rw [attempt]
      change (if m.vers ≠ j.r.vers then _ else if j.r.idle m then _ else if j.r.direct m then _
        else _) = _
      have hmem' : (j.turn m).mem = some b := hmem
      rw [if_neg (not_not.mpr hvers), hidle, if_neg Bool.false_ne_true, hdirect,
        if_neg Bool.false_ne_true, hmem']
      dsimp only
      rw [if_pos j.writes, writeBuffered]
      change (if j.r.hard m then _ else _) = _
      have hbio' : (j.turn m).bio₁ = some got := hbio
      rw [hhard, if_pos rfl, hbio', hl]
      rfl
    have hwrite : writeHard j.r (j.turn m) j.buf b l = writeSectors j.r (j.turn m) j.buf
        (paste (paste b 0 l fun i => m.disc (j.r.bno m * m.secsize + i)) (j.r.offset m)
          (j.r.halfLen m l).toNat j.buf)
        (j.r.halfNb m l) (j.r.halfLen m l).toNat j.bio₂ [(j.r.bno m, j.r.nb m)] := by
      rw [writeHard]
      exact if_neg hlen
    rw [hattempt, hwrite, step_reads hreads, on_disc, step_holding]
    obtain ⟨hending, hdisc⟩ := writeSectors_asked j.r (j.turn m) j.buf
      (paste (paste b 0 l fun i => m.disc (j.r.bno m * m.secsize + i)) (j.r.offset m)
        (j.r.halfLen m l).toNat j.buf)
      (j.r.halfNb m l) (j.r.halfLen m l).toNat j.bio₂ [] [(j.r.bno m, j.r.nb m)]
    rw [hending, hdisc]

/-- A last step puts the bytes it returns where they belong, or it puts nothing. -/
def Lands (j : Job) (m : Medium) (x : Run) : Prop :=
  (∃ n, x.ending = .returned n ∧ n ≤ j.r.clip m ∧ j.r.idle m = false ∧
      x.disc = paste m.disc (j.r.base m) n j.buf) ∨
    (∀ n, x.ending ≠ .returned n) ∧ x.disc = m.disc

/-- Whole sectors. -/
theorem soft_lands (hidle : j.r.idle m = false) (hhard : j.r.hard m = false)
    (hb : ∀ i, i < j.r.clip m → b i = j.buf i) :
    Lands j m (writeSectors j.r (j.turn m) j.buf b (j.r.nb m) (j.r.clip m) j.bio₁ []) := by
  obtain ⟨hzero, haligned⟩ := soft hhard
  have hwhole := (bounds hidle).whole hzero (haligned j.writes)
  cases j.bio₁ with
  | none => exact .inr ⟨nofun, rfl⟩
  | some put =>
    have hl : min put (j.r.nb m) * m.secsize ≤ j.r.nb m * m.secsize :=
      Nat.mul_le_mul_right _ (Nat.min_le_right _ _)
    refine .inl ⟨_, rfl, (within_spec _ _ _).1, hidle, paste_sectors (fun i hi => ?_) (base_eq j.r m)⟩
    change i < min put (j.r.nb m) * m.secsize at hi
    change b i = if j.r.offset m ≤ i ∧ i < j.r.offset m + j.r.clip m then j.buf (i - j.r.offset m) else _
    rw [hzero, if_pos (by omega), Nat.sub_zero]
    exact hb i (by omega)

/-- What a writer does that does not read first. -/
theorem attempt_lands (hreads : j.reads m = none) : Lands j m (attempt j.r (j.turn m) j.buf) := by
  rw [attempt]
  change Lands j m (if m.vers ≠ j.r.vers then _ else if j.r.idle m then _ else if j.r.direct m then _
    else _)
  have hturn : (j.turn m).mem = j.mem ∧ (j.turn m).bio₁ = j.bio₁ := ⟨rfl, rfl⟩
  by_cases hvers : m.vers = j.r.vers
  · rw [if_neg (not_not.mpr hvers), if_pos j.writes, if_pos j.writes]
    cases hidle : j.r.idle m with
    | true =>
      rw [if_pos rfl]
      exact .inr ⟨(by simp), rfl⟩
    | false =>
      rw [if_neg Bool.false_ne_true]
      cases hhard : j.r.hard m with
      | false =>
        cases hdirect : j.r.direct m with
        | true =>
          rw [if_pos rfl]
          exact soft_lands hidle hhard fun _ _ => rfl
        | false =>
          rw [if_neg Bool.false_ne_true, hturn.1]
          cases hmem : j.mem with
          | none => exact .inr ⟨(by simp), rfl⟩
          | some b =>
            dsimp only
            rw [if_pos j.writes, writeBuffered]
            change Lands j m (if j.r.hard m then _ else _)
            rw [hhard, if_neg Bool.false_ne_true]
            refine soft_lands hidle hhard fun i hi => ?_
            change paste b (j.r.offset m) (j.r.clip m) j.buf i = j.buf i
            rw [(soft hhard).1, paste_in _ _ (Nat.zero_le i) (by omega), Nat.sub_zero]
      | true =>
        have hdirect : j.r.direct m = false := by rw [Req.direct, hhard, Bool.not_true, Bool.and_false]
        rw [hdirect, if_neg Bool.false_ne_true, hturn.1]
        cases hmem : j.mem with
        | none => exact .inr ⟨(by simp), rfl⟩
        | some b =>
          dsimp only
          rw [if_pos j.writes, writeBuffered]
          change Lands j m (if j.r.hard m then _ else _)
          rw [hhard, if_pos rfl, hturn.2]
          cases hbio : j.bio₁ with
          | none => exact .inr ⟨fun _ h => (by cases h), rfl⟩
          | some got =>
            -- it goes on, unless the count is negative
            have hneg : j.r.halfLen m (min got (j.r.nb m) * m.secsize) < 0 := by
              by_contra hpos
              rw [Job.reads, if_pos ⟨hvers, hidle, hhard⟩, hmem, hbio] at hreads
              dsimp only at hreads
              rw [if_neg hpos] at hreads
              cases hreads
            have hwild : writeHard j.r (j.turn m) j.buf b (min got (j.r.nb m) * m.secsize) =
                ⟨.wild, m.disc, j.buf, 0, [(j.r.bno m, j.r.nb m)], m.removable, 1⟩ := if_pos hneg
            change Lands j m (writeHard j.r (j.turn m) j.buf b (min got (j.r.nb m) * m.secsize))
            rw [hwild]
            exact .inr ⟨(by simp), rfl⟩
  · rw [if_pos hvers]
    exact .inr ⟨(by simp), rfl⟩

variable {disc : Nat → UInt8} {sj sk : Stage}

/-- What a writer holds: its own bytes, and beside them what the medium has of the other's. -/
def Job.Sees (j k : Job) (m : Medium) (disc : Nat → UInt8) (sk : Stage) : Stage → Prop
  | .holding b nb len => j.r.idle m = false ∧ nb ≤ j.r.nb m ∧ len ≤ j.r.clip m ∧
      ∀ i, i < nb * m.secsize →
        (j.r.offset m ≤ i ∧ i < j.r.offset m + len → b i = j.buf (i - j.r.offset m)) ∧
        (¬(j.r.offset m ≤ i ∧ i < j.r.offset m + len) → ∀ n, sk = .done (.returned n) → ∀ x, x < n →
          k.r.base m + x = j.r.bno m * m.secsize + i → b i = disc (k.r.base m + x))
  | _ => True

/-- Two writers of which neither has lost anything to the other. -/
structure Safe (j k : Job) (m : Medium) (disc : Nat → UInt8) (sj sk : Stage) : Prop where
  held : j.Held m disc sj ∧ k.Held m disc sk
  sees : j.Sees k m disc sk sj ∧ k.Sees j m disc sj sk

theorem Safe.symm (h : Safe j k m disc sj sk) : Safe k j m disc sk sj := ⟨h.held.symm, h.sees.symm⟩

/-- A last step that puts its own bytes and leaves those of the other. -/
theorem Safe.done (h : Safe j k m disc sj sk) {disc' : Nat → UInt8} {e : Ending}
    (hclear : sk.Holding → j.Clear k m)
    (hown : ∀ n, e = .returned n → n ≤ j.r.clip m ∧ j.r.idle m = false ∧
      ∀ i, i < n → disc' (j.r.base m + i) = j.buf i)
    (hother : ∀ n, sk = .done (.returned n) → ∀ x, x < n → disc' (k.r.base m + x) = disc (k.r.base m + x)) :
    Safe j k m disc' (.done e) sk := by
  refine ⟨⟨?_, ?_⟩, trivial, ?_⟩
  · cases e with
    | returned n =>
      obtain ⟨hn, hidle, hbytes⟩ := hown n rfl
      exact ⟨Nat.le_trans hn (bounds hidle).clip.1, hbytes⟩
    | raised e => trivial
    | wild => trivial
  · cases sk with
    | start => trivial
    | holding b nb len => trivial
    | done e =>
      cases e with
      | returned n =>
        obtain ⟨hn, hbytes⟩ := h.held.2
        refine ⟨hn, fun i hi => ?_⟩
        rw [hother n rfl i hi]
        exact hbytes i hi
      | raised e => trivial
      | wild => trivial
  · cases sk with
    | start => trivial
    | done e => trivial
    | holding b nb len =>
      obtain ⟨hidle, hnb, hlen, hsee⟩ := h.sees.2
      refine ⟨hidle, hnb, hlen, fun i hi => ⟨(hsee i hi).1, fun _ n hn x hx heq => ?_⟩⟩
      -- the sectors of the one are not those of the other
      exfalso
      cases hn
      obtain ⟨hn, hidlej, -⟩ := hown n rfl
      have hclip := (bounds hidlej).clip.2
      have hbase := base_eq j.r m
      have hend : i < k.r.nb m * m.secsize := Nat.lt_of_lt_of_le hi (Nat.mul_le_mul_right _ hnb)
      rcases hclear trivial with hc | hc
      all_goals
        have hmul := Nat.mul_le_mul_right m.secsize hc
        rw [Nat.add_mul] at hmul
        omega

/-- Bytes of the one are not bytes of the other. -/
theorem Job.Disjoint.base_ne (h : j.Disjoint k) (hi : l < j.r.len) (hx : n < k.r.len) :
    j.r.base m + l ≠ k.r.base m + n := by
  rw [Req.base, Req.base]
  rcases h with h | h
  · omega
  · omega

/-- A writer reads. -/
theorem Safe.reads (h : Safe j k m disc sj sk) {b : Nat → UInt8} {l : Nat}
    (hreads : j.reads (m.on disc) = some (b, l)) :
    Safe j k m disc (j.step (m.on disc) .start).1 sk := by
  obtain ⟨got, -, hidle, -, -, -, hl, hlen⟩ := reads_spec hreads
  rw [step_reads hreads]
  simp only [idle_on, bno_on, offset_on, halfLen_on, halfNb_on, nb_on, on_secsize, on_bytes]
    at hidle hl hlen ⊢
  have hb := bounds hidle
  have hpos : 0 < m.secsize := Nat.lt_of_lt_of_le Nat.zero_lt_one (Nat.le_of_lt m.secsize_lt.1)
  have hnb : j.r.halfNb m l ≤ j.r.nb m ∧ j.r.halfNb m l * m.secsize ≤ l := by
    rw [Req.halfNb, hl, Nat.mul_div_cancel _ hpos]
    split
    · exact ⟨Nat.min_le_right _ _, Nat.le_refl _⟩
    · exact ⟨Nat.le_refl _, by omega⟩
  have hclip : (j.r.halfLen m l).toNat ≤ j.r.clip m := by
    rw [Req.halfLen]
    split <;> omega
  refine ⟨⟨trivial, h.held.2⟩, ⟨hidle, hnb.1, hclip, fun i hi =>
    ⟨fun hown => ?_, fun hno n hn x hx heq => ?_⟩⟩, ?_⟩
  · rw [buffered b (by omega), if_pos hown]
  · rw [buffered b (by omega), if_neg hno, heq]
  · cases sk with
    | start => trivial
    | done e => trivial
    | holding b nb len =>
      obtain ⟨hidlek, hnbk, hlenk, hsee⟩ := h.sees.2
      exact ⟨hidlek, hnbk, hlenk, fun i hi => ⟨(hsee i hi).1, (by simp)⟩⟩

/-- **One step** of the first keeps both safe. -/
theorem Safe.step (h : Safe j k m disc sj sk) (hdisj : j.Disjoint k)
    (hclear : j.Writing (m.on disc) sj → sk.Holding → j.Clear k m) :
    Safe j k m (j.step (m.on disc) sj).2 (j.step (m.on disc) sj).1 sk := by
  -- the bytes of the other, when it is done
  have hkept : ∀ n, sk = .done (.returned n) → n ≤ k.r.len := fun n hn => by
    have hheld := h.held.2
    rw [hn] at hheld
    exact hheld.1
  cases sj with
  | done e => exact h
  | start =>
    cases hreads : j.reads (m.on disc) with
    | some p =>
      obtain ⟨b, l⟩ := p
      have hsafe := h.reads hreads
      rw [step_reads hreads] at hsafe ⊢
      exact hsafe
    | none =>
      have hlands := attempt_lands hreads
      rw [step_attempts hreads]
      unfold Lands at hlands
      simp only [idle_on, clip_on, base_on, on_bytes] at hlands
      refine h.done (hclear hreads) (fun n hn => ?_) (fun n hn x hx => ?_)
      · obtain ⟨n', hn', hle, hidle, hdisc⟩ | ⟨hno, -⟩ := hlands
        · rw [hn] at hn'
          cases hn'
          refine ⟨hle, hidle, fun i hi => ?_⟩
          rw [hdisc]
          change paste disc (j.r.base m) n j.buf (j.r.base m + i) = j.buf i
          rw [paste_in _ _ (by omega) (by omega)]
          congr 1
          omega
        · exact absurd hn (hno n)
      · obtain ⟨n', -, hle, hidle, hdisc⟩ | ⟨-, hdisc⟩ := hlands
        · have hclip := (bounds hidle).clip.1
          rw [hdisc]
          refine paste_out _ _ ?_
          have hlen := hkept n hn
          rw [Req.base, Req.base]
          rcases hdisj with hd | hd
          · omega
          · omega
        · rw [hdisc]
  | holding b nb len =>
    obtain ⟨hidle, hnb, hlen, hsee⟩ := h.sees.1
    have hbase := base_eq j.r m
    have hclip := (bounds hidle).clip.1
    rw [step_holding]
    cases hbio : j.bio₂ with
    | none => exact h.done (hclear trivial) (fun _ h => by cases h) fun _ _ _ _ => rfl
    | some put =>
      obtain ⟨hle, hfit, -, -⟩ := within_spec (min put nb * m.secsize) (j.r.offset m) len
      have hl : min put nb * m.secsize ≤ nb * m.secsize := Nat.mul_le_mul_right _ (Nat.min_le_right _ _)
      change Safe j k m (paste disc (j.r.bno m * m.secsize) (min put nb * m.secsize) b)
        (.done (.returned (within (min put nb * m.secsize) (j.r.offset m) len))) sk
      refine h.done (hclear trivial) (fun n hn => ?_) (fun n hn x hx => ?_)
      · cases hn
        refine ⟨Nat.le_trans hle hlen, hidle, fun i hi => ?_⟩
        have hend := hfit (by omega)
        rw [paste_in _ _ (by omega) (by omega)]
        have hown := (hsee (j.r.base m + i - j.r.bno m * m.secsize) (by omega)).1 ⟨by omega, by omega⟩
        rw [hown]
        congr 1
        omega
      · by_cases hin : j.r.bno m * m.secsize ≤ k.r.base m + x ∧
            k.r.base m + x < j.r.bno m * m.secsize + min put nb * m.secsize
        · rw [paste_in _ _ hin.1 hin.2]
          have hxlen := hkept n hn
          refine (hsee (k.r.base m + x - j.r.bno m * m.secsize) (by omega)).2 (fun hown => ?_) n hn x hx
            (by omega)
          have hne := hdisj.base_ne (m := m) (l := k.r.base m + x - j.r.base m) (n := x) (by omega)
            (by omega)
          omega
        · exact paste_out _ _ (by omega)

theorem Job.Disjoint.symm (h : j.Disjoint k) : k.Disjoint j := Or.symm h

theorem Job.Clear.symm (h : j.Clear k m) : k.Clear j m := Or.symm h

variable {R : Race} {s : Both}

/-- A step of either. -/
theorem Race.safe_step {who : Bool} (h : Safe R.fst R.snd R.m s.disc s.fst s.snd) (hfits : R.Fits s who) :
    Safe R.fst R.snd R.m (R.step s who).disc (R.step s who).fst (R.step s who).snd := by
  cases who with
  | false => exact h.step R.disjoint hfits
  | true => exact (h.symm.step R.disjoint.symm fun hw hh => (hfits hw hh).symm).symm

/-- **No update is lost**: in a run in which nothing is written to a sector that the other writer has
read and will write back, the medium holds the bytes of each write that is done. -/
theorem Race.no_lost_update (R : Race) (l : List Bool) (hfit : R.AllFit ⟨R.m.disc, .start, .start⟩ l) :
    R.fst.Held R.m (R.run l).disc (R.run l).fst ∧ R.snd.Held R.m (R.run l).disc (R.run l).snd := by
  have hrun : ∀ (l : List Bool) (s : Both), Safe R.fst R.snd R.m s.disc s.fst s.snd → R.AllFit s l →
      Safe R.fst R.snd R.m (l.foldl R.step s).disc (l.foldl R.step s).fst (l.foldl R.step s).snd := by
    intro l
    induction l with
    | nil => exact fun s h _ => h
    | cons who l ih => exact fun s h hfit => ih _ (Race.safe_step h hfit.1) hfit.2
  have hstart : Safe R.fst R.snd R.m R.m.disc .start .start := ⟨⟨trivial, trivial⟩, trivial, trivial⟩
  exact (hrun l ⟨R.m.disc, .start, .start⟩ hstart hfit).held

/-- One after the other, as if the lock were kept. -/
theorem Race.fits_in_turn (R : Race) : R.AllFit ⟨R.m.disc, .start, .start⟩ [false, false, true, true] := by
  have hdone := R.fst.alone R.m
  have hover : ¬(R.fst.step (R.m.on (R.fst.step R.m .start).2) (R.fst.step R.m .start).1).1.Holding := by
    rw [hdone]
    exact id
  exact ⟨fun _ h => h.elim, fun _ h => h.elim, fun _ h => (hover h).elim, fun _ h => (hover h).elim, trivial⟩

/-- A write of 100 bytes, all `c`, from byte `off` of the partition on. -/
def hundred (off : Nat) (c : UInt8) (h : off < 2 ^ 64) : Job :=
  ⟨⟨true, true, 100, off, 1, someRead.len_lt, h⟩, fun _ => c, some fun _ => 0, some 1, some 1, rfl⟩

/-- Two writes to one sector. -/
def halves : Race :=
  ⟨someMedium, rfl, hundred 0 1 someRead.off_lt, hundred 100 2 (by decide), .inl (by decide)⟩

theorem halves_in_turn : halves.fst.Held halves.m (halves.run [false, false, true, true]).disc
      (halves.run [false, false, true, true]).fst ∧
    halves.snd.Held halves.m (halves.run [false, false, true, true]).disc
      (halves.run [false, false, true, true]).snd :=
  Race.no_lost_update halves [false, false, true, true] halves.fits_in_turn

/-- How a writer has ended. -/
def Stage.ending : Stage → Option Ending
  | .done e => some e
  | _ => none

/-- **Both read before either writes**: the bytes of the first writer are gone. -/
theorem lost_update : ¬halves.fst.Held halves.m (halves.run [false, true, false, true]).disc
    (halves.run [false, true, false, true]).fst := by
  have hending : (halves.run [false, true, false, true]).fst.ending = some (.returned 100) := by
    decide +kernel
  have hbyte : (halves.run [false, true, false, true]).disc (halves.fst.r.base halves.m + 0) = 0 := by
    decide +kernel
  generalize (halves.run [false, true, false, true]).fst = stage at hending
  cases stage with
  | start => cases hending
  | holding b nb len => cases hending
  | done e =>
      cases hending
      rintro ⟨-, hheld⟩
      have hfirst := hheld 0 (by decide)
      rw [hbyte] at hfirst
      exact absurd hfirst (by decide)

end Sd
