import NixKernel.TodSet

/-!
# The clock is continuous

`Inv` says of each word of `tod` what it ought to be: `tod.off` the 64 bits of what was set, slewed and
converted, `tod.lasttime` what was returned last, and what a slew is still to add.  Each step keeps it,
but for those that `Regular` leaves out.
-/

namespace TodRun

open List
open TodClock (mul64fract)

variable {s t : Sys} {op : Op} {delta n x y : Int} {tod : Tod}

/-- Where `todfix` is, it has read the clock, and `tod.last` has not moved since it looked. -/
def Fixing (tod : Tod) (fast : Nat) : Fix → Prop
  | .idle => True
  | .read ticks => ticks ≤ fast
  | .found ticks diff => ticks ≤ fast ∧ 0 < diff ∧ (ticks : Int) = tod.last + diff

theorem Fixing.congr {tod' : Tod} {fast fast' : Nat} {fix : Fix} (h : Fixing tod fast fix)
    (hlast : tod'.last = tod.last) (hle : fast ≤ fast') : Fixing tod' fast' fix := by
  cases fix with
  | idle => trivial
  | read ticks => exact Nat.le_trans h hle
  | found ticks diff =>
    obtain ⟨hticks, hpos, heq⟩ := h
    exact ⟨Nat.le_trans hticks hle, hpos, by rw [hlast]; exact heq⟩

/-- The clock is as it ought to be, in the words of the machine. -/
structure Inv (s : Sys) : Prop where
  divides : s.trapped = false
  off : s.tod.off = vlong s.epoch
  last : s.tod.last = s.seen
  last_le : s.tod.last ≤ s.fast
  fast_lt : s.fast < 2 ^ 63
  lasttime : s.tod.lasttime = (s.got.head?.map Reading.value).getD 0
  signed : -2 ^ 63 ≤ s.tod.lasttime ∧ s.tod.lasttime < 2 ^ 63
  forward : s.got.Pairwise fun later earlier => earlier.value ≤ later.value
  first : ∀ r ∈ s.got.getLast?, r.value = r.time
  words : s.tod.sstart < 2 ^ 32 ∧ s.tod.send < 2 ^ 32
  calm : s.slews = [] → s.tod.sstart = s.tod.send
  owing : ∀ x ∈ s.slews.head?, x.done + s.tod.delta * ulong (s.tod.send - s.tod.sstart) = x.due
  fixing : Fixing s.tod s.fast s.fix

theorem ulong_lt (x : Int) : ulong x < 2 ^ 32 := by
  rw [ulong]
  omega

theorem Inv.continuous (h : Inv s) : Continuous s := by
  refine ⟨h.divides, h.forward, fun heq x hx => ?_, h.first⟩
  have howing := h.owing x hx
  rw [heq, Int.sub_self] at howing
  have hzero : ulong 0 = 0 := rfl
  rwa [hzero, Nat.cast_zero, mul_zero, add_zero] at howing

theorem start_inv (h : Start s) : Inv s := by
  have hseen : s.seen = s.fast := by
    rw [Sys.seen, h.start, h.pieces]
    rfl
  have hepoch : s.epoch = 0 := by
    rw [Sys.epoch, h.base, h.slews, h.pieces]
    rfl
  refine ⟨h.trapped, ?_, ?_, ?_, h.fast, ?_, ?_, ?_, fun r hr => ?_, ?_, fun _ => ?_, fun x hx => ?_, ?_⟩
  · rw [h.off, hepoch]
    rfl
  · rw [h.last, hseen]
  · rw [h.last]
  · rw [h.lasttime, h.got]
    rfl
  · rw [h.lasttime]
    decide
  · rw [h.got]
    exact List.Pairwise.nil
  · rw [h.got] at hr
    cases hr
  · rw [h.sstart, h.send]
    decide
  · rw [h.sstart, h.send]
  · rw [h.slews] at hx
    cases hx
  · rw [h.fix]
    trivial

/-- What the correction does not touch. -/
theorem correct_keeps (tod : Tod) (ticks : Nat) : (tod.correct ticks).multiplier = tod.multiplier ∧
    (tod.correct ticks).last = tod.last ∧ (tod.correct ticks).lasttime = tod.lasttime ∧
    (tod.correct ticks).send = tod.send ∧ (tod.correct ticks).hz = tod.hz := by
  rw [Tod.correct]
  split <;> exact ⟨rfl, rfl, rfl, rfl, rfl⟩

theorem off_correct {e : Int} (h : tod.off = vlong e) (ticks : Nat) :
    (tod.correct ticks).off = vlong (e + tod.correction ticks) := by
  rw [Tod.correct, Tod.correction]
  by_cases heq : tod.sstart = tod.send
  · rw [if_neg (not_not_intro heq), if_neg (not_not_intro heq), add_zero, h]
  · rw [if_pos heq, if_pos heq]
    dsimp only
    rw [h]
    refine vlong_congr ?_
    rw [Int.add_emod, vlong_emod, ← Int.add_emod]

theorem correct_words (h : tod.sstart < 2 ^ 32 ∧ tod.send < 2 ^ 32) (ticks : Nat) :
    (tod.correct ticks).sstart < 2 ^ 32 := by
  have hlt := ulong_lt ticks
  rw [Tod.correct]
  split
  · dsimp only
    rw [Tod.upto]
    split
    · exact h.2
    · exact hlt
  · exact h.1

/-- The slews with the correction. -/
theorem sum_correct (s : Sys) (hcalm : s.slews = [] → s.tod.correction s.ticks = 0) :
    (s.correct.slews.map Slew.done).sum = (s.slews.map Slew.done).sum + s.tod.correction s.ticks := by
  rw [Sys.correct]
  dsimp only
  cases hslews : s.slews with
  | nil =>
    rw [hcalm hslews, add_zero]
    rfl
  | cons x l =>
    rw [modifyHead_cons, map_cons, map_cons, sum_cons, sum_cons]
    dsimp only
    omega

theorem Inv.correction (h : Inv s) (hnil : s.slews = []) : s.tod.correction s.ticks = 0 := by
  rw [Tod.correction, if_neg (not_not_intro (h.calm hnil))]

theorem Inv.epoch_correct (h : Inv s) : s.correct.epoch = s.epoch + s.tod.correction s.ticks := by
  rw [Sys.epoch, sum_correct s h.correction]
  change s.base + _ + (s.pieces.map (converted (s.tod.correct s.ticks).multiplier)).sum = _
  rw [(correct_keeps s.tod s.ticks).1, Sys.epoch]
  omega

/-- **The correction** is that of the clock as it ought to be. -/
theorem Inv.correct (h : Inv s) (hticks : s.tod.sstart < s.tod.send → s.tod.sstart ≤ ulong s.ticks) :
    Inv s.correct := by
  obtain ⟨_, hlast, hlasttime, hsend, _⟩ := correct_keeps s.tod s.ticks
  have hseen : s.correct.seen = s.seen := rfl
  refine ⟨h.divides, ?_, ?_, ?_, h.fast_lt, ?_, ?_, h.forward, h.first, ⟨?_, ?_⟩, fun hnil => ?_,
    fun x hx => ?_, ?_⟩
  · rw [h.epoch_correct]
    exact off_correct h.off s.ticks
  · exact hlast.trans (h.last.trans hseen.symm)
  · exact hlast.trans_le h.last_le
  · exact hlasttime.trans h.lasttime
  · change _ ≤ (s.tod.correct s.ticks).lasttime ∧ (s.tod.correct s.ticks).lasttime < _
    rw [hlasttime]
    exact h.signed
  · exact correct_words h.words s.ticks
  · exact hsend.trans_lt h.words.2
  · have hempty : s.slews = [] := by
      cases hslews : s.slews with
      | nil => rfl
      | cons x l =>
        rw [Sys.correct, hslews] at hnil
        cases hnil
    change (s.tod.correct s.ticks).sstart = (s.tod.correct s.ticks).send
    rw [Tod.correct, if_neg (not_not_intro (h.calm hempty))]
    exact h.calm hempty
  · have hadd := @correction_add s.tod h.words.2 h.words.1 s.ticks hticks
    cases hslews : s.slews with
    | nil =>
      rw [Sys.correct, hslews] at hx
      cases hx
    | cons y l =>
      rw [Sys.correct, hslews] at hx
      cases hx
      have howing := h.owing y (by rw [hslews]; rfl)
      change y.done + _ + (s.tod.correct s.ticks).delta *
        ulong ((s.tod.correct s.ticks).send - (s.tod.correct s.ticks).sstart) = y.due
      omega
  · exact h.fixing.congr hlast (Nat.le_refl _)

/-- A conversion, in 64 bits. -/
theorem toNat_converted (m : UInt64) {d : Nat} (hd : d < 2 ^ 63) :
    (mul64fract (UInt64.ofNat d) m).toNat = converted m d % 2 ^ 64 := by
  have hmod : d % 2 ^ 64 = d := Nat.mod_eq_of_lt (by omega)
  rw [TodClock.toNat_mul64fract, UInt64.toNat_ofNat', hmod, converted]

theorem uvlong_congr (h : x % 2 ^ 64 = y % 2 ^ 64) : uvlong x = uvlong y := by
  rw [uvlong, uvlong, h]

/-- A conversion and the offset, as the words of the machine add them. -/
theorem convert_eq {e : Int} {d : Nat} (hoff : tod.off = vlong e) (hd : d < 2 ^ 63) :
    tod.convert d = uvlong (e + converted tod.multiplier d) := by
  have hvlong := vlong_emod e
  rw [Tod.convert, Int.toNat_natCast, toNat_converted tod.multiplier hd, hoff]
  refine uvlong_congr ?_
  generalize vlong e = v at hvlong
  omega

theorem vlong_uvlong (x : Int) : vlong (uvlong x) = vlong x := by
  refine vlong_congr ?_
  rw [coe_uvlong, Int.emod_emod]

/-- What `todget` returns of a time, after `lasttime`. -/
def later (time lasttime : Int) : Int := if uvlong time < uvlong lasttime then lasttime else vlong time

/-- **What is read** is the time, or what has been read before. -/
theorem Inv.read (h : Inv s) : s.tod.read s.fast =
    (later s.time s.tod.lasttime, { s.tod with lasttime := later s.time s.tod.lasttime }) := by
  have hlast := h.last
  have hle := h.last_le
  have hlt := h.fast_lt
  have hdiff : vlong ((s.fast : Int) - s.tod.last) = (s.fast - s.seen : Nat) := by
    rw [vlong_eq (by omega) (by omega)]
    omega
  have hnonneg : ¬((s.fast - s.seen : Nat) : Int) < 0 := by omega
  have hx : s.tod.convert (s.fast - s.seen : Nat) = uvlong s.time := convert_eq h.off (by omega)
  rw [Tod.read, hdiff, if_neg hnonneg, hx, vlong_uvlong, later]
  split <;> rfl

/-- The time of day goes forward when it does not pass zero backwards. -/
theorem later_spec (hx : -2 ^ 63 ≤ x ∧ x < 2 ^ 63) (hy : -2 ^ 63 ≤ y ∧ y < 2 ^ 63) :
    (-2 ^ 63 ≤ later x y ∧ later x y < 2 ^ 63) ∧ ((x < 0 → y < 0) → y ≤ later x y) ∧
      (y = 0 → later x y = x) := by
  have hcx := coe_uvlong x
  have hcy := coe_uvlong y
  rw [later, vlong_eq hx.1 hx.2]
  split <;> omega

/-- A value that is read is seen. -/
theorem Inv.see (h : Inv s) {v : Int} (hv : -2 ^ 63 ≤ v ∧ v < 2 ^ 63) (hle : ∀ r ∈ s.got.head?, r.value ≤ v)
    (hfirst : s.got = [] → v = s.time) :
    Inv { s with tod := { s.tod with lasttime := v }, got := ⟨v, s.time⟩ :: s.got } := by
  refine ⟨h.divides, h.off, h.last, h.last_le, h.fast_lt, rfl, hv,
    pairwise_cons.mpr ⟨fun r hr => ?_, h.forward⟩, fun r hr => ?_, h.words, h.calm, h.owing, ?_⟩
  · have hforward := h.forward
    cases hgot : s.got with
    | nil =>
      rw [hgot] at hr
      cases hr
    | cons y l =>
      rw [hgot] at hr hforward
      have hy := hle y (by rw [hgot]; rfl)
      rcases mem_cons.mp hr with rfl | hr
      · exact hy
      · have hry := (pairwise_cons.mp hforward).1 r hr
        dsimp only
        omega
  · have hlast := h.first
    cases hgot : s.got with
    | nil =>
      change r ∈ (_ :: s.got).getLast? at hr
      rw [hgot] at hr
      cases hr
      exact hfirst hgot
    | cons y l =>
      change r ∈ (_ :: s.got).getLast? at hr
      rw [hgot, List.getLast?_cons_cons, ← hgot] at hr
      exact hlast r hr
  · exact h.fixing.congr rfl (Nat.le_refl _)

/-- **`todget`** returns the time, or what it has returned before. -/
theorem Inv.todget (h : Inv s) (hregular : Regular s .todget) : Inv s.todget := by
  obtain ⟨hrange, hsign, hticks⟩ := hregular
  have hc := h.correct hticks
  have hlasttime := hc.lasttime
  obtain ⟨hv, hforward, hfirst⟩ := later_spec hrange hc.signed
  have hsee := hc.see hv (fun r hr => ?_) (fun hgot => hfirst ?_)
  · have hget : TodRun.todget s.fast s.ticks s.tod = _ := hc.read
    rw [Sys.todget, hget]
    exact hsee
  · rw [hlasttime, hr, Option.map_some, Option.getD_some] at hforward ⊢
    exact hforward fun hneg => hsign hneg r hr
  · rw [hlasttime, hgot]
    rfl

/-- **A setting.** -/
theorem Inv.todset {d : Int} (h : Inv s) (hx : -2 ^ 63 ≤ x ∧ x < 2 ^ 63) (hd : -2 ^ 63 ≤ d ∧ d < 2 ^ 63)
    (hregular : if x ≥ 0 then ¬s.fix matches .found .. else Scales d n) :
    Inv (s.todset x d n) := by
  rw [Sys.todset, TodRun.todset]
  by_cases hset : x ≥ 0
  · rw [if_pos hset] at hregular ⊢
    dsimp only
    rw [if_pos hset]
    refine ⟨h.divides, ?_, ?_, Nat.le_refl _, h.fast_lt, rfl, ?_, List.Pairwise.nil,
      fun r hr => (by cases hr), ⟨h.words.2, h.words.2⟩, fun _ => rfl, fun r hr => (by cases hr), ?_⟩
    · have hepoch : x + 0 + (0 : Nat) = x := by omega
      change x = vlong (x + 0 + (0 : Nat))
      rw [hepoch, vlong_eq hx.1 hx.2]
    · exact (Nat.add_zero _).symm
    · change -2 ^ 63 ≤ (0 : Int) ∧ (0 : Int) < 2 ^ 63
      decide
    · have hfixing := h.fixing
      change Fixing _ s.fast s.fix
      cases hfix : s.fix with
      | idle => trivial
      | read ticks =>
        rw [hfix] at hfixing
        exact hfixing
      | found ticks diff =>
        rw [hfix] at hregular
        exact absurd rfl hregular
  · rw [if_neg hset] at hregular ⊢
    obtain ⟨hne, hdue⟩ := period_spec hd.1 hd.2 hregular
    have hlt := ulong_lt s.ticks
    dsimp only
    rw [if_neg hne]
    dsimp only
    rw [if_neg hset]
    refine ⟨h.divides, ?_, h.last, h.last_le, h.fast_lt, h.lasttime, h.signed, h.forward, h.first,
      ⟨ulong_lt s.ticks, ulong_lt (ulong s.ticks + period d n)⟩, fun hnil => (by cases hnil),
      fun r hr => ?_, ?_⟩
    · have hepoch : Sys.epoch s = s.base + (0 + (s.slews.map Slew.done).sum) +
          (s.pieces.map (converted s.tod.multiplier)).sum := by
        rw [zero_add, Sys.epoch]
      rw [h.off, hepoch]
      rfl
    · cases hr
      change 0 + d.tdiv (period d n) * ulong (ulong (ulong s.ticks + period d n) - ulong s.ticks) = due d n
      have hulong : ulong (ulong (ulong s.ticks + period d n) - ulong s.ticks) = ulong (period d n) := by
        rw [ulong, coe_ulong, Int.emod_sub_emod, add_sub_cancel_left]
        rfl
      rw [hulong, hdue, zero_add]
    · exact h.fixing.congr rfl (Nat.le_refl _)

/-- A conversion by `todfix` is one of the clock as it ought to be. -/
theorem epoch_append (s : Sys) (last : Nat) (off : Int) (fix : Fix) (d : Nat) :
    Sys.epoch { s with tod := { s.tod with last, off }, fix, pieces := s.pieces ++ [d] } =
      s.epoch + converted s.tod.multiplier d := by
  rw [Sys.epoch, Sys.epoch, map_append, sum_append, map_singleton, sum_singleton,
    Nat.cast_add, add_assoc, add_assoc, add_assoc]

/-- **A step of `todfix`**, which moves `tod.last` on to where it has read the clock. -/
theorem Inv.todfix (h : Inv s) : Inv s.todfix := by
  have hfixing := h.fixing
  have hle := h.last_le
  have hlt := h.fast_lt
  rw [Sys.todfix]
  cases hfix : s.fix with
  | idle => exact ⟨h.divides, h.off, h.last, h.last_le, h.fast_lt, h.lasttime, h.signed, h.forward, h.first,
      h.words, h.calm, h.owing, Nat.le_refl s.fast⟩
  | read ticks =>
    rw [hfix] at hfixing
    change ticks ≤ s.fast at hfixing
    have hdiff : vlong ((ticks : Int) - s.tod.last) = ticks - s.tod.last := vlong_eq (by omega) (by omega)
    refine ⟨h.divides, h.off, h.last, h.last_le, h.fast_lt, h.lasttime, h.signed, h.forward, h.first,
      h.words, h.calm, h.owing, ?_⟩
    change Fixing s.tod s.fast (if vlong ((ticks : Int) - s.tod.last) > s.tod.hz then
      .found ticks (vlong ((ticks : Int) - s.tod.last)) else .idle)
    rw [hdiff]
    split
    · exact ⟨hfixing, by omega, by omega⟩
    · trivial
  | found ticks diff =>
    rw [hfix] at hfixing
    obtain ⟨hticks, hpos, heq⟩ := hfixing
    have hlast := h.last
    obtain ⟨d, rfl⟩ := Int.eq_ofNat_of_zero_le (Int.le_of_lt hpos)
    have hd : ticks - s.seen = d := by omega
    dsimp only
    rw [hd, Tod.fix]
    refine ⟨h.divides, ?_, ?_, hticks, h.fast_lt, h.lasttime, h.signed, h.forward, h.first, h.words, h.calm,
      ?_, trivial⟩
    · have hoff : vlong (s.tod.convert d) = vlong (s.epoch + converted s.tod.multiplier d) := by
        rw [convert_eq h.off (by omega), vlong_uvlong]
      rw [epoch_append]
      dsimp only
      exact hoff
    · change ticks = s.start + (s.pieces ++ [d]).sum
      rw [Sys.seen] at hlast
      rw [sum_append, sum_singleton]
      omega
    · intro x hx
      have howing := h.owing x hx
      exact howing

theorem act_inv (h : Inv s) (hregular : Regular s op) (hact : act s op = some t) : Inv t := by
  obtain ⟨_, hact⟩ := Option.ite_none_left_eq_some.mp hact
  cases op with
  | clock d =>
    obtain ⟨hlt, heq⟩ := Option.ite_none_right_eq_some.mp hact
    cases heq
    exact ⟨h.divides, h.off, h.last, Nat.le_add_right_of_le h.last_le, hlt, h.lasttime, h.signed, h.forward,
      h.first, h.words, h.calm, h.owing, h.fixing.congr rfl (Nat.le_add_right _ _)⟩
  | tick n =>
    cases hact
    exact { h with }
  | todset x d n =>
    cases hact
    exact h.todset ⟨Int64.le_toInt x, Int64.toInt_lt x⟩ ⟨Int64.le_toInt d, Int64.toInt_lt d⟩ hregular
  | todget =>
    cases hact
    exact h.todget hregular
  | todfix =>
    cases hact
    exact h.todfix

/-- **The clock is continuous** in every run of regular steps. -/
theorem continuous_of_regular (hr : ReachRegular s) : Continuous s :=
  (StepSystem.Reach.invariant Inv (fun _ => start_inv)
    (fun _ _ _ h hstep => act_inv h hstep.1 hstep.2) hr).continuous

instance (delta n : Int) : Decidable (Scales delta n) :=
  inferInstanceAs (Decidable ((_ ∧ _) ∨ (_ ∧ _) ∨ (_ ∧ _)))

instance (s : Sys) : (op : Op) → Decidable (Regular s op)
  | .clock _ => isTrue trivial
  | .tick _ => isTrue trivial
  | .todset t delta n => inferInstanceAs (Decidable (if t.toInt ≥ 0 then ¬s.fix matches .found ..
      else Scales delta.toInt n.toInt))
  | .todget => inferInstanceAs (Decidable ((-2 ^ 63 ≤ s.correct.time ∧ s.correct.time < 2 ^ 63) ∧
      (s.correct.time < 0 → ∀ r ∈ s.got.head?, r.value < 0) ∧
      (s.tod.sstart < s.tod.send → s.tod.sstart ≤ ulong s.ticks)))
  | .todfix => isTrue trivial

/-- A clock of 1 GHz when it is started. -/
def gigahertz : Sys :=
  ⟨⟨2 ^ 32, 1000000000, 0, 0, 0, 0, 0, 0⟩, 0, 0, .idle, false, 0, 0, [], [], []⟩

theorem gigahertz_start : Start gigahertz :=
  ⟨rfl, rfl, rfl, rfl, rfl, by decide, rfl, rfl, rfl, rfl, rfl, rfl, rfl⟩

/-- A clock that is set, and read, and slewed back by 2 µs, which does not show, and read when
`todfix` has run. -/
theorem continuous_of_regular_slew :
    ∃ s, s.got.map Reading.value = [1999999005, 1005, 1005] ∧ s.slews.map Slew.done = [-2000] ∧
      Continuous s := by
  have hrun : (StepSystem.exec (fun s op => if Regular s op then act s op else none) gigahertz
      [.todset 1000 0 0, .clock 5, .todget, .todset (-1) (-2000) 1, .tick 500, .todget, .tick 600,
        .clock 2000000000, .todfix, .todfix, .todfix, .todget]).any
      (fun s => s.got.map Reading.value == [1999999005, 1005, 1005] &&
        s.slews.map Slew.done == [-2000]) = true := by
    decide +kernel
  obtain ⟨s, hr, htest⟩ := StepSystem.Reach.exists_of_exec
    (StepSystem.Reach.start gigahertz_start : ReachRegular gigahertz)
    (fun s op t _ h => Option.ite_none_right_eq_some.mp h) hrun
  simp only [Bool.and_eq_true, beq_iff_eq] at htest
  exact ⟨s, htest.1, htest.2, continuous_of_regular hr⟩

theorem reach_of_run {l : List Op} {test : Sys → Bool}
    (hrun : (StepSystem.exec act gigahertz l).any test = true) : ∃ s, Reach s ∧ test s = true :=
  StepSystem.Reach.exists_of_exec (StepSystem.Reach.start gigahertz_start) (fun _ _ _ _ h => h) hrun

/-- A period of 2^29 seconds divides by zero; one of 3000000 seconds slews the other way; a slew past
zero makes time go backwards; and a time that is set while `todfix` waits for the lock is wrong by all
that `todfix` has found. -/
theorem clock_breaks :
    (∃ s, Reach s ∧ s.trapped = true ∧ ¬Continuous s) ∧
    (∃ s, Reach s ∧ s.slews.map Slew.done = [-9000000000] ∧ ¬Continuous s) ∧
    (∃ s, Reach s ∧ s.got.map Reading.value = [-1999000, 1000] ∧ ¬Continuous s) ∧
    ∃ s, Reach s ∧ s.base = 1000 ∧ s.got.map Reading.value = [2000001000] ∧ ¬Continuous s := by
  refine ⟨?_, ?_, ?_, ?_⟩
  · obtain ⟨s, hr, htest⟩ := @reach_of_run [.todset (-1) 1 536870912] (fun s => s.trapped) (by decide +kernel)
    exact ⟨s, hr, htest, fun h => absurd (htest.symm.trans h.divides) (by decide)⟩
  · obtain ⟨s, hr, htest⟩ := @reach_of_run [.todset (-1) 5000000000 3000000, .tick 3000000000, .todget]
      (fun s => decide (s.tod.sstart = s.tod.send) &&
        s.slews.map (fun x => (x.due, x.done)) == [(3000000000, -9000000000)]) (by decide +kernel)
    simp only [Bool.and_eq_true, decide_eq_true_eq, beq_iff_eq] at htest
    obtain ⟨heq, hslews⟩ := htest
    obtain ⟨x, hx, hpair⟩ := List.map_eq_singleton_iff.mp hslews
    obtain ⟨hdue, hdone⟩ := Prod.mk.inj hpair
    refine ⟨s, hr, by rw [hx, map_singleton, hdone], fun h => ?_⟩
    have hsame := h.slewed heq x (by rw [hx]; rfl)
    omega
  · obtain ⟨s, hr, htest⟩ := @reach_of_run
      [.todset 1000 0 0, .todget, .todset (-1) (-2000000) 1, .tick 1000, .todget]
      (fun s => s.got.map Reading.value == [-1999000, 1000]) (by decide +kernel)
    have hgot := eq_of_beq htest
    refine ⟨s, hr, hgot, fun h => ?_⟩
    have hforward : (s.got.map Reading.value).Pairwise fun a b => b ≤ a := List.pairwise_map.mpr h.forward
    rw [hgot] at hforward
    exact absurd hforward (by decide)
  · obtain ⟨s, hr, htest⟩ := @reach_of_run
      [.clock 2000000000, .todfix, .todfix, .todset 1000 0 0, .todfix, .todget]
      (fun s => decide (s.base = 1000) && s.got.map (fun r => (r.value, r.time)) == [(2000001000, 1000)])
      (by decide +kernel)
    simp only [Bool.and_eq_true, decide_eq_true_eq, beq_iff_eq] at htest
    obtain ⟨hbase, hgot⟩ := htest
    obtain ⟨r, hr', hpair⟩ := List.map_eq_singleton_iff.mp hgot
    obtain ⟨hvalue, htime⟩ := Prod.mk.inj hpair
    refine ⟨s, hr, hbase, by rw [hr', map_singleton, hvalue], fun h => ?_⟩
    have hsame := h.first r (by rw [hr']; rfl)
    omega

end TodRun
