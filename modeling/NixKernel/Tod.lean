import NixKernel.FixedPoint

/-!
# The frequency of the time-of-day clock

`todsetfreq` turns the frequency of the fast clock into four 32.32 fixed-point
multipliers, and the conversions between fast ticks, nanoseconds and
microseconds are one `mul64fract` each.  The frequency is the processor's own
at `todinit`, and after that whatever is written to `/dev/bintime`.

The fraction is made by shifting its numerator left by 32 bits, so a frequency
of 2^32 or more loses its high bits before the division, and a frequency of
zero is a divisor.  `Accurate f` is what the conversions are for; they are
accurate exactly for the positive frequencies below 2^32.
-/

namespace TodClock

open FixedPoint Option

/-- Multiply two 64-bit numbers and return the middle 64 bits of the product. -/
def mul64fract (a b : UInt64) : UInt64 :=
  let bl := b &&& 0xffffffff
  let bh := b >>> 32
  let al := a &&& 0xffffffff
  let ah := a >>> 32
  (al * bl) >>> 32 + al * bh + ah * bl + (ah * bh) <<< 32

/-- Make a fixed-point number with its point left of the low 32 bits; `none` is
the trap of a division by zero. -/
def mk64fract («to» «from» : UInt64) : Option UInt64 :=
  if «from» = 0 then none else some ((«to» <<< 32) / «from»)

/-- Frequency of the tod clock. -/
def TODFREQ : UInt64 := 1000000000

/-- Microseconds in a second. -/
def MicroFREQ : UInt64 := 1000000

/-- What the conversions keep of `tod`. -/
structure Tod where
  /-- true if initialized -/
  init : Bool
  /-- ns = (multiplier*ticks)>>32 -/
  multiplier : UInt64
  /-- ticks = (divider*ns)>>32 -/
  divider : UInt64
  /-- µs = (µmultiplier*ticks)>>32 -/
  umultiplier : UInt64
  /-- ticks = (µdivider*µs)>>32 -/
  udivider : UInt64
  /-- frequency of fast clock -/
  hz : Int64
deriving DecidableEq, Repr

/-- Calculate the multipliers for a frequency. -/
def todsetfreq (f : Int64) (tod : Tod) : Option Tod :=
  (mk64fract TODFREQ f.toUInt64).bind fun multiplier =>
  (mk64fract f.toUInt64 TODFREQ).bind fun divider =>
  (mk64fract MicroFREQ f.toUInt64).bind fun umultiplier =>
  (mk64fract f.toUInt64 MicroFREQ).map fun udivider =>
    { tod with hz := f, multiplier := multiplier, divider := divider + 1,
               umultiplier := umultiplier, udivider := udivider + 1 }

/-- Take the frequency `fastticks` reports, once. -/
def todinit (fasthz : Int64) (tod : Tod) : Option Tod :=
  if tod.init then some tod
  else (todsetfreq fasthz tod).map fun tod => { tod with init := true }

/-- A conversion by the multiplier `m`. -/
def convert (m : Tod → UInt64) (fasthz : Int64) (tod : Tod) (x : UInt64) : Option (UInt64 × Tod) :=
  (todinit fasthz tod).map fun tod => (mul64fract x (m tod), tod)

/-- Convert fast ticks to microseconds. -/
def fastticks2us := convert Tod.umultiplier

/-- Convert microseconds to fast ticks. -/
def us2fastticks := convert Tod.udivider

/-- Convert nanoseconds to fast ticks. -/
def ns2fastticks := convert Tod.divider

/-- Convert fast ticks to ns. -/
def fastticks2ns := convert Tod.multiplier

/-- The bytes of the constant that says where each byte of a number goes: on
this machine the least significant one is first in memory. -/
def uvorder (i : ℕ) : ℕ := (0x0001020304050607 : ℕ) / 256 ^ i % 256

/-- Byte `i` of the buffer goes to place `uvorder i` of the number. -/
def le2vlong (f : List UInt8) : Int64 :=
  (UInt64.ofNat (∑ i ∈ Finset.range 8, (f.getD i 0).toNat * 256 ^ uvorder i)).toInt64

/-- `vlong2le`: the other way. -/
def vlong2le (f : Int64) : List UInt8 :=
  (List.range 8).map fun i => UInt8.ofNat (f.toUInt64.toNat / 256 ^ uvorder i)

/-- The error of a write that is too short. -/
def Ebadtimectl : String := "bad time control"

/-- A write of `/dev/bintime`, as far as the frequency goes: `f` sets it to what
follows, unchecked, and `n` and `d` set the time, for which the clock is
initialized.  `none` is the trap. -/
def writebintime (fasthz : Int64) (buf : List UInt8) (tod : Tod) : Option (Except String Tod) :=
  match buf with
  | 110 :: p =>  -- n
    if p.length < 8 then some (.error Ebadtimectl) else (todinit fasthz tod).map .ok
  | 100 :: p =>  -- d
    if p.length < 12 then some (.error Ebadtimectl) else (todinit fasthz tod).map .ok
  | 102 :: p =>  -- f
    if p.length < 8 then some (.error Ebadtimectl)
    else (todsetfreq (le2vlong p) tod).map .ok
  | _ => some (.ok tod)

/-- The product of a conversion fits the 64 bits it returns. -/
def Fits (x m : UInt64) : Prop := scale (2 ^ 32) x.toNat m.toNat < 2 ^ 64

/-- What a conversion by the multiplier `m` is for: within `x / 2^32 + 1` of
`x * num / den`, and monotone, wherever the result fits. -/
structure Converts (conv : UInt64 → Option (UInt64 × Tod)) (tod : Tod) (m : UInt64)
    (num den : ℤ) : Prop where
  near : ∀ x, Fits x m → ∃ r, conv x = some (r, tod) ∧
    |(r.toNat : ℚ) - x.toNat * num / den| ≤ x.toNat / 2 ^ 32 + 1
  mono : ∀ x y r s, x ≤ y → Fits y m → conv x = some (r, tod) → conv y = some (s, tod) → r ≤ s

/-- The fraction was made without an overflow and without a division by zero. -/
def Exact (num den : ℤ) (m : UInt64) : Prop := den ≠ 0 ∧ (m.toNat : ℤ) = num * 2 ^ 32 / den

/-- The clock `tod` converts as a clock of frequency `f` has to, whatever the
processor reports. -/
structure Good (f : Int64) (tod : Tod) : Prop where
  ticks2ns : Exact 1000000000 f.toInt tod.multiplier
  ns2ticks : Exact f.toInt 1000000000 (tod.divider - 1) ∧ tod.divider ≠ 0
  ticks2us : Exact 1000000 f.toInt tod.umultiplier
  us2ticks : Exact f.toInt 1000000 (tod.udivider - 1) ∧ tod.udivider ≠ 0
  ns2fastticks : ∀ hz, Converts (ns2fastticks hz tod) tod tod.divider f.toInt 1000000000
  fastticks2ns : ∀ hz, Converts (fastticks2ns hz tod) tod tod.multiplier 1000000000 f.toInt
  fastticks2us : ∀ hz, Converts (fastticks2us hz tod) tod tod.umultiplier 1000000 f.toInt
  us2fastticks : ∀ hz, Converts (us2fastticks hz tod) tod tod.udivider f.toInt 1000000

/-- Both ways a frequency comes in leave a clock that converts by it. -/
structure Accurate (f : Int64) : Prop where
  boot : ∀ tod, tod.init = false → ∃ tod', todinit f tod = some tod' ∧ Good f tod'
  write : ∀ hz p tod, tod.init = true → 8 ≤ p.length → le2vlong p = f →
    ∃ tod', writebintime hz (102 :: p) tod = some (.ok tod') ∧ Good f tod'

section Words

/-- **The middle 64 bits of the product, modulo the word.** -/
theorem toNat_mul64fract (a b : UInt64) :
    (mul64fract a b).toNat = scale (2 ^ 32) a.toNat b.toNat % 2 ^ 64 := by
  obtain ⟨ha, hb⟩ := And.intro a.toNat_lt b.toNat_lt
  have hmask : (0xffffffff : UInt64).toNat = 2 ^ 32 - 1 := by decide
  have hshift : (32 : UInt64).toNat % 64 = 32 := by decide
  have hwords := scale_words (R := 2 ^ 32) (by norm_num) (a.toNat / 2 ^ 32) (a.toNat % 2 ^ 32)
    (b.toNat / 2 ^ 32) (b.toNat % 2 ^ 32)
  rw [Nat.div_add_mod', Nat.div_add_mod'] at hwords
  rw [hwords]
  simp only [mul64fract, UInt64.toNat_add, UInt64.toNat_mul, UInt64.toNat_and,
    UInt64.toNat_shiftRight, UInt64.toNat_shiftLeft, hmask, hshift, Nat.and_two_pow_sub_one_eq_mod,
    Nat.shiftRight_eq_div_pow, Nat.shiftLeft_eq]
  have hal : a.toNat % 2 ^ 32 < 2 ^ 32 := Nat.mod_lt _ (by norm_num)
  have hbl : b.toNat % 2 ^ 32 < 2 ^ 32 := Nat.mod_lt _ (by norm_num)
  have hlow : a.toNat % 2 ^ 32 * (b.toNat % 2 ^ 32) < 2 ^ 64 := by
    calc a.toNat % 2 ^ 32 * (b.toNat % 2 ^ 32) < 2 ^ 32 * 2 ^ 32 := Nat.mul_lt_mul'' hal hbl
      _ = 2 ^ 64 := by norm_num
  rw [Nat.mod_eq_of_lt hlow]
  simp only [Nat.add_mod, Nat.mod_mod, Nat.mul_mod]

/-- The bits of a frequency, read as an unsigned number. -/
theorem toNat_toUInt64 (f : Int64) : (f.toUInt64.toNat : ℤ) = f.toInt % 2 ^ 64 := by
  have hbits : f.toUInt64.toNat = f.toBitVec.toNat := rfl
  have hint : f.toInt = f.toBitVec.toInt := rfl
  have hlt := f.toBitVec.isLt
  rw [hbits, hint, BitVec.toInt_eq_toNat_cond]
  split_ifs <;> omega

/-- The frequencies a machine can have are their own bits. -/
theorem toNat_of_range {f : Int64} (hpos : 0 < f.toInt) (hlt : f.toInt < 2 ^ 32) :
    (f.toUInt64.toNat : ℤ) = f.toInt := by
  rw [toNat_toUInt64]
  omega

/-- The fraction is made from what the shift leaves of its numerator. -/
theorem toNat_mk64fract {a b q : UInt64} (h : mk64fract a b = some q) :
    b.toNat ≠ 0 ∧ q.toNat = a.toNat * 2 ^ 32 % 2 ^ 64 / b.toNat := by
  have hshift : (32 : UInt64).toNat % 64 = 32 := by decide
  unfold mk64fract at h
  split_ifs at h with hb
  injection h with h
  refine ⟨fun h0 => hb (UInt64.toNat_inj.mp (by simpa using h0)), ?_⟩
  rw [← h, UInt64.toNat_div, UInt64.toNat_shiftLeft, hshift, Nat.shiftLeft_eq]

/-- A numerator of less than 32 bits loses nothing. -/
theorem exists_mk64fract {a b : UInt64} (ha : a.toNat < 2 ^ 32) (hb : 0 < b.toNat) :
    ∃ q, mk64fract a b = some q ∧ q.toNat = frac (2 ^ 32) a.toNat b.toNat := by
  have hb' : b ≠ 0 := by
    rintro rfl
    exact absurd hb (by decide)
  have hq : mk64fract a b = some ((a <<< 32) / b) := by rw [mk64fract, if_neg hb']
  refine ⟨_, hq, ?_⟩
  rw [(toNat_mk64fract hq).2, frac, Nat.mod_eq_of_lt (by omega)]

/-- The places of a number's bytes, most significant first. -/
theorem uvorder_eq {i : ℕ} (hi : i < 8) : uvorder i = 8 - 1 - i := by
  interval_cases i <;> rfl

/-- The bytes of a number, each at its place, are the number. -/
theorem sum_bytes (n k : ℕ) : ∑ i ∈ Finset.range k, n / 256 ^ i % 256 * 256 ^ i = n % 256 ^ k := by
  induction k with
  | zero => simp [Nat.mod_one]
  | succ k ih =>
    rw [Finset.sum_range_succ, ih, Nat.mod_pow_succ]
    ring

/-- **What is read of a number can be written**: its bytes in the file, and the number again. -/
theorem le2vlong_vlong2le (f : Int64) : le2vlong (vlong2le f) = f := by
  have hlt := f.toUInt64.toNat_lt
  have hsum : ∑ i ∈ Finset.range 8, ((vlong2le f).getD i 0).toNat * 256 ^ uvorder i = f.toUInt64.toNat := by
    calc _ = ∑ i ∈ Finset.range 8,
          f.toUInt64.toNat / 256 ^ (8 - 1 - i) % 256 * 256 ^ (8 - 1 - i) := by
          refine Finset.sum_congr rfl fun i hi => ?_
          rw [vlong2le, List.getD_eq_getElem _ _ (by simpa using hi), List.getElem_map,
            List.getElem_range, UInt8.toNat_ofNat', uvorder_eq (Finset.mem_range.mp hi)]
      _ = f.toUInt64.toNat % 256 ^ 8 := by
          rw [Finset.sum_range_reflect fun i => f.toUInt64.toNat / 256 ^ i % 256 * 256 ^ i]
          exact sum_bytes _ 8
      _ = f.toUInt64.toNat := Nat.mod_eq_of_lt hlt
  rw [le2vlong, hsum, UInt64.ofNat_toNat, Int64.toInt64_toUInt64]

example : le2vlong [0, 0, 0, 1, 0x2a, 0x05, 0xf2, 0] = 5000000000 := by decide

end Words

section Conversion

variable {m : Tod → UInt64} {tod : Tod} {hz : Int64}

/-- An initialized clock converts by its multiplier. -/
theorem convert_eq (hinit : tod.init = true) (x : UInt64) :
    convert m hz tod x = some (mul64fract x (m tod), tod) := by
  rw [convert, todinit, if_pos hinit]
  rfl

/-- What an initialized clock returns is the product. -/
theorem eq_of_convert (hinit : tod.init = true) {x r : UInt64}
    (h : convert m hz tod x = some (r, tod)) : mul64fract x (m tod) = r := by
  rw [convert_eq hinit, some.injEq, Prod.mk.injEq] at h
  exact h.1

/-- **A conversion by a multiplier that is one unit off at most.** -/
theorem converts_of_near {a b : ℕ} (hinit : tod.init = true)
    (h : Near (2 ^ 32) a b (m tod).toNat) : Converts (convert m hz tod) tod (m tod) a b := by
  have hfit {x : UInt64} (hx : Fits x (m tod)) :
      (mul64fract x (m tod)).toNat = scale (2 ^ 32) x.toNat (m tod).toNat := by
    rw [toNat_mul64fract, Nat.mod_eq_of_lt hx]
  constructor
  · intro x hx
    refine ⟨_, convert_eq hinit x, ?_⟩
    have hnear := abs_scale_sub_le (by norm_num) h x.toNat
    rw [← hfit hx] at hnear
    push_cast at hnear ⊢
    exact hnear
  · intro x y r s hxy hy hr hs
    rw [← eq_of_convert hinit hr, ← eq_of_convert hinit hs, UInt64.le_iff_toNat_le]
    have hmono := scale_mono (2 ^ 32) (m tod).toNat (UInt64.le_iff_toNat_le.mp hxy)
    have hx : Fits x (m tod) := Nat.lt_of_le_of_lt hmono hy
    rw [hfit hx, hfit hy]
    exact hmono

end Conversion

section Frequency

/-- The four multipliers are the fractions of the frequency `n`, the two into
ticks rounded up. -/
structure Fractions (n : ℕ) (tod : Tod) : Prop where
  multiplier : tod.multiplier.toNat = frac (2 ^ 32) 1000000000 n
  divider : tod.divider.toNat = frac (2 ^ 32) n 1000000000 + 1
  umultiplier : tod.umultiplier.toNat = frac (2 ^ 32) 1000000 n
  udivider : tod.udivider.toNat = frac (2 ^ 32) n 1000000 + 1

/-- What `todsetfreq` computes, when it returns. -/
theorem todsetfreq_some {f : Int64} {tod tod' : Tod} (h : todsetfreq f tod = some tod') :
    ∃ q d u v, mk64fract TODFREQ f.toUInt64 = some q ∧ mk64fract f.toUInt64 TODFREQ = some d ∧
      mk64fract MicroFREQ f.toUInt64 = some u ∧ mk64fract f.toUInt64 MicroFREQ = some v ∧
      tod' = { tod with hz := f, multiplier := q, divider := d + 1, umultiplier := u,
                        udivider := v + 1 } := by
  simp only [todsetfreq, bind_eq_some_iff, map_eq_some_iff] at h
  obtain ⟨q, hq, d, hd, u, hu, v, hv, rfl⟩ := h
  exact ⟨q, d, u, v, hq, hd, hu, hv, rfl⟩

/-- One more than a fraction of a 32-bit number is still a word. -/
theorem toNat_frac_succ {d : UInt64} {n b : ℕ} (hn : n < 2 ^ 32) (hb : 1 < b)
    (hd : d.toNat = frac (2 ^ 32) n b) : (d + 1).toNat = frac (2 ^ 32) n b + 1 := by
  have hsmall : frac (2 ^ 32) n b ≤ n * 2 ^ 32 / 2 := Nat.div_le_div_left hb (by norm_num)
  have hone : (1 : UInt64).toNat = 1 := by decide
  rw [UInt64.toNat_add, hd, hone, Nat.mod_eq_of_lt (by omega)]

/-- **Every frequency a machine can have gets its fractions.** -/
theorem exists_todsetfreq {f : Int64} (hpos : 0 < f.toInt) (hlt : f.toInt < 2 ^ 32) (tod : Tod) :
    ∃ tod', todsetfreq f tod = some tod' ∧ tod'.init = tod.init ∧
      Fractions f.toUInt64.toNat tod' := by
  have hnat := toNat_of_range hpos hlt
  have hn : f.toUInt64.toNat < 2 ^ 32 := by omega
  have hfreq : TODFREQ.toNat = 1000000000 := by decide
  have hmicro : MicroFREQ.toNat = 1000000 := by decide
  obtain ⟨q, hq, hqn⟩ := exists_mk64fract (a := TODFREQ) (b := f.toUInt64) (by omega) (by omega)
  obtain ⟨d, hd, hdn⟩ := exists_mk64fract (a := f.toUInt64) (b := TODFREQ) hn (by omega)
  obtain ⟨u, hu, hun⟩ := exists_mk64fract (a := MicroFREQ) (b := f.toUInt64) (by omega) (by omega)
  obtain ⟨v, hv, hvn⟩ := exists_mk64fract (a := f.toUInt64) (b := MicroFREQ) hn (by omega)
  rw [hfreq] at hqn hdn
  rw [hmicro] at hun hvn
  refine ⟨{ tod with hz := f, multiplier := q, divider := d + 1, umultiplier := u,
                     udivider := v + 1 }, ?_, rfl, hqn, toNat_frac_succ hn (by norm_num) hdn, hun,
    toNat_frac_succ hn (by norm_num) hvn⟩
  simp only [todsetfreq, hq, hd, hu, hv, bind_some, map_some]

/-- A fraction of naturals is the fraction of integers. -/
theorem exact_of_frac {a b : ℕ} {m : UInt64} (hb : 0 < b) (h : m.toNat = frac (2 ^ 32) a b) :
    Exact a b m := by
  refine ⟨by exact_mod_cast hb.ne', ?_⟩
  rw [h, frac]
  push_cast
  rfl

/-- A multiplier rounded up is the fraction and one. -/
theorem exact_of_frac_succ {a b : ℕ} {m : UInt64} (hb : 0 < b)
    (h : m.toNat = frac (2 ^ 32) a b + 1) : Exact a b (m - 1) ∧ m ≠ 0 := by
  have hone : (1 : UInt64).toNat = 1 := by decide
  have hle : (1 : UInt64) ≤ m := by
    rw [UInt64.le_iff_toNat_le, hone, h]
    omega
  constructor
  · apply exact_of_frac hb
    rw [UInt64.toNat_sub_of_le _ _ hle, h, hone]
    omega
  · rintro rfl
    exact absurd h (by simp)

/-- **An initialized clock with the fractions of `f` converts by `f`.** -/
theorem good_of_fractions {f : Int64} {tod : Tod} {n : ℕ} (hn : (n : ℤ) = f.toInt) (hpos : 0 < n)
    (hinit : tod.init = true) (h : Fractions n tod) : Good f tod := by
  have hus : (0 : ℕ) < 1000000 := by norm_num
  have hns : (0 : ℕ) < 1000000000 := by norm_num
  have hm := h.multiplier ▸ near_frac (2 ^ 32) 1000000000 hpos
  have hd := h.divider ▸ near_frac_succ (2 ^ 32) n hns
  have hu := h.umultiplier ▸ near_frac (2 ^ 32) 1000000 hpos
  have hv := h.udivider ▸ near_frac_succ (2 ^ 32) n hus
  exact
    { ticks2ns := hn ▸ exact_of_frac hpos h.multiplier
      ns2ticks := hn ▸ exact_of_frac_succ hns h.divider
      ticks2us := hn ▸ exact_of_frac hpos h.umultiplier
      us2ticks := hn ▸ exact_of_frac_succ hus h.udivider
      ns2fastticks := fun _ => hn ▸ converts_of_near hinit hd
      fastticks2ns := fun _ => hn ▸ converts_of_near hinit hm
      fastticks2us := fun _ => hn ▸ converts_of_near hinit hu
      us2fastticks := fun _ => hn ▸ converts_of_near hinit hv }

/-- **A clock that converts by the frequency it was set to was set to one of
less than 32 bits.**  A longer one loses at least `2^64` in the shift, which is
more than the divisor. -/
theorem range_of_good {f : Int64} {tod tod' : Tod} (hset : todsetfreq f tod = some tod')
    (hd : Exact f.toInt 1000000000 (tod'.divider - 1)) : 0 < f.toInt ∧ f.toInt < 2 ^ 32 := by
  obtain ⟨q, d, u, v, hq, hd', -, -, rfl⟩ := todsetfreq_some hset
  obtain ⟨hne, -⟩ := toNat_mk64fract hq
  obtain ⟨-, hdn⟩ := toNat_mk64fract hd'
  have hfreq : TODFREQ.toNat = 1000000000 := by decide
  have hnat := toNat_toUInt64 f
  have hexact := hd.2
  have hsub : d + 1 - 1 = d := by simp
  change ((d + 1 - 1 : UInt64).toNat : ℤ) = _ at hexact
  rw [hsub, hdn, hfreq] at hexact
  push_cast at hexact
  have hlow : -2 ^ 63 ≤ f.toInt := Int64.le_toInt f
  have hhigh : f.toInt < 2 ^ 63 := Int64.toInt_lt f
  constructor <;> omega

end Frequency

section Main

/-- **The conversions are accurate exactly for the positive frequencies of less
than 32 bits.** -/
theorem accurate_iff (f : Int64) : Accurate f ↔ 0 < f.toInt ∧ f.toInt < 2 ^ 32 := by
  constructor
  · intro h
    obtain ⟨tod', hboot, hgood⟩ := h.boot ⟨false, 0, 0, 0, 0, 0⟩ rfl
    rw [todinit, if_neg (by simp), Option.map_eq_some_iff] at hboot
    obtain ⟨tod, hset, rfl⟩ := hboot
    exact range_of_good hset hgood.ns2ticks.1
  · rintro ⟨hpos, hlt⟩
    have hnat := toNat_of_range hpos hlt
    constructor
    · intro tod hinit
      obtain ⟨tod', hset, -, hfrac⟩ := exists_todsetfreq hpos hlt tod
      refine ⟨{ tod' with init := true }, ?_, good_of_fractions hnat (by omega) rfl
        { hfrac with }⟩
      rw [todinit, hinit, if_neg (by simp), hset]
      rfl
    · intro hz p tod hinit hlen hp
      obtain ⟨tod', hset, hinit', hfrac⟩ := exists_todsetfreq hpos hlt tod
      refine ⟨tod', ?_, good_of_fractions hnat (by omega) (hinit'.trans hinit) hfrac⟩
      rw [writebintime, if_neg (by omega), hp, hset]
      rfl

/-- At 5 GHz a second is 705032704 ticks: what the shift pushes out is lost. -/
theorem five_gigahertz_second {tod : Tod} (hboot : todinit 5000000000 ⟨false, 0, 0, 0, 0, 0⟩ = some tod) :
    ns2fastticks 0 tod 1000000000 = some (705032704, tod) ∧ Fits 1000000000 tod.divider := by
  have htod : todinit 5000000000 ⟨false, 0, 0, 0, 0, 0⟩ =
      some ⟨true, 858993459, 3028092407, 858993, 3028092406291, 5000000000⟩ := by decide +kernel
  obtain rfl := some.inj (htod.symm.trans hboot)
  exact ⟨by decide +kernel, by unfold Fits; decide⟩

/-- **A frequency of zero traps, and one of 5 GHz is lost.** -/
theorem writes_misconvert : ¬ Accurate 0 ∧ ¬ Accurate 5000000000 := by
  constructor
  · intro h
    obtain ⟨tod', hboot, -⟩ := h.boot ⟨false, 0, 0, 0, 0, 0⟩ rfl
    have htrap : todinit 0 ⟨false, 0, 0, 0, 0, 0⟩ = none := by decide
    rw [htrap] at hboot
    cases hboot
  · intro h
    obtain ⟨tod', hboot, hgood⟩ := h.boot ⟨false, 0, 0, 0, 0, 0⟩ rfl
    obtain ⟨hsecond, hfits⟩ := five_gigahertz_second hboot
    obtain ⟨r, hr, hnear⟩ := (hgood.ns2fastticks 0).near 1000000000 hfits
    obtain rfl : 705032704 = r := (Prod.mk.inj (Option.some.inj (hsecond.symm.trans hr))).1
    have hf : (5000000000 : Int64).toInt = 5000000000 := by decide
    have hns : (1000000000 : UInt64).toNat = 1000000000 := by decide
    have hticks : (705032704 : UInt64).toNat = 705032704 := by decide
    rw [hf, hns, hticks] at hnear
    norm_num at hnear

end Main

end TodClock
