import Mathlib

/-!
# The header of an executable: `port/sysproc.c`

`sysexec` reads 40 bytes: an `Exec`, whose eight fields are big-endian `long`s, and the entry point in
eight bytes more.  The sizes are `long`s of 32 bits, which may be negative, and the limits `uintptr`s
of 64; `UTZERO+hdrsz+textsz` has 32 bits without a sign, and so has a `uchar` that is shifted: the Plan 9
compilers make it an `uint`.  `sizeof(Hdr)` bytes have been read.
The magic numbers are those of `a.out.h`, which is not part of the kernel.
-/

namespace Exec

/-- "first address in user text" -/
def UTZERO : UInt32 := 2 * 1048576

def BIGPGSZ : UInt64 := (1 : UInt64) <<< 21

def TSTKTOP : UInt64 := 0x00007ffffffff000 &&& ~~~(BIGPGSZ - 1)

/-- "size of user stack" -/
def USTKSIZE : UInt64 := 16 * 1024 * 1024

/-- "end of new stack in sysexec" -/
def USTKTOP : UInt64 := TSTKTOP - USTKSIZE

/-- The header as it is read. -/
structure Hdr where
  magic : Vector UInt8 4
  text : Vector UInt8 4
  data : Vector UInt8 4
  bss : Vector UInt8 4
  syms : Vector UInt8 4
  entry : Vector UInt8 4
  spsz : Vector UInt8 4
  pcsz : Vector UInt8 4
  hdr : Vector UInt8 8
deriving Repr, DecidableEq

def sizeofExec : Int32 := 32
def sizeofHdr : Int32 := 40

/-- An `int` made a `uvlong`. -/
def uvlong (i : Int32) : UInt64 := i.toInt64.toUInt64

/-- `(a<<24)|(b<<16)|(c<<8)|d`. -/
def be (a b c d : UInt8) : UInt32 :=
  (a.toUInt32 <<< 24) ||| (b.toUInt32 <<< 16) ||| (c.toUInt32 <<< 8) ||| d.toUInt32

/-- `l2be`. -/
def l2be (cp : Vector UInt8 4) : UInt32 := be cp[0] cp[1] cp[2] cp[3]

/-- `vl2be`. -/
def vl2be (p : Vector UInt8 8) : UInt64 :=
  (be p[0] p[1] p[2] p[3]).toUInt64 <<< 32 |||
    ((p[4].toUInt32 <<< 24).toUInt64 ||| (p[5].toUInt32 <<< 16).toUInt64 ||| (p[6].toUInt32 <<< 8).toUInt64 |||
      p[7].toUInt64)

/-- What `sysexec` makes of the header. -/
structure Limits where
  entry : UInt64
  hdrsz : Int32
  textsz : Int32
  datasz : Int32
  bsssz : Int32
  textlim : UInt64
  datalim : UInt64
  bsslim : UInt64
deriving Repr, DecidableEq

/-- `UTZERO+hdrsz+textsz`, in 32 bits. -/
def textend (hdrsz textsz : Int32) : UInt32 := UTZERO + hdrsz.toUInt32 + textsz.toUInt32

/-- `ROUNDUP(x, 1<<USEGSHIFT)` of a `ulong`. -/
def roundup32 (x : UInt32) : UInt32 :=
  let y := (1 : UInt32) <<< 21
  (x + (y - 1)) / y * y

/-- `ROUNDUP(x, 1<<USEGSHIFT)` of a `uintptr`. -/
def roundup64 (x : UInt64) : UInt64 :=
  let y := (1 : UInt64) <<< 21
  (x + (y - 1)) / y * y

/-- The limits, before they are checked. -/
def limits (HDR_MAGIC : UInt32) (hdr : Hdr) : Limits :=
  let expanded := l2be hdr.magic &&& HDR_MAGIC ≠ 0
  let entry := if expanded then vl2be hdr.hdr else (l2be hdr.entry).toUInt64
  let hdrsz := if expanded then sizeofHdr else sizeofExec
  let textsz := (l2be hdr.text).toInt32
  let datasz := (l2be hdr.data).toInt32
  let bsssz := (l2be hdr.bss).toInt32
  let textlim := (roundup32 (textend hdrsz textsz)).toUInt64
  let datalim := roundup64 (textlim + uvlong datasz)
  let bsslim := roundup64 (textlim + uvlong datasz + uvlong bsssz)
  ⟨entry, hdrsz, textsz, datasz, bsssz, textlim, datalim, bsslim⟩

/-- "Check the binary header for consistency": the header is refused. -/
def Limits.bad (l : Limits) : Prop :=
  (l.entry < (UTZERO + l.hdrsz.toUInt32).toUInt64 ∨ l.entry ≥ (textend l.hdrsz l.textsz).toUInt64) ∨
  (uvlong l.textsz ≥ l.textlim ∨ uvlong l.datasz > l.datalim ∨ uvlong l.bsssz > l.bsslim ∨
    l.textlim ≥ USTKTOP ∨ l.datalim ≥ USTKTOP ∨ l.bsslim ≥ USTKTOP ∨
    l.datalim < l.textlim ∨ l.bsslim < l.datalim)

instance (l : Limits) : Decidable l.bad := inferInstanceAs (Decidable (_ ∨ _))

/-- `sysexec` up to the end of its checks; nothing is `error(Ebadexec)`. -/
def sysexec (AOUT_MAGIC HDR_MAGIC : UInt32) (hdr : Hdr) : Option Limits :=
  if l2be hdr.magic ≠ AOUT_MAGIC then none
  else if (limits HDR_MAGIC hdr).bad then none
  else some (limits HDR_MAGIC hdr)

/-- The number that the bytes are, the first byte first. -/
def bigendian (p : List UInt8) : Nat := p.foldl (fun n b => 256 * n + b.toNat) 0

/-- The segments are in order below the stack, text and data fit in theirs, and the entry point is
in the text, all over the integers. -/
structure Limits.Sound (l : Limits) : Prop where
  sizes : 0 ≤ l.textsz.toInt ∧ 0 ≤ l.datasz.toInt ∧ 0 ≤ l.bsssz.toInt
  order : UTZERO.toNat < l.textlim.toNat ∧ l.textlim.toNat ≤ l.datalim.toNat ∧
    l.datalim.toNat ≤ l.bsslim.toNat ∧ l.bsslim.toNat < USTKTOP.toNat
  text : (UTZERO.toNat : Int) + l.hdrsz.toInt + l.textsz.toInt ≤ l.textlim.toNat
  data : (l.textlim.toNat : Int) + l.datasz.toInt ≤ l.datalim.toNat
  bss : (l.textlim.toNat : Int) + l.datasz.toInt + l.bsssz.toInt ≤ l.bsslim.toNat
  entry : (UTZERO.toNat : Int) + l.hdrsz.toInt ≤ l.entry.toNat ∧
    (l.entry.toNat : Int) < UTZERO.toNat + l.hdrsz.toInt + l.textsz.toInt

/-- The entry point is decoded as its big-endian value, and what passes the checks is sound. -/
def Validates (AOUT_MAGIC HDR_MAGIC : UInt32) (hdr : Hdr) : Prop :=
  (vl2be hdr.hdr).toNat = bigendian hdr.hdr.toList ∧
    ∀ l, sysexec AOUT_MAGIC HDR_MAGIC hdr = some l → l.Sound

theorem toNat_toUInt32 (i : Int32) : (i.toUInt32.toNat : Int) = i.toInt % 2 ^ 32 := by
  have hbits : i.toUInt32.toNat = i.toBitVec.toNat := rfl
  have hint : i.toInt = i.toBitVec.toInt := rfl
  have hlt := i.toBitVec.isLt
  rw [hbits, hint, BitVec.toInt_eq_toNat_cond]
  split_ifs <;> omega

/-- An `int` made a `uvlong` keeps its value modulo `2 ^ 64`. -/
theorem toNat_uvlong (i : Int32) : ((uvlong i).toNat : Int) = i.toInt % 2 ^ 64 := by
  have hbits : (uvlong i).toNat = i.toInt64.toBitVec.toNat := rfl
  have hint : i.toInt64.toBitVec.toInt = i.toInt := Int32.toInt_toInt64 i
  have hlt := i.toInt64.toBitVec.isLt
  rw [hbits, ← hint, BitVec.toInt_eq_toNat_cond]
  split_ifs <;> omega

theorem toInt_bounds (i : Int32) : -2 ^ 31 ≤ i.toInt ∧ i.toInt < 2 ^ 31 := by
  exact ⟨i.le_toInt, i.toInt_lt⟩

/-- The bytes of a word, each in its place. -/
theorem or_bytes {a b c d : Nat} (hb : b < 2 ^ 8) (hc : c < 2 ^ 8) (hd : d < 2 ^ 8) :
    a <<< 24 ||| b <<< 16 ||| c <<< 8 ||| d = a * 2 ^ 24 + b * 2 ^ 16 + c * 2 ^ 8 + d := by
  have hcd : c <<< 8 + d = c <<< 8 ||| d := Nat.shiftLeft_add_eq_or_of_lt hd c
  have hlow : c <<< 8 + d < 2 ^ 16 := by
    rw [Nat.shiftLeft_eq]
    omega
  have hbcd : b <<< 16 + (c <<< 8 + d) = b <<< 16 ||| (c <<< 8 + d) := Nat.shiftLeft_add_eq_or_of_lt hlow b
  have hmid : b <<< 16 + (c <<< 8 + d) < 2 ^ 24 := by
    have hb16 := Nat.shiftLeft_eq b 16
    omega
  have habcd := Nat.shiftLeft_add_eq_or_of_lt hmid a
  rw [Nat.or_assoc, Nat.or_assoc, ← hcd, ← hbcd, ← habcd]
  simp only [Nat.shiftLeft_eq]
  omega

/-- A byte in its place in a word. -/
theorem toNat_place (a : UInt8) {k : UInt32} (hk : k.toNat ≤ 24) : (a.toUInt32 <<< k).toNat = a.toNat <<< k.toNat := by
  have ha := a.toNat_lt
  have hmul : a.toNat * 2 ^ k.toNat < 2 ^ 8 * 2 ^ k.toNat := Nat.mul_lt_mul_of_pos_right ha (Nat.two_pow_pos _)
  have hpow : (2 : Nat) ^ k.toNat ≤ 2 ^ 24 := Nat.pow_le_pow_right (by decide) hk
  rw [UInt32.toNat_shiftLeft, UInt8.toNat_toUInt32, Nat.mod_eq_of_lt (Nat.lt_of_le_of_lt hk (by decide)),
    Nat.shiftLeft_eq]
  exact Nat.mod_eq_of_lt (by omega)

theorem toNat_be (a b c d : UInt8) :
    (be a b c d).toNat = a.toNat * 2 ^ 24 + b.toNat * 2 ^ 16 + c.toNat * 2 ^ 8 + d.toNat := by
  rw [be, UInt32.toNat_or, UInt32.toNat_or, UInt32.toNat_or, UInt8.toNat_toUInt32 d, toNat_place a (by decide),
    toNat_place b (by decide), toNat_place c (by decide)]
  exact or_bytes b.toNat_lt c.toNat_lt d.toNat_lt

theorem word_lt (a b c d : UInt8) :
    a.toNat * 2 ^ 24 + b.toNat * 2 ^ 16 + c.toNat * 2 ^ 8 + d.toNat < 2 ^ 32 := by
  have ha := a.toNat_lt
  have hb := b.toNat_lt
  have hc := c.toNat_lt
  have hd := d.toNat_lt
  omega

/-- **What `vl2be` decodes.** -/
theorem toNat_vl2be (p : Vector UInt8 8) : (vl2be p).toNat =
    (p[0].toNat * 2 ^ 24 + p[1].toNat * 2 ^ 16 + p[2].toNat * 2 ^ 8 + p[3].toNat) * 2 ^ 32 +
      (p[4].toNat * 2 ^ 24 + p[5].toNat * 2 ^ 16 + p[6].toNat * 2 ^ 8 + p[7].toNat) := by
  have hbytes := @or_bytes p[4].toNat p[5].toNat p[6].toNat p[7].toNat p[5].toNat_lt p[6].toNat_lt p[7].toNat_lt
  have hlow := word_lt p[4] p[5] p[6] p[7]
  have hhigh := word_lt p[0] p[1] p[2] p[3]
  have htop : ((be p[0] p[1] p[2] p[3]).toUInt64 <<< 32).toNat = (be p[0] p[1] p[2] p[3]).toNat <<< 32 := by
    rw [UInt64.toNat_shiftLeft, UInt32.toNat_toUInt64, toNat_be]
    change _ <<< 32 % 2 ^ 64 = _
    rw [Nat.shiftLeft_eq]
    omega
  rw [vl2be, UInt64.toNat_or, UInt64.toNat_or, UInt64.toNat_or, UInt64.toNat_or, htop, UInt32.toNat_toUInt64,
    UInt32.toNat_toUInt64, UInt32.toNat_toUInt64, UInt8.toNat_toUInt64, toNat_place p[4] (by decide),
    toNat_place p[5] (by decide), toNat_place p[6] (by decide), toNat_be]
  calc _ = (p[0].toNat * 2 ^ 24 + p[1].toNat * 2 ^ 16 + p[2].toNat * 2 ^ 8 + p[3].toNat) <<< 32 |||
        (p[4].toNat * 2 ^ 24 + p[5].toNat * 2 ^ 16 + p[6].toNat * 2 ^ 8 + p[7].toNat) := congrArg _ hbytes
    _ = (p[0].toNat * 2 ^ 24 + p[1].toNat * 2 ^ 16 + p[2].toNat * 2 ^ 8 + p[3].toNat) <<< 32 +
        (p[4].toNat * 2 ^ 24 + p[5].toNat * 2 ^ 16 + p[6].toNat * 2 ^ 8 + p[7].toNat) :=
      (Nat.shiftLeft_add_eq_or_of_lt hlow _).symm
    _ = _ := by rw [Nat.shiftLeft_eq]

theorem bigendian_hdr (p : Vector UInt8 8) : bigendian p.toList =
    (p[0].toNat * 2 ^ 24 + p[1].toNat * 2 ^ 16 + p[2].toNat * 2 ^ 8 + p[3].toNat) * 2 ^ 32 +
      (p[4].toNat * 2 ^ 24 + p[5].toNat * 2 ^ 16 + p[6].toNat * 2 ^ 8 + p[7].toNat) := by
  have hlist : p.toList = [p[0], p[1], p[2], p[3], p[4], p[5], p[6], p[7]] := by
    apply List.ext_getElem
    · simp
    · intro i hi _
      have hi8 : i < 8 := by simpa using hi
      interval_cases i <;> simp
  rw [hlist]
  simp only [bigendian, List.foldl_cons, List.foldl_nil]
  omega

/-- The entry point is decoded right. -/
theorem vl2be_eq (p : Vector UInt8 8) : (vl2be p).toNat = bigendian p.toList := by
  rw [toNat_vl2be, bigendian_hdr]

theorem toNat_roundup32 {x : UInt32} (hx : x.toNat + (2 ^ 21 - 1) < 2 ^ 32) :
    (roundup32 x).toNat = (x.toNat + (2 ^ 21 - 1)) / 2 ^ 21 * 2 ^ 21 := by
  have hy : ((1 : UInt32) <<< 21).toNat = 2 ^ 21 := rfl
  have hpred : ((1 : UInt32) <<< 21 - 1).toNat = 2 ^ 21 - 1 := rfl
  rw [roundup32]
  simp only [UInt32.toNat_mul, UInt32.toNat_div, UInt32.toNat_add, hy, hpred]
  omega

theorem toNat_roundup64 {x : UInt64} (hx : x.toNat + (2 ^ 21 - 1) < 2 ^ 64) :
    (roundup64 x).toNat = (x.toNat + (2 ^ 21 - 1)) / 2 ^ 21 * 2 ^ 21 := by
  have hy : ((1 : UInt64) <<< 21).toNat = 2 ^ 21 := rfl
  have hpred : ((1 : UInt64) <<< 21 - 1).toNat = 2 ^ 21 - 1 := rfl
  rw [roundup64]
  simp only [UInt64.toNat_mul, UInt64.toNat_div, UInt64.toNat_add, hy, hpred]
  omega

/-- A size that is not negative is its own `uvlong`. -/
theorem uvlong_lt {i : Int32} {n : Nat} (h : (uvlong i).toNat < n) (hn : n ≤ 2 ^ 63) :
    0 ≤ i.toInt ∧ ((uvlong i).toNat : Int) = i.toInt ∧ (i.toUInt32.toNat : Int) = i.toInt := by
  have hhigh := toNat_uvlong i
  have hlow := toNat_toUInt32 i
  have hbounds := toInt_bounds i
  omega

/-- What passes the checks is sound. -/
theorem checks_sound {entry : UInt64} {hdrsz textsz datasz bsssz : Int32} {textlim datalim bsslim : UInt64}
    (hhdr : hdrsz = sizeofHdr ∨ hdrsz = sizeofExec)
    (htext : textlim = (roundup32 (textend hdrsz textsz)).toUInt64)
    (hdata : datalim = roundup64 (textlim + uvlong datasz))
    (hbss : bsslim = roundup64 (textlim + uvlong datasz + uvlong bsssz))
    (hgood : ¬Limits.bad ⟨entry, hdrsz, textsz, datasz, bsssz, textlim, datalim, bsslim⟩) :
    Limits.Sound ⟨entry, hdrsz, textsz, datasz, bsssz, textlim, datalim, bsslim⟩ := by
  simp only [Limits.bad, not_or, ge_iff_le, gt_iff_lt, UInt64.le_iff_toNat_le, UInt64.lt_iff_toNat_lt,
    UInt32.toNat_toUInt64] at hgood
  obtain ⟨⟨hlow, hhigh⟩, ht, hd, hb, htop, hdtop, hbtop, hdt, hbd⟩ := hgood
  have hstack : USTKTOP.toNat < 2 ^ 47 := by decide
  have hbase : UTZERO.toNat = 2 ^ 21 := rfl
  have hsize : (hdrsz.toUInt32.toNat : Int) = hdrsz.toInt ∧ 32 ≤ hdrsz.toInt ∧ hdrsz.toInt ≤ 40 := by
    rcases hhdr with rfl | rfl <;> decide
  have htl : textlim.toNat < 2 ^ 32 := by
    rw [htext, UInt32.toNat_toUInt64]
    exact UInt32.toNat_lt _
  obtain ⟨ht0, htv, ht32⟩ := uvlong_lt (Nat.lt_of_not_le ht) (by omega)
  obtain ⟨hd0, hdv, -⟩ := uvlong_lt (Nat.lt_succ_of_le (Nat.le_of_not_lt hd)) (by omega)
  obtain ⟨hb0, hbv, -⟩ := uvlong_lt (Nat.lt_succ_of_le (Nat.le_of_not_lt hb)) (by omega)
  have hdmax := (toInt_bounds datasz).2
  have hbmax := (toInt_bounds bsssz).2
  have htmax := (toInt_bounds textsz).2
  have hstart : (UTZERO + hdrsz.toUInt32).toNat = 2 ^ 21 + hdrsz.toUInt32.toNat := by
    rw [UInt32.toNat_add, hbase]
    omega
  have hend : (textend hdrsz textsz).toNat = 2 ^ 21 + hdrsz.toUInt32.toNat + textsz.toUInt32.toNat := by
    rw [textend, UInt32.toNat_add, hstart]
    omega
  have htlim : textlim.toNat = ((textend hdrsz textsz).toNat + (2 ^ 21 - 1)) / 2 ^ 21 * 2 ^ 21 := by
    rw [htext, UInt32.toNat_toUInt64]
    exact toNat_roundup32 (by omega)
  have hdsum : (textlim + uvlong datasz).toNat = textlim.toNat + (uvlong datasz).toNat := by
    rw [UInt64.toNat_add]
    omega
  have hbsum : (textlim + uvlong datasz + uvlong bsssz).toNat =
      textlim.toNat + (uvlong datasz).toNat + (uvlong bsssz).toNat := by
    rw [UInt64.toNat_add, hdsum]
    omega
  have hdlim : datalim.toNat = (textlim.toNat + (uvlong datasz).toNat + (2 ^ 21 - 1)) / 2 ^ 21 * 2 ^ 21 := by
    rw [hdata, toNat_roundup64 (by omega), hdsum]
  have hblim : bsslim.toNat = (textlim.toNat + (uvlong datasz).toNat + (uvlong bsssz).toNat + (2 ^ 21 - 1)) /
      2 ^ 21 * 2 ^ 21 := by
    rw [hbss, toNat_roundup64 (by omega), hbsum]
  refine ⟨⟨ht0, hd0, hb0⟩,
    ⟨?_, Nat.le_of_not_lt hdt, Nat.le_of_not_lt hbd, Nat.lt_of_not_le hbtop⟩, ?_, ?_, ?_, ?_, ?_⟩
  · change UTZERO.toNat < textlim.toNat
    omega
  · change (UTZERO.toNat : Int) + hdrsz.toInt + textsz.toInt ≤ textlim.toNat
    omega
  · change (textlim.toNat : Int) + datasz.toInt ≤ datalim.toNat
    omega
  · change (textlim.toNat : Int) + datasz.toInt + bsssz.toInt ≤ bsslim.toNat
    omega
  · change (UTZERO.toNat : Int) + hdrsz.toInt ≤ entry.toNat
    omega
  · change (entry.toNat : Int) < UTZERO.toNat + hdrsz.toInt + textsz.toInt
    omega

theorem limits_sound (HDR_MAGIC : UInt32) (hdr : Hdr) (hgood : ¬(limits HDR_MAGIC hdr).bad) :
    (limits HDR_MAGIC hdr).Sound := by
  refine checks_sound ?_ rfl rfl rfl hgood
  by_cases hexp : l2be hdr.magic &&& HDR_MAGIC ≠ 0
  · exact Or.inl (if_pos hexp)
  · exact Or.inr (if_neg hexp)

/-- **The header is validated**, whatever the entry point and the sizes. -/
theorem validates (AOUT_MAGIC HDR_MAGIC : UInt32) (hdr : Hdr) : Validates AOUT_MAGIC HDR_MAGIC hdr := by
  refine ⟨vl2be_eq hdr.hdr, fun l hl => ?_⟩
  obtain ⟨-, hl⟩ := Option.ite_none_left_eq_some.mp hl
  obtain ⟨hgood, hl⟩ := Option.ite_none_left_eq_some.mp hl
  cases hl
  exact limits_sound HDR_MAGIC hdr hgood

end Exec
