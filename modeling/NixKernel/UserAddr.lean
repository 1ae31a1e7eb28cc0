import Mathlib

/-!
# Addresses that a system call is given: `port/fault.c`

`okaddr` is what stands between the pointers of a system call and the kernel.  It goes from segment
to segment with a `long` of 32 bits for the length that is left and addresses of 64 bits.  `vmemchr`
looks for a byte page by page, and has `validaddr` check each page it comes to.

Nothing keeps the sum of an address and a length from wrapping: `brk` lets a segment end near the top of
the addresses.  And of segments that overlap `seg` finds the one in the first slot only.
-/

namespace UserAddr

open List

/-- What is read of a `Segment`: its bounds, and whether `type` has `SG_RONLY`. -/
structure Segment where
  base : UInt64
  top : UInt64
  ronly : Bool
deriving Repr, DecidableEq

/-- `addr >= n->base && addr < n->top` -/
def Segment.has (n : Segment) (addr : UInt64) : Bool := addr ≥ n.base && addr < n.top

/-- `seg`, of the slots of a process. -/
def seg (slots : List (Option Segment)) (addr : UInt64) : Option Segment :=
  slots.findSome? fun n => n.filter (·.has addr)

/-- A `long` made a `uintptr`. -/
def uintptr (n : Int32) : UInt64 := n.toInt64.toUInt64

/-- The segments of a process. -/
abbrev Slots := List (Option Segment)

/-- The loop of `okaddr`, for a `len` that is not negative. -/
def Slots.okaddrLoop (slots : Slots) (write : Bool) (addr : UInt64) (len : Int32) : Option Bool :=
  match seg slots addr with
  | none => some false
  | some s =>
    if write && s.ronly then some false
    else if addr + uintptr len > s.top then
      slots |>.okaddrLoop write s.top (uintptr len - (s.top - addr)).toUInt32.toInt32
    else some true
partial_fixpoint

export Slots (okaddrLoop)

/-- `okaddr`.  No result would be a loop without an end. -/
def okaddr (slots : List (Option Segment)) (addr : UInt64) (len : Int32) (write : Bool) : Option Bool :=
  if len ≥ 0 then okaddrLoop slots write addr len else some false

/-- The byte `x` may be read, or written. -/
def Slots.Ok (slots : Slots) (write : Bool) (x : Nat) : Prop :=
  (∃ s, some s ∈ slots ∧ s.base.toNat ≤ x ∧ x < s.top.toNat) ∧
    (write = true → ∀ s, some s ∈ slots → s.base.toNat ≤ x → x < s.top.toNat → s.ronly = false)

/-- The bytes of a range that ends at `e`, and its first address if it is empty. -/
def InRange (addr : UInt64) (e y : Nat) : Prop := y = addr.toNat ∨ addr.toNat ≤ y ∧ y < e

/-- `okaddr` ends, and returns 1 just when each byte of the range, or the address itself if the range is
empty, is in a segment, and for a write in no read-only one.  The bytes are counted without a bound. -/
def Exact (slots : Slots) (addr : UInt64) (len : Int32) (write : Bool) : Prop :=
  ∃ r, okaddr slots addr len write = some r ∧
    (r = true ↔ ∀ y, InRange addr (addr.toNat + len.toInt.toNat) y → slots.Ok write y)

/-- From the address `a` of a range that ends at `e` one comes to `x`: it is `a`, or one goes to the end
of the segment that `seg` finds at `a`, if that is in the range and the range does not wrap. -/
inductive Slots.Leads (slots : Slots) (e : Nat) : UInt64 → UInt64 → Prop
  | here {a : UInt64} : Leads slots e a a
  | next {a x : UInt64} {s : Segment} (hseg : seg slots a = some s) (htop : s.top.toNat < e) (hfit : e < 2 ^ 64)
      (hlead : Leads slots e s.top x) : Leads slots e a x

/-- `seg` finds a segment at `x`, for a write one that is not read-only. -/
def Slots.Passes (slots : Slots) (write : Bool) (x : UInt64) : Prop :=
  ∃ s, seg slots x = some s ∧ (write && s.ronly) = false

/-- No read-only segment has a byte of the range. -/
def Slots.NoRonly (slots : Slots) (addr : UInt64) (e : Nat) : Prop :=
  ∀ s, some s ∈ slots → s.ronly = true → ∀ y, InRange addr e y → ¬(s.base.toNat ≤ y ∧ y < s.top.toNat)

variable {slots : Slots} {s : Segment} {addr x : UInt64} {len : Int32} {write : Bool} {e : Nat}

theorem has_iff : s.has addr = true ↔ s.base.toNat ≤ addr.toNat ∧ addr.toNat < s.top.toNat := by
  rw [Segment.has, Bool.and_eq_true, decide_eq_true_eq, decide_eq_true_eq]
  exact Iff.rfl

theorem seg_some (h : seg slots addr = some s) :
    some s ∈ slots ∧ s.has addr = true := by
  obtain ⟨n, hn, hs⟩ := exists_of_findSome?_eq_some h
  rw [Option.filter_eq_some_iff] at hs
  obtain ⟨rfl, hhas⟩ := hs
  exact ⟨hn, hhas⟩

theorem seg_none (h : seg slots addr = none) (hs : some s ∈ slots) :
    s.has addr = false := by
  have hnone := List.findSome?_eq_none_iff.mp h (some s) hs
  rw [Option.filter_some] at hnone
  by_contra hhas
  rw [if_pos (Bool.not_eq_false _ ▸ hhas)] at hnone
  cases hnone

theorem toNat_uintptr (h : 0 ≤ len.toInt) : (uintptr len).toNat = len.toInt.toNat := by
  have hbits : (uintptr len).toNat = len.toInt64.toBitVec.toNat := rfl
  have hint : len.toInt64.toBitVec.toInt = len.toInt := Int32.toInt_toInt64 len
  have hlt := len.toInt64.toBitVec.isLt
  rw [hbits, ← hint, BitVec.toInt_eq_toNat_cond]
  rw [← hint, BitVec.toInt_eq_toNat_cond] at h
  split_ifs at h ⊢ <;> omega

/-- The byte where `seg` finds nothing may not be read. -/
theorem Slots.Ok.seg_isSome (h : slots.Ok write addr.toNat) : (seg slots addr).isSome = true := by
  obtain ⟨⟨t, ht, hle, hlt⟩, -⟩ := h
  cases hs : seg slots addr with
  | none =>
    have hnone := seg_none hs ht
    rw [has_iff.mpr ⟨hle, hlt⟩] at hnone
    cases hnone
  | some s => rfl

theorem Slots.Ok.passes (h : slots.Ok write addr.toNat) : slots.Passes write addr := by
  obtain ⟨s, hs⟩ := Option.isSome_iff_exists.mp h.seg_isSome
  obtain ⟨hmem, hhas⟩ := seg_some hs
  obtain ⟨hle, hlt⟩ := has_iff.mp hhas
  refine ⟨s, hs, ?_⟩
  cases write with
  | false => rfl
  | true => exact h.2 rfl s hmem hle hlt

/-- One comes only to addresses of the range. -/
theorem Slots.Leads.inRange (h : slots.Leads e addr x) : InRange addr e x.toNat := by
  induction h with
  | here => exact .inl rfl
  | next hseg htop hfit hlead ih =>
    have hlt := (has_iff.mp (seg_some hseg).2).2
    rcases ih with heq | ⟨hle, hlt'⟩
    · exact .inr ⟨by omega, by omega⟩
    · exact .inr ⟨by omega, hlt'⟩

/-- What is left of the length behind a segment that ends `d` bytes on. -/
theorem toInt_rest {n d : Nat} {a : UInt64} (hlen : 0 ≤ len.toInt) (hn : len.toInt.toNat = n) (ha : a.toNat = d)
    (hd : d < n) : (uintptr len - a).toUInt32.toInt32.toInt = (n - d : Nat) := by
  have hbound := len.toInt_lt
  have hsub : (uintptr len - a).toNat = n - d := by
    have hle : a ≤ uintptr len := by
      rw [UInt64.le_iff_toNat_le, toNat_uintptr hlen]
      omega
    rw [UInt64.toNat_sub_of_le _ _ hle, toNat_uintptr hlen, hn, ha]
  have hsmall : (uintptr len - a).toUInt32.toNat = n - d := by
    rw [UInt64.toNat_toUInt32, hsub]
    omega
  have hint : (uintptr len - a).toUInt32.toInt32.toInt = (uintptr len - a).toUInt32.toBitVec.toInt := rfl
  have hbits : (uintptr len - a).toUInt32.toBitVec.toNat = n - d := hsmall
  rw [hint, BitVec.toInt_eq_toNat_of_lt (by omega), hbits]

/-- **What the loop returns**: whether every address that one comes to passes. -/
theorem okaddrLoop_spec (hlen : 0 ≤ len.toInt) (he : addr.toNat + len.toInt.toNat = e) :
    ∃ r, okaddrLoop slots write addr len = some r ∧
      (r = true ↔ ∀ x, slots.Leads e addr x → slots.Passes write x) := by
  induction hn : len.toInt.toNat using Nat.strong_induction_on generalizing addr len with
  | _ n ih =>
    rw [okaddrLoop]
    cases hs : seg slots addr with
    | none =>
      refine ⟨false, rfl, iff_of_false Bool.false_ne_true fun h => ?_⟩
      obtain ⟨s, hs', -⟩ := h addr .here
      rw [hs] at hs'
      cases hs'
    | some s =>
      obtain ⟨hle, hlt⟩ := has_iff.mp (seg_some hs).2
      by_cases hro : (write && s.ronly) = true
      · refine ⟨false, by simp only [hro, if_true], iff_of_false Bool.false_ne_true fun h => ?_⟩
        obtain ⟨s', hs', hpass⟩ := h addr .here
        rw [hs] at hs'
        cases hs'
        rw [hro] at hpass
        cases hpass
      · rw [Bool.not_eq_true] at hro
        have hbound := len.toInt_lt
        have htop := s.top.toNat_lt
        have hsum : (addr + uintptr len).toNat = (addr.toNat + n) % 2 ^ 64 := by
          rw [UInt64.toNat_add, toNat_uintptr hlen, hn]
        by_cases hgt : addr + uintptr len > s.top
        · -- the rest begins where the segment ends; had the sum wrapped it would be below the address
          have hgt' : s.top.toNat < (addr.toNat + n) % 2 ^ 64 := hsum ▸ hgt
          have hdiff : (s.top - addr).toNat = s.top.toNat - addr.toNat :=
            UInt64.toNat_sub_of_le _ _ (Nat.le_of_lt hlt)
          have hrest := toInt_rest hlen hn hdiff (by omega)
          obtain ⟨r, hrun, hr⟩ := @ih (n - (s.top.toNat - addr.toNat)) (by omega) s.top
            (uintptr len - (s.top - addr)).toUInt32.toInt32 (by rw [hrest]; omega)
            (by rw [hrest, Int.toNat_natCast]; omega) (by rw [hrest]; rfl)
          refine ⟨r, ?_, ?_⟩
          · simp only [hro, Bool.false_eq_true, if_false, hgt, if_true]
            exact hrun
          · rw [hr]
            constructor
            · intro h x hx
              cases hx with
              | here => exact ⟨s, hs, hro⟩
              | next hseg _ _ hlead =>
                rw [hs] at hseg
                cases hseg
                exact h x hlead
            · exact fun h x hx => h x (.next hs (by omega) (by omega) hx)
        · refine ⟨true, ?_, iff_of_true rfl fun x hx => ?_⟩
          · simp only [hro, Bool.false_eq_true, if_false, hgt]
          · cases hx with
            | here => exact ⟨s, hs, hro⟩
            | next hseg htop' hfit _ =>
              rw [hs] at hseg
              cases hseg
              have hle' : (addr + uintptr len).toNat ≤ s.top.toNat := Nat.le_of_not_lt hgt
              omega

/-- If every address that one comes to passes, the range is in segments. -/
theorem covered (hfit : e < 2 ^ 64) (h : ∀ x, slots.Leads e addr x → slots.Passes write x) {y : Nat}
    (hy : InRange addr e y) : ∃ s, some s ∈ slots ∧ s.base.toNat ≤ y ∧ y < s.top.toNat := by
  induction hn : e - addr.toNat using Nat.strong_induction_on generalizing addr with
  | _ n ih =>
    obtain ⟨s, hs, -⟩ := h addr .here
    obtain ⟨hmem, hhas⟩ := seg_some hs
    obtain ⟨hle, hlt⟩ := has_iff.mp hhas
    by_cases hin : y < s.top.toNat
    · exact ⟨s, hmem, by unfold InRange at hy; omega, hin⟩
    · unfold InRange at hy
      exact ih (e - s.top.toNat) (by omega) (fun x hx => h x (.next hs (by omega) hfit hx))
        (.inr ⟨by omega, by omega⟩) rfl

/-- **`okaddr` is exact** just when the range does not wrap and, for a write, no read-only segment has a byte
of it, or when an address that one comes to is refused. -/
theorem okaddr_iff (slots : Slots) (addr : UInt64) (len : Int32) (write : Bool) (hlen : 0 ≤ len.toInt) :
    Exact slots addr len write ↔
      (addr.toNat + len.toInt.toNat < 2 ^ 64 ∧
        (write = true → slots.NoRonly addr (addr.toNat + len.toInt.toNat))) ∨
      ∃ x, slots.Leads (addr.toNat + len.toInt.toNat) addr x ∧ ¬slots.Passes write x := by
  obtain ⟨r, hrun, hr⟩ := @okaddrLoop_spec slots addr len write _ hlen rfl
  have hge : len ≥ 0 := Int32.le_iff_toInt_le.mpr hlen
  have hok : okaddr slots addr len write = some r := by
    rw [okaddr, if_pos hge]
    exact hrun
  have hexact : Exact slots addr len write ↔ (r = true ↔
      ∀ y, InRange addr (addr.toNat + len.toInt.toNat) y → slots.Ok write y) := by
    rw [Exact, hok]
    exact ⟨fun ⟨r', heq, h⟩ => Option.some.inj heq ▸ h, fun h => ⟨r, rfl, h⟩⟩
  generalize addr.toNat + len.toInt.toNat = e at *
  rw [hexact, hr]
  constructor
  · intro h
    by_cases hpass : ∀ x, slots.Leads e addr x → slots.Passes write x
    · refine .inl ⟨?_, fun hw s hs hro y hy hhas => ?_⟩
      · -- the last byte of the addresses is in no segment
        by_contra hwrap
        have haddr := addr.toNat_lt
        obtain ⟨⟨s, -, -, hlt⟩, -⟩ := h.mp hpass (2 ^ 64 - 1) (.inr ⟨by omega, by omega⟩)
        have htop := s.top.toNat_lt
        omega
      · have hnot := (h.mp hpass y hy).2 hw s hs hhas.1 hhas.2
        rw [hro] at hnot
        cases hnot
    · simp only [not_forall, exists_prop] at hpass
      exact .inr hpass
  · rintro (⟨hfit, hro⟩ | ⟨x, hx, hnot⟩)
    · refine ⟨fun hpass y hy => ⟨covered hfit hpass hy, fun hw s hs hle hlt => ?_⟩,
        fun h x hx => (h x.toNat hx.inRange).passes⟩
      by_contra hne
      exact hro hw s hs (Bool.not_eq_false _ ▸ hne) y hy ⟨hle, hlt⟩
    · refine iff_of_false (fun hpass => hnot (hpass x hx)) fun h => hnot (h x.toNat hx.inRange).passes

/-- Text, and data and bss that overlap. -/
def threeSegments : Slots :=
  [none, some ⟨0x200000, 0x400000, true⟩, some ⟨0x400000, 0x600000, false⟩, some ⟨0x500000, 0x800000, false⟩]

/-- Reading across the border of text and data. -/
theorem okaddr_iff_border : Exact threeSegments 0x3ffff0 0x200020 false :=
  (okaddr_iff threeSegments 0x3ffff0 0x200020 false (by decide)).mpr
    (.inl ⟨by decide, fun h => absurd h (by decide)⟩)

/-- What `seg` finds at the address is all that `okaddr` looks at, if the sum is not above its end. -/
theorem Exact.ok_of_within (h : Exact slots addr len write) (hlen : len ≥ 0) (hseg : seg slots addr = some s)
    (hro : (write && s.ronly) = false) (hsum : ¬addr + uintptr len > s.top) {y : Nat}
    (hy : InRange addr (addr.toNat + len.toInt.toNat) y) : slots.Ok write y := by
  obtain ⟨r, hrun, hr⟩ := h
  rw [okaddr, if_pos hlen, okaddrLoop] at hrun
  simp only [hseg, hro, hsum, Bool.false_eq_true, if_false, Option.some.injEq] at hrun
  exact hr.mp hrun.symm y hy

/-- A bss segment after `brk(2^64 - 2^21)`. -/
def highSegment : Slots := [none, some ⟨0x600000, 0xffffffffffe00000, false⟩]

/-- A read-only segment behind one that holds it. -/
def hiddenSegment : Slots := [some ⟨0x400000, 0x800000, false⟩, some ⟨0x500000, 0x600000, true⟩]

/-- **A range that wraps is accepted**, and so is a write over a read-only segment that is hidden. -/
theorem okaddr_accepts : ¬Exact highSegment 0xffffffffffdffff0 0x400000 false ∧
    ¬Exact hiddenSegment 0x500000 16 true := by
  constructor
  · intro h
    have hseg : seg highSegment 0xffffffffffdffff0 = some ⟨0x600000, 0xffffffffffe00000, false⟩ := by decide
    obtain ⟨⟨s, -, -, hlt⟩, -⟩ := h.ok_of_within (y := 2 ^ 64) (by decide) hseg rfl (by decide)
      (.inr ⟨by decide, by decide⟩)
    have htop := s.top.toNat_lt
    omega
  · intro h
    have hseg : seg hiddenSegment 0x500000 = some ⟨0x400000, 0x800000, false⟩ := by decide
    obtain ⟨-, hro⟩ := h.ok_of_within (y := 0x500000) (by decide) hseg rfl (by decide) (.inl (by decide))
    exact absurd (hro rfl ⟨0x500000, 0x600000, true⟩ (by decide) (by decide) (by decide)) (by decide)

def PGSZ : Nat := 4096

/-- `ROUNDUP(a, PGSZ)` of a `uintptr` -/
def ROUNDUP (a : Nat) : Nat := (a + (PGSZ - 1)) % 2 ^ 64 / PGSZ * PGSZ

def KZERO : Nat := 0xfffffffff0000000

/-- `memchr` of the memory from `a` on. -/
def memchr (mem : Nat → UInt8) (a : Nat) (c : UInt8) (n : Nat) : Option Nat :=
  ((List.range n).find? fun i => mem ((a + i) % 2 ^ 64) == c).map fun i => (a + i) % 2 ^ 64

abbrev Mem := Nat → UInt8

/-- The loop of `vmemchr`: the addresses that `validaddr` is called with, and what is returned.  The
last length is an `int` that `memchr` takes for a `ulong`. -/
def Mem.vmemchrLoop (mem : Mem) (c : UInt8) (e a : Nat) (n : Int) (calls : List Nat) :
    Option (List Nat × Option Nat) :=
  if ROUNDUP a ≠ e then
    -- spans pages; handle this page
    let m := PGSZ - a % PGSZ
    match memchr mem a c m with
    | some t => some (calls, some t)
    | none =>
      let a := (a + m) % 2 ^ 64
      mem |>.vmemchrLoop c e a (n - m) (if a &&& KZERO ≠ KZERO then calls ++ [a] else calls)
  else some (calls, memchr mem a c (n % 2 ^ 32).toNat)
partial_fixpoint

export Mem (vmemchrLoop)

/-- `vmemchr`.  The calls of `validaddr` are taken to return, as they do unless the process ends. -/
def vmemchr (mem : Nat → UInt8) (s : Nat) (c : UInt8) (n : Int) : Option (List Nat × Option Nat) :=
  vmemchrLoop mem c (ROUNDUP (s + n - 1).toNat) s n []

/-- The first place of `c` in `[s, e)`. -/
def First (mem : Nat → UInt8) (c : UInt8) (s e : Nat) (r : Option Nat) : Prop :=
  match r with
  | none => ∀ x, s ≤ x → x < e → mem x ≠ c
  | some t => s ≤ t ∧ t < e ∧ mem t = c ∧ ∀ x, s ≤ x → x < t → mem x ≠ c

/-- `validaddr` is called for pages only that have a byte of `[s, e)`. -/
def Within (s e : Nat) (calls : List Nat) : Prop :=
  ∀ a ∈ calls, ∃ x, s ≤ x ∧ x < e ∧ x / PGSZ = a / PGSZ

/-- `vmemchr` returns the first place in the `n` bytes, and has pages of these checked only. -/
def Searches (mem : Nat → UInt8) (s : Nat) (c : UInt8) (n : Nat) : Prop :=
  ∃ calls r, vmemchr mem s c n = some (calls, r) ∧ First mem c s (s + n) r ∧ Within s (s + n) calls

/-- Where the page of the last byte begins. -/
def lastPage (s n : Nat) : Nat := (s + n - 1) / PGSZ * PGSZ

/-- The page of the last byte begins at a byte before it. -/
def Overruns (s n : Nat) : Prop := s ≤ lastPage s n ∧ lastPage s n < s + n - 1

/-- What is searched behind the bytes has no `c`, and lies in the kernel: the rest of the last page,
and from the next page on as many bytes as a negative `int` makes as a `ulong`. -/
def Unharmed (mem : Nat → UInt8) (s : Nat) (c : UInt8) (n : Nat) : Prop :=
  let e := lastPage s n + PGSZ
  (e % 2 ^ 64) &&& KZERO = KZERO ∧ (∀ x, s + n ≤ x → x < e → mem x ≠ c) ∧
    ∀ i < (((s + n : Nat) - e : Int) % 2 ^ 32).toNat, mem ((e + i) % 2 ^ 64) ≠ c

section

variable {mem : Nat → UInt8} {c : UInt8} {s E a n : Nat} {r : Option Nat} {calls : List Nat}

theorem memchr_none : memchr mem a c n = none ↔ ∀ i < n, mem ((a + i) % 2 ^ 64) ≠ c := by
  simp [memchr, List.find?_eq_none]

theorem memchr_some {t : Nat} (h : memchr mem a c n = some t) :
    ∃ i < n, t = (a + i) % 2 ^ 64 ∧ mem t = c ∧ ∀ j < i, mem ((a + j) % 2 ^ 64) ≠ c := by
  obtain ⟨i, hfind, rfl⟩ := Option.map_eq_some_iff.mp h
  obtain ⟨hi, hmem, hbefore⟩ := List.find?_range_eq_some.mp hfind
  refine ⟨i, mem_range.mp hmem, rfl, eq_of_beq hi, fun j hj heq => ?_⟩
  have hnot := hbefore j hj
  rw [heq] at hnot
  simp at hnot

/-- `memchr` in a part that ends in the address space finds the first place. -/
theorem memchr_first (hfit : a + n ≤ 2 ^ 64) : First mem c a (a + n) (memchr mem a c n) := by
  have hmod : ∀ i < n, (a + i) % 2 ^ 64 = a + i := fun i hi => Nat.mod_eq_of_lt (by omega)
  cases hfind : memchr mem a c n with
  | none =>
    intro x hle hlt
    have hne := memchr_none.mp hfind (x - a) (by omega)
    rwa [hmod _ (by omega), Nat.add_sub_cancel' hle] at hne
  | some t =>
    obtain ⟨i, hi, rfl, hmem, hbefore⟩ := memchr_some hfind
    rw [hmod i hi] at hmem ⊢
    refine ⟨Nat.le_add_right a i, Nat.add_lt_add_left hi a, hmem, fun x hle hlt => ?_⟩
    have hne := hbefore (x - a) (by omega)
    rwa [hmod _ (by omega), Nat.add_sub_cancel' hle] at hne

/-- What has been searched in vain does not matter. -/
theorem First.extend {e : Nat} (h : First mem c a e r) (hsa : s ≤ a)
    (hbefore : ∀ x, s ≤ x → x < a → mem x ≠ c) : First mem c s e r := by
  cases r with
  | none =>
    intro x h1 h2
    by_cases hx : x < a
    · exact hbefore x h1 hx
    · exact h x (by omega) h2
  | some t =>
    obtain ⟨hle, hlt, hmem, hfirst⟩ := h
    refine ⟨by omega, hlt, hmem, fun x h1 h2 => ?_⟩
    by_cases hx : x < a
    · exact hbefore x h1 hx
    · exact hfirst x (by omega) h2

/-- The page that an address rounds up to, but for the top of the address space. -/
theorem roundup_eq (a : Nat) : ROUNDUP a = (a + 4095) / 4096 * 4096 % 2 ^ 64 := by
  have hp : PGSZ = 4096 := rfl
  rw [ROUNDUP, hp]
  omega

/-- The turn of the loop whose page is the last one ends the search there. -/
theorem roundup_last (hE : a < E) (hfit : E ≤ 2 ^ 64) (hint : E - a < 2 ^ 31) :
    ROUNDUP a = ROUNDUP (E - 1) ↔ (a + 4095) / 4096 = (E - 1 + 4095) / 4096 := by
  rw [roundup_eq, roundup_eq]
  omega

/-- How the search may end: well, or behind the last byte. -/
def Ends (mem : Nat → UInt8) (c : UInt8) (s E : Nat) (calls : List Nat) (r : Option Nat) : Prop :=
  (First mem c s E r ∧ Within s E calls ∧ (Overruns s (E - s) → ∃ x, s ≤ x ∧ x < E ∧ mem x = c)) ∨
    (Overruns s (E - s) ∧ (∀ x, s ≤ x → x < E → mem x ≠ c) ∧
      (First mem c s E r ∧ Within s E calls ↔ Unharmed mem s c (E - s)))

/-- The page that is searched whole though the bytes end in it. -/
theorem vmemchrLoop_overrun (hsa : s ≤ a) (haE : a + 1 < E) (hEa : E ≤ a + 4096) (hfit : E ≤ 2 ^ 64)
    (hpage : a % 4096 = 0) (hbefore : ∀ x, s ≤ x → x < a → mem x ≠ c) (hcalls : Within s E calls)
    (hint : E - s < 2 ^ 31) :
    ∃ calls' r, vmemchrLoop mem c (ROUNDUP (E - 1)) a (E - a : Nat) calls = some (calls', r) ∧
      Ends mem c s E calls' r := by
  have hp : PGSZ = 4096 := rfl
  have hlast : lastPage s (E - s) = a := by
    rw [lastPage, hp]
    omega
  have hover : Overruns s (E - s) := by
    rw [Overruns, hlast]
    omega
  have hend : s + (E - s) = E := by omega
  have hne : ROUNDUP a ≠ ROUNDUP (E - 1) := by
    rw [ne_eq, roundup_last (by omega) hfit (by omega)]
    omega
  rw [vmemchrLoop, if_pos hne]
  -- a variable, for `memchr` of a literal would be computed
  obtain ⟨m, hm⟩ : ∃ m, m = PGSZ - a % PGSZ := ⟨_, rfl⟩
  have hm' : m = 4096 := by rw [hm, hp, hpage]
  have hfirst : First mem c a (a + m) (memchr mem a c m) := memchr_first (by omega)
  simp only [← hm]
  cases hfind : memchr mem a c m with
  | some t =>
    rw [hfind] at hfirst
    refine ⟨calls, some t, rfl, ?_⟩
    obtain ⟨hle, hlt, hmem, hnone⟩ := First.extend hfirst hsa hbefore
    by_cases ht : t < E
    · exact .inl ⟨⟨hle, ht, hmem, hnone⟩, hcalls, fun _ => ⟨t, hle, ht, hmem⟩⟩
    · refine .inr ⟨hover, fun x h1 h2 => hnone x h1 (by omega), ?_⟩
      refine iff_of_false (fun h => ht h.1.2.1) fun h => ?_
      rw [Unharmed, hlast, hend, hp] at h
      exact h.2.1 t (by omega) (by omega) hmem
  | none =>
    rw [hfind] at hfirst
    have hnone : ∀ x, s ≤ x → x < a + m → mem x ≠ c := First.extend hfirst hsa hbefore
    have hagain : ROUNDUP ((a + m) % 2 ^ 64) = ROUNDUP (E - 1) := by
      rw [roundup_eq, roundup_eq]
      omega
    change ∃ calls' r, vmemchrLoop mem c (ROUNDUP (E - 1)) ((a + m) % 2 ^ 64) _ _ = _ ∧ _
    rw [vmemchrLoop, if_neg (not_not_intro hagain)]
    have hin : ∀ x, s ≤ x → x < E → mem x ≠ c := fun x h1 h2 => hnone x h1 (by omega)
    refine ⟨_, _, rfl, .inr ⟨hover, hin, ?_⟩⟩
    rw [Unharmed, hlast, hend, hp, ← hm']
    by_cases hker : (a + m) % 2 ^ 64 &&& KZERO = KZERO
    · rw [if_neg (not_not_intro hker)]
      have hle : (a + m) % 2 ^ 64 &&& KZERO ≤ (a + m) % 2 ^ 64 := Nat.and_le_left
      rw [hker, KZERO] at hle
      refine ⟨fun h => ⟨hker, fun x h1 h2 => hnone x (by omega) h2, fun i hi => ?_⟩, fun h => ⟨?_, hcalls⟩⟩
      · have hr := h.1
        cases hrest : memchr mem ((a + m) % 2 ^ 64) c (((E - a : Nat) - (m : Int)) % 2 ^ 32).toNat with
        | none =>
          have hne := memchr_none.mp hrest i (by omega)
          rwa [Nat.mod_add_mod] at hne
        | some t =>
          rw [hrest] at hr
          exact absurd hr.2.2.1 (hin t hr.1 hr.2.1)
      · rw [memchr_none.mpr fun i hi => ?_]
        · exact hin
        · rw [Nat.mod_add_mod]
          exact h.2.2 i (by omega)
    · rw [if_pos hker]
      refine iff_of_false (fun h => ?_) fun h => hker h.1
      obtain ⟨x, h1, h2, hx⟩ := h.2 _ (mem_append_right calls (mem_singleton_self _))
      rw [hp] at hx
      omega

/-- The loop ends, as `Ends` says. -/
theorem vmemchrLoop_spec (hsa : s ≤ a) (haE : a < E) (hfit : E ≤ 2 ^ 64) (hal : a = s ∨ a % 4096 = 0)
    (hbefore : ∀ x, s ≤ x → x < a → mem x ≠ c) (hcalls : Within s E calls) (hint : E - s < 2 ^ 31) :
    ∃ calls' r, vmemchrLoop mem c (ROUNDUP (E - 1)) a (E - a : Nat) calls = some (calls', r) ∧
      Ends mem c s E calls' r := by
  have hp : PGSZ = 4096 := rfl
  induction hm : E - a using Nat.strong_induction_on generalizing a calls with
  | _ m ih =>
    by_cases hround : ROUNDUP a = ROUNDUP (E - 1)
    · -- fits in one page
      rw [vmemchrLoop, if_neg (not_not_intro hround)]
      rw [roundup_last haE hfit (by omega)] at hround
      have hlen : (((m : Nat) : Int) % 2 ^ 32).toNat = E - a := by omega
      rw [hlen]
      have hfirst : First mem c a (a + (E - a)) (memchr mem a c (E - a)) := memchr_first (by omega)
      rw [Nat.add_sub_cancel' (Nat.le_of_lt haE)] at hfirst
      refine ⟨calls, _, rfl, .inl ⟨hfirst.extend hsa hbefore, hcalls, fun h => ?_⟩⟩
      rw [Overruns, lastPage, hp] at h
      omega
    · by_cases hnext : a + (4096 - a % 4096) < E
      · -- spans pages; handle this page
        have hfirst : First mem c a (a + (4096 - a % 4096)) (memchr mem a c (4096 - a % 4096)) :=
          memchr_first (by omega)
        rw [vmemchrLoop, if_pos hround]
        simp only [hp]
        cases hfind : memchr mem a c (4096 - a % 4096) with
        | some t =>
          rw [hfind] at hfirst
          obtain ⟨hle, hlt, hmem, hnone⟩ := First.extend hfirst hsa hbefore
          exact ⟨calls, some t, rfl, .inl ⟨⟨hle, by omega, hmem, hnone⟩, hcalls,
            fun _ => ⟨t, hle, by omega, hmem⟩⟩⟩
        | none =>
          rw [hfind] at hfirst
          have hmod : (a + (4096 - a % 4096)) % 2 ^ 64 = a + (4096 - a % 4096) :=
            Nat.mod_eq_of_lt (by omega)
          have hlen : (m : Int) - (4096 - a % 4096 : Nat) = (E - (a + (4096 - a % 4096)) : Nat) := by
            omega
          simp only [hmod, hlen]
          refine ih _ (by omega) (by omega) hnext (.inr (by omega))
            (First.extend hfirst hsa hbefore) ?_ rfl
          split
          · intro b hb
            rcases mem_append.mp hb with hb | hb
            · exact hcalls b hb
            · rw [mem_singleton.mp hb]
              exact ⟨_, by omega, hnext, rfl⟩
          · exact hcalls
      · rw [roundup_last haE hfit (by omega)] at hround
        rw [← hm]
        exact vmemchrLoop_overrun hsa (by omega) (by omega) hfit (by omega) hbefore hcalls hint

/-- A whole search ends, as `Ends` says. -/
theorem vmemchr_spec (mem : Nat → UInt8) (c : UInt8) (s n : Nat) (hn : 1 ≤ n) (hint : n < 2 ^ 31)
    (hfit : s + n ≤ 2 ^ 64) :
    ∃ calls r, vmemchr mem s c n = some (calls, r) ∧ Ends mem c s (s + n) calls r := by
  obtain ⟨calls, r, hrun, hends⟩ := @vmemchrLoop_spec mem c s (s + n) s [] (Nat.le_refl s) (by omega) hfit
    (.inl rfl) (fun x h1 h2 => absurd h1 (by omega)) (by simp [Within]) (by omega)
  refine ⟨calls, r, ?_, hends⟩
  rw [Nat.add_sub_cancel_left] at hrun
  have hlast : ((s : Int) + n - 1).toNat = s + n - 1 := by omega
  rw [vmemchr, hlast, hrun]

/-- What the one search does is whether it is right. -/
theorem searches_iff (h : vmemchr mem s c n = some (calls, r)) :
    Searches mem s c n ↔ First mem c s (s + n) r ∧ Within s (s + n) calls := by
  rw [Searches, h]
  refine ⟨fun ⟨calls', r', heq, hright⟩ => ?_, fun hright => ⟨calls, r, rfl, hright⟩⟩
  cases heq
  exact hright

end

/-- **`vmemchr` is `memchr` over pages just when it does not overrun the last one**: `c` is among the
bytes, or the page of the last byte does not begin at a byte before it, or what is searched behind
the bytes is the kernel's and has no `c`. -/
theorem vmemchr_iff (mem : Nat → UInt8) (c : UInt8) (s n : Nat) (hn : 1 ≤ n) (hint : n < 2 ^ 31)
    (hfit : s + n ≤ 2 ^ 64) :
    Searches mem s c n ↔ (∃ x, s ≤ x ∧ x < s + n ∧ mem x = c) ∨ ¬Overruns s n ∨ Unharmed mem s c n := by
  obtain ⟨calls, r, hrun, hends⟩ := vmemchr_spec mem c s n hn hint hfit
  rw [Ends, Nat.add_sub_cancel_left] at hends
  rw [searches_iff hrun]
  rcases hends with ⟨hfirst, hwithin, hfound⟩ | ⟨hover, hnone, hunharmed⟩
  · refine iff_of_true ⟨hfirst, hwithin⟩ ?_
    by_cases hover : Overruns s n
    · exact .inl (hfound hover)
    · exact .inr (.inl hover)
  · rw [hunharmed]
    refine ⟨fun h => .inr (.inr h), fun h => ?_⟩
    rcases h with ⟨x, h1, h2, hx⟩ | h | h
    · exact absurd hx (hnone x h1 h2)
    · exact absurd hover h
    · exact h

/-- Two bytes in the middle of a page, the first of them sought. -/
theorem vmemchr_iff_middle : Searches (fun _ => 0) 0x200010 0 2 :=
  (vmemchr_iff (fun _ => 0) 0 0x200010 2 (by decide) (by decide) (by decide)).mpr
    (.inl ⟨0x200010, by decide, by decide, rfl⟩)

/-- Two bytes at the start of a page, and the byte that is sought five bytes on: it is found. -/
theorem vmemchr_overrun : ¬Searches (fun x => if x = 0x200005 then 0 else 1) 0x200000 0 2 := by
  obtain ⟨calls, r, hrun, hends⟩ := vmemchr_spec (fun x => if x = 0x200005 then 0 else 1) 0 0x200000 2
    (by decide) (by decide) (by decide)
  rw [searches_iff hrun]
  rcases hends with ⟨-, -, hfound⟩ | ⟨-, -, hunharmed⟩
  · obtain ⟨x, h1, h2, hx⟩ := hfound ⟨by decide, by decide⟩
    dsimp only at hx
    rw [if_neg (show x ≠ 0x200005 by omega)] at hx
    exact absurd hx (by decide)
  · rw [hunharmed]
    exact fun h => h.2.1 0x200005 (by decide) (by decide) (if_pos rfl)

end UserAddr
