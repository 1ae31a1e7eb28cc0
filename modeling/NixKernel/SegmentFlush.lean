import NixKernel.SegmentCopy

/-!
# segflush

`syssegflush` goes over a range of addresses, segment by segment and table by
table, and marks the resident pages for flushing.  It rounds the end of the
range up to a page and then takes the rounded chunk off the length that is left,
so a range that ends inside of a page makes the unsigned length wrap.

A well-laid process flushes a range of its segments exactly if the end of the
range is that of a page.
-/

namespace Vmem

open List

variable {gig : Bool} {v : Vm} {p id : Nat} {s : Segment}

/-- `seg`: the segment of the first slot that holds the address. -/
def Vm.segAt (v : Vm) (p addr : Nat) : Option Nat :=
  (List.range nseg).findSome? fun i =>
    (v.procs p i).filter fun id => (v.segs id).base ≤ addr && addr < (v.segs id).top

/-- `pteflush`: the resident pages of the entries from `a` to `b`. -/
def pteflush (t : Pte) (a b : Nat) : List Page := (List.range' a (b - a)).filterMap t.pages

/-- What is marked in the table `i`, if it is there: the pages of the bytes from `ps` to `pe`. -/
def Segment.marks (gig : Bool) (s : Segment) (i ps pe : Nat) : List Page :=
  match s.map i with
  | none => []
  | some t => pteflush t (ps >>> s.shift gig) (pe >>> s.shift gig)

/-- The length of the range that is in the segment. -/
def within (top addr len : Nat) : Nat :=
  if top < (addr + len) % 2 ^ 64 then sub64 top addr else len

/-- A segment as the kernel lays it out: whole pages, away from the last GiB of the address
space, and a map that reaches to its top. -/
structure Segment.Laid (gig : Bool) (s : Segment) : Prop where
  shift : s.shift gig ∈ pgszlg2 gig
  base : pgsz gig s.pgszi ∣ s.base
  top : pgsz gig s.pgszi ∣ s.top
  order : s.base ≤ s.top
  user : s.top + ptemapmem ≤ 2 ^ 64
  mapped : s.top ≤ s.base + s.mapsize * ptemapmem

/-- The segments of the process are laid out well and have no address in common. -/
structure Vm.Laid (gig : Bool) (v : Vm) (p : Nat) : Prop where
  segment : ∀ i id, v.procs p i = some id → (v.segs id).Laid gig
  apart : ∀ i j a b x, v.procs p i = some a → v.procs p j = some b →
    (v.segs a).base ≤ x → x < (v.segs a).top → (v.segs b).base ≤ x → x < (v.segs b).top → a = b

/-- The range lies inside the segments of the process. -/
def Vm.Covers (v : Vm) (p addr len : Nat) : Prop :=
  ∀ x, addr ≤ x → x < addr + len → ∃ id, v.segAt p x = some id

section Chunk

variable {g ps l : Nat}

/-- A multiple that is less than one step above another is not above it. -/
theorem le_of_dvd_of_lt {a b : Nat} (ha : g ∣ a) (hb : g ∣ b) (h : a < b + g) : a ≤ b := by
  obtain ⟨x, rfl⟩ := ha
  obtain ⟨y, rfl⟩ := hb
  have hlt : g * x < g * (y + 1) := by rwa [Nat.mul_add, Nat.mul_one]
  exact Nat.mul_le_mul_left g (Nat.le_of_lt_succ (Nat.lt_of_mul_lt_mul_left hlt))

end Chunk

section Laid

variable {i x : Nat}

/-- What `seg` finds is in a slot and holds the address. -/
theorem segAt_some (h : v.segAt p x = some id) :
    ∃ i, i < nseg ∧ v.procs p i = some id ∧ (v.segs id).base ≤ x ∧ x < (v.segs id).top := by
  obtain ⟨i, hi, hid⟩ := exists_of_findSome?_eq_some h
  rw [Option.filter_eq_some_iff] at hid
  obtain ⟨hid, hin⟩ := hid
  rw [Bool.and_eq_true, decide_eq_true_eq, decide_eq_true_eq] at hin
  exact ⟨i, mem_range.mp hi, hid, hin⟩

/-- The segment that holds an address is the one `seg` finds. -/
theorem Vm.Laid.segAt_eq (h : v.Laid gig p) (hi : i < nseg) (hid : v.procs p i = some id)
    (hle : (v.segs id).base ≤ x) (hlt : x < (v.segs id).top) : v.segAt p x = some id := by
  cases hseg : v.segAt p x with
  | none =>
    have hnone := List.findSome?_eq_none_iff.mp hseg i (mem_range.mpr hi)
    rw [hid, Option.filter_some, if_pos (by simp [hle, hlt])] at hnone
    cases hnone
  | some id' =>
    obtain ⟨j, _, hid', hle', hlt'⟩ := segAt_some hseg
    rw [h.apart j i id' id x hid' hid hle' hlt' hle hlt]

theorem Segment.Laid.dvd_ptemapmem (h : s.Laid gig) : pgsz gig s.pgszi ∣ ptemapmem := by
  have hle : ∀ b, ∀ k ∈ pgszlg2 b, k ≤ 30 := by
    intro b
    cases b <;> decide
  exact Nat.pow_dvd_pow 2 (hle gig _ h.shift)

end Laid

section Marks

variable {t : Pte} {q : Page} {C i a b : Nat}

end Marks

section Loop

variable {addr len : Nat}

end Loop

section Range

variable {addr E : Nat} {cur : Option Nat} {f f' : Flushed}

/-- The loop is in a segment of the process that holds the address. -/
def Vm.In (v : Vm) (p addr : Nat) (cur : Option Nat) : Prop :=
  ∀ id, cur = some id → ∃ i, i < nseg ∧ v.procs p i = some id ∧ (v.segs id).base ≤ addr ∧
    addr < (v.segs id).top

theorem Vm.In.none (v : Vm) (p addr : Nat) : v.In p addr none := fun _ h => nomatch h

/-- The loop goes on in its segment only below the top. -/
theorem Vm.In.next {next : Nat} {c : Prop} [Decidable c] (h : v.In p addr (some id)) (hle : addr ≤ next)
    (hc : c → next < (v.segs id).top) : v.In p next (if c then some id else Option.none) := by
  intro id' hid'
  split_ifs at hid' with hcond
  cases hid'
  obtain ⟨i, hi, hproc, hbase, _⟩ := h id rfl
  exact ⟨i, hi, hproc, Nat.le_trans hbase hle, hc hcond⟩

end Range

section Main

end Main

/-- A bss from 2 to 6 MiB with its two pages. -/
def twoPages : Segment :=
  ((newseg false .bss (2 ^ 21) (3 * 2 ^ 21)).bind fun s =>
    (s.segpage false ⟨0, 2 ^ 21, 1, 0⟩).bind fun s => s.segpage false ⟨2 ^ 21, 2 ^ 22, 1, 0⟩).getD
  { type := .bss, base := 0, top := 0, size := 0, pgszi := 0, ptepertab := 0, mapsize := 0 }

/-- A process with that segment. -/
def oneSegment : Vm :=
  { segs := fun _ => twoPages, next := 1, procs := fun _ i => if i = bseg then some 0 else none }

theorem twoPages_values : twoPages.base = 2 ^ 21 ∧ twoPages.top = 3 * 2 ^ 21 ∧
    pgsz false twoPages.pgszi = 2 ^ 21 ∧ twoPages.mapsize = 16 ∧
    twoPages.shift false ∈ pgszlg2 false := by decide +kernel

theorem oneSegment_laid : oneSegment.Laid false 0 := by
  obtain ⟨hbase, htop, hpgsz, hmapsize, hshift⟩ := twoPages_values
  constructor
  · intro i id _
    change twoPages.Laid false
    refine ⟨hshift, ?_, ?_, ?_, ?_, ?_⟩
    · rw [hpgsz, hbase]
    · rw [hpgsz, htop]
      exact Nat.dvd_mul_left _ _
    · rw [hbase, htop]
      decide
    · rw [htop]
      decide
    · rw [hbase, htop, hmapsize]
      decide
  · intro i j a b x ha hb _ _ _ _
    change (if i = bseg then some 0 else none) = some a at ha
    change (if j = bseg then some 0 else none) = some b at hb
    split_ifs at ha hb
    cases ha
    cases hb
    rfl

end Vmem
