import NixKernel.StreamRing
import NixKernel.StepSystem

/-!
# The staging ring of the keyboard: `kbdputc`, `kbdcr2nl` and `kbdputcclock`

Interrupts put characters into `kbd.istage`, a byte at a time and one caller after another, for they
hold `kbd.lockputc`.  The clock takes the bytes out and hands them to `echo`, in one piece or two; it
holds no lock, and there is one clock.  Every step of either is a step of the system: the look at
`kbd.ir`, the store, the move of `kbd.iw`, and each byte that `echo` takes from the ring.

`kbdputc` stops at the first byte of a character that finds no room.  The bytes before it stay.
`runetochar` is that of the library.
-/

namespace KbdStage

open List Option
open Function (update)
open StreamRing (next)

/-- `sizeof(kbd.istage)`. -/
def sizeofStage : Nat := 1024

/-- What is put: a rune by `kbdputc`, a byte by `kbdcr2nl`. -/
inductive Put
  | rune (ch : Int)
  | byte (ch : UInt8)
  deriving DecidableEq

/-- What the lock's holder does next: look for room, store at `kbd.iw`, or move `kbd.iw`. -/
inductive PutPc
  | room
  | store (next : Nat)
  | advance (next : Nat)

/-- The holder of `kbd.lockputc`: what it puts, and how many bytes of it are in the ring. -/
structure Putter where
  put : Put
  i : Nat
  pc : PutPc

/-- Where `kbdputcclock` is: with its `iw`, and the byte that `echo` takes next. -/
inductive Clock
  | idle
  | entered
  | first (iw p : Nat)
  | between (iw : Nat)
  | second (iw p : Nat)
  deriving DecidableEq

/-- The ring and those who use it, what has been put, what of it found room, and what `echo` has got. -/
structure Sys where
  istage : Nat → UInt8
  iw : Nat
  ir : Nat
  raw : Bool
  putter : Option Putter
  clock : Clock
  puts : List Put
  kept : List Put
  echoed : List UInt8

inductive Op
  | kbdputc (ch : Int)
  | kbdcr2nl (ch : Int)
  | setraw (raw : Bool)
  /-- A step of the lock's holder. -/
  | putter
  | kbdputcclock

section model

variable (runetochar : Int → List UInt8)

/-- The encoding. -/
def Put.bytes : Put → List UInt8
  | .rune ch => runetochar ch
  | .byte ch => [ch]

/-- A caller gets the lock. -/
def Sys.lock (s : Sys) (c : Put) : Option Sys :=
  match s.putter with
  | some _ => none
  | none => some { s with putter := some ⟨c, 0, .room⟩, puts := s.puts ++ [c] }

/-- "if(ch == '\r' && !kbd.raw) ch = '\n';" -/
def Sys.cr2nl (s : Sys) (ch : Int) : Put := .byte (UInt8.ofInt (if ch = 13 ∧ s.raw = false then 10 else ch))

/-- A step of the loop over the bytes. -/
def Sys.stepPutter (s : Sys) (w : Putter) : Sys :=
  match w.pc with
  | .room =>
    if w.i < (w.put.bytes runetochar).length then
      let n := next sizeofStage s.iw
      -- the rest of the character is dropped
      if n = s.ir then { s with putter := none }
      else { s with putter := some { w with pc := .store n } }
    else { s with putter := none, kept := s.kept ++ [w.put] }
  | .store n =>
    { s with
      istage := update s.istage s.iw ((w.put.bytes runetochar).getD w.i 0)
      putter := some { w with pc := .advance n } }
  | .advance n => { s with iw := n, putter := some { w with i := w.i + 1, pc := .room } }

/-- A step of `kbdputcclock`. -/
def Sys.stepClock (s : Sys) : Sys :=
  match s.clock with
  | .idle => if s.iw ≠ s.ir then { s with clock := .entered } else s
  | .entered => { s with clock := if s.iw < s.ir then .first s.iw s.ir else .between s.iw }
  | .first iw p =>
    if p < sizeofStage then { s with echoed := s.echoed ++ [s.istage p], clock := .first iw (p + 1) }
    else { s with ir := 0, clock := .between iw }
  | .between iw => { s with clock := if s.ir ≠ iw then .second iw s.ir else .idle }
  | .second iw p =>
    if p < iw then { s with echoed := s.echoed ++ [s.istage p], clock := .second iw (p + 1) }
    else { s with ir := iw, clock := .idle }

def act (s : Sys) : Op → Option Sys
  | .kbdputc ch => s.lock (.rune ch)
  | .kbdcr2nl ch => s.lock (s.cr2nl ch)
  | .setraw raw => some { s with raw }
  | .putter => s.putter.map (s.stepPutter runetochar)
  | .kbdputcclock => some s.stepClock

/-- The ring as the kernel starts with it. -/
structure Start (s : Sys) : Prop where
  iw : s.iw = 0
  ir : s.ir = 0
  putter : s.putter = none
  clock : s.clock = .idle
  puts : s.puts = []
  kept : s.kept = []
  echoed : s.echoed = []

abbrev Reach : Sys → Prop := StepSystem.Reach Start fun s op t => act runetochar s op = some t

/-- The encodings of characters. -/
def text (l : List Put) : List UInt8 := l.flatMap (Put.bytes runetochar)

/-- All that was put has been handed to `echo`. -/
def Drained (s : Sys) : Prop := s.putter = none ∧ s.clock = .idle ∧ s.iw = s.ir

/-- The characters that found room, with that which is under way. -/
def Sys.coming (s : Sys) : List Put := s.kept ++ (s.putter.map Putter.put).toList

/-- **Characters are handed on whole**: what `echo` has got is the beginning of the encodings of the
characters that found room, in order, and all of that when the ring is empty and at rest. -/
structure Whole (s : Sys) : Prop where
  some_kept : s.kept.Sublist s.puts
  echoed : s.echoed <+: text runetochar s.coming
  drained : Drained s → s.echoed = text runetochar s.kept

/-- A byte after the first of its character finds no room. -/
def Cut (s : Sys) : Op → Prop
  | .putter => ∃ w ∈ s.putter, w.pc matches .room ∧ 0 < w.i ∧
      w.i < (w.put.bytes runetochar).length ∧ next sizeofStage s.iw = s.ir
  | _ => False

/-- The runs that cut no character. -/
abbrev ReachUncut : Sys → Prop :=
  StepSystem.Reach Start fun s op t => ¬Cut runetochar s op ∧ act runetochar s op = some t

/-- What the clock has on hand: of the stream `r` bytes are let go of, `c` handed on, and it goes on
to a place that the stream has reached. -/
def Passing (r c len : Nat) : Clock → Prop
  | .idle | .entered => c = r
  | .first iw p => ∃ k, k ≤ len ∧ iw = k % sizeofStage ∧ k / sizeofStage = r / sizeofStage + 1 ∧
      r % sizeofStage ≤ p ∧ p ≤ sizeofStage ∧ c = r + (p - r % sizeofStage)
  | .between iw => c = r ∧ ∃ k, k ≤ len ∧ iw = k % sizeofStage ∧ k / sizeofStage = r / sizeofStage ∧ r ≤ k
  | .second iw p => ∃ k, k ≤ len ∧ iw = k % sizeofStage ∧ k / sizeofStage = r / sizeofStage ∧
      r % sizeofStage ≤ p ∧ p ≤ iw ∧ c = r + (p - r % sizeofStage)

/-- The ring has the stream `S` of the bytes that were put. -/
structure Staged (s : Sys) (S : List UInt8) (r c : Nat) : Prop where
  holds : StreamRing.Holds sizeofStage s.istage S r
  iw : s.iw = S.length % sizeofStage
  ir : s.ir = r % sizeofStage
  handed : c ≤ S.length
  echoed : s.echoed = S.take c
  passing : Passing r c S.length s.clock

/-- What the lock's holder has found: room behind `kbd.iw`, and there its byte. -/
def Finds (s : Sys) (len r : Nat) (w : Putter) : Prop :=
  w.i ≤ (w.put.bytes runetochar).length ∧
  match w.pc with
  | .room => True
  | .store n => w.i < (w.put.bytes runetochar).length ∧ n = next sizeofStage s.iw ∧
      len + 1 < r + sizeofStage
  | .advance n => w.i < (w.put.bytes runetochar).length ∧ n = next sizeofStage s.iw ∧
      len + 1 < r + sizeofStage ∧ s.istage s.iw = (w.put.bytes runetochar).getD w.i 0

/-- The bytes in the ring of the character that is under way. -/
def Sys.begun (s : Sys) : List UInt8 :=
  s.putter.elim [] fun w => (w.put.bytes runetochar).take w.i

/-- The stream is that of the characters that found room. -/
def Inv (s : Sys) : Prop :=
  ∃ S r c, Staged s S r c ∧ (∀ w ∈ s.putter, Finds runetochar s S.length r w) ∧
    S = text runetochar s.kept ++ s.begun runetochar ∧ s.coming.Sublist s.puts

end model

section proofs

variable {runetochar : Int → List UInt8} {s t : Sys} {S : List UInt8} {r c : Nat} {op : Op} {w : Putter}

theorem size_eq : sizeofStage = 1024 := rfl

theorem text_append (l l' : List Put) : text runetochar (l ++ l') = text runetochar l ++ text runetochar l' :=
  flatMap_append

theorem text_singleton (c : Put) : text runetochar [c] = c.bytes runetochar := flatMap_singleton _ _

theorem Passing.mono {clock : Clock} {len len' : Nat} (h : Passing r c len clock) (hle : len ≤ len') :
    Passing r c len' clock := by
  cases clock with
  | idle => exact h
  | entered => exact h
  | first iw p | second iw p =>
    obtain ⟨k, hk, hrest⟩ := h
    exact ⟨k, Nat.le_trans hk hle, hrest⟩
  | between iw =>
    obtain ⟨hc, k, hk, hrest⟩ := h
    exact ⟨hc, k, Nat.le_trans hk hle, hrest⟩

theorem start_inv (h : Start s) : Inv runetochar s := by
  refine ⟨[], 0, 0, ⟨⟨Nat.le_refl _, by decide, fun j x _ hx => by cases hx⟩, h.iw, h.ir, Nat.le_refl _,
    h.echoed, by rw [h.clock]; rfl⟩, fun w hw => ?_, ?_, ?_⟩
  · rw [h.putter] at hw
    cases hw
  · rw [Sys.begun, h.putter, h.kept]
    rfl
  · rw [Sys.coming, h.putter, h.kept]
    exact nil_sublist _

/-- **A step of the clock** leaves the stream, and hands on the next byte of it or none. -/
theorem Staged.stepClock (h : Staged s S r c) : ∃ r' c', r ≤ r' ∧ Staged s.stepClock S r' c' := by
  have hiw := h.iw
  have hir := h.ir
  have hpass := h.passing
  have hle := h.holds.le
  have hroom := h.holds.room
  have hhanded := h.handed
  rw [size_eq] at hiw hir hroom
  rw [Sys.stepClock]
  cases hclock : s.clock with
  | idle =>
    rw [hclock] at hpass
    dsimp only
    split
    · exact ⟨r, c, Nat.le_refl r, h.holds, h.iw, h.ir, h.handed, h.echoed, hpass⟩
    · exact ⟨r, c, Nat.le_refl r, h⟩
  | entered =>
    rw [hclock] at hpass
    change c = r at hpass
    refine ⟨r, c, Nat.le_refl r, h.holds, h.iw, h.ir, h.handed, h.echoed, ?_⟩
    change Passing r c S.length (if s.iw < s.ir then .first s.iw s.ir else .between s.iw)
    split
    · refine ⟨S.length, Nat.le_refl _, h.iw, ?_, ?_, ?_, ?_⟩ <;> rw [size_eq] <;> omega
    · refine ⟨hpass, S.length, Nat.le_refl _, h.iw, ?_, hle⟩
      rw [size_eq]
      omega
  | first iw p =>
    rw [hclock] at hpass
    obtain ⟨k, hk, hiwk, hdiv, hlo, hhi, hc⟩ := hpass
    rw [size_eq] at hiwk hdiv hlo hhi hc
    dsimp only
    split
    · rename_i hlt
      rw [size_eq] at hlt
      have hnext := h.holds.take_succ (show r ≤ c by omega) (show c < S.length by omega)
      have hcell : c % sizeofStage = p := by
        rw [size_eq]
        omega
      rw [hcell] at hnext
      refine ⟨r, c + 1, Nat.le_refl r, h.holds, h.iw, h.ir, by omega, ?_, k, hk, hiwk, hdiv, ?_, ?_, ?_⟩
      · rw [hnext, ← h.echoed]
      · rw [size_eq]
        omega
      · exact hlt
      · rw [size_eq]
        omega
    · rename_i hge
      rw [size_eq] at hge
      refine ⟨c, c, by omega, h.holds.release (by omega) h.handed, h.iw, ?_, h.handed, h.echoed, rfl, k, hk,
        hiwk, ?_, ?_⟩
      · change 0 = c % sizeofStage
        rw [size_eq]
        omega
      · rw [size_eq]
        omega
      · omega
  | between iw =>
    rw [hclock] at hpass
    obtain ⟨hc, k, hk, hiwk, hdiv, hrk⟩ := hpass
    rw [size_eq] at hiwk hdiv
    refine ⟨r, c, Nat.le_refl r, h.holds, h.iw, h.ir, h.handed, h.echoed, ?_⟩
    change Passing r c S.length (if s.ir ≠ iw then .second iw s.ir else .idle)
    split
    · refine ⟨k, hk, hiwk, hdiv, ?_, ?_, ?_⟩
      · exact Nat.le_of_eq h.ir.symm
      · omega
      · rw [size_eq]
        omega
    · exact hc
  | second iw p =>
    rw [hclock] at hpass
    obtain ⟨k, hk, hiwk, hdiv, hlo, hhi, hc⟩ := hpass
    rw [size_eq] at hiwk hdiv hlo hc
    dsimp only
    split
    · rename_i hlt
      have hnext := h.holds.take_succ (show r ≤ c by omega) (show c < S.length by omega)
      have hcell : c % sizeofStage = p := by
        rw [size_eq]
        omega
      rw [hcell] at hnext
      refine ⟨r, c + 1, Nat.le_refl r, h.holds, h.iw, h.ir, by omega, ?_, k, hk, hiwk, hdiv, ?_, hlt, ?_⟩
      · rw [hnext, ← h.echoed]
      · rw [size_eq]
        omega
      · rw [size_eq]
        omega
    · rename_i hge
      refine ⟨c, c, by omega, h.holds.release (by omega) h.handed, h.iw, ?_, h.handed, h.echoed, rfl⟩
      change iw = c % sizeofStage
      rw [size_eq]
      omega

/-- What the clock does not touch. -/
theorem stepClock_keeps (s : Sys) : s.stepClock.iw = s.iw ∧ s.stepClock.istage = s.istage ∧
    s.stepClock.putter = s.putter ∧ s.stepClock.kept = s.kept ∧ s.stepClock.puts = s.puts := by
  rw [Sys.stepClock]
  cases s.clock with
  | idle | first iw p | second iw p => dsimp only; split <;> exact ⟨rfl, rfl, rfl, rfl, rfl⟩
  | entered | between iw => exact ⟨rfl, rfl, rfl, rfl, rfl⟩

/-- More room, and the same ring: what has been found is still so. -/
theorem Finds.congr {len r' : Nat} (h : Finds runetochar s len r w) (hiw : t.iw = s.iw)
    (histage : t.istage = s.istage) (hle : r ≤ r') : Finds runetochar t len r' w := by
  rw [Finds] at h ⊢
  rw [hiw, histage]
  refine ⟨h.1, ?_⟩
  cases hpc : w.pc with
  | room => trivial
  | store n =>
    rw [hpc] at h
    obtain ⟨_, hlt, hn, hroom⟩ := h
    exact ⟨hlt, hn, by omega⟩
  | advance n =>
    rw [hpc] at h
    obtain ⟨_, hlt, hn, hroom, hbyte⟩ := h
    exact ⟨hlt, hn, by omega, hbyte⟩

theorem Inv.stepClock (h : Inv runetochar s) : Inv runetochar s.stepClock := by
  obtain ⟨S, r, c, hstaged, hfinds, htext, hsub⟩ := h
  obtain ⟨r', c', hle, hstaged'⟩ := hstaged.stepClock
  obtain ⟨hiw, histage, hputter, hkept, hputs⟩ := stepClock_keeps s
  refine ⟨S, r', c', hstaged', fun w hw => ?_, ?_, ?_⟩
  · rw [hputter] at hw
    exact (hfinds w hw).congr hiw histage hle
  · rw [hkept, Sys.begun, hputter]
    exact htext
  · rw [Sys.coming, hkept, hputter, hputs]
    exact hsub

/-- The ring has the stream whatever is put next. -/
theorem Staged.keep (h : Staged s S r c) (raw : Bool) (putter : Option Putter) (puts kept : List Put) :
    Staged { s with raw, putter, puts, kept } S r c :=
  { h with }

theorem Inv.lock {put : Put} (h : Inv runetochar s) (hlock : s.lock put = some t) : Inv runetochar t := by
  obtain ⟨S, r, c, hstaged, hfinds, htext, hsub⟩ := h
  rw [Sys.lock] at hlock
  cases hputter : s.putter with
  | some w =>
    rw [hputter] at hlock
    cases hlock
  | none =>
    rw [hputter] at hlock
    cases hlock
    refine ⟨S, r, c, hstaged.keep _ _ _ _, fun w hw => ?_, ?_, ?_⟩
    · cases hw
      exact ⟨Nat.zero_le _, trivial⟩
    · rw [Sys.begun, hputter] at htext
      exact htext
    · rw [Sys.coming, hputter, map_none, toList_none, append_nil] at hsub
      exact hsub.append (List.Sublist.refl [put])

/-- **A step of the lock's holder** that cuts no character. -/
theorem Inv.stepPutter (h : Inv runetochar s) (hw : s.putter = some w) (huncut : ¬Cut runetochar s .putter) :
    Inv runetochar (s.stepPutter runetochar w) := by
  obtain ⟨S, r, c, hstaged, hfinds, htext, hsub⟩ := h
  obtain ⟨hi, hfound⟩ := hfinds w hw
  rw [Sys.begun, hw, elim_some] at htext
  rw [Sys.coming, hw, map_some, toList_some] at hsub
  rw [Sys.stepPutter]
  cases hpc : w.pc with
  | room =>
    dsimp only
    by_cases hlt : w.i < (w.put.bytes runetochar).length
    · rw [if_pos hlt]
      by_cases hfull : next sizeofStage s.iw = s.ir
      · -- dropped, with nothing of it in the ring
        have hzero : w.i = 0 := by
          by_contra hne
          exact huncut ⟨w, hw, by rw [hpc], Nat.pos_of_ne_zero hne, hlt, hfull⟩
        rw [if_pos hfull]
        rw [hzero, take_zero] at htext
        refine ⟨S, r, c, hstaged.keep _ _ _ _, fun w' hw' => (by cases hw'), htext, ?_⟩
        change (s.kept ++ []).Sublist s.puts
        rw [append_nil]
        exact (sublist_append_left _ _).trans hsub
      · rw [if_neg hfull]
        refine ⟨S, r, c, hstaged.keep _ _ _ _, fun w' hw' => ?_, htext, hsub⟩
        cases hw'
        have hroom := hstaged.holds.room
        rw [hstaged.iw, hstaged.ir, hstaged.holds.full_iff] at hfull
        exact ⟨hi, hlt, rfl, by omega⟩
    · rw [if_neg hlt]
      rw [take_of_length_le (Nat.le_of_not_lt hlt)] at htext
      refine ⟨S, r, c, hstaged.keep _ _ _ _, fun w' hw' => (by cases hw'), ?_, ?_⟩
      · change S = text runetochar (s.kept ++ [w.put]) ++ []
        rw [text_append, text_singleton, append_nil]
        exact htext
      · change ((s.kept ++ [w.put]) ++ []).Sublist s.puts
        rwa [append_nil]
  | store n =>
    rw [hpc] at hfound
    obtain ⟨hlt, hn, hroom⟩ := hfound
    have hstore := hstaged.holds.store ((w.put.bytes runetochar).getD w.i 0)
    rw [← hstaged.iw] at hstore
    refine ⟨S, r, c, ⟨hstore, hstaged.iw, hstaged.ir, hstaged.handed, hstaged.echoed, hstaged.passing⟩,
      fun w' hw' => ?_, htext, hsub⟩
    cases hw'
    exact ⟨hi, hlt, hn, hroom, Function.update_self _ _ _⟩
  | advance n =>
    rw [hpc] at hfound
    obtain ⟨hlt, hn, hroom, hbyte⟩ := hfound
    have hiw := hstaged.iw
    rw [hiw] at hbyte
    have hlen : (S ++ [(w.put.bytes runetochar).getD w.i 0]).length = S.length + 1 := by
      rw [length_append, length_singleton]
    refine ⟨S ++ [(w.put.bytes runetochar).getD w.i 0], r, c,
      ⟨hstaged.holds.push hbyte hroom, ?_, hstaged.ir, ?_, ?_, ?_⟩, fun w' hw' => ?_, ?_, hsub⟩
    · change n = _
      rw [hn, hiw, hlen, StreamRing.next_mod (by decide)]
    · rw [hlen]
      exact Nat.le_succ_of_le hstaged.handed
    · rw [take_append_of_le_length hstaged.handed]
      exact hstaged.echoed
    · rw [hlen]
      exact hstaged.passing.mono (Nat.le_succ _)
    · cases hw'
      exact ⟨hlt, trivial⟩
    · change _ = text runetochar s.kept ++ (w.put.bytes runetochar).take (w.i + 1)
      rw [take_succ_eq_append_getElem hlt, ← append_assoc, ← htext, getD_eq_getElem _ _ hlt]

theorem act_inv (h : Inv runetochar s) (huncut : ¬Cut runetochar s op) (hact : act runetochar s op = some t) :
    Inv runetochar t := by
  cases op with
  | kbdputc ch => exact h.lock hact
  | kbdcr2nl ch => exact h.lock hact
  | setraw raw =>
    cases hact
    obtain ⟨S, r, c, hstaged, hfinds, htext, hsub⟩ := h
    exact ⟨S, r, c, hstaged.keep _ _ _ _, hfinds, htext, hsub⟩
  | putter =>
    obtain ⟨w, hw, rfl⟩ := map_eq_some_iff.mp hact
    exact h.stepPutter hw huncut
  | kbdputcclock =>
    cases hact
    exact h.stepClock

theorem Inv.whole (h : Inv runetochar s) : Whole runetochar s := by
  obtain ⟨S, r, c, hstaged, hfinds, htext, hsub⟩ := h
  refine ⟨(sublist_append_left _ _).trans hsub, ?_, fun ⟨hputter, hclock, hempty⟩ => ?_⟩
  · have hprefix : S <+: text runetochar s.coming := by
      rw [htext, Sys.begun, Sys.coming, text_append]
      cases s.putter with
      | none => exact prefix_refl _
      | some w =>
        refine (prefix_append_right_inj _).mpr ?_
        rw [map_some, toList_some, text_singleton]
        exact take_prefix _ _
    rw [hstaged.echoed]
    exact ( take_prefix _ _).trans hprefix
  · have hpassing := hstaged.passing
    rw [hclock] at hpassing
    change c = r at hpassing
    rw [hstaged.iw, hstaged.ir, hstaged.holds.empty_iff] at hempty
    rw [Sys.begun, hputter, elim_none, append_nil] at htext
    rw [hstaged.echoed, take_of_length_le (by omega), htext]

/-- **Characters are handed on whole** in every run that cuts none. -/
theorem whole_of_uncut (hr : ReachUncut runetochar s) : Whole runetochar s :=
  (StepSystem.Reach.invariant (Inv runetochar) (fun _ => start_inv)
    (fun _ _ _ h hstep => act_inv h hstep.1 hstep.2) hr).whole

end proofs

/-- The encoding of a rune of 16 bits. -/
def utf8 (ch : Int) : List UInt8 :=
  let r := (ch % 2 ^ 16).toNat
  if r < 0x80 then [UInt8.ofNat r]
  else if r < 0x800 then [UInt8.ofNat (0xc0 + r / 64), UInt8.ofNat (0x80 + r % 64)]
  else [UInt8.ofNat (0xe0 + r / 4096), UInt8.ofNat (0x80 + r / 64 % 64), UInt8.ofNat (0x80 + r % 64)]

def empty : Sys := ⟨fun _ => 0, 0, 0, false, none, .idle, [], [], []⟩

theorem empty_start : Start empty := ⟨rfl, rfl, rfl, rfl, rfl, rfl, rfl⟩

instance (s : Sys) : (op : Op) → Decidable (Cut utf8 s op)
  | .putter => inferInstanceAs (Decidable (∃ w ∈ s.putter, w.pc matches .room ∧ 0 < w.i ∧
      w.i < (w.put.bytes utf8).length ∧ next sizeofStage s.iw = s.ir))
  | .kbdputc _ => isFalse id
  | .kbdcr2nl _ => isFalse id
  | .setraw _ => isFalse id
  | .kbdputcclock => isFalse id

/-- A character of two bytes and a '\r', the clock between them and at the end. -/
theorem whole_of_uncut_two : ∃ s, s.echoed = [0xc3, 0xa9, 10] ∧ Whole utf8 s := by
  have hrun : (StepSystem.exec (fun s op => if ¬Cut utf8 s op then act utf8 s op else none) empty
      ([.kbdputc 0xe9] ++ List.replicate 4 .putter ++ List.replicate 5 .kbdputcclock ++
        List.replicate 3 .putter ++ [.kbdcr2nl 13] ++ List.replicate 4 .putter ++
        List.replicate 6 .kbdputcclock)).any (fun s => s.echoed == [0xc3, 0xa9, 10]) = true := by
    decide +kernel
  obtain ⟨s, hr, htest⟩ := StepSystem.Reach.exists_of_exec
    (StepSystem.Reach.start empty_start : ReachUncut utf8 empty)
    (fun s op t _ h => Option.ite_none_right_eq_some.mp h) hrun
  exact ⟨s, eq_of_beq htest, whole_of_uncut hr⟩

/-- The ring after `n` characters of one byte, before the clock has come. -/
def filled (n : Nat) (istage : Nat → UInt8) : Sys :=
  ⟨istage, n, 0, false, none, .idle, List.replicate n (.rune 97), List.replicate n (.rune 97), []⟩

/-- There, with the first byte of one more. -/
def started (n : Nat) (istage : Nat → UInt8) (ch : Int) : Sys :=
  { filled n istage with
    iw := n + 1, puts := List.replicate n (.rune 97) ++ [.rune ch], putter := some ⟨.rune ch, 1, .room⟩ }

theorem next_of_lt {n : Nat} (h : n < 1023) : next sizeofStage n = n + 1 := if_neg (by rw [size_eq]; omega)

theorem reach_started {n : Nat} {istage : Nat → UInt8} {ch : Int} (hr : ReachUncut utf8 (filled n istage))
    (hn : n < 1023) (hch : 0 < (utf8 ch).length) :
    ReachUncut utf8 (started n (update istage n ((utf8 ch).getD 0 0)) ch) := by
  let a : Sys := { filled n istage with
    putter := some ⟨.rune ch, 0, .room⟩, puts := List.replicate n (.rune 97) ++ [.rune ch] }
  let b : Sys := { a with putter := some ⟨.rune ch, 0, .store (n + 1)⟩ }
  let c : Sys := { b with
    istage := update istage n ((utf8 ch).getD 0 0), putter := some ⟨.rune ch, 0, .advance (n + 1)⟩ }
  have ha : ReachUncut utf8 a := hr.next (i := .kbdputc ch) ⟨fun hcut => hcut, rfl⟩
  have hb : ReachUncut utf8 b := by
    refine ha.next (i := .putter) ⟨?_, ?_⟩
    · rintro ⟨w, hw, -, hpos, -⟩
      cases hw
      exact absurd hpos (Nat.lt_irrefl 0)
    · have hlt : 0 < (Put.bytes utf8 (.rune ch)).length := hch
      have hstep : a.stepPutter utf8 ⟨.rune ch, 0, .room⟩ = b := by
        have hnext : next sizeofStage a.iw = n + 1 := next_of_lt hn
        have hir : a.ir = 0 := rfl
        rw [Sys.stepPutter]
        dsimp only
        rw [if_pos hlt, hnext, hir, if_neg (Nat.succ_ne_zero n)]
        rfl
      exact congrArg some hstep
  have hc : ReachUncut utf8 c := by
    refine hb.next (i := .putter) ⟨?_, rfl⟩
    rintro ⟨w, hw, hpc, -⟩
    cases hw
    cases hpc
  refine hc.next (i := .putter) ⟨?_, rfl⟩
  rintro ⟨w, hw, hpc, -⟩
  cases hw
  cases hpc

theorem reach_filled {n : Nat} (hn : n ≤ 1023) : ∃ istage, ReachUncut utf8 (filled n istage) := by
  induction n with
  | zero => exact ⟨fun _ => 0, .start empty_start⟩
  | succ n ih =>
    obtain ⟨istage, hr⟩ := ih (by omega)
    have hstarted := @reach_started n istage 97 hr (by omega) (by decide)
    refine ⟨update istage n 97, ?_⟩
    rw [filled, replicate_succ']
    refine hstarted.next (i := .putter) ⟨?_, rfl⟩
    rintro ⟨w, hw, -, -, hlt, -⟩
    cases hw
    exact absurd hlt (by decide)

/-- The clock goes on until the ring is empty. -/
theorem reach_drained {s : Sys} {S : List UInt8} {r c iw p m : Nat} (hr : Reach utf8 s)
    (hstaged : Staged s S r c) (hputter : s.putter = none) (hclock : s.clock = .second iw p)
    (hiw : iw = p + m) (hsiw : s.iw = iw) :
    ∃ t, Reach utf8 t ∧ Drained t ∧ t.puts = s.puts ∧ t.echoed = S := by
  obtain ⟨r', c', -, hnext⟩ := hstaged.stepClock
  obtain ⟨hkiw, -, hkputter, -, hkputs⟩ := stepClock_keeps s
  have hreach : Reach utf8 s.stepClock := hr.next (i := .kbdputcclock) rfl
  induction m generalizing s r c p r' c' with
  | zero =>
    have hstep : s.stepClock = { s with ir := iw, clock := .idle } := by
      rw [Sys.stepClock, hclock]
      exact if_neg (by omega)
    have hempty : s.stepClock.iw = s.stepClock.ir := by
      rw [hkiw, hstep, hsiw]
    have hidle : s.stepClock.clock = .idle := by rw [hstep]
    have hpassing := hnext.passing
    rw [hidle] at hpassing
    change c' = r' at hpassing
    refine ⟨s.stepClock, hreach, ⟨hkputter.trans hputter, hidle, hempty⟩, hkputs, ?_⟩
    rw [hnext.iw, hnext.ir, hnext.holds.empty_iff] at hempty
    rw [hnext.echoed, take_of_length_le (by omega)]
  | succ m ih =>
    have hstep : s.stepClock.clock = .second iw (p + 1) := by
      rw [Sys.stepClock, hclock]
      dsimp only
      rw [if_pos (by omega)]
    obtain ⟨r'', c'', -, hnext'⟩ := hnext.stepClock
    obtain ⟨hkiw', -, hkputter', -, hkputs'⟩ := stepClock_keeps s.stepClock
    obtain ⟨t, ht, hdrained, hputs, hechoed⟩ := ih hreach hnext (hkputter.trans hputter) hstep
      (by omega) (hkiw.trans hsiw) r'' c'' hnext' hkiw' hkputter' hkputs'
      (hreach.next (i := .kbdputcclock) rfl)
    exact ⟨t, ht, hdrained, hputs.trans hkputs, hechoed⟩

/-- What `echo` gets of a full ring and the first byte of 'é' is no text. -/
theorem ne_text {l : List Put} (h : l.Sublist (List.replicate 1022 (.rune 97) ++ [.rune 0xe9])) :
    text utf8 (List.replicate 1022 (.rune 97)) ++ [0xc3] ≠ text utf8 l := by
  intro heq
  have hbytes : ∀ b ∈ text utf8 (List.replicate 1022 (.rune 97)), b = 97 := fun b hb => by
    obtain ⟨c, hc, hbc⟩ := mem_flatMap.mp hb
    rw [eq_of_mem_replicate hc] at hbc
    exact mem_singleton.mp hbc
  by_cases hmem : .rune 0xe9 ∈ l
  · have hlast : 0xa9 ∈ text utf8 l := mem_flatMap.mpr ⟨_, hmem, by decide⟩
    rw [← heq] at hlast
    rcases mem_append.mp hlast with hb | hb
    · exact absurd (hbytes _ hb) (by decide)
    · exact absurd hb (by decide)
  · have hfirst : 0xc3 ∈ text utf8 l := by
      rw [← heq]
      exact mem_append_right _ (mem_singleton.mpr rfl)
    obtain ⟨c, hc, hbc⟩ := mem_flatMap.mp hfirst
    rcases mem_append.mp (h.subset hc) with hr | hr
    · rw [eq_of_mem_replicate hr] at hbc
      exact absurd hbc (by decide)
    · rw [mem_singleton.mp hr] at hc
      exact hmem hc

/-- **A character is cut**: of its two bytes `echo` gets the first. -/
theorem kbdputc_cuts : ∃ s, Reach utf8 s ∧ Drained s ∧ ∀ l, l.Sublist s.puts → s.echoed ≠ text utf8 l := by
  obtain ⟨istage, hfilled⟩ := @reach_filled 1022 (by decide)
  have hstarted := @reach_started 1022 istage 0xe9 hfilled (by decide) (by decide)
  obtain ⟨S, r, c, hstaged, -, htext, -⟩ := StepSystem.Reach.invariant (Inv utf8) (fun _ => start_inv)
    (fun _ _ _ h hstep => act_inv h hstep.1 hstep.2) hstarted
  have hr : Reach utf8 (started 1022 (update istage 1022 ((utf8 0xe9).getD 0 0)) 0xe9) :=
    hstarted.mono fun _ _ _ h => h.2
  generalize update istage 1022 ((utf8 0xe9).getD 0 0) = istage at hstaged htext hr
  let u : Sys := { started 1022 istage 0xe9 with putter := none }
  have hcut : Reach utf8 u := hr.next (i := .putter) rfl
  have hentered : Reach utf8 { u with clock := .entered } := hcut.next (i := .kbdputcclock) rfl
  have hbetween : Reach utf8 { u with clock := .between 1023 } := hentered.next (i := .kbdputcclock) rfl
  have hsecond : Reach utf8 { u with clock := .second 1023 0 } := hbetween.next (i := .kbdputcclock) rfl
  obtain ⟨r₁, c₁, -, h₁⟩ := (hstaged.keep false none u.puts u.kept).stepClock
  obtain ⟨r₂, c₂, -, h₂⟩ := h₁.stepClock
  obtain ⟨r₃, c₃, -, h₃⟩ := h₂.stepClock
  obtain ⟨t, ht, hdrained, hputs, hechoed⟩ :=
    @reach_drained { u with clock := .second 1023 0 } S r₃ c₃ 1023 0 1023 hsecond h₃ rfl rfl rfl rfl
  refine ⟨t, ht, hdrained, fun l hl => ?_⟩
  rw [hputs] at hl
  rw [hechoed, htext]
  exact ne_text hl

end KbdStage
