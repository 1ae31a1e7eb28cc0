import Mathlib

/-!
# Strings in memory

A string of C is the bytes before the first zero byte.  Memory is a list of bytes, a pointer a position in it;
behind its end memory reads as zero, so that a position is outside a string if what is there is zero.
-/

namespace CString

open List

/-- A string, without its zero byte. -/
structure Str where
  bytes : List UInt8
  noNul : 0 ∉ bytes

/-- What is at position `q` of a string; zero at its end. -/
def Str.get (s : Str) (q : Nat) : UInt8 := s.bytes.getD q 0

def Str.length (s : Str) : Nat := s.bytes.length

theorem Str.get_ne (s : Str) {q : Nat} (hq : q < s.length) : s.get q ≠ 0 := by
  rw [Str.get, getD_eq_getElem _ _ hq]
  exact fun hzero => s.noNul (hzero ▸ getElem_mem hq)

theorem Str.get_of_le (s : Str) {q : Nat} (hq : s.length ≤ q) : s.get q = 0 := getD_eq_default _ _ hq

theorem Str.lt_of_get_ne (s : Str) {q : Nat} (hq : s.get q ≠ 0) : q < s.length :=
  Nat.lt_of_not_le fun hle => hq (s.get_of_le hle)

/-- The length of the string that memory begins with. -/
def strlen (mem : List UInt8) : Nat := (mem.takeWhile (· ≠ 0)).length

/-- The string at a pointer. -/
def read (mem : List UInt8) (p : Nat) : List UInt8 := (mem.drop p).takeWhile (· ≠ 0)

/-- The first `c` in the string that memory begins with. -/
def strchr (c : UInt8) : List UInt8 → Option Nat
  | [] => none
  | b :: mem => if b = c then some 0 else if b = 0 then none else (strchr c mem).map (· + 1)

theorem getD_drop (mem : List UInt8) (p q : Nat) : (mem.drop p).getD q 0 = mem.getD (p + q) 0 := by
  rw [getD_eq_getElem?_getD, List.getElem?_drop, getD_eq_getElem?_getD]

/-- A string ends where its zero byte is. -/
theorem takeWhile_eq {mem : List UInt8} {n : Nat} (hn : n ≤ mem.length) (hfull : ∀ q, q < n → mem.getD q 0 ≠ 0)
    (hend : mem.getD n 0 = 0) : mem.takeWhile (· ≠ 0) = mem.take n := by
  induction mem generalizing n with
  | nil => rw [take_nil, takeWhile_nil]
  | cons b mem ih =>
    cases n with
    | zero =>
      rw [take_zero, takeWhile_cons_of_neg]
      rw [getD_cons_zero] at hend
      rw [hend]
      exact Bool.false_ne_true
    | succ n =>
      have hb := hfull 0 (Nat.succ_pos n)
      rw [getD_cons_zero] at hb
      rw [take_succ_cons, takeWhile_cons_of_pos (p := fun x => decide (x ≠ 0)) (decide_eq_true hb)]
      have hrest := ih (Nat.le_of_succ_le_succ hn) (fun q hq => ?_) hend
      · rw [hrest]
      · exact hfull (q + 1) (Nat.succ_lt_succ hq)

theorem strlen_eq {mem : List UInt8} {n : Nat} (hn : n ≤ mem.length) (hfull : ∀ q, q < n → mem.getD q 0 ≠ 0)
    (hend : mem.getD n 0 = 0) : strlen mem = n := by
  rw [strlen, takeWhile_eq hn hfull hend, length_take_of_le hn]

/-- The bytes from `p` to the zero byte. -/
theorem read_eq {mem : List UInt8} {p n : Nat} (hn : p + n ≤ mem.length)
    (hfull : ∀ q, p ≤ q → q < p + n → mem.getD q 0 ≠ 0) (hend : mem.getD (p + n) 0 = 0) :
    read mem p = (mem.drop p).take n := by
  refine takeWhile_eq (by rw [length_drop]; omega) (fun q hq => ?_) ?_
  · rw [getD_drop]
    exact hfull (p + q) (Nat.le_add_right p q) (Nat.add_lt_add_left hq p)
  · rw [getD_drop]
    exact hend

/-- Where `strchr` finds `c`, it is the first one, and the string goes on until there. -/
theorem strchr_some {c : UInt8} {mem : List UInt8} {n : Nat} (h : strchr c mem = some n) :
    n < mem.length ∧ mem.getD n 0 = c ∧ ∀ q, q < n → mem.getD q 0 ≠ c ∧ mem.getD q 0 ≠ 0 := by
  induction mem generalizing n with
  | nil => cases h
  | cons b mem ih =>
    rw [strchr] at h
    split at h
    · next hb =>
      cases h
      exact ⟨Nat.succ_pos _, hb, fun q hq => absurd hq (Nat.not_lt_zero q)⟩
    · next hb =>
      split at h
      · cases h
      · next hzero =>
        obtain ⟨m, hm, rfl⟩ := Option.map_eq_some_iff.mp h
        obtain ⟨hlt, hc, hfirst⟩ := ih hm
        refine ⟨Nat.succ_lt_succ hlt, hc, fun q hq => ?_⟩
        cases q with
        | zero => exact ⟨hb, hzero⟩
        | succ q => exact hfirst q (Nat.lt_of_succ_lt_succ hq)

/-- Where it does not, there is none before the zero byte. -/
theorem strchr_none {c : UInt8} {mem : List UInt8} (h : strchr c mem = none) {n : Nat} (hn : n ≤ mem.length)
    (hfull : ∀ q, q < n → mem.getD q 0 ≠ 0) : ∀ q, q < n → mem.getD q 0 ≠ c := by
  induction mem generalizing n with
  | nil =>
    intro q hq
    exact absurd hn (Nat.not_le_of_lt (Nat.zero_lt_of_lt hq))
  | cons b mem ih =>
    intro q hq
    rw [strchr] at h
    split at h
    · cases h
    · next hb =>
      have hb0 := hfull 0 (Nat.zero_lt_of_lt hq)
      rw [getD_cons_zero] at hb0
      rw [if_neg hb0] at h
      cases q with
      | zero => exact hb
      | succ q =>
        refine ih (Option.map_eq_none_iff.mp h) (n := n - 1) ?_ (fun r hr => ?_) q (by omega)
        · rw [length_cons] at hn
          omega
        · exact hfull (r + 1) (by omega)

end CString
