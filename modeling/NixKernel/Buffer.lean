import Mathlib

/-!
# Buffers

Parts of a list by offset and length: reading one, and writing one of the same length.  A buffer
that is given in three parts is read and written at the middle one by the offset that the first one
ends at.
-/

namespace Buffer

open List

variable {α : Type*} {off n : Nat} {buf a b c new : List α}

/-- The `n` elements at `off`. -/
def slice (buf : List α) (off n : Nat) : List α := (buf.drop off).take n

/-- The buffer with `new` written at `off`. -/
def write (buf : List α) (off : Nat) (new : List α) : List α :=
  buf.take off ++ new ++ buf.drop (off + new.length)

theorem slice_mid (hoff : off = a.length) (hn : n = b.length) : slice (a ++ b ++ c) off n = b := by
  rw [slice, hoff, hn, append_assoc, drop_left, take_left]

theorem slice_last (hoff : off = a.length) (hn : n = b.length) : slice (a ++ b) off n = b := by
  rw [slice, hoff, hn, drop_left, take_length]

theorem write_mid (hoff : off = a.length) (hnew : new.length = b.length) :
    write (a ++ b ++ c) off new = a ++ new ++ c := by
  rw [write, hoff, hnew, append_assoc a, take_left, ← drop_drop, drop_left, drop_left]

theorem length_write (h : off + new.length ≤ buf.length) : (write buf off new).length = buf.length := by
  rw [write, length_append, length_append, length_take, length_drop]
  omega

theorem getD_mid {x : α} (hoff : off = a.length) (d : α) : (a ++ x :: c).getD off d = x := by
  rw [getD_eq_getElem?_getD, hoff, List.getElem?_append_right (Nat.le_refl _), Nat.sub_self]
  rfl

/-- A list of a known length, in two parts. -/
theorem exists_append {m : Nat} (h : buf.length = m + n) : ∃ a b, buf = a ++ b ∧ a.length = m ∧ b.length = n :=
  ⟨buf.take m, buf.drop m, (take_append_drop m buf).symm, by rw [length_take]; omega,
    by rw [length_drop]; omega⟩

/-- A write into the front part. -/
theorem write_append (h : off + new.length ≤ a.length) : write (a ++ b) off new = write a off new ++ b := by
  rw [write, write, take_append_of_le_length (by omega), drop_append_of_le_length h,
    ← append_assoc]

/-- A write at the end. -/
theorem write_last (hoff : off = a.length) (hnew : new.length = b.length) : write (a ++ b) off new = a ++ new := by
  have h := write_mid (c := []) hoff hnew
  rwa [append_nil, append_nil] at h

/-- The first element is not written. -/
theorem getD_write (hoff : 0 < off) (hlen : off ≤ buf.length) (d : α) :
    (write buf off new).getD 0 d = buf.getD 0 d := by
  have hzero : 0 < buf.length := Nat.lt_of_lt_of_le hoff hlen
  rw [write, append_assoc, getD_eq_getElem?_getD, List.getElem?_append_left
    (by rw [length_take]; omega), List.getElem?_take_of_lt hoff, getD_eq_getElem?_getD]

end Buffer
