import Mathlib

/-!
# Bytes at addresses

Memory is a byte for each address.  A list of bytes is held at an address if they follow one another
there; a word of 64 bits is eight bytes, the low one first.
-/

namespace ByteMem

variable {mem : Nat → UInt8} {p q v : Nat} {a b : List UInt8}

/-- The bytes are at the address. -/
def Holds (mem : Nat → UInt8) (p : Nat) (a : List UInt8) : Prop := ∀ j < a.length, mem (p + j) = a.getD j 0

def write (mem : Nat → UInt8) (p : Nat) (a : List UInt8) : Nat → UInt8 :=
  fun x => if p ≤ x ∧ x < p + a.length then a.getD (x - p) 0 else mem x

theorem write_outside (mem : Nat → UInt8) {x : Nat} (h : x < p ∨ p + a.length ≤ x) : write mem p a x = mem x :=
  if_neg fun hin => by omega

theorem holds_write (mem : Nat → UInt8) (p : Nat) (a : List UInt8) : Holds (write mem p a) p a := by
  intro j hj
  rw [write, if_pos ⟨Nat.le_add_right p j, Nat.add_lt_add_left hj p⟩, Nat.add_sub_cancel_left]

/-- What is held depends on its own bytes. -/
theorem Holds.congr {mem' : Nat → UInt8} (h : Holds mem p a) (hsame : ∀ x, p ≤ x → x < p + a.length → mem' x = mem x) :
    Holds mem' p a := fun j hj => by
  rw [hsame _ (Nat.le_add_right p j) (Nat.add_lt_add_left hj p)]
  exact h j hj

theorem holds_append : Holds mem p (a ++ b) ↔ Holds mem p a ∧ Holds mem (p + a.length) b := by
  constructor
  · intro h
    refine ⟨fun j hj => ?_, fun j hj => ?_⟩
    · rw [h j (by rw [List.length_append]; omega), List.getD_append _ _ _ _ hj]
    · rw [Nat.add_assoc, h _ (by rw [List.length_append]; omega),
        List.getD_append_right _ _ _ _ (Nat.le_add_right _ _), Nat.add_sub_cancel_left]
  · rintro ⟨ha, hb⟩ j hj
    by_cases hlt : j < a.length
    · rw [ha j hlt, List.getD_append _ _ _ _ hlt]
    · rw [List.length_append] at hj
      have hrest := hb (j - a.length) (by omega)
      rw [List.getD_append_right _ _ _ _ (by omega), ← hrest]
      congr 1
      omega

/-- The bytes of a word. -/
def bytes64 (v : Nat) : List UInt8 :=
  [.ofNat v, .ofNat (v / 2 ^ 8), .ofNat (v / 2 ^ 16), .ofNat (v / 2 ^ 24), .ofNat (v / 2 ^ 32),
    .ofNat (v / 2 ^ 40), .ofNat (v / 2 ^ 48), .ofNat (v / 2 ^ 56)]

def word64 (mem : Nat → UInt8) (p : Nat) : Nat :=
  (mem p).toNat + (mem (p + 1)).toNat * 2 ^ 8 + (mem (p + 2)).toNat * 2 ^ 16 + (mem (p + 3)).toNat * 2 ^ 24 +
    (mem (p + 4)).toNat * 2 ^ 32 + (mem (p + 5)).toNat * 2 ^ 40 + (mem (p + 6)).toNat * 2 ^ 48 +
    (mem (p + 7)).toNat * 2 ^ 56

theorem length_bytes64 (v : Nat) : (bytes64 v).length = 8 := rfl

/-- **A word is read as it was written.** -/
theorem word64_eq (h : Holds mem p (bytes64 v)) (hv : v < 2 ^ 64) : word64 mem p = v := by
  have hbyte : ∀ n : Nat, (UInt8.ofNat n).toNat = n % 2 ^ 8 := fun n => UInt8.toNat_ofNat'
  have hj : ∀ j < 8, mem (p + j) = (bytes64 v).getD j 0 := fun j hj => h j hj
  have h0 : mem p = .ofNat v := hj 0 (by decide)
  have h1 : mem (p + 1) = .ofNat (v / 2 ^ 8) := hj 1 (by decide)
  have h2 : mem (p + 2) = .ofNat (v / 2 ^ 16) := hj 2 (by decide)
  have h3 : mem (p + 3) = .ofNat (v / 2 ^ 24) := hj 3 (by decide)
  have h4 : mem (p + 4) = .ofNat (v / 2 ^ 32) := hj 4 (by decide)
  have h5 : mem (p + 5) = .ofNat (v / 2 ^ 40) := hj 5 (by decide)
  have h6 : mem (p + 6) = .ofNat (v / 2 ^ 48) := hj 6 (by decide)
  have h7 : mem (p + 7) = .ofNat (v / 2 ^ 56) := hj 7 (by decide)
  rw [word64, h0, h1, h2, h3, h4, h5, h6, h7]
  simp only [hbyte]
  omega

end ByteMem
