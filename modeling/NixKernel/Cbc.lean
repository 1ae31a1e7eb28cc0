import Mathlib

/-!
# Cipher block chaining

Each block is combined with the one that was put out before it, and then enciphered.  Deciphering
the blocks and combining each with the one before undoes it, from the same first vector.
-/

namespace Cbc

open List

variable {α : Type*} (n : Nat) (f : α → α → α) (enc dec : List α → List α)

/-- `k` blocks of `n`, from the vector `iv`: what is put out, and the last block of it. -/
def encrypt : Nat → List α → List α → List α × List α
  | 0, iv, _ => ([], iv)
  | k + 1, iv, p =>
    let q := enc (List.zipWith f (p.take n) iv)
    let r := encrypt k q (p.drop n)
    (q ++ r.1, r.2)

def decrypt : Nat → List α → List α → List α × List α
  | 0, iv, _ => ([], iv)
  | k + 1, iv, p =>
    let r := decrypt k (p.take n) (p.drop n)
    (List.zipWith f (dec (p.take n)) iv ++ r.1, r.2)

variable {n f enc dec} {k : Nat} {iv p : List α}

theorem zipWith_cancel (hf : ∀ a b, f (f a b) b = a) {l r : List α} (h : l.length = r.length) :
    List.zipWith f (List.zipWith f l r) r = l := by
  induction l generalizing r with
  | nil => rfl
  | cons a l ih =>
    cases r with
    | nil => cases h
    | cons b r =>
      rw [zipWith_cons_cons, zipWith_cons_cons, hf, ih (Nat.succ.inj h)]

theorem length_encrypt (hlen : ∀ b : List α, b.length = n → (enc b).length = n) (hiv : iv.length = n)
    (hp : p.length = n * k) :
    (encrypt n f enc k iv p).1.length = n * k ∧ (encrypt n f enc k iv p).2.length = n := by
  induction k generalizing iv p with
  | zero => exact ⟨rfl, hiv⟩
  | succ k ih =>
    rw [Nat.mul_succ] at hp
    have htake : (p.take n).length = n := by
      rw [length_take]
      omega
    have hblock : (List.zipWith f (p.take n) iv).length = n := by
      rw [length_zipWith, htake, hiv, Nat.min_self]
    obtain ⟨hrest, hlast⟩ := ih (hlen _ hblock) (p := p.drop n) (by rw [length_drop]; omega)
    refine ⟨?_, hlast⟩
    rw [encrypt, length_append, hlen _ hblock, hrest, Nat.mul_succ, Nat.add_comm]

/-- **Deciphering** undoes the chain. -/
theorem decrypt_encrypt (hf : ∀ a b, f (f a b) b = a)
    (hlen : ∀ b : List α, b.length = n → (enc b).length = n)
    (hinv : ∀ b : List α, b.length = n → dec (enc b) = b) (hiv : iv.length = n) (hp : p.length = n * k) :
    (decrypt n f dec k iv (encrypt n f enc k iv p).1).1 = p := by
  induction k generalizing iv p with
  | zero => exact (eq_nil_of_length_eq_zero hp).symm
  | succ k ih =>
    rw [Nat.mul_succ] at hp
    have htake : (p.take n).length = n := by
      rw [length_take]
      omega
    have hblock : (List.zipWith f (p.take n) iv).length = n := by
      rw [length_zipWith, htake, hiv, Nat.min_self]
    have hq := hlen _ hblock
    have hrest := ih hq (p := p.drop n) (by rw [length_drop]; omega)
    rw [encrypt, decrypt]
    dsimp only
    rw [take_append_of_le_length (Nat.le_of_eq hq.symm), take_of_length_le (Nat.le_of_eq hq),
      drop_append_of_le_length (Nat.le_of_eq hq.symm), drop_of_length_le (Nat.le_of_eq hq),
      nil_append, hrest, hinv _ hblock, zipWith_cancel hf (htake.trans hiv.symm), take_append_drop]

end Cbc
