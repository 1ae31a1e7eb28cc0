import Mathlib

/-!
# Spin locks and program counters

Each lock records its holder, and the program counter of each party says which lock it holds.
`Held` is the agreement of the two; it is kept when a party takes a free lock, when it gives up the
one it holds, and when it moves on without doing either.
-/

namespace SpinLock

open Function (update update_eq_self)

variable {L W : Type*}

/-- The holder of every lock is the party whose program counter says so. -/
def Held (lk : L → Option W) (holds : W → Option L) : Prop :=
  ∀ l w, lk l = some w ↔ holds w = some l

variable {lk : L → Option W} {holds : W → Option L} {l : L} {w v : W}

theorem Held.lk_eq (h : Held lk holds) (hw : holds w = some l) : lk l = some w :=
  (h l w).mpr hw

/-- **Mutual exclusion.** -/
theorem Held.unique (h : Held lk holds) (hw : holds w = some l) (hv : holds v = some l) : w = v :=
  Option.some.inj ((h.lk_eq hw).symm.trans (h.lk_eq hv))

theorem Held.free (hlk : ∀ l, lk l = none) (hholds : ∀ w, holds w = none) : Held lk holds := by
  intro l w
  simp [hlk, hholds]

/-- A party moves on with the lock it holds, if any. -/
theorem Held.move [DecidableEq W] (h : Held lk holds) {o : Option L} (hw : holds w = o) :
    Held lk (update holds w o) := by
  rw [← hw, update_eq_self]
  exact h

variable [DecidableEq L] [DecidableEq W]

/-- A party takes a free lock. -/
theorem Held.acquire (h : Held lk holds) (hfree : lk l = none) (hw : holds w = none) :
    Held (update lk l (some w)) (update holds w (some l)) := by
  intro k v
  have hk := h k v
  have hl := h l v
  have hold := h k w
  grind

/-- A party gives up the lock it holds. -/
theorem Held.release (h : Held lk holds) (hw : holds w = some l) :
    Held (update lk l none) (update holds w none) := by
  intro k v
  have hk := h k v
  have hl := h l w
  have hold := h k w
  grind

end SpinLock
