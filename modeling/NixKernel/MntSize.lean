import NixKernel.MntRead

/-!
# The size field of a 9P message

`mntrpcread` takes the size field of a message as an `int` and compares it with `msize`.  The call either gives up
there, or goes on: it pulls the header up, calls `convM2S` and takes the message off the queue.  The transport may
also return an empty block list here, which ends the reading like nil.
-/

namespace Mnt

open Qio HeapChain

variable {m : Input} {l : Cells} {ws : List Cells} {p : List UInt8} {msize : Int}

/-- The size field as it was sent. -/
def sizeField (p : List UInt8) : Nat :=
  ((p.getD 3 0).toBitVec ++ (p.getD 2 0).toBitVec ++ (p.getD 1 0).toBitVec ++ (p.getD 0 0).toBitVec).toNat

/-- A size that a message can have; of a read reply, with its count. -/
def SizeOk (msize : Int) (p : List UInt8) : Prop :=
  7 ≤ sizeField p ∧ (sizeField p : Int) ≤ msize ∧ (p.getD 4 0 = rread → 11 ≤ sizeField p)

/-- **The size is checked.**  The call goes on to parse a message of a right size only; where it gives up the queue
holds blocks as a queue does, and the transport its own. -/
def Checked (msize : Int) (p : List UInt8) : Head → Prop
  | .quit m => ∃ l ws, Stands msize m l ws
  | .parse _ _ _ => SizeOk msize p

/-- **The size field.**  Unless the kernel panics for want of a block where the size is pulled up, the call comes to
the switch or returns -1, and its size is checked exactly when the size is right, or is as an `int` more than `msize`
or more than there are bytes. -/
theorem size_checked (al : Allocator) (hm : Stands msize m l ws) (hp : flat (l ++ delivered ws) = p)
    (hseven : 7 ≤ p.length) :
    (mntrpcHead al msize m = none ∧ m.HeadPanics al) ∨
    ∃ head, mntrpcHead al msize m = some head ∧
      (∀ (F : Type) (convM2S : List UInt8 → Int → Option F),
        mntrpcread al convM2S msize m = mntrpcTail al convM2S head) ∧
      (Checked msize p head ↔ SizeOk msize p ∨ msize < gbit32 p ∨ p.length < gbit32 p) := by
  rcases head_spec al hm hp hseven with hnone | ⟨head, hrun, hdone⟩
  · exact Or.inl hnone
  · refine Or.inr ⟨head, hrun, fun F convM2S => ?_, ?_⟩
    · rw [mntrpcread, hrun]
      rfl
    · rcases hdone with ⟨m', b, w, t, -, -, rfl, -, -, -, -, -, hfits⟩ | ⟨m', l', ws', rfl, hm', hquit⟩
      · exact ⟨Or.inl, fun h => h.resolve_right hfits⟩
      · exact iff_of_true ⟨l', ws', hm'⟩ (Or.inr hquit)

/-- An `Rclunk` goes on, with its right size. -/
theorem size_checked_clunk :
    ∃ head, mntrpcHead oneBlock 8192 (oneInput rclunk.data) = some head ∧ Checked 8192 rclunk.data head := by
  have hseven : 7 ≤ rclunk.data.length := by decide
  have hle : rclunk.data.length ≤ 8192 := by decide
  rcases size_checked oneBlock (oneInput_stands hle) (oneInput_bytes hseven) hseven with
    ⟨-, hpanic⟩ | ⟨head, hrun, -, hchecked⟩
  · exact (oneInput_fits hseven hle hpanic).elim
  · exact ⟨head, hrun, hchecked.mpr (Or.inl ⟨by decide, by decide, fun h => absurd h (by decide)⟩)⟩

/-- A read reply whose size field is 2^31. -/
def hugeReply : List UInt8 := [0, 0, 0, 0x80, 117, 1, 0, 0xf5, 0xff, 0xff, 0x7f]

/-- As an `int` the size is negative, below `msize`, and no more than what is queued. -/
theorem size_negative :
    ¬ ∀ (al : Allocator) (msize : Int) (m : Input) (l : Cells) (ws : List Cells) (p : List UInt8) (head : Head),
      Stands msize m l ws → flat (l ++ delivered ws) = p → 7 ≤ p.length → mntrpcHead al msize m = some head →
        Checked msize p head := by
  intro hall
  have hm := @oneInput_stands hugeReply (by decide)
  have hp := @oneInput_bytes hugeReply (by decide)
  rcases head_spec oneBlock hm hp (by decide) with
    ⟨-, hpanic⟩ | ⟨head, hrun, ⟨_, _, _, _, _, _, rfl, -⟩ | ⟨-, -, -, -, -, hquit⟩⟩
  · exact oneInput_fits (by decide) (by decide) hpanic
  · have hchecked := hall oneBlock 8192 _ _ _ _ _ hm hp (by decide) hrun
    exact absurd hchecked.2.1 (by decide)
  · revert hquit
    decide

end Mnt
