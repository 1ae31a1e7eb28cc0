import NixKernel.Il

/-!
# The lists of an IL conversation

The messages that a side has written are blocks with increasing ids.  Releasing what is
acknowledged keeps the blocks with later ids, sorting a block in keeps the order, and pulling up
passes a run of messages without a gap.
-/

namespace Il

open List

variable {c : Conv} {id n : Nat} {l r : List Blk} {w q : List Msg} {m : Msg} {b : Blk}

theorem blocks_append : blocks id (w ++ [m]) = blocks id w ++ [⟨id + w.length, m⟩] := by
  induction w generalizing id with
  | nil => rfl
  | cons a w ih =>
    have hlen : id + 1 + w.length = id + (a :: w).length := by
      rw [length_cons]
      omega
    rw [cons_append, blocks, ih, blocks, cons_append, hlen]

theorem mem_blocks : b ∈ blocks id w ↔ ∃ k, w[k]? = some b.data ∧ b.id = id + k := by
  induction w generalizing id with
  | nil => simp [blocks]
  | cons a w ih =>
    rw [blocks, mem_cons, ih]
    constructor
    · rintro (rfl | ⟨k, hk, hid⟩)
      · exact ⟨0, rfl, rfl⟩
      · exact ⟨k + 1, hk, by omega⟩
    · rintro ⟨k, hk, hid⟩
      cases k with
      | zero =>
        left
        cases b
        simp only [List.getElem?_cons_zero, Option.some.injEq] at hk
        simp only [Nat.add_zero] at hid
        rw [hk, hid]
      | succ k => exact Or.inr ⟨k, by simpa using hk, by omega⟩

theorem blocks_sorted : (blocks id w).Pairwise fun a b => a.id < b.id := by
  induction w generalizing id with
  | nil => exact List.Pairwise.nil
  | cons a w ih =>
    rw [blocks, pairwise_cons]
    refine ⟨fun b hb => ?_, ih⟩
    obtain ⟨k, -, hid⟩ := mem_blocks.mp hb
    rw [hid]
    exact Nat.lt_of_lt_of_le (Nat.lt_succ_self id) (Nat.le_add_right _ k)

/-- The next message of a prefix. -/
theorem prefix_snoc (h : q <+: w) (hm : w[q.length]? = some m) : q ++ [m] <+: w := by
  obtain ⟨t, rfl⟩ := h
  rw [List.getElem?_append_right (Nat.le_refl _), Nat.sub_self] at hm
  cases t with
  | nil => cases hm
  | cons a t =>
    cases hm
    exact ⟨t, by simp⟩

/-- In a sorted list the later ids come behind. -/
theorem dropWhile_id (h : l.Pairwise fun a b => a.id < b.id) :
    l.dropWhile (fun b => decide (b.id ≤ n)) = l.filter fun b => decide (n < b.id) := by
  induction l with
  | nil => rfl
  | cons a l ih =>
    obtain ⟨ha, hl⟩ := pairwise_cons.mp h
    by_cases hle : a.id ≤ n
    · rw [dropWhile_cons_of_pos (by simpa using hle), filter_cons_of_neg (by simpa using hle)]
      exact ih hl
    · have hlate : ∀ b ∈ a :: l, n < b.id := by
        intro b hb
        rcases mem_cons.mp hb with rfl | hb
        · exact Nat.lt_of_not_le hle
        · exact Nat.lt_trans (Nat.lt_of_not_le hle) (ha b hb)
      rw [dropWhile_cons_of_neg (by simpa using hle)]
      exact (filter_eq_self.mpr fun b hb => by simpa using hlate b hb).symm

def total (l : List Blk) : Nat := (l.map Blk.len).sum

/-- **The loop of `ilackto`** releases the blocks in front, and counts their bytes off. -/
theorem release_spec (n : Nat) (l : List Blk) (c : Conv) : ∃ bytes rexmit,
    Conv.release n l c = { c with
      unacked := l.dropWhile fun b => decide (b.id ≤ n)
      unackedbytes := bytes
      rexmit } ∧
    (c.unackedbytes = total l → bytes = total (l.dropWhile fun b => decide (b.id ≤ n))) := by
  induction l generalizing c with
  | nil => exact ⟨c.unackedbytes, c.rexmit, rfl, fun h => h⟩
  | cons b l ih =>
    rw [Conv.release]
    by_cases hlt : n < b.id
    · rw [if_pos hlt, dropWhile_cons_of_neg (by simpa using hlt)]
      exact ⟨c.unackedbytes, c.rexmit, rfl, fun h => h⟩
    · rw [if_neg hlt, dropWhile_cons_of_pos (by simpa using Nat.le_of_not_lt hlt)]
      obtain ⟨bytes, rexmit, hrun, hbytes⟩ := ih { c with
        unackedbytes := c.unackedbytes - b.len
        rexmit := 0 }
      refine ⟨bytes, rexmit, hrun, fun h => hbytes ?_⟩
      simp only [h, total, map_cons, sum_cons]
      omega

theorem mem_insert {a : Blk} (h : a ∈ insert b l) : a = b ∨ a ∈ l := by
  induction l with
  | nil => exact Or.inl (mem_singleton.mp h)
  | cons f l ih =>
    rw [insert] at h
    split at h
    next => exact mem_cons.mp h
    next =>
      split at h
      next => exact Or.inr h
      next =>
        rcases mem_cons.mp h with rfl | h
        · exact Or.inr mem_cons_self
        · rcases ih h with hb | hl
          · exact Or.inl hb
          · exact Or.inr (mem_cons_of_mem f hl)

/-- **Sorting in** keeps the list sorted. -/
theorem insert_sorted (h : l.Pairwise fun a b => a.id < b.id) :
    (insert b l).Pairwise fun a b => a.id < b.id := by
  induction l with
  | nil => exact pairwise_singleton _ b
  | cons f l ih =>
    obtain ⟨hf, hl⟩ := pairwise_cons.mp h
    rw [insert]
    by_cases hlt : b.id < f.id
    · rw [if_pos hlt]
      refine pairwise_cons.mpr ⟨fun a ha => ?_, h⟩
      rcases mem_cons.mp ha with rfl | ha
      · exact hlt
      · exact Nat.lt_trans hlt (hf a ha)
    · rw [if_neg hlt]
      by_cases heq : b.id = f.id
      · rw [if_pos heq]
        exact h
      · rw [if_neg heq]
        refine pairwise_cons.mpr ⟨fun a ha => ?_, ih hl⟩
        rcases mem_insert ha with rfl | ha
        · omega
        · exact hf a ha

/-- **The loop of `ilpullup`**: from messages of `w` it passes those that are next, and leaves
the others. -/
theorem pull_spec (start : Nat) (l : List Blk) (c : Conv) (hopen : c.hungup = false)
    (hpre : c.rq <+: w) (hrecvd : c.recvd = start + c.rq.length)
    (hl : ∀ b ∈ l, b ∈ blocks (start + 1) w) : ∃ q o,
    Conv.pull l c = { c with recvd := start + q.length, rq := q, outoforder := o } ∧
    c.rq <+: q ∧ q <+: w ∧ o.Sublist l := by
  induction l generalizing c with
  | nil =>
    refine ⟨c.rq, [], ?_, prefix_rfl, hpre, List.Sublist.refl _⟩
    rw [Conv.pull, ← hrecvd]
  | cons b l ih =>
    have hl' : ∀ a ∈ l, a ∈ blocks (start + 1) w := fun a ha => hl a (mem_cons_of_mem b ha)
    rw [Conv.pull]
    by_cases hold : b.id ≤ c.recvd
    · rw [if_pos hold]
      obtain ⟨q, o, hrun, hq, hqw, ho⟩ := ih c hopen hpre hrecvd hl'
      exact ⟨q, o, hrun, hq, hqw, ho.trans (sublist_cons_self b l)⟩
    · rw [if_neg hold]
      by_cases hgap : b.id ≠ c.recvd + 1
      · rw [if_pos hgap]
        refine ⟨c.rq, b :: l, ?_, prefix_rfl, hpre, List.Sublist.refl _⟩
        rw [← hrecvd]
      · -- the message is the next one of `w`
        rw [if_neg hgap]
        have hid : b.id = c.recvd + 1 := not_not.mp hgap
        obtain ⟨k, hk, hid'⟩ := mem_blocks.mp (hl b mem_cons_self)
        have hlen : k = c.rq.length := by omega
        rw [hlen] at hk
        have hpass : Conv.pass { c with recvd := b.id } b.data =
            { c with recvd := b.id, rq := c.rq ++ [b.data] } := by
          simp only [Conv.pass, hopen, Bool.false_eq_true, if_false]
        rw [hpass]
        obtain ⟨q, o, hrun, hq, hqw, ho⟩ := ih { c with recvd := b.id, rq := c.rq ++ [b.data] } hopen
          (prefix_snoc hpre hk) (by simp only [length_append, length_singleton]; omega) hl'
        exact ⟨q, o, hrun, (prefix_append _ _).trans hq, hqw, ho.trans (sublist_cons_self b l)⟩

end Il
