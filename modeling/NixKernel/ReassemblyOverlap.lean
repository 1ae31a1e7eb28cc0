import NixKernel.Reassembly

/-!
# Reassembly with overlap

What holds of every fragment on a queue, whatever overlaps what.  A property that a fragment keeps when
its end is cut off (`flen` shrinks) and when its start is (its headers are moved up) holds of the whole
queue, and a queue without overlap stays one.
-/

namespace Reassembly

open List

variable {β κ : Type} {up : Nat → β → β} {more : β → Bool} {L blist : List (Frag β)} {b p : Frag β} {fend : Nat}

/-- What a fragment keeps when a part of it is covered by another. -/
structure Cut (up : Nat → β → β) (H : Frag β → Prop) : Prop where
  last : ∀ b p, H b → H p → b.foff < p.foff → p.foff < b.foff + b.flen → b.foff + b.flen < p.foff + p.flen →
    H { b with flen := p.foff - b.foff }
  first : ∀ b p, H b → H p → b.foff < p.foff + p.flen → p.foff + p.flen < b.foff + b.flen →
    H ⟨(p.foff + p.flen) % 2 ^ 16, b.foff + b.flen - (p.foff + p.flen), up (p.foff + p.flen - b.foff) b.blk⟩

/-- The fragments lie one behind the other. -/
def Apart (L : List (Frag β)) : Prop := L.Pairwise fun b c => b.foff + b.flen ≤ c.foff

theorem trimAfter_all {H : Frag β → Prop} (hcut : Cut up H) (hL : ∀ b ∈ L, H b) (hp : H p) :
    ∀ b ∈ trimAfter up (p.foff + p.flen) L, H b := by
  induction L with
  | nil => exact hL
  | cons c t ih =>
    obtain ⟨hc, ht⟩ := forall_mem_cons.mp hL
    rw [trimAfter]
    split
    · exact hL
    · next hlt =>
      split
      · next hpart =>
        have hmoved := hcut.first c p hc hp (by omega) (by omega)
        have hoff : c.foff + (p.foff + p.flen - c.foff) = p.foff + p.flen := by omega
        have hlen : c.flen - (p.foff + p.flen - c.foff) = c.foff + c.flen - (p.foff + p.flen) := by omega
        rw [hoff, hlen]
        exact forall_mem_cons.mpr ⟨hmoved, ht⟩
      · exact ih ht

/-- **Linking a fragment keeps what every fragment keeps.** -/
theorem link_all {H : Frag β → Prop} (hcut : Cut up H) (hL : ∀ b ∈ L, H b) (hp : H p)
    (hlink : link up L p = some blist) : ∀ b ∈ blist, H b := by
  have hbefore : ∀ b ∈ L.takeWhile fun bl => decide (bl.foff < p.foff), H b :=
    fun b hb => hL b (( takeWhile_prefix _).subset hb)
  have hrest : ∀ b ∈ p :: trimAfter up (p.foff + p.flen) (L.dropWhile fun bl => decide (bl.foff < p.foff)), H b :=
    forall_mem_cons.mpr ⟨hp, trimAfter_all hcut (fun b hb => hL b ((dropWhile_suffix _).subset hb)) hp⟩
  rw [link] at hlink
  dsimp only at hlink
  split at hlink
  · cases hlink
    exact hrest
  · next prev hprev =>
    have hmem := mem_of_getLast? hprev
    have hlt : prev.foff < p.foff := by simpa using mem_takeWhile_imp hmem
    split at hlink
    · cases hlink
      exact forall_mem_append.mpr ⟨hbefore, hrest⟩
    · split at hlink
      · cases hlink
      · cases hlink
        have hcutprev := hcut.last prev p (hbefore prev hmem) hp hlt (by omega) (by omega)
        have hlen : prev.flen - (prev.foff + prev.flen - p.foff) = p.foff - prev.foff := by omega
        rw [hlen]
        refine forall_mem_append.mpr ⟨fun b hb => hbefore b (dropLast_subset _ hb), ?_⟩
        exact forall_mem_cons.mpr ⟨hcutprev, hrest⟩

theorem trimAfter_apart (h : Apart L) (hfits : ∀ b ∈ L, b.foff + b.flen < 2 ^ 16) :
    Apart (trimAfter up fend L) ∧ ∀ b ∈ trimAfter up fend L, fend ≤ b.foff := by
  induction L with
  | nil => exact ⟨List.Pairwise.nil, nofun⟩
  | cons c t ih =>
    obtain ⟨hc, ht⟩ := pairwise_cons.mp h
    obtain ⟨hfc, hft⟩ := forall_mem_cons.mp hfits
    rw [trimAfter]
    split
    · next hle =>
      refine ⟨h, forall_mem_cons.mpr ⟨hle, fun b hb => ?_⟩⟩
      have hcb := hc b hb
      omega
    · split
      · next hpart =>
        have hoff : (c.foff + (fend - c.foff)) % 2 ^ 16 = fend := by omega
        rw [hoff]
        refine ⟨pairwise_cons.mpr ⟨fun b hb => ?_, ht⟩, forall_mem_cons.mpr ⟨Nat.le_refl _, fun b hb => ?_⟩⟩
        · have hcb := hc b hb
          change fend + (c.flen - (fend - c.foff)) ≤ b.foff
          omega
        · have hcb := hc b hb
          omega
      · exact ih ht hft

/-- In front of the place of a new fragment are the fragments that begin before it. -/
theorem before_ends (h : Apart L) {pre : List (Frag β)} {prev : Frag β}
    (hsplit : (L.takeWhile fun bl => decide (bl.foff < p.foff)) = pre ++ [prev]) :
    prev.foff < p.foff ∧ Apart (pre ++ [prev]) ∧ ∀ b ∈ pre, b.foff + b.flen ≤ prev.foff := by
  have hsub : (L.takeWhile fun bl => decide (bl.foff < p.foff)).Sublist L := ( takeWhile_prefix _).sublist
  rw [hsplit] at hsub
  have hapart : Apart (pre ++ [prev]) := List.Pairwise.sublist hsub h
  have hmem : prev ∈ L.takeWhile fun bl => decide (bl.foff < p.foff) := by
    rw [hsplit]
    exact mem_append_right _ mem_cons_self
  have hlt : prev.foff < p.foff := by simpa using mem_takeWhile_imp hmem
  refine ⟨hlt, hapart, fun b hb => ?_⟩
  exact (pairwise_append.mp hapart).2.2 b hb prev mem_cons_self

/-- **A queue without overlap stays one.** -/
theorem link_apart (h : Apart L) (hfits : ∀ b ∈ L, b.foff + b.flen < 2 ^ 16)
    (hlink : link up L p = some blist) : Apart blist := by
  have hafter : Apart (L.dropWhile fun bl => decide (bl.foff < p.foff)) :=
    List.Pairwise.sublist (dropWhile_suffix _).sublist h
  obtain ⟨htrim, hends⟩ := @trimAfter_apart _ up _ (p.foff + p.flen) hafter
    fun b hb => hfits b ((dropWhile_suffix _).subset hb)
  have hrest : Apart (p :: trimAfter up (p.foff + p.flen) (L.dropWhile fun bl => decide (bl.foff < p.foff))) :=
    pairwise_cons.mpr ⟨hends, htrim⟩
  have hcross : ∀ c ∈ p :: trimAfter up (p.foff + p.flen) (L.dropWhile fun bl => decide (bl.foff < p.foff)), p.foff ≤ c.foff := by
    refine forall_mem_cons.mpr ⟨Nat.le_refl _, fun c hc => ?_⟩
    have hc' := hends c hc
    omega
  rw [link] at hlink
  dsimp only at hlink
  split at hlink
  · cases hlink
    exact hrest
  · next prev hprev =>
    obtain ⟨pre, hsplit⟩ := List.getLast?_eq_some_iff.mp hprev
    obtain ⟨hlt, hapart, hpre⟩ := before_ends h hsplit
    rw [hsplit] at hlink
    split at hlink
    · next hzero =>
      cases hlink
      refine pairwise_append.mpr ⟨hapart, hrest, fun b hb c hc => ?_⟩
      have hc' := hcross c hc
      rcases mem_append.mp hb with hb | hb
      · have hb' := hpre b hb
        omega
      · obtain rfl := mem_singleton.mp hb
        omega
    · split at hlink
      · cases hlink
      · cases hlink
        have hlen : prev.flen - (prev.foff + prev.flen - p.foff) = p.foff - prev.foff := by omega
        rw [hlen, dropLast_concat]
        refine pairwise_append.mpr ⟨(pairwise_append.mp hapart).1, pairwise_cons.mpr ⟨fun c hc => ?_, hrest⟩,
          fun b hb c hc => ?_⟩
        · have hc' := hcross c hc
          change prev.foff + (p.foff - prev.foff) ≤ c.foff
          omega
        · have hb' := hpre b hb
          rcases mem_cons.mp hc with rfl | hc
          · exact hb'
          · have hc' := hcross c hc
            omega

/-- A fragment that begins no later than the others is the first one. -/
theorem link_front (h : ∀ b ∈ L, p.foff ≤ b.foff) : link up L p = some (p :: trimAfter up (p.foff + p.flen) L) := by
  have hspan := span_append (f := fun bl => decide (bl.foff < p.foff)) (L := []) (R := L) (by simp) (by simpa using h)
  rw [nil_append] at hspan
  rw [link]
  dsimp only
  rw [hspan.1, hspan.2]
  rfl

/-- Any other leaves the first one in place, and cuts its end off if it begins inside. -/
theorem link_behind {t : List (Frag β)} (h : Apart (b :: t)) (hlt : b.foff < p.foff)
    (hlink : link up (b :: t) p = some blist) :
    ∃ t', (b.foff + b.flen ≤ p.foff ∧ blist = b :: t') ∨
      (p.foff < b.foff + b.flen ∧ b.foff + b.flen < p.foff + p.flen ∧
        blist = { b with flen := p.foff - b.foff } :: t') := by
  have htake : (b :: t).takeWhile (fun bl => decide (bl.foff < p.foff)) =
      b :: t.takeWhile fun bl => decide (bl.foff < p.foff) := takeWhile_cons_of_pos (decide_eq_true hlt)
  rw [link] at hlink
  dsimp only at hlink
  split at hlink
  · next hnone =>
    rw [htake] at hnone
    exact absurd (List.getLast?_eq_none_iff.mp hnone) (cons_ne_nil _ _)
  · next prev hprev =>
    obtain ⟨pre, hsplit⟩ := List.getLast?_eq_some_iff.mp hprev
    obtain ⟨hbefore, -, hpre⟩ := before_ends h hsplit
    rw [hsplit] at hlink
    cases pre with
    | nil =>
      rw [htake] at hsplit
      obtain ⟨rfl, -⟩ := List.cons.inj hsplit
      split at hlink
      · cases hlink
        exact ⟨_, Or.inl ⟨by omega, rfl⟩⟩
      · split at hlink
        · cases hlink
        · cases hlink
          have hlen : b.flen - (b.foff + b.flen - p.foff) = p.foff - b.foff := by omega
          rw [hlen]
          exact ⟨_, Or.inr ⟨by omega, by omega, rfl⟩⟩
    | cons c pre =>
      rw [htake] at hsplit
      obtain ⟨rfl, -⟩ := List.cons.inj hsplit
      have hb := hpre b mem_cons_self
      split at hlink
      · cases hlink
        exact ⟨_, Or.inl ⟨by omega, rfl⟩⟩
      · split at hlink
        · cases hlink
        · cases hlink
          rw [dropLast_concat]
          exact ⟨_, Or.inl ⟨by omega, rfl⟩⟩

/-- One that begins inside the last and ends behind it cuts its end off. -/
theorem link_last {pre : List (Frag β)} (hpre : ∀ c ∈ pre, c.foff < p.foff) (hlt : b.foff < p.foff)
    (hin : p.foff < b.foff + b.flen) (hbehind : b.foff + b.flen < p.foff + p.flen) :
    link up (pre ++ [b]) p = some (pre ++ [{ b with flen := p.foff - b.foff }] ++ [p]) := by
  have hall : ∀ c ∈ pre ++ [b], decide (c.foff < p.foff) = true :=
    forall_mem_append.mpr ⟨fun c hc => decide_eq_true (hpre c hc), forall_mem_singleton.mpr (decide_eq_true hlt)⟩
  have hspan := span_append (R := []) hall nofun
  rw [append_nil] at hspan
  rw [link]
  dsimp only
  rw [hspan.1, hspan.2, List.getLast?_concat]
  dsimp only
  rw [if_neg (by omega), if_neg (by omega), dropLast_concat, trimAfter, append_assoc]
  have hlen : b.flen - (b.foff + b.flen - p.foff) = p.foff - b.foff := by omega
  rw [hlen]
  rfl

/-- A fragment that is freed lies inside another. -/
theorem link_covered (hlink : link up L p = none) :
    ∃ b ∈ L, b.foff < p.foff ∧ p.foff + p.flen ≤ b.foff + b.flen := by
  rw [link] at hlink
  dsimp only at hlink
  split at hlink
  · cases hlink
  · next prev hprev =>
    have hmem := mem_of_getLast? hprev
    have hlt : prev.foff < p.foff := by simpa using mem_takeWhile_imp hmem
    split at hlink
    · cases hlink
    · split at hlink
      · exact ⟨prev, ( takeWhile_prefix _).subset hmem, hlt, by omega⟩
      · cases hlink

/-- While more fragments follow, the packet is not complete. -/
theorem complete_open {pos : Nat} (h : ∀ b ∈ L, more b.blk = true) : complete more pos L = false := by
  induction L generalizing pos with
  | nil => rfl
  | cons b t ih =>
    obtain ⟨hb, ht⟩ := forall_mem_cons.mp h
    rw [complete, if_pos hb, ih ht]
    split <;> rfl

/-- The last fragment behind others that lie next to each other. -/
theorem complete_closed {pos : Nat} (hL : Tiles pos L p.foff) (h : ∀ b ∈ L, more b.blk = true)
    (hp : more p.blk = false) : complete more pos (L ++ [p]) = true := by
  induction L generalizing pos with
  | nil =>
    have hpos : pos = p.foff := hL
    rw [nil_append, complete, if_neg (not_not.mpr hpos.symm), if_neg (by rw [hp]; exact Bool.false_ne_true)]
  | cons b t ih =>
    obtain ⟨hb, ht⟩ := forall_mem_cons.mp h
    obtain ⟨hoff, -, hrest⟩ := hL
    rw [cons_append, complete, if_neg (not_not.mpr hoff), if_pos hb]
    exact ih hrest ht

theorem Tiles.sum {pos n : Nat} (h : Tiles pos L n) : pos + (L.map Frag.flen).sum = n := by
  induction L generalizing pos with
  | nil => exact h
  | cons b t ih =>
    obtain ⟨-, -, hrest⟩ := h
    have hsum := ih hrest
    rw [map_cons, sum_cons]
    omega

section Table

variable [DecidableEq κ] {tab : Table κ β} {key : κ}

theorem find_all {P : FragQueue κ β → Prop} {l : List (FragQueue κ β)} (now : Nat) (h : ∀ f ∈ l, P f) :
    (∀ f ∈ (find now key l).1, P f) ∧ (∀ f ∈ (find now key l).2.1, P f) ∧ ∀ f ∈ (find now key l).2.2, P f := by
  induction l with
  | nil => exact ⟨fun _ hf => absurd hf List.not_mem_nil, fun _ hg => (by cases hg), fun _ hf => absurd hf List.not_mem_nil⟩
  | cons f t ih =>
    obtain ⟨hf, ht⟩ := forall_mem_cons.mp h
    obtain ⟨hpre, hfound, hpost⟩ := ih ht
    rw [find]
    split
    · refine ⟨(by simp), fun g hg => ?_, ht⟩
      obtain rfl := Option.mem_some_iff.mp hg
      exact hf
    · dsimp only
      split
      · exact ⟨hpre, hfound, hpost⟩
      · exact ⟨forall_mem_cons.mpr ⟨hf, hpre⟩, hfound, hpost⟩

/-- Every fragment on every queue has the property. -/
def All (H : Frag β → Prop) (tab : Table κ β) : Prop := ∀ f ∈ tab.flist, ∀ b ∈ f.blist, H b

/-- **What every fragment keeps holds of every queue**, whatever arrives and whichever queues are given up, and of
the fragments of a complete packet. -/
theorem enter_all {H : Frag β → Prop} {single : Bool} (hcut : Cut up H) (h : All H tab) (hp : single = false → H p)
    (now : Nat) :
    All H (enter up more tab now key single p).1 ∧
      ∀ blist, (enter up more tab now key single p).2 = .done blist →
        (∀ b ∈ blist, H b) ∧ complete more 0 blist = true := by
  obtain ⟨hpre, hfound, hpost⟩ := @find_all _ _ _ key _ _ now h
  rw [enter]
  generalize find now key tab.flist = r at hpre hfound hpost
  obtain ⟨pre, f, post⟩ := r
  have hrest := forall_mem_append.mpr ⟨hpre, hpost⟩
  dsimp only at hrest hfound ⊢
  split
  · exact ⟨hrest, (by simp)⟩
  · next hpart =>
    have hp := hp (Bool.eq_false_iff.mpr hpart)
    cases f with
    | none =>
      refine ⟨forall_mem_cons.mpr ⟨forall_mem_singleton.mpr hp, fun f hf => ?_⟩, (by simp)⟩
      split at hf
      · exact hrest f (dropLast_subset _ hf)
      · exact hrest f hf
    | some f =>
      have hf := hfound f (Option.mem_some_self f)
      dsimp only
      split
      · exact ⟨forall_mem_append.mpr ⟨hpre, forall_mem_cons.mpr ⟨hf, hpost⟩⟩, (by simp)⟩
      · next blist hlink =>
        have hall := link_all hcut hf hp hlink
        split
        · next hdone =>
          refine ⟨hrest, fun bl hbl => ?_⟩
          cases hbl
          exact ⟨hall, hdone⟩
        · exact ⟨forall_mem_append.mpr ⟨hpre, forall_mem_cons.mpr ⟨hall, hpost⟩⟩, (by simp)⟩

/-- **A further fragment** for a queue. -/
theorem enter_queue (up : Nat → β → β) (more : β → Bool) (now : Nat) (h : Holding tab key L) (p : Frag β) :
    ∃ tab' o, enter up more tab now key false p = (tab', o) ∧
      ((o = .held ∧ Holding tab' key L ∧ link up L p = none) ∨
        ∃ blist, link up L p = some blist ∧
          ((o = .held ∧ Holding tab' key blist ∧ complete more 0 blist = false) ∨
            (o = .done blist ∧ Absent tab' key ∧ complete more 0 blist = true))) := by
  obtain ⟨pre, f, post, hlist, hkeys, hkey, rfl⟩ := h
  obtain ⟨hpre, hpost⟩ := forall_mem_append.mp hkeys
  obtain ⟨pre', hfind, hpre'⟩ := find_holding now post hpre hkey
  have hkeys' := forall_mem_append.mpr ⟨hpre', hpost⟩
  simp only [enter, hlist, hfind]
  cases hlink : link up f.blist p with
  | none => exact ⟨_, _, rfl, Or.inl ⟨rfl, ⟨pre', f, post, rfl, hkeys', hkey, rfl⟩, rfl⟩⟩
  | some blist =>
    by_cases hdone : complete more 0 blist = true
    · refine ⟨{ tab with flist := pre' ++ post }, .done blist, ?_, Or.inr ⟨blist, rfl, Or.inr ⟨rfl, hkeys', hdone⟩⟩⟩
      simp [hdone]
    · refine ⟨{ tab with flist := pre' ++ { f with blist } :: post }, .held, ?_,
        Or.inr ⟨blist, rfl, Or.inl ⟨rfl, ⟨pre', _, post, rfl, hkeys', hkey, rfl⟩, Bool.eq_false_iff.mpr hdone⟩⟩⟩
      simp [hdone]

end Table

end Reassembly
