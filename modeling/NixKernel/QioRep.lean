import NixKernel.QioModel

/-!
# What a queue holds, and what the primitive operations do to it

`Rep s l` says that the chain from `q->bfirst` holds exactly the buffers `l`,
that `q->len` and `q->dlen` are what an `int` keeps of their total space and
total data, and that `q->blast` is the last of them when there is one.  `Moves dom s l t` says that
the state `t` holds `l`, differs from the heap of `s` only at the addresses
`dom`, and has the same flags, limits and error text.
-/

namespace Qio

open HeapChain List
open Function (update update_of_ne update_comm)

/-- The blocks of a chain: addresses with their buffers. -/
abbrev Cells := List (Addr × Buf)

/-- The flattened contents of a list of blocks. -/
def flat (l : Cells) : List UInt8 := l.flatMap fun c => c.2.data

/-- The sum of `BLEN` over a list of blocks. -/
def sumBlen (l : Cells) : Nat := (l.map fun c => c.2.blen).sum

/-- The sum of `BALLOC` over a list of blocks. -/
def sumBalloc (l : Cells) : Nat := (l.map fun c => c.2.balloc).sum

@[simp] theorem flat_nil : flat [] = [] := rfl
@[simp] theorem flat_cons (c : Addr × Buf) (l : Cells) :
    flat (c :: l) = c.2.data ++ flat l := rfl
@[simp] theorem flat_append (l r : Cells) : flat (l ++ r) = flat l ++ flat r := by
  simp [flat]

@[simp] theorem sumBlen_nil : sumBlen [] = 0 := rfl
@[simp] theorem sumBlen_cons (c : Addr × Buf) (l : Cells) :
    sumBlen (c :: l) = c.2.blen + sumBlen l := by simp [sumBlen]
@[simp] theorem sumBlen_append (l r : Cells) :
    sumBlen (l ++ r) = sumBlen l + sumBlen r := by simp [sumBlen]

@[simp] theorem sumBalloc_nil : sumBalloc [] = 0 := rfl
@[simp] theorem sumBalloc_cons (c : Addr × Buf) (l : Cells) :
    sumBalloc (c :: l) = c.2.balloc + sumBalloc l := by simp [sumBalloc]
@[simp] theorem sumBalloc_append (l r : Cells) :
    sumBalloc (l ++ r) = sumBalloc l + sumBalloc r := by simp [sumBalloc]

theorem sumBlen_le (l : Cells) : sumBlen l ≤ sumBalloc l := by
  induction l with
  | nil => exact Nat.le_refl _
  | cons c l ih =>
    simp only [sumBlen_cons, sumBalloc_cons, Buf.blen, Buf.balloc]
    omega

theorem length_flat (l : Cells) : (flat l).length = sumBlen l := by
  induction l with
  | nil => rfl
  | cons c l ih => simp [ih, Buf.blen]

/-- Moving `rp` forward keeps the space of the buffer. -/
@[simp] theorem Buf.balloc_pull (b : Buf) (n : Nat) : (b.pull n).balloc = b.balloc := by
  simp only [Buf.balloc, Buf.pull, length_drop]
  omega

@[simp] theorem Buf.blen_pull (b : Buf) (n : Nat) : (b.pull n).blen = b.blen - n := by
  simp [Buf.blen, Buf.pull]

@[simp] theorem Buf.data_pull (b : Buf) (n : Nat) : (b.pull n).data = b.data.drop n := rfl

/-- The fields of a queue that the list operations do not touch. -/
def Queue.ctl (q : Queue) : Queue :=
  { q with bfirst := none, blast := none, len := 0, dlen := 0 }

theorem Queue.state_of_ctl {q q' : Queue} (h : q'.ctl = q.ctl) : q'.state = q.state := by
  have hstate := congrArg Queue.state h
  exact hstate

theorem Queue.limit_of_ctl {q q' : Queue} (h : q'.ctl = q.ctl) : q'.limit = q.limit := by
  have hlimit := congrArg Queue.limit h
  exact hlimit

/-- The queue of `s` holds exactly the blocks `l`. -/
structure Rep (s : Qs) (l : Cells) : Prop where
  chain : Chain s.heap s.q.bfirst l
  len : s.q.len = int32 (sumBalloc l)
  dlen : s.q.dlen = int32 (sumBlen l)
  last : ∀ a, (addrs l).getLast? = some a → s.q.blast = some a

/-- From `s` the queue moves to hold `l` in `t`, touching only the heap
addresses `dom`. -/
structure Moves (dom : List Addr) (s : Qs) (l : Cells) (t : Qs) : Prop where
  rep : Rep t l
  off : ∀ a ∉ dom, t.heap a = s.heap a
  ctl : t.q.ctl = s.q.ctl

variable {l : Cells} {s : Qs}

theorem Moves.refl (h : Rep s l) : Moves [] s l s :=
  ⟨h, fun _ _ => rfl, rfl⟩

variable {d e : List Addr}

theorem Moves.trans {s t u : Qs} {l m : Cells} (h₁ : Moves d s l t) (h₂ : Moves e t m u) :
    Moves (d ++ e) s m u := by
  refine ⟨h₂.rep, ?_, h₂.ctl.trans h₁.ctl⟩
  intro a ha
  rw [mem_append, not_or] at ha
  rw [h₂.off a ha.2, h₁.off a ha.1]

/-- Enlarging the touched addresses. -/
theorem Moves.weaken {s t : Qs} (h : Moves d s l t) (hde : ∀ a ∈ d, a ∈ e) :
    Moves e s l t :=
  ⟨h.rep, fun a ha => h.off a (fun had => ha (hde a had)), h.ctl⟩

/-- Like `Moves`, but addresses that were free in `s` may be used as well: what
an operation does that allocates blocks. -/
structure Does (dom : List Addr) (s : Qs) (l : Cells) (t : Qs) : Prop where
  rep : Rep t l
  off : ∀ a ∉ dom, s.heap a ≠ none → t.heap a = s.heap a
  ctl : t.q.ctl = s.q.ctl

theorem Moves.does {s t : Qs} {d : List Addr} (h : Moves d s l t) : Does d s l t :=
  ⟨h.rep, fun a ha _ => h.off a ha, h.ctl⟩

theorem Does.trans {s t u : Qs} {l m : Cells} (h₁ : Does d s l t) (h₂ : Does e t m u) :
    Does (d ++ e) s m u := by
  refine ⟨h₂.rep, ?_, h₂.ctl.trans h₁.ctl⟩
  intro a ha hs
  rw [mem_append, not_or] at ha
  have ht := h₁.off a ha.1 hs
  rw [h₂.off a ha.2 (by rw [ht]; exact hs), ht]

theorem Does.weaken {s t : Qs} (h : Does d s l t) (hde : ∀ a ∈ d, a ∈ e) :
    Does e s l t :=
  ⟨h.rep, fun a ha => h.off a (fun had => ha (hde a had)), h.ctl⟩

theorem Rep.isSome_bfirst (h : Rep s l) :
    s.q.bfirst.isSome ↔ l ≠ [] := by
  cases l with
  | nil => simp [chain_nil.mp h.chain]
  | cons c l => simp [h.chain.1]

theorem Rep.bfirst_nil (h : Rep s []) : s.q.bfirst = none :=
  chain_nil.mp h.chain

variable {a : Addr} {v : Buf}

theorem Rep.bfirst_cons {t : Cells} (h : Rep s ((a, v) :: t)) :
    s.q.bfirst = some a := h.chain.1

/-- The representation only reads the chain, the two ends and the counts. -/
theorem Rep.congr {s t : Qs} (h : Rep s l) (hheap : ∀ a ∈ addrs l, t.heap a = s.heap a)
    (hfirst : t.q.bfirst = s.q.bfirst) (hlast : t.q.blast = s.q.blast) (hlen : t.q.len = s.q.len)
    (hdlen : t.q.dlen = s.q.dlen) : Rep t l := by
  refine ⟨?_, hlen.trans h.len, hdlen.trans h.dlen, ?_⟩
  · rw [hfirst]
    exact h.chain.frame hheap
  · intro a ha
    rw [hlast]
    exact h.last a ha

variable {h : Heap}

/-- Freeing a chain removes exactly its addresses from the heap. -/
theorem freeblist_spec {p : Option Addr} (hc : Chain h p l) :
    ∃ h', freeblist h p = some h' ∧ (∀ a ∈ addrs l, h' a = none) ∧
      ∀ a ∉ addrs l, h' a = h a := by
  induction l generalizing h p with
  | nil =>
    rw [chain_nil.mp hc, freeblist]
    exact ⟨h, rfl, by simp, fun _ _ => rfl⟩
  | cons c l ih =>
    obtain ⟨a, v⟩ := c
    have hnot := hc.head_not_mem
    obtain ⟨rfl, n, ha, htail⟩ := chain_cons.mp hc
    have hfree : freeb (update h a (some ⟨none, v⟩)) a =
        some (update h a none) := by
      simp [freeb]
    obtain ⟨h', hrun, hin, hout⟩ := ih (htail.update_ne (c := none) hnot)
    refine ⟨h', ?_, ?_, ?_⟩
    · rw [freeblist]
      simp [ha, hfree, hrun]
    · intro x hx
      rcases mem_cons.mp hx with rfl | hxl
      · rw [hout _ hnot]
        simp
      · exact hin x hxl
    · intro x hx
      rw [addrs_cons, mem_cons, not_or] at hx
      rw [hout x hx.2, update_of_ne hx.1]

theorem blocklen_spec {p : Option Addr} (hc : Chain h p l) :
    blocklen h p = some (sumBlen l) := by
  induction l generalizing p with
  | nil => rw [chain_nil.mp hc, blocklen]; rfl
  | cons c l ih =>
    obtain ⟨a, v⟩ := c
    obtain ⟨rfl, n, ha, htail⟩ := chain_cons.mp hc
    rw [blocklen]
    simp [ha, ih htail]

theorem blockalloclen_spec {p : Option Addr} (hc : Chain h p l) :
    blockalloclen h p = some (sumBalloc l) := by
  induction l generalizing p with
  | nil => rw [chain_nil.mp hc, blockalloclen]; rfl
  | cons c l ih =>
    obtain ⟨a, v⟩ := c
    obtain ⟨rfl, n, ha, htail⟩ := chain_cons.mp hc
    rw [blockalloclen]
    simp [ha, ih htail]

theorem lastblock_spec (hc : Chain h (some a) l) :
    ∃ z, lastblock h a = some z ∧ (addrs l).getLast? = some z := by
  induction l generalizing a with
  | nil => exact absurd (chain_nil.mp hc) (by simp)
  | cons c l ih =>
    obtain ⟨a', v⟩ := c
    obtain ⟨hp, n, ha, htail⟩ := chain_cons.mp hc
    cases hp
    rw [lastblock]
    cases n with
    | none =>
      rw [htail.eq_nil]
      exact ⟨a, by simp [ha], by simp⟩
    | some a' =>
      obtain ⟨z, hz, hlast⟩ := ih htail
      refine ⟨z, by simp [ha, hz], ?_⟩
      rw [addrs_cons, List.getLast?_cons, hlast]
      rfl

theorem qremove_eq {n : Option Addr} (hp : s.q.bfirst = some a) (ha : s.heap a = some ⟨n, v⟩) :
    qremove s = some (⟨update s.heap a (some ⟨none, v⟩),
      { s.q with
        bfirst := n, dlen := int32 (s.q.dlen - v.blen), len := int32 (s.q.len - v.balloc) }⟩,
      some a) := by
  simp [qremove, hp, ha]

/-- The first block comes off the queue. -/
theorem qremove_spec {t : Cells} (h : Rep s ((a, v) :: t)) :
    ∃ s', qremove s = some (s', some a) ∧ Moves [a] s t s' ∧
      s'.heap a = some ⟨none, v⟩ := by
  have hnot := h.chain.head_not_mem
  obtain ⟨hp, n, ha, htail⟩ := chain_cons.mp h.chain
  refine ⟨_, qremove_eq hp ha, ⟨⟨?_, ?_, ?_, ?_⟩, ?_, rfl⟩, ?_⟩
  · exact htail.update_ne hnot
  · simp [h.len]
  · simp [h.dlen]
  · intro z hz
    apply h.last
    rw [addrs_cons, List.getLast?_cons, hz]
    rfl
  · intro x hx
    exact update_of_ne (by simpa using hx) _ _
  · simp

/-- Linking a disjoint chain behind the queue's own. -/
theorem linkTail_spec {l r : Cells} (h : Rep s l) (hr : Chain s.heap (some a) r)
    (hdisj : (addrs l).Disjoint (addrs r)) :
    ∃ s', linkTail s a = some s' ∧ Chain s'.heap s'.q.bfirst (l ++ r) ∧
      (∀ x ∉ addrs l, s'.heap x = s.heap x) ∧ Chain s'.heap (some a) r ∧
      s'.q = { s.q with bfirst := s'.q.bfirst } := by
  rcases eq_nil_or_concat l with rfl | ⟨l', c, rfl⟩
  · have hrun : linkTail s a = some { s with q := { s.q with bfirst := some a } } := by
      simp [linkTail, h.bfirst_nil]
    refine ⟨_, hrun, ?_, fun _ _ => rfl, hr, rfl⟩
    simpa using hr
  · obtain ⟨z, v⟩ := c
    simp only [concat_eq_append] at *
    have hlast : s.q.blast = some z := h.last z (by simp)
    obtain ⟨b, hb⟩ := Option.isSome_iff_exists.mp (h.isSome_bfirst.mpr (by simp))
    obtain ⟨n, hz⟩ := h.chain.lookup (a := z) (v := v) (by simp)
    have hzr : z ∉ addrs r := fun hmem => hdisj (by simp) hmem
    have hrun : linkTail s a =
        some { s with heap := update s.heap z (some ⟨some a, v⟩) } := by
      simp [linkTail, hb, hlast, hz]
    refine ⟨_, hrun, ?_, ?_, ?_, rfl⟩
    · have hc := h.chain.link_last hr hzr
      simpa using hc
    · intro x hx
      refine update_of_ne ?_ _ _
      rintro rfl
      exact hx (by simp)
    · exact hr.update_ne hzr

theorem getLast?_addrs_append {l r : Cells} {z : Addr} (hr : r ≠ []) :
    (addrs (l ++ r)).getLast? = some z ↔ (addrs r).getLast? = some z := by
  have hne : addrs r ≠ [] := by simpa [addrs] using hr
  rw [addrs_append, List.getLast?_append_of_ne_nil _ hne]

/-- `qaddlist` appends the list. -/
theorem qaddlist_spec {l r : Cells} (h : Rep s l) (hr : Chain s.heap (some a) r)
    (hdisj : (addrs l).Disjoint (addrs r)) :
    ∃ s', qaddlist s a = some s' ∧ Moves (addrs l) s (l ++ r) s' := by
  obtain ⟨s₁, hlink, hchain, hoff, hr₁, hq⟩ := linkTail_spec h hr hdisj
  obtain ⟨z, hz, hzlast⟩ := lastblock_spec hr₁
  have hne : r ≠ [] := by
    obtain ⟨v, n, t, rfl, _⟩ := hr.exists_cons
    simp
  have hrun : qaddlist s a = some { s₁ with q := { s₁.q with
      len := int32 (s₁.q.len + sumBalloc r)
      dlen := int32 (s₁.q.dlen + sumBlen r)
      blast := some z } } := by
    simp [qaddlist, hlink, blockalloclen_spec hr₁, blocklen_spec hr₁, hz]
  refine ⟨_, hrun, ⟨⟨hchain, ?_, ?_, ?_⟩, hoff, ?_⟩⟩
  · have hlen : s₁.q.len = s.q.len := by rw [hq]
    simp [hlen, h.len]
  · have hdlen : s₁.q.dlen = s.q.dlen := by rw [hq]
    simp [hdlen, h.dlen]
  · intro x hx
    rw [getLast?_addrs_append hne, hzlast] at hx
    exact hx
  · simp only [Queue.ctl]
    rw [hq]

/-- `qaddblock` appends one block. -/
theorem qaddblock_spec {n : Option Addr} (h : Rep s l) (ha : s.heap a = some ⟨n, v⟩)
    (hnot : a ∉ addrs l) :
    ∃ s', qaddblock s a = some s' ∧ Moves (a :: addrs l) s (l ++ [(a, v)]) s' := by
  have hone : Chain (update s.heap a (some ⟨none, v⟩)) (some a) [(a, v)] :=
    ⟨rfl, none, by simp, rfl⟩
  rcases eq_nil_or_concat l with rfl | ⟨l', c, rfl⟩
  · have hrun : qaddblock s a = some ⟨update s.heap a (some ⟨none, v⟩),
        { s.q with
          bfirst := some a
          blast := some a
          len := int32 (s.q.len + v.balloc)
          dlen := int32 (s.q.dlen + v.blen) }⟩ := by
      simp [qaddblock, linkTail, h.bfirst_nil, ha]
    refine ⟨_, hrun, ⟨⟨hone, ?_, ?_, ?_⟩, ?_, rfl⟩⟩
    · simp [h.len]
    · simp [h.dlen]
    · intro x hx
      simpa using hx
    · intro x hx
      exact update_of_ne (by simpa using hx) _ _
  · obtain ⟨z, w⟩ := c
    simp only [concat_eq_append] at *
    have hlast : s.q.blast = some z := h.last z (by simp)
    obtain ⟨b, hb⟩ := Option.isSome_iff_exists.mp (h.isSome_bfirst.mpr (by simp))
    obtain ⟨m, hz⟩ := h.chain.lookup (a := z) (v := w) (by simp)
    have hza : z ≠ a := by
      rintro rfl
      exact hnot (by simp)
    have hrun : qaddblock s a = some ⟨update
          (update s.heap z (some ⟨some a, w⟩)) a (some ⟨none, v⟩),
        { s.q with
          blast := some a
          len := int32 (s.q.len + v.balloc)
          dlen := int32 (s.q.dlen + v.blen) }⟩ := by
      simp [qaddblock, linkTail, hb, hlast, hz, ha]
    refine ⟨_, hrun, ⟨⟨?_, ?_, ?_, ?_⟩, ?_, rfl⟩⟩
    · have hc := (h.chain.update_ne hnot).link_last hone (by simpa using hza)
      rw [update_comm hza.symm] at hc
      simpa using hc
    · simp [h.len, Int.add_assoc]
    · simp [h.dlen, Int.add_assoc]
    · intro x hx
      simpa using hx
    · intro x hx
      rw [mem_cons, not_or] at hx
      have hxz : x ≠ z := by
        rintro rfl
        exact hx.2 (by simp)
      simp [update_of_ne hx.1, update_of_ne hxz]

/-- `qputback` puts one block in front. -/
theorem qputback_spec {n : Option Addr} (h : Rep s l) (ha : s.heap a = some ⟨n, v⟩)
    (hnot : a ∉ addrs l) :
    ∃ s', qputback s a = some s' ∧ Moves [a] s ((a, v) :: l) s' := by
  have hrun : qputback s a = some ⟨update s.heap a (some ⟨s.q.bfirst, v⟩),
      { s.q with
        blast := if s.q.bfirst.isNone then some a else s.q.blast
        bfirst := some a
        len := int32 (s.q.len + v.balloc)
        dlen := int32 (s.q.dlen + v.blen) }⟩ := by
    simp [qputback, ha]
  refine ⟨_, hrun, ⟨⟨?_, ?_, ?_, ?_⟩, ?_, rfl⟩⟩
  · exact h.chain.cons_update hnot
  · simp [h.len, Int.add_comm]
  · simp [h.dlen, Int.add_comm]
  · intro z hz
    cases l with
    | nil =>
      have hnone := h.bfirst_nil
      simp only [addrs_cons, addrs_nil, List.getLast?_singleton, Option.some.injEq] at hz
      simp [hnone, hz]
    | cons c l =>
      have hsome : s.q.bfirst = some c.1 := h.chain.1
      rw [addrs_cons, List.getLast?_cons_of_ne_nil (by simp)] at hz
      simpa [hsome] using h.last z hz
  · intro x hx
    exact update_of_ne (by simpa using hx) _ _

end Qio
