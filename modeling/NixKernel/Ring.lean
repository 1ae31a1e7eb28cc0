import Mathlib

/-!
# Circular doubly linked lists

The nodes are the anchor, `none`, and the elements of a type.  `Path L x l` says
that the nodes behind `x` are `l` and then the anchor, with both links right;
`Ring L l` that this is so from the anchor on.  The two operations are written as
a program does them, one link at a time.
-/

namespace Ring

open List
open Function (update)

variable {P : Type*}

/-- The two links of every node. -/
structure Links (P : Type*) where
  next : Option P → Option P
  prev : Option P → Option P

/-- Behind `x` come the nodes `l`, and then the anchor. -/
def Path (L : Links P) (x : Option P) : List P → Prop
  | [] => L.next x = none ∧ L.prev none = x
  | y :: l => L.next x = some y ∧ L.prev (some y) = x ∧ Path L (some y) l

/-- The nodes of the ring in order. -/
structure Ringed (L : Links P) (l : List P) : Prop where
  path : Path L none l
  nodup : l.Nodup

/-- The part of `l` from node `x` on. -/
def rest [DecidableEq P] (l : List P) : Option P → List P
  | none => []
  | some x => l.dropWhile (· ≠ x)

variable {L L' : Links P} {x : Option P} {l : List P} {p q y : P}

theorem Path.congr (h : Path L x l) (hx : L'.next x = L.next x) (hlast : L'.prev none = L.prev none)
    (hl : ∀ y ∈ l, L'.next (some y) = L.next (some y) ∧ L'.prev (some y) = L.prev (some y)) :
    Path L' x l := by
  induction l generalizing x with
  | nil => exact ⟨hx.trans h.1, hlast.trans h.2⟩
  | cons y l ih =>
    have hy := hl y mem_cons_self
    refine ⟨hx.trans h.1, hy.2.trans h.2.1, ih h.2.2 hy.1 ?_⟩
    intro z hz
    exact hl z (mem_cons_of_mem y hz)

theorem Path.next_last (h : Path L x l) : L.next (L.prev none) = none := by
  induction l generalizing x with
  | nil => rw [h.2, h.1]
  | cons y l ih => exact ih h.2.2

theorem Path.next_prev (h : Path L x l) (hy : y ∈ l) : L.next (L.prev (some y)) = some y := by
  induction l generalizing x with
  | nil => cases hy
  | cons z l ih =>
    rcases mem_cons.mp hy with rfl | hy
    · rw [h.2.1, h.1]
    · exact ih h.2.2 hy

theorem Path.prev_next (h : Path L x l) (hy : y ∈ l) : L.prev (L.next (some y)) = some y := by
  induction l generalizing x with
  | nil => cases hy
  | cons z l ih =>
    rcases mem_cons.mp hy with rfl | hy
    · cases l with
      | nil => rw [h.2.2.1, h.2.2.2]
      | cons w l => rw [h.2.2.1, h.2.2.2.1]
    · exact ih h.2.2 hy

theorem Path.next_mem (h : Path L x l) (hy : y ∈ l) (hq : L.next (some y) = some q) : q ∈ l := by
  induction l generalizing x with
  | nil => cases hy
  | cons z l ih =>
    rcases mem_cons.mp hy with rfl | hy
    · cases l with
      | nil => cases h.2.2.1.symm.trans hq
      | cons w l =>
        cases h.2.2.1.symm.trans hq
        exact mem_cons_of_mem _ mem_cons_self
    · exact mem_cons_of_mem _ (ih h.2.2 hy)

theorem Ringed.next_mem (h : Ringed L l) (hx : ∀ y, x = some y → y ∈ l) (hq : L.next x = some q) :
    q ∈ l := by
  cases x with
  | none =>
    cases l with
    | nil => cases h.path.1.symm.trans hq
    | cons z l =>
      cases h.path.1.symm.trans hq
      exact mem_cons_self
  | some y => exact h.path.next_mem (hx y rfl) hq

section walk

variable [DecidableEq P]

@[simp] theorem rest_none : rest l none = [] := rfl

theorem Path.rest_next (h : Path L x l) : rest l (L.next x) = l := by
  cases l with
  | nil => rw [h.1]; rfl
  | cons y l => rw [h.1]; simp [rest]

/-- Behind a node of the ring comes its next node. -/
theorem Path.rest_step (h : Path L x l) (hnodup : l.Nodup) (hy : y ∈ l) :
    rest l (some y) = y :: rest l (L.next (some y)) := by
  induction l generalizing x with
  | nil => cases hy
  | cons z l ih =>
    obtain ⟨hz, hnodup⟩ := nodup_cons.mp hnodup
    by_cases hzy : y = z
    · subst hzy
      have hrest := h.2.2.rest_next
      cases hnext : L.next (some y) with
      | none =>
        rw [hnext] at hrest
        simp only [rest] at hrest
        simp [rest, ← hrest]
      | some w =>
        rw [hnext] at hrest
        have hw : y ≠ w := by
          rintro rfl
          cases l with
          | nil => cases h.2.2.1.symm.trans hnext
          | cons v l =>
            cases h.2.2.1.symm.trans hnext
            exact hz mem_cons_self
        have hhead : rest (y :: l) (some w) = rest l (some w) := by simp [rest, hw]
        rw [hhead, hrest]
        simp [rest]
    · have hyl : y ∈ l := (mem_cons.mp hy).resolve_left hzy
      have hskip : ∀ w ∈ l, rest (z :: l) (some w) = rest l (some w) := by
        intro w hw
        have hne : z ≠ w := fun hzw => hz (hzw ▸ hw)
        simp [rest, hne]
      rw [hskip y hyl, ih h.2.2 hnodup hyl]
      cases hnext : L.next (some y) with
      | none => rfl
      | some w => rw [hskip w (h.2.2.next_mem hyl hnext)]

theorem Ringed.rest_next (h : Ringed L l) : rest l (L.next none) = l := h.path.rest_next

theorem Ringed.rest_step (h : Ringed L l) (hy : y ∈ l) :
    rest l (some y) = y :: rest l (L.next (some y)) := h.path.rest_step h.nodup hy

/-- What lies ahead is reached by following the links. -/
theorem Ringed.reaches (h : Ringed L l) (hx : ∀ y, x = some y → y ∈ l) (hp : p ∈ rest l x) :
    ∃ k, L.next^[k] x = some p := by
  generalize hr : rest l x = r at hp
  induction r generalizing x with
  | nil => cases hp
  | cons z r ih =>
    cases x with
    | none => cases hr
    | some y =>
      rw [h.rest_step (hx y rfl), List.cons.injEq] at hr
      rcases mem_cons.mp hp with rfl | hp
      · exact ⟨0, by rw [Function.iterate_zero, id, hr.1]⟩
      · obtain ⟨k, hk⟩ := ih (fun w hw => h.path.next_mem (hx y rfl) hw) hr.2 hp
        exact ⟨k + 1, hk⟩

end walk

section ops

variable [DecidableEq P]

/-- `p->next = b; p->prev = b->prev; p->next->prev = p; p->prev->next = p`. -/
def Links.queue (L : Links P) (p : P) : Links P :=
  let next := update L.next (some p) none
  let prev := update L.prev (some p) (L.prev none)
  let prev := update prev (next (some p)) (some p)
  let next := update next (prev (some p)) (some p)
  ⟨next, prev⟩

/-- `p->next->prev = p->prev; p->prev->next = p->next`. -/
def Links.dequeue (L : Links P) (p : P) : Links P :=
  let prev := update L.prev (L.next (some p)) (L.prev (some p))
  let next := update L.next (prev (some p)) (L.next (some p))
  ⟨next, prev⟩

theorem Path.queue (h : Path L x l) (hx : x ≠ some p) (hp : p ∉ l) :
    Path (L.queue p) x (l ++ [p]) := by
  induction l generalizing x with
  | nil =>
    obtain ⟨hnext, hprev⟩ := h
    simp [Path, Links.queue, hprev, hx.symm]
  | cons y l ih =>
    obtain ⟨hnext, hprev, htail⟩ := h
    have hyp : p ≠ y ∧ p ∉ l := by simpa using hp
    have hxlast : x ≠ L.prev none := by
      intro heq
      have := htail.next_last
      rw [← heq, hnext] at this
      cases this
    have hy : (some y : Option P) ≠ some p := by simpa using hyp.1.symm
    refine ⟨?_, ?_, ih htail hy hyp.2⟩
    · simp [Links.queue, hx, hxlast, hnext]
    · simp [Links.queue, hyp.1.symm, hprev]

theorem Ringed.queue (h : Ringed L l) (hp : p ∉ l) : Ringed (L.queue p) (l ++ [p]) := by
  refine ⟨h.path.queue (by simp) hp, ?_⟩
  rw [nodup_append]
  refine ⟨h.nodup, nodup_singleton p, ?_⟩
  intro y hy z hz heq
  cases mem_singleton.mp hz
  exact hp (heq ▸ hy)

theorem Path.dequeue (h : Path L x l) (hnodup : l.Nodup) (hx : ∀ y ∈ l, x ≠ some y) (hp : p ∈ l) :
    Path (L.dequeue p) x (l.erase p) := by
  induction l generalizing x with
  | nil => cases hp
  | cons y l ih =>
    have hnp := h.next_prev hp
    have hpn := h.prev_next hp
    obtain ⟨hnext, hprev, htail⟩ := h
    obtain ⟨hyl, hnodup'⟩ := nodup_cons.mp hnodup
    have hxp : x ≠ some p := hx p hp
    by_cases hyp : y = p
    · subst hyp
      rw [erase_cons_head]
      cases l with
      | nil =>
        have hy := htail.1
        simp [Path, Links.dequeue, hprev, hy]
      | cons z l =>
        obtain ⟨hz, hzprev, hztail⟩ := htail
        obtain ⟨hzl, _⟩ := nodup_cons.mp hnodup'
        have hyz : y ≠ z := fun heq => hyl (heq ▸ mem_cons_self)
        have hxz : x ≠ some z := hx z (by simp)
        refine ⟨?_, ?_, hztail.congr ?_ ?_ ?_⟩
        · simp [Links.dequeue, hz, hyz, hprev]
        · simp [Links.dequeue, hz, hprev]
        · simp [Links.dequeue, hz, hyz, hprev, hxz.symm]
        · simp [Links.dequeue, hz]
        · intro w hw
          have hwz : w ≠ z := fun heq => hzl (heq ▸ hw)
          have hxw : x ≠ some w := hx w (by simp [hw])
          simp [Links.dequeue, hz, hyz, hprev, hwz, hxw.symm]
    · have hpl : p ∈ l := (mem_cons.mp hp).resolve_left (fun heq => hyp heq.symm)
      rw [erase_cons_tail (by simpa using hyp)]
      have hxprev : x ≠ L.prev (some p) := by
        intro heq
        rw [← heq, hnext] at hnp
        exact hyp (Option.some.inj hnp)
      have hynext : some y ≠ L.next (some p) := by
        intro heq
        rw [← heq, hprev] at hpn
        exact hxp hpn
      have hself : some p ≠ L.next (some p) := by
        intro heq
        have hlen := congrArg List.length (htail.rest_step hnodup' hpl)
        rw [← heq, length_cons] at hlen
        omega
      refine ⟨?_, ?_, ih htail hnodup' ?_ hpl⟩
      · simp [Links.dequeue, hself, hxprev, hnext]
      · simp [Links.dequeue, hynext, hprev]
      · intro z hz heq
        cases Option.some.inj heq
        exact hyl hz

theorem Ringed.dequeue (h : Ringed L l) (hp : p ∈ l) : Ringed (L.dequeue p) (l.erase p) :=
  ⟨h.path.dequeue h.nodup (by simp) hp, h.nodup.erase p⟩

end ops

end Ring
