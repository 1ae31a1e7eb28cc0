import NixKernel.Physalloc
import NixKernel.IndexList

/-!
# The avail lists

`Lists b L` says that list `k` is `L k`: its links end at nil, its members are
available blocks of size `k`, and a member whose `prev` is answered by a `next`
has that predecessor on the same list.  Blocks can be available without being on
a list, and a `prev` may be stale; neither matters here.
-/

namespace Physalloc

open IndexList List
open Function (update update_self update_of_ne)

/-- The first index of the table. -/
def Bal.low (b : Bal) : Nat := index b.memory

/-- Every link is nil or an index of the table. -/
structure Bal.Sane (b : Bal) : Prop where
  next : ∀ i, b.low ≤ i → (b.at i).next = 0 ∨ b.low ≤ (b.at i).next
  prev : ∀ i, b.low ≤ i → (b.at i).prev = 0 ∨ b.low ≤ (b.at i).prev
  avail : ∀ k, b.avail k = 0 ∨ b.low ≤ b.avail k

@[simp] theorem low_set (b : Bal) (r : Nat) (f : Buddy → Buddy) : (b.set r f).low = b.low := rfl

@[simp] theorem avail_set (b : Bal) (r : Nat) (f : Buddy → Buddy) :
    (b.set r f).avail = b.avail := rfl

@[simp] theorem memory_set (b : Bal) (r : Nat) (f : Buddy → Buddy) :
    (b.set r f).memory = b.memory := rfl

/-- Entries of different indices are different. -/
theorem at_set {b : Bal} {i j : Nat} (hi : b.low ≤ i) (hj : b.low ≤ j) (f : Buddy → Buddy) :
    (b.set (b.block i) f).at j = if j = i then f (b.at i) else b.at j := by
  unfold Bal.low at hi hj
  by_cases hji : j = i
  · subst hji
    simp [Bal.at, Bal.set, Bal.block]
  · have hne : b.block j ≠ b.block i := by
      unfold Bal.block
      omega
    rw [if_neg hji]
    exact update_of_ne hne _ _

variable {b : Bal} {L : Nat → List Nat} {i j k : Nat}

@[simp] theorem low_putOn (b : Bal) (k i : Nat) : (b.putOn k i).low = b.low := by
  unfold Bal.putOn
  simp only
  split <;> rfl

theorem avail_putOn (b : Bal) (k i : Nat) :
    (b.putOn k i).avail = update b.avail k i := by
  unfold Bal.putOn
  simp only
  split <;> rfl

theorem at_putOn (hs : b.Sane) (hi : b.low ≤ i) (hne : b.avail k ≠ i) (hj : b.low ≤ j) :
    (b.putOn k i).at j =
      if j = i then { avail := true, kval := k, next := b.avail k, prev := 0 }
      else if j = b.avail k ∧ j ≠ 0 then { b.at j with prev := i } else b.at j := by
  by_cases hn : b.avail k = 0
  · have hput : (b.putOn k i).at j = (b.set (b.block i) fun _ =>
        { avail := true, kval := k, next := b.avail k, prev := 0 }).at j := by
      unfold Bal.putOn
      simp only [hn, ne_eq, not_true_eq_false, if_false]
      rfl
    rw [hput, at_set hi hj]
    by_cases hji : j = i
    · simp [hji]
    · have hnot : ¬ (j = b.avail k ∧ j ≠ 0) := by
        rw [hn]
        omega
      simp [hji, hnot]
  · have hlow : b.low ≤ b.avail k := by
      rcases hs.avail k with h | h
      · exact absurd h hn
      · exact h
    have hput : (b.putOn k i).at j = ((b.set (b.block i) fun _ =>
        { avail := true, kval := k, next := b.avail k, prev := 0 }).set (b.block (b.avail k))
          fun l => { l with prev := i }).at j := by
      unfold Bal.putOn
      simp only [ne_eq, hn, not_false_eq_true, if_true]
      rfl
    have hblock : ∀ f, (b.set (b.block i) f).block (b.avail k) = b.block (b.avail k) :=
      fun _ => rfl
    rw [hput, ← hblock, at_set (by simpa using hlow) (by simpa using hj), at_set hi hj, at_set hi hlow]
    by_cases hji : j = i
    · subst hji
      simp [Ne.symm hne]
    · by_cases hja : j = b.avail k
      · subst hja
        simp [hji, hn]
      · simp [hji, hja]

theorem Bal.Sane.putOn (hs : b.Sane) (hi : b.low ≤ i) (hne : b.avail k ≠ i) :
    (b.putOn k i).Sane := by
  refine ⟨?_, ?_, ?_⟩
  · intro j hj
    rw [low_putOn] at hj ⊢
    rw [at_putOn hs hi hne hj]
    split
    · exact hs.avail k
    · split <;> exact hs.next j hj
  · intro j hj
    rw [low_putOn] at hj ⊢
    rw [at_putOn hs hi hne hj]
    split
    · exact Or.inl rfl
    · split
      · exact Or.inr hi
      · exact hs.prev j hj
  · intro k'
    rw [low_putOn, avail_putOn]
    by_cases hk : k' = k
    · subst hk
      rw [update_self]
      exact Or.inr hi
    · rw [update_of_ne hk]
      exact hs.avail k'

@[simp] theorem low_unlinkPrev (b : Bal) (i : Nat) : (b.unlinkPrev i).low = b.low := by
  unfold Bal.unlinkPrev
  simp only
  split <;> rfl

@[simp] theorem low_unlinkNext (b : Bal) (i : Nat) : (b.unlinkNext i).low = b.low := by
  unfold Bal.unlinkNext
  simp only
  split <;> rfl

@[simp] theorem low_takeOff (b : Bal) (i : Nat) : (b.takeOff i).low = b.low := by
  unfold Bal.takeOff
  simp

theorem at_unlinkPrev (hs : b.Sane) (hi : b.low ≤ i) (hj : b.low ≤ j) :
    (b.unlinkPrev i).at j =
      { b.at j with
        next := if (b.at i).prev ≠ 0 ∧ j = (b.at i).prev then (b.at i).next else (b.at j).next
        prev := if j = i then 0 else (b.at j).prev } := by
  by_cases hp : (b.at i).prev = 0
  · have hun : (b.unlinkPrev i).at j = b.at j := by
      unfold Bal.unlinkPrev
      simp only [hp, ne_eq, not_true_eq_false, if_false]
      rfl
    rw [hun]
    apply Buddy.ext <;> grind
  · have hlow : b.low ≤ (b.at i).prev := by
      rcases hs.prev i hi with h | h
      · exact absurd h hp
      · exact h
    have hun : b.unlinkPrev i = (b.set (b.block (b.at i).prev)
        fun l => { l with next := (b.at i).next }).set (b.block i)
          fun l => { l with prev := 0 } := by
      simp [Bal.unlinkPrev, hp]
    have hblock : ∀ r f, (b.set r f).block i = b.block i := fun _ _ => rfl
    rw [hun, ← hblock, at_set (by simpa using hi) (by simpa using hj), at_set hlow hj, at_set hlow hi]
    apply Buddy.ext <;> grind

theorem at_unlinkNext (hs : b.Sane) (hi : b.low ≤ i) (hj : b.low ≤ j) :
    (b.unlinkNext i).at j =
      { b.at j with
        next := if j = i then 0 else (b.at j).next
        prev := if (b.at i).next ≠ 0 ∧ j = (b.at i).next then (b.at i).prev
          else (b.at j).prev } := by
  by_cases hp : (b.at i).next = 0
  · have hun : b.unlinkNext i = b := by
      simp [Bal.unlinkNext, hp]
    rw [hun]
    apply Buddy.ext <;> grind
  · have hlow : b.low ≤ (b.at i).next := by
      rcases hs.next i hi with h | h
      · exact absurd h hp
      · exact h
    have hun : b.unlinkNext i = (b.set (b.block (b.at i).next)
        fun l => { l with prev := (b.at i).prev }).set (b.block i)
          fun l => { l with next := 0 } := by
      simp [Bal.unlinkNext, hp]
    have hblock : ∀ r f, (b.set r f).block i = b.block i := fun _ _ => rfl
    rw [hun, ← hblock, at_set (by simpa using hi) (by simpa using hj), at_set hlow hj, at_set hlow hi]
    apply Buddy.ext <;> grind

theorem Bal.Sane.unlinkPrev (hs : b.Sane) (hi : b.low ≤ i) : (b.unlinkPrev i).Sane := by
  refine ⟨?_, ?_, ?_⟩
  · intro j hj
    rw [low_unlinkPrev] at hj ⊢
    rw [at_unlinkPrev hs hi hj]
    simp only
    split
    · exact hs.next i hi
    · exact hs.next j hj
  · intro j hj
    rw [low_unlinkPrev] at hj ⊢
    rw [at_unlinkPrev hs hi hj]
    simp only
    split
    · exact Or.inl rfl
    · exact hs.prev j hj
  · intro k
    have havail := hs.avail k
    rw [low_unlinkPrev]
    unfold Bal.unlinkPrev
    simp only
    split
    · exact havail
    · by_cases hk : k = (b.at i).kval
      · left
        rw [hk]
        exact update_self _ _ _
      · simp only [update_of_ne hk]
        exact havail

/-- **What `takeOff` does to the table.**  The successor's `prev` becomes nil in any
case: `p->prev` has been cleared already when it is copied. -/
theorem at_takeOff (hs : b.Sane) (hi : b.low ≤ i) (hj : b.low ≤ j) :
    (b.takeOff i).at j =
      { avail := if j = i then false else (b.at j).avail
        kval := (b.at j).kval
        next := if j = i then 0
          else if (b.at i).prev ≠ 0 ∧ j = (b.at i).prev then (b.at i).next else (b.at j).next
        prev := if j = i then 0
          else if (b.at i).next ≠ 0 ∧ j = (b.at i).next then 0 else (b.at j).prev } := by
  have hs' := hs.unlinkPrev hi
  have hi' : (b.unlinkPrev i).low ≤ i := by simpa using hi
  have hj' : (b.unlinkPrev i).low ≤ j := by simpa using hj
  have htake : b.takeOff i = ((b.unlinkPrev i).unlinkNext i).set
      (((b.unlinkPrev i).unlinkNext i).block i) fun l => { l with avail := false } := rfl
  rw [htake, at_set (by simpa using hi) (by simpa using hj), at_unlinkNext hs' hi' hj',
    at_unlinkNext hs' hi' hi', at_unlinkPrev hs hi hj, at_unlinkPrev hs hi hi]
  apply Buddy.ext <;> grind

theorem avail_takeOff (b : Bal) (i : Nat) :
    (b.takeOff i).avail =
      if (b.at i).prev ≠ 0 then b.avail else update b.avail (b.at i).kval 0 := by
  have hprev : (b.unlinkPrev i).avail =
      if (b.at i).prev ≠ 0 then b.avail else update b.avail (b.at i).kval 0 := by
    unfold Bal.unlinkPrev
    simp only
    split <;> rfl
  have hnext : ((b.unlinkPrev i).unlinkNext i).avail = (b.unlinkPrev i).avail := by
    unfold Bal.unlinkNext
    simp only
    split <;> rfl
  rw [← hprev, ← hnext]
  rfl

theorem Bal.Sane.takeOff (hs : b.Sane) (hi : b.low ≤ i) : (b.takeOff i).Sane := by
  refine ⟨?_, ?_, ?_⟩
  · intro j hj
    rw [low_takeOff] at hj ⊢
    rw [at_takeOff hs hi hj]
    simp only
    split
    · exact Or.inl rfl
    · split
      · exact hs.next i hi
      · exact hs.next j hj
  · intro j hj
    rw [low_takeOff] at hj ⊢
    rw [at_takeOff hs hi hj]
    simp only
    split
    · exact Or.inl rfl
    · split
      · exact Or.inl rfl
      · exact hs.prev j hj
  · intro k
    have havail := hs.avail k
    rw [low_takeOff, avail_takeOff]
    split
    · exact havail
    · by_cases hk : k = (b.at i).kval
      · left
        rw [hk]
        exact update_self _ _ _
      · rw [update_of_ne hk]
        exact havail

@[simp] theorem low_pop (b : Bal) (j k : Nat) : (b.pop j k).low = b.low := rfl

theorem avail_pop (b : Bal) (j k : Nat) :
    (b.pop j k).avail = update b.avail j (b.at (b.avail j)).next := rfl

/-- What `pop` does to the table: the `prev` that is cleared is that of the index
`low` above the new first block. -/
theorem at_pop {x : Nat} (hi : b.low ≤ b.avail j) (hx : b.low ≤ x) :
    (b.pop j k).at x =
      if x = b.avail j then { avail := false, kval := k, next := 0, prev := 0 }
      else if x = (b.at (b.avail j)).next + b.low then { b.at x with prev := 0 } else b.at x := by
  let b₁ : Bal := { b with avail := update b.avail j (b.at (b.avail j)).next }
  let n := (b.at (b.avail j)).next
  have hpop : b.pop j k = (b₁.set (b₁.block (n + b.low)) fun l => { l with prev := 0 }).set
      (b₁.block (b.avail j)) fun _ => { avail := false, kval := k, next := 0, prev := 0 } := by
    have hblock : b₁.block (n + b.low) = n := by
      show n + index b.memory - index b.memory = n
      omega
    rw [hblock]
    simp [Bal.pop, b₁, n, Bal.block]
  have hblock : ∀ r f, (b₁.set r f).block (b.avail j) = b₁.block (b.avail j) := fun _ _ => rfl
  have hn : b₁.low ≤ n + b.low := Nat.le_add_left _ _
  have hat : ∀ y, b₁.at y = b.at y := fun _ => rfl
  rw [hpop, ← hblock, at_set (b := b₁.set _ _) hi hx, at_set hn hx, hat, hat]
  by_cases hxn : x = n + b.low
  · rw [hxn]
  · rw [if_neg hxn, if_neg hxn]

theorem Bal.Sane.pop (hs : b.Sane) (hi : b.low ≤ b.avail j) : (b.pop j k).Sane := by
  refine ⟨?_, ?_, ?_⟩
  · intro x hx
    rw [low_pop] at hx ⊢
    rw [at_pop hi hx]
    split
    · exact Or.inl rfl
    · split <;> exact hs.next x hx
  · intro x hx
    rw [low_pop] at hx ⊢
    rw [at_pop hi hx]
    split
    · exact Or.inl rfl
    · split
      · exact Or.inl rfl
      · exact hs.prev x hx
  · intro k'
    rw [low_pop, avail_pop]
    by_cases hk : k' = j
    · subst hk
      rw [update_self]
      exact hs.next _ hi
    · rw [update_of_ne hk]
      exact hs.avail k'

structure Lists (b : Bal) (L : Nat → List Nat) : Prop where
  sane : b.Sane
  linked : ∀ k, Linked (fun i => (b.at i).next) (b.avail k) (L k)
  mem : ∀ {k i}, i ∈ L k → b.low ≤ i ∧ (b.at i).avail = true ∧ (b.at i).kval = k
  back : ∀ {k i}, i ∈ L k → (b.at i).prev ≠ 0 → (b.at (b.at i).prev).next = i →
    (b.at i).prev ∈ L k

/-- A block that is not available is on no list, nor the first of one. -/
theorem Lists.not_mem (h : Lists b L) (hused : (b.at i).avail = false) (k : Nat) : i ∉ L k := by
  intro hmem
  have havail := (h.mem hmem).2.1
  rw [hused] at havail
  cases havail

theorem Lists.first_mem (h : Lists b L) (hne : b.avail k ≠ 0) : b.avail k ∈ L k := by
  obtain ⟨t, ht, _⟩ := (h.linked k).of_ne_zero hne
  rw [ht]
  exact mem_cons_self

theorem Lists.avail_ne (h : Lists b L) (hi : i ≠ 0) (hused : (b.at i).avail = false) (k : Nat) :
    b.avail k ≠ i := by
  intro heq
  have hmem := h.first_mem (k := k) (by rw [heq]; exact hi)
  rw [heq] at hmem
  exact h.not_mem hused k hmem

theorem Lists.putOn (h : Lists b L) (hlow : b.low ≤ i) (hi : i ≠ 0)
    (hused : (b.at i).avail = false) :
    Lists (b.putOn k i) (update L k (i :: L k)) := by
  have hne := h.avail_ne hi hused k
  have hat := fun {j} => at_putOn (j := j) h.sane hlow hne
  have hnext : ∀ {k' a}, a ∈ L k' → ((b.putOn k i).at a).next = (b.at a).next := by
    intro k' a ha
    have hai : a ≠ i := fun heq => h.not_mem hused k' (heq ▸ ha)
    rw [hat (h.mem ha).1, if_neg hai]
    split <;> rfl
  refine ⟨h.sane.putOn hlow hne, ?_, ?_, ?_⟩
  · intro k'
    rw [avail_putOn]
    by_cases hk : k' = k
    · subst hk
      rw [update_self, update_self]
      refine ⟨rfl, hi, ?_⟩
      have hfirst : ((b.putOn k' i).at i).next = b.avail k' := by
        rw [hat hlow, if_pos rfl]
      show Linked _ ((b.putOn k' i).at i).next (L k')
      rw [hfirst]
      exact (h.linked k').frame (fun a ha => hnext ha)
    · rw [update_of_ne hk, update_of_ne hk]
      exact (h.linked k').frame (fun a ha => hnext ha)
  · intro k' a ha
    rw [low_putOn]
    have hcase : (k' = k ∧ a = i) ∨ a ∈ L k' := by
      by_cases hk : k' = k
      · subst hk
        rw [update_self] at ha
        rcases mem_cons.mp ha with heq | hmem
        · exact Or.inl ⟨rfl, heq⟩
        · exact Or.inr hmem
      · rw [update_of_ne hk] at ha
        exact Or.inr ha
    rcases hcase with ⟨hk, hai⟩ | hmem
    · subst hk hai
      rw [hat hlow, if_pos rfl]
      exact ⟨hlow, rfl, rfl⟩
    · have hold := h.mem hmem
      have hai : a ≠ i := fun heq => h.not_mem hused k' (heq ▸ hmem)
      refine ⟨hold.1, ?_⟩
      rw [hat hold.1, if_neg hai]
      split <;> exact hold.2
  · intro k' a ha hprev hanswer
    have hself : a ∈ L k' → (b.at a).prev ∈ L k' → (b.at a).prev ∈ update L k (i :: L k) k' := by
      intro _ hmem
      by_cases hk : k' = k
      · subst hk
        rw [update_self]
        exact mem_cons_of_mem _ hmem
      · rw [update_of_ne hk]
        exact hmem
    by_cases hai : a = i
    · subst hai
      rw [hat hlow, if_pos rfl] at hprev
      exact absurd rfl hprev
    · have hmem : a ∈ L k' := by
        by_cases hk : k' = k
        · subst hk
          rw [update_self] at ha
          rcases mem_cons.mp ha with heq | hm
          · exact absurd heq hai
          · exact hm
        · rw [update_of_ne hk] at ha
          exact ha
      have hlowa := (h.mem hmem).1
      by_cases hfirst : a = b.avail k ∧ a ≠ 0
      · -- the old first block, now behind `i`
        have hpi : ((b.putOn k i).at a).prev = i := by
          rw [hat hlowa, if_neg hai, if_pos hfirst]
        have hkk : k' = k := by
          have hka := (h.mem (h.first_mem (k := k) (by rw [← hfirst.1]; exact hfirst.2))).2.2
          rw [← hfirst.1] at hka
          exact (h.mem hmem).2.2.symm.trans hka
        subst hkk
        rw [hpi, update_self]
        exact mem_cons_self
      · have hpa : ((b.putOn k i).at a).prev = (b.at a).prev := by
          rw [hat hlowa, if_neg hai, if_neg hfirst]
        rw [hpa] at hprev hanswer ⊢
        have hlowp := (h.sane.prev a hlowa).resolve_left hprev
        have hne0 : a ≠ 0 := (h.linked k').ne_zero hmem
        by_cases hpi : (b.at a).prev = i
        · rw [hpi, hat hlow, if_pos rfl] at hanswer
          exact absurd ⟨hanswer.symm, hne0⟩ hfirst
        · rw [hat hlowp, if_neg hpi] at hanswer
          have hold : (b.at (b.at a).prev).next = a := by
            split at hanswer
            · exact hanswer
            · exact hanswer
          exact hself hmem (h.back hmem hprev hold)

/-- The lists once `p` is taken off: it is erased from its list, or the list is
emptied when `p` looks like its first block. -/
def Bal.listsOff (b : Bal) (L : Nat → List Nat) (p : Nat) : Nat → List Nat :=
  update L (b.at p).kval
    (if (b.at p).prev ≠ 0 then (L (b.at p).kval).erase p else [])

theorem Lists.takeOff (h : Lists b L) {p : Nat} (hlow : b.low ≤ p) (hp : p ≠ 0)
    (hanswered : (b.at p).prev = 0 ∨ (b.at (b.at p).prev).next = p) :
    Lists (b.takeOff p) (b.listsOff L p) := by
  have hat := fun {j} => at_takeOff (j := j) h.sane hlow
  have hsub : ∀ {k a}, a ∈ b.listsOff L p k → a ∈ L k ∧ a ≠ p := by
    intro k a ha
    unfold Bal.listsOff at ha
    by_cases hk : k = (b.at p).kval
    · subst hk
      rw [update_self] at ha
      split at ha
      · have hnodup := (h.linked (b.at p).kval).nodup
        exact ⟨mem_of_mem_erase ha, ((hnodup.mem_erase_iff).mp ha).1⟩
      · cases ha
    · rw [update_of_ne hk] at ha
      refine ⟨ha, ?_⟩
      intro heq
      rw [heq] at ha
      exact hk (h.mem ha).2.2.symm
  -- a predecessor on a list has `p` on the same list
  have hpred : ∀ {k}, (b.at p).prev ≠ 0 → (b.at p).prev ∈ L k → p ∈ L k := by
    intro k hprev hmem
    have hans : (b.at (b.at p).prev).next = p := by
      rcases hanswered with hz | hz
      · exact absurd hz hprev
      · exact hz
    have hnext := (h.linked k).next_mem hmem (by simp only [hans]; exact hp)
    simp only [hans] at hnext
    exact hnext
  refine ⟨h.sane.takeOff hlow, ?_, ?_, ?_⟩
  · intro k
    rw [avail_takeOff]
    by_cases hprev : (b.at p).prev = 0
    · have hlists : b.listsOff L p = update L (b.at p).kval [] := by
        simp [Bal.listsOff, hprev]
      rw [hlists, if_neg (by simpa using hprev)]
      by_cases hk : k = (b.at p).kval
      · subst hk
        rw [update_self, update_self]
        exact rfl
      · rw [update_of_ne hk, update_of_ne hk]
        apply (h.linked k).frame
        intro a ha
        have hap : a ≠ p := fun heq => hk (heq ▸ (h.mem ha).2.2).symm
        rw [hat (h.mem ha).1]
        simp [hap, hprev]
    · have hlists : b.listsOff L p =
          update L (b.at p).kval ((L (b.at p).kval).erase p) := by
        simp [Bal.listsOff, hprev]
      rw [hlists, if_pos hprev]
      have hans : (b.at (b.at p).prev).next = p := by
        rcases hanswered with hz | hz
        · exact absurd hz hprev
        · exact hz
      by_cases hk : k = (b.at p).kval
      · subst hk
        rw [update_self]
        by_cases hpm : p ∈ L (b.at p).kval
        · have hq := h.back hpm hprev hans
          have hbyp := (h.linked (b.at p).kval).bypass hq hans hp
          apply hbyp.frame
          intro a ha
          have hnodup := (h.linked (b.at p).kval).nodup
          obtain ⟨hap, hal⟩ := (hnodup.mem_erase_iff).mp ha
          rw [hat (h.mem hal).1]
          by_cases haq : a = (b.at p).prev
          · subst haq
            rw [update_self]
            simp [hap, hprev]
          · rw [update_of_ne haq]
            simp [hap, haq]
        · rw [erase_of_not_mem hpm]
          apply (h.linked _).frame
          intro a ha
          have hap : a ≠ p := fun heq => hpm (heq ▸ ha)
          have haq : a ≠ (b.at p).prev := fun heq => hpm (hpred hprev (heq ▸ ha))
          rw [hat (h.mem ha).1]
          simp [hap, haq]
      · rw [update_of_ne hk]
        apply (h.linked k).frame
        intro a ha
        have hpk : p ∉ L k := fun hm => hk (h.mem hm).2.2.symm
        have hap : a ≠ p := fun heq => hpk (heq ▸ ha)
        have haq : a ≠ (b.at p).prev := fun heq => hpk (hpred hprev (heq ▸ ha))
        rw [hat (h.mem ha).1]
        simp [hap, haq]
  · intro k a ha
    obtain ⟨hmem, hap⟩ := hsub ha
    have hold := h.mem hmem
    rw [low_takeOff, hat hold.1]
    refine ⟨hold.1, ?_, hold.2.2⟩
    simp only [if_neg hap]
    exact hold.2.1
  · intro k a ha hprev hanswer
    obtain ⟨hmem, hap⟩ := hsub ha
    have hlowa := (h.mem hmem).1
    have hne0 : a ≠ 0 := (h.linked k).ne_zero hmem
    rw [hat hlowa] at hprev hanswer ⊢
    simp only [if_neg hap] at hprev hanswer ⊢
    by_cases hsucc : (b.at p).next ≠ 0 ∧ a = (b.at p).next
    · rw [if_pos hsucc] at hprev
      exact absurd rfl hprev
    · rw [if_neg hsucc] at hprev hanswer ⊢
      have hlowp := (h.sane.prev a hlowa).resolve_left hprev
      rw [hat hlowp] at hanswer
      simp only at hanswer
      by_cases hyp : (b.at a).prev = p
      · rw [if_pos hyp] at hanswer
        exact absurd hanswer.symm hne0
      · rw [if_neg hyp] at hanswer
        by_cases hyq : (b.at p).prev ≠ 0 ∧ (b.at a).prev = (b.at p).prev
        · rw [if_pos hyq] at hanswer
          have hnz : (b.at p).next ≠ 0 := by
            rw [hanswer]
            exact hne0
          exact absurd ⟨hnz, hanswer.symm⟩ hsucc
        · rw [if_neg hyq] at hanswer
          have hq := h.back hmem hprev hanswer
          unfold Bal.listsOff at ha ⊢
          by_cases hk : k = (b.at p).kval
          · subst hk
            rw [update_self] at ha ⊢
            split at ha
            · next hpr =>
                rw [if_pos hpr]
                exact (mem_erase_of_ne hyp).mpr hq
            · cases ha
          · rw [update_of_ne hk]
            exact hq

theorem Lists.pop (h : Lists b L) (hne : b.avail j ≠ 0) :
    Lists (b.pop j k) (update L j (L j).tail) := by
  have hfirst := h.first_mem hne
  have hlow := (h.mem hfirst).1
  obtain ⟨t, ht, htail⟩ := (h.linked j).of_ne_zero hne
  have hnodup := (h.linked j).nodup
  rw [ht, nodup_cons] at hnodup
  have hat := fun {x} => at_pop (x := x) (k := k) hlow
  have hsub : ∀ {k' a}, a ∈ update L j (L j).tail k' → a ∈ L k' ∧ a ≠ b.avail j := by
    intro k' a ha
    by_cases hk : k' = j
    · subst hk
      rw [update_self, ht] at ha
      refine ⟨?_, fun heq => hnodup.1 (heq ▸ ha)⟩
      rw [ht]
      exact mem_cons_of_mem _ ha
    · rw [update_of_ne hk] at ha
      refine ⟨ha, ?_⟩
      intro heq
      rw [heq] at ha
      exact hk ((h.mem ha).2.2.symm.trans (h.mem hfirst).2.2)
  have hnext : ∀ k' {a}, a ∈ L k' → a ≠ b.avail j → ((b.pop j k).at a).next = (b.at a).next := by
    intro k' a ha hai
    rw [hat (h.mem ha).1, if_neg hai]
    split <;> rfl
  refine ⟨h.sane.pop hlow, ?_, ?_, ?_⟩
  · intro k'
    rw [avail_pop]
    by_cases hk : k' = j
    · subst hk
      rw [update_self, update_self, ht]
      apply htail.frame
      intro a ha
      exact hnext k' (by rw [ht]; exact mem_cons_of_mem _ ha)
        (fun heq => hnodup.1 (heq ▸ ha))
    · rw [update_of_ne hk, update_of_ne hk]
      apply (h.linked k').frame
      intro a ha
      apply hnext _ ha
      intro heq
      rw [heq] at ha
      exact hk ((h.mem ha).2.2.symm.trans (h.mem hfirst).2.2)
  · intro k' a ha
    obtain ⟨hmem, hai⟩ := hsub ha
    have hold := h.mem hmem
    rw [low_pop, hat hold.1, if_neg hai]
    refine ⟨hold.1, ?_⟩
    split <;> exact hold.2
  · intro k' a ha hprev hanswer
    obtain ⟨hmem, hai⟩ := hsub ha
    have hlowa := (h.mem hmem).1
    have hne0 : a ≠ 0 := (h.linked k').ne_zero hmem
    rw [hat hlowa, if_neg hai] at hprev hanswer ⊢
    by_cases hclr : a = (b.at (b.avail j)).next + b.low
    · rw [if_pos hclr] at hprev
      exact absurd rfl hprev
    · rw [if_neg hclr] at hprev hanswer ⊢
      have hlowp := (h.sane.prev a hlowa).resolve_left hprev
      rw [hat hlowp] at hanswer
      by_cases hyi : (b.at a).prev = b.avail j
      · rw [if_pos hyi] at hanswer
        exact absurd hanswer.symm hne0
      · rw [if_neg hyi] at hanswer
        have hold : (b.at (b.at a).prev).next = a := by
          split at hanswer
          · exact hanswer
          · exact hanswer
        have hq := h.back hmem hprev hold
        by_cases hk : k' = j
        · subst hk
          rw [update_self]
          rw [ht] at hq ⊢
          rcases mem_cons.mp hq with heq | hm
          · exact absurd heq hyi
          · exact hm
        · rw [update_of_ne hk]
          exact hq

end Physalloc
