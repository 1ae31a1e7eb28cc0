import NixKernel.SegmentCopy

/-!
# Disjoint segments

The segments of every process stay disjoint over all calls of `segattach`,
`segbrk`, `brk` and `segdetach` by all processes, as long as each call leaves out
what the tests miss: `isoverlap` does not see a segment that lies inside of the new
one, `ibrk` does not see a segment that ends inside of the new range, looks only at
the segments of the calling process, and checks nothing at all when it makes a
segment of 1 GiB pages.
-/

namespace Vmem

open StepSystem Option
open Function (update update_self update_of_ne)

variable {gig : Bool} {v v' : Vm} {p q i j a b id : Nat} {s t : Segment}

/-- No address is in both segments. -/
def Clear (s t : Segment) : Prop :=
  ∀ x, ¬ ((s.base ≤ x ∧ x < s.top) ∧ (t.base ≤ x ∧ x < t.top))

theorem Clear.symm (h : Clear s t) : Clear t s := fun x hx => h x ⟨hx.2, hx.1⟩

/-- A smaller segment is as clear. -/
theorem Clear.shrink {s' : Segment} (h : Clear s t) (hbase : s'.base = s.base)
    (htop : s'.top ≤ s.top) : Clear s' t := by
  intro x hx
  rw [hbase] at hx
  exact h x ⟨⟨hx.1.1, Nat.lt_of_lt_of_le hx.1.2 htop⟩, hx.2⟩

/-- "We may start with the bss overlapping the data." -/
def exempt (i j : Nat) : Prop := (i = dseg ∧ j = bseg) ∨ (i = bseg ∧ j = dseg)

instance (i j : Nat) : Decidable (exempt i j) := inferInstanceAs (Decidable (_ ∨ _))

theorem exempt_comm (i j : Nat) : exempt i j ↔ exempt j i := by
  unfold exempt
  omega

def Vm.Disjoint (v : Vm) : Prop :=
  ∀ p i j a b, i < nseg → j < nseg → i ≠ j → ¬ exempt i j → v.procs p i = some a →
    v.procs p j = some b → Clear (v.segs a) (v.segs b)

/-- The slots name segments of the store, and no process has one twice. -/
structure Vm.Named (v : Vm) : Prop where
  below : ∀ {p i a}, v.procs p i = some a → a < v.next
  once : ∀ {p i j a}, v.procs p i = some a → v.procs p j = some a → i = j

/-- One segment changes, and stays clear of the others of the same process. -/
theorem Vm.Disjoint.setSeg (h : v.Disjoint) (hn : v.Named)
    (hclear : ∀ q i j b, i < nseg → j < nseg → i ≠ j → ¬ exempt i j → v.procs q i = some id →
      v.procs q j = some b → b ≠ id → Clear s (v.segs b)) : (v.setSeg id s).Disjoint := by
  intro q i j a b hi hj hij hex ha hb
  change v.procs q i = some a at ha
  change v.procs q j = some b at hb
  unfold Vm.setSeg
  simp only
  by_cases haid : a = id
  · have hbid : b ≠ id := by
      intro heq
      rw [heq, ← haid] at hb
      exact hij (hn.once ha hb)
    rw [haid] at ha
    rw [haid, update_self, update_of_ne hbid]
    exact hclear q i j b hi hj hij hex ha hb hbid
  · rw [update_of_ne haid]
    by_cases hbid : b = id
    · rw [hbid] at hb
      rw [hbid, update_self]
      have hex' : ¬ exempt j i := fun hc => hex ((exempt_comm i j).mpr hc)
      exact (hclear q j i a hj hi (Ne.symm hij) hex' hb ha haid).symm
    · rw [update_of_ne hbid]
      exact h q i j a b hi hj hij hex ha hb

theorem procs_install (v : Vm) (p slot : Nat) (s : Segment) (q i : Nat) :
    (v.install p slot s).procs q i =
      if q = p ∧ i = slot then some v.next else v.procs q i := by
  show update v.procs p (update (v.procs p) slot (some v.next)) q i = _
  by_cases hq : q = p
  · subst hq
    rw [update_self]
    by_cases hi : i = slot
    · rw [hi, update_self, if_pos ⟨rfl, rfl⟩]
    · rw [update_of_ne hi, if_neg (fun hc => hi hc.2)]
  · rw [update_of_ne hq, if_neg (fun hc => hq hc.1)]

theorem segs_install (v : Vm) (p slot : Nat) (s : Segment) (a : Nat) :
    (v.install p slot s).segs a = if a = v.next then s else v.segs a := by
  show update v.segs v.next s a = _
  by_cases ha : a = v.next
  · rw [ha, update_self, if_pos rfl]
  · rw [update_of_ne ha, if_neg ha]

theorem Vm.Named.install (h : v.Named) (p slot : Nat) (s : Segment) :
    (v.install p slot s).Named := by
  constructor
  · intro q i a ha
    rw [procs_install] at ha
    show a < v.next + 1
    split at ha
    · cases ha
      omega
    · have hlt := h.below ha
      omega
  · intro q i j a ha hb
    rw [procs_install] at ha hb
    split at ha
    · next hi =>
        cases ha
        split at hb
        · next hj => exact hi.2.trans hj.2.symm
        · have hlt := h.below hb
          omega
    · split at hb
      · cases hb
        have hlt := h.below ha
        omega
      · exact h.once ha hb

/-- A new segment is clear of the others of its process. -/
theorem Vm.Disjoint.install {slot : Nat} (h : v.Disjoint) (hn : v.Named)
    (hclear : ∀ j b, j < nseg → j ≠ slot → v.procs p j = some b → Clear s (v.segs b)) :
    (v.install p slot s).Disjoint := by
  intro q i j a b hi hj hij hex ha hb
  rw [procs_install] at ha hb
  rw [segs_install, segs_install]
  split at ha
  · next hqi =>
      cases ha
      rw [if_neg (fun hc => hij (hqi.2.trans hc.2.symm))] at hb
      have hlt := hn.below hb
      rw [if_pos rfl, if_neg (Nat.ne_of_lt hlt)]
      rw [hqi.1] at hb
      exact hclear j b hj (fun hc => hij (hqi.2.trans hc.symm)) hb
  · next hqi =>
      have hlta := hn.below ha
      rw [if_neg (Nat.ne_of_lt hlta)]
      split at hb
      · next hqj =>
          cases hb
          rw [if_pos rfl]
          rw [hqj.1] at ha
          exact (hclear i a hi (fun hc => hij (hc.trans hqj.2.symm)) ha).symm
      · have hltb := hn.below hb
        rw [if_neg (Nat.ne_of_lt hltb)]
        exact h q i j a b hi hj hij hex ha hb

/-- A segment `t` that ends in the range from `base` to `newtop`. -/
def Ends (t : Segment) (base newtop : Nat) : Prop :=
  t.base < t.top ∧ base < t.top ∧ t.top ≤ newtop

/-- What the tests of `ibrk` miss when segment `id` is extended to `newtop` by process
`p`: another segment of `p` ends in the range, or one of another process that shares
the segment meets it. -/
structure Vm.RoomToGrow (v : Vm) (p id newtop : Nat) : Prop where
  own : ∀ i j b, i < nseg → j < nseg → i ≠ j → ¬ exempt i j → v.procs p i = some id →
    v.procs p j = some b → ¬ Ends (v.segs b) (v.segs id).base newtop
  sharing : ∀ q i j b, q ≠ p → i < nseg → j < nseg → i ≠ j → ¬ exempt i j →
    v.procs q i = some id → v.procs q j = some b →
    ∀ x, (v.segs id).base ≤ x → x < newtop → ¬ ((v.segs b).base ≤ x ∧ x < (v.segs b).top)

/-- What `ibrk` does not test when it makes a segment of 1 GiB pages: the range, which
does not wrap around, is free. -/
structure Vm.RoomAbove (v : Vm) (p newtop rtop : Nat) : Prop where
  nonempty : newtop < rtop
  free : ∀ j b, j < nseg → j ≠ hseg → v.procs p j = some b →
    ∀ x, newtop ≤ x → x < rtop → ¬ ((v.segs b).base ≤ x ∧ x < (v.segs b).top)

/-- There is room for what `ibrk` is going to do. -/
structure Vm.BrkRoom (gig : Bool) (v : Vm) (p addr slot : Nat) : Prop where
  grow : ∀ id addr' newtop, addr ≠ 0 → v.procs p slot = some id →
    v.brkAddr p slot (v.segs id) addr = some addr' →
    newtop = roundup addr' (pgsz gig (v.segs id).pgszi) → (v.segs id).top ≤ newtop →
    brkHuge gig slot (v.segs id) newtop = false → v.RoomToGrow p id newtop
  huge : ∀ id addr' newtop, addr ≠ 0 → v.procs p slot = some id →
    v.brkAddr p slot (v.segs id) addr = some addr' →
    newtop = roundup addr' (pgsz gig (v.segs id).pgszi) → (v.segs id).top ≤ newtop →
    brkHuge gig slot (v.segs id) newtop = true →
    v.RoomAbove p (roundup (v.segs id).top gib) (roundup newtop gib)

theorem not_brkOverlap {newtop : Nat} (h : v.brkOverlap p id newtop = false) (hj : j < nseg)
    (hb : v.procs p j = some b) (hne : b ≠ id) :
    ¬ ((v.segs b).base ≤ newtop ∧ newtop < (v.segs b).top) := by
  unfold Vm.brkOverlap at h
  rw [List.any_eq_false] at h
  have hslot := h j (List.mem_range.mpr hj)
  simp only [hb] at hslot
  intro hc
  apply hslot
  simp [hne, hc.1, hc.2]

/-- A segment with a higher top is clear of one that neither holds the new top nor ends
below it. -/
theorem clear_of_not_ends {newtop : Nat} (hbase : t.base = s.base) (htop : t.top = newtop)
    {u : Segment} (hhold : ¬ (u.base ≤ newtop ∧ newtop < u.top))
    (hends : ¬ Ends u s.base newtop) : Clear t u := by
  intro x hx
  rw [hbase, htop] at hx
  apply hends
  unfold Ends
  omega

/-- Extending a segment that has room. -/
theorem Vm.Disjoint.extend {slot newtop rtop : Nat} (h : v.Disjoint) (hn : v.Named)
    (hslot : v.procs p slot = some id) (hroom : v.RoomToGrow p id newtop) :
    (v.extend gig p id (v.segs id) newtop rtop).1.Disjoint ∧
      (v.extend gig p id (v.segs id) newtop rtop).1.Named := by
  unfold Vm.extend
  cases hover : v.brkOverlap p id newtop with
  | true => exact ⟨h, hn⟩
  | false =>
    refine ⟨?_, hn.below, hn.once⟩
    apply h.setSeg hn
    intro q i j b hi hj hij hex ha hb hne
    by_cases hq : q = p
    · subst hq
      exact clear_of_not_ends rfl rfl (not_brkOverlap hover hj hb hne)
        (hroom.own i j b hi hj hij hex ha hb)
    · intro x hx
      exact hroom.sharing q i j b hq hi hj hij hex ha hb x hx.1.1 hx.1.2 hx.2

/-- The loop finds the segment of 1 GiB pages that was made just before. -/
theorem brkOverlap_huge {newtop : Nat} (hid : id < v.next) (hbase : s.base ≤ newtop)
    (htop : newtop < s.top) : (v.install p hseg s).brkOverlap p id newtop = true := by
  unfold Vm.brkOverlap
  rw [List.any_eq_true]
  refine ⟨hseg, by decide, ?_⟩
  have hne : v.next ≠ id := by omega
  rw [procs_install, if_pos ⟨rfl, rfl⟩]
  simp only [segs_install, if_pos]
  simp [hne, hbase, htop]

variable {r : Except String Nat}

/-- What `ibrk` can do: nothing, lower the top, or extend the segment, the last perhaps
after it has made a segment of 1 GiB pages. -/
theorem ibrk_cases {addr slot : Nat} (hrun : v.ibrk gig p addr slot = some (v', r)) :
    v' = v ∨ ∃ id addr' newtop, addr ≠ 0 ∧ v.procs p slot = some id ∧
      v.brkAddr p slot (v.segs id) addr = some addr' ∧
      newtop = roundup addr' (pgsz gig (v.segs id).pgszi) ∧
      ((newtop < (v.segs id).top ∧ ∃ s, (v.segs id).shrink gig newtop = some s ∧ v' = v.setSeg id s) ∨
        ((v.segs id).top ≤ newtop ∧ brkHuge gig slot (v.segs id) newtop = false ∧
          v' = (v.extend gig p id (v.segs id) newtop newtop).1) ∨
        ((v.segs id).top ≤ newtop ∧ brkHuge gig slot (v.segs id) newtop = true ∧
          ∃ ns, newseg gig .bss (roundup (v.segs id).top gib) (roundup newtop gib) = some ns ∧
            v' = ((v.install p hseg { ns with color := (v.segs id).color }).extend gig p id
              (v.segs id) (roundup (v.segs id).top gib) (roundup newtop gib)).1)) := by
  unfold Vm.ibrk at hrun
  cases hslot : v.procs p slot with
  | none =>
    simp only [hslot] at hrun
    cases hrun
    exact Or.inl rfl
  | some id =>
    simp only [hslot] at hrun
    by_cases hzero : addr = 0
    · rw [if_pos hzero] at hrun
      cases hrun
      exact Or.inl rfl
    · rw [if_neg hzero] at hrun
      cases haddr : v.brkAddr p slot (v.segs id) addr with
      | none =>
        simp only [haddr] at hrun
        cases hrun
        exact Or.inl rfl
      | some addr' =>
        simp only [haddr] at hrun
        refine Or.inr ⟨id, addr', _, hzero, rfl, haddr, rfl, ?_⟩
        generalize roundup addr' (pgsz gig (v.segs id).pgszi) = newtop at hrun
        split at hrun
        · next hlt =>
            obtain ⟨s, hs, heq⟩ := map_eq_some_iff.mp hrun
            cases heq
            exact Or.inl ⟨hlt, s, hs, rfl⟩
        · next hge =>
            have hle := Nat.le_of_not_lt hge
            split at hrun
            · next hhuge =>
                obtain ⟨ns, hnew, heq⟩ := bind_eq_some_iff.mp hrun
                have hfst := congrArg Prod.fst (some.inj heq)
                exact Or.inr (Or.inr ⟨hle, hhuge, ns, hnew, hfst.symm⟩)
            · next hhuge =>
                have hfst := congrArg Prod.fst (some.inj hrun)
                exact Or.inr (Or.inl ⟨hle, by simpa using hhuge, hfst.symm⟩)

/-- **`ibrk` with room** keeps the segments disjoint. -/
theorem Vm.Disjoint.ibrk {addr slot : Nat} (h : v.Disjoint) (hn : v.Named)
    (hrun : v.ibrk gig p addr slot = some (v', r)) (hroom : v.BrkRoom gig p addr slot) :
    v'.Disjoint ∧ v'.Named := by
  rcases ibrk_cases hrun with hsame | ⟨id, addr', newtop, hzero, hslot, haddr, hnt, hcase⟩
  · rw [hsame]
    exact ⟨h, hn⟩
  · rcases hcase with ⟨hlt, s, hs, heq⟩ | ⟨hle, hhuge, heq⟩ | ⟨hle, hhuge, ns, hnew, heq⟩
    · rw [heq]
      refine ⟨?_, hn.below, hn.once⟩
      apply h.setSeg hn
      intro q i j b hi hj hij hex ha hb _
      have hclear := h q i j id b hi hj hij hex ha hb
      obtain ⟨hbase, htop⟩ := shrink_range hs
      exact hclear.shrink hbase (Nat.le_of_lt (htop ▸ hlt))
    · rw [heq]
      exact h.extend hn hslot (hroom.grow id addr' newtop hzero hslot haddr hnt hle hhuge)
    · have hcond := hroom.huge id addr' newtop hzero hslot haddr hnt hle hhuge
      obtain ⟨hbase, htop⟩ := newseg_range hnew
      have hover : (v.install p hseg { ns with color := (v.segs id).color }).brkOverlap
          p id (roundup (v.segs id).top gib) = true := by
        apply brkOverlap_huge (hn.below hslot)
        · exact Nat.le_of_eq hbase
        · exact Nat.lt_of_lt_of_eq hcond.nonempty htop.symm
      unfold Vm.extend at heq
      rw [if_pos hover] at heq
      rw [heq]
      refine ⟨h.install hn ?_, hn.install _ _ _⟩
      intro j b hj hne hb x hx
      simp only [hbase, htop] at hx
      exact hcond.free j b hj hne hb x hx.1.1 hx.1.2 hx.2

/-- A segment `t` that lies inside of the range from `va` to `newtop`. -/
def Inside (t : Segment) (va newtop : Nat) : Prop :=
  t.base < t.top ∧ va < t.base ∧ t.top < newtop

/-- What `isoverlap` misses: a segment of the process lies inside of the range that
`segattach` asks for. -/
def Vm.AttachRoom (gig : Bool) (physseg : List Physseg) (v : Vm) (p : Nat) (name : String)
    (va len : Nat) : Prop :=
  ∀ ps va' len', physseg.find? (·.name == name) = some ps →
    v.attachAt gig p ps va len = some (.ok (va', len')) →
    ∀ j b, j < nseg → v.procs p j = some b →
      ¬ Inside (v.segs b) va' ((va' + len') % 2 ^ 64)

theorem isoverlap_none {va len : Nat} (h : v.isoverlap p va len = none) (hj : j < nseg)
    (hb : v.procs p j = some b) :
    ¬ ((v.segs b).base < (va + len) % 2 ^ 64 ∧ (va + len) % 2 ^ 64 ≤ (v.segs b).top) ∧
      ¬ ((v.segs b).base ≤ va ∧ va < (v.segs b).top) := by
  unfold Vm.isoverlap at h
  have hslot := List.findSome?_eq_none_iff.mp h j (List.mem_range.mpr hj)
  simp only [Vm.seg, hb, map_some] at hslot
  split at hslot
  · cases hslot
  · next hc =>
      rw [not_or] at hc
      exact hc

/-- A range is clear of a segment that is not inside of it and has neither of its ends. -/
theorem clear_of_not_inside {va newtop : Nat} (hbase : s.base = va) (htop : s.top = newtop)
    (hend : ¬ (t.base < newtop ∧ newtop ≤ t.top)) (hstart : ¬ (t.base ≤ va ∧ va < t.top))
    (hin : ¬ Inside t va newtop) : Clear s t := by
  intro x hx
  rw [hbase, htop] at hx
  apply hin
  unfold Inside
  omega

theorem Vm.Disjoint.segattach {physseg : List Physseg} {name : String} {va len : Nat}
    (h : v.Disjoint) (hn : v.Named) (hrun : v.segattach gig physseg p name va len = some (v', r))
    (hroom : v.AttachRoom gig physseg p name va len) : v'.Disjoint ∧ v'.Named := by
  unfold Vm.segattach at hrun
  split at hrun
  · cases hrun
    exact ⟨h, hn⟩
  · split at hrun
    · cases hrun
      exact ⟨h, hn⟩
    · next sno _ =>
        split at hrun
        · cases hrun
          exact ⟨h, hn⟩
        · next ps hps =>
            obtain ⟨found, hat, hrest⟩ := bind_eq_some_iff.mp hrun
            cases found with
            | error e =>
              cases hrest
              exact ⟨h, hn⟩
            | ok range =>
              obtain ⟨va', len'⟩ := range
              simp only at hrest
              split at hrest
              · cases hrest
                exact ⟨h, hn⟩
              · next hfree =>
                  split at hrest
                  · cases hrest
                    exact ⟨h, hn⟩
                  · obtain ⟨ns, hnew, heq⟩ := bind_eq_some_iff.mp hrest
                    cases heq
                    obtain ⟨hbase, htop⟩ := newseg_range hnew
                    have hnone : v.isoverlap p va' len' = none := by
                      simpa using hfree
                    refine ⟨h.install hn ?_, hn.install _ _ _⟩
                    intro j b hj _ hb
                    obtain ⟨hend, hstart⟩ := isoverlap_none hnone hj hb
                    exact clear_of_not_inside hbase htop hend hstart
                      (hroom ps va' len' hps hat j b hj hb)

theorem procs_setSlot_none {slot : Nat} (hb : (v.setSlot p slot none).procs q j = some b) :
    v.procs q j = some b := by
  change update v.procs p (update (v.procs p) slot none) q j = some b at hb
  by_cases hq : q = p
  · subst hq
    rw [update_self] at hb
    by_cases hj : j = slot
    · rw [hj, update_self] at hb
      cases hb
    · rw [update_of_ne hj] at hb
      exact hb
  · rw [update_of_ne hq] at hb
    exact hb

theorem Vm.Disjoint.segdetach (h : v.Disjoint) (hn : v.Named) (p addr : Nat) :
    (v.segdetach p addr).1.Disjoint ∧ (v.segdetach p addr).1.Named := by
  unfold Vm.segdetach
  split
  · exact ⟨h, hn⟩
  · split
    · exact ⟨h, hn⟩
    · refine ⟨?_, ?_, ?_⟩
      · intro q i j a b hi hj hij hex ha hb
        exact h q i j a b hi hj hij hex (procs_setSlot_none ha) (procs_setSlot_none hb)
      · intro q i a ha
        exact hn.below (procs_setSlot_none ha)
      · intro q i j a ha hb
        exact hn.once (procs_setSlot_none ha) (procs_setSlot_none hb)

inductive VmCall where
  | segattach (p : Nat) (name : String) (va len : Nat)
  | segbrk (p saddr addr : Nat)
  | brk (p addr : Nat)
  | segdetach (p addr : Nat)

def Vm.call (gig : Bool) (physseg : List Physseg) (v : Vm) :
    VmCall → Option (Vm × Except String Nat)
  | .segattach p name va len => v.segattach gig physseg p name va len
  | .segbrk p saddr addr => v.segbrk gig p saddr addr
  | .brk p addr => v.brk gig p addr
  | .segdetach p addr => some (v.segdetach p addr)

/-- The state after a call, whatever it returns. -/
def Vm.act (gig : Bool) (physseg : List Physseg) (v : Vm) (c : VmCall) : Option Vm :=
  (v.call gig physseg c).map Prod.fst

/-- The call does not run into what the tests miss. -/
def Vm.Room (gig : Bool) (physseg : List Physseg) (v : Vm) : VmCall → Prop
  | .segattach p name va len => v.AttachRoom gig physseg p name va len
  | .segbrk p saddr addr => ∀ i, v.brkSlot p saddr = some i → v.BrkRoom gig p addr i
  | .brk p addr => v.BrkRoom gig p addr bseg
  | .segdetach _ _ => True

theorem Vm.Disjoint.segbrk {saddr addr : Nat} (h : v.Disjoint) (hn : v.Named)
    (hrun : v.segbrk gig p saddr addr = some (v', r))
    (hroom : ∀ i, v.brkSlot p saddr = some i → v.BrkRoom gig p addr i) :
    v'.Disjoint ∧ v'.Named := by
  unfold Vm.segbrk at hrun
  split at hrun
  · obtain ⟨s, _, heq⟩ := bind_eq_some_iff.mp hrun
    cases heq
    exact ⟨h, hn⟩
  · split at hrun
    · cases hrun
      exact ⟨h, hn⟩
    · next i hi =>
        obtain ⟨s, _, hrest⟩ := bind_eq_some_iff.mp hrun
        cases htype : s.type <;> simp only [htype] at hrest
        all_goals first
          | exact h.ibrk hn hrest (hroom i hi)
          | (cases hrest; exact ⟨h, hn⟩)

/-- One call keeps the segments disjoint. -/
theorem Vm.Disjoint.call {physseg : List Physseg} {c : VmCall} (h : v.Disjoint) (hn : v.Named)
    (hrun : v.call gig physseg c = some (v', r)) (hroom : v.Room gig physseg c) :
    v'.Disjoint ∧ v'.Named := by
  cases c with
  | segattach p name va len => exact h.segattach hn hrun hroom
  | segbrk p saddr addr => exact h.segbrk hn hrun hroom
  | brk p addr => exact h.ibrk hn hrun hroom
  | segdetach p addr =>
    have hdetach := h.segdetach hn p addr
    rw [some.inj hrun] at hdetach
    exact hdetach

/-- The states to start from: the segments of every process are disjoint. -/
def Vm.Start (v : Vm) : Prop := v.Disjoint ∧ v.Named

/-- One process with a stack segment. -/
def lone : Vm :=
  { segs := fun _ => (newseg false .stack (ustktop - 2 ^ 21) ustktop).getD
      { type := .stack, base := 0, top := 0, size := 0, pgszi := 0, ptepertab := 0, mapsize := 0 }
    next := 1
    procs := fun p i => if p = 0 ∧ i = sseg then some 0 else none }

/-- `physseg` as it is in the kernel. -/
def memory : List Physseg :=
  [{ type := .shared, name := "shared", size := 1984, pgszi := 1 },
    { type := .bss, name := "memory", size := 1984, pgszi := 1 }]

def attachSmall : VmCall := .segattach 0 "memory" (8 * 2 ^ 20) (2 * 2 ^ 20)

theorem attachSmall_some : (lone.act false memory attachSmall).isSome = true := by rfl

def small : Vm := (lone.act false memory attachSmall).get attachSmall_some

end Vmem
