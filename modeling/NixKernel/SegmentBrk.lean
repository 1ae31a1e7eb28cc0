import NixKernel.SegmentOverlap

/-!
# The errors of `brk`

`ibrk` takes its steps one after the other: it may make a segment of 1 GiB pages
and put it into the slot `HSEG` before it looks for an overlap.  Here the call is
followed through its waits for memory as well, each of which a note can end with
an error.  A call that raises an error leaves the state as it was exactly if it
has not got as far as the slot `HSEG`.
-/

namespace Vmem

open Option

variable {gig : Bool} {v v' : Vm} {p id : Nat} {s : Segment}

def eintr : String := "interrupted"

/-- The calls of `smalloc`: for the segment, for its map if that is too large for
the one in the segment, and for the map of the segment that grows. -/
inductive Wait where
  | segment
  | newmap
  | map
  deriving DecidableEq, Repr

/-- The waits that a note ends. -/
abbrev Notes := Wait → Bool

/-- `newseg` is interrupted: in its first call of `smalloc`, or in the second, which
it makes for a large map. -/
def newsegNoted (notes : Notes) (ns : Segment) : Bool :=
  notes .segment || (ssegmapsize < ns.mapsize && notes .newmap)

/-- The end of `ibrk`, with the wait for a larger map. -/
def Vm.extendNoted (gig : Bool) (v : Vm) (p id : Nat) (s : Segment) (newtop rtop : Nat)
    (notes : Notes) : Vm × Except String Nat :=
  if v.brkOverlap p id newtop then (v, .error esoverlap)
  else if s.mapsize < (s.grow gig newtop).mapsize ∧ notes .map then (v, .error eintr)
  else (v.setSeg id (s.grow gig newtop), .ok rtop)

/-- `ibrk`, with the waits for memory. -/
def Vm.ibrkNoted (gig : Bool) (v : Vm) (p addr slot : Nat) (notes : Notes) :
    Option (Vm × Except String Nat) :=
  match v.procs p slot with
  | none => some (v, .error ebadarg)
  | some id =>
    let s := v.segs id
    if addr = 0 then some (v, .ok s.top)
    else
      match v.brkAddr p slot s addr with
      | none => some (v, .error enovmem)
      | some addr =>
        let newtop := roundup addr (pgsz gig s.pgszi)
        if newtop < s.top then (s.shrink gig newtop).map fun s => (v.setSeg id s, .ok newtop)
        else if brkHuge gig slot s newtop then
          let rtop := roundup newtop gib
          let newtop := roundup s.top gib
          (newseg gig .bss newtop rtop).map fun ns =>
            if newsegNoted notes ns then (v, .error eintr)
            else
              (v.install p hseg { ns with color := s.color }).extendNoted gig p id s newtop
                rtop notes
        else some (v.extendNoted gig p id s newtop newtop notes)

/-- The three ways into `ibrk`. -/
inductive BrkCall where
  | ibrk (addr slot : Nat)
  | segbrk (saddr addr : Nat)
  | brk (addr : Nat)

/-- The address and the slot that a call hands to `ibrk`; `syssegbrk` finds the slot, and
raises an error if the segment there is not one to extend. -/
def Vm.brkTarget (v : Vm) (p : Nat) : BrkCall → Option (Nat × Nat)
  | .ibrk addr slot => some (addr, slot)
  | .segbrk saddr addr => do
      let i ← v.brkSlot p saddr
      let s ← v.seg p i
      match s.type with
      | .text | .data | .stack => none
      | .bss | .shared | .physical => some (addr, i)
  | .brk addr => some (addr, bseg)

/-- A call: `syssegbrk` of nil asks for the top. -/
def Vm.brkCall (gig : Bool) (v : Vm) (p : Nat) (c : BrkCall) (notes : Notes) :
    Option (Vm × Except String Nat) :=
  match c, v.brkTarget p c with
  | .segbrk 0 _, _ => ((v.seg p hseg).or (v.seg p bseg)).map fun s => (v, .ok s.top)
  | _, none => some (v, .error ebadarg)
  | _, some (addr, slot) => v.ibrkNoted gig p addr slot notes

/-- The slots name segments of the store: the next one is new. -/
def Vm.Below (v : Vm) : Prop := ∀ p i a, v.procs p i = some a → a < v.next

/-- The slots, and what was in the segments, are the same: no slot has lost its segment. -/
structure Vm.Same (v v' : Vm) : Prop where
  slots : v'.procs = v.procs
  segs : ∀ id < v.next, v'.segs id = v.segs id

/-- The call gets as far as the slot `HSEG`: it extends the bss by more than the rest of
its last GiB and a GiB, 1 GiB pages are there, and the new segment is made. -/
def Vm.TakesHseg (gig : Bool) (v : Vm) (p addr slot : Nat) (notes : Notes) : Prop :=
  ∃ id addr', addr ≠ 0 ∧ v.procs p slot = some id ∧
    v.brkAddr p slot (v.segs id) addr = some addr' ∧
    (v.segs id).top ≤ roundup addr' (pgsz gig (v.segs id).pgszi) ∧
    brkHuge gig slot (v.segs id) (roundup addr' (pgsz gig (v.segs id).pgszi)) = true ∧
    ∀ ns, newseg gig .bss (roundup (v.segs id).top gib)
        (roundup (roundup addr' (pgsz gig (v.segs id).pgszi)) gib) = some ns →
      newsegNoted notes ns = false

/-- The same for any of the calls. -/
def Vm.CallTakesHseg (gig : Bool) (v : Vm) (p : Nat) (c : BrkCall) (notes : Notes) : Prop :=
  ∃ addr slot, v.brkTarget p c = some (addr, slot) ∧ v.TakesHseg gig p addr slot notes

theorem Vm.Same.refl (v : Vm) : v.Same v := ⟨rfl, fun _ _ => rfl⟩

/-- The end of `ibrk` raises its errors before it changes anything. -/
theorem extendNoted_error {newtop rtop : Nat} {notes : Notes} {e : String}
    (h : v.extendNoted gig p id s newtop rtop notes = (v', .error e)) : v' = v := by
  unfold Vm.extendNoted at h
  split_ifs at h <;> cases h <;> rfl

/-- A new segment in `HSEG` is a change. -/
theorem not_same_install (hn : v.Below) {slot : Nat} : ¬ v.Same (v.install p slot s) := by
  intro hsame
  have hslot := procs_install v p slot s p slot
  rw [if_pos ⟨rfl, rfl⟩, hsame.slots] at hslot
  exact Nat.lt_irrefl _ (hn _ _ _ hslot)

/-- **An error of `ibrk` comes with a change exactly if the call has got to the slot
`HSEG`.** -/
theorem ibrkNoted_same_iff {addr slot : Nat} {notes : Notes} {e : String} (hn : v.Below)
    (h : v.ibrkNoted gig p addr slot notes = some (v', .error e)) :
    v.Same v' ↔ ¬ v.TakesHseg gig p addr slot notes := by
  -- Where nothing has changed, it is left to see that the slot has not been reached.
  have hunchanged (heq : v' = v) (hnot : ¬ v.TakesHseg gig p addr slot notes) :
      v.Same v' ↔ ¬ v.TakesHseg gig p addr slot notes :=
    iff_of_true (heq ▸ Vm.Same.refl v) hnot
  unfold Vm.ibrkNoted at h
  cases hslot : v.procs p slot with
  | none =>
    rw [hslot] at h
    cases h
    refine hunchanged rfl ?_
    rintro ⟨id, addr', _, hid, _⟩
    cases hslot.symm.trans hid
  | some id =>
    rw [hslot] at h
    dsimp only at h
    split_ifs at h with hzero
    · cases h
    · cases haddr : v.brkAddr p slot (v.segs id) addr with
      | none =>
        rw [haddr] at h
        cases h
        refine hunchanged rfl ?_
        rintro ⟨id', addr', _, hid, haddr', _⟩
        cases hslot.symm.trans hid
        cases haddr.symm.trans haddr'
      | some addr' =>
        rw [haddr] at h
        dsimp only at h
        split_ifs at h with hlt hhuge
        · obtain ⟨_, -, heq⟩ := map_eq_some_iff.mp h
          cases heq
        · obtain ⟨ns, hns, heq⟩ := map_eq_some_iff.mp h
          split_ifs at heq with hnoted
          · cases heq
            refine hunchanged rfl ?_
            rintro ⟨id', addr'', _, hid, haddr', _, _, hmade⟩
            cases hslot.symm.trans hid
            cases haddr.symm.trans haddr'
            exact absurd (hmade ns hns) (by simp [hnoted])
          · rw [extendNoted_error heq]
            refine iff_of_false (not_same_install hn) (not_not_intro ?_)
            refine ⟨id, addr', hzero, hslot, haddr, Nat.le_of_not_lt hlt, hhuge, fun ns' hns' => ?_⟩
            cases hns.symm.trans hns'
            exact Bool.eq_false_iff.mpr hnoted
        · refine hunchanged (extendNoted_error (some.inj h)) ?_
          rintro ⟨id', addr'', _, hid, haddr', _, hhuge', _⟩
          cases hslot.symm.trans hid
          cases haddr.symm.trans haddr'
          exact hhuge hhuge'

/-- **A call that raises an error is atomic** exactly if it has not got to the slot
`HSEG`. -/
theorem brk_atomic_iff {c : BrkCall} {notes : Notes} {e : String} (hn : v.Below)
    (h : v.brkCall gig p c notes = some (v', .error e)) :
    v.Same v' ↔ ¬ v.CallTakesHseg gig p c notes := by
  have hcall {addr slot : Nat} (htarget : v.brkTarget p c = some (addr, slot)) :
      v.CallTakesHseg gig p c notes ↔ v.TakesHseg gig p addr slot notes := by
    constructor
    · rintro ⟨addr', slot', htarget', hhseg⟩
      cases htarget.symm.trans htarget'
      exact hhseg
    · intro hhseg
      exact ⟨addr, slot, htarget, hhseg⟩
  unfold Vm.brkCall at h
  split at h
  · obtain ⟨s, _, heq⟩ := Option.map_eq_some_iff.mp h
    cases heq
  · next _ htarget =>
      cases h
      refine iff_of_true (Vm.Same.refl v) ?_
      rintro ⟨addr, slot, htarget', _⟩
      cases htarget.symm.trans htarget'
  · next _ htarget =>
      rw [hcall htarget]
      exact ibrkNoted_same_iff hn h

/-- A process with its bss from 2 to 4 MiB and its stack from 8 to 16 MiB. -/
def bssAndStack : Vm :=
  { segs := fun id =>
      (if id = 0 then newseg true .bss (2 * 2 ^ 20) (4 * 2 ^ 20)
        else newseg true .stack (8 * 2 ^ 20) (16 * 2 ^ 20)).getD
      { type := .stack, base := 0, top := 0, size := 0, pgszi := 0, ptepertab := 0, mapsize := 0 }
    next := 2
    procs := fun p i =>
      if p = 0 ∧ i = bseg then some 0 else if p = 0 ∧ i = sseg then some 1 else none }

theorem bssAndStack_below : bssAndStack.Below := by
  intro p i a ha
  unfold bssAndStack at ha ⊢
  dsimp only at ha ⊢
  split_ifs at ha <;> cases ha <;> decide

/-- A call that raises an error, and a test of the slot `HSEG` that it leaves. -/
theorem brkCall_error {gig : Bool} {v : Vm} {p : Nat} {c : BrkCall} {notes : Notes} {e : String}
    {o : Option Nat}
    (h : (v.brkCall gig p c notes).any (fun r => r.1.procs p hseg == o &&
      match r.2 with | .error e' => e' == e | .ok _ => false) = true) :
    ∃ v', v.brkCall gig p c notes = some (v', .error e) ∧ v'.procs p hseg = o := by
  obtain ⟨⟨v', r⟩, hrun, htest⟩ := (any_eq_true _ _).mp h
  rw [Bool.and_eq_true, beq_iff_eq] at htest
  obtain ⟨hslot, herr⟩ := htest
  cases r with
  | ok a => cases herr
  | error e' =>
    obtain rfl : e' = e := by simpa using herr
    exact ⟨v', hrun, hslot⟩

/-- The bss is not extended into the stack, and nothing has changed. -/
theorem brk_atomic_into_stack : ∃ v',
    bssAndStack.brkCall true 0 (.brk (10 * 2 ^ 20)) (fun _ => false) = some (v', .error esoverlap) ∧
      bssAndStack.Same v' := by
  obtain ⟨v', hrun, _⟩ := @brkCall_error true bssAndStack 0 (.brk (10 * 2 ^ 20)) (fun _ => false)
    esoverlap none (by decide +kernel)
  refine ⟨v', hrun, (brk_atomic_iff bssAndStack_below hrun).mpr ?_⟩
  rintro ⟨addr, slot, htarget, id, addr', _, hid, haddr, _, hhuge, _⟩
  cases htarget
  obtain rfl : 0 = id := Option.some.inj hid
  have h10 : bssAndStack.brkAddr 0 bseg (bssAndStack.segs 0) (10 * 2 ^ 20) = some (10 * 2 ^ 20) := by
    decide +kernel
  cases h10.symm.trans haddr
  exact absurd hhuge (by decide +kernel)

/-- **An error with the slot `HSEG` taken**: a bss that is to reach 3 GiB. -/
theorem brk_changes : ∃ v', bssAndStack.Below ∧
    bssAndStack.brkCall true 0 (.brk (3 * 2 ^ 30)) (fun _ => false) = some (v', .error esoverlap) ∧
      ¬ bssAndStack.Same v' := by
  obtain ⟨v', hrun, hslot⟩ := @brkCall_error true bssAndStack 0 (.brk (3 * 2 ^ 30)) (fun _ => false)
    esoverlap (some 2) (by decide +kernel)
  refine ⟨v', bssAndStack_below, hrun, fun hsame => ?_⟩
  rw [hsame.slots] at hslot
  cases hslot

end Vmem
