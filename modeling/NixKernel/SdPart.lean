import Mathlib

/-!
# Partitions of a unit: `sdaddpart`, `sddelpart` and `sdincvers`

A unit has an array of partitions, some of them valid.  `sdaddpart` goes through the array for the name
and for a free slot at once, and stops at the first slot that is free: it does not see the name behind
it.  `sddelpart` goes by the names and not by what is valid: it may stop at an entry that has been
deleted before, and a slot that has never been filled has no name to compare with.

A new medium has other sectors, and leaves no partition valid.
-/

namespace SdPart

open List Option

variable {Name User : Type} [DecidableEq Name]

def sdNpart : Nat := 16

def nPart : Nat := 256

/-- A slot; it has no name and no user until it is filled. -/
structure SDpart (Name User : Type) where
  start : UInt64
  stop : UInt64
  name : Option Name
  user : Option User
  perm : UInt32
  valid : Bool
  vers : UInt32
  filled : valid = true → name.isSome

/-- What `malloc` gives. -/
def SDpart.zero : SDpart Name User := ⟨0, 0, none, none, 0, false, 0, fun h => nomatch h⟩

/-- A unit, with `part` nil or an array. -/
structure SDunit (Name User : Type) where
  sectors : UInt64
  part : Option (List (SDpart Name User))
  vers : UInt32

inductive Err
  | ebadctl
  | enomem
  | eio
  | eperm
  deriving DecidableEq, Repr

/-- How a call ends; it runs wild with a nil pointer. -/
inductive Ending
  | returned
  | raised (e : Err)
  | wild
  deriving DecidableEq, Repr

/-- What the loop of `sdaddpart` finds: the partition itself, one of its name, a free slot, or none. -/
inductive Slot
  | same
  | used
  | free (partno : Nat)
  | full
  deriving DecidableEq, Repr

def search (name : Name) (start stop : UInt64) : List (SDpart Name User) → Nat → Slot
  | [], _ => .full
  | pp :: l, i =>
    if !pp.valid then .free i
    else if pp.name = some name then
      if pp.start = start ∧ pp.stop = stop then .same else .used
    else search name start stop l (i + 1)

/-- The slot filled. -/
def SDpart.fill (pp : SDpart Name User) (eve : User) (name : Name) (start stop : UInt64) : SDpart Name User :=
  { pp with
    start, stop, name := some name, user := some eve, perm := 0o640, valid := true, filled := fun _ => rfl }

/-- The end of `sdaddpart`, with the slot found. -/
def SDunit.put (u : SDunit Name User) (arr : List (SDpart Name User)) (partno : Nat) (eve : User)
    (name : Name) (start stop : UInt64) : Ending × SDunit Name User :=
  if start > stop ∨ stop > u.sectors then (.raised .eio, { u with part := some arr })
  else (.returned, { u with part := some (arr.modify partno fun pp => pp.fill eve name start stop) })

/-- `mem` is whether there is memory for a new array. -/
def sdaddpart (mem : Bool) (eve : User) (name : Name) (start stop : UInt64) (u : SDunit Name User) :
    Ending × SDunit Name User :=
  match u.part with
  | none =>
    if !mem then (.raised .enomem, u)
    else u.put (List.replicate sdNpart .zero) 0 eve name start stop
  | some arr =>
    match search name start stop arr 0 with
    | .same => (.returned, u)
    | .used => (.raised .ebadctl, u)
    | .free partno => u.put arr partno eve name start stop
    | .full =>
      if arr.length ≥ nPart ∨ !mem then (.raised .enomem, u)
      else u.put (arr ++ List.replicate sdNpart .zero) arr.length eve name start stop

/-- What the loop of `sddelpart` finds. -/
inductive Look
  | at (i : Nat)
  | missing
  | wild
  deriving DecidableEq, Repr

def look (name : Name) : List (SDpart Name User) → Nat → Look
  | [], _ => .missing
  | pp :: l, i =>
    match pp.name with
    | none => .wild
    | some n => if name = n then .at i else look name l (i + 1)

/-- An entry deleted. -/
def SDpart.drop (pp : SDpart Name User) : SDpart Name User :=
  { pp with valid := false, vers := pp.vers + 1, filled := fun h => nomatch h }

/-- `user` is that of `up`. -/
def sddelpart [DecidableEq User] (user eve : User) (name : Name) (u : SDunit Name User) :
    Ending × SDunit Name User :=
  let arr := u.part.getD []
  match look name arr 0 with
  | .missing => (.raised .ebadctl, u)
  | .wild => (.wild, u)
  | .at i =>
    if arr[i]?.bind SDpart.user ≠ some user ∧ user ≠ eve then (.raised .eperm, u)
    else (.returned, { u with part := u.part.map (·.modify i SDpart.drop) })

/-- A new medium. -/
def sdincvers (sectors : UInt64) (u : SDunit Name User) : Ending × SDunit Name User :=
  (.returned, ⟨sectors, u.part.map (·.map SDpart.drop), u.vers + 1⟩)

inductive Op (Name User : Type)
  | sdaddpart (mem : Bool) (eve : User) (name : Name) (start stop : UInt64)
  | sddelpart (user eve : User) (name : Name)
  | sdincvers (sectors : UInt64)

def Op.apply [DecidableEq User] (u : SDunit Name User) : Op Name User → Ending × SDunit Name User
  | .sdaddpart mem eve name start stop => SdPart.sdaddpart mem eve name start stop u
  | .sddelpart user eve name => SdPart.sddelpart user eve name u
  | .sdincvers sectors => SdPart.sdincvers sectors u

/-- The array, empty when there is none. -/
def SDunit.arr (u : SDunit Name User) : List (SDpart Name User) := u.part.getD []

/-- The valid entries. -/
def valids (arr : List (SDpart Name User)) : List (SDpart Name User) := arr.filter SDpart.valid

/-- **What the table is for**: no two valid entries have one name, and each lies within the medium. -/
structure SDunit.Sound (u : SDunit Name User) : Prop where
  names : ((valids u.arr).map SDpart.name).Nodup
  extent : ∀ pp ∈ valids u.arr, pp.start ≤ pp.stop ∧ pp.stop ≤ u.sectors

/-- What a call of `sdaddpart` may do: nothing for a partition that is there, or put one into a slot that
is not valid, or fail with what is valid as it was. -/
def AddRight (eve : User) (name : Name) (start stop : UInt64) (u : SDunit Name User) :
    Ending × SDunit Name User → Prop
  | (.returned, u') =>
    (u' = u ∧ ∃ pp ∈ valids u.arr, pp.name = some name ∧ pp.start = start ∧ pp.stop = stop) ∨
      ((∀ pp ∈ valids u.arr, pp.name ≠ some name) ∧
        ∃ pre pp post, u'.arr = pre ++ pp.fill eve name start stop :: post ∧ pp.valid = false ∧
          (u.arr = pre ++ pp :: post ∨ u.arr = pre ∧ valids post = []))
  | (.raised _, u') => valids u'.arr = valids u.arr ∧ u.arr <+: u'.arr
  | (.wild, _) => False

/-- What a call of `sddelpart` may do: make the one valid entry of the name invalid, or fail with nothing
changed. -/
def DelRight (name : Name) (u : SDunit Name User) : Ending × SDunit Name User → Prop
  | (.returned, u') => ∃ pre pp post, u.arr = pre ++ pp :: post ∧ pp.valid = true ∧ pp.name = some name ∧
      (∀ x ∈ valids (pre ++ post), x.name ≠ some name) ∧
      u' = { u with part := some (pre ++ pp.drop :: post) }
  | (.raised _, u') => u' = u
  | (.wild, _) => False

/-- A step of a run does what it is for. -/
def Op.Right [DecidableEq User] (u : SDunit Name User) : Op Name User → Prop
  | .sdaddpart mem eve name start stop =>
    AddRight eve name start stop u (SdPart.sdaddpart mem eve name start stop u)
  | .sddelpart user eve name => DelRight name u (SdPart.sddelpart user eve name u)
  | .sdincvers _ => True

/-- Every step is right, and the table is sound before and after each. -/
def Good [DecidableEq User] (u : SDunit Name User) : List (Op Name User) → Prop
  | [] => u.Sound
  | op :: l => u.Sound ∧ op.Right u ∧ Good (op.apply u).2 l

/-- An entry at which the loop of `sddelpart` stops: it has that name, or it has none. -/
def SDpart.Stops (name : Name) (pp : SDpart Name User) : Prop := pp.name = none ∨ pp.name = some name

instance (name : Name) (pp : SDpart Name User) : Decidable (pp.Stops name) :=
  inferInstanceAs (Decidable (_ ∨ _))

/-- **When a step goes well**.  An added partition that fits the medium has no valid namesake behind the
first slot that is free.  For a deletion, the first entry of that name or of none is of that name and
valid, or it may not be deleted by this user. -/
def Op.Fits [DecidableEq User] (u : SDunit Name User) : Op Name User → Prop
  | .sdaddpart _ _ name start stop => start ≤ stop ∧ stop ≤ u.sectors →
      ∀ pp ∈ valids (u.arr.dropWhile SDpart.valid), pp.name ≠ some name
  | .sddelpart user eve name =>
    ∀ pp, u.arr.find? (fun pp => pp.Stops name) = some pp →
      pp.name = some name ∧ (pp.valid = true ∨ pp.user ≠ some user ∧ user ≠ eve)
  | .sdincvers _ => True

def AllFit [DecidableEq User] (u : SDunit Name User) : List (Op Name User) → Prop
  | [] => True
  | op :: l => op.Fits u ∧ AllFit (op.apply u).2 l

variable {name : Name} {start stop : UInt64} {eve : User}
variable {arr : List (SDpart Name User)} {u : SDunit Name User}

/-- The name is found before the first slot that is free. -/
def Seen (name : Name) (arr : List (SDpart Name User)) : Prop :=
  ∃ pre pp post, arr = pre ++ pp :: post ∧ (∀ x ∈ pre, x.valid = true) ∧ pp.valid = true ∧ pp.name = some name

omit [DecidableEq Name] in
theorem Seen.cons {pp : SDpart Name User} (h : Seen name arr) (hvalid : pp.valid = true) :
    Seen name (pp :: arr) := by
  obtain ⟨pre, x, post, rfl, hpre, hx⟩ := h
  exact ⟨pp :: pre, x, post, rfl, forall_mem_cons.mpr ⟨hvalid, hpre⟩, hx⟩

/-- What the loop has seen, by what it finds. -/
theorem search_spec (name : Name) (start stop : UInt64) (arr : List (SDpart Name User)) (i : Nat) :
    match search name start stop arr i with
    | .same => Seen name arr ∧ ∃ pp ∈ valids arr, pp.name = some name ∧ pp.start = start ∧ pp.stop = stop
    | .used => Seen name arr
    | .free partno => ∃ pre pp post, arr = pre ++ pp :: post ∧ partno = i + pre.length ∧
        (∀ x ∈ pre, x.valid = true ∧ x.name ≠ some name) ∧ pp.valid = false
    | .full => ∀ x ∈ arr, x.valid = true ∧ x.name ≠ some name := by
  induction arr generalizing i with
  | nil => exact fun x hx => (not_mem_nil hx).elim
  | cons pp l ih =>
    rw [search]
    by_cases hvalid : pp.valid = true
    · rw [if_neg (by rw [hvalid]; decide)]
      have hmem : valids (pp :: l) = pp :: valids l := filter_cons_of_pos hvalid
      by_cases hname : pp.name = some name
      · rw [if_pos hname]
        have hseen : Seen name (pp :: l) :=
          ⟨[], pp, l, rfl, fun _ hx => (not_mem_nil hx).elim, hvalid, hname⟩
        by_cases hext : pp.start = start ∧ pp.stop = stop
        · rw [if_pos hext]
          exact ⟨hseen, pp, hmem ▸ mem_cons_self, hname, hext⟩
        · rw [if_neg hext]
          exact hseen
      · rw [if_neg hname]
        have htail := ih (i + 1)
        cases hfound : search name start stop l (i + 1) with
        | same =>
          rw [hfound] at htail
          obtain ⟨hseen, x, hx, heq⟩ := htail
          exact ⟨hseen.cons hvalid, x, hmem ▸ mem_cons_of_mem _ hx, heq⟩
        | used =>
          rw [hfound] at htail
          exact htail.cons hvalid
        | free partno =>
          rw [hfound] at htail
          obtain ⟨pre, x, post, rfl, hpart, hpre, hx⟩ := htail
          refine ⟨pp :: pre, x, post, rfl, ?_, forall_mem_cons.mpr ⟨⟨hvalid, hname⟩, hpre⟩, hx⟩
          rw [hpart, length_cons]
          omega
        | full =>
          rw [hfound] at htail
          exact forall_mem_cons.mpr ⟨⟨hvalid, hname⟩, htail⟩
    · rw [if_pos (by rw [Bool.eq_false_iff.mpr hvalid]; rfl)]
      exact ⟨[], pp, l, rfl, rfl, fun _ hx => (not_mem_nil hx).elim, Bool.eq_false_iff.mpr hvalid⟩

omit [DecidableEq Name] in
/-- The entry behind `pre` changed. -/
theorem modify_behind (f : SDpart Name User → SDpart Name User) (pre : List (SDpart Name User))
    (pp : SDpart Name User) (post : List (SDpart Name User)) :
    (pre ++ pp :: post).modify pre.length f = pre ++ f pp :: post := by
  induction pre with
  | nil => rfl
  | cons x pre ih => exact congrArg (x :: ·) ih

omit [DecidableEq Name] in
/-- What is put into the slot behind `pre`. -/
theorem put_eq (u : SDunit Name User) (pre : List (SDpart Name User)) (pp : SDpart Name User)
    (post : List (SDpart Name User)) (eve : User) (name : Name) (start stop : UInt64) :
    u.put (pre ++ pp :: post) pre.length eve name start stop =
      if start > stop ∨ stop > u.sectors then (.raised .eio, { u with part := some (pre ++ pp :: post) })
      else (.returned, { u with part := some (pre ++ pp.fill eve name start stop :: post) }) := by
  rw [SDunit.put, modify_behind]

omit [DecidableEq Name] in
theorem valids_zero (n : Nat) : valids (List.replicate n (SDpart.zero : SDpart Name User)) = [] := by
  refine filter_eq_nil_iff.mpr fun x hx => ?_
  rw [eq_of_mem_replicate hx]
  exact Bool.false_ne_true

/-- **What `sdaddpart` can do**: find the partition there, fail, or fill the first free slot of the array
or of what is added to it. -/
inductive Adds (eve : User) (name : Name) (start stop : UInt64) (u : SDunit Name User) :
    Ending × SDunit Name User → Prop
  | found (hseen : Seen name u.arr)
      (hthere : ∃ pp ∈ valids u.arr, pp.name = some name ∧ pp.start = start ∧ pp.stop = stop) :
      Adds eve name start stop u (.returned, u)
  | failed (e : Err) (new : Option (List (SDpart Name User))) (hpre : u.arr <+: new.getD [])
      (hvalids : valids (new.getD []) = valids u.arr)
      (hwhy : ¬(start ≤ stop ∧ stop ≤ u.sectors) ∨ Seen name u.arr ∨ ∀ x ∈ u.arr, x.valid = true) :
      Adds eve name start stop u (.raised e, { u with part := new })
  | filled {pre post : List (SDpart Name User)} {pp : SDpart Name User}
      (hpre : ∀ x ∈ pre, x.valid = true ∧ x.name ≠ some name) (hfree : pp.valid = false)
      (harr : u.arr = pre ++ pp :: post ∨ u.arr = pre ∧ valids post = [])
      (hextent : start ≤ stop ∧ stop ≤ u.sectors) :
      Adds eve name start stop u
        (.returned, { u with part := some (pre ++ pp.fill eve name start stop :: post) })

omit [DecidableEq Name] in
theorem valids_free {pre post : List (SDpart Name User)} {pp : SDpart Name User} (hfree : pp.valid = false) :
    valids (pre ++ pp :: post) = valids pre ++ valids post := by
  rw [valids, filter_append, filter_cons_of_neg (Bool.eq_false_iff.mp hfree)]
  rfl

omit [DecidableEq Name] in
theorem valids_mid {pre post : List (SDpart Name User)} {pp : SDpart Name User} (hvalid : pp.valid = true) :
    valids (pre ++ pp :: post) = valids pre ++ pp :: valids post := by
  rw [valids, filter_append, filter_cons_of_pos hvalid]
  rfl

omit [DecidableEq Name] in
/-- The slot is there, and is filled unless the extent is wrong. -/
theorem adds_put (pre post : List (SDpart Name User)) (pp : SDpart Name User)
    (hpre : ∀ x ∈ pre, x.valid = true ∧ x.name ≠ some name) (hfree : pp.valid = false)
    (harr : u.arr = pre ++ pp :: post ∨ u.arr = pre ∧ valids post = []) :
    Adds eve name start stop u (u.put (pre ++ pp :: post) pre.length eve name start stop) := by
  rw [put_eq]
  have hbad : (start > stop ∨ stop > u.sectors) ↔ ¬(start ≤ stop ∧ stop ≤ u.sectors) := by
    rw [not_and_or, UInt64.not_le, UInt64.not_le]
  by_cases hext : start ≤ stop ∧ stop ≤ u.sectors
  · rw [if_neg fun h => hbad.mp h hext]
    exact .filled hpre hfree harr hext
  · rw [if_pos (hbad.mpr hext)]
    refine .failed _ _ ?_ ?_ (.inl hext)
    · rcases harr with harr | ⟨harr, -⟩
      · exact harr ▸ prefix_refl _
      · exact harr ▸ prefix_append _ _
    · change valids (pre ++ pp :: post) = _
      rcases harr with harr | ⟨harr, hnone⟩
      · rw [harr]
      · rw [harr, valids_free hfree, hnone, append_nil]

theorem adds_sdaddpart (mem : Bool) (eve : User) (name : Name) (start stop : UInt64) (u : SDunit Name User) :
    Adds eve name start stop u (sdaddpart mem eve name start stop u) := by
  have hfull : (∀ x ∈ u.arr, x.valid = true) → Adds eve name start stop u (.raised .enomem, u) := fun hall =>
    Adds.failed _ u.part (prefix_refl _) rfl (.inr (.inr hall))
  rw [sdaddpart]
  cases hpart : u.part with
  | none =>
    have harr : u.arr = [] := by rw [SDunit.arr, hpart]; rfl
    cases mem with
    | false => exact hfull fun x hx => by rw [harr] at hx; cases hx
    | true =>
      exact adds_put [] (List.replicate 15 .zero) .zero
        (fun x hx => (not_mem_nil hx).elim) rfl (.inr ⟨harr, valids_zero 15⟩)
  | some arr =>
    have harr : u.arr = arr := by rw [SDunit.arr, hpart]; rfl
    have hfound := search_spec name start stop arr 0
    dsimp only
    cases hsearch : search name start stop arr 0 with
    | same =>
      rw [hsearch, ← harr] at hfound
      exact .found hfound.1 hfound.2
    | used =>
      rw [hsearch, ← harr] at hfound
      exact Adds.failed _ u.part (prefix_refl _) rfl (.inr (.inl hfound))
    | free partno =>
      rw [hsearch] at hfound
      obtain ⟨pre, pp, post, heq, hpartno, hpre, hfree⟩ := hfound
      dsimp only
      rw [hpartno, Nat.zero_add, heq]
      exact adds_put pre post pp hpre hfree (.inl (harr.trans heq))
    | full =>
      rw [hsearch] at hfound
      dsimp only
      by_cases hno : arr.length ≥ nPart ∨ (!mem) = true
      · rw [if_pos hno]
        exact hfull fun x hx => (hfound x (harr ▸ hx)).1
      · rw [if_neg hno]
        exact adds_put arr (List.replicate 15 .zero) .zero hfound rfl (.inr ⟨harr, valids_zero 15⟩)

omit [DecidableEq Name] in
/-- A name that is seen has no namesake behind the first free slot. -/
theorem Seen.unique (hsound : ((valids arr).map SDpart.name).Nodup) (h : Seen name arr) :
    ∀ pp ∈ valids (arr.dropWhile SDpart.valid), pp.name ≠ some name := by
  obtain ⟨pre, x, post, rfl, hpre, hvalid, hname⟩ := h
  intro pp hpp heq
  -- it would be valid and behind `x`
  have hdrop : (pre ++ x :: post).dropWhile SDpart.valid = post.dropWhile SDpart.valid := by
    rw [dropWhile_append_of_pos hpre, dropWhile_cons_of_pos hvalid]
  rw [hdrop] at hpp
  have hbehind : pp ∈ valids post := (List.Sublist.filter _ (dropWhile_sublist _)).subset hpp
  rw [valids_mid hvalid, map_append, nodup_append] at hsound
  have hnot := (nodup_cons.mp hsound.2.1).1
  exact hnot (mem_map.mpr ⟨pp, hbehind, heq.trans hname.symm⟩)

/-- **A call of `sdaddpart` is right** just when what it puts in has no namesake behind the slot, and then
the table stays sound. -/
theorem addRight_iff (hsound : u.Sound) (mem : Bool) (eve : User) (name : Name) (start stop : UInt64) :
    (AddRight eve name start stop u (sdaddpart mem eve name start stop u) ↔
      (start ≤ stop ∧ stop ≤ u.sectors → ∀ pp ∈ valids (u.arr.dropWhile SDpart.valid), pp.name ≠ some name)) ∧
    (AddRight eve name start stop u (sdaddpart mem eve name start stop u) →
      (sdaddpart mem eve name start stop u).2.Sound) := by
  generalize hr : sdaddpart mem eve name start stop u = r
  have hadds := adds_sdaddpart mem eve name start stop u
  rw [hr] at hadds
  cases hadds with
  | found hseen hthere =>
    exact ⟨iff_of_true (.inl ⟨rfl, hthere⟩) fun _ => hseen.unique hsound.names, fun _ => hsound⟩
  | failed e new hpre hvalids hwhy =>
    refine ⟨iff_of_true ⟨hvalids, hpre⟩ fun hext => ?_, fun _ => ⟨?_, ?_⟩⟩
    · rcases hwhy with hbad | hseen | hall
      · exact absurd hext hbad
      · exact hseen.unique hsound.names
      · rw [dropWhile_eq_nil_iff.mpr hall]
        exact fun pp hpp => (not_mem_nil hpp).elim
    · change ((valids (new.getD [])).map SDpart.name).Nodup
      rw [hvalids]
      exact hsound.names
    · change ∀ pp ∈ valids (new.getD []), _
      rw [hvalids]
      exact hsound.extent
  | @filled pre post pp hpre hfree harr hextent =>
    have hvalids : valids u.arr = valids pre ++ valids post := by
      rcases harr with harr | ⟨harr, hnone⟩
      · rw [harr, valids_free hfree]
      · rw [harr, hnone, append_nil]
    have hdrop : valids (u.arr.dropWhile SDpart.valid) = valids post := by
      rcases harr with harr | ⟨harr, hnone⟩
      · rw [harr, dropWhile_append_of_pos fun x hx => (hpre x hx).1,
          dropWhile_cons_of_neg (Bool.eq_false_iff.mp hfree)]
        exact @valids_free _ _ [] post pp hfree
      · rw [harr, dropWhile_eq_nil_iff.mpr fun x hx => (hpre x hx).1, hnone]
        rfl
    have hfill : valids (pre ++ pp.fill eve name start stop :: post) =
        valids pre ++ pp.fill eve name start stop :: valids post := valids_mid rfl
    have hfront : ∀ x ∈ valids pre, x.name ≠ some name := fun x hx => (hpre x (mem_of_mem_filter hx)).2
    have hne : { u with part := some (pre ++ pp.fill eve name start stop :: post) } ≠ u := by
      intro heq
      have hlen := congrArg (fun u => (valids u.arr).length) heq
      change (valids (pre ++ pp.fill eve name start stop :: post)).length = (valids u.arr).length at hlen
      rw [hfill, hvalids, length_append, length_append, length_cons] at hlen
      omega
    refine ⟨⟨fun h _ pp' hpp' => ?_, fun h => .inr ⟨fun x hx => ?_, pre, pp, post, rfl, hfree, harr⟩⟩,
      fun h => ⟨?_, ?_⟩⟩
    · obtain ⟨heq, -⟩ | ⟨hnew, -⟩ := h
      · exact absurd heq hne
      · rw [hdrop] at hpp'
        exact hnew pp' (hvalids ▸ mem_append_right _ hpp')
    · rw [hvalids] at hx
      rcases mem_append.mp hx with hx | hx
      · exact hfront x hx
      · exact h hextent x (hdrop ▸ hx)
    · obtain ⟨heq, -⟩ | ⟨hnew, -⟩ := h
      · exact absurd heq hne
      · change ((valids (pre ++ pp.fill eve name start stop :: post)).map SDpart.name).Nodup
        have hperm : ((valids pre ++ pp.fill eve name start stop :: valids post).map SDpart.name).Perm
            (some name :: (valids u.arr).map SDpart.name) := by
          rw [hvalids]
          exact List.perm_middle.map SDpart.name
        rw [hfill, hperm.nodup_iff, nodup_cons]
        refine ⟨fun hmem => ?_, hsound.names⟩
        obtain ⟨x, hx, hname⟩ := mem_map.mp hmem
        exact hnew x hx hname
    · change ∀ x ∈ valids (pre ++ pp.fill eve name start stop :: post), _
      rw [hfill]
      intro x hx
      rcases mem_append.mp hx with hx | hx
      · exact hsound.extent x (hvalids ▸ mem_append_left _ hx)
      · rcases mem_cons.mp hx with rfl | hx
        · exact hextent
        · exact hsound.extent x (hvalids ▸ mem_append_right _ hx)

theorem look_spec (name : Name) (arr : List (SDpart Name User)) (i : Nat) :
    match look name arr i with
    | .missing => ∀ x ∈ arr, ¬x.Stops name
    | .wild => ∃ pre pp post, arr = pre ++ pp :: post ∧ (∀ x ∈ pre, ¬x.Stops name) ∧ pp.name = none
    | .at j => ∃ pre pp post, arr = pre ++ pp :: post ∧ j = i + pre.length ∧ (∀ x ∈ pre, ¬x.Stops name) ∧
        pp.name = some name := by
  induction arr generalizing i with
  | nil => exact fun x hx => (not_mem_nil hx).elim
  | cons pp l ih =>
    rw [look]
    cases hpp : pp.name with
    | none => exact ⟨[], pp, l, rfl, fun _ hx => (not_mem_nil hx).elim, hpp⟩
    | some n =>
      dsimp only
      by_cases hname : name = n
      · rw [if_pos hname]
        exact ⟨[], pp, l, rfl, rfl, fun _ hx => (not_mem_nil hx).elim, by rw [hpp, hname]⟩
      · rw [if_neg hname]
        have hother : ¬pp.Stops name := by
          rw [SDpart.Stops, hpp]
          rintro (h | h)
          · exact some_ne_none n h
          · exact hname (some.inj h).symm
        have htail := ih (i + 1)
        cases hfound : look name l (i + 1) with
        | missing =>
          rw [hfound] at htail
          exact forall_mem_cons.mpr ⟨hother, htail⟩
        | wild =>
          rw [hfound] at htail
          obtain ⟨pre, x, post, rfl, hpre, hx⟩ := htail
          exact ⟨pp :: pre, x, post, rfl, forall_mem_cons.mpr ⟨hother, hpre⟩, hx⟩
        | «at» j =>
          rw [hfound] at htail
          obtain ⟨pre, x, post, rfl, hj, hpre, hx⟩ := htail
          refine ⟨pp :: pre, x, post, rfl, ?_, forall_mem_cons.mpr ⟨hother, hpre⟩, hx⟩
          rw [hj, length_cons]
          omega

/-- The first entry at which the loop stops. -/
theorem find_of_stops {pre post : List (SDpart Name User)} {pp : SDpart Name User}
    (hpre : ∀ x ∈ pre, ¬x.Stops name) (hpp : pp.Stops name) :
    (pre ++ pp :: post).find? (fun pp => pp.Stops name) = some pp := by
  have hnone : pre.find? (fun pp => pp.Stops name) = none :=
    List.find?_eq_none.mpr fun x hx h => hpre x hx (of_decide_eq_true h)
  rw [List.find?_append, hnone, none_or]
  exact List.find?_cons_of_pos (p := fun pp => decide (SDpart.Stops name pp)) (decide_eq_true hpp)

variable [DecidableEq User]

/-- **A call of `sddelpart` is right** just when the first entry of that name, or of none, is valid and of
that name or may not be deleted, and then the table stays sound. -/
theorem delRight_iff (hsound : u.Sound) (user eve : User) (name : Name) :
    (DelRight name u (sddelpart user eve name u) ↔
      ∀ pp, u.arr.find? (fun pp => pp.Stops name) = some pp →
        pp.name = some name ∧ (pp.valid = true ∨ pp.user ≠ some user ∧ user ≠ eve)) ∧
    (DelRight name u (sddelpart user eve name u) → (sddelpart user eve name u).2.Sound) := by
  have hlook := look_spec name u.arr 0
  have hdef : sddelpart user eve name u = match look name u.arr 0 with
      | .missing => (.raised .ebadctl, u)
      | .wild => (.wild, u)
      | .at i =>
        if u.arr[i]?.bind SDpart.user ≠ some user ∧ user ≠ eve then (.raised .eperm, u)
        else (.returned, { u with part := u.part.map (·.modify i SDpart.drop) }) := rfl
  cases hfound : look name u.arr 0 with
  | missing =>
    rw [hfound] at hlook hdef
    rw [hdef]
    refine ⟨iff_of_true rfl fun pp hpp => ?_, fun _ => hsound⟩
    have hstops := List.find?_some hpp
    exact absurd (of_decide_eq_true hstops) (hlook pp (mem_of_find?_eq_some hpp))
  | wild =>
    rw [hfound] at hlook hdef
    obtain ⟨pre, pp, post, harr, hpre, hpp⟩ := hlook
    rw [hdef, harr, find_of_stops hpre (.inl hpp)]
    refine ⟨iff_of_false id fun h => ?_, fun h => h.elim⟩
    exact some_ne_none name ((h pp rfl).1.symm.trans hpp)
  | «at» i =>
    rw [hfound] at hlook hdef
    obtain ⟨pre, pp, post, harr, hi, hpre, hpp⟩ := hlook
    have huser : u.arr[i]?.bind SDpart.user = pp.user := by
      rw [harr, hi, Nat.zero_add, List.getElem?_append_right (Nat.le_refl _), Nat.sub_self]
      rfl
    dsimp only at hdef
    rw [huser] at hdef
    have hiff : (∀ x, u.arr.find? (fun pp => pp.Stops name) = some x →
        x.name = some name ∧ (x.valid = true ∨ x.user ≠ some user ∧ user ≠ eve)) ↔
        pp.valid = true ∨ pp.user ≠ some user ∧ user ≠ eve := by
      rw [harr, find_of_stops hpre (.inr hpp)]
      exact ⟨fun h => (h pp rfl).2, fun h x hx => some.inj hx ▸ ⟨hpp, h⟩⟩
    rw [hiff]
    by_cases hperm : pp.user ≠ some user ∧ user ≠ eve
    · rw [if_pos hperm] at hdef
      rw [hdef]
      exact ⟨iff_of_true rfl (.inr hperm), fun _ => hsound⟩
    · rw [if_neg hperm] at hdef
      have hpart : u.part = some (pre ++ pp :: post) := by
        cases hnil : u.part with
        | none =>
          rw [SDunit.arr, hnil] at harr
          cases pre <;> cases harr
        | some arr =>
          rw [SDunit.arr, hnil] at harr
          exact congrArg some harr
      rw [hi, Nat.zero_add, hpart, map_some, modify_behind] at hdef
      rw [hdef]
      refine ⟨⟨?_, ?_⟩, ?_⟩
      · -- an entry that is valid has been made invalid, and it is this one
        rintro ⟨pre', pp', post', harr', hvalid', -, -, heq⟩
        by_contra hno
        have hfree : pp.valid = false := Bool.eq_false_iff.mpr fun h => hno (.inl h)
        have hlen := congrArg (fun u => (valids u.arr).length) heq
        change (valids (pre ++ pp.drop :: post)).length =
          (valids (pre' ++ pp'.drop :: post')).length at hlen
        have hsame := congrArg (fun l => (valids l).length) (harr.symm.trans harr')
        change (valids (pre ++ pp :: post)).length = (valids (pre' ++ pp' :: post')).length at hsame
        rw [valids_free hfree, valids_mid hvalid', length_append, length_append, length_cons] at hsame
        rw [@valids_free _ _ pre post pp.drop rfl, @valids_free _ _ pre' post' pp'.drop rfl,
          length_append, length_append] at hlen
        omega
      · rintro (hvalid | hno)
        · refine ⟨pre, pp, post, harr, hvalid, hpp, fun x hx heq => ?_, rfl⟩
          have hnames := hsound.names
          rw [harr, valids_mid hvalid, (List.perm_middle.map SDpart.name).nodup_iff, map_cons,
            nodup_cons] at hnames
          refine hnames.1 (mem_map.mpr ⟨x, ?_, heq.trans hpp.symm⟩)
          rw [valids, filter_append] at hx
          exact hx
        · exact absurd hno hperm
      · intro _
        have hless : (valids (pre ++ pp.drop :: post)).Sublist (valids u.arr) := by
          rw [@valids_free _ _ pre post pp.drop rfl, harr, valids, valids, valids, filter_append]
          exact (List.Sublist.filter _ (sublist_cons_self pp post)).append_left _
        exact ⟨hsound.names.sublist (hless.map _), fun x hx => hsound.extent x (hless.subset hx)⟩

omit [DecidableEq Name] [DecidableEq User] in
theorem sound_sdincvers (sectors : UInt64) (u : SDunit Name User) : (sdincvers sectors u).2.Sound := by
  have hnone : valids (sdincvers sectors u).2.arr = [] := by
    refine filter_eq_nil_iff.mpr fun x hx => ?_
    cases hpart : u.part with
    | none =>
      rw [sdincvers, SDunit.arr, hpart] at hx
      cases hx
    | some arr =>
      rw [sdincvers, SDunit.arr, hpart] at hx
      obtain ⟨pp, -, rfl⟩ := mem_map.mp hx
      exact Bool.false_ne_true
  refine ⟨?_, ?_⟩
  · rw [hnone]
    exact nodup_nil
  · rw [hnone]
    exact fun x hx => (not_mem_nil hx).elim

/-- One step: it is right just when it fits, and then leaves the table sound. -/
theorem Op.right_iff (op : Op Name User) (hsound : u.Sound) :
    (op.Right u ↔ op.Fits u) ∧ (op.Right u → (op.apply u).2.Sound) := by
  cases op with
  | sdaddpart mem eve name start stop => exact addRight_iff hsound mem eve name start stop
  | sddelpart user eve name => exact delRight_iff hsound user eve name
  | sdincvers sectors => exact ⟨Iff.rfl, fun _ => sound_sdincvers sectors u⟩

theorem good_iff_of_sound (hsound : u.Sound) (l : List (Op Name User)) : Good u l ↔ AllFit u l := by
  induction l generalizing u with
  | nil => exact iff_of_true hsound trivial
  | cons op l ih =>
    obtain ⟨hiff, hnext⟩ := op.right_iff hsound
    constructor
    · rintro ⟨-, hright, hgood⟩
      exact ⟨hiff.mp hright, (ih (hnext hright)).mp hgood⟩
    · rintro ⟨hfits, hall⟩
      have hright := hiff.mpr hfits
      exact ⟨hsound, hright, (ih (hnext hright)).mpr hall⟩

/-- **The table of partitions is what it should be** in a run from a unit without partitions just when
every step of it fits. -/
theorem good_iff (sectors : UInt64) (vers : UInt32) (l : List (Op Name User)) :
    Good ⟨sectors, none, vers⟩ l ↔ AllFit ⟨sectors, none, vers⟩ l :=
  have hsound : SDunit.Sound (⟨sectors, none, vers⟩ : SDunit Name User) :=
    ⟨nodup_nil, fun _ hx => (not_mem_nil hx).elim⟩
  good_iff_of_sound hsound l

/-- **A namesake behind a hole**: `b` is added again while it is there. -/
theorem sdaddpart_twice : ¬Good (⟨100, none, 0⟩ : SDunit Char Nat)
    [.sdaddpart true 0 'a' 0 50, .sdaddpart true 0 'b' 50 100, .sddelpart 0 0 'a',
      .sdaddpart true 0 'b' 0 50] := by
  rintro ⟨-, -, -, -, -, -, -, -, hsound⟩
  exact absurd hsound.names (by decide)

end SdPart
