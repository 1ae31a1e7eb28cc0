import NixKernel.ParsenameSpec

/-!
# The loop of `parsename`

`Head` is what holds where the loop begins a pass: the components that begin before the pointer are found, and their
bytes in the copy stay as they were while a zero byte ends each of them.
-/

namespace Parsename

open CString List Option

variable {s : Str} {e e' : Elemlist} {l : List (Nat × Nat)} {i j p name : Nat} {α : Type}

theorem store_some {a : List α} (h : i < a.length) (x : α) : store a i x = some (a.set i x) := if_pos h

theorem take_set {a : List α} (h : i < a.length) (x : α) : (a.set i x).take (i + 1) = a.take i ++ [x] := by
  have hlt : i < (a.set i x).length := by rwa [length_set]
  rw [← take_append_getElem hlt, getElem_set_self, take_set_of_le (Nat.le_refl i)]

/-- The sizes that `growparse` gives the arrays. -/
def Room (e : Elemlist) (n : Nat) : Prop := e.elems.length = (n + 7) / 8 * 8 ∧ e.off.length = (n + 7) / 8 * 8 + 1

/-- **What `growparse` does.**  There is room for one more element, and what was recorded is kept. -/
theorem growparse_spec (h : Room e e.nelems) :
    ∃ elems off, growparse e = some { e with elems := elems, off := off } ∧
      Room { e with elems := elems, off := off } (e.nelems + 1) ∧
      elems.take e.nelems = e.elems.take e.nelems ∧ off.take (e.nelems + 1) = e.off.take (e.nelems + 1) := by
  obtain ⟨helems, hoff⟩ := h
  rw [growparse, delta]
  by_cases hfull : e.nelems % 8 = 0
  · have hlen : e.elems.length = e.nelems := by omega
    have hlen' : e.off.length = e.nelems + 1 := by omega
    rw [if_pos hfull, if_pos ⟨Nat.le_of_eq hlen.symm, Nat.le_of_eq hlen'.symm⟩]
    refine ⟨_, _, rfl, ⟨?_, ?_⟩, ?_, ?_⟩
    · change (e.elems.take e.nelems ++ List.replicate 8 0).length = _
      rw [length_append, length_take, length_replicate]
      omega
    · change (e.off.take (e.nelems + 1) ++ List.replicate 8 0).length = _
      rw [length_append, length_take, length_replicate]
      omega
    all_goals rw [take_append_of_le_length (by rw [length_take]; omega), take_take, Nat.min_self]
  · rw [if_neg hfull]
    refine ⟨e.elems, e.off, rfl, ⟨?_, ?_⟩, rfl, rfl⟩
    · change e.elems.length = _
      omega
    · change e.off.length = _
      omega

/-- The components that begin before `upto` are found and stand in the copy. -/
structure Found (s : Str) (e : Elemlist) (upto : Nat) (l : List (Nat × Nat)) : Prop where
  mem : ∀ i j, (i, j) ∈ l ↔ Component s i j ∧ i < upto
  order : l.Pairwise fun a b => a.2 < b.1
  size : e.name.length = s.length + 1
  kept : ∀ a ∈ l, (∀ q, a.1 ≤ q → q < a.2 → e.name.getD q 0 = s.get q) ∧ e.name.getD a.2 0 = 0
  nelems : e.nelems = l.length
  elems : e.elems.take e.nelems = l.map Prod.fst

/-- **The invariant of the loop.** -/
structure Head (s : Str) (e : Elemlist) (name : Nat) (l : List (Nat × Nat)) : Prop where
  found : Found s e name l
  start : Start s name
  le : name ≤ s.length
  rest : ∀ q, name ≤ q → e.name.getD q 0 = s.get q
  behind : ∀ a ∈ l, a.2 < name
  room : Room e e.nelems
  off : e.off.take (e.nelems + 1) = int (skipslash (s.bytes ++ [0]) 0) :: l.map (int ∘ Prod.snd)
  first : ∀ a, l.head? = some a → skipslash (s.bytes ++ [0]) 0 = a.1
  fresh : l = [] → name = 0 ∧ e.name = s.bytes ++ [0]

/-- The strings that the elements point to. -/
theorem Found.strings {n : Nat} (h : Found s e n l) :
    (e.elems.take e.nelems).map (read e.name) = l.map fun a => (s.bytes.drop a.1).take (a.2 - a.1) := by
  rw [h.elems, List.map_map]
  refine map_congr_left fun a ha => ?_
  obtain ⟨hkept, hend⟩ := h.kept a ha
  obtain ⟨hcomp, -⟩ := (h.mem a.1 a.2).mp ha
  have hlt := hcomp.lt
  have hle := hcomp.le
  have hsize := h.size
  have hsum : a.1 + (a.2 - a.1) = a.2 := by omega
  have hread : read e.name a.1 = (e.name.drop a.1).take (a.2 - a.1) := by
    refine read_eq (by omega) (fun q hq hqlt => ?_) (by rw [hsum]; exact hend)
    rw [hkept q hq (by omega)]
    exact s.get_ne (by omega)
  change read e.name a.1 = _
  rw [hread]
  have hlen : s.bytes.length = s.length := rfl
  refine ext_getElem (by rw [length_take, length_take, length_drop, length_drop]; omega)
    fun n hn _ => ?_
  rw [length_take, length_drop] at hn
  have hn1 : a.1 + n < e.name.length := by omega
  have hn2 : a.1 + n < s.bytes.length := by omega
  have hbyte := hkept (a.1 + n) (by omega) (by omega)
  rw [getD_eq_getElem _ _ hn1, Str.get, getD_eq_getElem _ _ hn2] at hbyte
  rw [getElem_take, getElem_take, getElem_drop, getElem_drop, hbyte]

/-- What has been found is all, if nothing begins behind. -/
theorem Found.parsed {n : Nat} (h : Found s e n l) (hall : ∀ i j, Component s i j → i < n)
    (hoff : e.off.take (e.nelems + 1) =
      (int (skipslash (s.bytes ++ [0]) 0) :: l.map (int ∘ Prod.snd)).take e.nelems ++ [int s.length])
    (hfirst : ∀ a, l.head? = some a → skipslash (s.bytes ++ [0]) 0 = a.1)
    (hdir : e.mustbedir = true ↔
      Start s s.length ∨ (0 < s.length ∧ s.get (s.length - 1) = dot ∧ Start s (s.length - 1))) : Parsed s e l where
  components i j := ⟨fun hmem => ((h.mem i j).mp hmem).1, fun hcomp => (h.mem i j).mpr ⟨hcomp, hall i j hcomp⟩⟩
  order := h.order
  nelems := h.nelems
  elems := h.strings
  off := hoff
  first := hfirst
  mustbedir := hdir.trans (ends_iff s).symm

/-- The pass that finds the end of the name. -/
theorem Head.stop (h : Head s e name l) (hend : skipslash e.name name = s.length) :
    Parsed s { e with off := e.off.set e.nelems (int s.length), mustbedir := true } l := by
  obtain ⟨-, -, hskipped, -⟩ := skipslash_spec h.le h.rest
  rw [hend] at hskipped
  refine Found.parsed { h.found with } ?_ ?_
    h.first ?_
  · intro i j hcomp
    refine Nat.lt_of_not_le fun hle => hcomp.not_skipped (hskipped i hle ?_)
    exact Nat.lt_of_lt_of_le hcomp.lt hcomp.le
  · have hlt : e.nelems < e.off.length := by
      have hroom := h.room.2
      omega
    have hoff := congrArg (List.take e.nelems) h.off
    rw [take_take, Nat.min_eq_left (Nat.le_succ _)] at hoff
    change (e.off.set e.nelems (int s.length)).take (e.nelems + 1) = _
    rw [take_set hlt, hoff]
  · exact iff_of_true rfl (ends_of_skipped h.start h.le hskipped)

/-- One more component. -/
theorem Head.component (h : Head s e name l) (hlt : skipslash e.name name < s.length)
    (hpj : skipslash e.name name ≤ j) (hj : j ≤ s.length)
    (hinside : ∀ q, skipslash e.name name ≤ q → q < j → s.get q ≠ slash)
    (hfinish : j = s.length ∨ s.get j = slash) :
    Component s (skipslash e.name name) j ∧
      (∀ a b, (a, b) ∈ l ++ [(skipslash e.name name, j)] ↔ Component s a b ∧ a < j + 1) ∧
      (l ++ [(skipslash e.name name, j)]).Pairwise (fun a b => a.2 < b.1) ∧
      ∀ a, (l ++ [(skipslash e.name name, j)]).head? = some a → skipslash (s.bytes ++ [0]) 0 = a.1 := by
  obtain ⟨hge, -, hskipped, hstop⟩ := skipslash_spec h.le h.rest
  have hcomp := component_here (start_of_skipped h.start hskipped hge) hstop hlt hpj hj hinside hfinish
  refine ⟨hcomp, fun a b => ?_, ?_, fun a ha => ?_⟩
  · rw [mem_append, h.found.mem, mem_singleton]
    constructor
    · rintro (⟨hc, ha⟩ | heq)
      · exact ⟨hc, by omega⟩
      · cases heq
        exact ⟨hcomp, Nat.lt_succ_of_le hpj⟩
    · rintro ⟨hc, ha⟩
      rcases Nat.lt_trichotomy a (skipslash e.name name) with hbefore | rfl | hafter
      · refine Or.inl ⟨hc, Nat.lt_of_not_le fun hle => ?_⟩
        exact hc.not_skipped (hskipped a hle hbefore)
      · exact Or.inr (Prod.ext rfl (hc.unique hcomp))
      · have hfar := hcomp.behind hc hafter
        omega
  · refine List.pairwise_append.mpr ⟨h.found.order, pairwise_singleton _ _, fun a ha b hb => ?_⟩
    rw [List.mem_singleton.mp hb]
    exact Nat.lt_of_lt_of_le (h.behind a ha) hge
  · cases l with
    | nil =>
      obtain ⟨rfl, hname⟩ := h.fresh rfl
      cases ha
      rw [hname]
    | cons b l => exact h.first a ha

/-- Where the copy is as the string has it, its string goes up to the end of the name. -/
theorem strlen_rest {mem : List UInt8} (hsize : mem.length = s.length + 1) (hp : p ≤ s.length)
    (hmem : ∀ q, p ≤ q → mem.getD q 0 = s.get q) : p + strlen (mem.drop p) = s.length := by
  rw [strlen_eq (n := s.length - p)]
  · omega
  · rw [length_drop]
    omega
  · intro q hq
    rw [getD_drop, hmem _ (by omega)]
    exact s.get_ne (by omega)
  · rw [getD_drop, hmem _ (by omega)]
    exact s.get_of_le (by omega)

theorem utfrune_none {mem : List UInt8} {c : UInt8} (hsize : mem.length = s.length + 1)
    (hmem : ∀ q, p ≤ q → mem.getD q 0 = s.get q) (h : utfrune mem p c = none) :
    ∀ q, p ≤ q → q < s.length → s.get q ≠ c := by
  intro q hq hlt
  have hnone := strchr_none (map_eq_none_iff.mp h) (n := s.length - p) (by rw [length_drop]; omega)
    (fun r hr => ?_) (q - p) (by omega)
  · rwa [getD_drop, Nat.add_sub_cancel' hq, hmem q hq] at hnone
  · rw [getD_drop, hmem _ (by omega)]
    exact s.get_ne (by omega)

theorem utfrune_some {mem : List UInt8} {c : UInt8} (hmem : ∀ q, p ≤ q → mem.getD q 0 = s.get q)
    (h : utfrune mem p c = some j) : p ≤ j ∧ s.get j = c ∧ ∀ q, p ≤ q → q < j → s.get q ≠ c := by
  obtain ⟨n, hn, rfl⟩ := map_eq_some_iff.mp h
  obtain ⟨-, hc, hfirst⟩ := strchr_some hn
  rw [getD_drop, hmem _ (by omega)] at hc
  refine ⟨Nat.le_add_right p n, hc, fun q hq hlt => ?_⟩
  have hne := (hfirst (q - p) (by omega)).1
  rwa [getD_drop, Nat.add_sub_cancel' hq, hmem q hq] at hne

/-- What a pass makes of the arrays where it has found an element that ends at `j`. -/
def Elemlist.push (e : Elemlist) (elems : List Nat) (off : List Int) (p j : Nat) : Elemlist :=
  { e with nelems := e.nelems + 1, elems := elems.set e.nelems p, off := off.set (e.nelems + 1) (int j) }

/-- The pass that finds the last element, which goes up to the end of the name. -/
theorem Head.last {elems : List Nat} {off : List Int} (h : Head s e name l)
    (hlt : skipslash e.name name < s.length) (hroom : Room { e with elems := elems, off := off } (e.nelems + 1))
    (helems : elems.take e.nelems = e.elems.take e.nelems) (hoff : off.take (e.nelems + 1) = e.off.take (e.nelems + 1))
    (hinside : ∀ q, skipslash e.name name ≤ q → q < s.length → s.get q ≠ slash) :
    Parsed s { e.push elems off (skipslash e.name name) s.length with mustbedir := false }
      (l ++ [(skipslash e.name name, s.length)]) := by
  obtain ⟨hcomp, hmem, horder, hfirst⟩ := h.component hlt (Nat.le_of_lt hlt) (Nat.le_refl _) hinside (Or.inl rfl)
  obtain ⟨hge, -, -, -⟩ := skipslash_spec h.le h.rest
  have hfound : Found s { e.push elems off (skipslash e.name name) s.length with mustbedir := false }
      (s.length + 1) (l ++ [(skipslash e.name name, s.length)]) := by
    refine ⟨hmem, horder, h.found.size, fun a ha => ?_, ?_, ?_⟩
    · rcases List.mem_append.mp ha with ha | ha
      · exact h.found.kept a ha
      · rw [List.mem_singleton.mp ha]
        refine ⟨fun q hq _ => h.rest q (Nat.le_trans hge hq), ?_⟩
        change e.name.getD s.length 0 = 0
        rw [h.rest _ h.le]
        exact s.get_of_le (Nat.le_refl _)
    · change e.nelems + 1 = _
      rw [length_append, h.found.nelems, length_singleton]
    · have hsize : e.nelems < elems.length := by
        have hlen : elems.length = _ := hroom.1
        omega
      change (elems.set e.nelems _).take (e.nelems + 1) = _
      rw [take_set hsize, helems, h.found.elems, map_append, map_singleton]
  refine hfound.parsed (fun i j hc => ?_) ?_ hfirst ?_
  · exact Nat.lt_succ_of_le (Nat.le_trans (Nat.le_of_lt hc.lt) hc.le)
  · have hsize : e.nelems + 1 < off.length := by
      have hlen : off.length = _ := hroom.2
      omega
    change (off.set (e.nelems + 1) (int s.length)).take (e.nelems + 1 + 1) = List.take (e.nelems + 1) _ ++ _
    rw [take_set hsize, hoff, h.off, map_append, ← cons_append, take_append_of_le_length, take_of_length_le]
    · rw [length_cons, length_map, h.found.nelems]
    · rw [length_cons, length_map, h.found.nelems]
  · exact iff_of_false Bool.false_ne_true hcomp.not_ends

/-- The pass that finds an element and the slash behind it. -/
theorem Head.cut {elems : List Nat} {off : List Int} (h : Head s e name l)
    (hlt : skipslash e.name name < s.length) (hroom : Room { e with elems := elems, off := off } (e.nelems + 1))
    (helems : elems.take e.nelems = e.elems.take e.nelems) (hoff : off.take (e.nelems + 1) = e.off.take (e.nelems + 1))
    (hpj : skipslash e.name name ≤ j) (hslash : s.get j = slash)
    (hinside : ∀ q, skipslash e.name name ≤ q → q < j → s.get q ≠ slash) :
    Head s { e.push elems off (skipslash e.name name) j with name := e.name.set j 0 } (j + 1)
      (l ++ [(skipslash e.name name, j)]) := by
  have hj : j < s.length := s.lt_of_get_ne (by rw [hslash]; decide)
  obtain ⟨hcomp, hmem, horder, hfirst⟩ := h.component hlt hpj (Nat.le_of_lt hj) hinside (Or.inr hslash)
  obtain ⟨hge, -, -, -⟩ := skipslash_spec h.le h.rest
  have hsize := h.found.size
  have hset : ∀ q, (e.name.set j 0).getD q 0 = if q = j then 0 else e.name.getD q 0 := by
    intro q
    rw [getD_eq_getElem?_getD, List.getElem?_set]
    by_cases hq : j = q
    · rw [if_pos hq, if_pos (by omega), if_pos hq.symm, getD_some]
    · rw [if_neg hq, if_neg (Ne.symm hq), getD_eq_getElem?_getD]
  refine ⟨⟨hmem, horder, ?_, fun a ha => ?_, ?_, ?_⟩, Or.inr ?_, hj, fun q hq => ?_, fun a ha => ?_, ?_, ?_, hfirst,
    fun hnil => absurd hnil (append_ne_nil_of_right_ne_nil _ (cons_ne_nil _ _))⟩
  · change (e.name.set j 0).length = _
    rw [length_set, hsize]
  · change (∀ q, a.1 ≤ q → q < a.2 → (e.name.set j 0).getD q 0 = s.get q) ∧ (e.name.set j 0).getD a.2 0 = 0
    rcases List.mem_append.mp ha with ha | ha
    · obtain ⟨hkept, hend⟩ := h.found.kept a ha
      have hbefore := h.behind a ha
      refine ⟨fun q hq hqlt => ?_, ?_⟩
      · rw [hset, if_neg (by omega)]
        exact hkept q hq hqlt
      · rw [hset, if_neg (by omega)]
        exact hend
    · rw [List.mem_singleton.mp ha]
      refine ⟨fun q hq hqlt => ?_, ?_⟩
      · rw [hset, if_neg (Nat.ne_of_lt hqlt)]
        exact h.rest q (Nat.le_trans hge hq)
      · rw [hset, if_pos rfl]
  · change e.nelems + 1 = _
    rw [length_append, h.found.nelems, length_singleton]
  · have hlen : e.nelems < elems.length := by
      have hroom' : elems.length = _ := hroom.1
      omega
    change (elems.set e.nelems _).take (e.nelems + 1) = _
    rw [take_set hlen, helems, h.found.elems, map_append, map_singleton]
  · rwa [Nat.add_sub_cancel]
  · change (e.name.set j 0).getD q 0 = _
    rw [hset, if_neg (by omega)]
    exact h.rest q (by omega)
  · rcases List.mem_append.mp ha with ha | ha
    · have hbefore := h.behind a ha
      omega
    · rw [List.mem_singleton.mp ha]
      exact Nat.lt_succ_self j
  · refine ⟨?_, ?_⟩
    · change (elems.set e.nelems _).length = _
      rw [length_set]
      exact hroom.1
    · change (off.set (e.nelems + 1) _).length = _
      rw [length_set]
      exact hroom.2
  · have hlen : e.nelems + 1 < off.length := by
      have hroom' : off.length = _ := hroom.2
      omega
    change (off.set (e.nelems + 1) (int j)).take (e.nelems + 1 + 1) = _
    rw [take_set hlen, hoff, h.off, map_append, map_singleton, Function.comp_apply, cons_append]

/-- The pass is long enough: the loop returns, and with what is promised. -/
theorem Head.parse {fuel : Nat} (h : Head s e name l) (hfuel : s.length < name + fuel) :
    ∃ e' l', parse fuel e name = some e' ∧ Parsed s e' l' := by
  induction fuel generalizing e name l with
  | zero =>
    have hle := h.le
    omega
  | succ fuel ih =>
    obtain ⟨hge, hle, -, -⟩ := skipslash_spec h.le h.rest
    have hrest : ∀ q, skipslash e.name name ≤ q → e.name.getD q 0 = s.get q := fun q hq =>
      h.rest q (Nat.le_trans hge hq)
    have hstrlen := strlen_rest h.found.size hle hrest
    rw [Parsename.parse]
    by_cases hzero : e.name.getD (skipslash e.name name) 0 = 0
    · -- the pointer is at the end of the name
      have hend : skipslash e.name name = s.length := by
        refine Nat.le_antisymm hle (Nat.le_of_not_lt fun hlt => ?_)
        rw [hrest _ (Nat.le_refl _)] at hzero
        exact s.get_ne hlt hzero
      have hlen : e.nelems < e.off.length := by
        have hroom := h.room.2
        omega
      rw [if_pos hzero, hstrlen, store_some hlen]
      exact ⟨_, l, rfl, h.stop hend⟩
    · have hlt : skipslash e.name name < s.length := by
        rw [hrest _ (Nat.le_refl _)] at hzero
        exact s.lt_of_get_ne hzero
      obtain ⟨elems, off, hgrow, hroom, helems, hoff⟩ := growparse_spec h.room
      have hlen : e.nelems < elems.length := by
        have hroom' : elems.length = _ := hroom.1
        omega
      have hlen' : e.nelems + 1 < off.length := by
        have hroom' : off.length = _ := hroom.2
        omega
      rw [if_neg hzero, hgrow, bind_eq_bind, bind_some, store_some hlen, bind_eq_bind, bind_some]
      cases hfind : utfrune e.name (skipslash e.name name) slash with
      | none =>
        have hinside := utfrune_none h.found.size hrest hfind
        simp only [hfind, hstrlen]
        rw [store_some hlen']
        exact ⟨_, _, rfl, h.last hlt hroom helems hoff hinside⟩
      | some j =>
        obtain ⟨hpj, hslash, hinside⟩ := utfrune_some hrest hfind
        have hj : j < s.length := s.lt_of_get_ne (by rw [hslash]; decide)
        have hsize := h.found.size
        simp only [hfind]
        rw [store_some hlen', bind_eq_bind, bind_some, store_some (by omega), bind_eq_bind, bind_some]
        exact ih (h.cut hlt hroom helems hoff hpj hslash hinside) (by omega)

theorem room_start (copy : List UInt8) (x : Int) : Room ⟨copy, 0, [], [x], false⟩ 0 := by
  refine ⟨?_, ?_⟩
  · exact length_nil
  · exact length_singleton

theorem head_start (s : Str) :
    Head s ⟨s.bytes ++ [0], 0, [], [int (skipslash (s.bytes ++ [0]) 0)], false⟩ 0 [] := by
  refine ⟨⟨fun i j => ?_, List.Pairwise.nil, ?_, nofun, rfl, rfl⟩, Or.inl rfl, Nat.zero_le _, fun q _ => ?_, nofun,
    room_start _ _, rfl, nofun, fun _ => ⟨rfl, rfl⟩⟩
  · exact ⟨nofun, fun ⟨_, hlt⟩ => absurd hlt (Nat.not_lt_zero i)⟩
  · rw [length_append, Str.length, length_singleton]
  · change (s.bytes ++ [0]).getD q 0 = s.get q
    rcases Nat.lt_or_ge q s.length with hlt | hge
    · exact List.getD_append _ _ _ _ hlt
    · rw [s.get_of_le hge, getD_append_right _ _ _ _ hge]
      cases q - s.bytes.length with
      | zero => rfl
      | succ n => rfl

/-- **`parsename`** on any string: it writes inside its arrays, and what it computes are the components. -/
theorem parsename_components (s : Str) : ∃ e l, parsename s.bytes = some e ∧ Parsed s e l := by
  have hparse := @Head.parse _ _ _ _ (s.bytes.length + 1) (head_start s) (by rw [Str.length]; omega)
  exact hparse

/-- The last offset is the end of the name also where that ends in a slash, and the name `.` must be a directory. -/
theorem parsename_ends :
    (¬ ∀ (s : Str) (e : Elemlist), parsename s.bytes = some e →
      ∀ i j k, Component s i j → k < e.nelems → e.elems[k]? = some i → e.off[k + 1]? = some (int j)) ∧
    ¬ ∀ (s : Str) (e : Elemlist), parsename s.bytes = some e →
      (e.mustbedir = true ↔ [slash] <:+ s.bytes ∨ [slash, dot] <:+ s.bytes) := by
  constructor
  · intro hall
    have hcomp : Component ⟨[0x61, slash], by decide⟩ 0 1 := by
      refine ⟨Or.inl rfl, Nat.one_pos, by decide, fun q _ hq => ?_, Or.inr rfl, by decide⟩
      rw [Nat.lt_one_iff.mp hq]
      decide
    have hoff := hall ⟨[0x61, slash], by decide⟩
      ⟨[0x61, 0, 0], 1, List.replicate 8 0, [0, 2, 0, 0, 0, 0, 0, 0, 0], true⟩ (by decide +kernel) 0 1 0 hcomp
      Nat.one_pos rfl
    revert hoff
    decide +kernel
  · intro hall
    have hdir := (hall ⟨[dot], by decide⟩ ⟨[dot, 0], 0, [], [1], true⟩ (by decide +kernel)).mp rfl
    revert hdir
    decide

end Parsename
