import NixKernel.LinkList

/-!
# Tables of chains

The heads of a table start chains that run through one link field, so no element is on two of
them.  An element is taken out of a chain wherever it is, put in front, or moved to the end.
-/

namespace ChainTable

open LinkList Function List

variable {α β : Type*} [DecidableEq α] {fuel : Nat} {x a : α} {p : Option α}
  {next : α → Option α} {l : List α}

/-- Take `x` out of the chain at `head`, if it is there: the head and the links that are left.
Nothing when the links do not end. -/
def unlink (fuel : Nat) (x : α) (head : Option α) (next : α → Option α) :
    Option (Option α × (α → Option α)) :=
  (search next (fun a => decide (a = x)) fuel none head).map fun r =>
    match r.2 with
    | none => (head, next)
    | some _ => store r.1 (next x) head next

theorem unlink_spec (x : α) (h : Path next p l none) (hfuel : l.length < fuel) :
    ∃ head links, unlink fuel x p next = some (head, links) ∧ Path links head (l.erase x) none ∧
      ∀ a ∉ l, links a = next a := by
  by_cases hx : x ∈ l
  · obtain ⟨A, B, rfl, hsearch⟩ := h.search_mem hx hfuel
    obtain ⟨m, hl, hr⟩ := path_append.mp h
    have hm : m = some x := hr.1
    subst hm
    have hxA : x ∉ A := by
      have hnodup := h.nodup
      rw [nodup_append] at hnodup
      exact fun hmem => hnodup.2.2 x hmem x mem_cons_self rfl
    refine ⟨(store A.getLast? (next x) p next).1, (store A.getLast? (next x) p next).2, ?_, ?_, fun a ha => ?_⟩
    · rw [unlink, hsearch]
      rfl
    · rw [erase_append_right _ hxA, erase_cons_head]
      exact hl.remove hr
    · cases hlast : A.getLast? with
      | none => rfl
      | some b =>
        have hb : b ∈ A := mem_of_getLast? hlast
        exact update_of_ne (fun heq : a = b => ha (heq ▸ mem_append_left _ hb)) _ _
  · obtain ⟨q, hsearch⟩ := h.search_not_mem hx hfuel
    refine ⟨p, next, ?_, ?_, fun _ _ => rfl⟩
    · rw [unlink, hsearch]
      rfl
    · rw [erase_of_not_mem hx]
      exact h

/-- The pointer behind a link: the head, or the link of an element. -/
def load (owner : Option α) (head : Option α) (next : α → Option α) : Option α :=
  match owner with
  | none => head
  | some a => next a

/-- Take `x` out of the chain, if it is there, and let the end of what follows point to it. -/
def toEnd (fuel : Nat) (x : α) (head : Option α) (next : α → Option α) :
    Option (Option α × (α → Option α)) :=
  (search next (fun a => decide (a = x)) fuel none head).bind fun r =>
    let u := match r.2 with
      | none => (head, next)
      | some _ => store r.1 (next x) head next
    (search u.2 (fun _ => false) fuel r.1 (load r.1 u.1 u.2)).map fun e =>
      store e.1 (some x) u.1 u.2

/-- Two elements' links are written in any order. -/
theorem store_update {owner : Option α} (p v m : Option α) (next : α → Option α) (h : owner ≠ some x) :
    (store owner v p (update next x m)).1 = (store owner v p next).1 ∧
      (store owner v p (update next x m)).2 = update (store owner v p next).2 x m := by
  cases owner with
  | none => exact ⟨rfl, rfl⟩
  | some a => exact ⟨rfl, update_comm (fun heq => h (congrArg some heq.symm)) _ _ _⟩

omit [DecidableEq α] in
/-- A search that nothing stops runs to the end. -/
theorem search_end {prev : Option α} (h : Path next p l none) (hfuel : l.length < fuel) :
    search next (fun _ => false) fuel prev p = some (l.getLast?.or prev, none) := by
  have hall : ∀ l : List α, (l.takeWhile fun _ => !false) = l ∧ (l.dropWhile fun _ => !false) = [] := by
    intro l
    induction l with
    | nil => exact ⟨rfl, rfl⟩
    | cons a l ih => simp
  rw [search_spec h hfuel, (hall l).1, (hall l).2]
  rfl

omit [DecidableEq α] in
/-- The pointer behind the front of a path. -/
theorem Path.load {m : Option α} (h : Path next p l m) : ChainTable.load l.getLast? p next = m := by
  cases hlast : l.getLast? with
  | none =>
    rw [List.getLast?_eq_none_iff] at hlast
    subst hlast
    exact h
  | some a =>
    obtain ⟨s, rfl⟩ := List.getLast?_eq_some_iff.mp hlast
    obtain ⟨q, -, -, hm⟩ := path_append.mp h
    exact hm

theorem toEnd_spec (x : α) (h : Path next p l none) (hfuel : l.length < fuel) :
    ∃ head links, toEnd fuel x p next = some (head, links) ∧
      Path (update links x none) head (l.erase x ++ [x]) none := by
  -- the end of `A ++ B`, from behind `A`
  have hend : ∀ {A B : List α} {p m : Option α} {next : α → Option α}, Path next p A m → Path next m B none →
      x ∉ A ++ B → B.length < fuel →
      ∃ head links, ((search next (fun _ => false) fuel A.getLast? (load A.getLast? p next)).map fun e =>
        store e.1 (some x) p next) = some (head, links) ∧
        Path (update links x none) head (A ++ B ++ [x]) none := by
    intro A B p m next hA hB hx hlen
    have hlast : (A ++ B).getLast? ≠ some x := fun heq => hx (mem_of_getLast? heq)
    obtain ⟨hhead, hlinks⟩ := store_update p (some x) none next hlast
    have hins := (path_append.mpr ⟨m, hA, hB⟩).insert (r := []) rfl (by rwa [append_nil])
    rw [hhead, hlinks] at hins
    refine ⟨_, _, ?_, hins⟩
    rw [Path.load hA, search_end hB hlen, Option.map_some, List.getLast?_append]
  rw [toEnd]
  by_cases hx : x ∈ l
  · obtain ⟨A, B, rfl, hsearch⟩ := h.search_mem hx hfuel
    obtain ⟨m, hl, hr⟩ := path_append.mp h
    have hm : m = some x := hr.1
    subst hm
    have hnodup := h.nodup
    rw [nodup_append, nodup_cons] at hnodup
    have hxA : x ∉ A := fun hmem => hnodup.2.2 x hmem x mem_cons_self rfl
    have hrest := hl.remove hr
    obtain ⟨m, hA, hB⟩ := path_append.mp hrest
    rw [hsearch, erase_append_right _ hxA, erase_cons_head]
    refine hend hA hB (fun hmem => ?_) ?_
    · rcases mem_append.mp hmem with hmem | hmem
      · exact hxA hmem
      · exact hnodup.2.1.1 hmem
    · rw [length_append, length_cons] at hfuel
      omega
  · have hnone : LinkList.search next (fun a => decide (a = x)) fuel none p = _ := search_spec h hfuel
    have hfalse : ∀ a ∈ l, (!decide (a = x)) = true := by
      intro a ha
      have hne : a ≠ x := fun heq => hx (heq ▸ ha)
      rw [decide_eq_false hne]
      rfl
    rw [takeWhile_eq_self_iff.mpr hfalse, dropWhile_eq_nil_iff.mpr hfalse, Option.or_none] at hnone
    rw [hnone, erase_of_not_mem hx]
    have happ := hend (A := l) (B := []) h rfl (by rwa [append_nil]) (Nat.lt_of_le_of_lt (Nat.zero_le _) hfuel)
    rw [append_nil] at happ
    exact happ

/-- The heads start chains that have no element in common. -/
structure Chains (head : β → Option α) (next : α → Option α) (tab : β → List α) : Prop where
  path : ∀ b, Path next (head b) (tab b) none
  disjoint : ∀ b c a, a ∈ tab b → a ∈ tab c → b = c

variable {head : β → Option α} {tab : β → List α} {b c : β}

omit [DecidableEq α] in
theorem Chains.congr {head' : β → Option α} (h : Chains head next tab) (hhead : head' = head) :
    Chains head' next tab := hhead ▸ h

omit [DecidableEq α] in
theorem Chains.nodup (h : Chains head next tab) (b : β) : (tab b).Nodup := (h.path b).nodup

/-- The link of an element that is on no chain may be written. -/
theorem Chains.free (h : Chains head next tab) (hx : ∀ b, x ∉ tab b) (p : Option α) :
    Chains head (update next x p) tab :=
  ⟨fun b => (h.path b).update_ne (hx b), h.disjoint⟩

variable [DecidableEq β]

/-- **Taking an element out** of its chain. -/
theorem Chains.unlink (h : Chains head next tab) (b : β) (x : α) (hfuel : (tab b).length < fuel) :
    ∃ p links, ChainTable.unlink fuel x (head b) next = some (p, links) ∧
      Chains (update head b p) links (update tab b ((tab b).erase x)) := by
  obtain ⟨p, links, hrun, hpath, hout⟩ := unlink_spec x (h.path b) hfuel
  refine ⟨p, links, hrun, fun c => ?_, fun c d a hc hd => ?_⟩
  · by_cases hcb : c = b
    · rw [hcb, update_self, update_self]
      exact hpath
    · rw [update_of_ne hcb, update_of_ne hcb]
      exact (h.path c).frame fun a ha => hout a fun hmem => hcb (h.disjoint c b a ha hmem)
  · have hold : ∀ c, a ∈ update tab b ((tab b).erase x) c → a ∈ tab c := by
      intro c hc
      by_cases hcb : c = b
      · rw [hcb, update_self] at hc
        exact hcb ▸ mem_of_mem_erase hc
      · rwa [update_of_ne hcb] at hc
    exact h.disjoint c d a (hold c hc) (hold d hd)

/-- **Putting an element in front** of a chain. -/
theorem Chains.cons (h : Chains head next tab) (hx : ∀ b, x ∉ tab b) (b : β) :
    Chains (update head b (some x)) (update next x (head b)) (update tab b (x :: tab b)) := by
  refine ⟨fun c => ?_, fun c d a hc hd => ?_⟩
  · by_cases hcb : c = b
    · rw [hcb, update_self, update_self]
      refine ⟨rfl, ?_⟩
      rw [update_self]
      exact (h.path b).update_ne (hx b)
    · rw [update_of_ne hcb, update_of_ne hcb]
      exact (h.path c).update_ne (hx c)
  · have hcases : ∀ c, a ∈ update tab b (x :: tab b) c → (c = b ∧ a = x) ∨ a ∈ tab c := by
      intro c hc
      by_cases hcb : c = b
      · rw [hcb, update_self] at hc
        rcases mem_cons.mp hc with rfl | hmem
        · exact Or.inl ⟨hcb, rfl⟩
        · exact Or.inr (hcb ▸ hmem)
      · rw [update_of_ne hcb] at hc
        exact Or.inr hc
    rcases hcases c hc with ⟨hcb, hax⟩ | hc' <;> rcases hcases d hd with ⟨hdb, hax'⟩ | hd'
    · exact hcb.trans hdb.symm
    · exact absurd (hax ▸ hd') (hx d)
    · exact absurd (hax' ▸ hc') (hx c)
    · exact h.disjoint c d a hc' hd'

/-- **Taking out an element** whose place in the chain is known. -/
theorem Chains.remove {A B : List α} (h : Chains head next tab) (hb : tab b = A ++ x :: B) :
    Chains (update head b (store A.getLast? (next x) (head b) next).1) (store A.getLast? (next x) (head b) next).2
      (update tab b (A ++ B)) := by
  have hpath := h.path b
  rw [hb] at hpath
  obtain ⟨m, hl, hr⟩ := path_append.mp hpath
  have hm : m = some x := hr.1
  subst hm
  have hold : ∀ c a, a ∈ update tab b (A ++ B) c → a ∈ tab c := by
    intro c a hc
    by_cases hcb : c = b
    · rw [hcb, update_self] at hc
      rw [hcb, hb]
      rcases mem_append.mp hc with hc | hc
      · exact mem_append_left _ hc
      · exact mem_append_right _ (mem_cons_of_mem _ hc)
    · rwa [update_of_ne hcb] at hc
  refine ⟨fun c => ?_, fun c d a hc hd => h.disjoint c d a (hold c a hc) (hold d a hd)⟩
  by_cases hcb : c = b
  · rw [hcb, update_self, update_self]
    exact hl.remove hr
  · rw [update_of_ne hcb, update_of_ne hcb]
    refine (h.path c).store_ne fun a ha hmem => hcb (h.disjoint c b a hmem ?_)
    rw [hb]
    exact mem_append_left _ (mem_of_getLast? ha)

/-- **Putting an element at the end** of a chain. -/
theorem Chains.concat (h : Chains head next tab) (hx : ∀ b, x ∉ tab b) (b : β) :
    Chains (update head b (store (tab b).getLast? (some x) (head b) (update next x none)).1)
      (store (tab b).getLast? (some x) (head b) (update next x none)).2 (update tab b (tab b ++ [x])) := by
  have hcases : ∀ c a, a ∈ update tab b (tab b ++ [x]) c → (c = b ∧ a = x) ∨ a ∈ tab c := by
    intro c a hc
    by_cases hcb : c = b
    · rw [hcb, update_self] at hc
      rcases mem_append.mp hc with hmem | hmem
      · exact Or.inr (hcb ▸ hmem)
      · exact Or.inl ⟨hcb, mem_singleton.mp hmem⟩
    · rw [update_of_ne hcb] at hc
      exact Or.inr hc
  refine ⟨fun c => ?_, fun c d a hc hd => ?_⟩
  · by_cases hcb : c = b
    · rw [hcb, update_self, update_self]
      refine (h.path b).insert (r := []) rfl ?_
      rw [append_nil]
      exact hx b
    · rw [update_of_ne hcb, update_of_ne hcb]
      refine ((h.path c).update_ne (hx c)).store_ne fun a ha hmem => hcb (h.disjoint c b a hmem ?_)
      exact mem_of_getLast? ha
  · rcases hcases c a hc with ⟨hcb, hax⟩ | hc'
    · rcases hcases d a hd with ⟨hdb, -⟩ | hd'
      · exact hcb.trans hdb.symm
      · exact absurd (hax ▸ hd') (hx d)
    · rcases hcases d a hd with ⟨-, hax⟩ | hd'
      · exact absurd (hax ▸ hc') (hx c)
      · exact h.disjoint c d a hc' hd'

/-- **Taking the front** off a chain. -/
theorem Chains.tail (h : Chains head next tab) (hb : tab b = x :: l) :
    Chains (update head b (next x)) next (update tab b l) :=
  h.remove (A := []) hb

omit [DecidableEq α] [DecidableEq β] in
/-- Some of the chains are given up. -/
theorem Chains.sub {head' : β → Option α} {tab' : β → List α} (h : Chains head next tab)
    (heach : ∀ b, (head' b = head b ∧ tab' b = tab b) ∨ (head' b = none ∧ tab' b = [])) :
    Chains head' next tab' := by
  have hold : ∀ b a, a ∈ tab' b → a ∈ tab b := by
    intro b a ha
    rcases heach b with ⟨-, htab⟩ | ⟨-, htab⟩
    · rwa [htab] at ha
    · rw [htab] at ha
      exact absurd ha not_mem_nil
  refine ⟨fun b => ?_, fun b c a hb hc => h.disjoint b c a (hold b a hb) (hold c a hc)⟩
  rcases heach b with ⟨hhead, htab⟩ | ⟨hhead, htab⟩
  · rw [hhead, htab]
    exact h.path b
  · rw [hhead, htab]
    rfl

omit [DecidableEq α] in
/-- One chain is given up. -/
theorem Chains.clear (h : Chains head next tab) (b : β) :
    Chains (update head b none) next (update tab b []) := by
  refine h.sub fun c => ?_
  by_cases hcb : c = b
  · rw [hcb, update_self, update_self]
    exact Or.inr ⟨rfl, rfl⟩
  · rw [update_of_ne hcb, update_of_ne hcb]
    exact Or.inl ⟨rfl, rfl⟩

/-- **Putting a whole chain at the end** of another. -/
theorem Chains.splice (h : Chains head next tab) (hbc : b ≠ c) :
    Chains (update (update head c none) b (store (tab b).getLast? (head c) (head b) next).1)
      (store (tab b).getLast? (head c) (head b) next).2
      (update (update tab c []) b (tab b ++ tab c)) := by
  have hcases : ∀ d a, a ∈ update (update tab c []) b (tab b ++ tab c) d →
      (d = b ∧ a ∈ tab c) ∨ (d ≠ c ∧ a ∈ tab d) := by
    intro d a hd
    by_cases hdb : d = b
    · rw [hdb, update_self] at hd
      rcases mem_append.mp hd with hmem | hmem
      · exact Or.inr ⟨hdb ▸ hbc, hdb ▸ hmem⟩
      · exact Or.inl ⟨hdb, hmem⟩
    · rw [update_of_ne hdb] at hd
      by_cases hdc : d = c
      · rw [hdc, update_self] at hd
        exact absurd hd not_mem_nil
      · rw [update_of_ne hdc] at hd
        exact Or.inr ⟨hdc, hd⟩
  refine ⟨fun d => ?_, fun d e a hd he => ?_⟩
  · by_cases hdb : d = b
    · rw [hdb, update_self, update_self]
      exact (h.path b).store (h.nodup b) (h.path c) fun a hb hc => hbc (h.disjoint b c a hb hc)
    · rw [update_of_ne hdb, update_of_ne hdb]
      by_cases hdc : d = c
      · rw [hdc, update_self, update_self]
        rfl
      · rw [update_of_ne hdc, update_of_ne hdc]
        refine (h.path d).store_ne fun a ha hmem => hdb (h.disjoint d b a hmem ?_)
        exact mem_of_getLast? ha
  · rcases hcases d a hd with ⟨hdb, hac⟩ | ⟨hdc, had⟩
    · rcases hcases e a he with ⟨heb, -⟩ | ⟨hec, hae⟩
      · exact hdb.trans heb.symm
      · exact absurd (h.disjoint e c a hae hac) hec
    · rcases hcases e a he with ⟨-, hac⟩ | ⟨-, hae⟩
      · exact absurd (h.disjoint d c a had hac) hdc
      · exact h.disjoint d e a had hae

/-- A whole chain moves to where there is none. -/
theorem Chains.move (h : Chains head next tab) (hbc : b ≠ c) (hb : tab b = []) :
    Chains (update (update head c none) b (head c)) next (update (update tab c []) b (tab c)) := by
  have hsplice := h.splice hbc
  rw [hb] at hsplice
  exact hsplice

end ChainTable
