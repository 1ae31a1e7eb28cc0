import NixKernel.PathsSpec

/-!
# All paths

A path that is shared is left to its other holders, and it is the copy that is changed.  So every path keeps one slot
for each element, and every reference to a mount point is in a slot until it is given back.  Names that are added and
then taken away by `..` leave the path as it was.
-/

namespace Paths

open List Option
open Parsename (slash dot)

variable {s t : State} {p q : Nat} {x : Path} {P e : List UInt8} {ks : Bool} {es es' : List (List UInt8)}
  {slots slots' : List (Option Nat)} {c : Option Nat} {k : List Nat}

theorem lt_of_live (h : 0 < (s.get p).ref) : p < s.path.length := by
  refine Tally.lt_of_getD_ne (d := noPath) fun heq => ?_
  rw [State.get, heq] at h
  exact Nat.lt_irrefl 0 h

theorem get_set (hp : p < s.path.length) (x : Path) (q : Nat) :
    (s.set p x).get q = if q = p then x else s.get q := Tally.getD_set hp x q

/-- **What holds of all paths.** -/
structure Inv (s : State) : Prop where
  good : ∀ p, 0 < (s.get p).ref → ∃ P ks es slots, (s.get p).Good P ks es slots
  balanced : Balanced s

/-- One path is changed, and the channels are accounted for. -/
theorem Inv.set (h : Inv s) (hp : p < s.path.length) (x : Path) (got closed : List Nat)
    (hgood : 0 < x.ref → ∃ P ks es slots, x.Good P ks es slots)
    (hcount : ∀ c, (s.get p).held.count c + got.count c = x.held.count c + closed.count c) :
    Inv { s.set p x with got := s.got ++ got, closed := s.closed ++ closed } where
  good := by
    intro q hq
    have hget := get_set hp x q
    change 0 < ((s.set p x).get q).ref at hq
    change ∃ P ks es slots, ((s.set p x).get q).Good P ks es slots
    rw [hget] at hq ⊢
    split at hq
    · next heq =>
      rw [if_pos heq]
      exact hgood hq
    · next hne =>
      rw [if_neg hne]
      exact h.good q hq
  balanced := by
    intro c
    have hsum := Tally.sum_set (d := noPath) (fun x : Path => x.held.count c) hp x
    have hbal := h.balanced c
    have hc := hcount c
    change (s.got ++ got).count c =
      (s.closed ++ closed).count c + ((s.path.set p x).map fun x => x.held.count c).sum
    rw [count_append, count_append]
    rw [State.get] at hc
    omega

/-- One more path. -/
theorem Inv.concat (h : Inv s) (hx : x.Good P ks es slots) :
    Inv { s with path := s.path ++ [x], got := s.got ++ x.held } where
  good := by
    intro q hq
    have hget := Tally.getD_concat (d := noPath) s.path x q
    change 0 < ((s.path ++ [x]).getD q noPath).ref at hq
    change ∃ P ks es slots, ((s.path ++ [x]).getD q noPath).Good P ks es slots
    rw [hget] at hq ⊢
    split at hq
    · next heq =>
      rw [if_pos heq]
      exact ⟨P, ks, es, slots, hx⟩
    · next hne =>
      rw [if_neg hne]
      exact h.good q hq
  balanced := by
    intro c
    have hbal := h.balanced c
    change (s.got ++ x.held).count c = s.closed.count c + ((s.path ++ [x]).map fun x => x.held.count c).sum
    rw [count_append, map_append, sum_append, map_singleton, sum_singleton]
    omega

/-- A change of the count alone. -/
theorem Inv.setRef (h : Inv s) (hp : 0 < (s.get p).ref) (r : Nat) : Inv (s.set p { s.get p with ref := r }) := by
  have hset := h.set (lt_of_live hp) { s.get p with ref := r } [] [] (fun _ => ?_) fun _ => rfl
  · rwa [append_nil, append_nil] at hset
  · obtain ⟨P, ks, es, slots, hx⟩ := h.good p hp
    exact ⟨P, ks, es, slots, hx.withRef r⟩

/-- **`pathclose`** gives every channel of the last holder's path back. -/
theorem Inv.pathclose (h : Inv s) (hp : 0 < (s.get p).ref) : Inv (pathclose s p) := by
  rw [Paths.pathclose]
  dsimp only
  split
  · exact h.setRef hp _
  · have hset := h.set (lt_of_live hp) noPath [] (s.get p).held (fun hlive => absurd hlive (Nat.lt_irrefl 0))
      fun c => Nat.add_comm ((s.get p).held.count c) 0
    rwa [append_nil] at hset

/-- **A path in a state**, and the channels that have been closed. -/
structure At (s : State) (p : Nat) (P : List UInt8) (ks : Bool) (es : List (List UInt8)) (slots : List (Option Nat))
    (k : List Nat) : Prop where
  inv : Inv s
  live : 0 < (s.get p).ref
  good : (s.get p).Good P ks es slots
  closed : s.closed = k

/-- **Copy on write.** -/
theorem At.uniquepath (h : At s p P ks es slots k) : ∃ t q,
    uniquepath s p = some (t, q) ∧ At t q P ks es slots k := by
  rw [Paths.uniquepath]
  split
  · next hshared =>
    obtain ⟨y, hcopy, hy, href⟩ := copypath_spec h.good
    have hinv := h.inv.concat hy
    have hlt := lt_of_live h.live
    have hget : ∀ r, State.get { s with path := s.path ++ [y], got := s.got ++ y.held } r =
        if r = s.path.length then y else s.get r := Tally.getD_concat (d := noPath) s.path y
    have hsame := (hget p).trans (if_neg (Nat.ne_of_lt hlt))
    have hlive : 0 < (State.get { s with path := s.path ++ [y], got := s.got ++ y.held } p).ref := by
      rw [hsame]
      exact h.live
    have hinv' := hinv.pathclose hlive
    rw [hcopy, map_some]
    refine ⟨_, _, rfl, ?_⟩
    have hclose : Paths.pathclose { s with path := s.path ++ [y], got := s.got ++ y.held } p =
        State.set { s with path := s.path ++ [y], got := s.got ++ y.held } p
          { s.get p with ref := (s.get p).ref - 1 } := by
      rw [Paths.pathclose, hsame]
      exact if_pos hshared
    rw [hclose] at hinv' ⊢
    have hnew : State.get (State.set { s with path := s.path ++ [y], got := s.got ++ y.held } p
        { s.get p with ref := (s.get p).ref - 1 }) s.path.length = y := by
      rw [get_set (lt_of_live hlive), if_neg (Nat.ne_of_gt hlt), hget, if_pos rfl]
    refine ⟨hinv', ?_, ?_, h.closed⟩
    · rw [hnew, href]
      exact Nat.one_pos
    · rw [hnew]
      exact hy
  · exact ⟨s, p, rfl, h⟩

section

variable {cleanname : List UInt8 → List UInt8} {name : List UInt8}

/-- **`addelem`** does to the path, or to its copy, what it does to one that is not shared. -/
theorem At.addelem (h : At s p P ks es slots k) («from» : Option Nat) (hne : name ≠ [dot])
    (hadd : ∀ x : Path, x.Good P ks es slots →
      ∃ y, x.add cleanname name «from» = some (y, c) ∧ y.Good P ks es' slots' ∧ y.ref = x.ref)
    (hcount : ∀ a, (slots.filterMap id).count a + (if name = dotdot then [] else «from».toList).count a =
      (slots'.filterMap id).count a + c.toList.count a) :
    ∃ t q, addelem cleanname s p name «from» = some (t, q) ∧ At t q P ks es' slots' (k ++ c.toList) := by
  obtain ⟨t, q, hunique, ht⟩ := h.uniquepath
  obtain ⟨y, hy, hgood, href⟩ := hadd _ ht.good
  have hlt := lt_of_live ht.live
  have hstep : Paths.addelem cleanname s p name «from» = some ({ t.set q y with
      got := t.got ++ if name = dotdot then [] else «from».toList, closed := t.closed ++ c.toList }, q) := by
    rw [Paths.addelem, if_neg hne, hunique]
    change ((t.get q).add cleanname name «from»).bind _ = _
    rw [hy]
    rfl
  have hget : (t.set q y).get q = y := (get_set hlt y q).trans (if_pos rfl)
  refine ⟨_, _, hstep, ?_, ?_, ?_, ?_⟩
  · refine ht.inv.set hlt y _ _ (fun _ => ⟨P, ks, es', slots', hgood⟩) fun a => ?_
    rw [ht.good.held, hgood.held]
    exact hcount a
  · change 0 < ((t.set q y).get q).ref
    rw [hget, href]
    exact ht.live
  · change ((t.set q y).get q).Good P ks es' slots'
    rw [hget]
    exact hgood
  · change t.closed ++ c.toList = _
    rw [ht.closed]

theorem count_concat (slots : List (Option Nat)) (c : Option Nat) (a : Nat) :
    ((slots ++ [c]).filterMap id).count a = (slots.filterMap id).count a + c.toList.count a := by
  rw [filterMap_append, count_append]
  cases c <;> rfl

variable (cleanname) in
/-- **A name.** -/
theorem At.addelem_name (h : At s p P ks es slots k) (hname : Element name) («from» : Option Nat) : ∃ t q,
    Paths.addelem cleanname s p name «from» = some (t, q) ∧ At t q P ks (es ++ [name]) (slots ++ [«from»]) k := by
  have hdotdot : name ≠ dotdot := hname.1.ne_dotdot
  have hpath : ∀ x : Path, x.Good P ks es slots → ∃ y, x.add cleanname name «from» = some (y, none) ∧
      y.Good P ks (es ++ [name]) (slots ++ [«from»]) ∧ y.ref = x.ref := fun x hx => hx.add hname «from»
  have hadd := h.addelem «from» hname.1.ne_dot hpath ?_
  · rwa [toList_none, append_nil] at hadd
  · intro a
    rw [if_neg hdotdot, count_concat]
    rfl

/-- **`..` at the root.** -/
theorem At.addelem_root (hclean : ∀ s, cleanname s = Lexical.clean slash dot s) (h : At s p P ks [] slots k)
    («from» : Option Nat) : ∃ t q,
      Paths.addelem cleanname s p dotdot «from» = some (t, q) ∧ At t q P ks [] slots k := by
  have hadd := h.addelem (c := none) «from» (by decide) (fun x hx => hx.add_root hclean «from») fun a => rfl
  rwa [toList_none, append_nil] at hadd

/-- **`..` behind an element.** -/
theorem At.addelem_parent (hclean : ∀ s, cleanname s = Lexical.clean slash dot s)
    (h : At s p P ks (es ++ [e]) (slots ++ [c]) k) («from» : Option Nat) : ∃ t q,
      Paths.addelem cleanname s p dotdot «from» = some (t, q) ∧ At t q P ks es slots (k ++ c.toList) := by
  refine h.addelem «from» (by decide) (fun x hx => hx.add_parent hclean «from») fun a => ?_
  rw [count_concat, if_pos rfl]
  rfl

/-- **`addelem` is never stuck**, and nothing is lost. -/
theorem At.addelem_legal (hclean : ∀ s, cleanname s = Lexical.clean slash dot s) (h : At s p P ks es slots k)
    (hname : Element name ∨ name = [dot] ∨ name = dotdot) («from» : Option Nat) : ∃ t q,
      Paths.addelem cleanname s p name «from» = some (t, q) ∧ Inv t := by
  rcases hname with hname | rfl | rfl
  · obtain ⟨t, q, hadd, ht⟩ := h.addelem_name cleanname hname «from»
    exact ⟨t, q, hadd, ht.inv⟩
  · exact ⟨s, p, if_pos rfl, h.inv⟩
  · rcases eq_nil_or_concat' es with rfl | ⟨es', e, rfl⟩
    · obtain ⟨t, q, hadd, ht⟩ := h.addelem_root hclean «from»
      exact ⟨t, q, hadd, ht.inv⟩
    · have hpos : slots ≠ [] := by
        intro heq
        have hlen := h.good.length
        rw [heq] at hlen
        exact Nat.succ_ne_zero _ hlen.symm
      obtain ⟨slots', c, hslots⟩ := (eq_nil_or_concat' slots).resolve_left hpos
      rw [hslots] at h
      obtain ⟨t, q, hadd, ht⟩ := h.addelem_parent hclean «from»
      exact ⟨t, q, hadd, ht.inv⟩

theorem inv_init : Inv init where
  good p hp := absurd (lt_of_live hp) (Nat.not_lt_zero p)
  balanced _ := rfl

/-- **Every step** keeps the invariant. -/
theorem step_inv (hclean : ∀ s, cleanname s = Lexical.clean slash dot s) {a : Act} (h : Inv s)
    (hs : step cleanname s a t) : Inv t := by
  obtain ⟨hlegal, hact⟩ := hs
  cases a with
  | newpath name =>
    obtain ⟨x, P, ks, hnew, hx, -⟩ := newpath_spec hlegal
    rw [act, hnew] at hact
    cases hact
    have hheld : x.held = [] := hx.held
    have hconcat := h.concat hx
    rwa [hheld, append_nil] at hconcat
  | incref p =>
    obtain ⟨hp, heq⟩ := ite_none_right_eq_some.mp hact
    cases heq
    exact h.setRef hp _
  | addelem p name «from» =>
    obtain ⟨hp, hadd⟩ := ite_none_right_eq_some.mp hact
    obtain ⟨P, ks, es, slots, hx⟩ := h.good p hp
    obtain ⟨u, q, heq, hu⟩ := At.addelem_legal hclean ⟨h, hp, hx, rfl⟩ hlegal «from»
    rw [heq] at hadd
    cases hadd
    exact hu
  | pathclose p =>
    obtain ⟨hp, heq⟩ := ite_none_right_eq_some.mp hact
    cases heq
    exact h.pathclose hp

theorem reach_inv (hclean : ∀ s, cleanname s = Lexical.clean slash dot s)
    (hr : StepSystem.Reach (· = init) (step cleanname) s) : Inv s := by
  refine hr.invariant Inv ?_ fun _ _ _ h hs => step_inv hclean h hs
  rintro _ rfl
  exact inv_init

theorem addelems_append (ns ms : List (List UInt8 × Option Nat)) : ∀ s p,
    addelems cleanname s p (ns ++ ms) = (addelems cleanname s p ns).bind fun r => addelems cleanname r.1 r.2 ms := by
  induction ns with
  | nil => exact fun _ _ => rfl
  | cons n ns ih =>
    intro s p
    rw [cons_append, addelems, addelems, bind_assoc]
    exact congrArg _ (funext fun r => ih r.1 r.2)

variable (cleanname) in
/-- Names. -/
theorem At.addelems_names {ns : List (List UInt8 × Option Nat)} (hns : ∀ n ∈ ns, Element n.1)
    (h : At s p P ks es slots k) : ∃ t q, addelems cleanname s p ns = some (t, q) ∧
      At t q P ks (es ++ ns.map Prod.fst) (slots ++ ns.map Prod.snd) k := by
  induction ns generalizing s p es slots with
  | nil =>
    refine ⟨s, p, rfl, ?_⟩
    rwa [map_nil, append_nil, map_nil, append_nil]
  | cons n ns ih =>
    obtain ⟨t, q, hadd, ht⟩ := h.addelem_name cleanname (hns n mem_cons_self) n.2
    obtain ⟨u, r, hrest, hu⟩ := ih (fun n hn => hns n (mem_cons_of_mem _ hn)) ht
    refine ⟨u, r, ?_, ?_⟩
    · rw [addelems, hadd, bind_some, hrest]
    · rwa [append_assoc, append_assoc] at hu

/-- As many `..` as there are elements behind those that stay. -/
theorem At.addelems_dotdots (hclean : ∀ s, cleanname s = Lexical.clean slash dot s) {us : List (Option Nat)}
    (hes : es'.length = us.length) (hslots : slots'.length = us.length)
    (h : At s p P ks (es ++ es') (slots ++ slots') k) :
    ∃ t q, addelems cleanname s p (us.map fun u => (dotdot, u)) = some (t, q) ∧
      At t q P ks es slots (k ++ slots'.reverse.filterMap id) := by
  induction us generalizing s p k es' slots' with
  | nil =>
    rw [length_eq_zero_iff.mp hes, append_nil, length_eq_zero_iff.mp hslots, append_nil] at h
    refine ⟨s, p, rfl, ?_⟩
    rw [length_eq_zero_iff.mp hslots]
    change At s p P ks es slots (k ++ [])
    rwa [append_nil]
  | cons u us ih =>
    obtain ⟨es₁, e, rfl⟩ := (eq_nil_or_concat' es').resolve_left (ne_nil_of_length_eq_add_one hes)
    obtain ⟨slots₁, c, rfl⟩ := (eq_nil_or_concat' slots').resolve_left (ne_nil_of_length_eq_add_one hslots)
    rw [length_append] at hes hslots
    rw [← append_assoc, ← append_assoc] at h
    obtain ⟨t, q, hadd, ht⟩ := h.addelem_parent hclean u
    obtain ⟨v, r, hrest, hv⟩ := ih (Nat.succ.inj hes) (Nat.succ.inj hslots) ht
    refine ⟨v, r, ?_, ?_⟩
    · rw [map_cons, addelems, hadd, bind_some, hrest]
    · rw [append_assoc] at hv
      rw [reverse_append, filterMap_append]
      cases c <;> exact hv

/-- **Paths keep their string and their slots together.**  In every state that is reached, a path has one slot for each
element and one for the root, its length is that of its string and fits, and every channel that a path took is held or
has been closed.  An element is added without a write outside the path.  Names that are added and then taken away by
as many `..` leave string and slots as they were, and close each of their channels once. -/
theorem addelem_aligned (hclean : ∀ s, cleanname s = Lexical.clean slash dot s)
    (hr : StepSystem.Reach (· = init) (step cleanname) s) (hp : 0 < (s.get p).ref) :
    Aligned (s.get p) ∧ Balanced s ∧
      (∀ name «from», Element name ∨ name = [dot] ∨ name = dotdot →
        (Paths.addelem cleanname s p name «from»).isSome = true) ∧
      ∀ (ns : List (List UInt8 × Option Nat)) (us : List (Option Nat)), (∀ n ∈ ns, Element n.1) → us.length = ns.length →
        ∃ t q, addelems cleanname s p (ns ++ us.map fun u => (dotdot, u)) = some (t, q) ∧
          (t.get q).name = (s.get p).name ∧ (t.get q).slots = (s.get p).slots ∧
            t.closed = s.closed ++ (ns.filterMap Prod.snd).reverse := by
  have hinv := reach_inv hclean hr
  obtain ⟨P, ks, es, slots, hx⟩ := hinv.good p hp
  have hat : At s p P ks es slots s.closed := ⟨hinv, hp, hx, rfl⟩
  refine ⟨hx.aligned, hinv.balanced, ?_, ?_⟩
  · intro name «from» hname
    obtain ⟨t, q, hadd, -⟩ := hat.addelem_legal hclean hname «from»
    rw [hadd]
    rfl
  · intro ns us hns hlen
    obtain ⟨t, q, hnames, ht⟩ := hat.addelems_names cleanname hns
    obtain ⟨u, r, hback, hu⟩ := ht.addelems_dotdots hclean
      (length_map _ |>.trans hlen.symm) (length_map _ |>.trans hlen.symm)
    refine ⟨u, r, ?_, ?_, ?_, ?_⟩
    · rw [addelems_append, hnames, bind_some, hback]
    · rw [hu.good.holds.name, hx.holds.name]
    · rw [hu.good.slotted.slots_eq, hx.slotted.slots_eq]
    · rw [hu.closed, filterMap_reverse, filterMap_map]
      rfl

end

/-- One holder of `/a` adds `b`, and so the other's path is copied; then `c` is added and taken away. -/
theorem addelem_aligned_shared : ∃ s t q, 0 < (s.get 1).ref ∧ Aligned (s.get 1) ∧ Balanced s ∧
    addelems (Lexical.clean slash dot) s 1 [([0x63], some 9), (dotdot, none)] = some (t, q) ∧
      (t.get q).name = (s.get 1).name ∧ (t.get q).slots = (s.get 1).slots ∧ t.closed = s.closed ++ [9] := by
  have hrun := @StepSystem.exec_getD _ _ (act (Lexical.clean slash dot))
    [.newpath [slash], .addelem 0 [0x61] (some 7), .incref 0, .addelem 0 [0x62] none] init init (by decide +kernel)
  have hroot : Root [slash] := Or.inl rfl
  have ha : Element [0x61] := ⟨⟨by decide, by decide, by decide, by decide⟩, by decide⟩
  have hb : Element [0x62] := ⟨⟨by decide, by decide, by decide, by decide⟩, by decide⟩
  have hc : Element [0x63] := ⟨⟨by decide, by decide, by decide, by decide⟩, by decide⟩
  have hreach := @StepSystem.Reach.exec _ _ (· = init) (step (Lexical.clean slash dot)) _ _ _ _ (.start rfl) hrun ?_
  · have hlive := by
      change 0 < (State.get ((StepSystem.exec (act (Lexical.clean slash dot)) init [.newpath [slash],
        .addelem 0 [0x61] (some 7), .incref 0, .addelem 0 [0x62] none]).getD init) 1).ref
      decide +kernel
    obtain ⟨haligned, hbalanced, -, hback⟩ := addelem_aligned (fun _ => rfl) hreach hlive
    have hnames : ∀ n ∈ [(([0x63] : List UInt8), some 9)], Element n.1 := fun n hn => List.mem_singleton.mp hn ▸ hc
    obtain ⟨t, q, hadd, hname, hslots, hclosed⟩ := hback _ [none] hnames rfl
    exact ⟨_, t, q, hlive, haligned, hbalanced, hadd, hname, hslots, hclosed⟩
  · intro s a t ha' hact
    refine ⟨?_, hact⟩
    simp only [mem_cons, not_mem_nil, or_false] at ha'
    rcases ha' with rfl | rfl | rfl | rfl
    · exact hroot
    · exact Or.inl ha
    · trivial
    · exact Or.inl hb

/-- "names with / in them": `newpath` gives `#/f` the slot of the root alone, and prints a warning.  A `.` is not added,
and so a `..` takes an element away that was there before. -/
theorem dot_not_restored :
    (∃ x, newpath [hash, slash, 0x66] = some x ∧ x.slots.length ≠ (elements x.name).length + 1) ∧
      ∃ s t q, StepSystem.exec (act (Lexical.clean slash dot)) init [.newpath [slash], .addelem 0 [0x61] none] = some s ∧
        addelems (Lexical.clean slash dot) s 0 [([dot], none), (dotdot, none)] = some (t, q) ∧
          (t.get q).name ≠ (s.get 0).name ∧ (t.get q).slots ≠ (s.get 0).slots :=
  ⟨⟨_, rfl, by decide +kernel⟩, _, _, _, rfl, rfl, by decide +kernel, by decide +kernel⟩

end Paths
