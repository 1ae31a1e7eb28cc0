import NixKernel.Paths

/-!
# One path

The string of a path is its root and its elements, each behind a slash; only a root that is a slash keeps it when there
is no element.  An element is added behind them, and `..` takes the last one away with its slot.
-/

namespace Paths

open CString List Option
open Parsename (slash dot)

variable {x y : Path} {str s e : List UInt8} {es : List (List UInt8)} {slots : List (Option Nat)} {c : Option Nat}

theorem store_append {α : Type} {a b d : List α} (h : d.length ≤ b.length) :
    store (a ++ b) a.length d = some (a ++ d ++ b.drop d.length) := by
  rw [store, if_pos, take_left, drop_append, drop_of_length_le (Nat.le_add_right _ _),
    Nat.add_sub_cancel_left, nil_append]
  rw [length_append]
  exact Nat.add_le_add_left h _

theorem length_store {α : Type} {mem b t : List α} {i : Nat} (h : store mem i b = some t) : t.length = mem.length := by
  obtain ⟨hle, heq⟩ := ite_none_right_eq_some.mp h
  cases heq
  simp only [length_append, length_take, length_drop]
  omega

theorem store_zero {α : Type} {b d : List α} (h : d.length ≤ b.length) : store b 0 d = some (d ++ b.drop d.length) :=
  store_append (a := []) h

theorem takeWhile_string {rest : List UInt8} (h : 0 ∉ str) : (str ++ 0 :: rest).takeWhile (· ≠ 0) = str := by
  induction str with
  | nil => rfl
  | cons b str ih =>
    rw [mem_cons, not_or] at h
    rw [cons_append, takeWhile_cons_of_pos (p := fun x => decide (x ≠ 0)) (decide_eq_true (Ne.symm h.1)),
      ih h.2]

theorem read_string {a rest : List UInt8} (h : 0 ∉ str) : read (a ++ (str ++ 0 :: rest)) a.length = str := by
  rw [CString.read, drop_left, takeWhile_string h]

theorem strchr_string {ch : UInt8} {a rest : List UInt8} (hch : ch ∉ a) (h : 0 ∉ a) :
    strchr ch (a ++ ch :: rest) = some a.length := by
  induction a with
  | nil => exact if_pos rfl
  | cons b a ih =>
    rw [mem_cons, not_or] at hch h
    rw [cons_append, strchr, if_neg (Ne.symm hch.1), if_neg (Ne.symm h.1), ih hch.2 h.2]
    rfl

/-- **The path holds a string.** -/
structure Path.Holds (x : Path) (str : List UInt8) : Prop where
  noNul : 0 ∉ str
  len : x.len = str.length
  alen : x.s.length = x.alen
  string : ∃ rest, x.s = str ++ 0 :: rest

theorem Path.Holds.name (h : x.Holds str) : x.name = str := by
  obtain ⟨rest, hs⟩ := h.string
  rw [Path.name, hs]
  exact read_string (a := []) h.noNul

theorem Path.Holds.fits (h : x.Holds str) : x.len < x.alen := by
  obtain ⟨rest, hs⟩ := h.string
  rw [h.len, ← h.alen, hs, length_append, length_cons]
  omega

theorem Path.Holds.take (h : x.Holds str) : x.s.take (x.len + 1) = str ++ [0] := by
  obtain ⟨rest, hs⟩ := h.string
  rw [hs, h.len, take_append, take_of_length_le (Nat.le_succ _), Nat.add_sub_cancel_left]
  rfl

theorem Path.Holds.grow (h : x.Holds str) (i : Nat) : ∃ t a, x.grow i = some { x with s := t, alen := a } ∧
    Path.Holds { x with s := t, alen := a } str ∧ str.length + 1 + i + 1 ≤ a := by
  rw [Path.grow]
  split
  · have hroom : (str ++ [0]).length ≤ (List.replicate (x.len + 1 + i + 1 + pathslop) (0 : UInt8)).length := by
      rw [length_append, length_replicate, length_singleton, h.len]
      omega
    have hstore := store_zero hroom
    change ∃ t a, (store (List.replicate (x.len + 1 + i + 1 + pathslop) (0 : UInt8)) 0 (x.s.take (x.len + 1))).map _ = _ ∧ _
    rw [h.take, hstore, map_some]
    refine ⟨_, _, rfl, ⟨h.noNul, h.len, ?_, _, append_assoc _ _ _⟩, ?_⟩
    · exact (length_store hstore).trans length_replicate
    · rw [h.len]
      omega
  · refine ⟨x.s, x.alen, rfl, h, ?_⟩
    have hlen := h.len
    omega

/-- What comes between. -/
def joint (str s : List UInt8) : List UInt8 :=
  if str.length > 0 ∧ str.getD (str.length - 1) 0 ≠ slash ∧ s.getD 0 0 ≠ slash then [slash] else []

/-- **The name with `s` behind it.** -/
theorem Path.Holds.append (h : x.Holds str) (hs : 0 ∉ s) : ∃ t l a,
    x.append s = some { x with s := t, len := l, alen := a } ∧
      Path.Holds { x with s := t, len := l, alen := a } (str ++ joint str s ++ s) := by
  obtain ⟨t, a, hgrow, hx, hroom⟩ := h.grow s.length
  obtain ⟨rest, ht⟩ := hx.string
  have hlen : x.len = str.length := h.len
  have halen : t.length = a := hx.alen
  change t = str ++ 0 :: rest at ht
  have hrest : str.length + 1 + rest.length = a := by
    rw [← halen, ht, length_append, length_cons]
    omega
  have hlast : str.length > 0 → t.getD (str.length - 1) 0 = str.getD (str.length - 1) 0 := by
    intro hpos
    rw [ht, List.getD_append _ _ _ _ (Nat.sub_lt hpos Nat.one_pos)]
  have hnoNul : 0 ∉ str ++ joint str s ++ s := by
    rw [mem_append, mem_append, not_or, not_or]
    refine ⟨⟨h.noNul, ?_⟩, hs⟩
    rw [joint]
    split
    · decide
    · exact not_mem_nil
  rw [Path.append, hgrow]
  change ∃ t' l a', ((Path.addSlash { x with s := t, alen := a } s).bind fun p =>
    (store p.s p.len (s ++ [0])).bind fun t => some { p with s := t, len := p.len + s.length }) =
      some { x with s := t', len := l, alen := a' } ∧ _
  rw [Path.addSlash]
  by_cases hcond : str.length > 0 ∧ str.getD (str.length - 1) 0 ≠ slash ∧ s.getD 0 0 ≠ slash
  · have hjoint : joint str s = [slash] := if_pos hcond
    rw [if_pos (by rw [hlen, hlast hcond.1]; exact hcond)]
    have hslash : store t str.length [slash] = some (str ++ [slash] ++ rest) := by
      rw [ht, store_append (by simp)]
      rfl
    have hstore : store (str ++ [slash] ++ rest) (str.length + 1) (s ++ [0]) =
        some (str ++ [slash] ++ (s ++ [0]) ++ rest.drop (s ++ [0]).length) := by
      have hle : (s ++ [0]).length ≤ rest.length := by
        rw [length_append, length_singleton]
        omega
      have hat := store_append (a := str ++ [slash]) hle
      rwa [length_append, length_singleton] at hat
    change ∃ t' l a', (((store t x.len [slash]).map _).bind _) = _ ∧ _
    rw [hlen, hslash, map_some, bind_some]
    dsimp only
    rw [hstore, bind_some]
    refine ⟨_, _, _, rfl, hnoNul, ?_, ?_, rest.drop (s ++ [(0 : UInt8)]).length, ?_⟩
    · change str.length + 1 + s.length = _
      rw [hjoint, length_append, length_append, length_singleton]
    · exact (length_store hstore).trans ((length_store hslash).trans halen)
    · rw [hjoint]
      simp only [append_assoc, cons_append, nil_append]
  · have hjoint : joint str s = [] := if_neg hcond
    rw [if_neg]
    · have hle : (s ++ [0]).length ≤ (0 :: rest).length := by
        rw [length_append, length_singleton, length_cons]
        omega
      have hstore := store_append (a := str) hle
      rw [← ht] at hstore
      change ∃ t' l a', ((store t x.len (s ++ [0])).bind _) = _ ∧ _
      rw [hlen, hstore, bind_some]
      refine ⟨_, _, _, rfl, hnoNul, ?_, ?_, (0 :: rest).drop (s ++ [(0 : UInt8)]).length, ?_⟩
      · change str.length + s.length = _
        rw [hjoint, append_nil, length_append]
      · exact (length_store hstore).trans halen
      · rw [hjoint, append_nil]
        simp only [append_assoc, singleton_append]
    · rintro ⟨hpos, hrest⟩
      rw [hlen] at hpos hrest
      rw [hlast hpos] at hrest
      exact hcond ⟨hpos, hrest⟩

/-- A root without its slash, and whether it has one. -/
def Kind (P : List UInt8) (ks : Bool) : Prop :=
  (P = [] ∧ ks = true) ∨ (P = [hash] ∧ ks = true) ∨
    ∃ spec, spec ≠ [] ∧ slash ∉ spec ∧ 0 ∉ spec ∧ P = hash :: spec ∧ ks = false

/-- The elements behind a root. -/
def nameOf (P : List UInt8) (ks : Bool) (es : List (List UInt8)) : List UInt8 :=
  P ++ if es = [] ∧ ks = true then [slash] else Lexical.flat slash es

variable {P : List UInt8} {ks : Bool}

theorem Root.kind {name : List UInt8} (h : Root name) : ∃ P ks, Kind P ks ∧ name = nameOf P ks [] := by
  rcases h with rfl | rfl | ⟨spec, hne, hslash, hzero, rfl⟩
  · exact ⟨[], true, Or.inl ⟨rfl, rfl⟩, rfl⟩
  · exact ⟨[hash], true, Or.inr (Or.inl ⟨rfl, rfl⟩), rfl⟩
  · exact ⟨hash :: spec, false, Or.inr (Or.inr ⟨spec, hne, hslash, hzero, rfl, rfl⟩), (append_nil _).symm⟩

theorem Kind.no_slash (h : Kind P ks) : slash ∉ P ∧ 0 ∉ P := by
  rcases h with ⟨rfl, -⟩ | ⟨rfl, -⟩ | ⟨spec, -, hslash, hzero, rfl, -⟩
  · exact ⟨not_mem_nil, not_mem_nil⟩
  · decide
  · exact ⟨not_mem_cons_of_ne_of_not_mem (by decide) hslash, not_mem_cons_of_ne_of_not_mem (by decide) hzero⟩

theorem zero_flat (h : ∀ e ∈ es, 0 ∉ e) : 0 ∉ Lexical.flat slash es := by
  intro hmem
  obtain ⟨e, he, hzero⟩ := mem_flatMap.mp hmem
  rcases mem_cons.mp hzero with heq | hzero
  · exact absurd heq (by decide)
  · exact h e he hzero

theorem zero_nameOf (hk : Kind P ks) (h : ∀ e ∈ es, Element e) : 0 ∉ nameOf P ks es := by
  rw [nameOf, mem_append, not_or]
  refine ⟨hk.no_slash.2, ?_⟩
  split
  · decide
  · exact zero_flat fun e he => (h e he).2

/-- A name that ends in an element does not end in a slash. -/
theorem getD_last {a e : List UInt8} (hne : e ≠ []) (hslash : slash ∉ e) :
    (a ++ e).length > 0 ∧ (a ++ e).getD ((a ++ e).length - 1) 0 ≠ slash := by
  have hpos : 0 < e.length := length_pos_iff.mpr hne
  rw [length_append]
  refine ⟨by omega, ?_⟩
  have hlt : e.length - 1 < e.length := by omega
  rw [getD_append_right _ _ _ _ (by omega)]
  have hsub : a.length + e.length - 1 - a.length = e.length - 1 := by omega
  rw [hsub, getD_eq_getElem _ _ hlt]
  exact fun heq => hslash (heq ▸ getElem_mem hlt)

/-- **One more element**, in front of which there is one slash. -/
theorem append_nameOf (hk : Kind P ks) (hes : ∀ e ∈ es, Element e) (hne : s ≠ []) (hslash : slash ∉ s) :
    nameOf P ks es ++ joint (nameOf P ks es) s ++ s = P ++ Lexical.flat slash (es ++ [s]) := by
  have hfirst : s.getD 0 0 ≠ slash := by
    have hpos : 0 < s.length := length_pos_iff.mpr hne
    rw [getD_eq_getElem _ _ hpos]
    exact fun heq => hslash (heq ▸ getElem_mem hpos)
  rw [Lexical.flat_concat, nameOf]
  by_cases hroot : es = [] ∧ ks = true
  · -- the slash of the root
    have hlast : (P ++ [slash]).getD ((P ++ [slash]).length - 1) 0 = slash := by
      rw [length_append, length_singleton, Nat.add_sub_cancel, getD_append_right _ _ _ _ (Nat.le_refl _),
        Nat.sub_self]
      rfl
    rw [if_pos hroot, joint, if_neg fun hcond => hcond.2.1 hlast, hroot.1]
    simp [Lexical.flat]
  · rw [if_neg hroot]
    have hlast : (P ++ Lexical.flat slash es).length > 0 ∧
        (P ++ Lexical.flat slash es).getD ((P ++ Lexical.flat slash es).length - 1) 0 ≠ slash := by
      rcases eq_nil_or_concat' es with rfl | ⟨es', e, rfl⟩
      · rcases hk with ⟨rfl, hks⟩ | ⟨rfl, hks⟩ | ⟨spec, hspec, hspecslash, -, rfl, -⟩
        · exact absurd ⟨rfl, hks⟩ hroot
        · exact absurd ⟨rfl, hks⟩ hroot
        · have hspecs := getD_last (a := [hash]) hspec hspecslash
          rw [Lexical.flat, flatMap_nil, append_nil]
          exact hspecs
      · obtain ⟨hname, -⟩ := hes e (mem_append_right _ (mem_singleton_self e))
        have hsplit : P ++ Lexical.flat slash (es' ++ [e]) = P ++ Lexical.flat slash es' ++ [slash] ++ e := by
          rw [Lexical.flat_concat]
          simp only [append_assoc, cons_append, nil_append]
        rw [hsplit]
        exact getD_last hname.ne_nil hname.no_sep
    rw [joint, if_pos ⟨hlast.1, hlast.2, hfirst⟩]
    simp

/-- The elements of a name are those behind its root. -/
theorem elements_nameOf (hk : Kind P ks) (hes : ∀ e ∈ es, Element e) : elements (nameOf P ks es) = es := by
  have hrest : Lexical.elements slash dot (if es = [] ∧ ks = true then [slash] else Lexical.flat slash es) = es := by
    split
    · next hroot =>
      rw [hroot.1]
      exact Lexical.elements_sep
    · exact Lexical.elements_flat fun e he => (hes e he).1
  have hfront : ∀ a : List UInt8, slash ∉ a →
      (a ++ if es = [] ∧ ks = true then [slash] else Lexical.flat slash es).dropWhile (· ≠ slash) =
        if es = [] ∧ ks = true then [slash] else Lexical.flat slash es := by
    intro a ha
    rw [dropWhile_append_of_pos]
    · split
      · exact dropWhile_cons_of_neg (by simp)
      · cases es with
        | nil => rfl
        | cons e es => exact dropWhile_cons_of_neg (by simp)
    · intro b hb
      exact decide_eq_true fun heq => ha (heq ▸ hb)
  rw [elements, nameOf]
  have hslash := hk.no_slash.1
  rcases hk with ⟨rfl, hks⟩ | ⟨rfl, hks⟩ | ⟨spec, -, -, -, rfl, -⟩
  · rw [nil_append, if_neg]
    · exact hrest
    · split
      · decide
      · next hroot =>
        have hne : es ≠ [] := fun heq => hroot ⟨heq, hks⟩
        rw [Lexical.head_flat hne]
        decide
  · have hhead : ∀ l : List UInt8, ([hash] ++ l).head? = some hash := fun _ => rfl
    rw [if_pos (hhead _), hfront _ hslash, hrest]
  · have hhead : ∀ l : List UInt8, (hash :: spec ++ l).head? = some hash := fun _ => rfl
    rw [if_pos (hhead _), hfront _ hslash, hrest]

/-- A string is written over another one that is no shorter. -/
theorem store_string {a rest t : List UInt8} (hle : t.length ≤ str.length) : ∃ rest',
    store (a ++ (str ++ 0 :: rest)) a.length (t ++ [0]) = some (a ++ (t ++ 0 :: rest')) := by
  have hlen : (t ++ [0]).length ≤ (str ++ 0 :: rest).length := by
    simp only [length_append, length_cons, length_nil]
    omega
  refine ⟨(str ++ 0 :: rest).drop (t ++ [(0 : UInt8)]).length, ?_⟩
  rw [store_append hlen]
  simp only [append_assoc, cons_append, nil_append]

theorem length_flat_dropLast (es : List (List UInt8)) :
    (if es.dropLast = [] then [slash] else Lexical.flat slash es.dropLast).length ≤
      (Lexical.flat slash (es ++ [dotdot])).length := by
  have hle : (Lexical.flat slash es.dropLast).length ≤ (Lexical.flat slash es).length := by
    rcases eq_nil_or_concat' es with rfl | ⟨es', e, rfl⟩
    · exact Nat.le_refl _
    · rw [dropLast_concat, Lexical.flat_concat, length_append]
      exact Nat.le_add_right _ _
  rw [Lexical.flat_concat, length_append, length_cons]
  split
  · rw [length_singleton]
    omega
  · omega

/-- **`..` at the end** takes the last element away. -/
theorem fixdotdotname_spec {cleanname : List UInt8 → List UInt8} (hclean : ∀ s, cleanname s = Lexical.clean slash dot s)
    (hk : Kind P ks) (hes : ∀ e ∈ es, Element e) (h : x.Holds (P ++ Lexical.flat slash (es ++ [dotdot]))) :
    ∃ t l, fixdotdotname cleanname x = some { x with s := t, len := l } ∧
      Path.Holds { x with s := t, len := l } (nameOf P ks es.dropLast) := by
  obtain ⟨rest, hx⟩ := h.string
  have hnoNul : 0 ∉ Lexical.flat slash (es ++ [dotdot]) := fun hmem => h.noNul (mem_append_right _ hmem)
  have hdrop : ∀ e ∈ es.dropLast, Element e := fun e he => hes e (mem_of_mem_dropLast he)
  have hcleaned : cleanname (Lexical.flat slash (es ++ [dotdot])) =
      if es.dropLast = [] then [slash] else Lexical.flat slash es.dropLast := by
    rw [hclean]
    exact Lexical.clean_dotdot (by decide) fun e he => (hes e he).1
  rw [append_assoc] at hx
  have hread : read x.s P.length = Lexical.flat slash (es ++ [dotdot]) := by
    rw [hx]
    exact read_string hnoNul
  obtain ⟨rest', hstore⟩ := @store_string _ P rest _ (length_flat_dropLast es)
  rw [← hx] at hstore
  -- what is in memory then
  have hfinal : ∀ {t : List UInt8} (rest'' : List UInt8), t = nameOf P ks es.dropLast ++ 0 :: rest'' → t.length = x.s.length →
      Path.Holds { x with s := t, len := strlen t } (nameOf P ks es.dropLast) := by
    intro t rest'' ht hlen
    refine ⟨zero_nameOf hk hdrop, ?_, hlen.trans h.alen, rest'', ht⟩
    change strlen t = _
    rw [strlen, ht, takeWhile_string (zero_nameOf hk hdrop)]
  rw [fixdotdotname]
  have hslash := hk.no_slash
  rcases hk with ⟨rfl, rfl⟩ | hdev
  · have hhead : x.s.getD 0 0 ≠ hash := by
      have hne : es ++ [dotdot] ≠ [] := append_ne_nil_of_right_ne_nil _ (cons_ne_nil _ _)
      rw [hx, Lexical.flat_eq hne]
      change slash ≠ hash
      decide
    rw [if_neg hhead]
    change ∃ t l, ((store x.s 0 (cleanname (read x.s 0) ++ [0])).bind _) = _ ∧ _
    rw [length_nil] at hread hstore
    rw [hread, hcleaned, hstore, bind_some]
    refine ⟨_, _, rfl, hfinal rest' ?_ (length_store hstore)⟩
    rw [nameOf]
    by_cases hnil : es.dropLast = []
    · rw [if_pos hnil, if_pos ⟨hnil, rfl⟩]
      rfl
    · rw [if_neg hnil, if_neg fun hroot => hnil hroot.1]
      rfl
  · have hP : ∃ P', P = hash :: P' := by
      rcases hdev with ⟨rfl, -⟩ | ⟨spec, -, -, -, rfl, -⟩
      · exact ⟨[], rfl⟩
      · exact ⟨spec, rfl⟩
    obtain ⟨P', hP'⟩ := hP
    have hhead : x.s.getD 0 0 = hash := by
      rw [hx, hP']
      rfl
    have hchr : strchr slash x.s = some P.length := by
      obtain ⟨l, hl⟩ : ∃ l, Lexical.flat slash (es ++ [dotdot]) = slash :: l :=
        ⟨_, Lexical.flat_eq (append_ne_nil_of_right_ne_nil _ (cons_ne_nil _ _))⟩
      rw [hx, hl]
      exact strchr_string hslash.1 hslash.2
    rw [if_pos hhead, hchr]
    change ∃ t l, ((store x.s P.length (cleanname (read x.s P.length) ++ [0])).bind fun s =>
      (cutslash s P.length).bind fun s => some { x with s := s, len := strlen s }) = _ ∧ _
    rw [hread, hcleaned, hstore, bind_some, cutslash]
    by_cases hnil : es.dropLast = []
    · rw [if_pos hnil] at hstore ⊢
      have hread' : read (P ++ ([slash] ++ 0 :: rest')) P.length = [slash] := read_string (by decide)
      rcases hdev with ⟨rfl, rfl⟩ | ⟨spec, hspec, hspecslash, -, rfl, rfl⟩
      · -- `#/`
        rw [if_neg fun hcond => hcond.2 rfl, bind_some]
        refine ⟨_, _, rfl, hfinal rest' ?_ (length_store hstore)⟩
        rw [nameOf, if_pos ⟨hnil, rfl⟩]
        rfl
      · -- `#i/`
        have hsecond : (hash :: spec ++ ([slash] ++ 0 :: rest')).getD 1 0 ≠ slash := by
          have hpos : 0 < spec.length := length_pos_iff.mpr hspec
          change (spec ++ ([slash] ++ 0 :: rest')).getD 0 0 ≠ slash
          rw [List.getD_append _ _ _ _ hpos, getD_eq_getElem _ _ hpos]
          exact fun heq => hspecslash (heq ▸ getElem_mem hpos)
        rw [if_pos ⟨hread', hsecond⟩]
        obtain ⟨rest'', hcut⟩ := @store_string [slash] (hash :: spec) rest' [] (Nat.zero_le _)
        rw [nil_append] at hcut
        rw [hcut, bind_some]
        refine ⟨_, _, rfl, hfinal rest'' ?_ ((length_store hcut).trans (length_store hstore))⟩
        rw [nameOf, hnil, if_neg fun hroot => Bool.false_ne_true hroot.2]
        simp [Lexical.flat]
    · rw [if_neg hnil] at hstore ⊢
      have hread' : read (P ++ (Lexical.flat slash es.dropLast ++ 0 :: rest')) P.length = Lexical.flat slash es.dropLast :=
        read_string (zero_flat fun e he => (hdrop e he).2)
      have hlong : Lexical.flat slash es.dropLast ≠ [slash] := by
        intro heq
        have hback := Lexical.elements_flat fun e he => (hdrop e he).1
        rw [heq, Lexical.elements_sep] at hback
        exact hnil hback.symm
      rw [if_neg, bind_some]
      · refine ⟨_, _, rfl, hfinal rest' ?_ (length_store hstore)⟩
        rw [nameOf, if_neg fun hroot => hnil hroot.1, append_assoc]
      · rintro ⟨heq, -⟩
        rw [hread'] at heq
        exact hlong heq

/-- **The path has these slots**, and perhaps room behind them. -/
structure Path.Slotted (x : Path) (slots : List (Option Nat)) : Prop where
  mlen : x.mlen = slots.length
  malen : x.mtpt.length = x.malen
  mtpt : ∃ rest, x.mtpt = slots ++ rest

theorem Path.Slotted.slots_eq (h : x.Slotted slots) : x.slots = slots := by
  obtain ⟨rest, hm⟩ := h.mtpt
  rw [Path.slots, hm, h.mlen, take_left]

theorem Path.Slotted.le (h : x.Slotted slots) : slots.length ≤ x.malen := by
  obtain ⟨rest, hm⟩ := h.mtpt
  rw [← h.malen, hm, length_append]
  exact Nat.le_add_right _ _

theorem Path.Slotted.growMtpt (h : x.Slotted slots) : ∃ m a, x.growMtpt = some { x with mtpt := m, malen := a } ∧
    Path.Slotted { x with mtpt := m, malen := a } slots ∧ slots.length < a := by
  rw [Path.growMtpt]
  split
  · have hroom : slots.length ≤ (List.replicate (x.mlen + 1 + pathmslop) (none : Option Nat)).length := by
      rw [length_replicate, h.mlen]
      omega
    have hstore := store_zero hroom
    change ∃ m a, (store (List.replicate (x.mlen + 1 + pathmslop) (none : Option Nat)) 0 x.slots).map _ = _ ∧ _
    rw [h.slots_eq, hstore, map_some]
    refine ⟨_, _, rfl, ⟨h.mlen, ?_, _, rfl⟩, ?_⟩
    · exact (length_store hstore).trans length_replicate
    · rw [h.mlen]
      omega
  · refine ⟨x.mtpt, x.malen, rfl, h, ?_⟩
    have hlen := h.mlen
    omega

/-- **One more slot.** -/
theorem Path.Slotted.push (h : x.Slotted slots) (c : Option Nat) : ∃ m a l,
    x.push c = some { x with mtpt := m, malen := a, mlen := l } ∧
      Path.Slotted { x with mtpt := m, malen := a, mlen := l } (slots ++ [c]) := by
  obtain ⟨m, a, hgrow, hx, hroom⟩ := h.growMtpt
  obtain ⟨rest, hm⟩ := hx.mtpt
  have halen : m.length = a := hx.malen
  change m = slots ++ rest at hm
  have hrest : [c].length ≤ rest.length := by
    rw [← halen, hm, length_append] at hroom
    exact Nat.lt_of_add_lt_add_left (n := slots.length) hroom
  have hstore : store m x.mlen [c] = some (slots ++ [c] ++ rest.drop [c].length) := by
    rw [hm, h.mlen]
    exact store_append hrest
  rw [Path.push, hgrow]
  change ∃ m' a' l, ((store m x.mlen [c]).bind fun mtpt => some _) = _ ∧ _
  rw [hstore, bind_some]
  refine ⟨_, _, _, rfl, ?_, (length_store hstore).trans halen, _, rfl⟩
  rw [length_append, ← h.mlen]
  rfl

/-- The slot of the root stays. -/
theorem Path.Slotted.drop_root (h : x.Slotted slots) (hlen : slots.length = 1) : x.drop = (x, none) := by
  rw [Path.drop, if_neg]
  rw [h.mlen, hlen]
  exact Nat.lt_irrefl 1

/-- **One slot less**, and its channel is closed. -/
theorem Path.Slotted.drop (h : x.Slotted (slots ++ [c])) (hlen : 0 < slots.length) : ∃ m l,
    x.drop = ({ x with mtpt := m, mlen := l }, c) ∧ Path.Slotted { x with mtpt := m, mlen := l } slots := by
  obtain ⟨rest, hm⟩ := h.mtpt
  have hmlen : x.mlen - 1 = slots.length := by
    rw [h.mlen, length_append]
    rfl
  have hlast : x.mtpt.getD (x.mlen - 1) none = c := by
    rw [hm, hmlen, append_assoc, getD_append_right _ _ _ _ (Nat.le_refl _), Nat.sub_self]
    rfl
  have hlong : x.mlen > 1 := by omega
  rw [Path.drop, if_pos hlong, hlast]
  cases c with
  | none => exact ⟨x.mtpt, _, rfl, hmlen, h.malen, none :: rest, hm.trans (append_assoc _ _ _)⟩
  | some c =>
    refine ⟨x.mtpt.set (x.mlen - 1) none, _, rfl, hmlen, (length_set ..).trans h.malen, none :: rest, ?_⟩
    change x.mtpt.set (x.mlen - 1) none = _
    rw [hm, hmlen, append_assoc, set_append_right _ _ (Nat.le_refl _), Nat.sub_self]
    rfl

/-- **A path**: its root, its elements and its slots. -/
structure Path.Good (x : Path) (P : List UInt8) (ks : Bool) (es : List (List UInt8)) (slots : List (Option Nat)) :
    Prop where
  kind : Kind P ks
  names : ∀ e ∈ es, Element e
  holds : x.Holds (nameOf P ks es)
  slotted : x.Slotted slots
  length : slots.length = es.length + 1

theorem Path.Good.aligned (h : x.Good P ks es slots) : Aligned x where
  slots := by
    rw [h.slotted.slots_eq, h.holds.name, elements_nameOf h.kind h.names]
    exact h.length
  mlen := by rw [h.slotted.slots_eq, h.slotted.mlen]
  len := by rw [h.holds.name, h.holds.len]
  fits := h.holds.fits
  alen := h.holds.alen
  malen := h.slotted.malen

theorem Path.Good.held (h : x.Good P ks es slots) : x.held = slots.filterMap id := congrArg _ h.slotted.slots_eq

/-- A change of the count alone. -/
theorem Path.Good.withRef (h : x.Good P ks es slots) (r : Nat) : Path.Good { x with ref := r } P ks es slots where
  kind := h.kind
  names := h.names
  holds := { h.holds with }
  slotted := ⟨h.slotted.mlen, h.slotted.malen, h.slotted.mtpt⟩
  length := h.length

/-- **`newpath`** makes a root. -/
theorem newpath_spec {name : List UInt8} (h : Root name) : ∃ x P ks,
    newpath name = some x ∧ x.Good P ks [] [none] ∧ x.ref = 1 := by
  obtain ⟨P, ks, hk, rfl⟩ := h.kind
  have hroom : (nameOf P ks [] ++ [0]).length ≤
      (List.replicate ((nameOf P ks []).length + pathslop) (0 : UInt8)).length := by
    rw [length_append, length_replicate, length_singleton]
    exact Nat.add_le_add_left (by decide) _
  have hstore := store_zero hroom
  have hnames : ∀ e ∈ ([] : List (List UInt8)), Element e := fun e he => absurd he not_mem_nil
  rw [newpath, hstore, map_some]
  refine ⟨_, P, ks, rfl, ⟨hk, hnames, ?_, ?_, rfl⟩, rfl⟩
  · exact ⟨zero_nameOf hk hnames, rfl, (length_store hstore).trans length_replicate, _, append_assoc _ _ _⟩
  · exact ⟨rfl, length_replicate, List.replicate (pathmslop - 1) none, rfl⟩

/-- **A copy** is as good. -/
theorem copypath_spec (h : x.Good P ks es slots) : ∃ y, copypath x = some y ∧ y.Good P ks es slots ∧ y.ref = 1 := by
  have hname : (nameOf P ks es ++ [0]).length ≤ (List.replicate x.alen (0 : UInt8)).length := by
    rw [length_append, length_replicate, ← h.holds.len]
    exact h.holds.fits
  have hslots : slots.length ≤ (List.replicate x.malen (none : Option Nat)).length := by
    rw [length_replicate]
    exact h.slotted.le
  have hs := store_zero hname
  have hmtpt := store_zero hslots
  change ∃ y, ((store (List.replicate x.alen 0) 0 (x.s.take (x.len + 1))).bind fun s =>
    (store (List.replicate x.malen none) 0 x.slots).bind fun mtpt => some { x with ref := 1, s := s, mtpt := mtpt }) = _ ∧ _
  rw [h.holds.take, hs, bind_some, h.slotted.slots_eq, hmtpt, bind_some]
  refine ⟨_, rfl, ⟨h.kind, h.names, ?_, ?_, h.length⟩, rfl⟩
  · exact ⟨h.holds.noNul, h.holds.len, (length_store hs).trans length_replicate, _, append_assoc _ _ _⟩
  · exact ⟨h.slotted.mlen, (length_store hmtpt).trans length_replicate, _, rfl⟩

section

variable {cleanname : List UInt8 → List UInt8} {name : List UInt8}

/-- **A name is added** with its slot. -/
theorem Path.Good.add (h : x.Good P ks es slots) (hname : Element name) (c : Option Nat) : ∃ y,
    x.add cleanname name c = some (y, none) ∧ y.Good P ks (es ++ [name]) (slots ++ [c]) ∧ y.ref = x.ref := by
  obtain ⟨t, l, a, happend, hx⟩ := h.holds.append hname.2
  rw [append_nameOf h.kind h.names hname.1.ne_nil hname.1.no_sep] at hx
  have hslotted : Path.Slotted { x with s := t, len := l, alen := a } slots :=
    ⟨h.slotted.mlen, h.slotted.malen, h.slotted.mtpt⟩
  obtain ⟨m, ma, ml, hpush, hy⟩ := hslotted.push c
  have hne : ¬(es ++ [name] = [] ∧ ks = true) := fun hroot => append_ne_nil_of_right_ne_nil _ (cons_ne_nil _ _) hroot.1
  have hnameOf : nameOf P ks (es ++ [name]) = P ++ Lexical.flat slash (es ++ [name]) := by rw [nameOf, if_neg hne]
  have hdotdot : name ≠ dotdot := hname.1.ne_dotdot
  have hadd : x.add cleanname name c =
      (Path.push { x with s := t, len := l, alen := a } c).bind fun p => some (p, none) := by
    rw [Path.add, happend]
    exact if_neg hdotdot
  rw [hadd, hpush, bind_some]
  refine ⟨_, rfl, ⟨h.kind, ?_, ?_, hy, ?_⟩, rfl⟩
  · intro e he
    rcases mem_append.mp he with he | he
    · exact h.names e he
    · exact mem_singleton.mp he ▸ hname
  · rw [hnameOf]
    exact { hx with }
  · rw [length_append, length_append, h.length]
    rfl

/-- **`..`** cleans the name, and then comes to the slots. -/
theorem Path.Good.add_dotdot (hclean : ∀ s, cleanname s = Lexical.clean slash dot s) (h : x.Good P ks es slots)
    (c : Option Nat) : ∃ y : Path, x.add cleanname dotdot c = some y.drop ∧ y.Holds (nameOf P ks es.dropLast) ∧
      y.Slotted slots ∧ y.ref = x.ref := by
  have hzero : (0 : UInt8) ∉ dotdot := by decide
  obtain ⟨t, l, a, happend, hx⟩ := h.holds.append hzero
  rw [append_nameOf h.kind h.names (by decide) (by decide)] at hx
  obtain ⟨t', l', hfix, hy⟩ := fixdotdotname_spec hclean h.kind h.names hx
  have hadd : x.add cleanname dotdot c =
      (fixdotdotname cleanname { x with s := t, len := l, alen := a }).bind fun p => some p.drop := by
    rw [Path.add, happend]
    rfl
  rw [hadd, hfix, bind_some]
  exact ⟨_, rfl, hy, ⟨h.slotted.mlen, h.slotted.malen, h.slotted.mtpt⟩, rfl⟩

/-- At the root there is nothing to take away. -/
theorem Path.Good.add_root (hclean : ∀ s, cleanname s = Lexical.clean slash dot s) (h : x.Good P ks [] slots)
    (c : Option Nat) : ∃ y, x.add cleanname dotdot c = some (y, none) ∧ y.Good P ks [] slots ∧ y.ref = x.ref := by
  obtain ⟨y, hadd, hname, hslotted, href⟩ := h.add_dotdot hclean c
  rw [hslotted.drop_root h.length] at hadd
  exact ⟨y, hadd, ⟨h.kind, h.names, hname, hslotted, h.length⟩, href⟩

/-- **The last element** goes with its slot. -/
theorem Path.Good.add_parent (hclean : ∀ s, cleanname s = Lexical.clean slash dot s)
    (h : x.Good P ks (es ++ [e]) (slots ++ [c])) (c' : Option Nat) : ∃ y,
      x.add cleanname dotdot c' = some (y, c) ∧ y.Good P ks es slots ∧ y.ref = x.ref := by
  obtain ⟨y, hadd, hname, hslotted, href⟩ := h.add_dotdot hclean c'
  have hlen : slots.length = es.length + 1 := by
    have := h.length
    rw [length_append, length_append] at this
    exact Nat.add_right_cancel this
  rw [dropLast_concat] at hname
  obtain ⟨m, l, hdrop, hy⟩ := hslotted.drop (by omega)
  rw [hdrop] at hadd
  refine ⟨_, hadd, ⟨h.kind, fun e he => h.names e (mem_append_left _ he), ?_, hy, hlen⟩, href⟩
  exact { hname with }

end

end Paths
