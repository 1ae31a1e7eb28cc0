import Mathlib

/-!
# Lexical cleaning of path names

A path name is cut at its separators.  Empty elements and `.` go, and `..` takes the element before it away; at the
root of a rooted name there is nothing to take away, and at the start of another `..` stays.
-/

namespace Lexical

open List

variable {α : Type*} [DecidableEq α] (sep dot : α)

/-- One more element. -/
def step (rooted : Bool) (acc : List (List α)) (e : List α) : List (List α) :=
  if e = [] ∨ e = [dot] then acc
  else if e = [dot, dot] then
    if acc = [] then (if rooted then [] else [e])
    else if acc.getLast? = some [dot, dot] then acc ++ [e]
    else acc.dropLast
  else acc ++ [e]

/-- The elements that are left. -/
def elements (s : List α) : List (List α) := (s.splitOn sep).foldl (step dot (decide (s.head? = some sep))) []

/-- **The shortest name** that means the same. -/
def clean (s : List α) : List α :=
  if s.head? = some sep then sep :: [sep].intercalate (elements sep dot s)
  else if elements sep dot s = [] then [dot]
  else [sep].intercalate (elements sep dot s)

/-- An element that cleaning leaves alone. -/
structure Name (e : List α) : Prop where
  ne_nil : e ≠ []
  ne_dot : e ≠ [dot]
  ne_dotdot : e ≠ [dot, dot]
  no_sep : sep ∉ e

/-- Each element behind a separator. -/
def flat (es : List (List α)) : List α := es.flatMap (sep :: ·)

variable {sep dot} {es : List (List α)} {e : List α} {rooted : Bool}

omit [DecidableEq α] in
theorem flat_concat (es : List (List α)) (e : List α) : flat sep (es ++ [e]) = flat sep es ++ sep :: e := by
  rw [flat, flatMap_append, flatMap_singleton, flat]

omit [DecidableEq α] in
theorem head_flat (h : es ≠ []) : (flat sep es).head? = some sep := by
  cases es with
  | nil => exact absurd rfl h
  | cons e es => rfl

theorem flat_eq (h : es ≠ []) : flat sep es = sep :: [sep].intercalate es := by
  induction es with
  | nil => exact absurd rfl h
  | cons e es ih =>
    cases es with
    | nil =>
      rw [intercalate_singleton]
      exact congrArg (sep :: ·) (append_nil e)
    | cons e' es =>
      rw [intercalate_cons_cons, append_assoc, singleton_append, ← ih (cons_ne_nil _ _)]
      rfl

theorem splitOn_flat (h : ∀ e ∈ es, sep ∉ e) : (flat sep es).splitOn sep = [] :: es := by
  -- what stands in front of the first separator
  have hfront : ∀ e, sep ∉ e → (e ++ flat sep es).splitOn sep = e :: es := by
    induction es with
    | nil =>
      intro e he
      rw [flat, flatMap_nil, append_nil]
      exact splitOn_eq_singleton he
    | cons e' es ih =>
      intro e he
      have hrest := ih (fun e he => h e (mem_cons_of_mem _ he)) e' (h e' mem_cons_self)
      rw [flat, flatMap_cons, cons_append, splitOn_append_cons_self_of_not_mem he]
      exact congrArg (e :: ·) hrest
  exact hfront [] not_mem_nil

theorem step_name (h : Name sep dot e) (acc : List (List α)) : step dot rooted acc e = acc ++ [e] := by
  rw [step, if_neg, if_neg h.ne_dotdot]
  rintro (heq | heq)
  · exact h.ne_nil heq
  · exact h.ne_dot heq

theorem foldl_names (h : ∀ e ∈ es, Name sep dot e) (acc : List (List α)) :
    es.foldl (step dot rooted) acc = acc ++ es := by
  induction es generalizing acc with
  | nil => exact (append_nil acc).symm
  | cons e es ih =>
    rw [foldl_cons, step_name (h e mem_cons_self), ih fun e he => h e (mem_cons_of_mem _ he),
      append_assoc]
    rfl

theorem foldl_flat (h : ∀ e ∈ es, Name sep dot e) :
    ([] :: es).foldl (step dot rooted) [] = es := by
  rw [foldl_cons, step, if_pos (Or.inl rfl), foldl_names h]
  rfl

/-- A clean name has the elements it is made of. -/
theorem elements_flat (h : ∀ e ∈ es, Name sep dot e) : elements sep dot (flat sep es) = es := by
  rw [elements, splitOn_flat fun e he => (h e he).no_sep, foldl_flat h]

theorem elements_sep : elements sep dot [sep] = [] := by
  have hsplit : [sep].splitOn sep = [[], []] := by
    rw [← nil_append [sep], splitOn_append_cons_self_of_not_mem not_mem_nil, splitOn_nil]
  rw [elements, hsplit]
  rfl

/-- **`..` at the end** of a clean rooted name takes its last element away. -/
theorem elements_dotdot (hsep : sep ≠ dot) (h : ∀ e ∈ es, Name sep dot e) :
    elements sep dot (flat sep (es ++ [[dot, dot]])) = es.dropLast := by
  have hsplit : (flat sep (es ++ [[dot, dot]])).splitOn sep = ([] :: es) ++ [[dot, dot]] := by
    rw [splitOn_flat, cons_append]
    intro e he
    rcases mem_append.mp he with he | he
    · exact (h e he).no_sep
    · rw [mem_singleton.mp he]
      simp [hsep]
  have hrooted : (flat sep (es ++ [[dot, dot]])).head? = some sep :=
    head_flat (append_ne_nil_of_right_ne_nil _ (cons_ne_nil _ _))
  rw [elements, hsplit, foldl_append, foldl_flat h, hrooted, foldl_cons, foldl_nil, step, if_neg (by simp),
    if_pos rfl]
  cases hlast : es.getLast? with
  | none =>
    rw [List.getLast?_eq_none_iff.mp hlast, if_pos rfl, decide_eq_true rfl]
    rfl
  | some e =>
    have hmem : e ∈ es := mem_of_getLast? hlast
    rw [if_neg (ne_nil_of_mem hmem), if_neg]
    exact fun heq => (h e hmem).ne_dotdot (Option.some.inj heq)

theorem clean_dotdot (hsep : sep ≠ dot) (h : ∀ e ∈ es, Name sep dot e) :
    clean sep dot (flat sep (es ++ [[dot, dot]])) = if es.dropLast = [] then [sep] else flat sep es.dropLast := by
  rw [clean, if_pos (head_flat (append_ne_nil_of_right_ne_nil _ (cons_ne_nil _ _))), elements_dotdot hsep h]
  by_cases hnil : es.dropLast = []
  · rw [if_pos hnil, hnil]
    rfl
  · rw [if_neg hnil, flat_eq hnil]

end Lexical
