import NixKernel.LinkList

/-!
# Lists that are linked both ways

A list with a head and a tail whose elements carry a link to the next element and one to the element
in front.  `Dll` says that the links read the list from the head forwards and from the tail
backwards.
-/

namespace LinkList

open List
open Function (update update_self update_of_ne update_comm)

variable {α : Type*}

/-- The links forwards from the head, and backwards from the tail, visit `l`. -/
structure Dll (next prev : α → Option α) (head tail : Option α) (l : List α) : Prop where
  fwd : Path next head l none
  bwd : Path prev tail l.reverse none

variable {next prev next' prev' : α → Option α} {head tail : Option α} {l A B : List α} {x : α}

theorem Dll.mirror (h : Dll next prev head tail l) : Dll prev next tail head l.reverse :=
  ⟨h.bwd, by rw [reverse_reverse]; exact h.fwd⟩

theorem Dll.nil : Dll next prev none none [] := ⟨rfl, rfl⟩

theorem Dll.nodup (h : Dll next prev head tail l) : l.Nodup := h.fwd.nodup

theorem Dll.head_eq (h : Dll next prev head tail l) : head = l.head? := h.fwd.head_eq

/-- Only the links of the elements are read. -/
theorem Dll.frame (h : Dll next prev head tail l) (hnext : ∀ a ∈ l, next' a = next a)
    (hprev : ∀ a ∈ l, prev' a = prev a) : Dll next' prev' head tail l :=
  ⟨h.fwd.frame hnext, h.bwd.frame fun a ha => hprev a (mem_reverse.mp ha)⟩

/-- The link backwards of an element is the element in front of it. -/
theorem Dll.prev_eq (h : Dll next prev head tail (A ++ x :: B)) : prev x = A.getLast? := by
  have hbwd := h.bwd
  rw [reverse_append, reverse_cons, append_assoc, singleton_append] at hbwd
  obtain ⟨m, -, -, hrest⟩ := path_append.mp hbwd
  rw [hrest.head_eq, List.head?_reverse]

section Update

variable [DecidableEq α] {owner v : Option α} {a : α}

/-- Writes to two places commute. -/
theorem store_update (hne : owner ≠ some a) :
    store owner v head (update next a tail) =
      ((store owner v head next).1, update (store owner v head next).2 a tail) := by
  cases owner with
  | none => rfl
  | some b =>
    have hb : a ≠ b := fun heq => hne (congrArg some heq.symm)
    simp only [store, update_comm hb]

/-- What `store` leaves alone. -/
theorem store_of_ne (hne : owner ≠ some a) : (store owner v head next).2 a = next a := by
  cases owner with
  | none => rfl
  | some b =>
    apply update_of_ne
    rintro rfl
    exact hne rfl

/-- **A new head.** -/
theorem Dll.push (h : Dll next prev head tail l) (hx : x ∉ l) :
    Dll (update next x head) (update (store head (some x) tail prev).2 x none)
      (some x) (store head (some x) tail prev).1 (x :: l) := by
  have hlast : l.reverse.getLast? = head := by
    rw [List.getLast?_reverse, h.head_eq]
  have hne : head ≠ some x := by
    intro heq
    exact hx (mem_of_head? (h.head_eq.symm.trans heq))
  constructor
  · refine ⟨rfl, ?_⟩
    rw [update_self]
    exact h.fwd.update_ne hx
  · have hinsert := h.bwd.insert (x := x) (r := []) rfl (by simpa using hx)
    rw [hlast, store_update hne] at hinsert
    rw [reverse_cons]
    exact hinsert

/-- **A new tail.** -/
theorem Dll.snoc (h : Dll next prev head tail l) (hx : x ∉ l) :
    Dll (update (store tail (some x) head next).2 x none) (update prev x tail)
      (store tail (some x) head next).1 (some x) (l ++ [x]) := by
  have hpush := (h.mirror.push (x := x) (by simpa using hx)).mirror
  rwa [reverse_cons, reverse_reverse] at hpush

/-- One direction of a removal. -/
theorem Path.unlink (h : Path next head (A ++ x :: B) none) :
    Path (update (LinkList.store A.getLast? (next x) head next).2 x none)
      (LinkList.store A.getLast? (next x) head next).1 (A ++ B) none := by
  obtain ⟨m, hA, rfl, hB⟩ := path_append.mp h
  have hx : x ∉ A ++ B := by
    have hnodup := h.nodup
    rw [nodup_append_comm, cons_append, nodup_cons] at hnodup
    simpa [or_comm] using hnodup.1
  exact (hA.remove ⟨rfl, hB⟩).update_ne hx

/-- **An element is taken out.** -/
theorem Dll.unlink (h : Dll next prev head tail (A ++ x :: B)) :
    Dll (update (store (prev x) (next x) head next).2 x none)
      (update (store (next x) (prev x) tail prev).2 x none)
      (store (prev x) (next x) head next).1 (store (next x) (prev x) tail prev).1 (A ++ B) := by
  have hprev := h.prev_eq
  have hmirror := h.mirror
  rw [reverse_append, reverse_cons, append_assoc, singleton_append] at hmirror
  have hnext := hmirror.prev_eq
  constructor
  · have hfwd := h.fwd.unlink
    rwa [← hprev] at hfwd
  · have hbwd := hmirror.fwd.unlink
    rw [← hnext] at hbwd
    rwa [reverse_append]

end Update

end LinkList
