import NixKernel.MmuSwitch

/-!
# Mapping a page

A turn of `mmuput` finds the table below an entry, or hangs one there that is on no other list.  A
page of 1 GiB takes one turn before the entry is written, one of 2 MiB two, and one of 4 KiB three.
-/

namespace Mmu

open Function

variable {s t : Sys} {m p lvl x k va pa pgsz attr : Nat} {prev f : Frame} {e : Pte}

/-- A table `k` below the entry `x` of `f`, where `s` had none. -/
structure Hung (s : Sys) (m p lvl : Nat) (prev f : Frame) (x k : Nat) (t : Sys) : Prop where
  frame : ∃ mem high daddr before mmuptp mmuptpfreelist made,
    t = { s with mem, high, daddr, prev := before, mmuptp, mmuptpfreelist, made }
  apart : Apart t
  list : t.mmuptp p lvl = k :: s.mmuptp p lvl
  lists : ∀ q j, (q = p ∧ (j = 0 ∨ j = lvl)) ∨ t.mmuptp q j = s.mmuptp q j
  sub : ∀ i, i ∈ t.mmuptp p 0 → i ∈ s.mmuptp p 0
  fresh : ∀ q j, j ≠ 0 → k ∉ s.mmuptp q j
  daddr : t.daddr = update s.daddr k x
  prev : t.prev = update s.prev k prev
  entry : t.mem f x = .table (.tab k)
  mem : ∀ g y, ¬(g = f ∧ y = x) → g ≠ .tab k → t.mem g y = s.mem g y
  clear : ∀ y, ¬(f = .tab k ∧ y = x) → t.mem (.tab k) y = .zero ∨ (k ∈ s.mmuptp p 0 ∧ t.mem (.tab k) y = s.mem (.tab k) y)
  mark : lvl = 3 → x < t.high m
  above : s.high m ≤ t.high m
  high : ∀ j, j ≠ m → t.high j = s.high j

theorem hang_spec {r : Nat × Sys} (h : Got s p r) (hlvl : lvl ≠ 0) :
    Hung s m p lvl prev f x r.1 (hang r.2 m p lvl prev f x r.1) := by
  obtain ⟨k, u⟩ := r
  obtain ⟨mem, mmuptp, mmuptpfreelist, made, hu⟩ := h.frame
  dsimp only at hu
  obtain ⟨hight, hmark, habove, hother, heq⟩ : ∃ high, (lvl = 3 → x < high m) ∧ s.high m ≤ high m ∧
      (∀ j, j ≠ m → high j = s.high j) ∧
      hang u m p lvl prev f x k =
        { u with
          mem := update u.mem f (update (u.mem f) x (.table (.tab k)))
          high
          daddr := update u.daddr k x
          prev := update u.prev k prev
          mmuptp := update u.mmuptp p (update (u.mmuptp p) lvl (k :: u.mmuptp p lvl)) } := by
    have hhigh : u.high = s.high := by rw [hu]
    rw [hang]
    split
    next hx =>
      refine ⟨update u.high m (x + 1), fun _ => ?_, ?_, fun j hj => ?_, rfl⟩
      · rw [update_self]
        exact Nat.lt_succ_self x
      · rw [update_self, ← hhigh]
        have hle : u.high m ≤ x := hx.2
        omega
      · rw [update_of_ne hj, hhigh]
    next hx =>
      refine ⟨u.high, fun h3 => ?_, Nat.le_of_eq (by rw [hhigh]), fun j _ => by rw [hhigh], rfl⟩
      exact Nat.lt_of_not_le fun hle => hx ⟨h3, hle⟩
  have hlist : (hang u m p lvl prev f x k).mmuptp = update u.mmuptp p (update (u.mmuptp p) lvl (k :: u.mmuptp p lvl)) := by
    rw [heq]
  have hself : u.mmuptp p lvl = s.mmuptp p lvl :=
    (h.lists p lvl).resolve_left fun hp => hlvl hp.2
  have hnew : ∀ q j, (hang u m p lvl prev f x k).mmuptp q j =
      if q = p ∧ j = lvl then k :: u.mmuptp p lvl else u.mmuptp q j := by
    intro q j
    rw [hlist]
    by_cases hq : q = p
    · subst hq
      rw [update_self]
      by_cases hj : j = lvl
      · subst hj
        rw [update_self, if_pos ⟨rfl, rfl⟩]
      · rw [update_of_ne hj, if_neg fun h => hj h.2]
    · rw [update_of_ne hq, if_neg fun h => hq h.1]
  have hmem : ∀ q j i, i ∈ (hang u m p lvl prev f x k).mmuptp q j →
      (q = p ∧ j = lvl ∧ i = k) ∨ i ∈ u.mmuptp q j := by
    intro q j i hi
    rw [hnew] at hi
    split at hi
    next hqj =>
      rcases List.mem_cons.mp hi with rfl | hi
      · exact Or.inl ⟨hqj.1, hqj.2, rfl⟩
      · exact Or.inr (hqj.1 ▸ hqj.2 ▸ hi)
    next => exact Or.inr hi
  have hfree : (hang u m p lvl prev f x k).mmuptpfreelist = u.mmuptpfreelist := by rw [heq]
  have hmade : (hang u m p lvl prev f x k).made = u.made := by rw [heq]
  have htmem : (hang u m p lvl prev f x k).mem = update u.mem f (update (u.mem f) x (.table (.tab k))) := by rw [heq]
  refine ⟨⟨_, _, _, _, _, _, _, heq.trans (by rw [hu])⟩, ⟨fun q j => ?_, fun q j r i a ha ha' => ?_, ?_,
    fun q j a ha => ?_, fun a ha => ?_⟩, ?_, fun q j => ?_, fun i hi => ?_, fun q j hj => ?_, ?_, ?_, ?_,
    fun g y hne hg => ?_, fun y hf => ?_, ?_, ?_, ?_⟩
  · -- a table is on one list
    rw [hnew]
    split
    next => exact List.nodup_cons.mpr ⟨h.outside.1 p lvl, h.apart.nodup p lvl⟩
    next => exact h.apart.nodup q j
  · rcases hmem q j a ha with ⟨rfl, rfl, rfl⟩ | hold
    · rcases hmem r i a ha' with ⟨rfl, rfl, -⟩ | hold'
      · exact ⟨rfl, rfl⟩
      · exact absurd hold' (h.outside.1 r i)
    · rcases hmem r i a ha' with ⟨rfl, rfl, rfl⟩ | hold'
      · exact absurd hold (h.outside.1 q j)
      · exact h.apart.sep q j r i a hold hold'
  · rw [hfree]
    exact h.apart.free
  · rw [hfree]
    rcases hmem q j a ha with ⟨rfl, rfl, rfl⟩ | hold
    · exact h.outside.2.1
    · exact h.apart.unused q j a hold
  · rw [hmade]
    rcases ha with ha | ⟨q, j, ha⟩
    · exact h.apart.bound a (Or.inl (hfree ▸ ha))
    · rcases hmem q j a ha with ⟨rfl, rfl, rfl⟩ | hold
      · exact h.outside.2.2
      · exact h.apart.bound a (Or.inr ⟨q, j, hold⟩)
  · rw [hnew, if_pos ⟨rfl, rfl⟩, hself]
  · rw [hnew]
    by_cases hq : q = p
    · by_cases hj : j = 0 ∨ j = lvl
      · exact Or.inl ⟨hq, hj⟩
      · rw [if_neg fun h => hj (Or.inr h.2)]
        exact Or.inr ((h.lists q j).resolve_left fun h => hj (Or.inl h.2))
    · rw [if_neg fun h => hq h.1]
      exact Or.inr ((h.lists q j).resolve_left fun h => hq h.1)
  · refine h.sub i ?_
    rwa [hnew, if_neg fun h => hlvl h.2.symm] at hi
  · exact (h.old q j).resolve_left fun h => hj h.2
  · rw [heq, hu]
  · rw [heq, hu]
  · rw [htmem, update_self, update_self]
  · rw [htmem, ← h.mem g y hg]
    by_cases hgf : g = f
    · subst hgf
      rw [update_self, update_of_ne fun hy => hne ⟨rfl, hy⟩]
    · rw [update_of_ne hgf]
  · have hkeep : (hang u m p lvl prev f x k).mem (.tab k) y = u.mem (.tab k) y := by
      rw [htmem]
      by_cases hfk : f = .tab k
      · rw [hfk, update_self, update_of_ne fun hy => hf ⟨hfk, hy⟩]
      · rw [update_of_ne (Ne.symm hfk)]
    rw [hkeep]
    exact h.clear y
  · rw [heq]
    exact hmark
  · rw [heq]
    exact habove
  · rw [heq]
    exact hother

/-- **A turn of `mmuput`**: a table that was there, or one that has been hung there. -/
theorem descend_spec (h : Apart s) (m : Nat) (hlvl : lvl ≠ 0) (prev f : Frame) (x : Nat) :
    (∃ k ∈ s.mmuptp p lvl, s.prev k = prev ∧ s.daddr k = x ∧
      descend s m p lvl prev f x = (k, if s.mem f x = .zero then s.setpte f x (.table (.tab k)) else s)) ∨
    ((∀ k ∈ s.mmuptp p lvl, ¬(s.prev k = prev ∧ s.daddr k = x)) ∧
      Hung s m p lvl prev f x (descend s m p lvl prev f x).1 (descend s m p lvl prev f x).2) := by
  rw [descend]
  split
  next k hfind =>
    have hk := List.find?_some hfind
    rw [decide_eq_true_eq] at hk
    exact Or.inl ⟨k, List.mem_of_find?_eq_some hfind, hk.1, hk.2, rfl⟩
  next hnone =>
    refine Or.inr ⟨fun k hk hboth => ?_, hang_spec (getpage_spec h p) hlvl⟩
    have hno := List.find?_eq_none.mp hnone k hk
    exact hno (decide_eq_true hboth)

theorem mmuput_walk (h : mmuput s m p va pa pgsz attr = some t) : ∃ r : Frame × Nat × Sys,
    walk m p va pgsz 4 s (.pml4 m) (.pml4 m) = some r ∧ t = r.2.2.setpte r.1 r.2.1 (.leaf pa attr) := by
  rw [mmuput] at h
  split at h
  next => cases h
  next =>
    obtain ⟨r, hwalk, rfl⟩ := Option.map_eq_some_iff.mp h
    exact ⟨r, hwalk, rfl⟩

/-- The turn of a page that is smaller. -/
theorem walk_turn {r : Frame × Nat × Sys} (hne : lvltab[lvl]? ≠ some pgsz)
    (h : walk m p va pgsz (lvl + 1) s prev f = some r) : ∃ u g, u = descend s m p lvl prev f (PTLX va lvl) ∧
      (u.2.mem f (PTLX va lvl)).ppn = some g ∧ walk m p va pgsz lvl u.2 (.tab u.1) g = some r := by
  rw [walk, if_neg hne] at h
  obtain ⟨g, hg, hwalk⟩ := Option.bind_eq_some_iff.mp h
  exact ⟨_, g, rfl, hg, hwalk⟩

theorem walk_last {r : Frame × Nat × Sys} (heq : lvltab[lvl]? = some pgsz)
    (h : walk m p va pgsz (lvl + 1) s prev f = some r) : r = (f, PTLX va lvl, s) := by
  rw [walk, if_pos heq] at h
  exact (Option.some.inj h).symm

/-- **A page of 1 GiB** is an entry of a table of the level 3. -/
theorem mmuput_GiB (h : mmuput s m p va pa GiB attr = some t) : ∃ g,
    ((descend s m p 3 (.pml4 m) (.pml4 m) (PTLX va 3)).2.mem (.pml4 m) (PTLX va 3)).ppn = some g ∧
    t = (descend s m p 3 (.pml4 m) (.pml4 m) (PTLX va 3)).2.setpte g (PTLX va 2) (.leaf pa attr) := by
  obtain ⟨r, hwalk, rfl⟩ := mmuput_walk h
  obtain ⟨_, g, rfl, hg, hwalk⟩ := walk_turn (by decide) hwalk
  obtain rfl := walk_last (by decide) hwalk
  exact ⟨g, hg, rfl⟩

/-- **A page of 2 MiB** is an entry of a table of the level 2, and that an entry of one of the level 3. -/
theorem mmuput_MiB (h : mmuput s m p va pa (2 * MiB) attr = some t) : ∃ r g r' g',
    r = descend s m p 3 (.pml4 m) (.pml4 m) (PTLX va 3) ∧ (r.2.mem (.pml4 m) (PTLX va 3)).ppn = some g ∧
    r' = descend r.2 m p 2 (.tab r.1) g (PTLX va 2) ∧ (r'.2.mem g (PTLX va 2)).ppn = some g' ∧
    t = r'.2.setpte g' (PTLX va 1) (.leaf pa attr) := by
  obtain ⟨_, hwalk, rfl⟩ := mmuput_walk h
  obtain ⟨r, g, hr, hg, hwalk⟩ := walk_turn (by decide) hwalk
  obtain ⟨r', g', hr', hg', hwalk⟩ := walk_turn (by decide) hwalk
  obtain rfl := walk_last (by decide) hwalk
  exact ⟨r, g, r', g', hr, hg, hr', hg', rfl⟩

end Mmu
