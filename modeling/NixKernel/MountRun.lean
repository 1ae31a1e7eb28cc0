import NixKernel.MountTable

/-!
# Unions over whole runs

Every head in the table has a union that is not empty, hangs in the chain of its own path, and is
the only one for its channel.
-/

namespace MountTable

open HashChain StepSystem List Option
open Function (update update_self update_of_ne update_idem)

/-- **The invariant of the table.** -/
structure Inv (s : Pgrp) : Prop where
  filed : Filed bucket s.key s.hash
  full : ∀ b, ∀ a ∈ s.hash b, (s.mhead a).mount ≠ []
  free : s.ns = false

/-- What `cmount` refuses. -/
def Refused (s : Pgrp) (new old : Chan) (flag : Nat) : Prop :=
  (old.type ^^^ new.type) &&& qtdir ≠ 0 ∨ (old.type &&& qtdir = 0 ∧ flag &&& morder ≠ mrepl) ∨
    (flag &&& mcreate ≠ 0 ∧ ∃ m ∈ (s.union new).head?,
      (s.union new).tail ≠ [] ∨ m.mflag &&& mcreate = 0)

/-- What a call does to the unions. -/
def Outcome (s t : Pgrp) (r : Except Err Nat) : Op → Prop
  | .cmount mem _ new old flag spec =>
    (Refused s new old flag ∧ r = .error .Emount ∧ ∀ k, t.view k = s.view k) ∨
    (¬ Refused s new old flag ∧ mem ≠ none ∧ r = .error .Eintr ∧ ∀ k, t.view k = s.view k) ∨
    (¬ Refused s new old flag ∧ (∃ id, r = .ok id) ∧ ∀ k, t.view k =
      if k = old.ident then
        some (mounted (flag &&& morder) old (source s new flag spec) (s.view old.ident))
      else s.view k)
  | .cunmount mnt none =>
    (s.view mnt.ident = none ∧ r = .error .Eunmount ∧ ∀ k, t.view k = s.view k) ∨
    (s.view mnt.ident ≠ none ∧ (∃ id, r = .ok id) ∧
      ∀ k, t.view k = if k = mnt.ident then none else s.view k)
  | .cunmount mnt (some c) =>
    (s.view mnt.ident = none ∧ r = .error .Eunmount ∧ ∀ k, t.view k = s.view k) ∨
    ∃ u, s.view mnt.ident = some u ∧
      ((without c u = u ∧ r = .error .Eunion ∧ ∀ k, t.view k = s.view k) ∨
      ((without c u).length + 1 = u.length ∧ (∃ id, r = .ok id) ∧ ∀ k, t.view k =
        if k = mnt.ident then (if without c u = [] then none else some (without c u))
        else s.view k))

variable {s t : Pgrp} {a b : Addr} {c : Chan} {k : Ident} {l : List Mount}

@[simp] theorem setMount_hash : (s.setMount a l).hash = s.hash := rfl

theorem setMount_mount_self : ((s.setMount a l).mhead a).mount = l := by
  simp [Pgrp.setMount]

theorem setMount_mhead_of_ne (h : b ≠ a) : (s.setMount a l).mhead b = s.mhead b := by
  simp [Pgrp.setMount, h]

@[simp] theorem setMount_key : (s.setMount a l).key = s.key := by
  funext b
  by_cases h : b = a
  · subst h
    simp [Pgrp.key, Pgrp.setMount]
  · simp [Pgrp.key, setMount_mhead_of_ne h]

@[simp] theorem setMount_find : (s.setMount a l).find k = s.find k := by
  simp [Pgrp.find]

theorem Inv.setMount (h : Inv s) (hl : l ≠ []) : Inv (s.setMount a l) := by
  refine ⟨?_, fun b a' ha' => ?_, h.free⟩
  · simpa using h.filed
  · by_cases heq : a' = a
    · subst heq
      rwa [setMount_mount_self]
    · rw [setMount_mhead_of_ne heq]
      exact h.full b a' ha'

theorem find_key (h : s.find k = some a) : s.key a = k := (lookup_some h).2

/-- A new union for the head of a channel. -/
theorem setMount_view (h : s.find k = some a) (k' : Ident) : (s.setMount a l).view k' =
    if k' = k then some (l.map Mount.elem) else s.view k' := by
  by_cases hk : k' = k
  · subst hk
    rw [if_pos rfl, Pgrp.view, setMount_find, h, map_some, setMount_mount_self]
  · rw [if_neg hk, Pgrp.view, Pgrp.view, setMount_find]
    cases hfind : s.find k' with
    | none => rfl
    | some a' =>
      have hne : a' ≠ a := by
        rintro rfl
        exact hk ((find_key hfind).symm.trans (find_key h))
      rw [map_some, map_some, setMount_mhead_of_ne hne]

/-- Counting mount ids is not seen. -/
theorem mountid_inv {n : Nat} (h : Inv s) : Inv { s with mountid := n } := ⟨h.filed, h.full, h.free⟩

theorem link_key (hfresh : ∀ b, a ∉ s.hash b) (b : Nat) :
    ∀ i ∈ s.hash b, (s.link a c).key i = s.key i := by
  intro i hi
  have hne : i ≠ a := by
    rintro rfl
    exact hfresh b hi
  simp [Pgrp.key, Pgrp.link, hne]

theorem link_key_self : (s.link a c).key a = c.ident := by
  simp [Pgrp.key, Pgrp.link]

theorem link_mhead_of_ne (h : b ≠ a) : (s.link a c).mhead b = s.mhead b := by
  simp [Pgrp.link, h]

theorem link_hash : (s.link a c).hash = update s.hash (bucket ((s.link a c).key a))
    (s.hash (bucket ((s.link a c).key a)) ++ [a]) := by
  rw [link_key_self]
  rfl

theorem link_lookup (hfresh : ∀ b, a ∉ s.hash b) (k : Ident) :
    lookup bucket (s.link a c).key s.hash k = s.find k :=
  lookup_congr fun i hi => link_key hfresh _ i hi

/-- The new head is the one that is found for its channel. -/
theorem link_find (hfresh : ∀ b, a ∉ s.hash b) (hnone : s.find c.ident = none) (k : Ident) :
    (s.link a c).find k = if k = c.ident then some a else s.find k := by
  have hmiss : lookup bucket (s.link a c).key s.hash ((s.link a c).key a) = none := by
    rw [link_key_self, link_lookup hfresh, hnone]
  rw [Pgrp.find, link_hash, lookup_file hmiss, link_lookup hfresh, link_key_self]

theorem link_filed (h : Filed bucket s.key s.hash) (hfresh : ∀ b, a ∉ s.hash b)
    (hnone : s.find c.ident = none) : Filed bucket (s.link a c).key (s.link a c).hash := by
  have hmiss : lookup bucket (s.link a c).key s.hash ((s.link a c).key a) = none := by
    rw [link_key_self, link_lookup hfresh, hnone]
  rw [link_hash]
  exact (h.congr (link_key hfresh)).file hmiss

/-- A new head, once it has a union, keeps the table in order. -/
theorem Inv.link (h : Inv s) (hfresh : ∀ b, a ∉ s.hash b) (hnone : s.find c.ident = none)
    (hl : l ≠ []) : Inv ((s.link a c).setMount a l) := by
  refine ⟨?_, fun b i hi => ?_, h.free⟩
  · simpa using link_filed h.filed hfresh hnone
  · by_cases heq : i = a
    · subst heq
      rwa [setMount_mount_self]
    · rw [setMount_mhead_of_ne heq, link_mhead_of_ne heq]
      rw [setMount_hash] at hi
      by_cases hb : b = bucket c.ident
      · subst hb
        simp only [Pgrp.link, update_self, mem_append, mem_singleton] at hi
        exact h.full _ i (hi.resolve_right heq)
      · simp only [Pgrp.link, update_of_ne hb] at hi
        exact h.full b i hi

theorem unlink_find (h : Inv s) (hfind : s.find k = some a) (k' : Ident) :
    (s.unlink a).find k' = if k' = k then none else s.find k' := by
  have hkey := find_key hfind
  have hself : lookup bucket s.key s.hash (s.key a) = some a := by
    rw [hkey]
    exact hfind
  have herase := h.filed.lookup_erase (k := k') hself
  rw [hkey] at herase
  have hkeys : (s.unlink a).key = s.key := setMount_key
  rw [Pgrp.find, hkeys]
  simp only [Pgrp.unlink, hkey]
  exact herase

theorem unlink_view (h : Inv s) (hfind : s.find k = some a) (k' : Ident) :
    (s.unlink a).view k' = if k' = k then none else s.view k' := by
  rw [Pgrp.view, unlink_find h hfind]
  by_cases hk : k' = k
  · rw [if_pos hk, if_pos hk, map_none]
  · rw [if_neg hk, if_neg hk, Pgrp.view]
    cases hfind' : s.find k' with
    | none => rfl
    | some a' =>
      have hne : a' ≠ a := by
        rintro rfl
        exact hk ((find_key hfind').symm.trans (find_key hfind))
      have hsame : (s.unlink a).mhead a' = s.mhead a' := setMount_mhead_of_ne hne
      rw [map_some, map_some, hsame]

theorem Inv.unlink (h : Inv s) (hfind : s.find k = some a) : Inv (s.unlink a) := by
  have hkey := find_key hfind
  obtain ⟨hmem, -⟩ := lookup_some hfind
  have hkeys : (s.unlink a).key = s.key := setMount_key
  refine ⟨?_, fun b i hi => ?_, h.free⟩
  · rw [hkeys]
    exact h.filed.erase
  · -- the head that was taken out is in no chain any more
    have hne : i ≠ a := by
      rintro rfl
      by_cases hb : b = bucket (s.key i)
      · subst hb
        simp only [Pgrp.unlink, update_self] at hi
        exact (h.filed.nodup.mem_erase_iff.mp hi).1 rfl
      · simp only [Pgrp.unlink, update_of_ne hb] at hi
        exact hb (h.filed.home b i hi).symm
    have hsame : (s.unlink a).mhead i = s.mhead i := setMount_mhead_of_ne hne
    rw [hsame]
    by_cases hb : b = bucket (s.key a)
    · subst hb
      simp only [Pgrp.unlink, update_self] at hi
      exact h.full _ i (mem_of_mem_erase hi)
    · simp only [Pgrp.unlink, update_of_ne hb] at hi
      exact h.full b i hi

variable {mem mem' : Option Nat} {id id' flag flg n : Nat} {spec : Option String} {m : Mount}
variable {new old : Chan} {r : Except Err Nat} {l' : List Mount}

theorem newmount_elem (h : newmount mem id c flg spec = (id', some (mem', m))) :
    m.elem = ⟨c, flg, spec⟩ := by
  simp only [newmount] at h
  split at h
  next => cases h
  next =>
    split at h
    next =>
      cases h
      rfl
    next =>
      split at h
      next => cases h
      next =>
        cases h
        rfl

theorem newmount_quiet : newmount none id c flg spec =
    (id + 1, some (none, ⟨id + 1, c, flg, spec⟩)) := by
  cases spec <;> rfl

theorem copyUnion_elem (h : copyUnion mem id flg l = (id', some (mem', l'))) :
    l'.map Mount.elem = l.map fun m => ⟨m.«to», flg, m.spec⟩ := by
  induction l generalizing mem id l' with
  | nil =>
    cases h
    rfl
  | cons um l ih =>
    rw [copyUnion] at h
    split at h
    next => cases h
    next id₁ mem₁ f hf =>
      split at h
      next => cases h
      next id₂ mem₂ l₂ hl =>
        cases h
        rw [map_cons, map_cons, newmount_elem hf, ih hl]

theorem copyUnion_quiet (flg id : Nat) (l : List Mount) :
    ∃ id' l', copyUnion none id flg l = (id', some (none, l')) := by
  induction l generalizing id with
  | nil => exact ⟨id, [], rfl⟩
  | cons um l ih =>
    obtain ⟨id', l', hl⟩ := ih (id + 1)
    refine ⟨id', ⟨id + 1, um.«to», flg, um.spec⟩ :: l', ?_⟩
    rw [copyUnion, newmount_quiet]
    simp only [hl]

/-- Setting a bit that is set. -/
theorem or_mcreate (h : flag &&& mcreate ≠ 0) : flag ||| mcreate = flag := by
  have hbit : flag.testBit 2 = true := by
    by_contra hoff
    apply h
    apply Nat.eq_of_testBit_eq
    intro i
    have hpow : mcreate = 2 ^ 2 := rfl
    rw [Nat.testBit_and, Nat.zero_testBit, hpow, Nat.testBit_two_pow]
    by_cases hi : 2 = i
    · subst hi
      simpa using hoff
    · simp [hi]
  apply Nat.eq_of_testBit_eq
  intro i
  have hpow : mcreate = 2 ^ 2 := rfl
  rw [Nat.testBit_or, hpow, Nat.testBit_two_pow]
  by_cases hi : 2 = i
  · subst hi
    simp [hbit]
  · simp [hi]

theorem arrange_elem {order : Nat} {nm cur : List Mount} :
    (arrange order nm cur).map Mount.elem =
      mounted order old (nm.map Mount.elem) (some (cur.map Mount.elem)) := by
  unfold arrange mounted
  by_cases hrepl : order = mrepl
  · simp [hrepl]
  · by_cases hafter : order = mafter
    · cases cur <;> simp [hafter, mafter, mrepl]
    · simp [hrepl, hafter]

theorem arrange_ne_nil {order : Nat} {nm cur : List Mount} (h : nm ≠ []) :
    arrange order nm cur ≠ [] := by
  simp only [arrange]
  generalize (if order = mrepl then [] else cur) = u
  split
  next => exact append_ne_nil_of_right_ne_nil _ h
  next => exact append_ne_nil_of_left_ne_nil h _

/-- **The second half of `cmount`** arranges source and union, unless it is interrupted. -/
theorem mountAt_spec (old : Chan) (h : mountAt s mem a new flag spec = (t, r)) :
    (mem ≠ none ∧ r = .error .Eintr ∧ ∃ n, t = { s with mountid := n }) ∨
    ∃ n id l, r = .ok id ∧ t = Pgrp.setMount { s with mountid := n } a l ∧ l ≠ [] ∧
      l.map Mount.elem = mounted (flag &&& morder) old (source s new flag spec)
        (some ((s.mhead a).mount.map Mount.elem)) := by
  simp only [mountAt] at h
  split at h
  next id₁ hnew =>
    left
    cases h
    refine ⟨?_, rfl, _, rfl⟩
    rintro rfl
    rw [newmount_quiet] at hnew
    cases hnew
  next id₁ mem₁ nm hnew =>
    split at h
    next id₂ hcopy =>
      left
      cases h
      refine ⟨?_, rfl, _, rfl⟩
      rintro rfl
      rw [newmount_quiet] at hnew
      cases hnew
      obtain ⟨id', l', hl⟩ := copyUnion_quiet (copyFlag (flag &&& morder)) (s.mountid + 1)
        (s.union new).tail
      rw [hl] at hcopy
      cases hcopy
    next id₂ mem₂ l hcopy =>
      right
      cases h
      refine ⟨_, _, _, rfl, rfl, ?_, ?_⟩
      · exact arrange_ne_nil (cons_ne_nil _ _)
      · have hhead : Mount.elem (if flag &&& mcreate ≠ 0 then
            { nm with mflag := nm.mflag ||| mcreate } else nm) = ⟨new, flag, spec⟩ := by
          have helem := newmount_elem hnew
          have hflag : nm.mflag = flag := congrArg Elem.mflag helem
          split
          next hset =>
            rw [Mount.elem, hflag, or_mcreate hset, ← helem]
            exact congrArg (fun f => Elem.mk nm.«to» f nm.spec) hflag.symm
          next => exact helem
        rw [arrange_elem, map_cons, hhead, copyUnion_elem hcopy]
        rfl

theorem union_link (hne : new.umh ≠ some a) : (s.link a c).union new = s.union new := by
  unfold Pgrp.union
  cases humh : new.umh with
  | none => rfl
  | some b =>
    have hb : b ≠ a := by
      rintro rfl
      exact hne humh
    rw [map_some, map_some, link_mhead_of_ne hb]

theorem union_setMount (hne : new.umh ≠ some a) : (s.setMount a l).union new = s.union new := by
  unfold Pgrp.union
  cases humh : new.umh with
  | none => rfl
  | some b =>
    have hb : b ≠ a := by
      rintro rfl
      exact hne humh
    rw [map_some, map_some, setMount_mhead_of_ne hb]

/-- The second half of `cmount` at a mount point that is there. -/
theorem mountAt_there (hi : Inv s) (hfind : s.find old.ident = some a)
    (h : mountAt s mem a new flag spec = (t, r)) : Inv t ∧
    ((mem ≠ none ∧ r = .error .Eintr ∧ ∀ k, t.view k = s.view k) ∨
    ((∃ id, r = .ok id) ∧ ∀ k, t.view k =
      if k = old.ident then
        some (mounted (flag &&& morder) old (source s new flag spec) (s.view old.ident))
      else s.view k)) := by
  rcases mountAt_spec old h with ⟨hmem, hr, n, ht⟩ | ⟨n, id, l, hr, ht, hl, helem⟩
  · subst ht
    exact ⟨mountid_inv hi, Or.inl ⟨hmem, hr, fun k => rfl⟩⟩
  · subst ht
    have hcur : s.view old.ident = some ((s.mhead a).mount.map Mount.elem) := by
      rw [Pgrp.view, hfind, map_some]
    refine ⟨(mountid_inv hi).setMount hl, Or.inr ⟨⟨id, hr⟩, fun k => ?_⟩⟩
    rw [setMount_view (s := { s with mountid := n }) hfind, hcur, helem]
    rfl

/-- The second half of `cmount` at a new head, which has the directory mounted upon in its
union unless it is to be replaced. -/
theorem mountAt_new (hi : Inv s) (hfresh : ∀ b, a ∉ s.hash b) (humh : new.umh ≠ some a)
    (hnone : s.find old.ident = none) {n : Nat}
    (hbase : flag &&& morder ≠ mrepl → l.map Mount.elem = [⟨old, 0, none⟩])
    (h : mountAt (Pgrp.setMount { s.link a old with mountid := n } a l) none a new flag spec =
      (t, r)) : Inv t ∧ (∃ id, r = .ok id) ∧ ∀ k, t.view k =
      if k = old.ident then
        some (mounted (flag &&& morder) old (source s new flag spec) (s.view old.ident))
      else s.view k := by
  rcases mountAt_spec old h with ⟨hmem, -, -⟩ | ⟨n', id, l', hr, ht, hl, helem⟩
  · exact absurd rfl hmem
  · have hsource : source (Pgrp.setMount { s.link a old with mountid := n } a l) new flag spec =
        source s new flag spec := by
      unfold source
      rw [union_setMount humh]
      exact congrArg (fun u : List Mount => _ :: u.tail.map _) (union_link humh)
    have hcur : s.view old.ident = none := by
      rw [Pgrp.view, hnone, map_none]
    have hmeans : l'.map Mount.elem =
        mounted (flag &&& morder) old (source s new flag spec) (s.view old.ident) := by
      rw [helem, hsource, setMount_mount_self, hcur]
      unfold mounted
      by_cases hrepl : flag &&& morder = mrepl
      · rw [if_pos hrepl, if_pos hrepl]
      · rw [if_neg hrepl, if_neg hrepl, hbase hrepl]
        rfl
    -- the state is the linked one with the final union
    have hinv := hi.link (c := old) hfresh hnone hl
    have hview : ∀ k, ((s.link a old).setMount a l').view k = if k = old.ident then
        some (l'.map Mount.elem) else s.view k := by
      intro k
      have hfind := link_find hfresh hnone old.ident
      rw [if_pos rfl] at hfind
      rw [setMount_view hfind]
      by_cases hk : k = old.ident
      · rw [if_pos hk, if_pos hk]
      · rw [if_neg hk, if_neg hk, Pgrp.view, link_find hfresh hnone, if_neg hk, Pgrp.view]
        cases hother : s.find k with
        | none => rfl
        | some i =>
          have hne : i ≠ a := by
            rintro rfl
            exact hfresh _ (lookup_some hother).1
          rw [map_some, map_some, link_mhead_of_ne hne]
    have hsame : t = { (s.link a old).setMount a l' with mountid := n' } := by
      rw [ht]
      simp only [Pgrp.setMount, update_idem, update_self]
    subst hsame
    refine ⟨mountid_inv hinv, ⟨id, hr⟩, fun k => ?_⟩
    rw [← hmeans]
    exact hview k

theorem cmount_step (hi : Inv s) (hfresh : Fresh s (.cmount mem a new old flag spec))
    (hquiet : Quiet s (.cmount mem a new old flag spec))
    (h : cmount s mem a new old flag spec = (t, r)) :
    Inv t ∧ Outcome s t r (.cmount mem a new old flag spec) := by
  by_cases href : Refused s new old flag
  · have hsame : cmount s mem a new old flag spec = (s, .error .Emount) := by
      rw [cmount]
      by_cases h₁ : (old.type ^^^ new.type) &&& qtdir ≠ 0
      · exact if_pos h₁
      · by_cases h₂ : old.type &&& qtdir = 0 ∧ flag &&& morder ≠ mrepl
        · simp only [if_neg h₁]
          exact if_pos h₂
        · simp only [if_neg h₁, if_neg h₂]
          exact if_pos ((href.resolve_left h₁).resolve_left h₂)
    cases hsame.symm.trans h
    exact ⟨hi, Or.inl ⟨href, rfl, fun k => rfl⟩⟩
  · have hrun := h
    simp only [Refused, not_or] at href
    rw [cmount] at hrun
    simp only [if_neg href.1, if_neg href.2.1, if_neg href.2.2] at hrun
    have hnot : ¬ Refused s new old flag := by
      simpa only [Refused, not_or] using href
    cases hfind : s.find old.ident with
    | some b =>
      simp only [hfind] at hrun
      obtain ⟨hinv, ⟨hmem, hr, hview⟩ | ⟨hr, hview⟩⟩ := mountAt_there hi hfind hrun
      · exact ⟨hinv, Or.inr (Or.inl ⟨hnot, hmem, hr, hview⟩)⟩
      · exact ⟨hinv, Or.inr (Or.inr ⟨hnot, hr, hview⟩)⟩
    | none =>
      have hmem : mem = none := hquiet.resolve_right (fun hne => hne hfind)
      subst hmem
      simp only [hfind, smalloc, newmount_quiet] at hrun
      have hend : Inv t ∧ (∃ id, r = .ok id) ∧ ∀ k, t.view k =
          if k = old.ident then
            some (mounted (flag &&& morder) old (source s new flag spec) (s.view old.ident))
          else s.view k := by
        split at hrun
        next hrepl => exact mountAt_new hi hfresh.1 hfresh.2 hfind (fun _ => rfl) hrun
        next hrepl =>
          have hempty : s.link a old =
              Pgrp.setMount { s.link a old with mountid := s.mountid } a [] := by
            simp only [Pgrp.setMount, Pgrp.link, update_idem, update_self]
          rw [hempty] at hrun
          exact mountAt_new hi hfresh.1 hfresh.2 hfind (fun hne => absurd hne hrepl) hrun
      exact ⟨hend.1, Or.inr (Or.inr ⟨hnot, hend.2⟩)⟩

variable {mounted : Chan}

theorem isTo_iff : m.isTo mounted = true ↔
    m.elem.«to».ident = mounted.ident ∨ m.elem.«to».mchan = some mounted.ident := by
  simp only [Mount.isTo, Mount.elem, Bool.or_eq_true, decide_eq_true_eq]

/-- Nothing is `mounted` in a union that is not shortened. -/
theorem remove_none (h : remove mounted l = none) :
    without mounted (l.map Mount.elem) = l.map Mount.elem := by
  induction l with
  | nil => rfl
  | cons f l ih =>
    rw [remove] at h
    by_cases hf : f.isTo mounted = true
    · rw [if_pos hf] at h
      cases h
    · rw [if_neg hf, map_eq_none_iff] at h
      rw [map_cons, without, if_neg (mt isTo_iff.mpr hf), ih h]

/-- One element goes. -/
theorem remove_some (h : remove mounted l = some l') :
    l'.map Mount.elem = without mounted (l.map Mount.elem) ∧ l'.length + 1 = l.length := by
  induction l generalizing l' with
  | nil => cases h
  | cons f l ih =>
    rw [remove] at h
    by_cases hf : f.isTo mounted = true
    · rw [if_pos hf] at h
      cases h
      rw [map_cons, without, if_pos (isTo_iff.mp hf), length_cons]
      exact ⟨rfl, rfl⟩
    · rw [if_neg hf, map_eq_some_iff] at h
      obtain ⟨rest, hrest, rfl⟩ := h
      obtain ⟨helem, hlen⟩ := ih hrest
      rw [map_cons, map_cons, without, if_neg (mt isTo_iff.mpr hf), helem, length_cons, length_cons, hlen]
      exact ⟨rfl, rfl⟩

theorem view_none (h : s.find k = none) : s.view k = none := by
  rw [Pgrp.view, h, map_none]

theorem view_some (h : s.find k = some a) : s.view k = some ((s.mhead a).mount.map Mount.elem) := by
  rw [Pgrp.view, h, map_some]

theorem cunmount_step {mnt : Chan} {what : Option Chan} (hi : Inv s)
    (h : cunmount s mnt what = (t, r)) : Inv t ∧ Outcome s t r (.cunmount mnt what) := by
  unfold cunmount at h
  cases hfind : s.find mnt.ident with
  | none =>
    rw [hfind] at h
    cases h
    refine ⟨hi, ?_⟩
    cases what with
    | none | some c => exact Or.inl ⟨view_none hfind, rfl, fun k => rfl⟩
  | some a =>
    have hview := view_some hfind
    simp only [hfind] at h
    cases what with
    | none =>
      cases h
      refine ⟨hi.unlink hfind, Or.inr ⟨?_, ⟨0, rfl⟩, unlink_view hi hfind⟩⟩
      rw [hview]
      exact some_ne_none _
    | some c =>
      cases hrem : remove c (s.mhead a).mount with
      | none =>
        simp only [hrem] at h
        cases h
        exact ⟨hi, Or.inr ⟨_, hview, Or.inl ⟨remove_none hrem, rfl, fun k => rfl⟩⟩⟩
      | some l =>
        obtain ⟨helem, hlen⟩ := remove_some hrem
        have hshort : (without c ((s.mhead a).mount.map Mount.elem)).length + 1 =
            ((s.mhead a).mount.map Mount.elem).length := by
          rw [← helem, length_map, length_map, hlen]
        cases l with
        | nil =>
          simp only [hrem] at h
          cases h
          refine ⟨hi.unlink hfind, Or.inr ⟨_, hview, Or.inr ⟨hshort, ⟨0, rfl⟩, fun k => ?_⟩⟩⟩
          rw [← helem, unlink_view hi hfind]
          rfl
        | cons f l =>
          simp only [hrem] at h
          cases h
          refine ⟨hi.setMount (cons_ne_nil f l), Or.inr ⟨_, hview, Or.inr ⟨hshort, ⟨0, rfl⟩, fun k => ?_⟩⟩⟩
          rw [← helem, setMount_view hfind]
          rfl

theorem start_inv (h : Start s) : Inv s := by
  obtain ⟨hhash, hns⟩ := h
  refine ⟨?_, fun b a ha => ?_, hns⟩
  · rw [hhash]
    exact Filed.empty
  · rw [hhash] at ha
    exact (not_mem_nil ha).elim

/-- **One call** from a state in order returns, keeps the table in order and does what the
unions say. -/
theorem step_spec (hi : Inv s) {op : Op} (hfresh : Fresh s op) (hquiet : Quiet s op) :
    ∃ t r, step s op = some (t, r) ∧ Inv t ∧ Outcome s t r op := by
  have hfree : ¬ s.ns = true := by simp [hi.free]
  cases op with
  | cmount mem fresh new old flag spec =>
    refine ⟨(cmount s mem fresh new old flag spec).1, (cmount s mem fresh new old flag spec).2, ?_,
      cmount_step hi hfresh hquiet rfl⟩
    rw [step, if_neg hfree]
  | cunmount mnt mounted =>
    refine ⟨(cunmount s mnt mounted).1, (cunmount s mnt mounted).2, ?_, cunmount_step hi rfl⟩
    rw [step, if_neg hfree]

theorem reach_inv (h : Reach s) : Inv s := by
  refine h.invariant Inv (fun s hs => start_inv hs) ?_
  rintro s op t hi ⟨hfresh, hquiet, r, hstep⟩
  obtain ⟨t', r', hstep', hinv, -⟩ := step_spec hi hfresh hquiet
  cases hstep.symm.trans hstep'
  exact hinv

/-- `findmount` sees the first element of the union. -/
theorem findmount_spec (hi : Inv s) (k : Ident) :
    (findmount s k = .miss ∧ s.view k = none) ∨
    ∃ a e u, findmount s k = .hit a e.«to» ∧ s.view k = some (e :: u) := by
  unfold findmount
  cases hfind : s.find k with
  | none => exact Or.inl ⟨rfl, view_none hfind⟩
  | some a =>
    have hmem := (lookup_some hfind).1
    cases hmount : (s.mhead a).mount with
    | nil => exact absurd hmount (hi.full _ a hmem)
    | cons m l =>
      refine Or.inr ⟨a, m.elem, l.map Mount.elem, ?_, ?_⟩
      · simp only [hmount]
        rfl
      · rw [view_some hfind, hmount, map_cons]

/-- A channel that heads a union of the table brings the other elements of that union. -/
theorem source_view (hi : Inv s) (humh : c.umh = some a) (hmem : a ∈ s.hash b) :
    ∃ u, s.view (s.key a) = some u ∧ source s c flag spec =
      ⟨c, flag, spec⟩ :: u.tail.map fun e => ⟨e.«to», copyFlag (flag &&& morder), e.spec⟩ := by
  have hfind : s.find (s.key a) = some a := hi.filed.lookup_mem hmem
  refine ⟨_, view_some hfind, ?_⟩
  have hunion : s.union c = (s.mhead a).mount := by
    rw [Pgrp.union, humh]
    rfl
  rw [source, hunion, ← map_tail, List.map_map]
  rfl

/-- **The mount table.**  As long as no `cmount` of a new mount point is interrupted in a wait
for memory, every head has a union that is not empty, in the chain of its own path, and there
is one head for a channel; `findmount` comes to the first element of the union; and every call
does to the unions what its arguments say. -/
theorem mount_table_ok (h : Reach s) :
    (∀ b, ∀ a ∈ s.hash b, (s.mhead a).mount ≠ [] ∧ bucket (s.key a) = b) ∧
    (∀ b b', ∀ a ∈ s.hash b, ∀ a' ∈ s.hash b', s.key a = s.key a' → a = a') ∧
    (∀ b, (s.hash b).Nodup) ∧
    (∀ k, (findmount s k = .miss ∧ s.view k = none) ∨
      ∃ a e u, findmount s k = .hit a e.«to» ∧ s.view k = some (e :: u)) ∧
    (∀ b, ∀ a ∈ s.hash b, ∀ c flag spec, c.umh = some a → ∃ u, s.view (s.key a) = some u ∧
      source s c flag spec =
        ⟨c, flag, spec⟩ :: u.tail.map fun e => ⟨e.«to», copyFlag (flag &&& morder), e.spec⟩) ∧
    ∀ op, Fresh s op → Quiet s op → ∃ t r, step s op = some (t, r) ∧ Reach t ∧ Outcome s t r op := by
  have hi := reach_inv h
  refine ⟨fun b a ha => ⟨hi.full b a ha, hi.filed.home b a ha⟩, ?_, fun b => hi.filed.nodup,
    findmount_spec hi, fun b a ha c flag spec humh => source_view hi humh ha, ?_⟩
  · intro b b' a ha a' ha' hkey
    have hb : b = b' := by
      rw [← hi.filed.home b a ha, ← hi.filed.home b' a' ha', hkey]
    subst hb
    exact hi.filed.unique ha ha' hkey
  · intro op hfresh hquiet
    obtain ⟨t, r, hstep, -, hout⟩ := step_spec hi hfresh hquiet
    exact ⟨t, r, hstep, h.next ⟨hfresh, hquiet, r, hstep⟩, hout⟩

/-- The root directory. -/
def rootDir : Chan := ⟨⟨0, 0x2f, 0⟩, qtdir, none, none⟩

/-- The root of another device. -/
def procDir : Chan := ⟨⟨0, 0x70, 0⟩, qtdir, none, none⟩

/-- An empty name space. -/
def emptyNs : Pgrp := ⟨fun _ => [], fun _ => ⟨rootDir, []⟩, 0, false⟩

/-- `bind -b '#p' /` in an empty name space; then everything is unmounted again. -/
theorem mount_table_ok_bind : ∃ s, Reach s ∧
    s.view rootDir.ident = some [⟨procDir, 1, none⟩, ⟨rootDir, 0, none⟩] ∧
    ∃ t r, step s (.cunmount rootDir none) = some (t, r) ∧ Reach t ∧
      Outcome s t r (.cunmount rootDir none) := by
  have hstart : Reach emptyNs := Reach.start ⟨rfl, rfl⟩
  have hfresh : Fresh emptyNs (.cmount none 1 procDir rootDir 1 none) :=
    ⟨fun _ => not_mem_nil, by decide⟩
  have hreach : Reach (cmount emptyNs none 1 procDir rootDir 1 none).1 :=
    hstart.next ⟨hfresh, Or.inl rfl, (cmount emptyNs none 1 procDir rootDir 1 none).2, rfl⟩
  obtain ⟨-, -, -, -, -, hstep⟩ := mount_table_ok hreach
  exact ⟨_, hreach, by decide, hstep (.cunmount rootDir none) trivial trivial⟩

/-- A note interrupts the wait for the first `Mount` of a new mount point: the head is left in
the table without a union, and `findmount` takes the channel of a nil `Mount`. -/
theorem interrupted_head : Start emptyNs ∧
    Fresh emptyNs (.cmount (some 1) 1 procDir rootDir 0 none) ∧
    ∃ t, step emptyNs (.cmount (some 1) 1 procDir rootDir 0 none) = some (t, .error .Eintr) ∧
      1 ∈ t.hash (bucket rootDir.ident) ∧ (t.mhead 1).mount = [] ∧
      findmount t rootDir.ident = .fault :=
  ⟨⟨rfl, rfl⟩, ⟨fun _ => not_mem_nil, by decide⟩, _, rfl, by decide, by decide, by decide⟩

end MountTable
