import NixKernel.Mntalloc

/-!
# The accounts of tags over a run

A tag that `mntralloc` loses stays set in `tagmask` for good, and each loss takes one off `nrpcused` too many.  The
invariant counts what is lost; the accounts are right as long as that is nothing.
-/

namespace MntTags

open LinkList BitTable
open Function (update update_self update_of_ne update_eq_self)

variable {s u : Mntalloc} {a : Act} {mask mask' : Nat → BitVec 32} {all l leaked : List Nat} {r t : Nat}

/-- The bits that are set are those of `all`, each once. -/
def Tags (mask : Nat → BitVec 32) (all : List Nat) : Prop := (∀ t, Mem mask t ↔ t ∈ all) ∧ all.Nodup

theorem Tags.perm {all' : List Nat} (h : Tags mask all) (hperm : all.Perm all') : Tags mask all' :=
  ⟨fun t => (h.1 t).trans hperm.mem_iff, hperm.nodup_iff.mp h.2⟩

/-- **What `alloctag` does.**  The tag was not taken. -/
theorem alloctag_spec (h : alloctag mask = some (t, mask')) :
    ¬Mem mask t ∧ ∀ t', Mem mask' t' ↔ Mem mask t' ∨ t' = t := by
  obtain ⟨i, -, hi⟩ := List.exists_of_findSome?_eq_some h
  split at hi
  · cases hi
  · obtain ⟨j, hj, heq⟩ := Option.map_eq_some_iff.mp hi
    cases heq
    have hlt : j < 32 := List.mem_range.mp (List.mem_of_find?_eq_some hj)
    have hclear := (and_bit (mask i) hlt).mp (by simpa using List.find?_some hj)
    refine ⟨fun hmem => ?_, fun t' => mem_insert hlt⟩
    rw [(mem_pair hlt).mp hmem] at hclear
    cases hclear

theorem Tags.insert (h : Tags mask all) (halloc : alloctag mask = some (t, mask')) : Tags mask' (t :: all) := by
  obtain ⟨hnew, hmem⟩ := alloctag_spec halloc
  refine ⟨fun t' => ?_, List.nodup_cons.mpr ⟨fun hin => hnew ((h.1 t).mpr hin), h.2⟩⟩
  rw [hmem, h.1, List.mem_cons, or_comm]

theorem Tags.erase (h : Tags mask (t :: all)) : Tags (freetag mask t) all := by
  obtain ⟨hnot, hnodup⟩ := List.nodup_cons.mp h.2
  refine ⟨fun t' => ?_, hnodup⟩
  have herase : Mem (freetag mask t) t' ↔ Mem mask t' ∧ t' ≠ t / 32 * 32 + t % 32 :=
    mem_erase (Nat.mod_lt t (by decide))
  rw [herase, h.1, List.mem_cons, Nat.div_add_mod']
  constructor
  · rintro ⟨heq | hin, hne⟩
    · exact absurd heq hne
    · exact hin
  · exact fun hin => ⟨Or.inr hin, fun heq => hnot (heq ▸ hin)⟩

/-- The tags that are set. -/
def Mntalloc.taken (s : Mntalloc) (l leaked : List Nat) : List Nat := reserved ++ (s.used ++ l).map s.tag ++ leaked

/-- **The accounts with what is lost.** -/
structure Inv (s : Mntalloc) (l leaked : List Nat) : Prop where
  free : s.Free l
  live : ∀ r ∈ s.used ++ l, s.live r = true
  tags : Tags s.tagmask (s.taken l leaked)
  nrpcfree : s.nrpcfree = l.length
  nrpcused : s.nrpcused = s.used.length - (leaked.length : Int)

theorem Inv.nodup (h : Inv s l leaked) : (s.used ++ l).Nodup :=
  List.Nodup.of_map _ (List.nodup_append.mp (List.nodup_append.mp h.tags.2).1).2.1

theorem Inv.accounted_iff (h : Inv s l leaked) : (∃ l, Accounted s l) ↔ leaked.length = 0 := by
  constructor
  · rintro ⟨l', haccounted⟩
    have hused := haccounted.nrpcused
    have hlost := h.nrpcused
    omega
  · intro hnone
    rw [List.length_eq_zero_iff] at hnone
    subst hnone
    have htags := h.tags
    rw [Mntalloc.taken, List.append_nil] at htags
    have hused := h.nrpcused
    rw [List.length_nil] at hused
    exact ⟨l, h.free, htags.1, htags.2, h.nrpcfree, hused.trans (Int.sub_zero _)⟩

theorem inv_init : Inv init [] [] := by
  refine ⟨rfl, nofun, ⟨fun t => ?_, by decide⟩, rfl, rfl⟩
  have hmask : init.tagmask = BitTable.insert (BitTable.insert (fun _ => 0#32) 0 0) (nmask - 1) 31 := by
    rw [BitTable.insert, BitTable.insert, update_of_ne (by decide)]
    rfl
  have hnone : ¬Mem (fun _ => 0#32) t := by
    rw [Mem, BitVec.getLsbD_zero]
    exact Bool.false_ne_true
  rw [hmask, mem_insert (by decide), mem_insert (by decide)]
  change (Mem (fun _ => 0#32) t ∨ t = 0) ∨ t = 65535 ↔ t ∈ [0, 65535]
  rw [List.mem_cons, List.mem_singleton]
  constructor
  · rintro ((h | h) | h)
    · exact absurd h hnone
    · exact Or.inl h
    · exact Or.inr h
  · rintro (h | h)
    · exact Or.inl (Or.inr h)
    · exact Or.inr h

/-- What a write to a header leaves alone. -/
theorem tag_set_ne {h : Mntrpc} {rpc : Nat → Mntrpc} {r' : Nat} (hne : r' ≠ r) :
    (update rpc r h r').tag = (rpc r').tag := by rw [update_of_ne hne]

theorem tag_set_same {h : Mntrpc} {rpc : Nat → Mntrpc} (htag : h.tag = (rpc r).tag) (r' : Nat) :
    (update rpc r h r').tag = (rpc r').tag := by
  by_cases hr : r' = r
  · rw [hr, update_self, htag]
  · rw [update_of_ne hr]

theorem Inv.fresh {msize new : Nat} {header buffer : Bool} (h : Inv s l leaked) (hnil : s.rpcfree = none)
    (hnew : s.live new = false) (hcall : s.fresh msize new header buffer = some u) : Inv u l leaked := by
  rw [Mntalloc.fresh] at hcall
  split at hcall
  · cases hcall
    exact h
  · obtain ⟨⟨t, mask'⟩, halloc, heq⟩ := Option.map_eq_some_iff.mp hcall
    cases heq
    have hl : l = [] := by
      have hfree := h.free
      rw [Mntalloc.Free, hnil] at hfree
      exact hfree.eq_nil
    subst hl
    have hnot : ∀ r ∈ s.used ++ [], r ≠ new := by
      intro r hr heq
      rw [← heq, h.live r hr] at hnew
      cases hnew
    refine ⟨hnil, fun r hr => ?_, ?_, h.nrpcfree, ?_⟩
    · change update s.live new true r = true
      by_cases hr' : r = new
      · rw [hr', update_self]
      · rw [update_of_ne hr']
        exact h.live r ((List.mem_cons.mp hr).resolve_left hr')
    · refine (h.tags.insert halloc).perm ?_
      have hmap : (s.used ++ []).map (fun r => (update s.rpc new ⟨none, t, msize⟩ r).tag) =
          (s.used ++ []).map s.tag := List.map_congr_left fun r hr => tag_set_ne (hnot r hr)
      have htag : (update s.rpc new ⟨none, t, msize⟩ new).tag = t := by rw [update_self]
      change (t :: (reserved ++ (s.used ++ []).map s.tag ++ leaked)).Perm (reserved ++
        ((update s.rpc new ⟨none, t, msize⟩ new).tag ::
          (s.used ++ []).map (fun r => (update s.rpc new ⟨none, t, msize⟩ r).tag)) ++ leaked)
      rw [hmap, htag, List.append_assoc, List.append_assoc, List.cons_append]
      exact List.perm_middle.symm
    · change s.nrpcused + 1 = ((new :: s.used).length : Int) - (leaked.length : Int)
      have hused := h.nrpcused
      rw [List.length_cons]
      omega

/-- The header that is taken from the free list. -/
theorem Inv.head (h : Inv s l leaked) (hsome : s.rpcfree = some r) :
    ∃ l', l = r :: l' ∧ Path (fun r => (s.rpc r).list) (s.rpc r).list l' none := by
  have hfree := h.free
  rw [Mntalloc.Free, hsome] at hfree
  exact hfree.of_some

/-- It is used again. -/
theorem Inv.again {l' : List Nat} {h' : Mntrpc} (h : Inv s (r :: l') leaked)
    (hfree : Path (fun r => (s.rpc r).list) (s.rpc r).list l' none) (htag : h'.tag = (s.rpc r).tag)
    (hlist : h'.list = (s.rpc r).list) :
    Inv { s.set r h' with
      rpcfree := (s.rpc r).list
      nrpcfree := s.nrpcfree - 1
      nrpcused := s.nrpcused + 1
      used := r :: s.used } l' leaked := by
  have hperm : (s.used ++ r :: l').Perm (r :: s.used ++ l') := List.perm_middle
  refine ⟨?_, fun q hq => h.live q (hperm.mem_iff.mpr hq), ?_, ?_, ?_⟩
  · refine Path.frame hfree fun q _ => ?_
    change (update s.rpc r h' q).list = (s.rpc q).list
    by_cases hq : q = r
    · rw [hq, update_self, hlist]
    · rw [update_of_ne hq]
  · have hmap : (r :: s.used ++ l').map (fun q => (update s.rpc r h' q).tag) =
        (r :: s.used ++ l').map s.tag := List.map_congr_left fun q _ => tag_set_same htag q
    refine h.tags.perm ?_
    change (s.taken (r :: l') leaked).Perm
      (reserved ++ (r :: s.used ++ l').map (fun q => (update s.rpc r h' q).tag) ++ leaked)
    rw [hmap]
    exact ((hperm.map s.tag).append_left reserved).append_right leaked
  · have hlen := h.nrpcfree
    rw [List.length_cons] at hlen
    change s.nrpcfree - 1 = (l'.length : Int)
    omega
  · have hused := h.nrpcused
    change s.nrpcused + 1 = ((r :: s.used).length : Int) - (leaked.length : Int)
    rw [List.length_cons]
    omega

/-- Its buffer is too small and there is no memory: the header is gone, and its tag stays. -/
theorem Inv.lose {l' : List Nat} (h : Inv s (r :: l') leaked)
    (hfree : Path (fun r => (s.rpc r).list) (s.rpc r).list l' none) :
    Inv { s with
      rpcfree := (s.rpc r).list
      nrpcfree := s.nrpcfree - 1
      nrpcused := s.nrpcused - 1
      live := update s.live r false } l' (s.tag r :: leaked) := by
  have hperm : (s.used ++ r :: l').Perm (r :: (s.used ++ l')) := List.perm_middle
  have hnot : r ∉ s.used ++ l' := (List.nodup_cons.mp (hperm.nodup_iff.mp h.nodup)).1
  refine ⟨hfree, fun q hq => ?_, ?_, ?_, ?_⟩
  · change update s.live r false q = true
    rw [update_of_ne fun heq : q = r => hnot (heq ▸ hq)]
    exact h.live q (hperm.mem_iff.mpr (List.mem_cons_of_mem r hq))
  · refine h.tags.perm ?_
    change (reserved ++ (s.used ++ r :: l').map s.tag ++ leaked).Perm
      (reserved ++ (s.used ++ l').map s.tag ++ (s.tag r :: leaked))
    refine (((hperm.map s.tag).append_left reserved).append_right leaked).trans ?_
    rw [List.map_cons, List.append_assoc, List.append_assoc, List.cons_append]
    exact List.perm_middle.symm.append_left reserved
  · have hlen := h.nrpcfree
    rw [List.length_cons] at hlen
    change s.nrpcfree - 1 = (l'.length : Int)
    omega
  · have hused := h.nrpcused
    change s.nrpcused - 1 = (s.used.length : Int) - ((s.tag r :: leaked).length : Int)
    rw [List.length_cons]
    omega

/-- There are enough headers on the free list: this one goes, and its tag with it. -/
theorem Inv.drop (h : Inv s l leaked) (hr : r ∈ s.used) :
    Inv { s with
      tagmask := freetag s.tagmask (s.rpc r).tag
      nrpcused := s.nrpcused - 1
      live := update s.live r false
      used := s.used.erase r } l leaked := by
  have hperm : (s.used ++ l).Perm (r :: (s.used.erase r ++ l)) := (List.perm_cons_erase hr).append_right l
  have hnot : r ∉ s.used.erase r ++ l := (List.nodup_cons.mp (hperm.nodup_iff.mp h.nodup)).1
  refine ⟨h.free, fun q hq => ?_, ?_, h.nrpcfree, ?_⟩
  · change update s.live r false q = true
    rw [update_of_ne fun heq : q = r => hnot (heq ▸ hq)]
    exact h.live q (hperm.mem_iff.mpr (List.mem_cons_of_mem r hq))
  · refine (h.tags.perm ?_).erase
    change (reserved ++ (s.used ++ l).map s.tag ++ leaked).Perm
      (s.tag r :: (reserved ++ (s.used.erase r ++ l).map s.tag ++ leaked))
    refine (((hperm.map s.tag).append_left reserved).append_right leaked).trans ?_
    rw [List.map_cons, List.append_assoc, List.append_assoc, List.cons_append]
    exact List.perm_middle
  · have hlen := List.length_erase_of_mem hr
    have hpos := List.length_pos_of_mem hr
    have hused := h.nrpcused
    change s.nrpcused - 1 = ((s.used.erase r).length : Int) - (leaked.length : Int)
    omega

/-- It goes to the free list. -/
theorem Inv.keep {h' : Mntrpc} (h : Inv s l leaked) (hr : r ∈ s.used) (htag : h'.tag = (s.rpc r).tag)
    (hlist : h'.list = s.rpcfree) :
    Inv { s.set r h' with
      rpcfree := some r
      nrpcfree := s.nrpcfree + 1
      nrpcused := s.nrpcused - 1
      used := s.used.erase r } (r :: l) leaked := by
  have hperm : (s.used ++ l).Perm (r :: (s.used.erase r ++ l)) := (List.perm_cons_erase hr).append_right l
  have hnot : r ∉ s.used.erase r ++ l := (List.nodup_cons.mp (hperm.nodup_iff.mp h.nodup)).1
  have hperm' : (s.used ++ l).Perm (s.used.erase r ++ r :: l) := hperm.trans List.perm_middle.symm
  have hrl : r ∉ l := fun hmem => hnot (List.mem_append_right _ hmem)
  refine ⟨⟨rfl, ?_⟩, fun q hq => h.live q (hperm'.mem_iff.mpr hq), ?_, ?_, ?_⟩
  · have hself : (update s.rpc r h' r).list = s.rpcfree := by rw [update_self, hlist]
    change Path _ (update s.rpc r h' r).list l none
    rw [hself]
    refine Path.frame h.free fun q hq => ?_
    change (update s.rpc r h' q).list = (s.rpc q).list
    rw [update_of_ne fun heq : q = r => hrl (heq ▸ hq)]
  · have hmap : (s.used.erase r ++ r :: l).map (fun q => (update s.rpc r h' q).tag) =
        (s.used.erase r ++ r :: l).map s.tag := List.map_congr_left fun q _ => tag_set_same htag q
    refine h.tags.perm ?_
    change (s.taken l leaked).Perm (reserved ++
      (s.used.erase r ++ r :: l).map (fun q => (update s.rpc r h' q).tag) ++ leaked)
    rw [hmap]
    exact ((hperm'.map s.tag).append_left reserved).append_right leaked
  · have hfree := h.nrpcfree
    change s.nrpcfree + 1 = ((r :: l).length : Int)
    rw [List.length_cons]
    omega
  · have hlen := List.length_erase_of_mem hr
    have hpos := List.length_pos_of_mem hr
    have hused := h.nrpcused
    change s.nrpcused - 1 = ((s.used.erase r).length : Int) - (leaked.length : Int)
    omega

theorem Inv.mntfree (h : Inv s l leaked) (hr : r ∈ s.used) : ∃ l', Inv (s.mntfree r) l' leaked := by
  rw [Mntalloc.mntfree]
  split
  · exact ⟨l, h.drop hr⟩
  · exact ⟨r :: l, h.keep hr rfl rfl⟩

/-- **What a call does to the accounts.** -/
theorem Inv.act (h : Inv s l leaked) (hact : act s a = some u) :
    ∃ l' leaked', Inv u l' leaked' ∧
      ((Lost s a ∧ leaked'.length = leaked.length + 1) ∨ (¬Lost s a ∧ leaked'.length = leaked.length)) := by
  cases a with
  | mntralloc msize new header buffer =>
    rw [MntTags.act] at hact
    split at hact
    · cases hact
    · next hnew =>
      rw [Mntalloc.mntralloc] at hact
      split at hact
      · next hnil =>
        refine ⟨l, leaked, h.fresh hnil (Bool.eq_false_iff.mpr hnew) hact, Or.inr ⟨?_, rfl⟩⟩
        rintro ⟨_, _, _, r, -, hsome, -⟩
        rw [hnil] at hsome
        cases hsome
      · next r hsome =>
        cases hact
        obtain ⟨l', rfl, hfree⟩ := h.head hsome
        rw [Mntalloc.reuse]
        split
        · next hsmall =>
          cases buffer with
          | true =>
            refine ⟨l', leaked, h.again hfree rfl rfl, Or.inr ⟨?_, rfl⟩⟩
            rintro ⟨_, _, _, _, heq, -⟩
            cases heq
          | false => exact ⟨l', s.tag r :: leaked, h.lose hfree, Or.inl ⟨⟨_, _, _, r, rfl, hsome, hsmall⟩, rfl⟩⟩
        · next hlarge =>
          have hsame : s.set r (s.rpc r) = s := by rw [Mntalloc.set, update_eq_self]
          have hagain := @Inv.again _ _ _ _ (s.rpc r) h hfree rfl rfl
          rw [hsame] at hagain
          refine ⟨l', leaked, hagain, Or.inr ⟨?_, rfl⟩⟩
          rintro ⟨_, _, _, r', heq, hsome', hsmall⟩
          cases heq
          rw [hsome] at hsome'
          cases hsome'
          exact hlarge hsmall
  | mntfree r =>
    rw [MntTags.act] at hact
    split at hact
    · next hr =>
      cases hact
      obtain ⟨l', hinv⟩ := h.mntfree hr
      refine ⟨l', leaked, hinv, Or.inr ⟨?_, rfl⟩⟩
      rintro ⟨_, _, _, _, heq, -⟩
      cases heq
    · cases hact

/-- **Tag accounting.**  After any sequence of calls, with any of them out of memory, the accounts are right exactly
when no call took a header from the free list and had no memory for the larger buffer it needs. -/
theorem tags_accounted {acts : List Act} (hrun : StepSystem.exec act init acts = some s) :
    (∃ l, Accounted s l) ↔ Spared init acts := by
  have hloss := @StepSystem.exec_loss _ _ _ Lost (fun s n => ∃ l leaked, Inv s l leaked ∧ leaked.length = n)
    (fun s a t n => by
      rintro ⟨l, leaked, h, rfl⟩ hact
      obtain ⟨l', leaked', hinv, hcase⟩ := h.act hact
      refine ⟨_, ⟨l', leaked', hinv, rfl⟩, ?_⟩
      rcases hcase with ⟨hlost, hlen⟩ | ⟨hkept, hlen⟩
      · exact Or.inl ⟨hlost, by omega⟩
      · exact Or.inr ⟨hkept, hlen⟩) _ _ _ _ ⟨[], [], inv_init, rfl⟩ hrun
  obtain ⟨n, ⟨l, leaked, hinv, rfl⟩, -, hiff⟩ := hloss
  exact hinv.accounted_iff.trans hiff

/-- Nothing is lost where there is memory for the buffers. -/
theorem spared_of_memory {acts : List Act} (h : ∀ msize new header, Act.mntralloc msize new header false ∉ acts) :
    Spared s acts := by
  induction acts generalizing s with
  | nil => trivial
  | cons a acts ih =>
    refine ⟨?_, fun t _ => ih fun msize new header hmem => h msize new header (List.mem_cons_of_mem a hmem)⟩
    rintro ⟨msize, new, header, r, rfl, -⟩
    exact h msize new header List.mem_cons_self

/-- A header goes to the free list, gets a larger buffer, and the next one is new. -/
def again : List Act :=
  [.mntralloc 100 0 true true, .mntfree 0, .mntralloc 200 1 true true, .mntralloc 100 1 true true]

theorem tags_accounted_again : ∃ s l, StepSystem.exec act init again = some s ∧ Accounted s l := by
  have hrun : StepSystem.exec act init again = some ((StepSystem.exec act init again).getD init) :=
    StepSystem.exec_getD (by decide +kernel)
  have hspared : Spared init again := spared_of_memory fun msize new header hmem => by simp [again] at hmem
  obtain ⟨l, haccounted⟩ := (tags_accounted hrun).mpr hspared
  exact ⟨_, l, hrun, haccounted⟩

/-- A header goes to the free list, and there is no memory for a larger buffer. -/
def lossy : List Act := [.mntralloc 100 0 true true, .mntfree 0, .mntralloc 200 1 true false]

/-- It is lost with its tag, and is taken off `nrpcused` though it was not in use. -/
theorem tag_lost :
    ¬ ∀ (acts : List Act) (s : Mntalloc), StepSystem.exec act init acts = some s → ∃ l, Accounted s l := by
  intro hall
  have hrun : StepSystem.exec act init lossy = some ((StepSystem.exec act init lossy).getD init) :=
    StepSystem.exec_getD (by decide +kernel)
  obtain ⟨l, haccounted⟩ := hall _ _ hrun
  exact absurd haccounted.nrpcused (by decide +kernel)

end MntTags
