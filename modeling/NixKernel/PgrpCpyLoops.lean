import NixKernel.PgrpCpyRun

/-!
# `pgrpcpy` makes a copy

The loops are followed from the inside: over a union, over a chain, over all chains, and then over the mounts in the
order of their ids.
-/

namespace PgrpCpy

open LinkList ChainTable Function List
open MountTable (mnthash)

variable {s t : Heap} {heads : Nat → List Addr} {mounts : Addr → List Addr} {g «to» : Addr} {order q : Option Addr}
  {p : Progress} {i f m fuel : Nat} {mem : Option Nat} {rest : List Addr}

/-- A union is shorter than the number of all mounts. -/
theorem Group.length_lt (hg : Group s g heads mounts) (hf : f ∈ heads i) : (mounts f).length < s.nmount + 1 :=
  (hg.unions i f hf).length_lt fun m hm => hg.lt ⟨i, f, hf, hm⟩

theorem Group.chain_lt (hg : Group s g heads mounts) (i : Nat) : (heads i).length < s.nmhead + 1 :=
  (hg.chains.path i).length_lt fun f hf => (hg.bound i f hf).2.1

/-- The rest of a union has not been visited. -/
theorem Copying.not_in (h : Copying s heads mounts «to» t order p) (hg : Group s g heads mounts) (hf : f ∈ p.heads i)
    (hrest : p.mounts f ++ m :: rest = mounts f) : ¬In p.heads p.mounts m := by
  rintro ⟨j, a, ha, hm⟩
  have hfi := (h.part i f hf).1
  have hmf : m ∈ mounts f := by
    rw [← hrest]
    exact mem_append_right _ mem_cons_self
  obtain rfl := hg.disjoint j a i f m (h.part j a ha).1 hfi ((h.part j a ha).2 m hm) hmf
  have hnodup := (hg.unions i a hfi).nodup
  rw [← hrest, nodup_append] at hnodup
  exact hnodup.2.2 m hm m mem_cons_self rfl

/-- **The loop over a union.** -/
theorem copyMounts_spec (hg : Group s g heads mounts) (h : Copying s heads mounts «to» t order p) (hf : f ∈ p.heads i)
    (hrest : p.mounts f ++ rest = mounts f) (hpath : Path s.next q rest none) (hfuel : rest.length < fuel) :
    Ends mem (copyMounts fuel mem t (p.newHead f) ((p.mounts f).map p.newMount).getLast? q order) fun r =>
      ∃ p', Copying s heads mounts «to» r.1 r.2 p' ∧ p'.heads = p.heads ∧ p'.newHead = p.newHead ∧
        p'.mounts = update p.mounts f (mounts f) := by
  induction rest generalizing fuel mem t order p q with
  | nil =>
    obtain ⟨fuel, rfl⟩ := Nat.exists_eq_add_one.mpr hfuel
    rw [path_nil.mp hpath]
    rw [append_nil] at hrest
    refine Ends.ret ⟨p, h, rfl, rfl, ?_⟩
    rw [← hrest, update_eq_self]
  | cons m rest ih =>
    obtain ⟨fuel, rfl⟩ := Nat.exists_eq_add_one.mpr (Nat.zero_lt_of_lt hfuel)
    obtain ⟨rfl, hpath⟩ := hpath
    have hm : m ∈ mounts f := by
      rw [← hrest]
      exact mem_append_right _ mem_cons_self
    have hlt := hg.lt ⟨i, f, (h.part i f hf).1, hm⟩
    obtain ⟨-, -, -, hto, hflag, hspec⟩ := h.kept.mount m hlt
    obtain ⟨u, order', l, hrun, hnext⟩ := h.addMount hg hf hm (h.not_in hg hf hrest)
    rw [copyMounts, hto, hflag, hspec]
    refine (newmount_ends mem t _ _ _ _).bind ?_
    rintro mem' _ rfl
    rw [hrun, Option.bind_some]
    have hnewHead : (p.addMount f m t.nmount l).newHead f = p.newHead f := rfl
    have hmounts : (p.addMount f m t.nmount l).mounts f = p.mounts f ++ [m] := update_self _ _ _
    have hnewMount : (p.addMount f m t.nmount l).newMount m = t.nmount := update_self _ _ _
    have hlink : (((p.addMount f m t.nmount l).mounts f).map (p.addMount f m t.nmount l).newMount).getLast? =
        some t.nmount := by
      rw [hmounts, map_append, map_singleton, hnewMount, List.getLast?_concat]
    have hrest' : (p.addMount f m t.nmount l).mounts f ++ rest = mounts f := by
      rw [hmounts, append_assoc]
      exact hrest
    have hnextm : (u.linkMount (p.newHead f) ((p.mounts f).map p.newMount).getLast? t.nmount).next m = s.next m :=
      (hnext.kept.mount m hlt).2.1
    have hspec' := @ih _ _ _ _ _ mem' hnext hf hrest' (hnextm ▸ hpath) (Nat.lt_of_succ_lt_succ hfuel)
    rw [hlink, hnewHead] at hspec'
    refine hspec'.imp ?_
    rintro r ⟨p', hcopy, h1, h2, h3⟩
    refine ⟨p', hcopy, h1, h2, h3.trans ?_⟩
    change update (update p.mounts f (p.mounts f ++ [m])) f (mounts f) = _
    rw [update_idem]

/-- Every head that has been visited has all its mounts. -/
def Progress.Whole (p : Progress) (mounts : Addr → List Addr) : Prop := ∀ j, ∀ a ∈ p.heads j, p.mounts a = mounts a

/-- **The loop over a chain.** -/
theorem copyHeads_spec (hg : Group s g heads mounts) (h : Copying s heads mounts «to» t order p)
    (hwhole : p.Whole mounts) (hrest : p.heads i ++ rest = heads i) (hpath : Path s.hash q rest none)
    (hfuel : rest.length < fuel) :
    Ends mem (copyHeads fuel mem t «to» i ((p.heads i).map p.newHead).getLast? q order) fun r =>
      ∃ p', Copying s heads mounts «to» r.1 r.2 p' ∧ p'.Whole mounts ∧ p'.heads = update p.heads i (heads i) := by
  induction rest generalizing fuel mem t order p q with
  | nil =>
    obtain ⟨fuel, rfl⟩ := Nat.exists_eq_add_one.mpr hfuel
    rw [path_nil.mp hpath]
    rw [append_nil] at hrest
    refine Ends.ret ⟨p, h, hwhole, ?_⟩
    rw [← hrest, update_eq_self]
  | cons f rest ih =>
    obtain ⟨fuel, rfl⟩ := Nat.exists_eq_add_one.mpr (Nat.zero_lt_of_lt hfuel)
    obtain ⟨rfl, hpath⟩ := hpath
    have hf : f ∈ heads i := by
      rw [← hrest]
      exact mem_append_right _ mem_cons_self
    have hnew : ∀ j, f ∉ p.heads j := by
      intro j hj
      obtain rfl := hg.chains.disjoint j i f (h.part j f hj).1 hf
      have hnodup := hg.chains.nodup j
      rw [← hrest, nodup_append] at hnodup
      exact hnodup.2.2 f hj f mem_cons_self rfl
    have hlt := (hg.bound i f hf).2.1
    rw [copyHeads, (h.kept.mhead f hlt).1]
    refine (newmhead_ends mem t _).bind ?_
    rintro mem' _ rfl
    have hadd := h.addHead hf hnew
    generalize ht : (t.newmhead (s.from f)).chain «to» i ((p.heads i).map p.newHead).getLast? t.nmhead = t' at hadd ⊢
    have hself : (p.addHead i f t.nmhead).newHead f = t.nmhead := update_self _ _ _
    have hnone : (p.addHead i f t.nmhead).mounts f = [] := update_self _ _ _
    have hheads : (p.addHead i f t.nmhead).heads i = p.heads i ++ [f] := update_self _ _ _
    have hin : f ∈ (p.addHead i f t.nmhead).heads i := by
      rw [hheads]
      exact mem_append_right _ mem_cons_self
    have hlen : (mounts f).length < t'.nmount + 1 :=
      (hg.length_lt hf).trans_le (Nat.succ_le_succ hadd.grown.2.1)
    have hinner := @copyMounts_spec _ _ _ _ _ _ _ _ _ _ _ _ mem' (mounts f) hg hadd hin (by rw [hnone]; rfl)
      (hg.unions i f hf) hlen
    rw [hself, hnone, map_nil, List.getLast?_nil, ← (hadd.kept.mhead f hlt).2.1] at hinner
    refine hinner.bind ?_
    rintro mem'' r ⟨p', hcopy, hp'heads, hp'new, hp'mounts⟩
    have hheads' : p'.heads i = p.heads i ++ [f] := (congrFun hp'heads i).trans hheads
    have hwhole' : p'.Whole mounts := by
      intro j a ha
      rw [hp'heads] at ha
      rw [hp'mounts]
      by_cases haf : a = f
      · rw [haf, update_self]
      · rw [update_of_ne haf]
        rcases Progress.mem_addHead.mp ha with ha | ⟨-, heq⟩
        · exact (update_of_ne haf _ _).trans (hwhole j a ha)
        · exact absurd heq haf
    have hlink : ((p'.heads i).map p'.newHead).getLast? = some t.nmhead := by
      rw [hheads', map_append, map_singleton, hp'new, hself, List.getLast?_concat]
    have hhash : r.1.hash f = s.hash f := (hcopy.kept.mhead f hlt).2.2
    have hrest' : p'.heads i ++ rest = heads i := by
      rw [hheads', append_assoc]
      exact hrest
    have houter := @ih _ _ _ _ _ mem'' hcopy hwhole' hrest' (hhash ▸ hpath) (Nat.lt_of_succ_lt_succ hfuel)
    rw [hlink] at houter
    refine houter.imp ?_
    rintro r' ⟨p'', hcopy', hwhole'', hp''⟩
    refine ⟨p'', hcopy', hwhole'', hp''.trans ?_⟩
    rw [hp'heads]
    change update (update p.heads i (p.heads i ++ [f])) i (heads i) = _
    rw [update_idem]

/-- **The loop over the chains.** -/
theorem copyChains_spec {is : List Nat} (hg : Group s g heads mounts) (hne : g ≠ «to»)
    (h : Copying s heads mounts «to» t order p) (hwhole : p.Whole mounts) (hnodup : is.Nodup)
    (hempty : ∀ i ∈ is, p.heads i = []) :
    Ends mem (copyChains is mem t «to» g order) fun r =>
      ∃ p', Copying s heads mounts «to» r.1 r.2 p' ∧ p'.Whole mounts ∧
        ∀ j, p'.heads j = if j ∈ is then heads j else p.heads j := by
  induction is generalizing mem t order p with
  | nil => exact Ends.ret ⟨p, h, hwhole, fun j => (if_neg not_mem_nil).symm⟩
  | cons i is ih =>
    rw [nodup_cons] at hnodup
    have hnone := hempty i mem_cons_self
    have hlen : (heads i).length < t.nmhead + 1 := (hg.chain_lt i).trans_le (Nat.succ_le_succ h.grown.1)
    have hinner := @copyHeads_spec _ _ _ _ _ _ _ _ _ _ _ mem (heads i) hg h hwhole (by rw [hnone]; rfl)
      (hg.chains.path i)
      hlen
    rw [hnone, map_nil, List.getLast?_nil, ← congrFun (h.kept.group g hne) i] at hinner
    rw [copyChains]
    refine hinner.bind ?_
    rintro mem' r ⟨p', hcopy, hwhole', hheads⟩
    have hempty' : ∀ j ∈ is, p'.heads j = [] := by
      intro j hj
      have hji : j ≠ i := fun heq => hnodup.1 (heq ▸ hj)
      rw [hheads, update_of_ne hji]
      exact hempty j (mem_cons_of_mem _ hj)
    refine (@ih _ _ _ mem' hcopy hwhole' hnodup.2 hempty').imp ?_
    rintro r' ⟨p'', hcopy', hwhole'', hheads'⟩
    refine ⟨p'', hcopy', hwhole'', fun j => ?_⟩
    rw [hheads' j, hheads]
    by_cases hj : j ∈ is
    · rw [if_pos hj, if_pos (mem_cons_of_mem _ hj)]
    · rw [if_neg hj]
      by_cases hji : j = i
      · rw [hji, update_self, if_pos mem_cons_self]
      · rw [update_of_ne hji, if_neg (not_mem_cons_of_ne_of_not_mem hji hj)]

/-- **The last loop** numbers the copies along the chain. -/
theorem renumber_spec {l : List Addr} {c : Addr → Addr} (hpath : Path t.order order l none)
    (hcopy : ∀ m ∈ l, t.copy m = some (c m)) (hnodup : (l.map c).Nodup) (hfuel : l.length < fuel) :
    ∃ ids, renumber fuel t order = some { t with mountid := ids, ids := t.ids + l.length } ∧
      l.map (fun m => ids (c m)) = List.range' (t.ids + 1) l.length ∧ ∀ n, n ∉ l.map c → ids n = t.mountid n := by
  induction l generalizing fuel t order with
  | nil =>
    obtain ⟨fuel, rfl⟩ := Nat.exists_eq_add_one.mpr hfuel
    rw [path_nil.mp hpath]
    exact ⟨t.mountid, rfl, rfl, fun _ _ => rfl⟩
  | cons m l ih =>
    obtain ⟨fuel, rfl⟩ := Nat.exists_eq_add_one.mpr (Nat.zero_lt_of_lt hfuel)
    obtain ⟨rfl, hpath⟩ := hpath
    rw [map_cons, nodup_cons] at hnodup
    have hnext := ih (t := { t with mountid := update t.mountid (c m) (t.ids + 1), ids := t.ids + 1 }) hpath
      (fun m' hm' => hcopy m' (mem_cons_of_mem _ hm')) hnodup.2 (Nat.lt_of_succ_lt_succ hfuel)
    obtain ⟨ids, hrun, hids, hout⟩ := hnext
    have hlen : t.ids + 1 + l.length = t.ids + (m :: l).length := by
      rw [length_cons, Nat.add_assoc, Nat.add_comm 1]
    have hm : ids (c m) = t.ids + 1 := (hout (c m) hnodup.1).trans (update_self _ _ _)
    refine ⟨ids, ?_, ?_, fun n hn => ?_⟩
    · rw [renumber, hcopy m mem_cons_self, Option.bind_some]
      refine hrun.trans ?_
      rw [← hlen]
    · rw [map_cons, hids, hm, length_cons, List.range'_succ]
    · rw [map_cons, mem_cons, not_or] at hn
      exact (hout n hn.2).trans (update_of_ne hn.1 _ _)

/-- A group that has not been touched. -/
theorem Group.kept (hg : Group s g heads mounts) (h : Kept s t «to») (hne : g ≠ «to») (hhead : s.nmhead ≤ t.nmhead)
    (hmount : s.nmount ≤ t.nmount) (hids : s.ids ≤ t.ids) : Group t g heads mounts := by
  have hmountid : ∀ {m}, In heads mounts m → t.mountid m = s.mountid m := fun hm => (h.mount _ (hg.lt hm)).1
  refine ⟨⟨fun i => ?_, hg.chains.disjoint⟩, fun i f hf => ?_, hg.disjoint, fun i f hf => ?_,
    fun i f j f' m m' hf hf' hm hm' heq => ?_⟩
  · rw [h.group g hne]
    exact (hg.chains.path i).frame fun f hf => (h.mhead f (hg.bound i f hf).2.1).2.2
  · rw [(h.mhead f (hg.bound i f hf).2.1).2.1]
    exact (hg.unions i f hf).frame fun m hm => (h.mount m (hg.lt ⟨i, f, hf, hm⟩)).2.1
  · obtain ⟨hi, hlt, hm⟩ := hg.bound i f hf
    refine ⟨hi, hlt.trans_le hhead, fun m hmf => ?_⟩
    rw [hmountid ⟨i, f, hf, hmf⟩]
    exact ⟨(hm m hmf).1.trans_le hmount, (hm m hmf).2.trans hids⟩
  · rw [hmountid ⟨i, f, hf, hm⟩, hmountid ⟨j, f', hf', hm'⟩] at heq
    exact hg.distinct i f j f' m m' hf hf' hm hm' heq

theorem Copying.start (s : Heap) (heads : Nat → List Addr) (mounts : Addr → List Addr) (hnew : ∀ i, s.mnthash «to» i = none) :
    Copying s heads mounts «to» s none ⟨fun _ => [], fun _ => [], id, id, []⟩ where
  kept := Kept.refl s «to»
  grown := ⟨Nat.le_refl _, Nat.le_refl _, Nat.le_refl _⟩
  part _ _ h := nomatch h
  chains := ⟨hnew, fun _ _ _ h => nomatch h⟩
  unions _ _ h := nomatch h
  head _ _ h := nomatch h
  mount _ _ h := nomatch h
  heads_inj _ _ _ _ h := nomatch h
  mounts_inj _ _ h := nomatch h
  order := rfl
  sorted := List.Pairwise.nil
  mem _ := iff_of_false not_mem_nil fun ⟨_, _, h, _⟩ => nomatch h

/-- The unions of the copies, by their own heads. -/
theorem Copying.unions_of (h : Copying s heads mounts «to» t order p) :
    ∃ mounts' : Addr → List Addr, ∀ i, ∀ f ∈ p.heads i, mounts' (p.newHead f) = (p.mounts f).map p.newMount := by
  classical
  refine ⟨fun a => if h : ∃ f, (∃ i, f ∈ p.heads i) ∧ p.newHead f = a then (p.mounts h.choose).map p.newMount else [],
    fun i f hf => ?_⟩
  have hex : ∃ f', (∃ i, f' ∈ p.heads i) ∧ p.newHead f' = p.newHead f := ⟨f, ⟨i, hf⟩, rfl⟩
  obtain ⟨⟨j, hj⟩, heq⟩ := hex.choose_spec
  have hsame := h.heads_inj j _ i f hj hf heq
  change (if h : ∃ f', (∃ i, f' ∈ p.heads i) ∧ p.newHead f' = p.newHead f then (p.mounts h.choose).map p.newMount
    else []) = _
  rw [dif_pos hex, hsame]

/-- All has been visited, and the copies are numbered. -/
theorem Copying.copied (hg : Group s g heads mounts) (h : Copying s heads mounts «to» t order p) (hwhole : p.Whole mounts)
    (hheads : p.heads = heads) :
    ∃ u, renumber (t.nmount + 1) t order = some u ∧ Kept s u «to» ∧ (s.nmhead ≤ u.nmhead ∧ s.nmount ≤ u.nmount ∧ s.ids ≤ u.ids) ∧
      ∃ heads' mounts' newHead newMount, Group u «to» heads' mounts' ∧
        Copied s u heads heads' mounts mounts' newHead newMount := by
  have hcopies : ∀ m ∈ p.order, ∃ i, ∃ f ∈ p.heads i, m ∈ p.mounts f := fun m hm => (h.mem m).mp hm
  have hnodup : (p.order.map p.newMount).Nodup :=
    List.Nodup.map_on (fun m hm m' hm' heq => h.mounts_inj m m' (hcopies m hm) (hcopies m' hm') heq) h.order.nodup
  have hlt : ∀ m ∈ p.order, m < s.nmount := fun m hm => hg.lt (h.sub (hcopies m hm))
  have hfuel : p.order.length < t.nmount + 1 := h.order.length_lt fun m hm => (hlt m hm).trans_le h.grown.2.1
  obtain ⟨ids, hrun, hids, hout⟩ := renumber_spec h.order
    (fun m hm => by
      obtain ⟨i, f, hf, hmf⟩ := hcopies m hm
      exact (h.mount i f hf m hmf).2.1) hnodup hfuel
  have hpair : p.order.Pairwise fun m m' => ids (p.newMount m) < ids (p.newMount m') := by
    have hrange := pairwise_lt_range' (s := t.ids + 1) (n := p.order.length)
    rwa [← hids, pairwise_map] at hrange
  have hmem : ∀ {m}, In heads mounts m → m ∈ p.order := by
    rintro m ⟨i, f, hf, hm⟩
    rw [← hheads] at hf
    rw [← hwhole i f hf] at hm
    exact (h.mem m).mpr ⟨i, f, hf, hm⟩
  obtain ⟨mounts', hmounts'⟩ := h.unions_of
  refine ⟨_, hrun, ⟨h.kept.group, h.kept.mhead, fun m hm => ?_⟩,
    ⟨h.grown.1, h.grown.2.1, h.grown.2.2.trans (Nat.le_add_right _ _)⟩, fun i => (heads i).map p.newHead, mounts',
    p.newHead, p.newMount, ?_, ?_⟩
  · have hm' : m ∉ p.order.map p.newMount := by
      intro hmem
      obtain ⟨m', hm', heq⟩ := mem_map.mp hmem
      obtain ⟨i, f, hf, hmf⟩ := hcopies m' hm'
      exact absurd (heq ▸ (h.mount i f hf m' hmf).1.1) (Nat.not_le_of_lt hm)
    obtain ⟨h1, hrest⟩ := h.kept.mount m hm
    exact ⟨(hout m hm').trans h1, hrest⟩
  · have hchains := h.chains
    rw [hheads] at hchains
    have hnew : ∀ {i a n}, a ∈ (heads i).map p.newHead → n ∈ mounts' a → ∃ m ∈ p.order, p.newMount m = n ∧
        ∃ f ∈ heads i, p.newHead f = a ∧ m ∈ mounts f := by
      intro i a n ha hn
      obtain ⟨f, hf, rfl⟩ := mem_map.mp ha
      rw [← hheads] at hf
      rw [hmounts' i f hf, hwhole i f hf] at hn
      obtain ⟨m, hm, heq⟩ := mem_map.mp hn
      rw [hheads] at hf
      exact ⟨m, hmem ⟨i, f, hf, hm⟩, heq, f, hf, rfl, hm⟩
    refine ⟨hchains, fun i a ha => ?_, fun i a j b n ha hb hna hnb => ?_, fun i a ha => ?_,
      fun i a j b n n' ha hb hna hnb heq => ?_⟩
    · obtain ⟨f, hf, rfl⟩ := mem_map.mp ha
      rw [← hheads] at hf
      rw [hmounts' i f hf]
      exact h.unions i f hf
    · obtain ⟨m, hm, heq, f, hf, rfl, hmf⟩ := hnew ha hna
      obtain ⟨m', hm', heq', f', hf', rfl, hmf'⟩ := hnew hb hnb
      obtain rfl := h.mounts_inj m m' (hcopies m hm) (hcopies m' hm') (heq.trans heq'.symm)
      rw [hg.disjoint i f j f' m hf hf' hmf hmf']
    · obtain ⟨f, hf, rfl⟩ := mem_map.mp ha
      have hf' := hf
      rw [← hheads] at hf'
      refine ⟨(hg.bound i f hf).1, (h.head i f hf').2.1, fun n hn => ?_⟩
      obtain ⟨m, hm, rfl, -⟩ := hnew ha hn
      obtain ⟨j, f'', hf'', hmf⟩ := hcopies m hm
      refine ⟨(h.mount j f'' hf'' m hmf).1.2, ?_⟩
      have hin : ids (p.newMount m) ∈ List.range' (t.ids + 1) p.order.length := by
        rw [← hids]
        exact mem_map.mpr ⟨m, hm, rfl⟩
      have hle := (mem_range'_1.mp hin).2
      change ids (p.newMount m) ≤ t.ids + p.order.length
      omega
    · obtain ⟨m, hm, rfl, -⟩ := hnew ha hna
      obtain ⟨m', hm', rfl, -⟩ := hnew hb hnb
      rcases Nat.lt_trichotomy (s.mountid m) (s.mountid m') with hlt' | hsame | hgt
      · exact absurd heq ((SortedChain.lt_iff_lt h.sorted hpair hm hm').mp hlt').ne
      · rw [hg.id_inj (h.sub (hcopies m hm)) (h.sub (hcopies m' hm')) hsame]
      · exact absurd heq.symm ((SortedChain.lt_iff_lt h.sorted hpair hm' hm).mp hgt).ne
  · refine ⟨fun i => rfl, fun i f hf => ?_, fun i f hf m hm => ?_, fun m m' hm hm' => ?_⟩
    · rw [← hheads] at hf
      rw [hmounts' i f hf, hwhole i f hf]
      exact ⟨(h.head i f hf).2.2, rfl⟩
    · rw [← hheads] at hf
      rw [← hwhole i f hf] at hm
      exact (h.mount i f hf m hm).2.2
    · exact (SortedChain.lt_iff_lt h.sorted hpair (hmem hm) (hmem hm')).symm

/-- **`pgrpcpy` makes a copy** of a group in a new one, unless a wait for memory is interrupted, and leaves the group
as it was. -/
theorem pgrpcpy_copies (hg : Group s g heads mounts) (hne : g ≠ «to») (hnew : ∀ i, s.mnthash «to» i = none) :
    (∃ t, pgrpcpy none s «to» g = some t) ∧
      ∀ mem t, pgrpcpy mem s «to» g = some t → Kept s t «to» ∧ Group t g heads mounts ∧
        ∃ heads' mounts' newHead newMount, Group t «to» heads' mounts' ∧
          Copied s t heads heads' mounts mounts' newHead newMount := by
  have hwhole : (⟨fun _ => [], fun _ => [], id, id, []⟩ : Progress).Whole mounts := fun _ _ h => nomatch h
  have hends : ∀ mem, Ends mem (copyChains (List.range mnthash) mem s «to» g none) fun r =>
      ∃ p, Copying s heads mounts «to» r.1 r.2 p ∧ p.Whole mounts ∧ p.heads = heads := by
    intro mem
    refine (copyChains_spec hg hne (Copying.start s heads mounts hnew) hwhole nodup_range fun _ _ => rfl).imp ?_
    rintro r ⟨p, h, hwhole, hheads⟩
    refine ⟨p, h, hwhole, funext fun i => ?_⟩
    rw [hheads]
    by_cases hi : i ∈ List.range mnthash
    · rw [if_pos hi]
    · rw [if_neg hi]
      refine (List.eq_nil_iff_forall_not_mem.mpr fun f hf => ?_).symm
      exact hi (List.mem_range.mpr (hg.bound i f hf).1)
  constructor
  · obtain ⟨mem', r, hr⟩ := (hends none).isSome
    obtain ⟨p, h, hwhole, hheads⟩ := (hends none).of_some hr
    obtain ⟨u, hu, -⟩ := h.copied hg hwhole hheads
    refine ⟨u, ?_⟩
    rw [pgrpcpy, hr]
    exact hu
  · intro mem t ht
    obtain ⟨⟨mem', r⟩, hr, hrun⟩ := Option.bind_eq_some_iff.mp ht
    obtain ⟨p, h, hwhole, hheads⟩ := (hends mem).of_some hr
    obtain ⟨u, hu, hkept, ⟨h1, h2, h3⟩, hcopy⟩ := h.copied hg hwhole hheads
    rw [hu] at hrun
    cases hrun
    exact ⟨hkept, hg.kept hkept hne h1 h2 h3, hcopy⟩

/-- One mount point; the second of its mounts is the older one. -/
def bound : Heap where
  mnthash g i := if g = 0 ∧ i = 0 then some 0 else none
  nmhead := 1
  «from» _ := 7
  mount _ := some 0
  hash _ := none
  nmount := 2
  mountid m := 2 - m
  next m := if m = 0 then some 1 else none
  head _ := 0
  copy _ := none
  order _ := none
  «to» m := 8 + m
  mflag _ := 0
  spec _ := none
  ref _ := 3
  ids := 2

theorem bound_group : Group bound 0 (fun i => if i = 0 then [0] else []) fun _ => [0, 1] := by
  have hheads : ∀ {i f : Nat}, f ∈ (if i = 0 then [0] else []) → i = 0 ∧ f = 0 := by
    intro i f hf
    split at hf
    · exact ⟨‹_›, mem_singleton.mp hf⟩
    · cases hf
  have hmounts : ∀ {m : Nat}, m ∈ [0, 1] → m = 0 ∨ m = 1 := by
    intro m hm
    simpa using hm
  refine ⟨⟨fun i => ?_, fun i j a hi hj => (hheads hi).1.trans (hheads hj).1.symm⟩, fun i f hf => ⟨rfl, rfl, rfl⟩,
    fun i f j f' m hf hf' _ _ => (hheads hf).2.trans (hheads hf').2.symm, fun i f hf => ?_,
    fun i f j f' m m' _ _ hm hm' heq => ?_⟩
  · by_cases hi : i = 0
    · rw [hi]
      exact ⟨rfl, rfl⟩
    · rw [if_neg hi]
      exact if_neg fun h => hi h.2
  · obtain ⟨rfl, rfl⟩ := hheads hf
    refine ⟨by decide, by decide, fun m hm => ?_⟩
    rcases hmounts hm with rfl | rfl <;> decide
  · change 2 - m = 2 - m' at heq
    rcases hmounts hm with rfl | rfl <;> rcases hmounts hm' with rfl | rfl <;> first | rfl | cases heq

theorem pgrpcpy_copies_bound : ∃ t, pgrpcpy none bound 1 0 = some t ∧ t.mountid 2 = 6 ∧ t.mountid 3 = 5 ∧
    ∃ heads' mounts' newHead newMount, Group t 1 heads' mounts' ∧
      Copied bound t (fun i => if i = 0 then [0] else []) heads' (fun _ => [0, 1]) mounts' newHead newMount := by
  have hnew : ∀ i, bound.mnthash 1 i = none := fun _ => rfl
  obtain ⟨⟨t, ht⟩, hall⟩ := pgrpcpy_copies bound_group Nat.zero_ne_one hnew
  obtain ⟨-, -, hcopy⟩ := hall none t ht
  have hids : ((pgrpcpy none bound 1 0).map fun t => (t.mountid 2, t.mountid 3)) = some (6, 5) := by decide +kernel
  rw [ht] at hids
  obtain ⟨h2, h3⟩ := Prod.mk.inj (Option.some.inj hids)
  exact ⟨t, ht, h2, h3, hcopy⟩

end PgrpCpy
