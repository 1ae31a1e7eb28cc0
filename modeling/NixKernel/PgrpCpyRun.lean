import NixKernel.PgrpCpy

/-!
# What `pgrpcpy` has done so far

The loops are three deep, and each of them adds to what is there.
-/

namespace PgrpCpy

open LinkList ChainTable Function List
open MountTable (smalloc mnthash)

/-- The call is interrupted, which needs a bound on the memory, or it returns something that has `P`. -/
def Ends {α : Type} (mem : Option Nat) (r : Option (Option Nat × α)) (P : α → Prop) : Prop :=
  (r = none ∧ mem ≠ none) ∨ ∃ mem' a, r = some (mem', a) ∧ (mem = none → mem' = none) ∧ P a

section Ends

variable {α β : Type} {mem : Option Nat} {r : Option (Option Nat × α)} {k : Option Nat × α → Option (Option Nat × β)}
  {P : α → Prop} {Q : β → Prop} {a : α}

theorem Ends.ret (h : P a) : Ends mem (some (mem, a)) P := Or.inr ⟨mem, a, rfl, id, h⟩

theorem Ends.bind (h : Ends mem r P) (hk : ∀ mem' a, P a → Ends mem' (k (mem', a)) Q) : Ends mem (r.bind k) Q := by
  rcases h with ⟨rfl, hmem⟩ | ⟨mem', a, rfl, hmem, ha⟩
  · exact Or.inl ⟨rfl, hmem⟩
  · rcases hk mem' a ha with ⟨hnone, hmem'⟩ | ⟨mem'', b, hsome, hmem', hb⟩
    · exact Or.inl ⟨hnone, fun heq => hmem' (hmem heq)⟩
    · exact Or.inr ⟨mem'', b, hsome, fun heq => hmem' (hmem heq), hb⟩

theorem Ends.imp {P' : α → Prop} (h : Ends mem r P) (hP : ∀ a, P a → P' a) : Ends mem r P' := by
  rcases h with hnone | ⟨mem', a, hsome, hmem, ha⟩
  · exact Or.inl hnone
  · exact Or.inr ⟨mem', a, hsome, hmem, hP a ha⟩

theorem Ends.of_some {mem' : Option Nat} (h : Ends mem r P) (hr : r = some (mem', a)) : P a := by
  rcases h with ⟨hnone, -⟩ | ⟨mem'', b, hsome, -, hb⟩
  · rw [hr] at hnone
    cases hnone
  · rw [hr] at hsome
    cases hsome
    exact hb

theorem Ends.isSome (h : Ends none r P) : ∃ mem' a, r = some (mem', a) := by
  rcases h with ⟨-, hne⟩ | ⟨mem', a, hsome, -⟩
  · exact absurd rfl hne
  · exact ⟨mem', a, hsome⟩

theorem smalloc_ends (mem : Option Nat) :
    (smalloc mem = none ∧ mem ≠ none) ∨ ∃ mem', smalloc mem = some mem' ∧ (mem = none → mem' = none) := by
  cases mem with
  | none => exact Or.inr ⟨none, rfl, id⟩
  | some n =>
    cases n with
    | zero => exact Or.inl ⟨rfl, nofun⟩
    | succ n => exact Or.inr ⟨some n, rfl, nofun⟩

theorem newmhead_ends (mem : Option Nat) (s : Heap) (c : Addr) :
    Ends mem (returned (newmhead mem s c)) (· = s.newmhead c) := by
  rw [newmhead]
  rcases smalloc_ends mem with ⟨hnone, hmem⟩ | ⟨mem', hsome, hmem⟩
  · rw [hnone]
    exact Or.inl ⟨rfl, hmem⟩
  · rw [hsome]
    exact Or.inr ⟨mem', _, rfl, hmem, rfl⟩

theorem newmount_ends (mem : Option Nat) (s : Heap) (mh c : Addr) (flag : Nat) (spec : Option String) :
    Ends mem (returned (newmount mem s mh c flag spec)) (· = s.newmount mh c flag spec) := by
  rw [newmount]
  rcases smalloc_ends mem with ⟨hnone, hmem⟩ | ⟨mem', hsome, hmem⟩
  · rw [hnone]
    exact Or.inl ⟨rfl, hmem⟩
  · rw [hsome]
    cases spec with
    | none => exact Or.inr ⟨mem', _, rfl, hmem, rfl⟩
    | some spec =>
      dsimp only
      rcases smalloc_ends mem' with ⟨hnone, hmem'⟩ | ⟨mem'', hsome', hmem'⟩
      · rw [hnone]
        exact Or.inl ⟨rfl, fun heq => hmem' (hmem heq)⟩
      · rw [hsome']
        exact Or.inr ⟨mem'', _, rfl, fun heq => hmem' (hmem heq), rfl⟩

end Ends

/-- The heads and mounts that have been visited, where their copies are, and the chain `order`. -/
structure Progress where
  heads : Nat → List Addr
  mounts : Addr → List Addr
  newHead : Addr → Addr
  newMount : Addr → Addr
  order : List Addr

/-- **What has been copied** of the group with `heads` and `mounts`, from `s` to `t`. -/
structure Copying (s : Heap) (heads : Nat → List Addr) (mounts : Addr → List Addr) («to» : Addr) (t : Heap)
    (order : Option Addr) (p : Progress) : Prop where
  kept : Kept s t «to»
  grown : s.nmhead ≤ t.nmhead ∧ s.nmount ≤ t.nmount ∧ s.ids ≤ t.ids
  part : ∀ i, ∀ f ∈ p.heads i, f ∈ heads i ∧ ∀ m ∈ p.mounts f, m ∈ mounts f
  chains : Chains (t.mnthash «to») t.hash fun i => (p.heads i).map p.newHead
  unions : ∀ i, ∀ f ∈ p.heads i, Path t.next (t.mount (p.newHead f)) ((p.mounts f).map p.newMount) none
  head : ∀ i, ∀ f ∈ p.heads i, s.nmhead ≤ p.newHead f ∧ p.newHead f < t.nmhead ∧ t.from (p.newHead f) = s.from f
  mount : ∀ i, ∀ f ∈ p.heads i, ∀ m ∈ p.mounts f, (s.nmount ≤ p.newMount m ∧ p.newMount m < t.nmount) ∧
    t.copy m = some (p.newMount m) ∧ t.head (p.newMount m) = p.newHead f ∧ t.to (p.newMount m) = s.to m ∧
    t.mflag (p.newMount m) = s.mflag m ∧ t.spec (p.newMount m) = s.spec m
  heads_inj : ∀ i f j f', f ∈ p.heads i → f' ∈ p.heads j → p.newHead f = p.newHead f' → f = f'
  mounts_inj : ∀ m m', In p.heads p.mounts m → In p.heads p.mounts m' → p.newMount m = p.newMount m' → m = m'
  order : Path t.order order p.order none
  sorted : p.order.Pairwise fun m m' => s.mountid m < s.mountid m'
  mem : ∀ m, m ∈ p.order ↔ In p.heads p.mounts m

variable {s t : Heap} {heads : Nat → List Addr} {mounts : Addr → List Addr} {g «to» : Addr} {order : Option Addr}
  {p : Progress} {i f m : Addr}

theorem Kept.refl (s : Heap) («to» : Addr) : Kept s s «to» :=
  ⟨fun _ _ => rfl, fun _ _ => ⟨rfl, rfl, rfl⟩, fun _ _ => ⟨rfl, rfl, rfl, rfl, rfl, rfl⟩⟩

/-- What `store` may write. -/
theorem store_snd_of_ne {owner v q : Option Addr} {next : Addr → Option Addr} {a : Addr} (h : owner ≠ some a) :
    (store owner v q next).2 a = next a := by
  cases owner with
  | none => rfl
  | some b => exact update_of_ne (fun heq : a = b => h (congrArg some heq.symm)) _ _

/-- A head is added to the copy, at the end of its chain. -/
def Progress.addHead (p : Progress) (i f n : Addr) : Progress :=
  { p with
    heads := update p.heads i (p.heads i ++ [f])
    mounts := update p.mounts f []
    newHead := update p.newHead f n }

theorem Progress.mem_addHead {n j a : Addr} : a ∈ (p.addHead i f n).heads j ↔ a ∈ p.heads j ∨ (j = i ∧ a = f) := by
  change a ∈ update p.heads i (p.heads i ++ [f]) j ↔ _
  by_cases hj : j = i
  · rw [hj, update_self, mem_append, mem_singleton]
    exact or_congr_right (and_iff_right rfl).symm
  · rw [update_of_ne hj]
    exact (or_iff_left fun h => hj h.1).symm

theorem Progress.in_addHead {n : Addr} (hf : ∀ j, f ∉ p.heads j) :
    In (p.addHead i f n).heads (p.addHead i f n).mounts m ↔ In p.heads p.mounts m := by
  constructor
  · rintro ⟨j, a, ha, hm⟩
    change m ∈ update p.mounts f [] a at hm
    rcases mem_addHead.mp ha with ha | ⟨-, rfl⟩
    · have haf : a ≠ f := fun heq => hf j (heq ▸ ha)
      rw [update_of_ne haf] at hm
      exact ⟨j, a, ha, hm⟩
    · rw [update_self] at hm
      cases hm
  · rintro ⟨j, a, ha, hm⟩
    have haf : a ≠ f := fun heq => hf j (heq ▸ ha)
    refine ⟨j, a, mem_addHead.mpr (Or.inl ha), ?_⟩
    change m ∈ update p.mounts f [] a
    rwa [update_of_ne haf]

theorem Copying.addHead (h : Copying s heads mounts «to» t order p) (hf : f ∈ heads i) (hnew : ∀ j, f ∉ p.heads j) :
    Copying s heads mounts «to»
      ((t.newmhead (s.from f)).chain «to» i ((p.heads i).map p.newHead).getLast? t.nmhead) order
      (p.addHead i f t.nmhead) := by
  have hne : ∀ {j a}, a ∈ p.heads j → a ≠ f := fun ha heq => hnew _ (heq ▸ ha)
  have hnewHead : ∀ {j a}, a ∈ p.heads j → update p.newHead f t.nmhead a = p.newHead a :=
    fun ha => update_of_ne (hne ha) _ _
  have hnewMounts : ∀ {j a}, a ∈ p.heads j → update p.mounts f [] a = p.mounts a :=
    fun ha => update_of_ne (hne ha) _ _
  have hlt : ∀ {j a}, a ∈ p.heads j → p.newHead a ≠ t.nmhead := fun ha => (h.head _ _ ha).2.1.ne
  -- the pointer that is written is not one of the originals
  have hlast : ∀ {a}, a < s.nmhead → ((p.heads i).map p.newHead).getLast? ≠ some a := by
    intro a ha heq
    obtain ⟨b, hb, hab⟩ := mem_map.mp (mem_of_getLast? heq)
    exact absurd (hab ▸ (h.head i b hb).1) (Nat.not_le_of_lt ha)
  have hgrown : s.nmhead ≤ t.nmhead + 1 := h.grown.1.trans (Nat.le_succ _)
  refine ⟨⟨fun g hg => ?_, fun a ha => ?_, h.kept.mount⟩, ⟨hgrown, h.grown.2⟩, fun j a ha => ?_, ?_, fun j a ha => ?_,
    fun j a ha => ?_, fun j a ha m hm => ?_, fun j a k b ha hb heq => ?_, fun m m' hm hm' => ?_, h.order, h.sorted,
    fun m => ?_⟩
  · exact (update_of_ne hg _ _).trans (h.kept.group g hg)
  · have hat : a ≠ t.nmhead := (Nat.lt_of_lt_of_le ha h.grown.1).ne
    obtain ⟨h1, h2, h3⟩ := h.kept.mhead a ha
    exact ⟨(update_of_ne hat _ _).trans h1, (update_of_ne hat _ _).trans h2,
      ((store_snd_of_ne (hlast ha)).trans (update_of_ne hat _ _)).trans h3⟩
  · change _ ∧ ∀ m ∈ update p.mounts f [] a, _
    rcases Progress.mem_addHead.mp ha with ha | ⟨rfl, rfl⟩
    · rw [hnewMounts ha]
      exact h.part j a ha
    · rw [update_self]
      exact ⟨hf, nofun⟩
  · have hfree : ∀ j, t.nmhead ∉ (p.heads j).map p.newHead := by
      intro j hmem
      obtain ⟨a, ha, heq⟩ := mem_map.mp hmem
      exact hlt ha heq
    have hconcat := h.chains.concat hfree i
    have htab : (fun j => ((p.addHead i f t.nmhead).heads j).map (p.addHead i f t.nmhead).newHead) =
        update (fun j => (p.heads j).map p.newHead) i ((p.heads i).map p.newHead ++ [t.nmhead]) := by
      funext j
      change (update p.heads i (p.heads i ++ [f]) j).map (update p.newHead f t.nmhead) = _
      have hold : (p.heads j).map (update p.newHead f t.nmhead) = (p.heads j).map p.newHead :=
        map_congr_left fun a ha => hnewHead ha
      by_cases hj : j = i
      · subst hj
        rw [update_self, update_self, map_append, hold, map_singleton, update_self]
      · rw [update_of_ne hj, update_of_ne hj, hold]
    have hself : ((t.newmhead (s.from f)).chain «to» i ((p.heads i).map p.newHead).getLast? t.nmhead).mnthash «to» =
        update (t.mnthash «to») i
          (store ((p.heads i).map p.newHead).getLast? (some t.nmhead) (t.mnthash «to» i)
            (update t.hash t.nmhead none)).1 := update_self _ _ _
    rw [htab, hself]
    exact hconcat
  · change Path t.next (update t.mount t.nmhead none (update p.newHead f t.nmhead a))
      ((update p.mounts f [] a).map p.newMount) none
    rcases Progress.mem_addHead.mp ha with ha | ⟨-, rfl⟩
    · rw [hnewHead ha, hnewMounts ha, update_of_ne (hlt ha)]
      exact h.unions j a ha
    · rw [update_self, update_self, update_self]
      rfl
  · change s.nmhead ≤ update p.newHead f t.nmhead a ∧ update p.newHead f t.nmhead a < t.nmhead + 1 ∧
      update t.from t.nmhead (s.from f) (update p.newHead f t.nmhead a) = s.from a
    rcases Progress.mem_addHead.mp ha with ha | ⟨-, rfl⟩
    · rw [hnewHead ha, update_of_ne (hlt ha)]
      obtain ⟨hge, hle, hfrom⟩ := h.head j a ha
      exact ⟨hge, hle.trans (Nat.lt_succ_self _), hfrom⟩
    · rw [update_self, update_self]
      exact ⟨h.grown.1, Nat.lt_succ_self _, rfl⟩
  · change m ∈ update p.mounts f [] a at hm
    change _ ∧ _ ∧ t.head (p.newMount m) = update p.newHead f t.nmhead a ∧ _
    rcases Progress.mem_addHead.mp ha with ha | ⟨-, rfl⟩
    · rw [hnewMounts ha] at hm
      rw [hnewHead ha]
      exact h.mount j a ha m hm
    · rw [update_self] at hm
      cases hm
  · change update p.newHead f t.nmhead a = update p.newHead f t.nmhead b at heq
    rcases Progress.mem_addHead.mp ha with ha | ⟨-, haf⟩
    · rcases Progress.mem_addHead.mp hb with hb | ⟨-, hbf⟩
      · rw [hnewHead ha, hnewHead hb] at heq
        exact h.heads_inj j a k b ha hb heq
      · rw [hnewHead ha, hbf, update_self] at heq
        exact absurd heq (hlt ha)
    · rcases Progress.mem_addHead.mp hb with hb | ⟨-, hbf⟩
      · rw [hnewHead hb, haf, update_self] at heq
        exact absurd heq.symm (hlt hb)
      · exact haf.trans hbf.symm
  · exact h.mounts_inj m m' ((Progress.in_addHead hnew).mp hm) ((Progress.in_addHead hnew).mp hm')
  · exact (h.mem m).trans (Progress.in_addHead hnew).symm

/-- A mount is added to the copy, at the end of its union, and the original to the chain `order`. -/
def Progress.addMount (p : Progress) (f m n : Addr) (order : List Addr) : Progress :=
  { p with
    mounts := update p.mounts f (p.mounts f ++ [m])
    newMount := update p.newMount m n
    order := order }

theorem Progress.mem_addMount {n a b : Addr} {l : List Addr} :
    b ∈ (p.addMount f m n l).mounts a ↔ b ∈ p.mounts a ∨ (a = f ∧ b = m) := by
  change b ∈ update p.mounts f (p.mounts f ++ [m]) a ↔ _
  by_cases ha : a = f
  · rw [ha, update_self, mem_append, mem_singleton]
    exact or_congr_right (and_iff_right rfl).symm
  · rw [update_of_ne ha]
    exact (or_iff_left fun h => ha h.1).symm

theorem Progress.in_addMount {n b : Addr} {l : List Addr} (hf : f ∈ p.heads i) :
    In (p.addMount f m n l).heads (p.addMount f m n l).mounts b ↔ In p.heads p.mounts b ∨ b = m := by
  constructor
  · rintro ⟨j, a, ha, hb⟩
    rcases mem_addMount.mp hb with hb | ⟨-, hbm⟩
    · exact Or.inl ⟨j, a, ha, hb⟩
    · exact Or.inr hbm
  · rintro (⟨j, a, ha, hb⟩ | hbm)
    · exact ⟨j, a, ha, mem_addMount.mpr (Or.inl hb)⟩
    · exact ⟨i, f, hf, mem_addMount.mpr (Or.inr ⟨rfl, hbm⟩)⟩

/-- Mounts that have been visited are mounts of the group. -/
theorem Copying.sub (h : Copying s heads mounts «to» t order p) (hm : In p.heads p.mounts m) : In heads mounts m := by
  obtain ⟨j, a, ha, hma⟩ := hm
  obtain ⟨ha', hsub⟩ := h.part j a ha
  exact ⟨j, a, ha', hsub m hma⟩

theorem Group.lt (hg : Group s g heads mounts) (hm : In heads mounts m) : m < s.nmount := by
  obtain ⟨j, a, ha, hma⟩ := hm
  exact ((hg.bound j a ha).2.2 m hma).1

theorem Group.id_inj (hg : Group s g heads mounts) {m' : Addr} (hm : In heads mounts m) (hm' : In heads mounts m')
    (heq : s.mountid m = s.mountid m') : m = m' := by
  obtain ⟨j, a, ha, hma⟩ := hm
  obtain ⟨k, b, hb, hmb⟩ := hm'
  exact hg.distinct j a k b m m' ha hb hma hmb heq

/-- `pgrpinsert`, of a mount that has not been visited. -/
theorem Copying.insert (h : Copying s heads mounts «to» t order p) (hg : Group s g heads mounts) (hin : In heads mounts m)
    (hnew : ¬In p.heads p.mounts m) (mh : Addr) :
    ∃ order' links l, pgrpinsert ((t.newmount mh (s.to m) (s.mflag m) (s.spec m)).setCopy m t.nmount) order m =
      some ({ (t.newmount mh (s.to m) (s.mflag m) (s.spec m)).setCopy m t.nmount with order := links }, order') ∧
      Path links order' l none ∧ (l.Pairwise fun m m' => s.mountid m < s.mountid m') ∧
      ∀ b, b ∈ l ↔ In p.heads p.mounts b ∨ b = m := by
  have hlt : ∀ b ∈ p.order, b < s.nmount := fun b hb => hg.lt (h.sub ((h.mem b).mp hb))
  have hkey : ∀ b, b < s.nmount → update t.mountid t.nmount (t.ids + 1) b = s.mountid b := by
    intro b hb
    rw [update_of_ne (Nat.lt_of_lt_of_le hb h.grown.2.1).ne]
    exact (h.kept.mount b hb).1
  have hpath : Path (update t.order t.nmount none) order p.order none :=
    h.order.update_ne fun hmem => Nat.not_le_of_lt (hlt _ hmem) h.grown.2.1
  have hx : m ∉ p.order := fun hmem => hnew ((h.mem m).mp hmem)
  have hfuel : p.order.length < t.nmount + 1 + 1 :=
    (h.order.length_lt fun b hb => (hlt b hb).trans_le h.grown.2.1).trans (Nat.lt_succ_self _)
  have hsorted : p.order.Pairwise fun a b =>
      update t.mountid t.nmount (t.ids + 1) a < update t.mountid t.nmount (t.ids + 1) b := by
    refine h.sorted.imp_of_mem fun ha hb hab => ?_
    rwa [hkey _ (hlt _ ha), hkey _ (hlt _ hb)]
  have hne : ∀ a ∈ p.order,
      update t.mountid t.nmount (t.ids + 1) a ≠ update t.mountid t.nmount (t.ids + 1) m := by
    intro a ha heq
    rw [hkey a (hlt a ha), hkey m (hg.lt hin)] at heq
    exact hx (hg.id_inj (h.sub ((h.mem a).mp ha)) hin heq ▸ ha)
  obtain ⟨order', links, l, hrun, hpath', hsorted', hmem⟩ :=
    SortedChain.insert_spec hpath hx hfuel hsorted hne
  refine ⟨order', links, l, ?_, hpath', ?_, fun b => ?_⟩
  · rw [pgrpinsert]
    change (SortedChain.insert (t.nmount + 1 + 1) (update t.mountid t.nmount (t.ids + 1)) m order
      (update t.order t.nmount none)).map _ = _
    rw [hrun]
    rfl
  · have hlow : ∀ b ∈ l, b < s.nmount := by
      intro b hb
      rcases (hmem b).mp hb with hb | rfl
      · exact hlt b hb
      · exact hg.lt hin
    refine hsorted'.imp_of_mem fun ha hb hab => ?_
    rwa [hkey _ (hlow _ ha), hkey _ (hlow _ hb)] at hab
  · rw [hmem, h.mem]

theorem Copying.addMount (h : Copying s heads mounts «to» t order p) (hg : Group s g heads mounts) (hf : f ∈ p.heads i)
    (hm : m ∈ mounts f) (hnew : ¬In p.heads p.mounts m) :
    ∃ u order' l,
      pgrpinsert ((t.newmount (p.newHead f) (s.to m) (s.mflag m) (s.spec m)).setCopy m t.nmount) order m =
        some (u, order') ∧
      Copying s heads mounts «to» (u.linkMount (p.newHead f) ((p.mounts f).map p.newMount).getLast? t.nmount) order'
        (p.addMount f m t.nmount l) := by
  have hfi := (h.part i f hf).1
  have hin : In heads mounts m := ⟨i, f, hfi, hm⟩
  obtain ⟨order', links, l, hrun, hpath, hsorted, hmem⟩ := h.insert hg hin hnew (p.newHead f)
  have hmlt : m < t.nmount := Nat.lt_of_lt_of_le (hg.lt hin) h.grown.2.1
  have hne : ∀ {j a b}, a ∈ p.heads j → b ∈ p.mounts a → b ≠ m := fun ha hb heq => hnew ⟨_, _, ha, heq ▸ hb⟩
  have hnewMount : ∀ {j a b}, a ∈ p.heads j → b ∈ p.mounts a → update p.newMount m t.nmount b = p.newMount b :=
    fun ha hb => update_of_ne (hne ha hb) _ _
  have hmap : ∀ {j a}, a ∈ p.heads j →
      (p.mounts a).map (update p.newMount m t.nmount) = (p.mounts a).map p.newMount :=
    fun ha => map_congr_left fun b hb => hnewMount ha hb
  have hfree : ∀ {j a}, a ∈ p.heads j → t.nmount ∉ (p.mounts a).map p.newMount := by
    intro j a ha hmem
    obtain ⟨b, hb, heq⟩ := mem_map.mp hmem
    exact absurd heq (h.mount j a ha b hb).1.2.ne
  -- the pointer that is written is not one of the originals
  have hlast : ∀ {b}, b < s.nmount → ((p.mounts f).map p.newMount).getLast? ≠ some b := by
    intro b hb heq
    obtain ⟨c, hc, hcb⟩ := mem_map.mp (mem_of_getLast? heq)
    exact absurd (hcb ▸ (h.mount i f hf c hc).1.1) (Nat.not_le_of_lt hb)
  have hnmount : ∀ {b}, b < s.nmount → b ≠ t.nmount := fun hb => (Nat.lt_of_lt_of_le hb h.grown.2.1).ne
  refine ⟨_, order', l, hrun, ⟨h.kept.group, fun a ha => ?_, fun b hb => ?_⟩,
    ⟨h.grown.1, h.grown.2.1.trans (Nat.le_succ _), h.grown.2.2.trans (Nat.le_succ _)⟩, fun j a ha => ?_, h.chains,
    fun j a ha => ?_, h.head, fun j a ha b hb => ?_, h.heads_inj, fun b b' hb hb' heq => ?_, hpath, hsorted,
    fun b => (hmem b).trans (Progress.in_addMount hf).symm⟩
  · obtain ⟨h1, h2, h3⟩ := h.kept.mhead a ha
    refine ⟨h1, (update_of_ne ?_ _ _).trans h2, h3⟩
    exact (Nat.lt_of_lt_of_le ha (h.head i f hf).1).ne
  · obtain ⟨h1, h2, h3, h4, h5, h6⟩ := h.kept.mount b hb
    have hbt := hnmount hb
    exact ⟨(update_of_ne hbt _ _).trans h1, ((store_snd_of_ne (hlast hb)).trans (update_of_ne hbt _ _)).trans h2,
      (update_of_ne hbt _ _).trans h3, (update_of_ne hbt _ _).trans h4, (update_of_ne hbt _ _).trans h5,
      (update_of_ne hbt _ _).trans h6⟩
  · obtain ⟨hmine, hsub⟩ := h.part j a ha
    refine ⟨hmine, fun b hb => ?_⟩
    rcases Progress.mem_addMount.mp hb with hb | ⟨haf, hbm⟩
    · exact hsub b hb
    · rw [haf, hbm]
      exact hm
  · change Path (store ((p.mounts f).map p.newMount).getLast? (some t.nmount) (t.mount (p.newHead f))
        (update t.next t.nmount none)).2
      (update t.mount (p.newHead f) (store ((p.mounts f).map p.newMount).getLast? (some t.nmount)
        (t.mount (p.newHead f)) (update t.next t.nmount none)).1 (p.newHead a))
      ((update p.mounts f (p.mounts f ++ [m]) a).map (update p.newMount m t.nmount)) none
    by_cases haf : a = f
    · rw [haf, update_self, update_self, map_append, hmap hf, map_singleton, update_self]
      refine (h.unions i f hf).insert (r := []) rfl ?_
      rw [append_nil]
      exact hfree hf
    · have hheads : p.newHead a ≠ p.newHead f := fun heq => haf (h.heads_inj j a i f ha hf heq)
      rw [update_of_ne haf, update_of_ne hheads, hmap ha]
      refine ((h.unions j a ha).update_ne (hfree ha)).store_ne fun b hb hmem => ?_
      obtain ⟨c, hc, hcb⟩ := mem_map.mp (mem_of_getLast? hb)
      obtain ⟨c', hc', hcb'⟩ := mem_map.mp hmem
      obtain rfl := h.mounts_inj c c' ⟨i, f, hf, hc⟩ ⟨j, a, ha, hc'⟩ (hcb.trans hcb'.symm)
      exact haf (hg.disjoint j a i f c (h.part j a ha).1 hfi ((h.part j a ha).2 c hc') ((h.part i f hf).2 c hc))
  · change (s.nmount ≤ update p.newMount m t.nmount b ∧ update p.newMount m t.nmount b < t.nmount + 1) ∧
      update (update t.copy t.nmount none) m (some t.nmount) b = some (update p.newMount m t.nmount b) ∧
      update t.head t.nmount (p.newHead f) (update p.newMount m t.nmount b) = p.newHead a ∧
      update t.to t.nmount (s.to m) (update p.newMount m t.nmount b) = s.to b ∧
      update t.mflag t.nmount (s.mflag m) (update p.newMount m t.nmount b) = s.mflag b ∧
      update t.spec t.nmount (s.spec m) (update p.newMount m t.nmount b) = s.spec b
    rcases Progress.mem_addMount.mp hb with hb | ⟨haf, hbm⟩
    · obtain ⟨⟨hge, hle⟩, hcopy, hhead, hto, hflag, hspec⟩ := h.mount j a ha b hb
      have hbt : b ≠ t.nmount := hnmount (hg.lt ⟨j, a, (h.part j a ha).1, (h.part j a ha).2 b hb⟩)
      rw [hnewMount ha hb, update_of_ne (hne ha hb), update_of_ne hbt, update_of_ne hle.ne, update_of_ne hle.ne,
        update_of_ne hle.ne, update_of_ne hle.ne]
      exact ⟨⟨hge, hle.trans (Nat.lt_succ_self _)⟩, hcopy, hhead, hto, hflag, hspec⟩
    · rw [haf, hbm, update_self, update_self, update_self, update_self, update_self, update_self]
      exact ⟨⟨h.grown.2.1, Nat.lt_succ_self _⟩, rfl, rfl, rfl, rfl, rfl⟩
  · change update p.newMount m t.nmount b = update p.newMount m t.nmount b' at heq
    have hlow : ∀ {c}, In p.heads p.mounts c → p.newMount c ≠ t.nmount := by
      rintro c ⟨j, a, ha, hc⟩
      exact (h.mount j a ha c hc).1.2.ne
    have hold : ∀ {c}, In p.heads p.mounts c → update p.newMount m t.nmount c = p.newMount c := by
      intro c hc
      refine update_of_ne ?_ _ _
      rintro rfl
      exact hnew hc
    rcases (Progress.in_addMount hf).mp hb with hb | hbm
    · rcases (Progress.in_addMount hf).mp hb' with hb' | hbm'
      · rw [hold hb, hold hb'] at heq
        exact h.mounts_inj b b' hb hb' heq
      · rw [hold hb, hbm', update_self] at heq
        exact absurd heq (hlow hb)
    · rcases (Progress.in_addMount hf).mp hb' with hb' | hbm'
      · rw [hbm, hold hb', update_self] at heq
        exact absurd heq.symm (hlow hb')
      · exact hbm.trans hbm'.symm

end PgrpCpy
