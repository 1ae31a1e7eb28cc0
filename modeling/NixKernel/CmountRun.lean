import NixKernel.Cmount

/-!
# `cmount` does not always leave the name space as it was

Each call of `newmount` that returns has taken a reference to the channel, and nothing on the way of an error gives it
back.  So the table is as before only if the first wait is the one that is interrupted, and the head was there.
-/

namespace Cmount

open LinkList Function List Option
open PgrpCpy (Addr Heap Group newmhead newmount)
open MountTable (Chan Err qtdir morder mrepl mafter mcreate bucket smalloc)

variable {chan : Addr → Chan} {mem : Option Nat} {s t u : Heap} {mh c mhead new old : Addr} {flag flg fuel : Nat}
  {spec : Option String} {l : List Addr}

/-- Only mounts and references have been added. -/
structure Grown (s t : Heap) : Prop where
  table : t.mnthash = s.mnthash
  nmhead : t.nmhead = s.nmhead
  «from» : t.from = s.from
  mount : t.mount = s.mount
  hash : t.hash = s.hash
  nmount : s.nmount ≤ t.nmount
  mounts : ∀ m < s.nmount, t.next m = s.next m ∧ t.to m = s.to m ∧ t.spec m = s.spec m
  ref : ∀ c, s.ref c ≤ t.ref c

theorem Grown.refl (s : Heap) : Grown s s :=
  ⟨rfl, rfl, rfl, rfl, rfl, Nat.le_refl _, fun _ _ => ⟨rfl, rfl, rfl⟩, fun _ => Nat.le_refl _⟩

theorem Grown.trans (hst : Grown s t) (htu : Grown t u) : Grown s u := by
  refine ⟨htu.table.trans hst.table, htu.nmhead.trans hst.nmhead, htu.from.trans hst.from, htu.mount.trans hst.mount,
    htu.hash.trans hst.hash, hst.nmount.trans htu.nmount, fun m hm => ?_, fun c => (hst.ref c).trans (htu.ref c)⟩
  obtain ⟨h1, h2, h3⟩ := hst.mounts m hm
  obtain ⟨h1', h2', h3'⟩ := htu.mounts m (hm.trans_le hst.nmount)
  exact ⟨h1'.trans h1, h2'.trans h2, h3'.trans h3⟩

theorem ref_incref (s : Heap) (c d : Addr) : s.ref d ≤ (s.incref c).ref d := by
  change s.ref d ≤ update s.ref c (s.ref c + 1) d
  by_cases hd : d = c
  · rw [hd, update_self]
    exact Nat.le_succ _
  · rw [update_of_ne hd]

theorem ref_incref_self (s : Heap) (c : Addr) : (s.incref c).ref c = s.ref c + 1 := update_self _ _ _

theorem grown_newmount (s : Heap) (mh c : Addr) (flag : Nat) (spec : Option String) :
    Grown s (s.newmount mh c flag spec) := by
  refine ⟨rfl, rfl, rfl, rfl, rfl, Nat.le_succ _, fun m hm => ?_, fun d => ref_incref _ c d⟩
  exact ⟨update_of_ne hm.ne _ _, update_of_ne hm.ne _ _, update_of_ne hm.ne _ _⟩

/-- **A call of `newmount`** is interrupted, and the channel may have got its reference, or it returns. -/
theorem newmount_spec (mem : Option Nat) (s : Heap) (mh c : Addr) (flag : Nat) (spec : Option String) :
    (∃ n t, mem = some n ∧ n < cost spec ∧ newmount mem s mh c flag spec = (t, none) ∧ Grown s t ∧ (n = 0 → t = s) ∧
      (n ≠ 0 → s.ref c < t.ref c)) ∨
    (newmount mem s mh c flag spec = (s.newmount mh c flag spec, some (mem.map (· - cost spec))) ∧
      ∀ n, mem = some n → cost spec ≤ n) := by
  have hlt : ∀ spec', s.ref c < (s.newmount mh c flag spec').ref c := fun spec' =>
    Nat.lt_of_lt_of_eq (Nat.lt_succ_self _) (ref_incref_self _ c).symm
  cases mem with
  | none =>
    right
    cases spec with
    | none => exact ⟨rfl, nofun⟩
    | some spec => exact ⟨rfl, nofun⟩
  | some n =>
    cases n with
    | zero =>
      left
      refine ⟨0, s, rfl, ?_, rfl, Grown.refl s, fun _ => rfl, fun hne => absurd rfl hne⟩
      cases spec with
      | none => exact Nat.zero_lt_one
      | some spec => exact Nat.zero_lt_two
    | succ n =>
      cases spec with
      | none => exact Or.inr ⟨rfl, fun k hk => by cases hk; exact Nat.le_add_left 1 n⟩
      | some spec =>
        cases n with
        | zero => exact Or.inl ⟨1, _, rfl, Nat.one_lt_two, rfl, grown_newmount s mh c flag none, nofun, fun _ => hlt none⟩
        | succ n => exact Or.inr ⟨rfl, fun k hk => by cases hk; exact Nat.le_add_left 2 n⟩

/-- The pointer behind a new mount is written. -/
theorem Grown.setNext {h : Addr} {v : Option Addr} (hst : Grown s t) (hh : s.nmount ≤ h) :
    Grown s { t with next := update t.next h v } := by
  refine ⟨hst.table, hst.nmhead, hst.from, hst.mount, hst.hash, hst.nmount, fun m hm => ?_, hst.ref⟩
  obtain ⟨h1, h2, h3⟩ := hst.mounts m hm
  exact ⟨(update_of_ne (hm.trans_le hh).ne _ _).trans h1, h2, h3⟩

/-- The calls of `smalloc` for the copies of `l`. -/
def costs (s : Heap) (l : List Addr) : Nat := (l.map fun m => cost (s.spec m)).sum

/-- **The copy of a union**, from behind the new mount `h`. -/
theorem copyUnion_spec {h : Addr} {um : Option Addr} (hgrown : Grown s t) (hpath : Path s.next um l none)
    (hl : ∀ m ∈ l, m < s.nmount) (hfuel : l.length < fuel) (hh : s.nmount ≤ h) (hht : h < t.nmount)
    (hend : t.next h = none) :
    ∃ u r, copyUnion fuel mem t mhead flg h um = some (u, r) ∧ Grown s u ∧ t.nmount ≤ u.nmount ∧
      (∀ c, t.ref c ≤ u.ref c) ∧ (∀ m < t.nmount, m ≠ h → u.next m = t.next m) ∧
      ((r = none ∧ ∃ n, mem = some n ∧ n < costs s l) ∨
        (r ≠ none ∧ (∀ n, mem = some n → costs s l ≤ n) ∧
          ∃ news, Path u.next (some h) (h :: news) none ∧ ∀ m ∈ h :: news, s.nmount ≤ m ∧ m < u.nmount)) := by
  induction l generalizing fuel mem t h um with
  | nil =>
    obtain ⟨fuel, rfl⟩ := Nat.exists_eq_add_one.mpr hfuel
    rw [path_nil.mp hpath]
    refine ⟨t, some mem, rfl, hgrown, Nat.le_refl _, fun _ => Nat.le_refl _, fun _ _ _ => rfl,
      Or.inr ⟨nofun, fun n _ => Nat.zero_le n, [], ⟨rfl, hend⟩, fun m hm => ?_⟩⟩
    rw [mem_singleton.mp hm]
    exact ⟨hh, hht⟩
  | cons um l ih =>
    obtain ⟨fuel, rfl⟩ := Nat.exists_eq_add_one.mpr (Nat.zero_lt_of_lt hfuel)
    obtain ⟨rfl, hpath⟩ := hpath
    have hum := hl um mem_cons_self
    obtain ⟨hnext, hto, hspec⟩ := hgrown.mounts um hum
    have hcosts : costs s (um :: l) = cost (s.spec um) + costs s l := by
      rw [costs, map_cons, sum_cons, costs]
    rw [copyUnion, hto, hspec, hcosts]
    rcases newmount_spec mem t mhead (s.to um) flg (s.spec um) with
      ⟨n, u, hmem, hn, hrun, hgrown', -, -⟩ | ⟨hrun, henough⟩
    · rw [hrun]
      exact ⟨u, none, rfl, hgrown.trans hgrown', hgrown'.nmount, hgrown'.ref,
        fun m hm _ => (hgrown'.mounts m hm).1, Or.inl ⟨rfl, n, hmem, hn.trans_le (Nat.le_add_right _ _)⟩⟩
    · rw [hrun]
      have hadd := hgrown.trans (grown_newmount t mhead (s.to um) flg (s.spec um))
      have hset := hadd.setNext (v := some t.nmount) hh
      have hfresh : t.nmount ≠ h := hht.ne'
      have hend' : update (update t.next t.nmount none) h (some t.nmount) t.nmount = none :=
        (update_of_ne hfresh _ _).trans (update_self _ _ _)
      have hnext' : update (update t.next t.nmount none) h (some t.nmount) um = s.next um :=
        (hset.mounts um hum).1
      have hrest := @ih (mem.map (· - cost (s.spec um))) _ _ _ _ hset hpath
        (fun m hm => hl m (mem_cons_of_mem _ hm)) (Nat.lt_of_succ_lt_succ hfuel) hgrown.nmount
        (Nat.lt_succ_self _) hend'
      rw [← hnext'] at hrest
      obtain ⟨u, r, hcopy, hgrown', hle, href, hframe, hcase⟩ := hrest
      refine ⟨u, r, hcopy, hgrown', (Nat.le_succ _).trans hle, fun c => (ref_incref _ _ c).trans (href c),
        fun m hm hmh => ?_, ?_⟩
      · rw [hframe m (hm.trans (Nat.lt_succ_self _)) hm.ne]
        exact (update_of_ne hmh _ _).trans (update_of_ne hm.ne _ _)
      · rcases hcase with ⟨hr, n, hn, hlt⟩ | ⟨hr, hall, news, hnews, hbound⟩
        · obtain ⟨k, hk, hkn⟩ := map_eq_some_iff.mp hn
          refine Or.inl ⟨hr, k, hk, ?_⟩
          have hle := henough k hk
          omega
        · refine Or.inr ⟨hr, fun n hn => ?_, t.nmount :: news, ⟨rfl, ?_⟩, fun m hm => ?_⟩
          · have hle := henough n hn
            have hle' := hall (n - cost (s.spec um)) (by rw [hn]; rfl)
            omega
          · have hlink : u.next h = some t.nmount := by
              rw [hframe h (hht.trans (Nat.lt_succ_self _)) hfresh.symm]
              exact update_self _ _ _
            rw [hlink]
            exact hnews
          · rcases mem_cons.mp hm with rfl | hm
            · exact ⟨hh, hht.trans_le ((Nat.le_succ _).trans hle)⟩
            · exact hbound m hm

theorem mountfree_spec {p : Option Addr} (hpath : Path s.next p l none) (hfuel : l.length < fuel) :
    ∃ t, mountfree fuel s p = some t ∧ t.next = s.next ∧ t.nmount = s.nmount := by
  induction l generalizing fuel s p with
  | nil =>
    obtain ⟨fuel, rfl⟩ := Nat.exists_eq_add_one.mpr hfuel
    rw [path_nil.mp hpath]
    exact ⟨s, rfl, rfl, rfl⟩
  | cons m l ih =>
    obtain ⟨fuel, rfl⟩ := Nat.exists_eq_add_one.mpr (Nat.zero_lt_of_lt hfuel)
    obtain ⟨rfl, hpath⟩ := hpath
    exact ih (s := { s with
      ref := update s.ref (s.to m) (s.ref (s.to m) - 1)
      mountid := update s.mountid m 0 }) hpath (Nat.lt_of_succ_lt_succ hfuel)

theorem last_spec {f : Addr} (hpath : Path s.next (some f) l none) (hfuel : l.length < fuel) :
    ∃ f', last fuel s f = some f' := by
  induction l generalizing fuel f with
  | nil => cases hpath
  | cons m l ih =>
    obtain ⟨fuel, rfl⟩ := Nat.exists_eq_add_one.mpr (Nat.zero_lt_of_lt hfuel)
    obtain ⟨heq, hpath⟩ := hpath
    cases heq
    rw [last]
    cases hnext : s.next m with
    | none => exact ⟨m, rfl⟩
    | some f' =>
      rw [hnext] at hpath
      exact ih hpath (Nat.lt_of_succ_lt_succ hfuel)

/-- The end of `cmount` comes to an end. -/
theorem relink_total {nm : Addr} {cur news : List Addr} (hcur : Path s.next (s.mount mhead) cur none)
    (hcurlt : ∀ m ∈ cur, m < s.nmount) (hnews : Path s.next (some nm) news none) (hnewslt : ∀ m ∈ news, m < s.nmount)
    (flag : Nat) : ∃ t, relink s mhead nm flag = some t := by
  have hput : ∀ (t : Heap) (cur : List Addr), t.next = s.next → t.nmount = s.nmount →
      Path t.next (t.mount mhead) cur none → cur.length < s.nmount + 1 →
      ∃ u, put t mhead nm (flag &&& morder) = some u := by
    intro t cur hnext hnmount hpath hlen
    obtain ⟨f, hf⟩ := last_spec (hnext ▸ hnews) (hnmount ▸ hnews.length_lt hnewslt)
    rw [put]
    cases hmount : t.mount mhead with
    | none =>
      rw [hf]
      exact ⟨_, rfl⟩
    | some m =>
      rw [hmount] at hpath
      obtain ⟨f', hf'⟩ := last_spec hpath (hnmount ▸ hlen)
      dsimp only
      split
      · rw [hf']
        exact ⟨_, rfl⟩
      · rw [hf]
        exact ⟨_, rfl⟩
  have hflags : ∀ (t : Heap) (cur : List Addr), t.next = s.next → t.nmount = s.nmount →
      Path t.next (t.mount mhead) cur none → cur.length < s.nmount + 1 →
      ∃ u, put (if flag &&& mcreate ≠ 0 then { t with mflag := update t.mflag nm (t.mflag nm ||| mcreate) } else t) mhead
        nm (flag &&& morder) = some u := by
    intro t cur hnext hnmount hpath hlen
    split
    · exact hput { t with mflag := update t.mflag nm (t.mflag nm ||| mcreate) } cur hnext hnmount hpath hlen
    · exact hput t cur hnext hnmount hpath hlen
  rw [relink]
  split
  · obtain ⟨t, ht, hnext, hnmount⟩ := mountfree_spec hcur (hcur.length_lt hcurlt)
    rw [ht]
    exact hflags { t with mount := update t.mount mhead none } [] hnext hnmount (update_self _ _ _) (Nat.succ_pos _)
  · exact hflags s cur rfl rfl hcur (hcur.length_lt hcurlt)

/-- **The second half of `cmount`**: it is interrupted and has changed something, but for the first wait, or it
succeeds. -/
theorem mountAt_spec {s : State} {cur us : List Addr} (hcur : Path s.heap.next (s.heap.mount mhead) cur none)
    (hcurlt : ∀ m ∈ cur, m < s.heap.nmount) (hus : Path s.heap.next ((chan new).umh.bind s.heap.mount) us none)
    (huslt : ∀ m ∈ us, m < s.heap.nmount) (mem : Option Nat) (flag : Nat) (spec : Option String) :
    ∃ t r, mountAt chan mem s mhead new flag spec = some (t, r) ∧ t.ns = false ∧
      t.lock = update (update s.lock mhead true) mhead false ∧
      ((r = .error .Eintr ∧ (∃ n, mem = some n ∧ n < costAt s.heap us spec ∧ (n = 0 → t.heap = s.heap) ∧
          (n ≠ 0 → s.heap.ref new < t.heap.ref new)) ∧ Grown s.heap t.heap) ∨
        ((∃ id, r = .ok id) ∧ ∀ n, mem = some n → costAt s.heap us spec ≤ n)) := by
  rw [mountAt, costAt]
  rcases newmount_spec mem s.heap mhead new flag spec with ⟨n, t, hmem, hn, hrun, hgrown, hzero, hpos⟩ | ⟨hrun, henough⟩
  · rw [hrun]
    exact ⟨_, _, rfl, rfl, rfl, Or.inl ⟨rfl, ⟨n, hmem, hn.trans_le (Nat.le_add_right _ _), hzero, hpos⟩, hgrown⟩⟩
  · rw [hrun]
    dsimp only
    have hgrown := grown_newmount s.heap mhead new flag spec
    have hfresh : (s.heap.newmount mhead new flag spec).next s.heap.nmount = none := update_self _ _ _
    -- what is to be copied
    have htail : Path s.heap.next (((chan new).umh.bind s.heap.mount).bind (s.heap.newmount mhead new flag spec).next)
        us.tail none := by
      cases us with
      | nil =>
        rw [path_nil.mp hus]
        rfl
      | cons u us =>
        obtain ⟨heq, hpath⟩ := hus
        rw [heq, bind_some, (hgrown.mounts u (huslt u mem_cons_self)).1]
        exact hpath
    have htaillt : ∀ m ∈ us.tail, m < s.heap.nmount := fun m hm => huslt m (mem_of_mem_tail hm)
    have hfuel : us.tail.length < (s.heap.newmount mhead new flag spec).nmount + 1 :=
      (htail.length_lt htaillt).trans (Nat.lt_succ_self _)
    obtain ⟨u, r, hcopy, hgrown', -, href, -, hcase⟩ := @copyUnion_spec (mem.map (· - cost spec)) _ _ mhead
      (if flag &&& morder = mrepl then mafter else flag &&& morder) _ _ _ _ hgrown htail htaillt hfuel (Nat.le_refl _)
      (Nat.lt_succ_self _) hfresh
    have hmount : (s.heap.newmount mhead new flag spec).mount = s.heap.mount := rfl
    rw [hmount, hcopy, bind_some]
    rcases hcase with ⟨rfl, n, hn, hlt⟩ | ⟨hr, hall, news, hnews, hbound⟩
    · obtain ⟨k, hk, hkn⟩ := map_eq_some_iff.mp hn
      have hle := henough k hk
      have hpos : 0 < cost spec := by
        rw [cost]
        split <;> decide
      refine ⟨_, _, rfl, rfl, rfl, Or.inl ⟨rfl, ⟨k, hk, ?_, fun hzero => ?_, fun _ => ?_⟩, hgrown'⟩⟩
      · rw [costs] at hlt
        omega
      · omega
      · exact Nat.lt_of_lt_of_le (Nat.lt_of_lt_of_eq (Nat.lt_succ_self _) (ref_incref_self _ new).symm) (href new)
    · obtain ⟨mem', rfl⟩ := ne_none_iff_exists'.mp hr
      have hcur' : Path u.next (u.mount mhead) cur none := by
        rw [hgrown'.mount]
        exact hcur.frame fun m hm => (hgrown'.mounts m (hcurlt m hm)).1
      obtain ⟨v, hv⟩ := relink_total hcur' (fun m hm => (hcurlt m hm).trans_le hgrown'.nmount) hnews
        (fun m hm => (hbound m hm).2) flag
      dsimp only
      rw [hv]
      refine ⟨_, _, rfl, rfl, rfl, Or.inr ⟨⟨_, rfl⟩, fun n hn => ?_⟩⟩
      have hle := henough n hn
      have hle' := hall (n - cost spec) (by rw [hn]; rfl)
      rw [costs] at hle'
      omega

theorem newmhead_spec (mem : Option Nat) (s : Heap) (c : Addr) :
    (mem = some 0 ∧ newmhead mem s c = (s, none)) ∨
      (newmhead mem s c = (s.newmhead c, some (mem.map (· - 1))) ∧ ∀ n, mem = some n → 1 ≤ n) := by
  cases mem with
  | none => exact Or.inr ⟨rfl, nofun⟩
  | some n =>
    cases n with
    | zero => exact Or.inl ⟨rfl, rfl⟩
    | succ n => exact Or.inr ⟨rfl, fun k hk => by cases hk; exact Nat.le_add_left 1 n⟩

theorem not_unchanged_of_ns {s t : State} (h : t.ns = true) : ¬Unchanged s t := by
  intro hsame
  rw [hsame.ns] at h
  cases h

theorem not_unchanged_of_ref {s t : State} (h : s.heap.ref c < t.heap.ref c) : ¬Unchanged s t := by
  intro hsame
  rw [hsame.ref] at h
  exact Nat.lt_irrefl _ h

variable {s : State} {g : Addr} {heads : Nat → List Addr} {mounts : Addr → List Addr} {us : List Addr}

/-- The head is made: the mounts are where they were. -/
theorem chain_us {t : Heap} (hmount : ∀ a < s.heap.nmhead, t.mount a = s.heap.mount a)
    (hmounts : ∀ m < s.heap.nmount, t.next m = s.heap.next m ∧ t.spec m = s.heap.spec m)
    (hus : Path s.heap.next ((chan new).umh.bind s.heap.mount) us none) (huslt : ∀ m ∈ us, m < s.heap.nmount)
    (humh : ∀ mh, (chan new).umh = some mh → mh < s.heap.nmhead) :
    Path t.next ((chan new).umh.bind t.mount) us none ∧ costAt t us spec = costAt s.heap us spec := by
  constructor
  · have hbind : (chan new).umh.bind t.mount = (chan new).umh.bind s.heap.mount := by
      cases hcase : (chan new).umh with
      | none => rfl
      | some mh => exact hmount mh (humh mh hcase)
    rw [hbind]
    exact hus.frame fun m hm => (hmounts m (huslt m hm)).1
  · have hmap : us.tail.map (fun m => cost (t.spec m)) = us.tail.map fun m => cost (s.heap.spec m) :=
      map_congr_left fun m hm => congrArg cost (hmounts m (huslt m (mem_of_mem_tail hm))).2
    rw [costAt, costAt, hmap]

/-- **A mount point that is not there**: an error leaves the head behind, or the lock of the name space. -/
theorem mountNew_spec (prev : Option Addr) (hus : Path s.heap.next ((chan new).umh.bind s.heap.mount) us none)
    (huslt : ∀ m ∈ us, m < s.heap.nmount) (humh : ∀ mh, (chan new).umh = some mh → mh < s.heap.nmhead)
    (mem : Option Nat) (pg : Addr) (flag : Nat) (spec : Option String) :
    ∃ t r, mountNew chan mem s pg prev new old flag spec = some (t, r) ∧
      ((r = .error .Eintr ∧ (∃ n, mem = some n ∧ n < costHead flag + costAt s.heap us spec) ∧ ¬Unchanged s t) ∨
        ((∃ id, r = .ok id) ∧ ∀ n, mem = some n → costHead flag + costAt s.heap us spec ≤ n)) := by
  rw [mountNew]
  have hposHead : 0 < costHead flag := by
    rw [costHead]
    split <;> decide
  have hposAt : 0 < costAt s.heap us spec := by
    rw [costAt, cost]
    split <;> omega
  rcases newmhead_spec mem s.heap old with ⟨hmem, hrun⟩ | ⟨hrun, hone⟩
  · rw [hrun]
    exact ⟨_, _, rfl, Or.inl ⟨rfl, ⟨0, hmem, by omega⟩, not_unchanged_of_ns rfl⟩⟩
  · rw [hrun]
    dsimp only
    generalize ht : (s.heap.newmhead old).chain pg (bucket (chan old).ident) prev s.heap.nmhead = t
    have hmount : ∀ a < s.heap.nmhead, t.mount a = s.heap.mount a := by
      intro a ha
      rw [← ht]
      exact update_of_ne ha.ne _ _
    have hnone : t.mount s.heap.nmhead = none := by
      rw [← ht]
      exact update_self _ _ _
    have hsame : t.next = s.heap.next ∧ t.spec = s.heap.spec ∧ t.nmount = s.heap.nmount := by
      rw [← ht]
      exact ⟨rfl, rfl, rfl⟩
    have href : s.heap.ref old < t.ref old := by
      rw [← ht]
      exact Nat.lt_of_lt_of_eq (Nat.lt_succ_self _) (ref_incref_self _ old).symm
    obtain ⟨hnext, hspec, hnmount⟩ := hsame
    split
    · -- the old node comes first in the union
      have hcost : costHead flag = 2 := if_pos ‹_›
      rcases newmount_spec (mem.map (· - 1)) t s.heap.nmhead old 0 none with
        ⟨n, u, hmem, hn, hrun', -⟩ | ⟨hrun', htwo⟩
      · rw [hrun']
        obtain ⟨k, hk, hkn⟩ := map_eq_some_iff.mp hmem
        have hn' : n < 1 := hn
        exact ⟨_, _, rfl, Or.inl ⟨rfl, ⟨k, hk, by omega⟩, not_unchanged_of_ns rfl⟩⟩
      · rw [hrun']
        dsimp only
        generalize hu : t.newmount s.heap.nmhead old 0 none = u
        have hgrown : Grown t u := hu ▸ grown_newmount t s.heap.nmhead old 0 none
        have hunmount : u.nmount = t.nmount + 1 := by
          rw [← hu]
          rfl
        have hend : u.next t.nmount = none := by
          rw [← hu]
          exact update_self _ _ _
        obtain ⟨hus', hcosts⟩ := @chain_us _ _ spec _ _
          { u with mount := update u.mount s.heap.nmhead (some t.nmount) }
          (fun a ha => (update_of_ne ha.ne _ _).trans ((congrFun hgrown.mount a).trans (hmount a ha))) (fun m hm => by
            obtain ⟨h1, -, h3⟩ := hgrown.mounts m (hnmount ▸ hm)
            exact ⟨h1.trans (congrFun hnext m), h3.trans (congrFun hspec m)⟩) hus huslt humh
        have hcur : Path u.next (update u.mount s.heap.nmhead (some t.nmount) s.heap.nmhead) [t.nmount] none := by
          rw [update_self]
          exact ⟨rfl, hend⟩
        have hlt : t.nmount < u.nmount := by
          rw [hunmount]
          exact Nat.lt_succ_self _
        obtain ⟨v, r, hv, -, -, hcase⟩ := @mountAt_spec chan _ new
          { s with heap := { u with mount := update u.mount s.heap.nmhead (some t.nmount) } } _ _ hcur
          (fun m hm => by rw [mem_singleton.mp hm]; exact hlt) hus'
          (fun m hm => (huslt m hm).trans_le (hnmount ▸ hgrown.nmount)) ((mem.map (· - 1)).map (· - cost none)) flag
          spec
        refine ⟨v, r, hv, ?_⟩
        rw [hcosts] at hcase
        rcases hcase with ⟨hr, ⟨n, hn, hlt', -⟩, hgrown'⟩ | ⟨hr, hall⟩
        · obtain ⟨k, hk, hkn⟩ := map_eq_some_iff.mp hn
          obtain ⟨k', hk', hkn'⟩ := map_eq_some_iff.mp hk
          have hge : 1 ≤ k := htwo k hk
          have hge' := hone k' hk'
          have hone' : cost none = 1 := rfl
          refine Or.inl ⟨hr, ⟨k', hk', by omega⟩, not_unchanged_of_ref (c := old) ?_⟩
          exact Nat.lt_of_lt_of_le href ((hgrown.ref old).trans (hgrown'.ref old))
        · refine Or.inr ⟨hr, fun n hn => ?_⟩
          have hge := htwo (n - 1) (by rw [hn]; rfl)
          have hall' := hall (n - 1 - cost none) (by rw [hn]; rfl)
          have hone' : cost none = 1 := rfl
          omega
    · have hcost : costHead flag = 1 := if_neg ‹_›
      obtain ⟨hus', hcosts⟩ := @chain_us _ _ spec _ _ t hmount (fun m _ => ⟨congrFun hnext m, congrFun hspec m⟩) hus
        huslt humh
      obtain ⟨v, r, hv, -, -, hcase⟩ := @mountAt_spec chan _ new { s with heap := t } [] _ hnone nofun hus'
        (fun m hm => (huslt m hm).trans_eq hnmount.symm) (mem.map (· - 1)) flag spec
      refine ⟨v, r, hv, ?_⟩
      rw [hcosts] at hcase
      rcases hcase with ⟨hr, ⟨n, hn, hlt, -⟩, hgrown⟩ | ⟨hr, hall⟩
      · obtain ⟨k, hk, hkn⟩ := map_eq_some_iff.mp hn
        have hge := hone k hk
        refine Or.inl ⟨hr, ⟨k, hk, by omega⟩, not_unchanged_of_ref (c := old) ?_⟩
        exact Nat.lt_of_lt_of_le href (hgrown.ref old)
      · refine Or.inr ⟨hr, fun n hn => ?_⟩
        have hge := hone n hn
        have hall' := hall (n - 1) (by rw [hn]; rfl)
        omega

/-- The search for the mount point. -/
theorem find_spec (hg : Group s.heap g heads mounts) (chan : Addr → Chan) (old : Addr) :
    ∃ prev, (search s.heap.hash (isHead chan s.heap old) (s.heap.nmhead + 1) none
        (s.heap.mnthash g (bucket (chan old).ident)) = some (prev, none) ∧ ¬Found chan s.heap heads old) ∨
      ∃ f ∈ heads (bucket (chan old).ident), search s.heap.hash (isHead chan s.heap old) (s.heap.nmhead + 1) none
        (s.heap.mnthash g (bucket (chan old).ident)) = some (prev, some f) ∧ Found chan s.heap heads old := by
  have hpath := hg.chains.path (bucket (chan old).ident)
  have hlen := hpath.length_lt fun f hf => (hg.bound _ f hf).2.1
  have hsearch := @search_spec _ _ _ _ (isHead chan s.heap old) _ none hpath hlen
  rw [hsearch]
  cases hrest : (heads (bucket (chan old).ident)).dropWhile fun a => !isHead chan s.heap old a with
  | nil =>
    refine ⟨_, Or.inl ⟨rfl, ?_⟩⟩
    rintro ⟨f, hf, hhead⟩
    have hall := dropWhile_eq_nil_iff.mp hrest f hf
    rw [hhead] at hall
    cases hall
  | cons f l =>
    have hf : f ∈ heads (bucket (chan old).ident) := by
      have hmem : f ∈ (heads (bucket (chan old).ident)).dropWhile fun a => !isHead chan s.heap old a := by
        rw [hrest]
        exact mem_cons_self
      exact (dropWhile_sublist _).subset hmem
    have hhead : isHead chan s.heap old f = true := by
      have hnot := List.head?_dropWhile_not (fun a => !isHead chan s.heap old a) (heads (bucket (chan old).ident))
      rw [hrest] at hnot
      simpa using hnot
    exact ⟨_, Or.inr ⟨f, hf, rfl, f, hf, hhead⟩⟩

/-- **`cmount` that raises an error** leaves the name space as it was exactly if it is refused, or no wait is
interrupted, or the first one is and the mount point is in the table. -/
theorem cmount_atomic (hg : Group s.heap g heads mounts)
    (hus : Path s.heap.next ((chan new).umh.bind s.heap.mount) us none) (huslt : ∀ m ∈ us, m < s.heap.nmount)
    (humh : ∀ mh, (chan new).umh = some mh → mh < s.heap.nmhead) (hns : s.ns = false) (hlock : s.lock = fun _ => false) :
    ∃ t r, cmount chan mem s g new old flag spec = some (t, r) ∧ ((∀ e, r = .error e → Unchanged s t) ↔
      Refused chan s.heap new old flag ∨ Enough chan s.heap heads us mem old flag spec ∨
        (mem = some 0 ∧ Found chan s.heap heads old)) := by
  have hself : ∀ {t : State}, t.heap = s.heap → t.ns = false → (t.lock = fun _ => false) → Unchanged s t := by
    intro t hheap hns' hlock'
    exact ⟨by rw [hheap], fun a _ => by rw [hheap]; exact ⟨rfl, rfl, rfl⟩,
      fun m _ => by rw [hheap]; exact ⟨rfl, rfl, rfl, rfl, rfl, rfl⟩, by rw [hheap], hns', hlock'⟩
  rw [cmount]
  by_cases href : Refused chan s.heap new old flag
  · rw [if_pos href]
    exact ⟨_, _, rfl, iff_of_true (fun e _ => hself rfl hns hlock) (Or.inl href)⟩
  · rw [if_neg href, or_iff_right href]
    obtain ⟨prev, ⟨hsearch, hmiss⟩ | ⟨f, hf, hsearch, hfound⟩⟩ := find_spec hg chan old
    · rw [hsearch, Option.bind_some]
      obtain ⟨t, r, hrun, hcase⟩ := @mountNew_spec _ _ old _ _ prev hus huslt humh mem g flag spec
      refine ⟨t, r, hrun, ?_⟩
      rw [Enough, if_neg hmiss]
      rcases hcase with ⟨rfl, ⟨n, hn, hlt⟩, hchanged⟩ | ⟨⟨id, rfl⟩, hall⟩
      · refine iff_of_false (fun hsame => hchanged (hsame _ rfl)) ?_
        rintro (henough | ⟨-, hfound⟩)
        · exact absurd (henough n hn) (Nat.not_le_of_lt hlt)
        · exact hmiss hfound
      · exact iff_of_true nofun (Or.inl hall)
    · rw [hsearch, Option.bind_some]
      have hcur := hg.unions _ f hf
      obtain ⟨t, r, hrun, hns', hlock', hcase⟩ := @mountAt_spec chan _ new _ _ _ hcur
        (fun m hm => ((hg.bound _ f hf).2.2 m hm).1) hus huslt mem flag spec
      refine ⟨t, r, hrun, ?_⟩
      rw [Enough, if_pos hfound, Nat.zero_add]
      have hunlocked : t.lock = fun _ => false := by
        rw [hlock', hlock, update_idem]
        exact update_eq_self f (fun _ : Addr => false)
      rcases hcase with ⟨rfl, ⟨n, hn, hlt, hzero, hpos⟩, -⟩ | ⟨⟨id, rfl⟩, hall⟩
      · by_cases hn0 : n = 0
        · exact iff_of_true (fun e _ => hself (hzero hn0) hns' hunlocked) (Or.inr ⟨hn0 ▸ hn, hfound⟩)
        · refine iff_of_false (fun hsame => not_unchanged_of_ref (hpos hn0) (hsame _ rfl)) ?_
          rintro (henough | ⟨hmem, -⟩)
          · exact absurd (henough n hn) (Nat.not_le_of_lt hlt)
          · rw [hn] at hmem
            exact hn0 (Option.some.inj hmem)
      · exact iff_of_true nofun (Or.inl hall)

/-- An empty table. -/
def empty : State where
  heap :=
    { mnthash := fun _ _ => none, nmhead := 0, «from» := fun _ => 0, mount := fun _ => none, hash := fun _ => none
      nmount := 0, mountid := fun _ => 0, next := fun _ => none, head := fun _ => 0, copy := fun _ => none
      order := fun _ => none, «to» := fun _ => 0, mflag := fun _ => 0, spec := fun _ => none, ref := fun _ => 1
      ids := 0 }
  ns := false
  lock _ := false

/-- The channel 0 is a file, the others are directories. -/
def channels (c : Addr) : Chan := ⟨⟨c, 0, 0⟩, if c = 0 then 0 else qtdir, none, none⟩

theorem empty_group : Group empty.heap 0 (fun _ => []) fun _ => [] :=
  ⟨⟨fun _ => rfl, nofun⟩, nofun, nofun, nofun, nofun⟩

/-- The chains of a table with a mount upon the channel 1 and a union upon the channel 2. -/
def chains (i : Nat) : List Nat := if i = 1 then [0] else if i = 2 then [1] else []

/-- The mounts of its two heads. -/
def unions (f : Nat) : List Nat := if f = 0 then [0] else [1, 2]

def bound : State where
  heap :=
    { mnthash := fun _ i => (chains i).head?, nmhead := 2, «from» := fun a => a + 1, mount := some
      hash := fun _ => none, nmount := 3, mountid := id, next := fun m => if m = 1 then some 2 else none
      head := fun m => min m 1, copy := fun _ => none, order := fun _ => none, «to» := fun m => 4 + m
      mflag := fun _ => 0, spec := fun _ => none, ref := fun _ => 1, ids := 2 }
  ns := false
  lock _ := false

/-- The channel 3 has walked to the union. -/
def atUnion (c : Addr) : Chan := { channels c with umh := if c = 3 then some 1 else none }

theorem mem_chains {i f : Nat} (hf : f ∈ chains i) : i = f + 1 ∧ f < 2 := by
  rw [chains] at hf
  by_cases h1 : i = 1
  · rw [if_pos h1] at hf
    exact ⟨h1.trans (by rw [mem_singleton.mp hf]), by rw [mem_singleton.mp hf]; decide⟩
  · rw [if_neg h1] at hf
    by_cases h2 : i = 2
    · rw [if_pos h2] at hf
      exact ⟨h2.trans (by rw [mem_singleton.mp hf]), by rw [mem_singleton.mp hf]; decide⟩
    · rw [if_neg h2] at hf
      cases hf

theorem mem_unions {f m : Nat} (hm : m ∈ unions f) : (f = 0 ↔ m = 0) ∧ m < 3 := by
  rw [unions] at hm
  split at hm
  · have hzero : m = 0 := mem_singleton.mp hm
    omega
  · have hpair : m = 1 ∨ m = 2 := by simpa using hm
    omega

theorem bound_group : Group bound.heap 0 chains unions := by
  refine ⟨⟨fun i => ?_, fun i j a hi hj => ?_⟩, fun i f hf => ?_, fun i f j f' m hf hf' hm hm' => ?_,
    fun i f hf => ?_, fun i f j f' m m' _ _ _ _ heq => heq⟩
  · change Path (fun _ => none) (chains i).head? (chains i) none
    rw [chains]
    split
    · exact ⟨rfl, rfl⟩
    · split
      · exact ⟨rfl, rfl⟩
      · rfl
  · exact (mem_chains hi).1.trans (mem_chains hj).1.symm
  · obtain ⟨-, hlt⟩ := mem_chains hf
    obtain rfl | rfl := Nat.le_one_iff_eq_zero_or_eq_one.mp (Nat.le_of_lt_succ hlt)
    · exact ⟨rfl, rfl⟩
    · exact ⟨rfl, rfl, rfl⟩
  · have h := (mem_unions hm).1
    have h' := (mem_unions hm').1
    obtain rfl | rfl := Nat.le_one_iff_eq_zero_or_eq_one.mp (Nat.le_of_lt_succ (mem_chains hf).2) <;>
      obtain rfl | rfl := Nat.le_one_iff_eq_zero_or_eq_one.mp (Nat.le_of_lt_succ (mem_chains hf').2) <;>
      simp_all
  · obtain ⟨rfl, hlt⟩ := mem_chains hf
    refine ⟨?_, hlt, fun m hm => ⟨(mem_unions hm).2, ?_⟩⟩
    · exact Nat.lt_of_lt_of_le (Nat.succ_lt_succ hlt) (by decide)
    · exact Nat.le_of_lt_succ (mem_unions hm).2

/-- A union is bound before a mount, and the first wait for memory is interrupted. -/
theorem cmount_atomic_union :
    ∃ t, cmount atUnion (some 0) bound 0 3 1 1 none = some (t, .error .Eintr) ∧ Unchanged bound t := by
  have hus : Path bound.heap.next ((atUnion 3).umh.bind bound.heap.mount) [1, 2] none := ⟨rfl, rfl, rfl⟩
  have huslt : ∀ m ∈ [1, 2], m < bound.heap.nmount := by decide
  have humh : ∀ mh, (atUnion 3).umh = some mh → mh < bound.heap.nmhead := by
    intro mh h
    cases h
    decide
  obtain ⟨t, r, hrun, hiff⟩ := @cmount_atomic atUnion (some 0) 3 1 1 none _ _ _ _ _ bound_group hus huslt humh rfl rfl
  have hfound : Found atUnion bound.heap chains 1 := ⟨0, by decide, by decide⟩
  have herror : (cmount atUnion (some 0) bound 0 3 1 1 none).map Prod.snd = some (.error .Eintr) := by rfl
  rw [hrun] at herror
  obtain rfl := Option.some.inj herror
  exact ⟨t, hrun, hiff.mpr (Or.inr (Or.inr ⟨rfl, hfound⟩)) _ rfl⟩

/-- The wait in `newmhead` is interrupted: the lock of the name space is left held. -/
theorem cmount_interrupted : ¬ ∀ (chan : Addr → Chan) (mem : Option Nat) (s t : State) (g new old : Addr) (flag : Nat)
    (spec : Option String) (heads : Nat → List Addr) (mounts : Addr → List Addr) (e : Err), Group s.heap g heads mounts →
    s.ns = false → (s.lock = fun _ => false) → cmount chan mem s g new old flag spec = some (t, .error e) →
      Unchanged s t := by
  intro hall
  have hsame := hall channels (some 0) empty { empty with ns := true } 0 1 2 0 none (fun _ => []) (fun _ => []) .Eintr
    empty_group rfl rfl rfl
  exact absurd hsame.ns Bool.true_eq_false.mp

end Cmount
