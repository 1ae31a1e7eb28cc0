import NixKernel.MntBlocks

/-!
# Blocks of a reply that nobody wanted

A ledger: what was taken has been freed, or is in some `b`, or has been dropped.  Only two calls drop blocks, and both
write a `b` that is not empty.
-/

namespace MntBlocks

open List Option

variable {s t u : Mnt} {r a n nb hlen len : Nat} {x : Mntrpc} {b q q' : List Block} {dropped : List Nat}

/-- **The blocks that are hung off a reply** are the first ones of the queue. -/
theorem hang_spec (h : hang nb hlen len q = some (b, q')) : ∃ rest, ids q = ids b ++ ids rest ∧ b ≠ [] ∧
    (ids q' = ids rest ∨ ids q' = nb :: ids rest) := by
  induction q generalizing hlen len b with
  | nil => cases h
  | cons x q ih =>
    rw [hang] at h
    split at h
    · split at h
      · obtain ⟨⟨b', q''⟩, hrest, heq⟩ := map_eq_some_iff.mp h
        cases heq
        obtain ⟨rest, hids, -, hq⟩ := ih hrest
        refine ⟨rest, ?_, cons_ne_nil _ _, hq⟩
        rw [ids, map_cons, ← ids, hids]
        rfl
      · cases h
        exact ⟨q', rfl, cons_ne_nil _ _, Or.inl rfl⟩
    · cases h
      exact ⟨q, rfl, cons_ne_nil _ _, Or.inr rfl⟩

theorem bl2mem_spec (n : Nat) (b : List Block) : ids b = (bl2mem n b).1 ++ ids (bl2mem n b).2 := by
  induction b generalizing n with
  | nil => rfl
  | cons x b ih =>
    rw [bl2mem]
    split
    · rfl
    · rw [ids, map_cons, ← ids, ih (n - x.2)]
      rfl

/-- **The ledger**, with what has been dropped. -/
structure Inv (s : Mnt) (dropped : List Nat) : Prop where
  ledger : ∀ a, s.taken.count a = s.freed.count a + s.owned a + dropped.count a
  taken : s.taken.Nodup
  queue : (ids s.q).Nodup ∧ ∀ a ∈ ids s.q, a ∉ s.taken
  queued : ∀ r ∈ s.queue, r < s.rpc.length
  reading : ∀ r, s.reader = some r → r < s.rpc.length

theorem get_lt (h : (s.get r).live = true) : r < s.rpc.length := by
  refine Tally.lt_of_getD_ne (d := noRpc) fun hno => ?_
  rw [Mnt.get, hno] at h
  cases h

/-- One `Mntrpc` is written. -/
theorem owned_set (hr : r < s.rpc.length) (x : Mntrpc) (a : Nat) :
    (s.set r x).owned a + (ids (s.get r).b).count a = s.owned a + (ids x.b).count a :=
  Tally.sum_set (fun y : Mntrpc => (ids y.b).count a) hr x

theorem get_set_of_ne {k : Nat} (h : k ≠ r) (x : Mntrpc) : (s.set r x).get k = s.get k := by
  rw [Mnt.get, Mnt.get, Mnt.set, getD_eq_getElem?_getD, List.getElem?_set_ne (Ne.symm h), getD_eq_getElem?_getD]

theorem Inv.accounted_iff (h : Inv s dropped) : Accounted s ↔ dropped = [] := by
  constructor
  · rintro ⟨-, hall⟩
    refine eq_nil_iff_forall_not_mem.mpr fun a ha => ?_
    have hcount := h.ledger a
    have hpos := count_pos_iff.mpr ha
    have hone := nodup_iff_count_le_one.mp h.taken a
    have htaken : a ∈ s.taken := count_pos_iff.mp (by omega)
    have hsum := hall a htaken
    omega
  · rintro rfl
    refine ⟨h.taken, fun a ha => ?_⟩
    have hcount := h.ledger a
    rw [count_eq_one_of_mem h.taken ha, count_nil] at hcount
    exact hcount.symm

theorem inv_init : Inv init [] := 
  ⟨fun _ => rfl, nodup_nil, ⟨nodup_nil, nofun⟩, nofun, nofun⟩

/-- **`mntrpcread`** takes blocks, and drops what its `Mntrpc` had. -/
theorem Inv.mntrpcread {tag : Nat} (h : Inv s dropped) (hr : r < s.rpc.length) (htaken : nb ∉ s.taken)
    (hq : nb ∉ ids s.q) (hrun : s.mntrpcread r hlen len tag nb = some t) : Inv t (dropped ++ ids (s.get r).b) := by
  obtain ⟨⟨b, q'⟩, hhang, rfl⟩ := map_eq_some_iff.mp hrun
  obtain ⟨rest, hids, -, hrest⟩ := hang_spec hhang
  have hnodup := h.queue.1
  rw [hids, nodup_append] at hnodup
  obtain ⟨hb, hrest', hdisj⟩ := hnodup
  have hnot : ∀ a ∈ ids s.q, a ∉ s.taken := h.queue.2
  rw [hids] at hnot hq
  have hlength : (s.set r { s.get r with reply := tag, b := b }).rpc.length = s.rpc.length := length_set
  refine ⟨fun a => ?_, ?_, ?_, fun k hk => (h.queued k hk).trans_eq hlength.symm, fun k hk => ?_⟩
  · have hledger := h.ledger a
    have howned := owned_set hr { s.get r with reply := tag, b := b } a
    change (s.taken ++ ids b).count a = s.freed.count a + (s.set r _).owned a + (dropped ++ _).count a
    rw [count_append, count_append]
    change _ + (ids (s.get r).b).count a = _ + (ids b).count a at howned
    omega
  · refine nodup_append.mpr ⟨h.taken, hb, fun a ha c hc heq => ?_⟩
    exact hnot c (mem_append_left _ hc) (heq ▸ ha)
  · have hrests : ∀ a ∈ ids rest, a ∉ s.taken ++ ids b := by
      intro a ha hmem
      rcases mem_append.mp hmem with hmem | hmem
      · exact hnot a (mem_append_right _ ha) hmem
      · exact hdisj a hmem a ha rfl
    change (ids q').Nodup ∧ ∀ a ∈ ids q', a ∉ s.taken ++ ids b
    rw [mem_append, not_or] at hq
    rcases hrest with heq | heq
    · rw [heq]
      exact ⟨hrest', hrests⟩
    · rw [heq]
      refine ⟨nodup_cons.mpr ⟨hq.2, hrest'⟩, fun a ha => ?_⟩
      rcases mem_cons.mp ha with rfl | ha
      · rw [mem_append, not_or]
        exact ⟨htaken, hq.1⟩
      · exact hrests a ha
  · cases hk
    exact hr.trans_eq hlength.symm

/-- Blocks change hands. -/
theorem Inv.trade {q : Nat} {y : Mntrpc} (h : Inv s dropped) (hq : q < s.rpc.length) (hr : r < s.rpc.length) (hqr : q ≠ r)
    (hx : x.b = (s.get r).b) (hy : y.b = []) (a : Nat) :
    s.taken.count a = s.freed.count a + ((s.set q x).set r y).owned a + (dropped ++ ids (s.get q).b).count a := by
  have hledger := h.ledger a
  have hgive := owned_set hq x a
  have hr' : r < (s.set q x).rpc.length := by
    rw [Mnt.set, length_set]
    exact hr
  have hclear := owned_set hr' y a
  rw [get_set_of_ne (Ne.symm hqr), hy] at hclear
  rw [hx] at hgive
  rw [count_append]
  change _ + _ = _ + 0 at hclear
  omega

/-- **`mountmux`** hands blocks over, and drops what the other had. -/
theorem Inv.mountmux (h : Inv s dropped) (hr : r < s.rpc.length) :
    ∃ lost, Inv (s.mountmux r) (dropped ++ ids lost) ∧
      ((lost ≠ [] ∧ Lost s (.mountmux r)) ∨ (lost = [] ∧ ¬Lost s (.mountmux r))) := by
  cases hlook : s.look r with
  | none =>
    refine ⟨[], ?_, Or.inr ⟨rfl, ?_⟩⟩
    · rw [Mnt.mountmux, hlook]
      exact ⟨fun a => by rw [ids, map_nil, append_nil]; exact h.ledger a, h.taken, h.queue, h.queued, nofun⟩
    · rintro ⟨q, hq, -⟩
      rw [hlook] at hq
      cases hq
  | some q =>
    have hq := h.queued q (mem_of_find?_eq_some hlook)
    rw [Mnt.mountmux, hlook]
    dsimp only
    have hqueued : ∀ k ∈ s.queue.erase q, k < s.rpc.length := fun k hk => h.queued k (mem_of_mem_erase hk)
    by_cases hqr : q = r
    · rw [if_neg (not_not.mpr hqr)]
      refine ⟨[], ⟨fun a => ?_, h.taken, h.queue, fun k hk => ?_, nofun⟩, Or.inr ⟨rfl, ?_⟩⟩
      · have howned := owned_set hr { s.get r with done := true } a
        rw [ids, map_nil, append_nil]
        refine (h.ledger a).trans ?_
        change _ = s.freed.count a + (s.set r { s.get r with done := true }).owned a + dropped.count a
        change _ + (ids (s.get r).b).count a = _ + (ids (s.get r).b).count a at howned
        omega
      · exact (hqueued k hk).trans_eq List.length_set.symm
      · rintro ⟨q', hq', hne, -⟩
        rw [hlook] at hq'
        cases hq'
        exact hne hqr
    · rw [if_pos hqr]
      refine ⟨(s.get q).b, ⟨fun a => ?_, h.taken, h.queue, fun k hk => ?_, nofun⟩, ?_⟩
      · exact h.trade (x := { s.get q with reply := (s.get r).reply, b := (s.get r).b, done := true })
          (y := { s.get r with b := [] }) hq hr hqr rfl rfl a
      · exact (hqueued k hk).trans_eq (List.length_set.trans length_set).symm
      · by_cases hempty : (s.get q).b = []
        · refine Or.inr ⟨hempty, ?_⟩
          rintro ⟨q', hq', -, hne⟩
          rw [hlook] at hq'
          cases hq'
          exact hne hempty
        · exact Or.inl ⟨hempty, q, hlook, hqr, hempty⟩

/-- A `Mntrpc` that keeps its blocks, or gives some up to be freed. -/
theorem Inv.free (h : Inv s dropped) (hr : r < s.rpc.length) {freed queue : List Nat}
    (hids : ∀ a, (ids (s.get r).b).count a = freed.count a + (ids x.b).count a) (hqueue : queue ⊆ s.queue) :
    Inv { s.set r x with freed := s.freed ++ freed, queue := queue } dropped := by
  have hlength : (s.set r x).rpc.length = s.rpc.length := length_set
  refine ⟨fun a => ?_, h.taken, h.queue, fun k hk => (h.queued k (hqueue hk)).trans_eq hlength.symm,
    fun k hk => (h.reading k hk).trans_eq hlength.symm⟩
  have hledger := h.ledger a
  have howned := owned_set hr x a
  have hsplit := hids a
  change s.taken.count a = (s.freed ++ freed).count a + (s.set r x).owned a + _
  rw [count_append]
  omega

theorem ids_ne_nil : ids b ≠ [] ↔ b ≠ [] := by
  cases b with
  | nil => exact iff_of_false (absurd rfl) (absurd rfl)
  | cons y b => exact iff_of_true nofun nofun

/-- **A call drops blocks exactly if it is one of the two.** -/
theorem Inv.act {i : Act} (h : Inv s dropped) (hact : MntBlocks.act s i = some t) :
    ∃ lost, Inv t (dropped ++ lost) ∧ ((Lost s i ∧ lost ≠ []) ∨ (¬Lost s i ∧ lost = [])) := by
  have hkeep : ∀ {u : Mnt}, Inv u dropped → ¬Lost s i → ∃ lost, Inv u (dropped ++ lost) ∧
      ((Lost s i ∧ lost ≠ []) ∨ (¬Lost s i ∧ lost = [])) := by
    intro u hu hlost
    refine ⟨[], ?_, Or.inr ⟨hlost, rfl⟩⟩
    rwa [append_nil]
  cases i with
  | mntralloc tag =>
    cases hact
    refine hkeep ⟨fun a => ?_, h.taken, h.queue, fun k hk => ?_, fun k hk => ?_⟩ id
    · have hledger := h.ledger a
      have howned : (s.mntralloc tag).owned a = s.owned a := by
        rw [Mnt.owned, Mnt.owned, Mnt.mntralloc, map_append, sum_append]
        rfl
      rw [howned]
      exact hledger
    · exact (h.queued k hk).trans_le (length_append ▸ Nat.le_add_right _ _)
    · exact (h.reading k hk).trans_le (length_append ▸ Nat.le_add_right _ _)
  | mountio r =>
    obtain ⟨⟨hlive, -⟩, heq⟩ := ite_none_right_eq_some.mp hact
    cases heq
    refine hkeep ⟨h.ledger, h.taken, h.queue, fun k hk => ?_, h.reading⟩ id
    rcases mem_cons.mp hk with rfl | hk
    · exact get_lt hlive
    · exact h.queued k hk
  | input q =>
    obtain ⟨hq, heq⟩ := ite_none_right_eq_some.mp hact
    cases heq
    exact hkeep ⟨h.ledger, h.taken, hq, h.queued, h.reading⟩ id
  | mntrpcread r hlen len tag nb =>
    obtain ⟨⟨-, ⟨hlive, -⟩, htaken, hq⟩, hrun⟩ := ite_none_right_eq_some.mp hact
    refine ⟨ids (s.get r).b, h.mntrpcread (get_lt hlive) htaken hq hrun, ?_⟩
    by_cases hb : (s.get r).b = []
    · exact Or.inr ⟨fun hlost => hlost hb, by rw [hb]; rfl⟩
    · exact Or.inl ⟨hb, ids_ne_nil.mpr hb⟩
  | mountmux r =>
    obtain ⟨hreader, heq⟩ := ite_none_right_eq_some.mp hact
    cases heq
    obtain ⟨lost, hinv, hcase⟩ := h.mountmux (h.reading r hreader)
    refine ⟨ids lost, hinv, ?_⟩
    rcases hcase with ⟨hne, hlost⟩ | ⟨rfl, hlost⟩
    · exact Or.inl ⟨hlost, ids_ne_nil.mpr hne⟩
    · exact Or.inr ⟨hlost, rfl⟩
  | mntqrm r =>
    obtain ⟨⟨hlive, -⟩, heq⟩ := ite_none_right_eq_some.mp hact
    cases heq
    have hinv := @Inv.free _ _ { s.get r with done := true } _ h (get_lt hlive) [] _
      (fun a => by rw [count_nil, Nat.zero_add]) (erase_subset (a := r))
    rw [append_nil] at hinv
    exact hkeep hinv id
  | bl2mem r n =>
    obtain ⟨⟨hlive, -⟩, heq⟩ := ite_none_right_eq_some.mp hact
    cases heq
    refine hkeep (h.free (get_lt hlive) (fun a => ?_) (List.Subset.refl _)) id
    rw [bl2mem_spec n (s.get r).b, count_append]
  | mntfree r =>
    obtain ⟨⟨hlive, -⟩, heq⟩ := ite_none_right_eq_some.mp hact
    cases heq
    exact hkeep (h.free (get_lt hlive) (fun a => (Nat.add_zero _).symm) (List.Subset.refl _)) id

/-- **Blocks of 9P replies**, over every sequence of calls: each block that was taken off the queue is in one place
exactly if no reply was read into a `Mntrpc` that still had the blocks of another, and none was handed over to one. -/
theorem blocks_accounted {acts : List Act} (hrun : StepSystem.exec act init acts = some s) :
    (Accounted s ↔ StepSystem.Spared act Lost init acts) ∧
      (Accounted s → (∀ x ∈ s.rpc, x.b = []) → ∀ a ∈ s.taken, s.freed.count a = 1) := by
  constructor
  · have hloss := @StepSystem.exec_loss _ _ _ Lost (fun s n => ∃ dropped, Inv s dropped ∧ dropped.length = n)
      (fun s i t n => by
        rintro ⟨dropped, h, rfl⟩ hact
        obtain ⟨lost, hinv, hcase⟩ := h.act hact
        refine ⟨_, ⟨_, hinv, rfl⟩, ?_⟩
        rw [length_append]
        rcases hcase with ⟨hlost, hne⟩ | ⟨hlost, rfl⟩
        · exact Or.inl ⟨hlost, Nat.lt_add_of_pos_right (List.length_pos_iff.mpr hne)⟩
        · exact Or.inr ⟨hlost, rfl⟩) _ _ _ _ ⟨[], inv_init, rfl⟩ hrun
    obtain ⟨n, ⟨dropped, hinv, hlen⟩, -, hiff⟩ := hloss
    rw [← hiff, hinv.accounted_iff, ← hlen]
    exact List.length_eq_zero_iff.symm
  · rintro ⟨-, hall⟩ hempty a ha
    have howned : s.owned a = 0 := by
      refine sum_eq_zero fun k hk => ?_
      obtain ⟨x, hx, rfl⟩ := List.mem_map.mp hk
      rw [hempty x hx]
      rfl
    have hone := hall a ha
    rwa [howned] at hone

/-- A reply that nobody waits for, and the request is given up. -/
def given : List Act :=
  [.mntralloc 1, .mountio 0, .input [(0, 30)], .mntrpcread 0 11 20 9 1, .mountmux 0, .mntqrm 0, .mntfree 0]

theorem blocks_accounted_given : ∃ s, StepSystem.exec act init given = some s ∧ s.taken = [0] ∧ s.freed = [0] ∧
    Accounted s := by
  have hrun : StepSystem.exec act init given = some ((StepSystem.exec act init given).getD init) :=
    StepSystem.exec_getD (by decide +kernel)
  exact ⟨_, hrun, by decide +kernel, by decide +kernel, (blocks_accounted hrun).1.mpr (by decide +kernel)⟩

/-- A reply that nobody waits for, and the next one. -/
def unexpected : List Act :=
  [.mntralloc 1, .mountio 0, .input [(0, 20)], .mntrpcread 0 11 20 9 1, .mountmux 0, .input [(2, 20)],
    .mntrpcread 0 11 20 1 3, .mountmux 0, .mntfree 0]

/-- The first block is never freed. -/
theorem block_dropped : ¬ ∀ (acts : List Act) (s : Mnt), StepSystem.exec act init acts = some s → Accounted s := by
  intro hall
  have hrun : StepSystem.exec act init unexpected = some ((StepSystem.exec act init unexpected).getD init) :=
    StepSystem.exec_getD (by decide +kernel)
  have hone := (hall _ _ hrun).2 0 (by decide +kernel)
  exact absurd hone (by decide +kernel)

end MntBlocks
