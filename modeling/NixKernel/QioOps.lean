import NixKernel.QioRep

/-!
# The interrupt-level readers, as functions on lists

`qget`, `qdiscard` and `qconsume` run under the queue's lock.  For each of
them this file states what it does to the list of blocks in the queue:
`discardCells` and `consumeRest` are the list functions behind the last two.
The wakeup of the writer is kept as the call of `restart`, since it depends on
the flags only.
-/

namespace Qio

open HeapChain List Option
open Function (update update_self update_of_ne)

/-- `restart` only touches the `Qflow` bit. -/
theorem restart_fst (q : Queue) :
    (restart q).1 = { q with state := { q.state with flow := (restart q).1.state.flow } } := by
  unfold restart
  split <;> rfl

variable {s : Qs} {l : Cells}

theorem Rep.with_restart (h : Rep s l) :
    Rep { s with q := (restart s.q).1 } l := by
  rw [restart_fst]
  exact h.congr (fun _ _ => rfl) rfl rfl rfl rfl

/-- What a reading section returns: the writer restarted, the lock released. -/
def restarted {α : Type} (s : Qs) (val : α) : Ret α :=
  ⟨{ s with q := (restart s.q).1 }, val, false, (restart s.q).2⟩

/-- `unstarve` only touches the `Qstarve` bit. -/
theorem unstarve_fst (q : Queue) :
    (unstarve q).1 = { q with state := { q.state with starve := false } } := by
  unfold unstarve
  split
  · rfl
  · next h =>
      have hs : q.state.starve = false := by simpa using h
      rw [← hs]

theorem unstarve_snd (q : Queue) : (unstarve q).2 = q.state.starve := by
  unfold unstarve
  split
  · next h => exact h.symm
  · next h => simpa using h

theorem Rep.with_unstarve (h : Rep s l) :
    Rep { s with q := (unstarve s.q).1 } l := by
  rw [unstarve_fst]
  exact h.congr (fun _ _ => rfl) rfl rfl rfl rfl

/-- Changing flags, limits or the end-of-file count keeps the contents. -/
theorem Rep.with_queue (h : Rep s l) {q : Queue} (hfirst : q.bfirst = s.q.bfirst)
    (hlast : q.blast = s.q.blast) (hlen : q.len = s.q.len) (hdlen : q.dlen = s.q.dlen) :
    Rep { s with q } l :=
  h.congr (fun _ _ => rfl) hfirst hlast hlen hdlen

/-- A heap that agrees on the chain represents the same queue. -/
theorem Rep.with_heap (h : Rep s l) {heap : Heap} (heq : ∀ a ∈ addrs l, heap a = s.heap a) :
    Rep { s with heap } l :=
  h.congr heq rfl rfl rfl rfl

theorem qget_empty (h : Rep s []) :
    qget s = some { st := { s with q := { s.q with
      state := { s.q.state with starve := true } } }, val := none } := by
  simp [qget, h.bfirst_nil]

variable {a : Addr} {v : Buf}

theorem qget_cons {t : Cells} (h : Rep s ((a, v) :: t)) :
    ∃ s', qget s = some (restarted s' (some a)) ∧
      Moves [a] s t s' ∧ s'.heap a = some ⟨none, v⟩ := by
  obtain ⟨s', hrun, hm, ha⟩ := qremove_spec h
  exact ⟨s', by simp [qget, h.bfirst_cons, hrun, restarted], hm, ha⟩

/-- The blocks left when `len` bytes are thrown away.  Blocks that empty are
freed; with bytes still to go, empty blocks are freed too. -/
def discardCells : Nat → Cells → Cells
  | _, [] => []
  | len, (a, v) :: t =>
    if len = 0 then (a, v) :: t
    else if v.blen ≤ len then discardCells (len - v.blen) t
    else (a, v.pull len) :: t

theorem flat_discardCells (len : Nat) (l : Cells) :
    flat (discardCells len l) = (flat l).drop len := by
  induction l generalizing len with
  | nil => simp [discardCells]
  | cons c t ih =>
    obtain ⟨a, v⟩ := c
    simp only [discardCells]
    split
    · next h => simp [h]
    · split
      · next h =>
          rw [ih, flat_cons, drop_append, drop_eq_nil_of_le h]
          rfl
      · next h =>
          have hlt : len < v.data.length := by simpa [Buf.blen] using h
          rw [flat_cons, flat_cons, Buf.data_pull, drop_append,
            Nat.sub_eq_zero_of_le (Nat.le_of_lt hlt), drop_zero]

theorem addrs_discardCells (len : Nat) (l : Cells) :
    ∀ x ∈ addrs (discardCells len l), x ∈ addrs l := by
  induction l generalizing len with
  | nil => simp [discardCells]
  | cons c t ih =>
    obtain ⟨a, v⟩ := c
    intro x hx
    simp only [discardCells] at hx
    split at hx
    · exact hx
    · split at hx
      · exact mem_cons_of_mem _ (ih _ x hx)
      · exact hx

/-- The first block gives up `n` of its bytes and stays. -/
theorem Rep.pull_head {t : Cells} {n : Nat} {b : Block} (h : Rep s ((a, v) :: t))
    (hb : s.heap a = some b) (hn : n ≤ v.blen) :
    Moves [a] s ((a, v.pull n) :: t)
      { heap := update s.heap a (some { b with val := b.val.pull n }),
        q := { s.q with dlen := int32 (s.q.dlen - n) } } := by
  have hnot := h.chain.head_not_mem
  obtain ⟨hp, m, ha, htail⟩ := chain_cons.mp h.chain
  have hbv : b = ⟨m, v⟩ := some.inj (hb.symm.trans ha)
  subst hbv
  refine ⟨⟨?_, ?_, ?_, ?_⟩, ?_, rfl⟩
  · rw [hp]
    exact htail.cons_update hnot
  · simpa using h.len
  · have hsum : ((sumBlen ((a, v) :: t) : Nat) : Int) - n = sumBlen ((a, v.pull n) :: t) := by
      simp only [sumBlen_cons, Buf.blen_pull]
      omega
    rw [h.dlen, int32_sub_int32, hsum]
  · intro z hz
    exact h.last z (by simpa using hz)
  · intro x hx
    exact update_of_ne (by simpa using hx) _ _

/-- The first block comes off and is freed. -/
theorem qremove_freeb_spec {t : Cells} (h : Rep s ((a, v) :: t)) :
    ∃ s' heap, qremove s = some (s', some a) ∧ freeb s'.heap a = some heap ∧
      Moves [a] s t { s' with heap } ∧ heap a = none := by
  obtain ⟨s', hrun, hm, ha⟩ := qremove_spec h
  have hnot := h.chain.head_not_mem
  refine ⟨s', update s'.heap a none, hrun, by simp [freeb, ha], ⟨?_, ?_, hm.ctl⟩, by simp⟩
  · refine hm.rep.with_heap ?_
    intro x hx
    refine update_of_ne ?_ _ _
    rintro rfl
    exact hnot hx
  · intro x hx
    have hxa : x ≠ a := by simpa using hx
    show update s'.heap a none x = s.heap x
    rw [update_of_ne hxa, hm.off x hx]

theorem qdiscardLoop_spec (h : Rep s l) (len sofar : Nat) (gone : List UInt8) (hle : sofar ≤ len) :
    ∃ s', qdiscardLoop s len sofar gone =
        some (s', sofar + min (len - sofar) (flat l).length,
          gone ++ (flat l).take (len - sofar)) ∧
      Moves (addrs l) s (discardCells (len - sofar) l) s' := by
  induction l generalizing s sofar gone with
  | nil =>
    refine ⟨s, ?_, (Moves.refl h).weaken (by simp)⟩
    rw [qdiscardLoop]
    simp [h.bfirst_nil]
  | cons c t ih =>
    obtain ⟨a, v⟩ := c
    by_cases hlt : sofar < len
    · obtain ⟨hp, m, ha, htail⟩ := chain_cons.mp h.chain
      by_cases hv : v.blen ≤ len - sofar
      · obtain ⟨s₁, heap, hrem, hfree, hm, _⟩ := qremove_freeb_spec h
        obtain ⟨s', hrun, hm'⟩ :=
          ih hm.rep (sofar + v.blen) (gone ++ v.data) (by omega)
        refine ⟨s', ?_, ?_⟩
        · rw [qdiscardLoop]
          simp only [hlt, if_true, hp, ha, bind_eq_bind, bind_some, hv, hrem, hfree]
          rw [hrun]
          have hlen : v.data.length = v.blen := rfl
          have hcount : sofar + v.blen + min (len - (sofar + v.blen)) (flat t).length =
              sofar + min (len - sofar) (v.blen + (flat t).length) := by omega
          rw [flat_cons, length_append, take_append, hlen,
            take_of_length_le hv, Nat.sub_sub, append_assoc, hcount]
        · have hne : len - sofar ≠ 0 := by omega
          have hcells : discardCells (len - sofar) ((a, v) :: t) =
              discardCells (len - (sofar + v.blen)) t := by
            simp [discardCells, hne, hv, Nat.sub_sub]
          rw [hcells]
          exact (hm.trans hm').weaken (by simp)
      · have hn : len - sofar ≤ v.blen := by omega
        have hpull := h.pull_head ha hn
        have hne : len - sofar ≠ 0 := by omega
        have hcells : discardCells (len - sofar) ((a, v) :: t) =
            (a, v.pull (len - sofar)) :: t := by
          simp [discardCells, hne, hv]
        rw [hcells]
        refine ⟨_, ?_, hpull.weaken (by simp)⟩
        rw [qdiscardLoop]
        simp only [hlt, if_true, hp, ha, bind_eq_bind, bind_some, hv, if_false]
        rw [qdiscardLoop]
        have hdone : ¬ sofar + (len - sofar) < len := by omega
        have hlen : v.data.length = v.blen := rfl
        have hcount : sofar + (len - sofar) =
            sofar + min (len - sofar) (v.blen + (flat t).length) := by omega
        simp only [hdone, if_false]
        rw [flat_cons, length_append, take_append, hlen,
          Nat.sub_eq_zero_of_le hn, take_zero, append_nil, ← hcount]
    · have hz : len - sofar = 0 := by omega
      refine ⟨s, ?_, ?_⟩
      · rw [qdiscardLoop]
        simp [hlt, hz]
      · rw [hz]
        have hcells : discardCells 0 ((a, v) :: t) = (a, v) :: t := by simp [discardCells]
        rw [hcells]
        exact (Moves.refl h).weaken (by simp)

/-- `qdiscard` drops the first `len` bytes, or all of them. -/
theorem qdiscard_spec (h : Rep s l) (len : Nat) :
    ∃ s', qdiscard s len =
        some (restarted s' (min len (flat l).length, (flat l).take len)) ∧
      Moves (addrs l) s (discardCells len l) s' := by
  obtain ⟨s', hrun, hm⟩ := qdiscardLoop_spec h len 0 [] (Nat.zero_le _)
  refine ⟨s', ?_, by simpa using hm⟩
  simp [qdiscard, hrun, restarted]

/-- The queue without the empty blocks at its front. -/
def skipEmpty : Cells → Cells
  | [] => []
  | (a, v) :: t => if 0 < v.blen then (a, v) :: t else skipEmpty t

theorem flat_skipEmpty (l : Cells) : flat (skipEmpty l) = flat l := by
  induction l with
  | nil => rfl
  | cons c t ih =>
    obtain ⟨a, v⟩ := c
    simp only [skipEmpty]
    split
    · rfl
    · next h =>
        have hnil : v.data = [] := by simpa [Buf.blen] using h
        simp [ih, hnil]

theorem addrs_skipEmpty (l : Cells) : ∀ x ∈ addrs (skipEmpty l), x ∈ addrs l := by
  induction l with
  | nil => simp [skipEmpty]
  | cons c t ih =>
    intro x hx
    simp only [skipEmpty] at hx
    split at hx
    · exact hx
    · exact mem_cons_of_mem _ (ih x hx)

theorem blen_pos_of_skipEmpty {l t : Cells} (h : skipEmpty l = (a, v) :: t) : 0 < v.blen := by
  induction l with
  | nil => cases h
  | cons c l ih =>
    simp only [skipEmpty] at h
    split at h
    · next hpos =>
        cases h
        exact hpos
    · exact ih h

/-- The first block, an empty one, goes to `tofree`. -/
theorem Rep.skip_head {t : Cells} {m : Option Addr} (h : Rep s ((a, v) :: t)) (tofree : Option Addr)
    (ha : s.heap a = some ⟨m, v⟩) (hzero : v.blen = 0) :
    Moves [a] s t { heap := update s.heap a (some ⟨tofree, v⟩),
                    q := { s.q with bfirst := m, len := int32 (s.q.len - v.balloc) } } := by
  have hnot := h.chain.head_not_mem
  obtain ⟨hp, n, hn, htail⟩ := chain_cons.mp h.chain
  cases hn.symm.trans ha
  refine ⟨⟨htail.update_ne hnot, ?_, ?_, ?_⟩, ?_, rfl⟩
  · simp [h.len]
  · simpa [hzero] using h.dlen
  · intro z hz
    apply h.last
    rw [addrs_cons, List.getLast?_cons, hz]
    rfl
  · intro x hx
    exact update_of_ne (by simpa using hx) _ _

theorem qconsumeSkip_spec {l f : Cells} {tofree : Option Addr} (h : Rep s l)
    (hf : Chain s.heap tofree f) (hdisj : (addrs l).Disjoint (addrs f)) :
    ∃ s' tofree' f', qconsumeSkip s tofree = some (s', tofree') ∧
      Moves (addrs l) s (skipEmpty l) s' ∧ Chain s'.heap tofree' f' ∧
      (∀ x ∈ addrs f', x ∈ addrs l ∨ x ∈ addrs f) ∧
      (addrs (skipEmpty l)).Disjoint (addrs f') := by
  induction l generalizing s f tofree with
  | nil =>
    refine ⟨s, tofree, f, ?_, (Moves.refl h).weaken (by simp), hf, by simp, hdisj⟩
    rw [qconsumeSkip]
    simp [h.bfirst_nil]
  | cons c t ih =>
    obtain ⟨a, v⟩ := c
    have hnot := h.chain.head_not_mem
    obtain ⟨hp, m, ha, htail⟩ := chain_cons.mp h.chain
    by_cases hpos : 0 < v.blen
    · have hskip : skipEmpty ((a, v) :: t) = (a, v) :: t := by simp [skipEmpty, hpos]
      rw [hskip]
      refine ⟨s, tofree, f, ?_, (Moves.refl h).weaken (by simp), hf, ?_, hdisj⟩
      · rw [qconsumeSkip]
        simp [hp, ha, hpos]
      · exact fun x hx => Or.inr hx
    · have hskip : skipEmpty ((a, v) :: t) = skipEmpty t := by simp [skipEmpty, hpos]
      have hzero : v.blen = 0 := by omega
      have haf : a ∉ addrs f := fun hmem => hdisj (by simp) hmem
      have hm₁ := h.skip_head tofree ha hzero
      have hf₁ := hf.cons_update (v := v) haf
      have hdisj₁ : (addrs t).Disjoint (addrs ((a, v) :: f)) := by
        intro x hxt hxf
        rcases mem_cons.mp hxf with rfl | hx
        · exact hnot hxt
        · exact hdisj (mem_cons_of_mem _ hxt) hx
      obtain ⟨s', tofree', f', hrun, hm, hf', hsub, hd'⟩ := ih hm₁.rep hf₁ hdisj₁
      rw [hskip]
      refine ⟨s', tofree', f', ?_, (hm₁.trans hm).weaken (by simp), hf', ?_, hd'⟩
      · rw [qconsumeSkip]
        simpa [hp, ha, hpos] using hrun
      · intro x hx
        rcases hsub x hx with hx' | hx'
        · exact Or.inl (mem_cons_of_mem _ hx')
        · rcases mem_cons.mp hx' with rfl | hxf
          · exact Or.inl mem_cons_self
          · exact Or.inr hxf

/-- The blocks left by `qconsume` when its first nonempty block is `(a, v)`. -/
def consumeRest (msg : Bool) (len : Nat) (a : Addr) (v : Buf) (t : Cells) : Cells :=
  if msg ∨ v.blen ≤ len then t else (a, v.pull len) :: t

theorem qconsume_empty (h : Rep s l) (len : Nat) (hskip : skipEmpty l = []) :
    ∃ s', qconsume s len = some { st := { s' with q := { s'.q with
        state := { s'.q.state with starve := true } } }, val := none } ∧
      Moves (addrs l) s [] s' := by
  obtain ⟨s', tofree, f, hrun, hm, _⟩ :=
    qconsumeSkip_spec h (chain_nil.mpr rfl) (by simp)
  rw [hskip] at hm
  exact ⟨s', by simp [qconsume, hrun, hm.rep.bfirst_nil], hm⟩

/-- `qconsume` copies out the start of the first nonempty block. -/
theorem qconsume_cons {l t : Cells} (h : Rep s l) (len : Nat) (hskip : skipEmpty l = (a, v) :: t) :
    ∃ s', qconsume s len = some (restarted s' (some (v.data.take len))) ∧
      Moves (addrs l) s (consumeRest s.q.state.msg len a v t) s' := by
  obtain ⟨s₁, tofree, f, hrun, hm, hf, hsub, hdisj⟩ :=
    qconsumeSkip_spec h (chain_nil.mpr rfl) (by simp)
  rw [hskip] at hm hdisj
  have hmsg : s₁.q.state.msg = s.q.state.msg := by rw [Queue.state_of_ctl hm.ctl]
  have hal : a ∈ addrs l := addrs_skipEmpty l a (by rw [hskip]; simp)
  have hfl : ∀ x ∈ addrs f, x ∈ addrs l := by
    intro x hx
    rcases hsub x hx with hx' | hx'
    · exact hx'
    · cases hx'
  have haf : a ∉ addrs f := fun hmem => hdisj (by simp) hmem
  have htake : v.data.take (min v.blen len) = v.data.take len := by
    rw [← take_take, take_of_length_le]
    rw [length_take]
    exact Nat.min_le_right _ _
  obtain ⟨hp, m, ha, _⟩ := chain_cons.mp hm.rep.chain
  have hpull := hm.rep.pull_head (n := min v.blen len) ha (Nat.min_le_left _ _)
  by_cases hwhole : s.q.state.msg = true ∨ v.blen ≤ len
  · have hcond : s₁.q.state.msg = true ∨ min v.blen len = v.blen := by
      rw [hmsg]
      rcases hwhole with hw | hw
      · exact Or.inl hw
      · exact Or.inr (Nat.min_eq_left hw)
    obtain ⟨s₂, hrem, hm₂, _⟩ := qremove_spec hpull.rep
    let b₁ : Block := ⟨tofree, v.pull (min v.blen len)⟩
    have hchain : Chain (update s₁.heap a (some b₁)) (some a)
        ((a, v.pull (min v.blen len)) :: f) := hf.cons_update haf
    obtain ⟨heap, hfree, hgone, hkeep⟩ := freeblist_spec hchain
    have hq₂ : s₂.q = { s₁.q with
        bfirst := m
        dlen := int32 (int32 (s₁.q.dlen - (min v.blen len : Nat)) - (v.blen - min v.blen len : Nat))
        len := int32 (s₁.q.len - v.balloc) } := by
      obtain ⟨hfirst, m', ha', _⟩ := chain_cons.mp hpull.rep.chain
      rw [qremove_eq hfirst ha'] at hrem
      cases (update_self ..).symm.trans ha'
      cases hrem
      simp
    have hoff₂ : ∀ x ∉ addrs l, heap x = s.heap x := by
      intro x hx
      have hxa : x ≠ a := by
        rintro rfl
        exact hx hal
      rw [hkeep x (by simpa [hxa] using fun hxf => hx (hfl x hxf)), update_of_ne hxa, hm.off x hx]
    refine ⟨⟨heap, s₂.q⟩, ?_, ⟨?_, hoff₂, ?_⟩⟩
    · simp only [qconsume, hrun, bind_eq_bind, bind_some, hp, ha, hcond, if_true]
      simp only [b₁] at hfree
      simp [hfree, restarted, hq₂, htake]
    · have hrest : consumeRest s.q.state.msg len a v t = t := by simp [consumeRest, hwhole]
      rw [hrest]
      refine hm₂.rep.congr ?_ rfl rfl rfl rfl
      intro x hx
      have hnot := hm.rep.chain.head_not_mem
      have hxa : x ≠ a := by
        rintro rfl
        exact hnot hx
      have hxf : x ∉ addrs f := fun hmem => hdisj (mem_cons_of_mem _ hx) hmem
      show heap x = s₂.heap x
      rw [hkeep x (by simp [hxa, hxf]), update_of_ne hxa, hm₂.off x (by simpa using hxa)]
      simp [update_of_ne hxa]
    · rw [hm₂.ctl, hpull.ctl, hm.ctl]
  · have hcond : ¬ (s₁.q.state.msg = true ∨ min v.blen len = v.blen) := by
      rw [hmsg]
      rintro (hw | hw)
      · exact hwhole (Or.inl hw)
      · exact hwhole (Or.inr (by omega))
    have hlt : min v.blen len = len := by
      rw [not_or] at hwhole
      omega
    rw [hlt] at hpull
    obtain ⟨heap, hfree, hgone, hkeep⟩ := freeblist_spec
      (hf.update_ne (c := some ⟨m, v.pull len⟩) haf)
    refine ⟨⟨heap, { s₁.q with dlen := int32 (s₁.q.dlen - len) }⟩, ?_, ⟨?_, ?_, ?_⟩⟩
    · simp only [qconsume, hrun, bind_eq_bind, bind_some, hp, ha, hcond, if_false]
      simp [hfree, restarted, hlt]
    · have hrest : consumeRest s.q.state.msg len a v t = (a, v.pull len) :: t := by
        simp [consumeRest, hwhole]
      rw [hrest]
      refine hpull.rep.congr ?_ rfl rfl rfl rfl
      intro x hx
      exact hkeep x (fun hxf => hdisj (by simpa using hx) hxf)
    · intro x hx
      have hxa : x ≠ a := by
        rintro rfl
        exact hx hal
      show heap x = s.heap x
      rw [hkeep x (fun hxf => hx (hfl x hxf)), update_of_ne hxa, hm.off x hx]
    · exact hpull.ctl.trans hm.ctl

end Qio
