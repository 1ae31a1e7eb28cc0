import NixKernel.QioOps

/-!
# qread and qbread, as functions on lists

`qread` takes blocks off the queue under the lock (`readSplit`), copies out of
them without it (`bl2memRest`) and puts the rest back under the lock again.
`qbread` does its work in one section, splitting a block that is too long.
-/

namespace Qio

open HeapChain List Option
open Function (update update_self update_of_ne)

/-- What `bl2mem` leaves of a private list when `n` bytes are copied out. -/
def bl2memRest : Nat → Cells → Cells
  | _, [] => []
  | n, (a, v) :: t =>
    if n < v.blen then (a, v.pull n) :: t else bl2memRest (n - v.blen) t

theorem flat_bl2memRest (n : Nat) (l : Cells) :
    flat (bl2memRest n l) = (flat l).drop n := by
  induction l generalizing n with
  | nil => simp [bl2memRest]
  | cons c t ih =>
    obtain ⟨a, v⟩ := c
    simp only [bl2memRest]
    split
    · next h =>
        have hlt : n < v.data.length := by simpa [Buf.blen] using h
        rw [flat_cons, flat_cons, Buf.data_pull, drop_append,
          Nat.sub_eq_zero_of_le (Nat.le_of_lt hlt), drop_zero]
    · next h =>
        have hle : v.data.length ≤ n := by simpa [Buf.blen] using h
        rw [ih, flat_cons, drop_append, drop_eq_nil_of_le hle]
        rfl

theorem addrs_bl2memRest (n : Nat) (l : Cells) :
    ∀ x ∈ addrs (bl2memRest n l), x ∈ addrs l := by
  induction l generalizing n with
  | nil => simp [bl2memRest]
  | cons c t ih =>
    intro x hx
    simp only [bl2memRest] at hx
    split at hx
    · exact hx
    · exact mem_cons_of_mem _ (ih _ x hx)

/-- `bl2mem` copies the first `n` bytes of its list and keeps the rest. -/
theorem bl2mem_spec {h : Heap} {p : Option Addr} {l : Cells} (hc : Chain h p l) (n : Nat) :
    ∃ h' p', bl2mem h p n = some (h', (flat l).take n, p') ∧
      Chain h' p' (bl2memRest n l) ∧ ∀ x ∉ addrs l, h' x = h x := by
  induction l generalizing h p n with
  | nil =>
    refine ⟨h, none, ?_, rfl, fun _ _ => rfl⟩
    rw [chain_nil.mp hc, bl2mem]
    simp
  | cons c t ih =>
    obtain ⟨a, v⟩ := c
    have hnot := hc.head_not_mem
    obtain ⟨rfl, m, ha, htail⟩ := chain_cons.mp hc
    by_cases hn : n < v.blen
    · have hrest : bl2memRest n ((a, v) :: t) = (a, v.pull n) :: t := by simp [bl2memRest, hn]
      rw [hrest]
      refine ⟨_, some a, ?_, htail.cons_update (v := v.pull n) hnot, ?_⟩
      · rw [bl2mem]
        have hz : n - v.data.length = 0 := Nat.sub_eq_zero_of_le (Nat.le_of_lt hn)
        simp [ha, hn, take_append, hz]
      · intro x hx
        refine update_of_ne ?_ _ _
        rintro rfl
        exact hx (by simp)
    · have hrest : bl2memRest n ((a, v) :: t) = bl2memRest (n - v.blen) t := by
        simp [bl2memRest, hn]
      rw [hrest]
      obtain ⟨h', p', hrun, hc', hoff⟩ :=
        ih (htail.update_ne (c := none) hnot) (n - v.blen)
      refine ⟨h', p', ?_, hc', ?_⟩
      · have hfree : freeb (update h a (some ⟨m, v.pull v.blen⟩)) a =
            some (update h a none) := by simp [freeb]
        have hlen : v.data.length = v.blen := rfl
        have hwhole : v.data.take n = v.data := take_of_length_le (by omega)
        rw [bl2mem]
        simp only [ha, bind_eq_bind, bind_some, hn, if_false, hfree, hrun]
        rw [flat_cons, take_append, hlen, hwhole]
        rfl
      · intro x hx
        rw [addrs_cons, mem_cons, not_or] at hx
        rw [hoff x hx.2, update_of_ne hx.1]

/-- A fault in the copy leaves one block of the list in use, and the rest of the heap as it is. -/
theorem bl2memFault_spec {p : Option Addr} {n k : Nat} {l : Cells} (hc : Chain h p l)
    (hrun : bl2memFault h p n k = some h') :
    (∃ x ∈ addrs l, h' x ≠ none) ∧ ∀ x ∉ addrs l, h' x = h x := by
  induction k generalizing h p n l with
  | zero =>
    simp only [bl2memFault, bind_eq_bind, bind_eq_some_iff] at hrun
    obtain ⟨a, rfl, b, hb, hrun⟩ := hrun
    obtain ⟨v, m, t, rfl, ha, _⟩ := hc.exists_cons
    split at hrun
    · cases hrun
      exact ⟨⟨a, by simp, by simp [ha]⟩, fun _ _ => rfl⟩
    · cases hrun
  | succ k ih =>
    simp only [bl2memFault, bind_eq_bind, bind_eq_some_iff] at hrun
    obtain ⟨a, rfl, b, hb, hrun⟩ := hrun
    obtain ⟨v, m, t, rfl, ha, htail⟩ := hc.exists_cons
    cases ha.symm.trans hb
    split at hrun
    · cases hrun
    · have hnot := hc.head_not_mem
      have hfree : freeb (update h a (some ⟨m, v.pull v.blen⟩)) a = some (update h a none) := by
        simp [freeb]
      rw [hfree, bind_some] at hrun
      obtain ⟨⟨x, hx, hlive⟩, hoff⟩ := ih (htail.update_ne (c := none) hnot) hrun
      refine ⟨⟨x, mem_cons_of_mem _ hx, hlive⟩, fun y hy => ?_⟩
      rw [addrs_cons, mem_cons, not_or] at hy
      rw [hoff y hy.2, update_of_ne hy.1]

/-- "as many following blocks as will partially fit": the blocks `qread` takes
when it has `n` bytes of `len` already, and the blocks it leaves. -/
def grab : Nat → Nat → Cells → Cells × Cells
  | _, _, [] => ([], [])
  | len, n, c :: t =>
    if len ≤ n then ([], c :: t)
    else (c :: (grab len (n + c.2.blen) t).1, (grab len (n + c.2.blen) t).2)

theorem grab_append (len n : Nat) (l : Cells) : (grab len n l).1 ++ (grab len n l).2 = l := by
  induction l generalizing n with
  | nil => rfl
  | cons c t ih =>
    simp only [grab]
    split
    · rfl
    · simp [ih]

/-- Only the last block taken can be left over after the copy. -/
theorem length_bl2memRest_grab (len n : Nat) (l : Cells) :
    (bl2memRest (len - n) (grab len n l).1).length ≤ 1 := by
  induction l generalizing n with
  | nil => simp [grab, bl2memRest]
  | cons c t ih =>
    obtain ⟨a, v⟩ := c
    simp only [grab]
    split
    · simp [bl2memRest]
    · next hlt =>
        simp only [bl2memRest]
        split
        · next hv =>
            have hstop : len ≤ n + v.blen := by omega
            have hnil : (grab len (n + v.blen) t).1 = [] := by
              cases t with
              | nil => rfl
              | cons d t => simp [grab, hstop]
            simp [hnil]
        · have heq : len - n - v.blen = len - (n + v.blen) := by omega
          rw [heq]
          exact ih _

theorem length_bl2memRest_cons_grab (len : Nat) (a : Addr) (v : Buf) (l : Cells) :
    (bl2memRest len ((a, v) :: (grab len v.blen l).1)).length ≤ 1 := by
  simp only [bl2memRest]
  split
  · next hv =>
      have hnil : (grab len v.blen l).1 = [] := by
        cases l with
        | nil => rfl
        | cons d t => simp [grab, Nat.le_of_lt hv]
      simp [hnil]
  · exact length_bl2memRest_grab len v.blen l

variable {s : Qs}

/-- The gathering loop of `qread`: blocks move from the queue to the end of the
private list. -/
theorem qreadGrab_spec {l k : Cells} {p : Option Addr} {last : Addr} {w : Buf} (h : Rep s l)
    (hk : Chain s.heap p (k ++ [(last, w)]))
    (hdisj : (addrs l).Disjoint (addrs (k ++ [(last, w)]))) (len n : Nat) :
    ∃ s', qreadGrab s len last n = some (s', n + sumBlen (grab len n l).1) ∧
      Moves (addrs l ++ addrs (k ++ [(last, w)])) s (grab len n l).2 s' ∧
      Chain s'.heap p (k ++ (last, w) :: (grab len n l).1) := by
  induction l generalizing s k last w n with
  | nil =>
    refine ⟨s, ?_, (Moves.refl h).weaken (by simp), by simpa [grab] using hk⟩
    rw [qreadGrab]
    simp [h.bfirst_nil, grab]
  | cons c t ih =>
    obtain ⟨a, v⟩ := c
    by_cases hstop : len ≤ n
    · have hgrab : grab len n ((a, v) :: t) = ([], (a, v) :: t) := by simp [grab, hstop]
      rw [hgrab]
      refine ⟨s, ?_, (Moves.refl h).weaken (by simp), by simpa using hk⟩
      rw [qreadGrab]
      simp [hstop]
    · have hgrab : grab len n ((a, v) :: t) =
          ((a, v) :: (grab len (n + v.blen) t).1, (grab len (n + v.blen) t).2) := by
        simp [grab, hstop]
      obtain ⟨hp, m, ha, _⟩ := chain_cons.mp h.chain
      obtain ⟨s₁, hrem, hm₁, ha₁⟩ := qremove_spec h
      have hak : a ∉ addrs (k ++ [(last, w)]) := fun hmem => hdisj (by simp) hmem
      have hk₁ : Chain s₁.heap p (k ++ [(last, w)]) := by
        refine hk.frame ?_
        intro x hx
        refine hm₁.off x ?_
        rw [mem_singleton]
        rintro rfl
        exact hak hx
      obtain ⟨m', hlast⟩ := hk₁.lookup (a := last) (v := w) (by simp)
      have halast : last ≠ a := by
        rintro rfl
        exact hak (by simp)
      have hone : Chain s₁.heap (some a) [(a, v)] := ⟨rfl, none, ha₁, rfl⟩
      let s₂ : Qs := { s₁ with heap := update s₁.heap last (some ⟨some a, w⟩) }
      have hk₂ : Chain s₂.heap p ((k ++ [(last, w)]) ++ [(a, v)]) := by
        have hlink := hk₁.link_last hone (by simpa using halast)
        simpa [s₂] using hlink
      have hlastt : last ∉ addrs t :=
        fun hmem => hdisj (mem_cons_of_mem _ hmem) (by simp)
      have hm₂ : Moves [last] s₁ t s₂ := by
        refine ⟨hm₁.rep.with_heap ?_, ?_, rfl⟩
        · intro x hx
          refine update_of_ne ?_ _ _
          rintro rfl
          exact hlastt hx
        · intro x hx
          exact update_of_ne (by simpa using hx) _ _
      have hdisj₂ : (addrs t).Disjoint (addrs ((k ++ [(last, w)]) ++ [(a, v)])) := by
        intro x hxt hx
        rw [addrs_append, mem_append] at hx
        rcases hx with hx | hx
        · exact hdisj (mem_cons_of_mem _ hxt) hx
        · rw [addrs_cons, addrs_nil, mem_singleton] at hx
          subst hx
          exact h.chain.head_not_mem hxt
      obtain ⟨s', hrun, hm', hchain⟩ := ih hm₂.rep hk₂ hdisj₂ (n + v.blen)
      rw [hgrab]
      refine ⟨s', ?_, ((hm₁.trans hm₂).trans hm').weaken ?_, by simpa using hchain⟩
      · rw [qreadGrab]
        simp only [hstop, if_false, hp, ha, bind_eq_bind, bind_some, hrem, hlast]
        simpa [s₂, Nat.add_assoc] using hrun
      · intro x hx
        simp at hx ⊢
        tauto

/-- How the first section of `qread` goes, by the list in the queue: the blocks
it takes and the blocks it leaves, or `none` when there is nothing to take. -/
def readSplit (coalesce : Bool) (len : Nat) : Cells → Option (Cells × Cells)
  | [] => none
  | (a, v) :: t =>
    if coalesce then
      if v.blen = 0 then readSplit coalesce len t
      else some ((a, v) :: (grab len v.blen t).1, (grab len v.blen t).2)
    else some ([(a, v)], t)

variable {coalesce : Bool} {l k r : Cells} {len : Nat}

theorem flat_readSplit (h : readSplit coalesce len l = some (k, r)) :
    flat k ++ flat r = flat l := by
  induction l with
  | nil => cases h
  | cons c t ih =>
    obtain ⟨a, v⟩ := c
    simp only [readSplit] at h
    split at h
    · split at h
      · next hz =>
          have hnil : v.data = [] := by simpa [Buf.blen] using hz
          simp [ih h, hnil]
      · cases h
        have happ := congrArg flat (grab_append len v.blen t)
        simp only [flat_append] at happ
        simp [happ]
    · cases h
      simp

/-- The blocks taken and the blocks left are the end of the queue. -/
theorem readSplit_suffix (h : readSplit coalesce len l = some (k, r)) :
    k ++ r <:+ l := by
  induction l with
  | nil => cases h
  | cons c t ih =>
    obtain ⟨a, v⟩ := c
    simp only [readSplit] at h
    split at h
    · split at h
      · exact (ih h).trans (suffix_cons _ _)
      · cases h
        rw [cons_append, grab_append]
    · cases h
      exact suffix_refl _

theorem disjoint_readSplit (h : readSplit coalesce len l = some (k, r)) (hl : (addrs l).Nodup) :
    (addrs k).Disjoint (addrs r) := by
  have hsub : (addrs (k ++ r)).Sublist (addrs l) := (readSplit_suffix h).sublist.map _
  have hnodup := hl.sublist hsub
  rw [addrs_append] at hnodup
  exact disjoint_of_nodup_append hnodup

/-- At most the last of the blocks taken survives the copy. -/
theorem length_bl2memRest_readSplit (h : readSplit coalesce len l = some (k, r)) :
    (bl2memRest len k).length ≤ 1 := by
  induction l with
  | nil => cases h
  | cons c t ih =>
    obtain ⟨a, v⟩ := c
    simp only [readSplit] at h
    split at h
    · split at h
      · exact ih h
      · cases h
        exact length_bl2memRest_cons_grab len a v t
    · cases h
      simp only [bl2memRest]
      split <;> simp

/-- When no block is taken, every block was empty. -/
theorem readSplit_eq_none {l : Cells} (h : readSplit coalesce len l = none) :
    skipEmpty l = [] ∧ (coalesce = true ∨ l = []) := by
  induction l with
  | nil => exact ⟨rfl, Or.inr rfl⟩
  | cons c t ih =>
    obtain ⟨a, v⟩ := c
    simp only [readSplit] at h
    split at h
    · next hc =>
        split at h
        · next hz => exact ⟨by simp [skipEmpty, hz, (ih h).1], Or.inl hc⟩
        · cases h
    · cases h

/-- The result of `qwait` on an empty queue, as a result of `qread`. -/
def Qwait.taken : Qwait → Taken
  | .closed => .closed
  | .err => .err
  | _ => .sleep

/-- `qwait` finds data exactly when the queue has a block. -/
theorem qwait_data {q : Queue} (h : q.bfirst.isSome) : qwait q = (q, .data) := by
  simp [qwait, h]

theorem qwait_empty {q : Queue} (h : q.bfirst = none) :
    (qwait q).2 ≠ .data ∧ (qwait q).1.bfirst = q.bfirst ∧ (qwait q).1.blast = q.blast ∧
      (qwait q).1.len = q.len ∧ (qwait q).1.dlen = q.dlen := by
  unfold qwait
  simp only [h, isSome_none, Bool.false_eq_true, if_false]
  split
  · split
    · simp
    · split <;> simp
  · simp

theorem Rep.with_qwait (h : Rep s []) : Rep { s with q := (qwait s.q).1 } [] := by
  obtain ⟨_, hfirst, hlast, hlen, hdlen⟩ := qwait_empty h.bfirst_nil
  exact h.with_queue hfirst hlast hlen hdlen

/-- When coalescing, an empty block goes away and `qread` starts again. -/
theorem qreadTake_zero {t : Cells} (h : Rep s ((a, v) :: t)) (hc : s.q.state.coalesce = true)
    (hz : v.blen = 0) : ∃ s₁ heap, qremove s = some (s₁, some a) ∧ freeb s₁.heap a = some heap ∧
      Moves [a] s t { s₁ with heap } ∧ s₁.q.state.coalesce = s.q.state.coalesce ∧
      ∀ len, qreadTake s len = qreadTake { s₁ with heap } len := by
  obtain ⟨hp, m, ha, _⟩ := chain_cons.mp h.chain
  obtain ⟨s₁, heap, hrem, hfree, hm, _⟩ := qremove_freeb_spec h
  refine ⟨s₁, heap, hrem, hfree, hm, ?_, fun len => ?_⟩
  · rw [Queue.state_of_ctl (q := s.q) hm.ctl]
  · rw [qreadTake, qwait_data (by simp [hp])]
    simp [hp, ha, hc, hz, hrem, hfree]

/-- `qread` finds nothing to take: the empty blocks are gone and `qwait`
decides. -/
theorem qreadTake_none {l : Cells} (h : Rep s l) (len : Nat)
    (hsplit : readSplit s.q.state.coalesce len l = none) :
    ∃ s', qreadTake s len = some ({ s' with q := (qwait s'.q).1 }, (qwait s'.q).2.taken) ∧
      Moves (addrs l) s [] s' := by
  induction l generalizing s with
  | nil =>
    refine ⟨s, ?_, (Moves.refl h).weaken (by simp)⟩
    have hne := (qwait_empty h.bfirst_nil).1
    rw [qreadTake]
    generalize hw : qwait s.q = w at hne ⊢
    obtain ⟨q, r⟩ := w
    cases r with
    | data => exact absurd rfl hne
    | closed => rfl
    | err => rfl
    | sleep => rfl
  | cons c t ih =>
    obtain ⟨a, v⟩ := c
    simp only [readSplit] at hsplit
    split at hsplit
    · next hc =>
        split at hsplit
        · next hz =>
            obtain ⟨s₁, heap, _, _, hm, hco, hnext⟩ := qreadTake_zero h hc hz
            obtain ⟨s', hrun, hm'⟩ := ih hm.rep (by simpa [hco] using hsplit)
            exact ⟨s', (hnext len).trans hrun, (hm.trans hm').weaken (by simp)⟩
        · cases hsplit
    · cases hsplit

/-- `qread` takes blocks off the queue into a private list. -/
theorem qreadTake_some (h : Rep s l) (len : Nat)
    (hsplit : readSplit s.q.state.coalesce len l = some (k, r)) :
    ∃ s' first, qreadTake s len = some (s', .blocks first (sumBlen k)) ∧
      Moves (addrs l) s r s' ∧ Chain s'.heap (some first) k := by
  induction l generalizing s with
  | nil => cases hsplit
  | cons c t ih =>
    obtain ⟨a, v⟩ := c
    obtain ⟨hp, m, ha, _⟩ := chain_cons.mp h.chain
    have hdata := qwait_data (q := s.q) (by simp [hp])
    simp only [readSplit] at hsplit
    split at hsplit
    · next hc =>
        split at hsplit
        · next hz =>
            obtain ⟨s₁, heap, _, _, hm, hco, hnext⟩ := qreadTake_zero h hc hz
            obtain ⟨s', first, hrun, hm', hchain⟩ := ih hm.rep (by simpa [hco] using hsplit)
            exact ⟨s', first, (hnext len).trans hrun, (hm.trans hm').weaken (by simp), hchain⟩
        · next hz =>
            cases hsplit
            obtain ⟨s₁, hrem, hm, ha₁⟩ := qremove_spec h
            have hone : Chain s₁.heap (some a) ([] ++ [(a, v)]) := ⟨rfl, none, ha₁, rfl⟩
            have hdisj : (addrs t).Disjoint (addrs ([] ++ [(a, v)])) := by
              intro x hxt hx
              simp only [nil_append, addrs_cons, addrs_nil, mem_singleton] at hx
              subst hx
              exact h.chain.head_not_mem hxt
            obtain ⟨s', hrun, hm', hchain⟩ := qreadGrab_spec hm.rep hone hdisj len v.blen
            refine ⟨s', a, ?_, (hm.trans hm').weaken ?_, by simpa using hchain⟩
            · rw [qreadTake, hdata]
              simp [hp, ha, hc, hz, hrem, hrun]
            · intro x hx
              simp at hx ⊢
              tauto
    · next hc =>
        cases hsplit
        obtain ⟨s', hrem, hm, ha'⟩ := qremove_spec h
        refine ⟨s', a, ?_, hm.weaken (by simp), ⟨rfl, none, ha', rfl⟩⟩
        rw [qreadTake, hdata]
        simp [hp, ha, hc, hrem]

/-- The last section of `qread` puts what is left of the private list back in
front, or drops it on a message queue. -/
theorem qreadFinish_spec {r k : Cells} {left : Option Addr} (h : Rep s r) (hk : Chain s.heap left k)
    (hlen : k.length ≤ 1) (hdisj : (addrs k).Disjoint (addrs r)) (n : Nat) :
    ∃ s', qreadFinish s n left = some (restarted s' ((n : Int) - sumBlen k)) ∧
      Moves (addrs k) s (if s.q.state.msg then r else k ++ r) s' := by
  cases k with
  | nil =>
    refine ⟨s, ?_, by simpa using Moves.refl h⟩
    rw [chain_nil.mp hk]
    simp [qreadFinish, qwakeupIunlock, restarted]
  | cons c k =>
    obtain ⟨a, v⟩ := c
    have hnil : k = [] := by
      cases k with
      | nil => rfl
      | cons _ _ => simp at hlen
    subst hnil
    obtain ⟨rfl, m, ha, _⟩ := chain_cons.mp hk
    have hnot : a ∉ addrs r := fun hmem => hdisj (by simp) hmem
    by_cases hmsg : s.q.state.msg = true
    · have hleft : qreadLeft s a = some { s with heap := update s.heap a none } := by
        simp [qreadLeft, hmsg, freeb, ha]
      refine ⟨{ s with heap := update s.heap a none }, ?_, ⟨?_, ?_, rfl⟩⟩
      · simp [qreadFinish, ha, hleft, qwakeupIunlock, restarted]
      · rw [if_pos hmsg]
        refine h.with_heap ?_
        intro x hx
        refine update_of_ne ?_ _ _
        rintro rfl
        exact hnot hx
      · intro x hx
        exact update_of_ne (by simpa using hx) _ _
    · obtain ⟨s', hrun, hm⟩ := qputback_spec h ha hnot
      refine ⟨s', ?_, by simpa [hmsg] using hm⟩
      simp [qreadFinish, ha, qreadLeft, hmsg, hrun, qwakeupIunlock, restarted]

variable {a : Addr}

/-- A fresh block: at an address not in use, empty, with the room asked for. -/
theorem iallocb_spec {al : Allocator} {h h' : Heap} {n : Nat} (hal : iallocb al h n = some (a, h')) :
    h a = none ∧ ∃ hd, h' = update h a (some ⟨none, ⟨hd, [], n⟩⟩) := by
  obtain ⟨⟨a', hd⟩, hpick, heq⟩ := map_eq_some_iff.mp hal
  cases heq
  exact ⟨al.fresh hpick, hd, rfl⟩

/-- The result of `qwait` on an empty queue, as a result of `qbread`. -/
def Qwait.bread : Qwait → Bread
  | .closed => .closed
  | .err => .err
  | _ => .sleep

theorem qbread_empty (al : Allocator) (h : Rep s []) (len : Nat) :
    qbread al s len =
      some { st := { s with q := (qwait s.q).1 }, val := (qwait s.q).2.bread } := by
  have hne := (qwait_empty h.bfirst_nil).1
  rw [qbread]
  generalize hw : qwait s.q = w at hne ⊢
  obtain ⟨q, r⟩ := w
  cases r with
  | data => exact absurd rfl hne
  | closed => rfl
  | err => rfl
  | sleep => rfl

/-- What `qbread` puts back of a block that is too long for a byte queue: a
fresh block with the bytes behind the first `len`. -/
def cutBack (al : Allocator) (h : Heap) (msg : Bool) (v : Buf) (len : Nat) : Cells :=
  if len < v.blen ∧ msg = false then
    match al.pick h (v.blen - len) with
    | none => []
    | some (a, hd) => [(a, ⟨hd, v.data.drop len, 0⟩)]
  else []

variable {v : Buf}

theorem cutBack_free {al : Allocator} {h : Heap} {msg : Bool} {x : Addr}
    (hx : x ∈ addrs (cutBack al h msg v len)) : h x = none := by
  unfold cutBack at hx
  split at hx
  · cases hpick : al.pick h (v.blen - len) with
    | none => simp [hpick] at hx
    | some p =>
      obtain ⟨a, hd⟩ := p
      simp only [hpick, addrs_cons, addrs_nil, mem_singleton] at hx
      rw [hx]
      exact al.fresh hpick
  · cases hx

/-- Changing a block that is not in the queue. -/
theorem Rep.update_ne {l : Cells} (h : Rep s l) (hnot : a ∉ addrs l) (c : Option Block) :
    Rep { s with heap := update s.heap a c } l := by
  apply h.with_heap
  intro x hx
  apply update_of_ne
  intro heq
  subst heq
  exact hnot hx

/-- The block that `qbread` takes off is cut to `len` bytes; on a byte queue the
bytes cut off go back in a block of their own. -/
theorem qbreadSplit_spec (al : Allocator) {t : Cells} (h : Rep s t) (ha : s.heap a = some ⟨none, v⟩)
    (hnot : a ∉ addrs t) (len : Nat) :
    (qbreadSplit al s a ⟨none, v⟩ len = none ∧ len < v.blen ∧ s.q.state.msg = false ∧
      allocb al s.heap (v.blen - len) = none) ∨
    ∃ s', qbreadSplit al s a ⟨none, v⟩ len = some s' ∧
      Does [a] s (cutBack al s.heap s.q.state.msg v len ++ t) s' ∧
      s'.heap a = some ⟨none, if len < v.blen then v.cut len else v⟩ ∧
      flat (cutBack al s.heap s.q.state.msg v len) =
        if s.q.state.msg then [] else v.data.drop len := by
  have hlen : v.data.length = v.blen := rfl
  by_cases hlt : len < v.blen
  · by_cases hmsg : s.q.state.msg = true
    · right
      have hback : cutBack al s.heap s.q.state.msg v len = [] := by simp [cutBack, hmsg]
      rw [hback]
      refine ⟨{ s with heap := update s.heap a (some ⟨none, v.cut len⟩) }, ?_,
        ⟨h.update_ne hnot _, ?_, rfl⟩, by simp [hlt], by simp [hmsg]⟩
      · simp [qbreadSplit, hlt, hmsg]
      · intro x hx _
        exact update_of_ne (by simpa using hx) _ _
    · have hbyte : s.q.state.msg = false := by simpa using hmsg
      cases hpick : al.pick s.heap (v.blen - len) with
      | none =>
        left
        exact ⟨by simp [qbreadSplit, hlt, hbyte, allocb, iallocb, hpick], hlt, hbyte,
          by simp [allocb, iallocb, hpick]⟩
      | some p =>
        right
        obtain ⟨a', hd⟩ := p
        have hfree := al.fresh hpick
        have haa : a ≠ a' := by
          intro heq
          subst heq
          rw [hfree] at ha
          cases ha
        have ha't : a' ∉ addrs t := h.chain.not_mem_of_free hfree
        let w : Buf := ⟨hd, v.data.drop len, 0⟩
        have hback : cutBack al s.heap s.q.state.msg v len = [(a', w)] := by
          simp [cutBack, hlt, hbyte, hpick, w]
        have hfill : (⟨hd, [], v.blen - len⟩ : Buf).fill (v.data.drop len) = w := by
          simp [Buf.fill, w, hlen]
        obtain ⟨s₂, hput, hm₂⟩ := qputback_spec (h.update_ne ha't (some ⟨none, w⟩))
          (a := a') (v := w) (n := none) (by simp) ha't
        have hnot' : a ∉ addrs ((a', w) :: t) := by simp [haa, hnot]
        rw [hback]
        refine ⟨{ s₂ with heap := update s₂.heap a (some ⟨none, v.cut len⟩) }, ?_,
          ⟨hm₂.rep.update_ne hnot' _, ?_, hm₂.ctl⟩, by simp [hlt], ?_⟩
        · simp [qbreadSplit, hlt, hbyte, allocb, iallocb, hpick, hfill, hput]
        · intro x hx hsome
          have hxa : x ≠ a := by simpa using hx
          have hxa' : x ≠ a' := by
            intro heq
            subst heq
            exact hsome hfree
          show update s₂.heap a _ x = s.heap x
          rw [update_of_ne hxa, hm₂.off x (by simpa using hxa')]
          exact update_of_ne hxa' _ _
        · simp [w, hbyte]
  · right
    have hback : cutBack al s.heap s.q.state.msg v len = [] := by simp [cutBack, hlt]
    have hnil : v.data.drop len = [] := drop_eq_nil_of_le (by omega)
    rw [hback]
    exact ⟨s, by simp [qbreadSplit, hlt], (Moves.refl h).does.weaken (by simp),
      by simp [hlt, ha], by simp [hnil]⟩

/-- The heap once the first block is off the queue. -/
def headOff (s : Qs) (a : Addr) (v : Buf) : Heap := update s.heap a (some ⟨none, v⟩)

theorem Moves.heap_headOff {s t : Qs} {l : Cells} (h : Moves [a] s l t)
    (ha : t.heap a = some ⟨none, v⟩) : t.heap = headOff s a v := by
  funext x
  unfold headOff
  by_cases hx : x = a
  · subst hx
    rw [ha, update_self]
  · rw [update_of_ne hx]
    exact h.off x (by simpa using hx)

/-- `qbread` returns the first block, cut to `len` bytes; on a byte queue the
bytes cut off go back in a fresh block.  It fails to return only when there is
no memory for that block. -/
theorem qbread_cons (al : Allocator) {t : Cells} (h : Rep s ((a, v) :: t)) (len : Nat) :
    (qbread al s len = none ∧ len < v.blen ∧ s.q.state.msg = false ∧
      allocb al (headOff s a v) (v.blen - len) = none) ∨
    ∃ s', qbread al s len = some (restarted s' (.block a)) ∧
      Does [a] s (cutBack al (headOff s a v) s.q.state.msg v len ++ t) s' ∧
      s'.heap a = some ⟨none, if len < v.blen then v.cut len else v⟩ ∧
      flat (cutBack al (headOff s a v) s.q.state.msg v len) =
        if s.q.state.msg then [] else v.data.drop len := by
  have hnot := h.chain.head_not_mem
  have hdata := qwait_data (q := s.q) (by simp [h.bfirst_cons])
  obtain ⟨s₁, hrem, hm, ha⟩ := qremove_spec h
  have hheap := hm.heap_headOff ha
  have hmsg : s₁.q.state.msg = s.q.state.msg := by rw [Queue.state_of_ctl hm.ctl]
  rcases qbreadSplit_spec al hm.rep ha hnot len with ⟨hnone, hmem⟩ | hsome
  · left
    rw [hheap, hmsg] at hmem
    exact ⟨by simp [qbread, hdata, hrem, ha, hnone], hmem⟩
  · rw [hheap, hmsg] at hsome
    obtain ⟨s', hrun, hd, ha', hflat⟩ := hsome
    right
    refine ⟨s', ?_, (hm.does.trans hd).weaken (by simp), ha', hflat⟩
    simp [qbread, hdata, hrem, ha, hrun, qwakeupIunlock, restarted]

end Qio
