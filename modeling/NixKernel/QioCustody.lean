import NixKernel.Custody
import NixKernel.QioWrite

/-!
# What each queue operation frees

`NixKernel.QioOps` and its companions say which blocks an operation leaves in the
queue.  Here the other side: every block that was in the queue or was handed in, and
that is not in the queue or handed out afterwards, has been freed.  The exception is
`qconsume` when it runs out of blocks: the empty blocks it unlinked stay allocated.
-/

namespace Qio

open HeapChain Custody List
open Function (update update_self update_of_ne update_idem)

variable {s s' : Qs} {l t r k : Cells} {a : Addr} {v : Buf} {h h' : Heap} {p : Option Addr}

/-- The addresses of a list of blocks. -/
def cells (l : Cells) : Set Addr := {x | x ∈ addrs l}

@[simp] theorem mem_cells {x : Addr} : x ∈ cells l ↔ x ∈ addrs l := Iff.rfl

theorem cells_append : cells (l ++ r) = cells l ∪ cells r := by
  ext x
  simp

theorem cells_cons {c : Addr × Buf} : cells (c :: l) = {c.1} ∪ cells l := by
  ext x
  simp

@[simp] theorem cells_nil : cells [] = ∅ := by
  ext x
  simp

/-- The blocks of a chain are allocated. -/
theorem live_of_chain (hc : Chain h p l) : ∀ x ∈ cells l, h x ≠ none := by
  intro x hx hnone
  exact hc.not_mem_of_free hnone hx

theorem settles_freeblist (hc : Chain h p l) (hrun : freeblist h p = some h') :
    Settles h h' (cells l) ∅ := by
  obtain ⟨h'', hrun', hgone, hkeep⟩ := freeblist_spec hc
  cases hrun.symm.trans hrun'
  exact ⟨fun _ hx => hx.elim, fun x hx _ => hgone x hx, fun _ hx => hx.elim, fun x hx _ => hkeep x hx⟩

theorem settles_freeb (hrun : freeb h a = some h') : Settles h h' {a} ∅ := by
  simp only [freeb, Option.bind_eq_bind, Option.bind_eq_some_iff, Option.pure_def, Option.some.injEq] at hrun
  obtain ⟨_, _, rfl⟩ := hrun
  exact Settles.free

/-- An operation that frees nothing and takes no fresh block. -/
theorem Moves.settles {d : List Addr} {B A : Set Addr} (hm : Moves d s l s') (hd : ∀ x ∈ d, x ∈ B)
    (hA : ∀ x ∈ A, s'.heap x ≠ none) (hsub : ∀ x, x ∈ A ↔ x ∈ B) : Settles s.heap s'.heap B A := by
  refine ⟨hA, ?_, ?_, ?_⟩
  · intro x hx hx'
    exact (hx' ((hsub x).mpr hx)).elim
  · intro x hx hx'
    exact (hx' ((hsub x).mp hx)).elim
  · intro x hx _
    exact hm.off x (fun hxd => hx (hd x hxd))

/-- The block taken off stays allocated. -/
theorem settles_qremove (hr : Rep s ((a, v) :: t)) (hrun : qremove s = some (s', some a)) :
    Settles s.heap s'.heap (cells ((a, v) :: t)) ({a} ∪ cells t) := by
  obtain ⟨s'', hrun', hm, ha⟩ := qremove_spec hr
  cases hrun.symm.trans hrun'
  refine hm.settles (by simp) ?_ (by simp)
  rintro x (rfl | hx)
  · simp [ha]
  · exact live_of_chain hm.rep.chain x hx

theorem settles_qaddblock {n : Option Addr} (hr : Rep s l) (ha : s.heap a = some ⟨n, v⟩)
    (hnot : a ∉ addrs l) (hrun : qaddblock s a = some s') :
    Settles s.heap s'.heap (cells l ∪ {a}) (cells (l ++ [(a, v)])) := by
  obtain ⟨s'', hrun', hm⟩ := qaddblock_spec hr ha hnot
  cases hrun.symm.trans hrun'
  refine hm.settles ?_ (live_of_chain hm.rep.chain) (by simp [or_comm])
  intro x hx
  rcases List.mem_cons.mp hx with rfl | hx
  · exact Or.inr rfl
  · exact Or.inl hx

theorem settles_qaddlist (hr : Rep s l) (hc : Chain s.heap (some a) r)
    (hdisj : (addrs l).Disjoint (addrs r)) (hrun : qaddlist s a = some s') :
    Settles s.heap s'.heap (cells l ∪ cells r) (cells (l ++ r)) := by
  obtain ⟨s'', hrun', hm⟩ := qaddlist_spec hr hc hdisj
  cases hrun.symm.trans hrun'
  exact hm.settles (fun x hx => Or.inl hx) (live_of_chain hm.rep.chain) (by simp)

theorem settles_qputback {n : Option Addr} (hr : Rep s l) (ha : s.heap a = some ⟨n, v⟩)
    (hnot : a ∉ addrs l) (hrun : qputback s a = some s') :
    Settles s.heap s'.heap (cells l ∪ {a}) (cells ((a, v) :: l)) := by
  obtain ⟨s'', hrun', hm⟩ := qputback_spec hr ha hnot
  cases hrun.symm.trans hrun'
  refine hm.settles (by simp) (live_of_chain hm.rep.chain) ?_
  intro x
  simp

/-- The first block is taken off and freed. -/
theorem settles_qremove_freeb (hr : Rep s ((a, v) :: t)) (hrem : qremove s = some (s', some a))
    (hfree : freeb s'.heap a = some h') : Settles s.heap h' (cells ((a, v) :: t)) (cells t) := by
  have hat : a ∉ addrs t := hr.chain.head_not_mem
  have h₁ := settles_qremove hr hrem
  have h₂ : Settles s'.heap h' ({a} ∪ cells t) (∅ ∪ cells t) := by
    refine (settles_freeb hfree).frame ?_ ?_
    · intro x hx
      exact h₁.live x (Or.inr hx)
    · rintro x hx rfl
      exact hat hx
  rw [Set.empty_union] at h₂
  exact h₁.trans h₂

theorem settles_qdiscardLoop {len sofar n : Nat} {gone g : List UInt8} (hr : Rep s l)
    (hle : sofar ≤ len) (hrun : qdiscardLoop s len sofar gone = some (s', n, g)) :
    Settles s.heap s'.heap (cells l) (cells (discardCells (len - sofar) l)) := by
  induction l generalizing s sofar gone with
  | nil =>
    rw [qdiscardLoop] at hrun
    have hnone := hr.bfirst_nil
    simp only [hnone] at hrun
    have hs : s' = s := by
      split at hrun <;> cases hrun <;> rfl
    subst hs
    exact Settles.refl (by simp)
  | cons c t ih =>
    obtain ⟨a, v⟩ := c
    by_cases hlt : sofar < len
    · obtain ⟨hp, m, ha, htail⟩ := chain_cons.mp hr.chain
      have hne : len - sofar ≠ 0 := by omega
      by_cases hv : v.blen ≤ len - sofar
      · obtain ⟨s₁, heap, hrem, hfree, hm, _⟩ := qremove_freeb_spec hr
        rw [qdiscardLoop] at hrun
        simp only [hlt, if_true, hp, ha, Option.bind_eq_bind, Option.bind_some, hv, hrem, hfree] at hrun
        have hcells : discardCells (len - sofar) ((a, v) :: t) =
            discardCells (len - (sofar + v.blen)) t := by
          simp [discardCells, hne, hv, Nat.sub_sub]
        rw [hcells]
        exact (settles_qremove_freeb hr hrem hfree).trans (ih hm.rep (by omega) hrun)
      · have hcells : discardCells (len - sofar) ((a, v) :: t) =
            (a, v.pull (len - sofar)) :: t := by
          simp [discardCells, hne, hv]
        obtain ⟨s'', hrun', hm⟩ := qdiscardLoop_spec hr len sofar gone hle
        cases hrun.symm.trans hrun'
        rw [hcells] at hm ⊢
        exact hm.settles (fun x hx => hx) (live_of_chain hm.rep.chain) (by simp)
    · have hz : len - sofar = 0 := by omega
      rw [qdiscardLoop] at hrun
      simp only [hlt, if_false, Option.some.injEq, Prod.mk.injEq] at hrun
      obtain ⟨rfl, _, _⟩ := hrun
      have hcells : discardCells 0 ((a, v) :: t) = (a, v) :: t := by simp [discardCells]
      rw [hz, hcells]
      exact Settles.refl (live_of_chain hr.chain)

/-- The empty blocks that `qconsume` skips are in its `tofree`. -/
theorem settles_qconsumeSkip {f f' : Cells} {tofree tofree' : Option Addr} (hr : Rep s l)
    (hf : Chain s.heap tofree f) (hdisj : (addrs l).Disjoint (addrs f))
    (hrun : qconsumeSkip s tofree = some (s', tofree')) (hf' : Chain s'.heap tofree' f') :
    Settles s.heap s'.heap (cells l ∪ cells f) (cells (skipEmpty l) ∪ cells f') := by
  induction l generalizing s f tofree with
  | nil =>
    rw [qconsumeSkip] at hrun
    simp only [hr.bfirst_nil, Option.some.injEq, Prod.mk.injEq] at hrun
    obtain ⟨rfl, rfl⟩ := hrun
    rw [hf'.unique hf]
    exact Settles.refl (by simpa [skipEmpty] using live_of_chain hf)
  | cons c t ih =>
    obtain ⟨a, v⟩ := c
    have hnot := hr.chain.head_not_mem
    obtain ⟨hp, m, ha, htail⟩ := chain_cons.mp hr.chain
    rw [qconsumeSkip] at hrun
    simp only [hp, ha, Option.bind_eq_bind, Option.bind_some] at hrun
    by_cases hpos : 0 < v.blen
    · have hskip : skipEmpty ((a, v) :: t) = (a, v) :: t := by simp [skipEmpty, hpos]
      simp only [hpos, if_true, Option.pure_def, Option.some.injEq, Prod.mk.injEq] at hrun
      obtain ⟨rfl, rfl⟩ := hrun
      rw [hskip, hf'.unique hf]
      apply Settles.refl
      rintro x (hx | hx)
      · exact live_of_chain hr.chain x hx
      · exact live_of_chain hf x hx
    · have hskip : skipEmpty ((a, v) :: t) = skipEmpty t := by simp [skipEmpty, hpos]
      have hzero : v.blen = 0 := by omega
      have haf : a ∉ addrs f := fun hmem => hdisj (by simp) hmem
      simp only [hpos, if_false] at hrun
      rw [hskip]
      have hr₁ := (hr.skip_head tofree ha hzero).rep
      have hf₁ := hf.cons_update (v := v) haf
      have hdisj₁ : (addrs t).Disjoint (addrs ((a, v) :: f)) := by
        intro x hxt hxf
        rcases List.mem_cons.mp hxf with rfl | hx
        · exact hnot hxt
        · exact hdisj (mem_cons_of_mem _ hxt) hx
      have hrest := ih hr₁ hf₁ hdisj₁ hrun
      have hwrite : Settles s.heap (update s.heap a (some ⟨tofree, v⟩)) ({a} ∪ (cells t ∪ cells f)) ({a} ∪ (cells t ∪ cells f)) := by
        refine (Settles.write (by simp [ha])).frame ?_ ?_
        · rintro x (hx | hx)
          · exact live_of_chain htail x hx
          · exact live_of_chain hf x hx
        · rintro x (hx | hx) rfl
          · exact hnot hx
          · exact haf hx
      refine (hwrite.congr ?_ ?_).trans hrest
      · intro x
        simp [or_assoc]
      · intro x
        simp only [Set.mem_union, mem_cells, addrs_cons, mem_cons, Set.mem_singleton_iff]
        tauto

variable {len : Nat}

/-- **`qconsume` frees what it used up**, if there was a byte to consume. -/
theorem settles_qconsume {out : Ret (Option (List UInt8))} (hr : Rep s l)
    (hskip : skipEmpty l = (a, v) :: t) (hrun : qconsume s len = some out) :
    Settles s.heap out.st.heap (cells l) (cells (consumeRest s.q.state.msg len a v t)) := by
  obtain ⟨s₁, tofree, f, hrun₁, hm, hf, _, hdisj⟩ :=
    qconsumeSkip_spec hr (chain_nil.mpr rfl) (by simp)
  have hsettled := settles_qconsumeSkip hr (chain_nil.mpr rfl) (by simp) hrun₁ hf
  rw [hskip] at hm hdisj hsettled
  rw [cells_nil, Set.union_empty] at hsettled
  have hmsg : s₁.q.state.msg = s.q.state.msg := by rw [Queue.state_of_ctl hm.ctl]
  have hnot := hm.rep.chain.head_not_mem
  have haf : a ∉ addrs f := fun hmem => hdisj (by simp) hmem
  have htf : ∀ x ∈ cells t, x ∉ cells f := fun x hx hx' => hdisj (mem_cons_of_mem _ hx) hx'
  obtain ⟨hp, m, ha, htail⟩ := chain_cons.mp hm.rep.chain
  simp only [qconsume, hrun₁, Option.bind_eq_bind, Option.bind_some, hp, ha, hmsg] at hrun
  -- the first block gives up its bytes and, if it is done with, is linked to `tofree`
  have hwrite : ∀ b : Block, Settles s₁.heap (update s₁.heap a (some b))
      ({a} ∪ (cells t ∪ cells f)) ({a} ∪ (cells t ∪ cells f)) := by
    intro b
    refine (Settles.write (by simp [ha])).frame ?_ ?_
    · rintro x (hx | hx)
      · exact live_of_chain htail x hx
      · exact live_of_chain hf x hx
    · rintro x (hx | hx) rfl
      · exact hnot hx
      · exact haf hx
  have hstart : ∀ x, x ∈ ({a} ∪ (cells t ∪ cells f) : Set Addr) ↔
      x ∈ cells ((a, v) :: t) ∪ cells f := by
    intro x
    simp [or_assoc]
  by_cases hwhole : s.q.state.msg = true ∨ v.blen ≤ len
  · have hcond : s.q.state.msg = true ∨ min v.blen len = v.blen := by
      rcases hwhole with hw | hw
      · exact Or.inl hw
      · exact Or.inr (Nat.min_eq_left hw)
    simp only [hcond, if_true, Option.bind_eq_some_iff] at hrun
    obtain ⟨heap, hfree, hout⟩ := hrun
    cases hout
    have hrest : consumeRest s.q.state.msg len a v t = t := by simp [consumeRest, hwhole]
    rw [hrest]
    have hfreed := (settles_freeblist (hf.cons_update (v := v.pull (min v.blen len)) haf) hfree).frame
      (F := cells t) ?_ ?_
    · rw [Set.empty_union] at hfreed
      refine (hsettled.trans ((hwrite _).congr (fun x => (hstart x).symm) (fun _ => Iff.rfl))).trans
        (hfreed.congr ?_ (fun _ => Iff.rfl))
      intro x
      simp only [Set.mem_union, mem_cells, addrs_cons, mem_cons, Set.mem_singleton_iff]
      tauto
    · intro x hx
      exact (hwrite _).live x (Or.inr (Or.inl hx))
    · intro x hx hx'
      rcases List.mem_cons.mp hx' with rfl | hx'
      · exact hnot hx
      · exact htf x hx hx'
  · have hcond : ¬ (s.q.state.msg = true ∨ min v.blen len = v.blen) := by
      rintro (hw | hw)
      · exact hwhole (Or.inl hw)
      · exact hwhole (Or.inr (by omega))
    simp only [hcond, if_false, Option.bind_eq_some_iff] at hrun
    obtain ⟨heap, hfree, hout⟩ := hrun
    cases hout
    have hrest : consumeRest s.q.state.msg len a v t = (a, v.pull len) :: t := by
      simp [consumeRest, hwhole]
    rw [hrest]
    have hfreed := (settles_freeblist (hf.update_ne (c := some ⟨m, v.pull (min v.blen len)⟩) haf)
      hfree).frame (F := {a} ∪ cells t) ?_ ?_
    · rw [Set.empty_union] at hfreed
      refine (hsettled.trans ((hwrite _).congr (fun x => (hstart x).symm) (fun _ => Iff.rfl))).trans
        (hfreed.congr ?_ ?_)
      · intro x
        simp only [Set.mem_union, mem_cells, Set.mem_singleton_iff]
        tauto
      · intro x
        simp
    · rintro x (hx | hx)
      · exact (hwrite _).live x (Or.inl hx)
      · exact (hwrite _).live x (Or.inr (Or.inl hx))
    · rintro x (rfl | hx) hx'
      · exact haf hx'
      · exact htf x hx hx'

/-- `qread` frees the empty blocks it passes over; those it takes stay allocated. -/
theorem settles_qreadTake_some {tk : Taken} (hr : Rep s l)
    (hsplit : readSplit s.q.state.coalesce len l = some (k, r))
    (hrun : qreadTake s len = some (s', tk)) :
    Settles s.heap s'.heap (cells l) (cells r ∪ cells k) := by
  induction l generalizing s with
  | nil => cases hsplit
  | cons c t ih =>
    obtain ⟨a, v⟩ := c
    -- the blocks are taken off without any being freed
    have hlast : k ++ r = (a, v) :: t → Settles s.heap s'.heap (cells ((a, v) :: t))
        (cells r ∪ cells k) := by
      intro hkr
      obtain ⟨s'', first, hrun', hm, hk⟩ := qreadTake_some hr len hsplit
      cases hrun.symm.trans hrun'
      refine hm.settles (fun x hx => hx) ?_ ?_
      · rintro x (hx | hx)
        · exact live_of_chain hm.rep.chain x hx
        · exact live_of_chain hk x hx
      · intro x
        rw [← hkr]
        simp [or_comm]
    have hsplit' := hsplit
    simp only [readSplit] at hsplit'
    split at hsplit'
    · next hc =>
        split at hsplit'
        · next hz =>
            obtain ⟨s₁, heap, hrem, hfree, hm, hco, hnext⟩ := qreadTake_zero hr hc hz
            rw [hnext] at hrun
            exact (settles_qremove_freeb hr hrem hfree).trans
              (ih hm.rep (by simpa [hco] using hsplit') hrun)
        · next hz =>
            cases hsplit'
            apply hlast
            rw [cons_append, grab_append]
    · cases hsplit'
      exact hlast rfl

theorem settles_qreadTake_none {tk : Taken} (hr : Rep s l)
    (hsplit : readSplit s.q.state.coalesce len l = none) (hrun : qreadTake s len = some (s', tk)) :
    Settles s.heap s'.heap (cells l) ∅ := by
  induction l generalizing s with
  | nil =>
    obtain ⟨s'', hrun', hm⟩ := qreadTake_none hr len hsplit
    cases hrun.symm.trans hrun'
    exact hm.settles (by simp) (by simp) (by simp)
  | cons c t ih =>
    obtain ⟨a, v⟩ := c
    simp only [readSplit] at hsplit
    split at hsplit
    · next hc =>
        split at hsplit
        · next hz =>
            obtain ⟨s₁, heap, hrem, hfree, hm, hco, hnext⟩ := qreadTake_zero hr hc hz
            rw [hnext] at hrun
            exact (settles_qremove_freeb hr hrem hfree).trans
              (ih hm.rep (by simpa [hco] using hsplit) hrun)
        · cases hsplit
    · cases hsplit

variable {bytes : List UInt8} {n : Nat}

/-- The copy frees the blocks it empties. -/
theorem settles_bl2mem {left : Option Addr} (hc : Chain h p l)
    (hrun : bl2mem h p n = some (h', bytes, left)) :
    Settles h h' (cells l) (cells (bl2memRest n l)) := by
  induction l generalizing h p n bytes with
  | nil =>
    rw [chain_nil.mp hc, bl2mem] at hrun
    cases hrun
    exact Settles.refl (by simp)
  | cons c t ih =>
    obtain ⟨a, v⟩ := c
    have hnot := hc.head_not_mem
    obtain ⟨rfl, m, ha, htail⟩ := chain_cons.mp hc
    rw [bl2mem] at hrun
    simp only [ha, Option.bind_eq_bind, Option.bind_some] at hrun
    by_cases hn : n < v.blen
    · simp only [hn, if_true, Option.pure_def, Option.some.injEq, Prod.mk.injEq] at hrun
      obtain ⟨rfl, _, _⟩ := hrun
      have hrest : bl2memRest n ((a, v) :: t) = (a, v.pull n) :: t := by simp [bl2memRest, hn]
      rw [hrest, cells_cons, cells_cons]
      refine (Settles.write (by simp [ha])).frame (live_of_chain htail) ?_
      rintro x hx rfl
      exact hnot hx
    · have hfree : freeb (update h a (some ⟨m, v.pull v.blen⟩)) a =
          some (update h a none) := by simp [freeb]
      have hrest : bl2memRest n ((a, v) :: t) = bl2memRest (n - v.blen) t := by
        simp [bl2memRest, hn]
      simp only [hn, if_false, hfree, Option.bind_some, Option.bind_eq_some_iff] at hrun
      obtain ⟨⟨h₁, bytes₁, left₁⟩, hrun₁, hout⟩ := hrun
      cases hout
      rw [hrest]
      have hfreed := (Settles.free (h := h) (a := a)).frame (live_of_chain htail) ?_
      · rw [Set.empty_union] at hfreed
        rw [cells_cons]
        exact hfreed.trans (ih (htail.update_ne hnot) hrun₁)
      · rintro x hx rfl
        exact hnot hx

variable {out : Ret Int}

/-- What the copy leaves over is put back, or freed on a message queue. -/
theorem settles_qreadFinish {left : Option Addr} (hr : Rep s r) (hk : Chain s.heap left k)
    (hlen : k.length ≤ 1) (hdisj : (addrs k).Disjoint (addrs r))
    (hrun : qreadFinish s n left = some out) :
    Settles s.heap out.st.heap (cells r ∪ cells k)
      (cells (if s.q.state.msg then r else k ++ r)) := by
  cases k with
  | nil =>
    rw [chain_nil.mp hk] at hrun
    simp only [qreadFinish, qwakeupIunlock, Option.pure_def, Option.some.injEq] at hrun
    subst hrun
    simpa using Settles.refl (live_of_chain hr.chain)
  | cons c k =>
    obtain ⟨a, v⟩ := c
    have hnil : k = [] := by
      cases k with
      | nil => rfl
      | cons _ _ => simp at hlen
    subst hnil
    obtain ⟨rfl, m, ha, _⟩ := chain_cons.mp hk
    have hnot : a ∉ addrs r := fun hmem => hdisj (by simp) hmem
    simp only [qreadFinish, qreadLeft, ha, Option.bind_eq_bind, Option.bind_some] at hrun
    have hone : cells [(a, v)] = {a} := by simp [cells_cons]
    rw [hone]
    by_cases hmsg : s.q.state.msg = true
    · simp only [hmsg, if_true, Option.bind_eq_some_iff] at hrun ⊢
      obtain ⟨s₁, ⟨heap, hfree, hs₁⟩, hout⟩ := hrun
      cases hs₁
      cases hout
      have hfreed := (settles_freeb hfree).frame (live_of_chain hr.chain) ?_
      · rw [Set.empty_union, Set.union_comm] at hfreed
        exact hfreed
      · rintro x hx rfl
        exact hnot hx
    · simp only [hmsg, Bool.false_eq_true, if_false, Option.bind_eq_some_iff] at hrun ⊢
      obtain ⟨s₁, hput, hout⟩ := hrun
      cases hout
      have hsettled := settles_qputback hr ha hnot hput
      exact hsettled

variable {al : Allocator}

/-- A fresh block that has been filled. -/
theorem settles_fill {b : Block} (hal : iallocb al h n = some (a, h')) :
    Settles h (update h' a (some b)) ∅ {a} := by
  obtain ⟨hfree, hd, rfl⟩ := iallocb_spec hal
  rw [update_idem]
  exact Settles.alloc hfree

theorem qbreadSplit_off {nb : Block} {x : Addr} (hrun : qbreadSplit al s a nb len = some s')
    (hxa : x ≠ a) (hx : x ∉ addrs (cutBack al s.heap s.q.state.msg nb.val len)) :
    s'.heap x = s.heap x := by
  simp only [qbreadSplit] at hrun
  split at hrun
  next hlt =>
    split at hrun
    next hmsg =>
      cases hrun
      exact update_of_ne hxa _ _
    next hmsg =>
      simp only [allocb, Option.bind_eq_bind, Option.bind_eq_some_iff] at hrun
      obtain ⟨⟨a', h₁⟩, hal, b, hb, s₁, hput, hs⟩ := hrun
      cases hs
      have hxa' : x ≠ a' := by
        rintro rfl
        obtain ⟨⟨a'', hd⟩, hpick, heq⟩ := Option.map_eq_some_iff.mp hal
        cases heq
        simp [cutBack, hlt, hmsg, hpick] at hx
      obtain ⟨_, hd, rfl⟩ := iallocb_spec hal
      simp only [qputback, update_self, Option.bind_eq_bind, Option.bind_some,
        Option.pure_def, Option.some.injEq] at hput
      subst hput
      simp [update_of_ne hxa, update_of_ne hxa']
  next =>
    cases hrun
    rfl

/-- `qbread` hands out the first block; the rest of a block that is too long is a fresh block
of the queue. -/
theorem settles_qbread {out : Ret Bread} (hr : Rep s ((a, v) :: t))
    (hrun : qbread al s len = some out) :
    out.val = .block a ∧ ∃ l', Chain out.st.heap out.st.q.bfirst l' ∧ a ∉ addrs l' ∧
      Settles s.heap out.st.heap (cells ((a, v) :: t)) (cells l' ∪ {a}) := by
  rcases qbread_cons al hr len with ⟨hnone, _⟩ | ⟨s', hrun', hd, ha, -⟩
  · rw [hnone] at hrun
    cases hrun
  cases hrun.symm.trans hrun'
  refine ⟨rfl, _, hd.rep.with_restart.chain, ?_, ⟨?_, ?_, ?_, ?_⟩⟩
  · rw [addrs_append, mem_append]
    rintro (hx | hx)
    · have hfree := cutBack_free hx
      simp [headOff] at hfree
    · exact hr.chain.head_not_mem hx
  · rintro x (hx | rfl)
    · exact live_of_chain hd.rep.chain x hx
    · simp [restarted, ha]
  · intro x hx hx'
    simp only [Set.mem_union, mem_cells, addrs_append, mem_append, Set.mem_singleton_iff] at hx'
    simp only [mem_cells, addrs_cons, mem_cons] at hx
    tauto
  · rintro x (hx | rfl) hx'
    · rw [cells_append] at hx
      rcases hx with hx | hx
      · have hfree := cutBack_free hx
        have hxa : x ≠ a := by
          rintro rfl
          exact hx' (by simp)
        rwa [headOff, update_of_ne hxa] at hfree
      · exact (hx' (by simp [show x ∈ addrs t from hx])).elim
    · exact (hx' (by simp)).elim
  · intro x hx hx'
    simp only [mem_cells, addrs_cons, mem_cons, not_or] at hx
    simp only [Set.mem_union, mem_cells, addrs_append, mem_append, not_or] at hx'
    obtain ⟨s₁, hrem, hm, ha₁⟩ := qremove_spec hr
    simp only [qbread, qwait_data (q := s.q) (by simp [hr.bfirst_cons]), hrem, ha₁,
      Option.bind_eq_bind, Option.bind_some, Option.bind_eq_some_iff] at hrun
    obtain ⟨s₂, hsplit, hout⟩ := hrun
    have hmsg : s₁.q.state.msg = s.q.state.msg := by rw [Queue.state_of_ctl hm.ctl]
    have hheap : s'.heap = s₂.heap := by
      have := congrArg (fun o : Ret Bread => o.st.heap) (Option.some.inj hout)
      exact this.symm
    show s'.heap x = s.heap x
    rw [hheap, qbreadSplit_off hsplit hx.1, hm.off x (by simpa using hx.1)]
    rw [hm.heap_headOff ha₁, hmsg]
    exact hx'.1.1

/-- A list beside the queue is freed. -/
theorem settles_free_beside (hr : Rep s l) (hc : Chain s.heap p r)
    (hdisj : (addrs l).Disjoint (addrs r)) (hrun : freeblist s.heap p = some h') :
    Settles s.heap h' (cells l ∪ cells r) (cells l) := by
  have hfreed := (settles_freeblist hc hrun).frame (live_of_chain hr.chain)
    (fun x hx hx' => hdisj hx hx')
  rwa [Set.empty_union, Set.union_comm] at hfreed

/-- A list handed to `qpassnolim` is queued, or freed when the queue is closed. -/
theorem settles_qpassnolim (hr : Rep s l) (hc : Chain s.heap (some a) r)
    (hdisj : (addrs l).Disjoint (addrs r)) (hrun : qpassnolim s a = some out) :
    Settles s.heap out.st.heap (cells l ∪ cells r)
      (cells (if s.q.state.closed then l else l ++ r)) := by
  simp only [qpassnolim] at hrun
  split at hrun
  next hclosed =>
    simp only [Option.bind_eq_bind, Option.bind_eq_some_iff] at hrun
    obtain ⟨b, _, heap, hfree, hout⟩ := hrun
    cases hout
    rw [if_pos hclosed]
    exact settles_free_beside hr hc hdisj hfree
  next hopen =>
    simp only [qpassAdd, Option.bind_eq_bind, Option.bind_eq_some_iff] at hrun
    obtain ⟨len, _, s₁, hadd, hout⟩ := hrun
    cases hout
    rw [if_neg hopen]
    have hsettled := settles_qaddlist hr hc hdisj hadd
    exact hsettled

/-- A list handed to `qpass` is queued, or freed when the queue is full or closed. -/
theorem settles_qpass (hr : Rep s l) (hc : Chain s.heap (some a) r)
    (hdisj : (addrs l).Disjoint (addrs r)) (hrun : qpass s a = some out) :
    Settles s.heap out.st.heap (cells l ∪ cells r) (cells (if s.q.passes then l ++ r else l)) := by
  simp only [qpass] at hrun
  split at hrun
  next hfull =>
    simp only [Option.bind_eq_bind, Option.bind_eq_some_iff] at hrun
    obtain ⟨heap, hfree, hout⟩ := hrun
    cases hout
    have hge : ¬ s.q.len < s.q.limit := by omega
    have hno : s.q.passes = false := by simp [Queue.passes, hge]
    simp only [hno, Bool.false_eq_true, if_false]
    exact settles_free_beside hr hc hdisj hfree
  next hroom =>
    have hlt : s.q.len < s.q.limit := by omega
    have hsettled := settles_qpassnolim hr hc hdisj hrun
    cases hclosed : s.q.state.closed <;> simpa [Queue.passes, hlt, hclosed] using hsettled

/-- A block handed to `qbwrite` is queued, freed, or handed to the bypass. -/
theorem settles_qbwritePut {n : Option Addr} {out : Ret Bwrite} (hr : Rep s l)
    (ha : s.heap a = some ⟨n, v⟩) (hnot : a ∉ addrs l) (hrun : qbwritePut s a = some out) :
    Settles s.heap out.st.heap (cells l ∪ {a})
      (cells (if s.q.accepts then l ++ [(a, v)] else l) ∪ {x | x = a ∧ s.q.bypass = true}) := by
  have hfreed : ∀ heap, freeb s.heap a = some heap → Settles s.heap heap (cells l ∪ {a}) (cells l) := by
    intro heap hfree
    have hf := (settles_freeb hfree).frame (live_of_chain hr.chain) (F := cells l) ?_
    · rwa [Set.empty_union, Set.union_comm] at hf
    · rintro x hx rfl
      exact hnot hx
  simp only [qbwritePut, ha, Option.bind_eq_bind, Option.bind_some] at hrun
  by_cases hby : s.q.bypass = true
  · simp only [hby, if_true, Option.pure_def, Option.some.injEq] at hrun
    subst hrun
    have hacc : s.q.accepts = false := by simp [Queue.accepts, hby]
    simp only [hacc, hby, Bool.false_eq_true, if_false, and_true, Set.ofPred_eq_eq_singleton]
    apply Settles.refl
    rintro x (hx | rfl)
    · exact live_of_chain hr.chain x hx
    · simp [ha]
  · have hnone : ({x | x = a ∧ s.q.bypass = true} : Set Addr) = ∅ := by simp [hby]
    rw [hnone, Set.union_empty]
    by_cases hcl : s.q.state.closed = true
    · have hacc : s.q.accepts = false := by simp [Queue.accepts, hcl]
      simp only [hby, hcl, Bool.false_eq_true, if_false, if_true, Option.bind_eq_some_iff] at hrun
      obtain ⟨heap, hfree, hout⟩ := hrun
      cases hout
      simp only [hacc, Bool.false_eq_true, if_false]
      exact hfreed heap hfree
    · by_cases hfull : s.q.limit ≤ s.q.len ∧ s.q.noblock = true
      · have hacc : s.q.accepts = false := by simp [Queue.accepts, hfull]
        simp only [hby, hcl, hfull, Bool.false_eq_true, if_false, and_self, if_true,
          Option.bind_eq_some_iff] at hrun
        obtain ⟨heap, hfree, hout⟩ := hrun
        cases hout
        simp only [hacc, Bool.false_eq_true, if_false]
        exact hfreed heap hfree
      · have hacc : s.q.accepts = true := by
          simp only [Queue.accepts, hby, hcl] at hfull ⊢
          simpa [Decidable.imp_iff_not_or] using hfull
        simp only [hby, hcl, hfull, Bool.false_eq_true, if_false, Option.bind_eq_some_iff] at hrun
        obtain ⟨s₁, hadd, hout⟩ := hrun
        cases hout
        simp only [hacc, if_true]
        exact settles_qaddblock hr ha hnot hadd

/-- A fresh block beside the queue, filled. -/
theorem alloc_beside (hr : Rep s l) (hal : iallocb al s.heap n = some (a, h')) (b : Block) :
    a ∉ addrs l ∧ Rep { s with heap := update h' a (some b) } l ∧
      Settles s.heap (update h' a (some b)) (cells l) (cells l ∪ {a}) := by
  have hfill := (settles_fill (b := b) hal).frame (live_of_chain hr.chain) (fun _ _ hx => hx.elim)
  rw [Set.empty_union, Set.union_comm] at hfill
  obtain ⟨hfree, hd, rfl⟩ := iallocb_spec hal
  obtain ⟨hnot, hr₁⟩ := hr.with_fresh hfree (some b)
  rw [update_idem] at hfill ⊢
  exact ⟨hnot, hr₁, hfill⟩

/-- The fresh block is queued. -/
theorem settles_alloc_qaddblock {b : Block} (hr : Rep s l)
    (hal : iallocb al s.heap n = some (a, h'))
    (hrun : qaddblock { s with heap := update h' a (some b) } a = some s') :
    Chain s'.heap s'.q.bfirst (l ++ [(a, b.val)]) ∧
      Settles s.heap s'.heap (cells l) (cells (l ++ [(a, b.val)])) := by
  obtain ⟨hnot, hr₁, hfill⟩ := alloc_beside hr hal b
  obtain ⟨s₂, hrun₂, hm⟩ := qaddblock_spec hr₁ (n := b.next) (v := b.val) (by simp) hnot
  cases hrun.symm.trans hrun₂
  exact ⟨hm.rep.chain, hfill.trans
    (settles_qaddblock hr₁ (n := b.next) (v := b.val) (by simp) hnot hrun)⟩

/-- The block of `qwrite` is fresh, and goes the way of `qbwrite`. -/
theorem settles_qwritePut {out : Ret Bwrite} (hr : Rep s l) (hrun : qwritePut al s bytes = some out) :
    ∃ l', Chain out.st.heap out.st.q.bfirst l' ∧ Settles s.heap out.st.heap (cells l)
      (cells l' ∪ {x | s.q.bypass = true ∧
        ∃ h', allocb al s.heap (min bytes.length maxatomic) = some (x, h')}) := by
  simp only [qwritePut, allocb, Option.bind_eq_bind, Option.bind_eq_some_iff] at hrun
  obtain ⟨⟨a, h'⟩, hal, b, hb, hput⟩ := hrun
  let w := b.val.fill (bytes.take maxatomic)
  obtain ⟨hnot, hr₁, hfill⟩ := alloc_beside hr hal ⟨b.next, w⟩
  have hsettled := settles_qbwritePut hr₁ (n := b.next) (v := w) (by simp) hnot hput
  obtain ⟨out', hrun', _, hl⟩ := qbwritePut_spec hr₁ (n := b.next) (v := w) (by simp) hnot
  cases hput.symm.trans hrun'
  refine ⟨_, hl.rep.chain, (hfill.trans hsettled).congr (fun _ => Iff.rfl) ?_⟩
  intro x
  simp only [Set.mem_union, Set.mem_ofPred_eq, allocb, hal, Option.some.injEq, Prod.mk.injEq]
  constructor
  · rintro (hx | ⟨hby, _, rfl, _⟩)
    · exact Or.inl hx
    · exact Or.inr ⟨rfl, hby⟩
  · rintro (hx | ⟨rfl, hby⟩)
    · exact Or.inl hx
    · exact Or.inr ⟨hby, h', rfl, rfl⟩

theorem settles_qproduce (hr : Rep s l) (hrun : qproduce al s bytes = some out) :
    ∃ l', Chain out.st.heap out.st.q.bfirst l' ∧
      Settles s.heap out.st.heap (cells l) (cells l') := by
  have hsame := Settles.refl (live_of_chain hr.chain)
  simp only [qproduce] at hrun
  split at hrun
  next =>
    cases hrun
    exact ⟨l, hr.chain, hsame⟩
  next =>
    split at hrun
    next =>
      cases hrun
      exact ⟨l, hr.chain, hsame⟩
    next a h' hal =>
      simp only [Option.bind_eq_bind, Option.bind_eq_some_iff] at hrun
      obtain ⟨b, hb, s₁, hadd, hout⟩ := hrun
      obtain ⟨hchain, hsettled⟩ := settles_alloc_qaddblock hr hal hadd
      cases hout
      refine ⟨_, ?_, hsettled⟩
      simp only [unstarve_fst]
      split <;> exact hchain

/-- One turn of `qiwrite` queues or frees its fresh block, unless the queue is closed. -/
theorem settles_qiwritePut {out : Ret Iwrite} (hr : Rep s l)
    (hopen : s.q.state.closed = false ∨ iallocb al s.heap (min bytes.length maxatomic) = none)
    (hrun : qiwritePut al s bytes = some out) :
    ∃ l', Chain out.st.heap out.st.q.bfirst l' ∧
      Settles s.heap out.st.heap (cells l) (cells l') := by
  simp only [qiwritePut] at hrun
  split at hrun
  next =>
    cases hrun
    exact ⟨l, hr.chain, Settles.refl (live_of_chain hr.chain)⟩
  next a h' hal =>
    have hcl : s.q.state.closed = false := by
      rcases hopen with hcl | hnone
      · exact hcl
      · rw [hal] at hnone
        cases hnone
    simp only [hcl, Bool.false_eq_true, if_false, Option.bind_eq_bind, Option.bind_eq_some_iff] at hrun
    obtain ⟨b, hb, hrun⟩ := hrun
    split at hrun
    next =>
      obtain ⟨hnot, hr₁, hfill⟩ := alloc_beside hr hal ⟨b.next, b.val.fill (bytes.take maxatomic)⟩
      obtain ⟨heap, hfree, hout⟩ := Option.bind_eq_some_iff.mp hrun
      cases hout
      have hf := settles_freeb hfree
      have hdisj : ∀ x ∈ cells l, x ∉ ({a} : Set Addr) := by
        rintro x hx rfl
        exact hnot hx
      have hf' := hf.frame (live_of_chain hr₁.chain) hdisj
      rw [Set.empty_union, Set.union_comm] at hf'
      refine ⟨l, hr₁.chain.frame (fun x hx => ?_), hfill.trans hf'⟩
      exact hf.off x (hdisj x hx) (fun hx => hx.elim)
    next =>
      obtain ⟨s₁, hadd, hout⟩ := Option.bind_eq_some_iff.mp hrun
      obtain ⟨hchain, hsettled⟩ := settles_alloc_qaddblock hr hal hadd
      cases hout
      refine ⟨_, ?_, hsettled⟩
      simp only [unstarve_fst]
      exact hchain

end Qio
