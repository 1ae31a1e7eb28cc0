import NixKernel.QioRead

/-!
# The writers and the shutdown operations, as functions on lists

Every writer either appends its blocks to the queue or gives them up; the
shutdown operations empty the queue.
-/

namespace Qio

open HeapChain
open Function (update update_self update_of_ne update_idem)

/-- The fields of a queue that neither the list operations nor the wakeup
protocol change: everything but the chain, the counts, `Qflow` and `Qstarve`. -/
def Queue.fixed (q : Queue) : Queue :=
  { q.ctl with state := { q.state with flow := false, starve := false } }

theorem Queue.fixed_of_ctl {q q' : Queue} (h : q'.ctl = q.ctl) : q'.fixed = q.fixed := by
  unfold Queue.fixed
  rw [h, Queue.state_of_ctl h]

@[simp] theorem fixed_restart (q : Queue) : (restart q).1.fixed = q.fixed := by
  rw [restart_fst]
  rfl

@[simp] theorem fixed_unstarve (q : Queue) : (unstarve q).1.fixed = q.fixed := by
  rw [unstarve_fst]
  rfl

/-- The result of an operation: the queue holds `l`, allocated blocks outside
`dom` are untouched and the fixed fields are the same. -/
structure Leaves (dom : List Addr) (s : Qs) (l : Cells) (t : Qs) : Prop where
  rep : Rep t l
  off : ∀ a ∉ dom, s.heap a ≠ none → t.heap a = s.heap a
  fixed : t.q.fixed = s.q.fixed

variable {l : Cells} {d : List Addr}

theorem Does.leaves {s t : Qs} (h : Does d s l t) :
    Leaves d s l t :=
  ⟨h.rep, h.off, Queue.fixed_of_ctl h.ctl⟩

theorem Leaves.weaken {s t : Qs} {d e : List Addr} (h : Leaves d s l t) (hde : ∀ a ∈ d, a ∈ e) :
    Leaves e s l t :=
  ⟨h.rep, fun a ha => h.off a (fun had => ha (hde a had)), h.fixed⟩

/-- Wakeup bookkeeping after an operation changes nothing that counts. -/
theorem Leaves.with_queue {s t : Qs} (h : Leaves d s l t) {q : Queue}
    (hfirst : q.bfirst = t.q.bfirst) (hlast : q.blast = t.q.blast) (hlen : q.len = t.q.len)
    (hdlen : q.dlen = t.q.dlen) (hfixed : q.fixed = t.q.fixed) :
    Leaves d s l { t with q } :=
  ⟨h.rep.with_queue hfirst hlast hlen hdlen, h.off, hfixed.trans h.fixed⟩

theorem Leaves.restarted {α : Type} {s t : Qs} (h : Leaves d s l t) (val : α) :
    Leaves d s l (restarted t val).st :=
  ⟨h.rep.with_restart, h.off, (fixed_restart _).trans h.fixed⟩

theorem Leaves.unstarved {s t : Qs} (h : Leaves d s l t) :
    Leaves d s l { t with q := (unstarve t.q).1 } :=
  ⟨h.rep.with_unstarve, h.off, (fixed_unstarve _).trans h.fixed⟩

/-- Blocks the operation does not own survive it. -/
theorem Leaves.keeps_chain {s t : Qs} {l k : Cells} {p : Option Addr} (h : Leaves d s l t)
    (hk : Chain s.heap p k) (hdisj : List.Disjoint (addrs k) d) :
    Chain t.heap p k := by
  refine hk.frame ?_
  intro a ha
  refine h.off a (fun had => hdisj ha had) ?_
  intro hnone
  exact hk.not_mem_of_free hnone ha

variable {s : Qs}

/-- Freeing a list that is not in the queue. -/
theorem freeblist_leaves {l r : Cells} {p : Option Addr} (h : Rep s l) (hr : Chain s.heap p r)
    (hdisj : (addrs l).Disjoint (addrs r)) :
    ∃ heap, freeblist s.heap p = some heap ∧ Leaves (addrs r) s l { s with heap } := by
  obtain ⟨heap, hrun, _, hkeep⟩ := freeblist_spec hr
  refine ⟨heap, hrun, ⟨h.with_heap ?_, fun x hx _ => hkeep x hx, rfl⟩⟩
  intro x hx
  exact hkeep x (fun hxr => hdisj hx hxr)

variable {a : Addr}

/-- Freeing one block that is not in the queue. -/
theorem freeb_leaves {b : Block} (h : Rep s l) (ha : s.heap a = some b) (hnot : a ∉ addrs l) :
    ∃ heap, freeb s.heap a = some heap ∧ Leaves [a] s l { s with heap } := by
  refine ⟨update s.heap a none, by simp [freeb, ha], ⟨h.with_heap ?_, ?_, rfl⟩⟩
  · intro x hx
    refine update_of_ne ?_ _ _
    rintro rfl
    exact hnot hx
  · intro x hx _
    exact update_of_ne (by simpa using hx) _ _

theorem qpassAdd_spec {l r : Cells} (h : Rep s l) (hr : Chain s.heap (some a) r)
    (hdisj : (addrs l).Disjoint (addrs r)) :
    ∃ out, qpassAdd s a = some out ∧ Leaves (addrs l) s (l ++ r) out.st := by
  obtain ⟨s₁, hadd, hm⟩ := qaddlist_spec h hr hdisj
  have hl := hm.does.leaves
  refine ⟨_, by simp only [qpassAdd, blockalloclen_spec hr, hadd]; rfl, ?_⟩
  rw [unstarve_fst]
  split
  · exact hl.with_queue rfl rfl rfl rfl rfl
  · exact hl.with_queue rfl rfl rfl rfl rfl

theorem qpassnolim_spec {l r : Cells} (h : Rep s l) (hr : Chain s.heap (some a) r)
    (hdisj : (addrs l).Disjoint (addrs r)) :
    ∃ out, qpassnolim s a = some out ∧
      Leaves (addrs l ++ addrs r) s (if s.q.state.closed then l else l ++ r) out.st := by
  by_cases hclosed : s.q.state.closed = true
  · obtain ⟨heap, hrun, hl⟩ := freeblist_leaves h hr hdisj
    obtain ⟨v, n, t, rfl, ha, _⟩ := hr.exists_cons
    refine ⟨_, by simp only [qpassnolim, hclosed, if_true, ha, hrun]; rfl, ?_⟩
    rw [if_pos hclosed]
    exact hl.weaken (fun x hx => List.mem_append_right _ hx)
  · obtain ⟨out, hrun, hl⟩ := qpassAdd_spec h hr hdisj
    refine ⟨out, by simp [qpassnolim, hclosed, hrun], ?_⟩
    rw [if_neg hclosed]
    exact hl.weaken (fun x hx => List.mem_append_left _ hx)

/-- Whether `qpass` queues its block list. -/
def Queue.passes (q : Queue) : Bool := q.len < q.limit && !q.state.closed

theorem qpass_spec {l r : Cells} (h : Rep s l) (hr : Chain s.heap (some a) r)
    (hdisj : (addrs l).Disjoint (addrs r)) :
    ∃ out, qpass s a = some out ∧
      Leaves (addrs l ++ addrs r) s (if s.q.passes then l ++ r else l) out.st := by
  by_cases hfull : s.q.limit ≤ s.q.len
  · obtain ⟨heap, hrun, hl⟩ := freeblist_leaves h hr hdisj
    refine ⟨_, by simp only [qpass, hfull, if_true, hrun]; rfl, ?_⟩
    have hge : ¬ s.q.len < s.q.limit := by omega
    have hno : s.q.passes = false := by simp [Queue.passes, hge]
    simp only [hno, Bool.false_eq_true, if_false]
    exact hl.weaken (fun x hx => List.mem_append_right _ hx)
  · obtain ⟨out, hrun, hl⟩ := qpassnolim_spec h hr hdisj
    refine ⟨out, by simp [qpass, hfull, hrun], ?_⟩
    have hlt : s.q.len < s.q.limit := by omega
    cases hclosed : s.q.state.closed <;> simpa [Queue.passes, hlt, hclosed] using hl

/-- What becomes of a block given to `qbwrite`, by the state of the queue. -/
def Queue.bwrite (q : Queue) (n : Nat) : Bwrite :=
  if q.bypass then .bypassed n
  else if q.state.closed then .err q.err
  else if q.limit ≤ q.len ∧ q.noblock then .dropped n
  else .queued n

/-- Whether `qbwrite` queues its block. -/
def Queue.accepts (q : Queue) : Bool :=
  !q.bypass && !q.state.closed && !(decide (q.limit ≤ q.len) && q.noblock)

theorem qbwritePut_queued {v : Buf} {n : Option Addr} (h : Rep s l) (ha : s.heap a = some ⟨n, v⟩)
    (hnot : a ∉ addrs l) (hacc : s.q.accepts = true) :
    ∃ s', qbwritePut s a = some ⟨{ s' with q := (unstarve s'.q).1 }, .queued v.blen,
        (unstarve s'.q).2, false⟩ ∧
      Moves (a :: addrs l) s (l ++ [(a, v)]) s' := by
  obtain ⟨s', hrun, hm⟩ := qaddblock_spec h ha hnot
  refine ⟨s', ?_, hm⟩
  simp only [Queue.accepts, Bool.and_eq_true, Bool.not_eq_true', Bool.and_eq_false_iff,
    decide_eq_false_iff_not] at hacc
  obtain ⟨⟨hby, hcl⟩, hfull⟩ := hacc
  have hroom : ¬ (s.q.limit ≤ s.q.len ∧ s.q.noblock = true) := by
    rintro ⟨hle, hno⟩
    rcases hfull with hf | hf
    · exact hf hle
    · rw [hno] at hf
      cases hf
  simp [qbwritePut, ha, hby, hcl, hroom, hrun]

theorem qbwritePut_spec {v : Buf} {n : Option Addr} (h : Rep s l) (ha : s.heap a = some ⟨n, v⟩)
    (hnot : a ∉ addrs l) :
    ∃ out, qbwritePut s a = some out ∧ out.val = s.q.bwrite v.blen ∧
      Leaves (a :: addrs l) s (if s.q.accepts then l ++ [(a, v)] else l) out.st := by
  by_cases hacc : s.q.accepts = true
  · obtain ⟨s', hrun, hm⟩ := qbwritePut_queued h ha hnot hacc
    refine ⟨_, hrun, ?_, ?_⟩
    · simp only [Queue.accepts, Bool.and_eq_true, Bool.not_eq_true', Bool.and_eq_false_iff,
        decide_eq_false_iff_not] at hacc
      obtain ⟨⟨hby, hcl⟩, hfull⟩ := hacc
      rcases hfull with hf | hf <;> simp [Queue.bwrite, hby, hcl, hf]
    · rw [if_pos hacc]
      exact hm.does.leaves.unstarved
  · rw [if_neg hacc]
    obtain ⟨heap, hfree, hl⟩ := freeb_leaves h ha hnot
    have hl' : Leaves (a :: addrs l) s l { s with heap } := hl.weaken (by simp)
    by_cases hby : s.q.bypass = true
    · refine ⟨⟨s, .bypassed v.blen, false, false⟩, by simp [qbwritePut, ha, hby],
        by simp [Queue.bwrite, hby], ?_⟩
      exact (Moves.refl h).does.leaves.weaken (by simp)
    · by_cases hcl : s.q.state.closed = true
      · exact ⟨⟨{ s with heap }, .err s.q.err, false, false⟩,
          by simp [qbwritePut, ha, hby, hcl, hfree], by simp [Queue.bwrite, hby, hcl], hl'⟩
      · have hfull : s.q.limit ≤ s.q.len ∧ s.q.noblock = true := by
          simpa [Queue.accepts, hby, hcl] using hacc
        exact ⟨⟨{ s with heap }, .dropped v.blen, false, false⟩,
          by simp [qbwritePut, ha, hby, hcl, hfull, hfree],
          by simp [Queue.bwrite, hby, hcl, hfull], hl'⟩

/-- A block just allocated and filled, not yet in the queue. -/
theorem Rep.with_fresh (h : Rep s l) (hfree : s.heap a = none) (c : Option Block) :
    a ∉ addrs l ∧ Rep { s with heap := update s.heap a c } l := by
  have hnot : a ∉ addrs l := h.chain.not_mem_of_free hfree
  refine ⟨hnot, h.with_heap ?_⟩
  intro x hx
  refine update_of_ne ?_ _ _
  rintro rfl
  exact hnot hx

/-- An operation that starts by filling a fresh block only adds that block. -/
theorem Leaves.after_alloc {s t : Qs} {l m : Cells} {c : Option Block}
    (hfree : s.heap a = none)
    (h : Leaves (a :: addrs l) { s with heap := update s.heap a c } m t) :
    Leaves (addrs l) s m t := by
  refine ⟨h.rep, ?_, h.fixed⟩
  intro x hx hsome
  have hxa : x ≠ a := by
    rintro rfl
    exact hsome hfree
  have hupd : update s.heap a c x = s.heap x := update_of_ne hxa _ _
  have hout : x ∉ a :: addrs l := by simp [hxa, hx]
  have hkeep := h.off x hout
  simp only [hupd] at hkeep
  exact hkeep hsome

theorem qwritePut_spec (al : Allocator) (h : Rep s l) (bytes : List UInt8) :
    (qwritePut al s bytes = none ∧ allocb al s.heap (min bytes.length maxatomic) = none) ∨
    ∃ out, qwritePut al s bytes = some out ∧
      out.val = s.q.bwrite (min bytes.length maxatomic) ∧
      ∃ a v, v.data = bytes.take maxatomic ∧ s.heap a = none ∧
        Leaves (addrs l) s (if s.q.accepts then l ++ [(a, v)] else l) out.st := by
  cases hal : iallocb al s.heap (min bytes.length maxatomic) with
  | none =>
    left
    exact ⟨by simp [qwritePut, allocb, hal], hal⟩
  | some p =>
    right
    obtain ⟨a, h'⟩ := p
    obtain ⟨hfree, hd, rfl⟩ := iallocb_spec hal
    let w : Buf := (⟨hd, [], min bytes.length maxatomic⟩ : Buf).fill (bytes.take maxatomic)
    obtain ⟨hnot, hrep⟩ := h.with_fresh hfree (some ⟨none, w⟩)
    obtain ⟨out, hrun, hval, hl⟩ := qbwritePut_spec hrep (n := none) (v := w) (by simp) hnot
    have hdata : w.data = bytes.take maxatomic := by simp [w, Buf.fill]
    have hblen : w.blen = min bytes.length maxatomic := by
      rw [Buf.blen, hdata, List.length_take, Nat.min_comm]
    refine ⟨out, ?_, by rw [hval, hblen], a, w, hdata, hfree, hl.after_alloc hfree⟩
    simp only [w] at hrun
    simp [qwritePut, allocb, hal, hrun]

/-- `qproduce` appends a fresh block with its bytes, or nothing. -/
theorem qproduce_spec (al : Allocator) (h : Rep s l) (bytes : List UInt8) :
    ∃ out, qproduce al s bytes = some out ∧
      ((Leaves (addrs l) s l out.st ∧ (out.val = -1 ∨ out.val = 0)) ∨
        ∃ a v, v.data = bytes ∧ s.heap a = none ∧ out.val = bytes.length ∧
          Leaves (addrs l) s (l ++ [(a, v)]) out.st) := by
  by_cases hfull : s.q.limit ≤ s.q.len
  · refine ⟨_, by simp only [qproduce, hfull, if_true]; rfl, Or.inl ⟨?_, Or.inl rfl⟩⟩
    have hl : Leaves (addrs l) s l s := (Moves.refl h).does.leaves.weaken (by simp)
    exact hl.with_queue rfl rfl rfl rfl rfl
  · cases hal : iallocb al s.heap bytes.length with
    | none =>
      refine ⟨_, by simp only [qproduce, hfull, if_false, hal]; rfl,
        Or.inl ⟨(Moves.refl h).does.leaves.weaken (by simp), Or.inr rfl⟩⟩
    | some p =>
      obtain ⟨a, h'⟩ := p
      obtain ⟨hfree, hd, rfl⟩ := iallocb_spec hal
      let w : Buf := (⟨hd, [], bytes.length⟩ : Buf).fill bytes
      obtain ⟨hnot, hrep⟩ := h.with_fresh hfree (some ⟨none, w⟩)
      obtain ⟨s₁, hrun, hm⟩ := qaddblock_spec hrep (n := none) (v := w) (by simp) hnot
      have hl := hm.does.leaves.after_alloc hfree
      simp only [w] at hrun
      refine ⟨_, by simp only [qproduce, hfull, if_false, hal, Option.bind_eq_bind,
        update_self, Option.bind_some, update_idem, hrun]; rfl,
        Or.inr ⟨a, w, by simp [w, Buf.fill], hfree, rfl, ?_⟩⟩
      rw [unstarve_fst]
      split
      · exact hl.with_queue rfl rfl rfl rfl rfl
      · exact hl.with_queue rfl rfl rfl rfl rfl

/-- One turn of `qiwrite` appends a fresh block with its bytes, or nothing. -/
theorem qiwritePut_spec (al : Allocator) (h : Rep s l) (bytes : List UInt8) :
    ∃ out, qiwritePut al s bytes = some out ∧
      ((Leaves (addrs l) s l out.st ∧ ∀ n, out.val ≠ .wrote n) ∨
        ∃ a v, v.data = bytes.take maxatomic ∧ s.heap a = none ∧
          out.val = .wrote (min bytes.length maxatomic) ∧
          Leaves (addrs l) s (l ++ [(a, v)]) out.st) := by
  cases hal : iallocb al s.heap (min bytes.length maxatomic) with
  | none =>
    refine ⟨_, by simp only [qiwritePut, hal]; rfl, Or.inl ⟨?_, by simp⟩⟩
    exact (Moves.refl h).does.leaves.weaken (by simp)
  | some p =>
    obtain ⟨a, h'⟩ := p
    obtain ⟨hfree, hd, rfl⟩ := iallocb_spec hal
    let w : Buf := (⟨hd, [], min bytes.length maxatomic⟩ : Buf).fill (bytes.take maxatomic)
    let s₀ : Qs := { s with heap := update s.heap a (some ⟨none, w⟩) }
    obtain ⟨hnot, hrep⟩ := h.with_fresh hfree (some ⟨none, w⟩)
    have hopen : qiwritePut al s bytes =
        if s.q.state.closed then some { st := s₀, val := .closed }
        else if 16 * 1024 ≤ s.q.dlen then
          (freeb s₀.heap a).bind fun h => some { st := { s₀ with heap := h }, val := .full }
        else (qaddblock s₀ a).bind fun s =>
          some { st := { s with q := (unstarve s.q).1 },
                 val := .wrote (min bytes.length maxatomic), rr := (unstarve s.q).2 } := by
      simp [qiwritePut, hal, s₀, w]
    rw [hopen]
    by_cases hcl : s.q.state.closed = true
    · refine ⟨_, by rw [if_pos hcl], Or.inl ⟨?_, by simp⟩⟩
      have hl : Leaves (a :: addrs l) s₀ l s₀ :=
        (Moves.refl hrep).does.leaves.weaken (by simp)
      exact hl.after_alloc hfree
    · rw [if_neg hcl]
      by_cases hbig : 16 * 1024 ≤ s.q.dlen
      · obtain ⟨heap, hrun, hl⟩ := freeb_leaves hrep (b := ⟨none, w⟩) (by simp) hnot
        have hl' : Leaves (a :: addrs l) s₀ l { s₀ with heap } := hl.weaken (by simp)
        refine ⟨_, by rw [if_pos hbig, hrun]; rfl, Or.inl ⟨?_, by simp⟩⟩
        exact hl'.after_alloc hfree
      · obtain ⟨s₁, hrun, hm⟩ := qaddblock_spec hrep (n := none) (v := w) (by simp) hnot
        have hl := hm.does.leaves.unstarved.after_alloc hfree
        refine ⟨_, by rw [if_neg hbig, hrun]; rfl, Or.inr ⟨a, w, ?_, hfree, rfl, hl⟩⟩
        simp [w, Buf.fill]

/-- An empty queue with zero counts. -/
theorem Rep.empty (hfirst : s.q.bfirst = none) (hlen : s.q.len = 0) (hdlen : s.q.dlen = 0) : Rep s [] :=
  ⟨hfirst, by simpa using hlen, by simpa using hdlen, by simp⟩

theorem qclose_spec (h : Rep s l) :
    ∃ out, qclose s = some out ∧ Rep out.st [] ∧
      ∀ a ∉ addrs l, out.st.heap a = s.heap a := by
  obtain ⟨heap, hrun, _, hkeep⟩ := freeblist_spec h.chain
  exact ⟨_, by simp only [qclose, hrun]; rfl, Rep.empty rfl rfl rfl, hkeep⟩

theorem qflush_spec (h : Rep s l) :
    ∃ out, qflush s = some out ∧ Rep out.st [] ∧
      ∀ a ∉ addrs l, out.st.heap a = s.heap a := by
  obtain ⟨heap, hrun, _, hkeep⟩ := freeblist_spec h.chain
  exact ⟨_, by simp only [qflush, hrun]; rfl, Rep.empty rfl rfl rfl, hkeep⟩

end Qio
