import NixKernel.QioSystem

/-!
# Every operation keeps the queue

For each operation of the system: from a state that `Holds`, it returns, and it
is `Sound`.  The only exceptions are `qbread` and `qwrite` without memory for a
block, where the kernel panics.
-/

namespace Qio

open HeapChain StepSystem List

variable {s : Sys} {l k : Cells}

/-- The operation returns and is sound. -/
def Runs (s : Sys) (l k : Cells) (op : Op) : Prop :=
  ∃ o, exec s op = some o ∧ Sound s l k op o

theorem Holds.private_nil (h : Holds s l k) (hread : s.read = none) : k = [] := by
  have hp : s.private = none := by
    unfold Sys.private
    rw [hread]
  have hk := h.priv
  rw [hp] at hk
  exact hk.eq_nil

theorem Holds.held_nil (h : Holds s l k) (hread : s.read = none) : s.held k = [] := by
  unfold Sys.held
  rw [hread, h.private_nil hread]
  rfl

/-- The fixed fields decide whether a queue keeps bytes. -/
theorem byteQueue_of_fixed {t : Sys} (hfix : t.st.q.fixed = s.st.q.fixed)
    (hs : s.ByteQueue) : t.ByteQueue := by
  have hstate := congrArg Queue.state hfix
  have hmsg := congrArg QState.msg hstate
  have hclosed := congrArg QState.closed hstate
  exact ⟨hmsg.trans hs.1, hclosed.trans hs.2⟩

variable {t : Qs}

/-- A step of the queue alone: the read in progress keeps its blocks as long as
the operation neither touches nor queues them. -/
theorem Holds.leaves (h : Holds s l k) {l' : Cells} {d : List Addr} (hl : Leaves d s.st l' t)
    (hd : List.Disjoint (addrs k) d) (hl' : (addrs k).Disjoint (addrs l')) :
    Holds { s with st := t } l' k :=
  ⟨hl.rep, hl.keeps_chain h.priv hd, hl', h.frame⟩

variable {op : Op}

/-- What an operation on the queue alone has to show. -/
theorem Holds.runs (h : Holds s l k) {acc out : List UInt8} {l' : Cells}
    {d : List Addr} (hrun : exec s op = some ⟨{ s with st := t }, acc, out⟩)
    (hl : Leaves d s.st l' t) (hd : List.Disjoint (addrs k) d)
    (hl' : (addrs k).Disjoint (addrs l'))
    (hbytes : Keeps s op → s.ByteQueue →
      out ++ s.held k ++ flat l' = s.held k ++ flat l ++ acc) :
    Runs s l k op :=
  ⟨_, hrun, l', k, h.leaves hl hd hl',
    fun hk hb => ⟨byteQueue_of_fixed hl.fixed hb, hbytes hk hb⟩⟩

/-- The same for an operation whose blocks come from the queue or are fresh. -/
theorem Holds.runs_own (h : Holds s l k) {acc out : List UInt8} {l' : Cells}
    (hrun : exec s op = some ⟨{ s with st := t }, acc, out⟩)
    (hl : Leaves (addrs l) s.st l' t)
    (hsub : ∀ x ∈ addrs l', x ∈ addrs l ∨ s.st.heap x = none)
    (hbytes : Keeps s op → s.ByteQueue →
      out ++ s.held k ++ flat l' = s.held k ++ flat l ++ acc) :
    Runs s l k op := by
  apply h.runs hrun hl h.disj ?_ hbytes
  intro x hxk hx
  rcases hsub x hx with hxl | hfree
  · exact h.disj hxk hxl
  · exact h.priv.not_mem_of_free hfree hxk

/-- The same for an operation that only reads the queue or changes its flags. -/
theorem Holds.runs_flags (h : Holds s l k) {q : Queue}
    (hrun : exec s op = some { sys := { s with st := { s.st with q } } })
    (hfirst : q.bfirst = s.st.q.bfirst) (hlast : q.blast = s.st.q.blast)
    (hlen : q.len = s.st.q.len) (hdlen : q.dlen = s.st.q.dlen)
    (hopen : Keeps s op → s.ByteQueue → q.state.msg = false ∧ q.state.closed = false) :
    Runs s l k op := by
  refine ⟨_, hrun, l, k, ⟨h.rep.with_queue hfirst hlast hlen hdlen, h.priv, h.disj, h.frame⟩, ?_⟩
  intro hk hb
  refine ⟨hopen hk hb, ?_⟩
  show [] ++ s.held k ++ flat l = s.held k ++ flat l ++ []
  simp

attribute [local simp] exec

theorem runs_qremove (h : Holds s l k) : Runs s l k .qremove := by
  have hrep := h.rep
  cases l with
  | nil =>
    have hrun : Qio.qremove s.st = some (s.st, none) := by
      simp [Qio.qremove, hrep.bfirst_nil]
    apply h.runs_flags (q := s.st.q) ?_ rfl rfl rfl rfl (fun _ hb => hb)
    simp [exec, hrun, givenOut]
  | cons c t =>
    obtain ⟨a, v⟩ := c
    obtain ⟨s', hrun, hm, ha⟩ := qremove_spec hrep
    have hexec : exec s .qremove = some ⟨{ s with st := s' }, [], v.data⟩ := by
      simp [exec, hrun, givenOut, databytes, ha]
    apply h.runs_own hexec (hm.does.leaves.weaken (by simp)) ?_ ?_
    · intro x hx
      exact Or.inl (mem_cons_of_mem _ hx)
    · intro hread _
      simp [h.held_nil hread]

theorem runs_qget (h : Holds s l k) : Runs s l k .qget := by
  have hrep := h.rep
  cases l with
  | nil =>
    have hexec : exec s .qget = some { sys := { s with st := { s.st with q := { s.st.q with
        state := { s.st.q.state with starve := true } } } } } := by
      simp [exec, qget_empty hrep, givenOut]
    exact h.runs_flags hexec rfl rfl rfl rfl (fun _ hb => hb)
  | cons c t =>
    obtain ⟨a, v⟩ := c
    obtain ⟨s', hrun, hm, ha⟩ := qget_cons hrep
    have hexec : exec s .qget =
        some ⟨{ s with st := (restarted s' (some a)).st }, [], v.data⟩ := by
      simp [exec, hrun, restarted, givenOut, databytes, ha]
    have hl : Leaves (addrs ((a, v) :: t)) s.st t s' := hm.does.leaves.weaken (by simp)
    apply h.runs_own hexec (hl.restarted (some a)) ?_ ?_
    · intro x hx
      exact Or.inl (mem_cons_of_mem _ hx)
    · intro hread _
      simp [h.held_nil hread]

theorem runs_qdiscard (h : Holds s l k) (len : Nat) : Runs s l k (.qdiscard len) := by
  obtain ⟨s', hrun, hm⟩ := qdiscard_spec h.rep len
  have hexec : exec s (.qdiscard len) = some ⟨{ s with
      st := (restarted s' (min len (flat l).length, (flat l).take len)).st }, [],
      (flat l).take len⟩ := by
    simp [exec, hrun, restarted]
  apply h.runs_own hexec (hm.does.leaves.restarted _) ?_ ?_
  · intro x hx
    exact Or.inl (addrs_discardCells len l x hx)
  · intro hread _
    simp [h.held_nil hread, flat_discardCells, take_append_drop]

theorem runs_qconsume (h : Holds s l k) (len : Nat) : Runs s l k (.qconsume len) := by
  have hflat := flat_skipEmpty l
  have hsub := addrs_skipEmpty l
  cases hskip : skipEmpty l with
  | nil =>
    obtain ⟨s', hrun, hm⟩ := qconsume_empty h.rep len hskip
    have hexec : exec s (.qconsume len) = some ⟨{ s with st := { s' with q := { s'.q with
        state := { s'.q.state with starve := true } } } }, [], []⟩ := by
      simp [exec, hrun]
    apply h.runs_own hexec (hm.does.leaves.with_queue rfl rfl rfl rfl rfl) (by simp)
    intro hread _
    rw [hskip] at hflat
    simp [h.held_nil hread, ← hflat]
  | cons c t =>
    obtain ⟨a, v⟩ := c
    obtain ⟨s', hrun, hm⟩ := qconsume_cons h.rep len hskip
    have hexec : exec s (.qconsume len) = some ⟨{ s with
        st := (restarted s' (some (v.data.take len))).st }, [], v.data.take len⟩ := by
      simp [exec, hrun, restarted]
    rw [hskip] at hflat hsub
    apply h.runs_own hexec (hm.does.leaves.restarted _) ?_ ?_
    · intro x hx
      apply Or.inl
      apply hsub
      unfold consumeRest at hx
      split at hx
      · exact mem_cons_of_mem _ hx
      · exact hx
    · intro hread hb
      rw [h.held_nil hread, ← hflat, hb.1]
      by_cases hle : v.blen ≤ len
      · have htake : v.data.take len = v.data := take_of_length_le hle
        simp [consumeRest, hle, htake]
      · simp [consumeRest, hle, ← append_assoc]

theorem runs_qbread (h : Holds s l k) (al : Allocator) (len : Nat) (hread : s.read = none) :
    (exec s (.qbread al len) = none ∧ NoMemory s (.qbread al len)) ∨
      Runs s l k (.qbread al len) := by
  have hrep := h.rep
  cases l with
  | nil =>
    right
    obtain ⟨_, hfirst, hlast, hlen, hdlen⟩ := qwait_empty hrep.bfirst_nil
    have hrun := qbread_empty al hrep len
    have hexec : exec s (.qbread al len) =
        some { sys := { s with st := { s.st with q := (qwait s.st.q).1 } } } := by
      simp only [exec, hrun]
      generalize (qwait s.st.q).2 = w
      cases w <;> rfl
    apply h.runs_flags hexec hfirst hlast hlen hdlen
    intro _ hb
    simp [qwait, hrep.bfirst_nil, hb.1, hb.2]
  | cons c t =>
    obtain ⟨a, v⟩ := c
    rcases qbread_cons al hrep len with ⟨hnone, hmem⟩ | ⟨s', hrun, hd, ha, hflat⟩
    · left
      obtain ⟨hp, n, hb, _⟩ := chain_cons.mp hrep.chain
      exact ⟨by simp [exec, hnone], a, ⟨n, v⟩, hp, hb, hmem⟩
    · right
      have hdata : (if len < v.blen then v.cut len else v).data = v.data.take len := by
        split
        · rfl
        · next hlt =>
            exact (take_of_length_le (Nat.le_of_not_lt hlt)).symm
      have hexec : exec s (.qbread al len) =
          some ⟨{ s with st := (restarted s' (Bread.block a)).st }, [], v.data.take len⟩ := by
        simp [exec, hrun, restarted, databytes, ha, hdata]
      have hl : Leaves (addrs ((a, v) :: t)) s.st _ s' := hd.leaves.weaken (by simp)
      apply h.runs_own hexec (hl.restarted _) ?_ ?_
      · intro x hx
        rw [addrs_append, mem_append] at hx
        rcases hx with hxb | hxt
        · have hfree := cutBack_free hxb
          by_cases hxa : x = a
          · subst hxa
            exact Or.inl mem_cons_self
          · right
            rw [headOff, Function.update_of_ne hxa] at hfree
            exact hfree
        · exact Or.inl (mem_cons_of_mem _ hxt)
      · intro _ hb
        rw [h.held_nil hread, flat_append, hflat, hb.1]
        simp [← append_assoc, take_append_drop]

theorem runs_qreadTake (h : Holds s l k) (len : Nat) (hread : s.read = none) :
    Runs s l k (.qreadTake len) := by
  have hk := h.private_nil hread
  subst hk
  cases hsplit : readSplit s.st.q.state.coalesce len l with
  | none =>
    obtain ⟨s', hrun, hm⟩ := qreadTake_none h.rep len hsplit
    have hexec : exec s (.qreadTake len) =
        some { sys := { s with st := { s' with q := (qwait s'.q).1 } } } := by
      simp only [exec, hrun]
      generalize (qwait s'.q).2 = w
      cases w <;> rfl
    have hflat : flat l = [] := by
      rw [← flat_skipEmpty l, (readSplit_eq_none hsplit).1]
      rfl
    have hpriv : s.private = none := chain_nil.mp h.priv
    refine ⟨_, hexec, [], [], ⟨hm.rep.with_qwait, hpriv, by simp, by simp [hread]⟩, ?_⟩
    intro _ hb
    have hstate := Queue.state_of_ctl hm.ctl
    refine ⟨?_, ?_⟩
    · simp [Sys.ByteQueue, qwait, hm.rep.bfirst_nil, hstate, hb.1, hb.2]
    · simp [Sys.held, hread, hflat]
  | some p =>
    obtain ⟨k', r⟩ := p
    obtain ⟨s', first, hrun, hm, hchain⟩ := qreadTake_some h.rep len hsplit
    have hexec : exec s (.qreadTake len) =
        some { sys := ⟨s', some (.taken first (sumBlen k') len)⟩ } := by
      simp [exec, hrun]
    refine ⟨_, hexec, r, k', ⟨hm.rep, hchain, disjoint_readSplit hsplit h.rep.chain.nodup,
      rfl, length_bl2memRest_readSplit hsplit⟩, ?_⟩
    intro _ hb
    refine ⟨byteQueue_of_fixed (Queue.fixed_of_ctl hm.ctl) hb, ?_⟩
    simp [Sys.held, hread, flat_readSplit hsplit]

theorem runs_qreadCopy (h : Holds s l k) {first : Addr} {n len : Nat}
    (hread : s.read = some (.taken first n len)) : Runs s l k .qreadCopy := by
  obtain ⟨hrep, hpriv, hdisj, hframe⟩ := h
  simp only [Sys.private, hread] at hpriv hframe
  obtain ⟨heap, left, hrun, hchain, hoff⟩ := bl2mem_spec hpriv len
  have hexec : exec s .qreadCopy = some { sys :=
      ⟨{ s.st with heap }, some (.copied left n ((flat k).take len))⟩ } := by
    simp [exec, hread, hrun]
  have hkeep : ∀ x ∈ addrs l, heap x = s.st.heap x := by
    intro x hx
    exact hoff x (fun hxk => hdisj hxk hx)
  have hcount : n = ((flat k).take len).length + sumBlen (bl2memRest len k) := by
    rw [← length_flat, flat_bl2memRest, ← length_append, take_append_drop, length_flat]
    exact hframe.1
  refine ⟨_, hexec, l, bl2memRest len k, ⟨hrep.with_heap hkeep, hchain, ?_, hcount, hframe.2⟩, ?_⟩
  · intro x hxk hx
    exact hdisj (addrs_bl2memRest len k x hxk) hx
  · intro _ hb
    refine ⟨hb, ?_⟩
    simp [Sys.held, hread, flat_bl2memRest]

/-- A fault leaves the queue as it was and the blocks not yet copied to nobody. -/
theorem runs_qreadFault (h : Holds s l k) {i : Nat} (ha : Allowed s (.qreadFault i)) :
    Runs s l k (.qreadFault i) := by
  obtain ⟨hrep, hpriv, hdisj, _⟩ := h
  obtain ⟨first, n, len, hread, hfault⟩ := ha
  simp only [Sys.private, hread] at hpriv
  obtain ⟨heap, hrun⟩ := Option.ne_none_iff_exists'.mp hfault
  have hexec : exec s (.qreadFault i) = some { sys := ⟨{ s.st with heap }, none⟩ } := by
    simp [exec, hread, hrun]
  have hkeep : ∀ x ∈ addrs l, heap x = s.st.heap x := by
    intro x hx
    exact (bl2memFault_spec hpriv hrun).2 x (fun hxk => hdisj hxk hx)
  exact ⟨_, hexec, l, [], ⟨hrep.with_heap hkeep, rfl, by simp, trivial⟩, fun hk => hk.elim⟩

theorem runs_qreadFinish (h : Holds s l k) {left : Option Addr} {n : Nat} {bytes : List UInt8}
    (hread : s.read = some (.copied left n bytes)) : Runs s l k .qreadFinish := by
  obtain ⟨hrep, hpriv, hdisj, hframe⟩ := h
  simp only [Sys.private, hread] at hpriv hframe
  obtain ⟨s', hrun, hm⟩ := qreadFinish_spec hrep hpriv hframe.2 hdisj n
  -- the count that `qread` returns is the number of bytes it copied
  have hcount : ((n : Int) - sumBlen k).toNat = bytes.length := by
    have hn := hframe.1
    omega
  have hexec : exec s .qreadFinish = some { sys :=
      ⟨(restarted s' ((n : Int) - sumBlen k)).st, none⟩, out := bytes } := by
    simp [exec, hread, hrun, restarted, hcount]
  have hl := hm.does.leaves.restarted ((n : Int) - sumBlen k)
  refine ⟨_, hexec, _, [], ⟨hl.rep, rfl, by simp, trivial⟩, ?_⟩
  intro _ hb
  refine ⟨byteQueue_of_fixed hl.fixed hb, ?_⟩
  simp [Sys.held, hread, hb.1]

theorem blockbytes_spec {h : Heap} {p : Option Addr} {l : Cells} (hc : Chain h p l) :
    blockbytes h p = some (flat l) := by
  induction l generalizing p with
  | nil => rw [chain_nil.mp hc, blockbytes]; rfl
  | cons c l ih =>
    obtain ⟨a, v⟩ := c
    obtain ⟨rfl, n, ha, htail⟩ := chain_cons.mp hc
    rw [blockbytes]
    simp [ha, ih htail]

variable {b : Addr}

/-- The caller's list is apart from the queue and from the read in progress. -/
theorem Holds.owns (h : Holds s l k) (ho : s.Owns b) :
    ∃ r, Chain s.st.heap (some b) r ∧ (addrs l).Disjoint (addrs r) ∧
      (addrs k).Disjoint (addrs r) := by
  obtain ⟨r, hr, hq, hp⟩ := ho
  exact ⟨r, hr, hq l h.rep.chain, hp k h.priv⟩

/-- The first block of the caller's list. -/
theorem Holds.owns_head (h : Holds s l k) (ho : s.Owns b) :
    ∃ n v, s.st.heap b = some ⟨n, v⟩ ∧ b ∉ addrs l ∧ b ∉ addrs k := by
  obtain ⟨r, hr, hdl, hdk⟩ := h.owns ho
  obtain ⟨v, n, t, rfl, hb, _⟩ := hr.exists_cons
  exact ⟨n, v, hb, fun hm => hdl hm (by simp), fun hm => hdk hm (by simp)⟩

theorem disjoint_append_addrs {k l r : Cells} (hl : (addrs k).Disjoint (addrs l))
    (hr : (addrs k).Disjoint (addrs r)) :
    (addrs k).Disjoint (addrs l ++ addrs r) := by
  intro x hx hmem
  rcases mem_append.mp hmem with hm | hm
  · exact hl hx hm
  · exact hr hx hm

theorem runs_qaddlist (h : Holds s l k) (ho : s.Owns b) :
    Runs s l k (.qaddlist b) := by
  obtain ⟨r, hr, hdl, hdk⟩ := h.owns ho
  obtain ⟨s', hrun, hm⟩ := qaddlist_spec h.rep hr hdl
  have hexec : exec s (.qaddlist b) = some ⟨{ s with st := s' }, flat r, []⟩ := by
    simp [exec, blockbytes_spec hr, hrun]
  apply h.runs hexec hm.does.leaves h.disj ?_ ?_
  · rw [addrs_append]
    exact disjoint_append_addrs h.disj hdk
  · intro _ _
    simp

theorem runs_qpassnolim (h : Holds s l k) (ho : s.Owns b) :
    Runs s l k (.qpassnolim b) := by
  obtain ⟨r, hr, hdl, hdk⟩ := h.owns ho
  obtain ⟨out, hrun, hl⟩ := qpassnolim_spec h.rep hr hdl
  have hexec : exec s (.qpassnolim b) = some ⟨{ s with st := out.st },
      if s.st.q.state.closed then [] else flat r, []⟩ := by
    simp [exec, blockbytes_spec hr, hrun]
  have hboth := disjoint_append_addrs h.disj hdk
  apply h.runs hexec hl hboth ?_ ?_
  · split
    · exact h.disj
    · rw [addrs_append]
      exact hboth
  · intro _ hb
    simp [hb.2]

theorem runs_qpass (h : Holds s l k) (ho : s.Owns b) :
    Runs s l k (.qpass b) := by
  obtain ⟨r, hr, hdl, hdk⟩ := h.owns ho
  obtain ⟨out, hrun, hl⟩ := qpass_spec h.rep hr hdl
  have hexec : exec s (.qpass b) = some ⟨{ s with st := out.st },
      if s.st.q.passes then flat r else [], []⟩ := by
    simp [exec, blockbytes_spec hr, hrun]
  have hboth := disjoint_append_addrs h.disj hdk
  apply h.runs hexec hl hboth ?_ ?_
  · split
    · rw [addrs_append]
      exact hboth
    · exact h.disj
  · intro _ _
    by_cases hp : s.st.q.passes = true
    · simp [hp]
    · simp [hp]

theorem runs_qputback (h : Holds s l k) (ho : s.Owns b) :
    Runs s l k (.qputback b) := by
  obtain ⟨n, v, hb, hbl, hbk⟩ := h.owns_head ho
  obtain ⟨s', hrun, hm⟩ := qputback_spec h.rep hb hbl
  have hexec : exec s (.qputback b) = some ⟨{ s with st := s' }, [], []⟩ := by
    simp [exec, hrun]
  have hone : List.Disjoint (addrs k) [b] := by simpa using hbk
  apply h.runs hexec hm.does.leaves hone ?_ (fun hkeep => hkeep.elim)
  intro x hxk hx
  rcases mem_cons.mp hx with heq | hxl
  · subst heq
    exact hbk hxk
  · exact h.disj hxk hxl

/-- `qbwrite` reports the block as queued exactly when it accepts it. -/
theorem accepted_bwrite (q : Queue) (n : Nat) (bytes : List UInt8) :
    (q.bwrite n).accepted bytes = if q.accepts then bytes else [] := by
  unfold Queue.bwrite Queue.accepts
  by_cases hby : q.bypass = true
  · simp [hby, Bwrite.accepted]
  · by_cases hcl : q.state.closed = true
    · simp [hby, hcl, Bwrite.accepted]
    · by_cases hfull : q.limit ≤ q.len ∧ q.noblock = true
      · simp [hby, hcl, hfull, Bwrite.accepted]
      · have hnot : (decide (q.limit ≤ q.len) && q.noblock) = false := by
          simpa using hfull
        simp [hby, hcl, hfull, hnot, Bwrite.accepted]

theorem runs_qbwrite (h : Holds s l k) (ho : s.Owns b) :
    Runs s l k (.qbwrite b) := by
  obtain ⟨n, v, hb, hbl, hbk⟩ := h.owns_head ho
  obtain ⟨out, hrun, hval, hl⟩ := qbwritePut_spec h.rep hb hbl
  have hexec : exec s (.qbwrite b) = some ⟨{ s with st := out.st },
      if s.st.q.accepts then v.data else [], []⟩ := by
    simp [exec, hrun, hval, accepted_bwrite, databytes, hb]
  have hboth : (addrs k).Disjoint (b :: addrs l) := by
    intro x hxk hx
    rcases mem_cons.mp hx with heq | hxl
    · subst heq
      exact hbk hxk
    · exact h.disj hxk hxl
  apply h.runs hexec hl hboth ?_ ?_
  · intro x hxk hx
    apply hboth hxk
    split at hx
    · simpa [or_comm] using hx
    · exact mem_cons_of_mem _ hx
  · intro _ _
    by_cases hacc : s.st.q.accepts = true
    · simp [hacc]
    · simp [hacc]

/-- Appending a fresh block, as `qwrite`, `qproduce` and `qiwrite` do. -/
theorem Holds.runs_fresh (h : Holds s l k) {a : Addr} {v : Buf}
    (hrun : exec s op = some ⟨{ s with st := t }, v.data, []⟩) (hfree : s.st.heap a = none)
    (hl : Leaves (addrs l) s.st (l ++ [(a, v)]) t) : Runs s l k op := by
  apply h.runs_own hrun hl ?_ ?_
  · intro x hx
    rw [addrs_append, mem_append] at hx
    rcases hx with hxl | hxa
    · exact Or.inl hxl
    · right
      simp only [addrs_cons, addrs_nil, mem_singleton] at hxa
      rw [hxa]
      exact hfree
  · intro _ _
    simp

/-- Giving the bytes up. -/
theorem Holds.runs_drop (h : Holds s l k)
    (hrun : exec s op = some ⟨{ s with st := t }, [], []⟩)
    (hl : Leaves (addrs l) s.st l t) : Runs s l k op := by
  apply h.runs_own hrun hl (fun x hx => Or.inl hx)
  intro _ _
  simp

theorem runs_qwrite (h : Holds s l k) (al : Allocator) (bytes : List UInt8) :
    (exec s (.qwrite al bytes) = none ∧ NoMemory s (.qwrite al bytes)) ∨
      Runs s l k (.qwrite al bytes) := by
  rcases qwritePut_spec al h.rep bytes with ⟨hnone, hmem⟩ | ⟨out, hrun, hval, a, v, hdata, hfree, hl⟩
  · left
    exact ⟨by simp [exec, hnone], hmem⟩
  · right
    by_cases hacc : s.st.q.accepts = true
    · rw [if_pos hacc] at hl
      apply h.runs_fresh ?_ hfree hl
      simp [exec, hrun, hval, accepted_bwrite, hacc, hdata]
    · rw [if_neg hacc] at hl
      apply h.runs_drop ?_ hl
      simp [exec, hrun, hval, accepted_bwrite, hacc]

theorem runs_qproduce (h : Holds s l k) (al : Allocator) (bytes : List UInt8) :
    Runs s l k (.qproduce al bytes) := by
  obtain ⟨out, hrun, hcase⟩ := qproduce_spec al h.rep bytes
  rcases hcase with ⟨hl, hval⟩ | ⟨a, v, hdata, hfree, hval, hl⟩
  · apply h.runs_drop ?_ hl
    have hacc : (if out.val = bytes.length then bytes else []) = [] := by
      split
      · next heq =>
          apply eq_nil_of_length_eq_zero
          omega
      · rfl
    simp [exec, hrun, hacc]
  · apply h.runs_fresh ?_ hfree hl
    simp [exec, hrun, hval, hdata]

theorem runs_qiwrite (h : Holds s l k) (al : Allocator) (bytes : List UInt8) :
    Runs s l k (.qiwrite al bytes) := by
  obtain ⟨out, hrun, hcase⟩ := qiwritePut_spec al h.rep bytes
  rcases hcase with ⟨hl, hval⟩ | ⟨a, v, hdata, hfree, hval, hl⟩
  · apply h.runs_drop ?_ hl
    have hacc : out.val.accepted (bytes.take maxatomic) = [] := by
      cases hv : out.val with
      | wrote n => exact absurd hv (hval n)
      | nomem => rfl
      | closed => rfl
      | full => rfl
    simp [exec, hrun, hacc]
  · apply h.runs_fresh ?_ hfree hl
    simp [exec, hrun, hval, hdata, Iwrite.accepted]

/-- Emptying the queue leaves the private list of the read in progress alone. -/
theorem Holds.runs_empty (h : Holds s l k)
    (hrun : exec s op = some { sys := { s with st := t } }) (hrep : Rep t [])
    (hoff : ∀ a ∉ addrs l, t.heap a = s.st.heap a) (hkeep : ¬ Keeps s op) :
    Runs s l k op := by
  refine ⟨_, hrun, [], k, ⟨hrep, ?_, by simp, h.frame⟩, fun hk => absurd hk hkeep⟩
  apply h.priv.frame
  intro a ha
  exact hoff a (fun hal => h.disj ha hal)

theorem runs_qflush (h : Holds s l k) : Runs s l k .qflush := by
  obtain ⟨out, hrun, hrep, hoff⟩ := qflush_spec h.rep
  exact h.runs_empty (by simp [exec, hrun]) hrep hoff (fun hk => hk)

theorem runs_qclose (h : Holds s l k) : Runs s l k .qclose := by
  obtain ⟨out, hrun, hrep, hoff⟩ := qclose_spec h.rep
  exact h.runs_empty (by simp [exec, hrun]) hrep hoff (fun hk => hk)

/-- Any other use of the heap. -/
theorem runs_env (h : Holds s l k) {heap : Heap} (ha : Allowed s (.env heap)) :
    Runs s l k (.env heap) := by
  have hl := ha.1 l h.rep.chain
  have hk := ha.2 k h.priv
  refine ⟨_, rfl, l, k, ⟨h.rep.with_heap hl, h.priv.frame hk, h.disj, h.frame⟩, ?_⟩
  intro _ hb
  refine ⟨hb, ?_⟩
  show [] ++ s.held k ++ flat l = s.held k ++ flat l ++ []
  simp

/-- **One step.**  An operation the callers may perform returns, unless the
kernel is out of memory for a block, and it is sound. -/
theorem runs_of_allowed (h : Holds s l k) (op : Op) (ha : Allowed s op) :
    (exec s op = none ∧ NoMemory s op) ∨ Runs s l k op := by
  cases op with
  | qget => exact Or.inr (runs_qget h)
  | qdiscard len => exact Or.inr (runs_qdiscard h len)
  | qconsume len => exact Or.inr (runs_qconsume h len)
  | qremove => exact Or.inr (runs_qremove h)
  | qbread al len => exact runs_qbread h al len ha
  | qreadTake len => exact Or.inr (runs_qreadTake h len ha)
  | qreadCopy =>
    obtain ⟨first, n, len, hread⟩ := ha
    exact Or.inr (runs_qreadCopy h hread)
  | qreadFault i => exact Or.inr (runs_qreadFault h ha)
  | qreadFinish =>
    obtain ⟨left, n, bytes, hread⟩ := ha
    exact Or.inr (runs_qreadFinish h hread)
  | qpass b => exact Or.inr (runs_qpass h ha)
  | qpassnolim b => exact Or.inr (runs_qpassnolim h ha)
  | qaddlist b => exact Or.inr (runs_qaddlist h ha)
  | qputback b => exact Or.inr (runs_qputback h ha)
  | qproduce al bytes => exact Or.inr (runs_qproduce h al bytes)
  | qbwrite b => exact Or.inr (runs_qbwrite h ha)
  | qbwriteFlow | qsetlimit limit
  | qnoblock onoff => exact Or.inr (h.runs_flags rfl rfl rfl rfl rfl (fun _ hb => hb))
  | qwrite al bytes => exact runs_qwrite h al bytes
  | qiwrite al bytes => exact Or.inr (runs_qiwrite h al bytes)
  | qflush => exact Or.inr (runs_qflush h)
  | qclose => exact Or.inr (runs_qclose h)
  | qhangup msg =>
    exact Or.inr (h.runs_flags rfl rfl rfl rfl rfl (fun hkeep => hkeep.elim))
  | qreopen => exact Or.inr (h.runs_flags rfl rfl rfl rfl rfl (fun _ hb => ⟨hb.1, rfl⟩))
  | env heap => exact Or.inr (runs_env h ha)

theorem Holds.sound (h : Holds s l k) {o : Outcome} (ha : Allowed s op) (hrun : exec s op = some o) :
    Sound s l k op o := by
  rcases runs_of_allowed h op ha with ⟨hnone, _⟩ | ⟨o', hrun', hsound⟩
  · rw [hnone] at hrun
    cases hrun
  · rw [hrun'] at hrun
    cases hrun
    exact hsound

theorem Holds.returns (h : Holds s l k) (op : Op) (ha : Allowed s op) :
    exec s op ≠ none ∨ NoMemory s op := by
  rcases runs_of_allowed h op ha with ⟨_, hmem⟩ | ⟨o, hrun, _⟩
  · exact Or.inr hmem
  · left
    rw [hrun]
    simp

/-- A queue just opened, in any heap. -/
def Fresh (s : Sys) : Prop :=
  s.read = none ∧
    ((∃ limit msg kick, s.st.q = qopen limit msg kick) ∨ s.st.q = qbypass)

theorem Fresh.holds (h : Fresh s) : Holds s [] [] := by
  obtain ⟨hread, hq⟩ := h
  refine ⟨?_, ?_, by simp, by simp [hread]⟩
  · rcases hq with ⟨limit, msg, kick, hq⟩ | hq
    all_goals exact Rep.empty (by rw [hq]; rfl) (by rw [hq]; rfl) (by rw [hq]; rfl)
  · simp [Sys.private, hread]

/-- An operation the callers may perform, run to its end. -/
def Step (s : Sys) (op : Op) (t : Sys) : Prop :=
  Allowed s op ∧ ∃ o, exec s op = some o ∧ o.sys = t

theorem Step.of_exec {i : Op} {o : Outcome} (ha : Allowed s i) (hrun : exec s i = some o) : Step s i o.sys :=
  ⟨ha, o, hrun, rfl⟩

theorem reach_holds (hr : Reach Fresh Step s) : ∃ l k, Holds s l k := by
  apply hr.invariant (fun s => ∃ l k, Holds s l k)
  · intro s h
    exact ⟨[], [], h.holds⟩
  · intro s op t hinv hstep
    obtain ⟨l, k, h⟩ := hinv
    obtain ⟨hallowed, o, hrun, hsys⟩ := hstep
    obtain ⟨l', k', h', _⟩ := h.sound hallowed hrun
    rw [← hsys]
    exact ⟨l', k', h'⟩

/-- **The queue invariant.**  After any operations in any order, the chain from
`q->bfirst` is well formed and `q->blast` is its last block when it has one;
`q->len` and `q->dlen` are the sums of `BALLOC` and `BLEN` over it, neither negative,
exactly when its space is what an `int` can count.  Any further operation returns, unless
the kernel is out of memory for a block. -/
theorem queue_invariant (s : Sys) (hr : Reach Fresh Step s) :
    (∃ l : Cells, Chain s.st.heap s.st.q.bfirst l ∧
      (s.st.q.bfirst ≠ none → s.st.q.blast = (addrs l).getLast?) ∧
      (s.st.q.len = sumBalloc l ∧ s.st.q.dlen = sumBlen l ∧ 0 ≤ s.st.q.len ∧ 0 ≤ s.st.q.dlen ↔
        sumBalloc l < 2 ^ 31)) ∧
    ∀ op, Allowed s op → exec s op ≠ none ∨ NoMemory s op := by
  obtain ⟨l, k, h⟩ := reach_holds hr
  have hlen := h.rep.len
  have hdlen := h.rep.dlen
  have hle := sumBlen_le l
  refine ⟨⟨l, h.rep.chain, ?_, ?_, ?_⟩, h.returns⟩
  · intro hne
    have hcons : l ≠ [] := h.rep.isSome_bfirst.mp (Option.isSome_iff_ne_none.mpr hne)
    have hsome : (addrs l).getLast?.isSome := by simpa [addrs] using hcons
    obtain ⟨z, hz⟩ := Option.isSome_iff_exists.mp hsome
    rw [hz]
    exact h.rep.last z hz
  · rintro ⟨hsum, -⟩
    have hlt := int32_lt (sumBalloc l)
    omega
  · intro hlt
    rw [int32_eq (by omega) (by omega)] at hlen hdlen
    omega

/-- An allocator that owns one block, at address 1. -/
def oneBlock : Allocator where
  pick h _ := if (h 1).isNone then some (1, 0) else none
  fresh := by
    intro h n a hd hpick
    split at hpick
    · next hnone =>
        cases hpick
        simpa using hnone
    · cases hpick

/-- Where `twoBlocks` puts a block. -/
def pickOfTwo (h : Heap) (_ : Nat) : Option (Addr × Nat) :=
  if (h 1).isNone then some (1, 0) else if (h 2).isNone then some (2, 0) else none

theorem pickOfTwo_fresh {h : Heap} {n hd : Nat} {a : Addr} (hpick : pickOfTwo h n = some (a, hd)) :
    h a = none := by
  unfold pickOfTwo at hpick
  split at hpick
  · next hnone =>
      cases hpick
      simpa using hnone
  · split at hpick
    · next hnone =>
        cases hpick
        simpa using hnone
    · cases hpick

/-- An allocator that owns two blocks. -/
def twoBlocks : Allocator := ⟨pickOfTwo, pickOfTwo_fresh⟩

/-- A queue just opened, in an empty heap. -/
def opened : Sys := ⟨⟨fun _ => none, qopen 8 {} false⟩, none⟩

theorem opened_fresh : Fresh opened := ⟨rfl, Or.inl ⟨8, {}, false, rfl⟩⟩

/-- Two bytes are written and one is read. -/
theorem queue_invariant_read : ∃ s : Sys, s.st.q.dlen = 1 ∧
    ∃ l : Cells, Chain s.st.heap s.st.q.bfirst l ∧
      (s.st.q.bfirst ≠ none → s.st.q.blast = (addrs l).getLast?) ∧
      (s.st.q.len = sumBalloc l ∧ s.st.q.dlen = sumBlen l ∧ 0 ≤ s.st.q.len ∧ 0 ≤ s.st.q.dlen ↔
        sumBalloc l < 2 ^ 31) := by
  have hwritten := (Reach.start opened_fresh).next
    (Step.of_exec (i := .qproduce twoBlocks [7, 9]) trivial rfl)
  have hread := hwritten.next
    (Step.of_exec (i := .qbread twoBlocks 1) (show _ = none from rfl) rfl)
  exact ⟨_, by decide, (queue_invariant _ hread).1⟩

/-- Blocks with a byte in a space of `Maxatomic`, each linked to the one before. -/
def manyBlocks : Heap := fun a =>
  if a = 0 then none else some ⟨if a = 1 then none else some (a - 1), ⟨0, [7], maxatomic - 1⟩⟩

def manyCells : Nat → Cells
  | 0 => []
  | a + 1 => (a + 1, ⟨0, [7], maxatomic - 1⟩) :: manyCells a

theorem manyBlocks_chain (n : Nat) :
    Chain manyBlocks (if n = 0 then none else some n) (manyCells n) := by
  induction n with
  | zero => rfl
  | succ n ih =>
    refine chain_cons.mpr ⟨by simp, _, ?_, ih⟩
    simp [manyBlocks]

theorem sumBalloc_manyCells (n : Nat) : sumBalloc (manyCells n) = n * maxatomic := by
  induction n with
  | zero => rw [Nat.zero_mul]; rfl
  | succ n ih =>
    have hspace : Buf.balloc ⟨0, [7], maxatomic - 1⟩ = maxatomic := by decide
    rw [manyCells, sumBalloc_cons, ih, Nat.succ_mul, Nat.add_comm, hspace]

/-- **The count wraps.**  `qpassnolim` of 2^15 blocks of 64 KiB makes `q->len` negative. -/
theorem len_wraps : ∃ s, Reach Fresh Step s ∧ s.st.q.len < 0 := by
  let s₀ : Sys := ⟨⟨manyBlocks, qopen 8 {} false⟩, none⟩
  have hfresh : Fresh s₀ := ⟨rfl, Or.inl ⟨8, {}, false, rfl⟩⟩
  have hchain : Chain manyBlocks (some (2 ^ 15)) (manyCells (2 ^ 15)) := by
    have hchain := manyBlocks_chain (2 ^ 15)
    rwa [if_neg (by decide)] at hchain
  obtain ⟨out, hrun, hl⟩ := qpassnolim_spec hfresh.holds.rep hchain (by simp)
  have hexec : exec s₀ (.qpassnolim (2 ^ 15)) = some ⟨{ s₀ with st := out.st },
      flat (manyCells (2 ^ 15)), []⟩ := by
    have hbytes : blockbytes s₀.st.heap (some (2 ^ 15)) = some (flat (manyCells (2 ^ 15))) :=
      blockbytes_spec hchain
    simp only [exec, hbytes, hrun, Option.bind_eq_bind, Option.bind_some]
    rfl
  have howns : s₀.Owns (2 ^ 15) := by
    refine ⟨_, hchain, ?_, ?_⟩
    · intro l hl
      rw [Chain.eq_nil hl]
      simp
    · intro k hk
      rw [Chain.eq_nil hk]
      simp
  refine ⟨_, (Reach.start hfresh).next (i := .qpassnolim (2 ^ 15)) ⟨howns, _, hexec, rfl⟩, ?_⟩
  have hlen : out.st.q.len = int32 (sumBalloc (manyCells (2 ^ 15))) := hl.rep.len
  rw [sumBalloc_manyCells] at hlen
  show out.st.q.len < 0
  rw [hlen]
  decide

/-- The system together with all bytes accepted and all bytes given out. -/
structure Log where
  sys : Sys
  acc : List UInt8
  out : List UInt8

def Log.Fresh (t : Log) : Prop :=
  Qio.Fresh t.sys ∧ t.sys.ByteQueue ∧ t.acc = [] ∧ t.out = []

/-- A step of one reader or of a writer, with what it accepts and gives out. -/
def Log.Step (t : Log) (op : Op) (t' : Log) : Prop :=
  Allowed t.sys op ∧ (Keeps t.sys op ∨ op.Faults) ∧
    ∃ o, exec t.sys op = some o ∧ t' = ⟨o.sys, t.acc ++ o.acc, t.out ++ o.out⟩

theorem Log.Step.of_exec {t : Log} {i : Op} {o : Outcome} (ha : Allowed t.sys i)
    (hk : Qio.Keeps t.sys i ∨ i.Faults) (hrun : exec t.sys i = some o) :
    t.Step i ⟨o.sys, t.acc ++ o.acc, t.out ++ o.out⟩ :=
  ⟨ha, hk, o, hrun, rfl⟩

/-- The same, without a fault in the copy to user memory. -/
def Log.CleanStep (t : Log) (op : Op) (t' : Log) : Prop := ¬ op.Faults ∧ t.Step op t'

/-- What a byte queue keeps: the bytes accepted are those given out, those in
the hands of the read in progress and those in the queue, in this order. -/
def Log.Keeps (t : Log) : Prop :=
  t.sys.ByteQueue ∧ ∃ l k, Holds t.sys l k ∧ t.acc = t.out ++ t.sys.held k ++ flat l

theorem Log.Fresh.keeps {t : Log} (h : t.Fresh) : t.Keeps := by
  obtain ⟨hfresh, hbytes, hacc, hout⟩ := h
  have hholds := hfresh.holds
  refine ⟨hbytes, [], [], hholds, ?_⟩
  rw [hacc, hout, hholds.held_nil hfresh.1]
  rfl

theorem Log.CleanStep.keeps {t t' : Log} (h : t.Keeps) (hs : t.CleanStep op t') :
    t'.Keeps := by
  obtain ⟨hbytes, l, k, hholds, heq⟩ := h
  obtain ⟨hclean, hallowed, hcase, o, hrun, ht'⟩ := hs
  have hkeeps : Qio.Keeps t.sys op := hcase.resolve_right hclean
  obtain ⟨l', k', hholds', hstep⟩ := hholds.sound hallowed hrun
  obtain ⟨hbytes', hsame⟩ := hstep hkeeps hbytes
  subst ht'
  refine ⟨hbytes', l', k', hholds', ?_⟩
  calc t.acc ++ o.acc
      = t.out ++ (t.sys.held k ++ flat l ++ o.acc) := by rw [heq]; simp
    _ = t.out ++ (o.out ++ o.sys.held k' ++ flat l') := by rw [hsame]
    _ = t.out ++ o.out ++ o.sys.held k' ++ flat l' := by simp

/-- **A byte queue is a queue of bytes.**  For one reader and any writers, in
every order of their locked sections, as long as no copy to user memory faults: what has
been returned or discarded is a
prefix of what was accepted, and the rest is what the read in progress holds
followed by the contents of the queue; between reads it is the contents of the
queue alone.  Any further operation returns, unless the kernel is out of memory
for a block. -/
theorem byte_queue_keeps_order (t : Log) (hr : Reach Log.Fresh Log.CleanStep t) :
    (∃ l k : Cells, Chain t.sys.st.heap t.sys.st.q.bfirst l ∧
      Chain t.sys.st.heap t.sys.private k ∧
      t.acc = t.out ++ t.sys.held k ++ flat l ∧
      (t.sys.read = none → t.acc = t.out ++ flat l)) ∧
    t.out <+: t.acc ∧
    ∀ op, Allowed t.sys op → exec t.sys op ≠ none ∨ NoMemory t.sys op := by
  have hinv := hr.invariant Log.Keeps (fun _ h => h.keeps) (fun _ _ _ h hs => hs.keeps h)
  obtain ⟨_, l, k, h, heq⟩ := hinv
  refine ⟨⟨l, k, h.rep.chain, h.priv, heq, ?_⟩, ?_, h.returns⟩
  · intro hread
    rw [heq, h.held_nil hread, append_nil]
  · rw [heq, append_assoc]
    exact prefix_append _ _

theorem opened_log : Log.Fresh ⟨opened, [], []⟩ := ⟨opened_fresh, ⟨rfl, rfl⟩, rfl, rfl⟩

/-- Two bytes are written and one is read. -/
theorem byte_queue_keeps_order_read : ∃ t : Log, t.acc = [7, 9] ∧ t.out = [7] ∧ t.out <+: t.acc := by
  have hwritten : Reach Log.Fresh Log.CleanStep _ := (Reach.start opened_log).next
    (i := .qproduce twoBlocks [7, 9]) ⟨not_false, Log.Step.of_exec trivial (Or.inl trivial) rfl⟩
  have hread : Reach Log.Fresh Log.CleanStep _ := hwritten.next (i := .qbread twoBlocks 1)
    ⟨not_false, Log.Step.of_exec (show _ = none from rfl) (Or.inl trivial) rfl⟩
  exact ⟨_, by decide, by decide, (byte_queue_keeps_order _ hread).2.1⟩

/-- **A fault loses bytes.**  The copy of a `qread` faults, and its byte is lost; the next one
written is the first to be returned. -/
theorem fault_loses : ∃ t : Log, Reach Log.Fresh Log.Step t ∧ ¬ t.out <+: t.acc := by
  have hwritten := (Reach.start opened_log).next
    (Log.Step.of_exec (i := .qproduce twoBlocks [7]) trivial (Or.inl trivial) rfl)
  have htaken := hwritten.next
    (Log.Step.of_exec (i := .qreadTake 1) (show _ = none from rfl) (Or.inl trivial)
      (by simp [exec]; rw [Qs.qreadTake]; rfl))
  have hfault := htaken.next
    (Log.Step.of_exec (i := .qreadFault 0) ⟨_, _, _, rfl, Option.some_ne_none _⟩ (Or.inr trivial) rfl)
  have hagain := hfault.next
    (Log.Step.of_exec (i := .qproduce twoBlocks [5]) trivial (Or.inl trivial) rfl)
  have hget := hagain.next
    (Log.Step.of_exec (i := .qget) trivial (Or.inl (show _ = none from rfl)) rfl)
  exact ⟨_, hget, by decide⟩

end Qio
