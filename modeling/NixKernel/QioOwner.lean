import NixKernel.QioStep
import NixKernel.QioCustody

/-!
# Who owns the blocks

The state of the system together with the blocks in the hands of the callers.  A block
that is in use is linked in the queue, held by the read in progress or in a caller's
hands, and each of these excludes the others.  An operation takes the blocks it is
passed out of the callers' hands (`entered`) and puts there those it returns (`given`);
`env` is the callers' own allocating, changing and freeing.

Three return paths lose blocks.  `qconsume` collects empty blocks in `tofree` and returns
-1 without freeing them when nothing else is queued, `qiwrite` returns -1 on a
closed queue without freeing the block it has just allocated, and a fault in the copy of `qread`
leaves by `waserror`, which frees nothing.  `Leaks` says when these paths are taken.
-/

namespace Qio

open HeapChain StepSystem Custody Option

/-- The system and the blocks in the callers' hands. -/
structure Owned where
  sys : Sys
  out : Set Addr

variable {t : Owned} {s : Sys} {l k : Cells} {op : Op} {o : Outcome}

/-- The blocks an operation takes from its caller. -/
def Owned.entered (t : Owned) : Op → Set Addr
  | .qpass b => {x | ∃ r, Chain t.sys.st.heap (some b) r ∧ x ∈ addrs r}
  | .qpassnolim b => {x | ∃ r, Chain t.sys.st.heap (some b) r ∧ x ∈ addrs r}
  | .qaddlist b => {x | ∃ r, Chain t.sys.st.heap (some b) r ∧ x ∈ addrs r}
  | .qputback b => {b}
  | .qbwrite b => {b}
  | .env _ => t.out
  | _ => ∅

/-- The blocks an operation returns to its caller, or passes to the bypass of the
queue. -/
def Owned.given (t : Owned) : Op → Set Addr
  | .qget => {x | ∃ r, Qio.qget t.sys.st = some r ∧ r.val = some x}
  | .qremove => {x | ∃ st, Qio.qremove t.sys.st = some (st, some x)}
  | .qbread al len => {x | ∃ r, Qio.qbread al t.sys.st len = some r ∧ r.val = .block x}
  | .qbwrite b => {x | x = b ∧ t.sys.st.q.bypass = true}
  | .qwrite al bytes => {x | t.sys.st.q.bypass = true ∧
      ∃ h', allocb al t.sys.st.heap (min bytes.length maxatomic) = some (x, h')}
  | .env heap => {x | heap x ≠ none ∧ (x ∈ t.out ∨ t.sys.st.heap x = none)}
  | _ => ∅

/-- The operation returns without freeing a block it has taken off the queue or
allocated. -/
def Leaks (s : Sys) : Op → Prop
  | .qconsume _ => ∃ l, Chain s.st.heap s.st.q.bfirst l ∧ l ≠ [] ∧ flat l = []
  | .qreadFault _ => True
  | .qiwrite al bytes => s.st.q.state.closed = true ∧
      iallocb al s.st.heap (min bytes.length maxatomic) ≠ none
  | _ => False

/-- A queue just opened; every block in use is a caller's. -/
def Owned.Fresh (t : Owned) : Prop :=
  Qio.Fresh t.sys ∧ ∀ x, x ∈ t.out ↔ t.sys.st.heap x ≠ none

/-- An operation the callers may perform, run to its end. -/
def Owned.Step (t : Owned) (op : Op) (t' : Owned) : Prop :=
  Allowed t.sys op ∧ ∃ o, exec t.sys op = some o ∧
    t' = ⟨o.sys, (t.out \ t.entered op) ∪ t.given op⟩

/-- The same, off the paths that lose blocks. -/
def Owned.CleanStep (t : Owned) (op : Op) (t' : Owned) : Prop :=
  ¬ Leaks t.sys op ∧ t.Step op t'

/-- Every block in use has one owner: the queue, the read in progress or a caller. -/
def Owned.Accounted (t : Owned) : Prop :=
  ∃ l k, Chain t.sys.st.heap t.sys.st.q.bfirst l ∧ Chain t.sys.st.heap t.sys.private k ∧
    (∀ x, t.sys.st.heap x ≠ none ↔ x ∈ addrs l ∨ x ∈ addrs k ∨ x ∈ t.out) ∧
    (addrs k).Disjoint (addrs l) ∧ ∀ x ∈ t.out, x ∉ addrs l ∧ x ∉ addrs k

/-- What becomes of the blocks of one operation.  Those it found linked or held by the
read in progress, and those that entered it, are afterwards linked, held, given out or
free, and only one of these; what it allocated is linked, held or given out; and it has
neither freed nor changed any other block. -/
def Owned.Settled (t : Owned) (op : Op) (o : Outcome) : Prop :=
  ∃ l k l' k', Chain t.sys.st.heap t.sys.st.q.bfirst l ∧ Chain t.sys.st.heap t.sys.private k ∧
    Chain o.sys.st.heap o.sys.st.q.bfirst l' ∧ Chain o.sys.st.heap o.sys.private k' ∧
    (∀ x, x ∈ addrs l ∨ x ∈ addrs k ∨ x ∈ t.entered op →
      (x ∈ addrs l' ∧ x ∉ addrs k' ∧ x ∉ t.given op ∧ o.sys.st.heap x ≠ none) ∨
      (x ∉ addrs l' ∧ x ∈ addrs k' ∧ x ∉ t.given op ∧ o.sys.st.heap x ≠ none) ∨
      (x ∉ addrs l' ∧ x ∉ addrs k' ∧ x ∈ t.given op ∧ o.sys.st.heap x ≠ none) ∨
      (x ∉ addrs l' ∧ x ∉ addrs k' ∧ x ∉ t.given op ∧ o.sys.st.heap x = none)) ∧
    (∀ x, t.sys.st.heap x = none → o.sys.st.heap x ≠ none →
      x ∈ addrs l' ∨ x ∈ addrs k' ∨ x ∈ t.given op) ∧
    ∀ x, t.sys.st.heap x ≠ none → x ∉ addrs l → x ∉ addrs k → x ∉ t.entered op →
      o.sys.st.heap x = t.sys.st.heap x

/-- The operation answers for the queue, the read in progress and what entered it. -/
def Answers (t : Owned) (l k : Cells) (op : Op) (o : Outcome) : Prop :=
  ∃ l' k', Holds o.sys l' k' ∧
    Settles t.sys.st.heap o.sys.st.heap (cells l ∪ cells k ∪ t.entered op)
      (cells l' ∪ cells k' ∪ t.given op) ∧
    ∀ x ∈ t.given op, x ∉ addrs l' ∧ x ∉ addrs k'

variable {acc out : List UInt8} {st : Qs}

/-- An operation on the queue leaves the read in progress its blocks. -/
theorem Holds.answers (h : Holds t.sys l k) {l' : Cells}
    (hsound : Sound t.sys l k op ⟨{ t.sys with st }, acc, out⟩)
    (hchain : Chain st.heap st.q.bfirst l')
    (hs : Settles t.sys.st.heap st.heap (cells l ∪ t.entered op) (cells l' ∪ t.given op))
    (hk : ∀ x ∈ addrs k, x ∉ t.entered op) (hgiven : ∀ x ∈ t.given op, x ∉ addrs l') :
    Answers t l k op ⟨{ t.sys with st }, acc, out⟩ := by
  obtain ⟨l'', k'', hh, _⟩ := hsound
  have hlive := live_of_chain h.priv
  have hdisj : ∀ x ∈ cells k, x ∉ cells l ∪ t.entered op := by
    rintro x hx (hxl | hxe)
    · exact h.disj hx hxl
    · exact hk x hx hxe
  have hapart := hs.disjoint hlive hdisj
  have hpriv : Chain st.heap t.sys.private k := by
    apply h.priv.frame
    intro x hx
    exact hs.off x (hdisj x hx) (hapart x hx)
  rw [hh.rep.chain.unique hchain, hh.priv.unique hpriv] at hh
  refine ⟨l', k, hh, (hs.frame hlive hdisj).congr ?_ ?_, ?_⟩
  · intro x
    simp only [Set.mem_union]
    tauto
  · intro x
    simp only [Set.mem_union]
    tauto
  · intro x hx
    exact ⟨hgiven x hx, fun hxk => hapart x hxk (Or.inr hx)⟩

/-- The same when no block enters the operation and none is given out. -/
theorem Holds.answers_own (h : Holds t.sys l k) {l' : Cells}
    (hsound : Sound t.sys l k op ⟨{ t.sys with st }, acc, out⟩)
    (hchain : Chain st.heap st.q.bfirst l')
    (hs : Settles t.sys.st.heap st.heap (cells l) (cells l')) (he : t.entered op = ∅)
    (hg : t.given op = ∅) : Answers t l k op ⟨{ t.sys with st }, acc, out⟩ := by
  apply h.answers hsound hchain
  · rwa [he, hg, Set.union_empty, Set.union_empty]
  · intro x _ hx
    rw [he] at hx
    exact hx
  · intro x hx
    rw [hg] at hx
    exact hx.elim

/-- The same when no block changes hands. -/
theorem Holds.answers_same (h : Holds t.sys l k)
    (hsound : Sound t.sys l k op ⟨{ t.sys with st }, acc, out⟩) (hheap : st.heap = t.sys.st.heap)
    (hfirst : st.q.bfirst = t.sys.st.q.bfirst) (he : t.entered op = ∅) (hg : t.given op = ∅) :
    Answers t l k op ⟨{ t.sys with st }, acc, out⟩ := by
  have hchain : Chain st.heap st.q.bfirst l := by
    rw [hheap, hfirst]
    exact h.rep.chain
  apply h.answers_own hsound hchain ?_ he hg
  rw [hheap]
  exact Settles.refl (live_of_chain h.rep.chain)

theorem answers_qremove (h : Holds t.sys l k) (ha : Allowed t.sys .qremove)
    (hrun : exec t.sys .qremove = some o) : Answers t l k .qremove o := by
  have hsound := h.sound ha hrun
  obtain ⟨⟨st, b⟩, hrem, ⟨⟩⟩ := bind_eq_some_iff.mp hrun
  cases l with
  | nil =>
    have hnone : Qio.qremove t.sys.st = some (t.sys.st, none) := by
      simp [Qio.qremove, h.rep.bfirst_nil]
    cases hrem.symm.trans hnone
    apply h.answers_same hsound rfl rfl rfl
    simp [Owned.given, hnone]
  | cons c r =>
    obtain ⟨a, v⟩ := c
    obtain ⟨st', hrem', hm, _⟩ := qremove_spec h.rep
    cases hrem.symm.trans hrem'
    have hgiven : t.given .qremove = {a} := by
      ext x
      simp [Owned.given, hrem, eq_comm]
    apply h.answers hsound hm.rep.chain
    · rw [hgiven, Set.union_comm (cells r)]
      simpa [Owned.entered] using settles_qremove h.rep hrem
    · simp [Owned.entered]
    · rw [hgiven]
      rintro x rfl
      exact h.rep.chain.head_not_mem

theorem answers_qget (h : Holds t.sys l k) (ha : Allowed t.sys .qget)
    (hrun : exec t.sys .qget = some o) : Answers t l k .qget o := by
  have hsound := h.sound ha hrun
  obtain ⟨r, hget, ⟨⟩⟩ := bind_eq_some_iff.mp hrun
  cases l with
  | nil =>
    cases hget.symm.trans (qget_empty h.rep)
    apply h.answers_same hsound rfl rfl rfl
    simp [Owned.given, hget]
  | cons c r =>
    obtain ⟨a, v⟩ := c
    obtain ⟨st', hrem, hm, _⟩ := qremove_spec h.rep
    have hget' : Qio.qget t.sys.st = some (restarted st' (some a)) := by
      simp [Qio.qget, h.rep.bfirst_cons, hrem, restarted]
    cases hget.symm.trans hget'
    have hgiven : t.given .qget = {a} := by
      ext x
      simp [Owned.given, hget, restarted, eq_comm]
    apply h.answers hsound (hm.does.leaves.restarted (some a)).rep.chain
    · rw [hgiven, Set.union_comm (cells r)]
      have hs := settles_qremove h.rep hrem
      simpa [Owned.entered, restarted] using hs
    · simp [Owned.entered]
    · rw [hgiven]
      rintro x rfl
      exact h.rep.chain.head_not_mem

variable {len : Nat}

theorem answers_qdiscard (h : Holds t.sys l k) (ha : Allowed t.sys (.qdiscard len))
    (hrun : exec t.sys (.qdiscard len) = some o) : Answers t l k (.qdiscard len) o := by
  have hsound := h.sound ha hrun
  obtain ⟨st', hloop, hm⟩ := qdiscardLoop_spec h.rep len 0 [] (Nat.zero_le _)
  have hs := settles_qdiscardLoop h.rep (Nat.zero_le _) hloop
  simp only [exec, Qio.qdiscard, hloop, bind_eq_bind, bind_some, pure_def, some.injEq] at hrun
  subst hrun
  exact h.answers_own hsound (hm.does.leaves.restarted ()).rep.chain hs rfl rfl

theorem answers_qconsume (h : Holds t.sys l k) (ha : Allowed t.sys (.qconsume len))
    (hclean : ¬ Leaks t.sys (.qconsume len)) (hrun : exec t.sys (.qconsume len) = some o) :
    Answers t l k (.qconsume len) o := by
  have hsound := h.sound ha hrun
  obtain ⟨r, hcons, ⟨⟩⟩ := bind_eq_some_iff.mp hrun
  cases hskip : skipEmpty l with
  | cons c u =>
    obtain ⟨a, v⟩ := c
    obtain ⟨st', hcons', hm⟩ := qconsume_cons h.rep len hskip
    have hs := settles_qconsume h.rep hskip hcons
    cases hcons.symm.trans hcons'
    exact h.answers_own hsound (hm.does.leaves.restarted _).rep.chain hs rfl rfl
  | nil =>
    -- with empty blocks only the operation would leak
    have hnil : l = [] := by
      by_contra hne
      refine hclean ⟨l, h.rep.chain, hne, ?_⟩
      rw [← flat_skipEmpty, hskip]
      rfl
    subst hnil
    have hnone : Qio.qconsume t.sys.st len = some { st := { t.sys.st with q := { t.sys.st.q with
        state := { t.sys.st.q.state with starve := true } } }, val := none } := by
      simp [Qio.qconsume, qconsumeSkip, h.rep.bfirst_nil]
    cases hcons.symm.trans hnone
    exact h.answers_same hsound rfl rfl rfl rfl

variable {al : Allocator}

theorem answers_qbread (h : Holds t.sys l k) (ha : Allowed t.sys (.qbread al len))
    (hrun : exec t.sys (.qbread al len) = some o) :
    Answers t l k (.qbread al len) o := by
  have hsound := h.sound ha hrun
  obtain ⟨r, hread, ⟨⟩⟩ := bind_eq_some_iff.mp hrun
  cases l with
  | nil =>
    have hempty := qbread_empty al h.rep len
    obtain ⟨hcase, hfirst, _⟩ := qwait_empty h.rep.bfirst_nil
    cases hread.symm.trans hempty
    apply h.answers_same hsound rfl hfirst rfl
    ext x
    simp only [Owned.given, hread]
    generalize (qwait t.sys.st.q).2 = w at hcase ⊢
    cases w <;> simp_all [Qwait.bread]
  | cons c u =>
    obtain ⟨a, v⟩ := c
    obtain ⟨hval, l', hchain, hnot, hs⟩ := settles_qbread h.rep hread
    have hgiven : t.given (.qbread al len) = {a} := by
      ext x
      simp [Owned.given, hread, hval, eq_comm]
    apply h.answers hsound hchain
    · rw [hgiven]
      simpa [Owned.entered] using hs
    · simp [Owned.entered]
    · rw [hgiven]
      rintro x rfl
      exact hnot

theorem answers_qreadTake (h : Holds t.sys l k) (ha : Allowed t.sys (.qreadTake len))
    (hrun : exec t.sys (.qreadTake len) = some o) : Answers t l k (.qreadTake len) o := by
  obtain ⟨l', k', hh, _⟩ := h.sound ha hrun
  have hk := h.private_nil ha
  subst hk
  simp only [exec, bind_eq_bind, bind_eq_some_iff, pure_def] at hrun
  obtain ⟨⟨st, tk⟩, htake, hout⟩ := hrun
  cases hsplit : readSplit t.sys.st.q.state.coalesce len l with
  | none =>
    have hs := settles_qreadTake_none h.rep hsplit htake
    obtain ⟨s', htake', hm⟩ := qreadTake_none h.rep len hsplit
    cases htake.symm.trans htake'
    have hsys : o.sys = { t.sys with st := { s' with q := (qwait s'.q).1 } } := by
      generalize (qwait s'.q).2 = w at hout
      cases w <;> cases hout <;> rfl
    have hfirst := (qwait_empty hm.rep.bfirst_nil).2.1
    rw [hsys] at hh
    have hnil := hh.private_nil ha
    have hl : Chain s'.heap (qwait s'.q).1.bfirst [] := by
      rw [hfirst]
      exact hm.rep.chain
    subst hnil
    rw [hh.rep.chain.unique hl, ← hsys] at hh
    refine ⟨[], [], hh, ?_, by simp [Owned.given]⟩
    rw [hsys]
    simpa [Owned.entered, Owned.given] using hs
  | some p =>
    obtain ⟨k₁, r⟩ := p
    have hs := settles_qreadTake_some h.rep hsplit htake
    obtain ⟨s', first, htake', hm, hchain⟩ := qreadTake_some h.rep len hsplit
    cases htake.symm.trans htake'
    cases hout
    rw [hh.rep.chain.unique hm.rep.chain, hh.priv.unique hchain] at hh
    refine ⟨r, k₁, hh, hs.congr ?_ ?_, by simp [Owned.given]⟩
    · simp [Owned.entered]
    · simp [Owned.given]

theorem answers_qreadCopy (h : Holds t.sys l k) (ha : Allowed t.sys .qreadCopy)
    (hrun : exec t.sys .qreadCopy = some o) : Answers t l k .qreadCopy o := by
  obtain ⟨l', k', hh, _⟩ := h.sound ha hrun
  obtain ⟨first, n, len, hread⟩ := ha
  simp only [exec, hread, bind_eq_bind, bind_eq_some_iff, pure_def, some.injEq] at hrun
  obtain ⟨⟨heap, bytes, left⟩, hcopy, rfl⟩ := hrun
  have hpriv : Chain t.sys.st.heap (some first) k := by
    have := h.priv
    rwa [Sys.private, hread] at this
  obtain ⟨heap', left', hcopy', hchain, hoff⟩ := bl2mem_spec hpriv len
  have hs := settles_bl2mem hpriv hcopy
  cases hcopy.symm.trans hcopy'
  have hl : Chain heap t.sys.st.q.bfirst l := by
    apply h.rep.chain.frame
    intro x hx
    exact hoff x (fun hxk => h.disj hxk hx)
  rw [hh.rep.chain.unique hl, hh.priv.unique hchain] at hh
  have hframe := hs.frame (live_of_chain h.rep.chain) (fun x hx hxk => h.disj hxk hx)
  refine ⟨l, _, hh, hframe.congr ?_ ?_, by simp [Owned.given]⟩
  · intro x
    simp [Owned.entered, or_comm]
  · intro x
    simp [Owned.given, or_comm]

theorem answers_qreadFinish (h : Holds t.sys l k) (ha : Allowed t.sys .qreadFinish)
    (hrun : exec t.sys .qreadFinish = some o) : Answers t l k .qreadFinish o := by
  obtain ⟨l', k', hh, _⟩ := h.sound ha hrun
  obtain ⟨left, n, bytes, hread⟩ := ha
  simp only [exec, hread, bind_eq_bind, bind_eq_some_iff, pure_def, some.injEq] at hrun
  obtain ⟨r, hfin, rfl⟩ := hrun
  have hpriv := h.priv
  have hframe := h.frame
  simp only [Sys.private, hread] at hpriv hframe
  have hs := settles_qreadFinish h.rep hpriv hframe.2 h.disj hfin
  obtain ⟨s', hfin', hm⟩ := qreadFinish_spec h.rep hpriv hframe.2 h.disj n
  cases hfin.symm.trans hfin'
  have hnil := hh.private_nil rfl
  subst hnil
  rw [hh.rep.chain.unique (hm.does.leaves.restarted ((n : Int) - sumBlen k)).rep.chain] at hh
  refine ⟨_, [], hh, hs.congr ?_ ?_, by simp [Owned.given]⟩
  · simp [Owned.entered]
  · simp [Owned.given]

variable {b : Addr}

/-- What entered is the caller's list. -/
theorem mem_chain_iff {r : Cells} (hr : Chain t.sys.st.heap (some b) r) :
    {x | ∃ r, Chain t.sys.st.heap (some b) r ∧ x ∈ addrs r} = cells r := by
  ext x
  constructor
  · rintro ⟨r', hr', hx⟩
    rw [hr'.unique hr] at hx
    exact hx
  · intro hx
    exact ⟨r, hr, hx⟩

/-- An operation that takes a list of blocks of the caller and gives none out. -/
theorem Holds.answers_list (h : Holds t.sys l k) {l' r : Cells}
    (hsound : Sound t.sys l k op ⟨{ t.sys with st }, acc, out⟩)
    (hchain : Chain st.heap st.q.bfirst l')
    (hs : Settles t.sys.st.heap st.heap (cells l ∪ cells r) (cells l'))
    (hk : (addrs k).Disjoint (addrs r)) (he : t.entered op = cells r) (hg : t.given op = ∅) :
    Answers t l k op ⟨{ t.sys with st }, acc, out⟩ := by
  apply h.answers hsound hchain
  · rwa [he, hg, Set.union_empty]
  · intro x hx hxe
    rw [he] at hxe
    exact hk hx hxe
  · intro x hx
    rw [hg] at hx
    exact hx.elim

theorem answers_qaddlist (h : Holds t.sys l k) (ha : Allowed t.sys (.qaddlist b))
    (hrun : exec t.sys (.qaddlist b) = some o) : Answers t l k (.qaddlist b) o := by
  have hsound := h.sound ha hrun
  obtain ⟨r, hr, hdl, hdk⟩ := h.owns ha
  obtain ⟨bytes, -, hrun⟩ := bind_eq_some_iff.mp hrun
  obtain ⟨st, hadd, ⟨⟩⟩ := bind_eq_some_iff.mp hrun
  have hs := settles_qaddlist h.rep hr hdl hadd
  obtain ⟨st', hadd', hm⟩ := qaddlist_spec h.rep hr hdl
  cases hadd.symm.trans hadd'
  exact h.answers_list hsound hm.rep.chain hs hdk (mem_chain_iff hr) rfl

theorem answers_qpassnolim (h : Holds t.sys l k) (ha : Allowed t.sys (.qpassnolim b))
    (hrun : exec t.sys (.qpassnolim b) = some o) : Answers t l k (.qpassnolim b) o := by
  have hsound := h.sound ha hrun
  obtain ⟨r, hr, hdl, hdk⟩ := h.owns ha
  obtain ⟨bytes, -, hrun⟩ := bind_eq_some_iff.mp hrun
  obtain ⟨out, hpass, ⟨⟩⟩ := bind_eq_some_iff.mp hrun
  have hs := settles_qpassnolim h.rep hr hdl hpass
  obtain ⟨out', hpass', hl⟩ := qpassnolim_spec h.rep hr hdl
  cases hpass.symm.trans hpass'
  exact h.answers_list hsound hl.rep.chain hs hdk (mem_chain_iff hr) rfl

theorem answers_qpass (h : Holds t.sys l k) (ha : Allowed t.sys (.qpass b))
    (hrun : exec t.sys (.qpass b) = some o) : Answers t l k (.qpass b) o := by
  have hsound := h.sound ha hrun
  obtain ⟨r, hr, hdl, hdk⟩ := h.owns ha
  obtain ⟨bytes, -, hrun⟩ := bind_eq_some_iff.mp hrun
  obtain ⟨out, hpass, ⟨⟩⟩ := bind_eq_some_iff.mp hrun
  have hs := settles_qpass h.rep hr hdl hpass
  obtain ⟨out', hpass', hl⟩ := qpass_spec h.rep hr hdl
  cases hpass.symm.trans hpass'
  exact h.answers_list hsound hl.rep.chain hs hdk (mem_chain_iff hr) rfl

theorem answers_qputback (h : Holds t.sys l k) (ha : Allowed t.sys (.qputback b))
    (hrun : exec t.sys (.qputback b) = some o) : Answers t l k (.qputback b) o := by
  have hsound := h.sound ha hrun
  obtain ⟨n, v, hb, hbl, hbk⟩ := h.owns_head ha
  obtain ⟨st, hput, ⟨⟩⟩ := bind_eq_some_iff.mp hrun
  have hs := settles_qputback h.rep hb hbl hput
  obtain ⟨st', hput', hm⟩ := qputback_spec h.rep hb hbl
  cases hput.symm.trans hput'
  apply h.answers hsound hm.rep.chain
  · simpa [Owned.entered, Owned.given] using hs
  · rintro x hx rfl
    exact hbk hx
  · simp [Owned.given]

theorem answers_qbwrite (h : Holds t.sys l k) (ha : Allowed t.sys (.qbwrite b))
    (hrun : exec t.sys (.qbwrite b) = some o) : Answers t l k (.qbwrite b) o := by
  have hsound := h.sound ha hrun
  obtain ⟨n, v, hb, hbl, hbk⟩ := h.owns_head ha
  obtain ⟨out, hput, ⟨⟩⟩ := bind_eq_some_iff.mp hrun
  have hs := settles_qbwritePut h.rep hb hbl hput
  obtain ⟨out', hput', _, hl⟩ := qbwritePut_spec h.rep hb hbl
  cases hput.symm.trans hput'
  apply h.answers hsound hl.rep.chain hs
  · rintro x hx rfl
    exact hbk hx
  · rintro x ⟨rfl, hbypass⟩
    have hnot : t.sys.st.q.accepts = false := by simp [Queue.accepts, hbypass]
    simpa [hnot] using hbl

variable {bytes : List UInt8}

theorem answers_qwrite (h : Holds t.sys l k) (ha : Allowed t.sys (.qwrite al bytes))
    (hrun : exec t.sys (.qwrite al bytes) = some o) :
    Answers t l k (.qwrite al bytes) o := by
  have hsound := h.sound ha hrun
  obtain ⟨out, hput, ⟨⟩⟩ := bind_eq_some_iff.mp hrun
  obtain ⟨l', hchain, hs⟩ := settles_qwritePut h.rep hput
  apply h.answers hsound hchain
  · simpa [Owned.entered, Owned.given] using hs
  · simp [Owned.entered]
  · rintro x ⟨hbypass, h', hal⟩ hx
    rcases qwritePut_spec al h.rep bytes with ⟨hnone, _⟩ | ⟨out', hput', _, a, v, _, hfree, hl⟩
    · rw [hnone] at hput
      cases hput
    · cases hput.symm.trans hput'
      have hnot : t.sys.st.q.accepts = false := by simp [Queue.accepts, hbypass]
      simp only [hnot, Bool.false_eq_true, if_false] at hl
      rw [hchain.unique hl.rep.chain] at hx
      exact live_of_chain h.rep.chain x hx (iallocb_spec hal).1

theorem answers_qproduce (h : Holds t.sys l k) (ha : Allowed t.sys (.qproduce al bytes))
    (hrun : exec t.sys (.qproduce al bytes) = some o) :
    Answers t l k (.qproduce al bytes) o := by
  have hsound := h.sound ha hrun
  obtain ⟨out, hput, ⟨⟩⟩ := bind_eq_some_iff.mp hrun
  obtain ⟨l', hchain, hs⟩ := settles_qproduce h.rep hput
  exact h.answers_own hsound hchain hs rfl rfl

theorem answers_qiwrite (h : Holds t.sys l k) (ha : Allowed t.sys (.qiwrite al bytes))
    (hclean : ¬ Leaks t.sys (.qiwrite al bytes)) (hrun : exec t.sys (.qiwrite al bytes) = some o) :
    Answers t l k (.qiwrite al bytes) o := by
  have hsound := h.sound ha hrun
  obtain ⟨out, hput, ⟨⟩⟩ := bind_eq_some_iff.mp hrun
  have hopen : t.sys.st.q.state.closed = false ∨
      iallocb al t.sys.st.heap (min bytes.length maxatomic) = none := by
    simp only [Leaks, not_and_or, not_not, Bool.not_eq_true] at hclean
    exact hclean
  obtain ⟨l', hchain, hs⟩ := settles_qiwritePut h.rep hopen hput
  exact h.answers_own hsound hchain hs rfl rfl

theorem answers_qflush (h : Holds t.sys l k) (ha : Allowed t.sys .qflush)
    (hrun : exec t.sys .qflush = some o) : Answers t l k .qflush o := by
  have hsound := h.sound ha hrun
  simp only [exec, Qio.qflush, bind_eq_bind, bind_eq_some_iff, pure_def, some.injEq] at hrun
  obtain ⟨r, ⟨heap, hfree, rfl⟩, rfl⟩ := hrun
  have hs := settles_freeblist h.rep.chain hfree
  rw [← cells_nil] at hs
  exact h.answers_own hsound (chain_nil.mpr rfl) hs rfl rfl

theorem answers_qclose (h : Holds t.sys l k) (ha : Allowed t.sys .qclose)
    (hrun : exec t.sys .qclose = some o) : Answers t l k .qclose o := by
  have hsound := h.sound ha hrun
  simp only [exec, Qio.qclose, bind_eq_bind, bind_eq_some_iff, pure_def, some.injEq] at hrun
  obtain ⟨r, ⟨heap, hfree, rfl⟩, rfl⟩ := hrun
  have hs := settles_freeblist h.rep.chain hfree
  rw [← cells_nil] at hs
  exact h.answers_own hsound (chain_nil.mpr rfl) hs rfl rfl

/-- The callers deal with their own blocks, and with free memory. -/
theorem answers_env (h : Holds t.sys l k) {heap : Heap} (ha : Allowed t.sys (.env heap))
    (hout : ∀ x ∈ t.out, x ∉ addrs l ∧ x ∉ addrs k)
    (hall : ∀ x, t.sys.st.heap x ≠ none → x ∈ addrs l ∨ x ∈ addrs k ∨ x ∈ t.out)
    (hrun : exec t.sys (.env heap) = some o) : Answers t l k (.env heap) o := by
  have hsound := h.sound ha hrun
  cases hrun
  have hlk := ha.1 l h.rep.chain
  apply h.answers hsound (h.rep.chain.frame hlk)
  · refine ⟨?_, ?_, ?_, ?_⟩
    · rintro x (hx | hx)
      · show heap x ≠ none
        rw [hlk x hx]
        exact live_of_chain h.rep.chain x hx
      · exact hx.1
    · rintro x (hx | hx) hx'
      · exact (hx' (Or.inl hx)).elim
      · by_contra hne
        exact hx' (Or.inr ⟨hne, Or.inl hx⟩)
    · rintro x (hx | hx) hx'
      · exact (hx' (Or.inl hx)).elim
      · rcases hx.2 with hmem | hfree
        · exact (hx' (Or.inr hmem)).elim
        · exact hfree
    · intro x hx hx'
      show heap x = t.sys.st.heap x
      by_cases hxk : x ∈ addrs k
      · exact ha.2 k h.priv x hxk
      · have hxl : x ∉ addrs l := fun hm => hx (Or.inl hm)
        have hxo : x ∉ t.out := fun hm => hx (Or.inr hm)
        have hfree : t.sys.st.heap x = none := by
          by_contra hne
          rcases hall x hne with hm | hm | hm
          · exact hxl hm
          · exact hxk hm
          · exact hxo hm
        rw [hfree]
        by_contra hne
        exact hx' (Or.inr ⟨hne, Or.inr hfree⟩)
  · intro x hx hxe
    exact (hout x hxe).2 hx
  · rintro x ⟨_, hx | hx⟩ hxl
    · exact (hout x hx).1 hxl
    · exact live_of_chain h.rep.chain x hxl hx

/-- **One operation**, off the paths that lose blocks. -/
theorem Holds.answers_of_clean (h : Holds t.sys l k)
    (hout : ∀ x ∈ t.out, x ∉ addrs l ∧ x ∉ addrs k)
    (hall : ∀ x, t.sys.st.heap x ≠ none → x ∈ addrs l ∨ x ∈ addrs k ∨ x ∈ t.out)
    (ha : Allowed t.sys op) (hclean : ¬ Leaks t.sys op) (hrun : exec t.sys op = some o) :
    Answers t l k op o := by
  cases op with
  | qget => exact answers_qget h ha hrun
  | qdiscard len => exact answers_qdiscard h ha hrun
  | qconsume len => exact answers_qconsume h ha hclean hrun
  | qremove => exact answers_qremove h ha hrun
  | qbread al len => exact answers_qbread h ha hrun
  | qreadTake len => exact answers_qreadTake h ha hrun
  | qreadCopy => exact answers_qreadCopy h ha hrun
  | qreadFault i => exact (hclean trivial).elim
  | qreadFinish => exact answers_qreadFinish h ha hrun
  | qpass b => exact answers_qpass h ha hrun
  | qpassnolim b => exact answers_qpassnolim h ha hrun
  | qaddlist b => exact answers_qaddlist h ha hrun
  | qputback b => exact answers_qputback h ha hrun
  | qproduce al bytes => exact answers_qproduce h ha hrun
  | qbwrite b => exact answers_qbwrite h ha hrun
  | qwrite al bytes => exact answers_qwrite h ha hrun
  | qiwrite al bytes => exact answers_qiwrite h ha hclean hrun
  | qflush => exact answers_qflush h ha hrun
  | qclose => exact answers_qclose h ha hrun
  | env heap => exact answers_env h ha hout hall hrun
  | _ =>
    -- the flags, the limit and the error text
    have hsound := h.sound ha hrun
    cases hrun
    exact h.answers_same hsound rfl rfl rfl rfl

/-- What a caller passes in was in its hands. -/
theorem Holds.entered_sub (h : Holds t.sys l k)
    (hall : ∀ x, t.sys.st.heap x ≠ none → x ∈ addrs l ∨ x ∈ addrs k ∨ x ∈ t.out)
    (ha : Allowed t.sys op) : ∀ x ∈ t.entered op, x ∈ t.out := by
  have hlist : ∀ b, t.sys.Owns b → ∀ r, Chain t.sys.st.heap (some b) r →
      ∀ x ∈ addrs r, x ∈ t.out := by
    intro b ho r hr x hx
    obtain ⟨r', hr', hdl, hdk⟩ := h.owns ho
    rw [hr.unique hr'] at hx
    rcases hall x (live_of_chain hr' x hx) with hm | hm | hm
    · exact (hdl hm hx).elim
    · exact (hdk hm hx).elim
    · exact hm
  have hhead : ∀ b, t.sys.Owns b → b ∈ t.out := by
    intro b ho
    obtain ⟨r, hr, _⟩ := h.owns ho
    obtain ⟨v, n, u, rfl, _⟩ := hr.exists_cons
    exact hlist b ho _ hr b (by simp)
  cases op with
  | qpass b | qpassnolim b | qaddlist b =>
    rintro x ⟨r, hr, hx⟩
    exact hlist b ha r hr x hx
  | qputback b | qbwrite b =>
    rintro x rfl
    exact hhead x ha
  | env heap => exact fun x hx => hx
  | _ => exact fun x hx => hx.elim

/-- The invariant of a run. -/
def Owned.Inv (t : Owned) : Prop :=
  ∃ l k, Holds t.sys l k ∧
    (∀ x, t.sys.st.heap x ≠ none ↔ x ∈ addrs l ∨ x ∈ addrs k ∨ x ∈ t.out) ∧
    ∀ x ∈ t.out, x ∉ addrs l ∧ x ∉ addrs k

theorem Owned.Fresh.inv (h : t.Fresh) : t.Inv := by
  refine ⟨[], [], h.1.holds, ?_, ?_⟩
  · intro x
    simp [h.2 x]
  · simp

theorem Owned.Inv.accounted (h : t.Inv) : t.Accounted := by
  obtain ⟨l, k, hh, hlive, hout⟩ := h
  exact ⟨l, k, hh.rep.chain, hh.priv, hlive, hh.disj, hout⟩

theorem Owned.Inv.settled (h : t.Inv) (ha : Allowed t.sys op) (hclean : ¬ Leaks t.sys op)
    (hrun : exec t.sys op = some o) : t.Settled op o := by
  obtain ⟨l, k, hh, hlive, hout⟩ := h
  obtain ⟨l', k', hh', hs, hgiven⟩ :=
    hh.answers_of_clean hout (fun x hx => (hlive x).mp hx) ha hclean hrun
  refine ⟨l, k, l', k', hh.rep.chain, hh.priv, hh'.rep.chain, hh'.priv, ?_, ?_, ?_⟩
  · intro x hx
    have hB : x ∈ cells l ∪ cells k ∪ t.entered op := by
      simp only [Set.mem_union, mem_cells]
      tauto
    by_cases hA : x ∈ cells l' ∪ cells k' ∪ t.given op
    · have hne := hs.live x hA
      rcases hA with (hxl | hxk) | hxg
      · exact Or.inl ⟨hxl, fun hxk => hh'.disj hxk hxl, fun hxg => (hgiven x hxg).1 hxl, hne⟩
      · exact Or.inr (Or.inl ⟨fun hxl => hh'.disj hxk hxl, hxk,
          fun hxg => (hgiven x hxg).2 hxk, hne⟩)
      · exact Or.inr (Or.inr (Or.inl ⟨(hgiven x hxg).1, (hgiven x hxg).2, hxg, hne⟩))
    · have hnone := hs.gone x hB hA
      simp only [Set.mem_union, mem_cells, not_or] at hA
      exact Or.inr (Or.inr (Or.inr ⟨hA.1.1, hA.1.2, hA.2, hnone⟩))
  · intro x hfree hne
    by_contra hnot
    apply hne
    rw [← hfree]
    apply hs.off x
    · rintro ((hx | hx) | hx)
      · exact live_of_chain hh.rep.chain x hx hfree
      · exact live_of_chain hh.priv x hx hfree
      · have hmem := hh.entered_sub (fun x hx => (hlive x).mp hx) ha x hx
        exact (hlive x).mpr (Or.inr (Or.inr hmem)) hfree
    · simp only [Set.mem_union, mem_cells]
      tauto
  · intro x hne hxl hxk hxe
    have hB : x ∉ cells l ∪ cells k ∪ t.entered op := by
      simp only [Set.mem_union, mem_cells]
      tauto
    apply hs.off x hB
    intro hA
    exact hne (hs.fresh x hA hB)

theorem Owned.Inv.step {t' : Owned} (h : t.Inv) (hstep : t.CleanStep op t') : t'.Inv := by
  obtain ⟨l, k, hh, hlive, hout⟩ := h
  obtain ⟨hclean, ha, o, hrun, rfl⟩ := hstep
  have hall := fun x hx => (hlive x).mp hx
  obtain ⟨l', k', hh', hs, hgiven⟩ := hh.answers_of_clean hout hall ha hclean hrun
  have hsub := hh.entered_sub hall ha
  -- the blocks that stay in the callers' hands are framed
  have hkept : ∀ x ∈ t.out \ t.entered op, t.sys.st.heap x ≠ none :=
    fun x hx => (hlive x).mpr (Or.inr (Or.inr hx.1))
  have hapart : ∀ x ∈ t.out \ t.entered op, x ∉ cells l ∪ cells k ∪ t.entered op := by
    rintro x hx ((hxl | hxk) | hxe)
    · exact (hout x hx.1).1 hxl
    · exact (hout x hx.1).2 hxk
    · exact hx.2 hxe
  have hnew := hs.disjoint hkept hapart
  have hframe := hs.frame hkept hapart
  refine ⟨l', k', hh', ?_, ?_⟩
  · intro x
    constructor
    · intro hne
      by_contra hnot
      have hA : x ∉ cells l' ∪ cells k' ∪ t.given op ∪ (t.out \ t.entered op) := by
        simp only [Set.mem_union, mem_cells] at hnot ⊢
        tauto
      apply hne
      by_cases hB : x ∈ cells l ∪ cells k ∪ t.entered op ∪ (t.out \ t.entered op)
      · exact hframe.gone x hB hA
      · rw [hframe.off x hB hA]
        by_contra hlv
        apply hB
        have hown := hall x hlv
        simp only [Set.mem_union, mem_cells, Set.mem_sdiff]
        tauto
    · intro hx
      apply hframe.live x
      simp only [Set.mem_union, mem_cells] at hx ⊢
      tauto
  · rintro x (hx | hx)
    · have hnot := hnew x hx
      simp only [Set.mem_union, mem_cells, not_or] at hnot
      exact hnot.1
    · exact hgiven x hx

/-- The loop of `qconsume` frees nothing. -/
theorem live_qconsumeSkip {st st' : Qs} {p p' : Option Addr} (hc : Chain st.heap st.q.bfirst l)
    (hrun : qconsumeSkip st p = some (st', p')) :
    ∀ x, st.heap x ≠ none → st'.heap x ≠ none := by
  induction l generalizing st p with
  | nil =>
    rw [qconsumeSkip] at hrun
    simp only [chain_nil.mp hc] at hrun
    cases hrun
    exact fun x hx => hx
  | cons c u ih =>
    obtain ⟨a, v⟩ := c
    have hnot := hc.head_not_mem
    obtain ⟨hfirst, n, ha, htail⟩ := chain_cons.mp hc
    rw [qconsumeSkip] at hrun
    simp only [hfirst, ha, bind_eq_bind, bind_some] at hrun
    split at hrun
    next =>
      cases hrun
      exact fun x hx => hx
    next =>
      intro x hx
      apply ih (htail.update_ne hnot) hrun x
      by_cases hxa : x = a
      · subst hxa
        simp
      · simpa [Function.update_of_ne hxa] using hx

/-- The chains of a settled operation are those the system holds afterwards. -/
theorem Holds.not_settled (h : Holds t.sys l k) {l' k' : Cells} (hh : Holds o.sys l' k')
    (hg : t.given op = ∅) {x : Addr} (hx : x ∈ addrs l ∨ x ∈ addrs k ∨ t.sys.st.heap x = none)
    (hne : o.sys.st.heap x ≠ none) (hl : x ∉ addrs l') (hk : x ∉ addrs k') :
    ¬ t.Settled op o := by
  rintro ⟨l₁, k₁, l₂, k₂, hc₁, hc₁', hc₂, hc₂', hown, hnew, _⟩
  have hgiven : x ∉ t.given op := by
    rw [hg]
    exact fun hmem => hmem
  rw [← hc₁.unique h.rep.chain, ← hc₁'.unique h.priv] at hx
  rw [← hc₂.unique hh.rep.chain] at hl
  rw [← hc₂'.unique hh.priv] at hk
  rcases hx with hmem | hmem | hfree
  · have := hown x (Or.inl hmem)
    tauto
  · have := hown x (Or.inr (Or.inl hmem))
    tauto
  · have := hnew x hfree hne
    tauto

/-- With only empty blocks queued, `qconsume` loses the first of them. -/
theorem lost_qconsume (h : Holds t.sys l k) (hleak : Leaks t.sys (.qconsume len))
    (hrun : exec t.sys (.qconsume len) = some o) : ¬ t.Settled (.qconsume len) o := by
  obtain ⟨l', hc, hne, hflat⟩ := hleak
  cases hc.unique h.rep.chain
  cases l with
  | nil => exact (hne rfl).elim
  | cons c u =>
    obtain ⟨a, v⟩ := c
    have hskip : skipEmpty ((a, v) :: u) = [] := by
      cases hsk : skipEmpty ((a, v) :: u) with
      | nil => rfl
      | cons c w =>
        have hpos : 0 < c.2.blen := blen_pos_of_skipEmpty hsk
        have hzero := congrArg List.length hflat
        rw [← flat_skipEmpty, hsk, length_flat, sumBlen_cons, List.length_nil] at hzero
        omega
    obtain ⟨st', p, f, hskp, hm, _⟩ := qconsumeSkip_spec h.rep (chain_nil.mpr rfl) (by simp)
    have hlive := live_qconsumeSkip h.rep.chain hskp
    rw [hskip] at hm
    simp only [exec, Qio.qconsume, hskp, hm.rep.bfirst_nil, bind_eq_bind, bind_some,
      pure_def, some.injEq] at hrun
    subst hrun
    have hl : Leaves (addrs ((a, v) :: u)) t.sys.st [] st' := hm.does.leaves
    have hh := h.leaves (hl.with_queue (q := { st'.q with state := { st'.q.state with
      starve := true } }) rfl rfl rfl rfl rfl) h.disj (by simp)
    simp only [hm.rep.bfirst_nil] at hh
    apply h.not_settled hh rfl (Or.inl List.mem_cons_self)
    · exact hlive a (live_of_chain h.rep.chain a List.mem_cons_self)
    · simp
    · exact fun hak => h.disj hak List.mem_cons_self

/-- A fault loses the block whose copy it interrupts. -/
theorem lost_qreadFault (h : Holds t.sys l k) {i : Nat} (ha : Allowed t.sys (.qreadFault i))
    (hrun : exec t.sys (.qreadFault i) = some o) : ¬ t.Settled (.qreadFault i) o := by
  obtain ⟨l', k', hh, _⟩ := h.sound ha hrun
  obtain ⟨first, n, len, hread, _⟩ := ha
  have hpriv := h.priv
  simp only [Sys.private, hread] at hpriv
  simp only [exec, hread, bind_eq_bind, bind_eq_some_iff, pure_def, some.injEq] at hrun
  obtain ⟨heap, hfault, rfl⟩ := hrun
  obtain ⟨⟨x, hx, hlive⟩, hoff⟩ := bl2memFault_spec hpriv hfault
  have hl : Chain heap t.sys.st.q.bfirst l :=
    h.rep.chain.frame (fun y hy => hoff y (fun hyk => h.disj hyk hy))
  have hk : k' = [] := hh.private_nil rfl
  apply h.not_settled hh rfl (Or.inr (Or.inl hx)) hlive
  · rw [hh.rep.chain.unique hl]
    exact h.disj hx
  · simp [hk]

/-- On a closed queue `qiwrite` loses the block it has allocated. -/
theorem lost_qiwrite (h : Holds t.sys l k) (hleak : Leaks t.sys (.qiwrite al bytes))
    (hrun : exec t.sys (.qiwrite al bytes) = some o) :
    ¬ t.Settled (.qiwrite al bytes) o := by
  obtain ⟨hclosed, hsome⟩ := hleak
  obtain ⟨⟨a, h'⟩, hal⟩ := ne_none_iff_exists'.mp hsome
  obtain ⟨hfree, hd, rfl⟩ := iallocb_spec hal
  simp only [exec, qiwritePut, hal, hclosed, Function.update_self, if_true, bind_eq_bind,
    bind_some, pure_def, some.injEq] at hrun
  subst hrun
  obtain ⟨hnot, hr₁⟩ := h.rep.with_fresh hfree
    (some ⟨none, Buf.fill ⟨hd, [], min bytes.length maxatomic⟩ (bytes.take maxatomic)⟩)
  have hak : a ∉ addrs k := h.priv.not_mem_of_free hfree
  have hh := Holds.mk (s := { t.sys with st := _ }) hr₁ (h.priv.update_ne hak) h.disj h.frame
  apply h.not_settled (x := a) ?_ rfl (Or.inr (Or.inr hfree)) ?_ hnot hak
  · simpa using hh
  · simp

/-- An operation settles its blocks exactly off these paths. -/
theorem Owned.Inv.settled_iff (h : t.Inv) (ha : Allowed t.sys op)
    (hrun : exec t.sys op = some o) : t.Settled op o ↔ ¬ Leaks t.sys op := by
  refine ⟨?_, fun hclean => h.settled ha hclean hrun⟩
  intro hsettled hleak
  obtain ⟨l, k, hh, _⟩ := h
  cases op with
  | qconsume len => exact lost_qconsume hh hleak hrun hsettled
  | qiwrite al bytes => exact lost_qiwrite hh hleak hrun hsettled
  | qreadFault i => exact lost_qreadFault hh ha hrun hsettled
  | _ => exact hleak

/-- **Block ownership.**  In every run that stays off the paths that lose blocks,
every block in use has exactly one owner, and a further operation returns, unless the
kernel is out of memory for a block.  Every block that was linked, held by the read in
progress or passed in is afterwards linked, held, given out or freed, and exactly one of
these, if and only if the operation does not take one of these paths. -/
theorem blocks_owned (t : Owned) (hr : Reach Owned.Fresh Owned.CleanStep t) :
    t.Accounted ∧
    ∀ op, Allowed t.sys op → (exec t.sys op ≠ none ∨ NoMemory t.sys op) ∧
      ∀ o, exec t.sys op = some o → (t.Settled op o ↔ ¬ Leaks t.sys op) := by
  have hinv := hr.invariant Owned.Inv (fun _ h => h.inv) (fun _ _ _ h hs => h.step hs)
  refine ⟨hinv.accounted, ?_⟩
  intro op ha
  refine ⟨?_, fun o hrun => hinv.settled_iff ha hrun⟩
  obtain ⟨l, k, hh, _⟩ := hinv
  exact hh.returns op ha

/-- A queue just opened and a caller with one empty block, at address 1. -/
def oneEmpty : Owned :=
  ⟨⟨⟨fun a => if a = 1 then some ⟨none, ⟨0, [], 4⟩⟩ else none, qopen 8 {} false⟩, none⟩, {1}⟩

theorem oneEmpty_fresh : oneEmpty.Fresh := by
  refine ⟨⟨rfl, Or.inl ⟨8, {}, false, rfl⟩⟩, ?_⟩
  intro x
  by_cases hx : x = 1
  · simp [oneEmpty, hx]
  · simp [oneEmpty, hx]

theorem oneEmpty_owns : oneEmpty.sys.Owns 1 := by
  refine ⟨[(1, ⟨0, [], 4⟩)], ?_, ?_, ?_⟩
  · exact chain_cons.mpr ⟨rfl, none, rfl, chain_nil.mpr rfl⟩
  · intro l hl
    rw [show oneEmpty.sys.st.q.bfirst = none from rfl] at hl
    rw [hl.eq_nil]
    simp
  · intro k hk
    rw [show oneEmpty.sys.private = none from rfl] at hk
    rw [hk.eq_nil]
    simp

/-- The block is queued, by a step that loses none. -/
theorem oneEmpty_queued : ∃ t : Owned, Reach Owned.Fresh Owned.CleanStep t ∧
    t.sys.st.q.bfirst = some 1 ∧ t.sys.st.heap 1 = some ⟨none, ⟨0, [], 4⟩⟩ := by
  have hrun : (exec oneEmpty.sys (.qbwrite 1)).map (fun o => (o.sys.st.q.bfirst, o.sys.st.heap 1)) =
      some (some 1, some ⟨none, ⟨0, [], 4⟩⟩) := by decide
  obtain ⟨o, hexec, hval⟩ := map_eq_some_iff.mp hrun
  have hstep : oneEmpty.CleanStep (.qbwrite 1)
      ⟨o.sys, (oneEmpty.out \ oneEmpty.entered (.qbwrite 1)) ∪ oneEmpty.given (.qbwrite 1)⟩ :=
    ⟨fun hleak => hleak, oneEmpty_owns, o, hexec, rfl⟩
  have hreach := (Reach.start oneEmpty_fresh).next hstep
  simp only [Prod.mk.injEq] at hval
  exact ⟨_, hreach, hval.1, hval.2⟩

theorem blocks_owned_queued : ∃ t : Owned, t.sys.st.q.bfirst = some 1 ∧ t.Accounted := by
  obtain ⟨t, hr, hfirst, _⟩ := oneEmpty_queued
  exact ⟨t, hfirst, (blocks_owned t hr).1⟩

/-- A queue closed by `qclose`, in an empty heap. -/
theorem closed_queue : ∃ t : Owned, Reach Owned.Fresh Owned.CleanStep t ∧
    t.sys.st.q.state.closed = true ∧ t.sys.st.heap = fun _ => none := by
  let t₀ : Owned := ⟨⟨⟨fun _ => none, qopen 8 {} false⟩, none⟩, ∅⟩
  have hfresh : t₀.Fresh := ⟨⟨rfl, Or.inl ⟨8, {}, false, rfl⟩⟩, by simp [t₀]⟩
  have hfree : freeblist t₀.sys.st.heap t₀.sys.st.q.bfirst = some fun _ => none := by
    show freeblist (fun _ => none) none = _
    rw [freeblist]
  have hexec : ∃ o, exec t₀.sys .qclose = some o ∧ o.sys.st.q.state.closed = true ∧
      o.sys.st.heap = fun _ => none := by
    simp only [exec, Qio.qclose, hfree]
    exact ⟨_, rfl, rfl, rfl⟩
  obtain ⟨o, hrun, hclosed, hheap⟩ := hexec
  have hallowed : Allowed t₀.sys .qclose := True.intro
  have hstep : t₀.CleanStep .qclose ⟨o.sys, (t₀.out \ t₀.entered .qclose) ∪ t₀.given .qclose⟩ :=
    ⟨fun hleak => hleak, hallowed, o, hrun, rfl⟩
  exact ⟨_, (Reach.start hfresh).next hstep, hclosed, hheap⟩

/-- **Blocks get lost.**  An empty block written to an open queue is neither linked nor
freed after `qconsume`; the block `qiwrite` allocates for a closed queue is neither linked
nor freed. -/
theorem blocks_lost :
    (∃ t o, Reach Owned.Fresh Owned.Step t ∧ Allowed t.sys (.qconsume 4) ∧
      exec t.sys (.qconsume 4) = some o ∧ ¬ t.Settled (.qconsume 4) o) ∧
    ∃ t o, Reach Owned.Fresh Owned.Step t ∧ Allowed t.sys (.qiwrite oneBlock [7]) ∧
      exec t.sys (.qiwrite oneBlock [7]) = some o ∧ ¬ t.Settled (.qiwrite oneBlock [7]) o := by
  have hclean : ∀ (t : Owned) op t', t.CleanStep op t' → t.Step op t' := fun _ _ _ h => h.2
  have hinv : ∀ t : Owned, Reach Owned.Fresh Owned.CleanStep t → t.Inv := fun t hr =>
    hr.invariant Owned.Inv (fun _ h => h.inv) (fun _ _ _ h hs => h.step hs)
  refine ⟨?_, ?_⟩
  · obtain ⟨t, hr, hfirst, hblock⟩ := oneEmpty_queued
    have hallowed : Allowed t.sys (.qconsume 4) := True.intro
    obtain ⟨l, k, hh, _⟩ := hinv t hr
    obtain ⟨o, hrun, _⟩ := runs_qconsume hh 4
    refine ⟨t, o, hr.mono hclean, hallowed, hrun, lost_qconsume hh ?_ hrun⟩
    exact ⟨[(1, ⟨0, [], 4⟩)], chain_cons.mpr ⟨hfirst, none, hblock, rfl⟩, by simp, rfl⟩
  · obtain ⟨t, hr, hclosed, hheap⟩ := closed_queue
    have hallowed : Allowed t.sys (.qiwrite oneBlock [7]) := True.intro
    obtain ⟨l, k, hh, _⟩ := hinv t hr
    obtain ⟨o, hrun, _⟩ := runs_qiwrite hh oneBlock [7]
    refine ⟨t, o, hr.mono hclean, hallowed, hrun, lost_qiwrite hh ?_ hrun⟩
    exact ⟨hclosed, by simp [hheap, iallocb, oneBlock]⟩

end Qio
