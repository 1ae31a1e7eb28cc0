import NixKernel.HeapChain
import NixKernel.StepSystem

/-!
# Queueing locks: `port/qlock.c`

A `QLock` is taken and released in sections under its spin lock `use`; each
section is one function here.  A process that does not get the lock links
itself behind `tail` through `qnext`, changes its state and calls `sched`.
`qunlock` takes the first waiter off, leaves the lock locked on its behalf and
makes it ready once `use` is released, so between the two the waiter owns the
lock and still sleeps.

`Waiters` is the part a `QLock` shares with an `RWlock`.  The fields `pc`, `wpc`
and `wproc`, which record who took a lock for a debugger, are left out, and so
are the statistics.
-/

namespace Qlock

open HeapChain StepSystem List Option
open Function (update update_of_ne update_comm)

variable {P : Type*}

/-- The process states the locks set or test. -/
inductive ProcState
  | running
  | ready
  | queueing
  | queueingR
  | queueingW
  deriving DecidableEq, Repr

/-- What the locks use of a `Proc`. -/
structure Proc (P : Type*) where
  state : ProcState
  qnext : Option P

abbrev Procs (P : Type*) := P → Proc P

/-- The queue of a lock. -/
structure Waiters (P : Type*) where
  head : Option P := none
  tail : Option P := none

/-- The head `p` leaves the queue: "`q->head = p->qnext`" and its test for nil. -/
def Waiters.drop (w : Waiters P) (procs : Procs P) (p : P) : Waiters P where
  head := (procs p).qnext
  tail := if (procs p).qnext.isNone then none else w.tail

/-- The processes as the cells of a heap threaded through `qnext`. -/
def cells (procs : Procs P) : P → Option (Cell P ProcState) :=
  fun p => some ⟨(procs p).qnext, (procs p).state⟩

/-- The queue `w` holds the processes of `ws`, in the states given there. -/
structure Waiters.Rep (w : Waiters P) (procs : Procs P) (ws : List (P × ProcState)) : Prop where
  chain : Chain (cells procs) w.head ws
  tail : w.tail = (addrs ws).getLast?

variable {w : Waiters P} {procs procs' : Procs P} {ws : List (P × ProcState)} {p up : P}
  {st : ProcState}

/-- Only the processes in the queue matter. -/
theorem Waiters.Rep.frame (h : w.Rep procs ws) (heq : ∀ x ∈ addrs ws, procs' x = procs x) :
    w.Rep procs' ws := by
  refine ⟨h.chain.frame ?_, h.tail⟩
  intro x hx
  unfold cells
  rw [heq x hx]

theorem Waiters.Rep.nil_iff (h : w.Rep procs ws) : w.head = none ↔ ws = [] := by
  constructor
  · intro hhead
    have hc := h.chain
    rw [hhead] at hc
    exact hc.eq_nil
  · rintro rfl
    exact chain_nil.mp h.chain

/-- A process in the queue has the state recorded for it. -/
theorem Waiters.Rep.state_eq (h : w.Rep procs ws) (hmem : (p, st) ∈ ws) : (procs p).state = st := by
  obtain ⟨n, hn⟩ := Seg.lookup h.chain hmem
  have hcell := some.inj hn
  exact congrArg Cell.val hcell

theorem Waiters.Rep.empty : ({} : Waiters P).Rep procs [] := ⟨rfl, rfl⟩

/-- The first waiter leaves the queue. -/
theorem Waiters.Rep.drop (h : w.Rep procs ((p, st) :: ws)) : (w.drop procs p).Rep procs ws := by
  obtain ⟨_, n, hp, hrest⟩ := chain_cons.mp h.chain
  have hnext : (procs p).qnext = n := congrArg Cell.next (some.inj hp)
  refine ⟨by rw [← hnext] at hrest; exact hrest, ?_⟩
  show (if (procs p).qnext.isNone then none else w.tail) = _
  rw [hnext]
  cases ws with
  | nil =>
    rw [chain_nil.mp hrest]
    rfl
  | cons c ws =>
    obtain ⟨hn, _⟩ := chain_cons.mp hrest
    rw [hn, h.tail]
    simp

section Wait

variable [DecidableEq P]

/-- `up` is put behind the tail and becomes `state`, as in `qlock`, `rlock` and
`wlock`. -/
def wait (w : Waiters P) (procs : Procs P) (up : P) (state : ProcState) : Waiters P × Procs P :=
  match w.tail with
  | none => (⟨some up, some up⟩, update procs up ⟨state, none⟩)
  | some p =>
    (⟨w.head, some up⟩,
      update (update procs p { procs p with qnext := some up }) up ⟨state, none⟩)

theorem cells_update (procs : Procs P) (p : P) (x : Proc P) :
    cells (update procs p x) = update (cells procs) p (some ⟨x.qnext, x.state⟩) := by
  funext y
  by_cases hy : y = p
  · subst hy
    simp [cells]
  · simp [cells, update_of_ne hy]

/-- **A new waiter is the last one.** -/
theorem Waiters.Rep.wait (h : w.Rep procs ws) (hup : up ∉ addrs ws) (st : ProcState) :
    (wait w procs up st).1.Rep (wait w procs up st).2 (ws ++ [(up, st)]) := by
  have hlast := h.tail
  rcases eq_nil_or_concat' ws with rfl | ⟨l, ⟨a, v⟩, rfl⟩
  · have hnone : w.tail = none := hlast
    simp only [Qlock.wait, hnone]
    refine ⟨?_, rfl⟩
    rw [cells_update]
    exact chain_cons.mpr ⟨rfl, none, by simp, chain_nil.mpr rfl⟩
  · have hsome : w.tail = some a := by
      rw [hlast]
      simp
    simp only [Qlock.wait, hsome]
    refine ⟨?_, by simp⟩
    have hne : a ≠ up := by
      rintro rfl
      exact hup (by simp)
    have hval : (procs a).state = v := h.state_eq (by simp)
    rw [cells_update, cells_update, hval]
    -- the new cell is written first, then linked behind the last one
    have hchain : Chain (update (cells procs) up (some ⟨none, st⟩)) w.head (l ++ [(a, v)]) :=
      h.chain.update_ne hup
    have hnew : Chain (update (cells procs) up (some ⟨none, st⟩)) (some up) [(up, st)] :=
      chain_cons.mpr ⟨rfl, none, by simp, chain_nil.mpr rfl⟩
    have hlinked := hchain.link_last hnew (by simpa using hne)
    rw [update_comm hne.symm] at hlinked
    rw [append_assoc]
    exact hlinked

/-- Writing to a process outside the queue changes nothing. -/
theorem Waiters.Rep.update_ne (h : w.Rep procs ws) {x : Proc P} (hp : p ∉ addrs ws) :
    w.Rep (update procs p x) ws := by
  apply h.frame
  intro y hy
  have hne : y ≠ p := by
    rintro rfl
    exact hp hy
  exact update_of_ne hne _ _

end Wait

structure QLock (P : Type*) extends Waiters P where
  locked : Bool := false

/-- `qlock` up to `sched`: whether the lock was free. -/
def qlock [DecidableEq P] (q : QLock P) (procs : Procs P) (up : P) : QLock P × Procs P × Bool :=
  if q.locked then
    let (w, procs) := wait q.toWaiters procs up .queueing
    ({ q with toWaiters := w }, procs, false)
  else ({ q with locked := true }, procs, true)

/-- `canqlock`; `use` is whether the spin lock was free. -/
def canqlock (q : QLock P) (use : Bool) : QLock P × Bool :=
  if use then
    if q.locked then (q, false) else ({ q with locked := true }, true)
  else (q, false)

/-- `qunlock`: the process to make ready, if one waits; the lock stays locked
for it. -/
def qunlock (q : QLock P) (procs : Procs P) : QLock P × Option P :=
  match q.head with
  | some p => ({ q with toWaiters := q.drop procs p }, some p)
  | none => ({ q with locked := false }, none)

/-- `ready`: what the locks see of it. -/
def makeReady [DecidableEq P] (procs : Procs P) (p : P) : Procs P :=
  update procs p { procs p with state := .ready }

/-- `runproc`, after which `p` returns from its `sched`. -/
def makeRunning [DecidableEq P] (procs : Procs P) (p : P) : Procs P :=
  update procs p { procs p with state := .running }

section

variable [DecidableEq P]

theorem makeReady_state (procs : Procs P) (p x : P) :
    (makeReady procs p x).state = if x = p then .ready else (procs x).state := by
  unfold makeReady
  by_cases hx : x = p <;> simp [hx]

theorem makeRunning_state (procs : Procs P) (p x : P) :
    (makeRunning procs p x).state = if x = p then .running else (procs x).state := by
  unfold makeRunning
  by_cases hx : x = p <;> simp [hx]

theorem makeReady_of_ne {x : P} (h : x ≠ p) : makeReady procs p x = procs x :=
  update_of_ne h _ _

end

/-- Where a process is: `queued` and `granted` are in the `sched` of `qlock`,
before and after it was taken off the queue; `waking` is at the `ready` that ends
an unlock. -/
inductive Pc (P : Type*)
  | running
  | queued
  | granted
  | waking (p : P)

/-- A lock and its processes.  `held` has one entry for each time the lock was
acquired, or handed over, and not released; `came` and `served` record who
queued and who was taken off the queue, in order. -/
structure QSys (P : Type*) where
  q : QLock P
  procs : Procs P
  pc : P → Pc P
  held : List P := []
  came : List P := []
  served : List P := []

/-- `env` is any use of a process's fields while it does not wait here, as by
another lock it waits for. -/
inductive QAct (P : Type*)
  | qlock (p : P)
  | canqlock (p : P) (use : Bool)
  | qunlock (p : P)
  | ready (p : P)
  | resume (p : P)
  | env (p : P) (x : Proc P)

/-- One step. -/
def QSys.act [DecidableEq P] (s : QSys P) : QAct P → Option (QSys P)
  | .qlock p =>
    match s.pc p with
    | .running =>
      match Qlock.qlock s.q s.procs p with
      | (q, procs, true) => some { s with q, procs, held := p :: s.held }
      | (q, procs, false) =>
        some { s with q, procs, pc := update s.pc p .queued, came := s.came ++ [p] }
    | _ => none
  | .canqlock p use =>
    match s.pc p with
    | .running =>
      match Qlock.canqlock s.q use with
      | (q, true) => some { s with q, held := p :: s.held }
      | (q, false) => some { s with q }
    | _ => none
  | .qunlock p =>
    match s.pc p with
    | .running =>
      match Qlock.qunlock s.q s.procs with
      | (q, none) => some { s with q, held := s.held.erase p }
      | (q, some x) =>
        some { s with
          q
          pc := update (update s.pc x .granted) p (.waking x)
          held := x :: s.held.erase p
          served := s.served ++ [x] }
    | _ => none
  | .ready p =>
    match s.pc p with
    | .waking x =>
      some { s with procs := makeReady s.procs x, pc := update s.pc p .running }
    | _ => none
  | .resume p =>
    match s.pc p, (s.procs p).state with
    | .queued, .ready | .granted, .ready =>
      some { s with procs := makeRunning s.procs p, pc := update s.pc p .running }
    | _, _ => none
  | .env p x =>
    match s.pc p with
    | .running => some { s with procs := update s.procs p x }
    | _ => none

section
-- the equations are made here, and not by the first proofs that need them
attribute [local simp] QSys.act
end

/-- A process releases only a lock it holds. -/
def QSys.Allowed (s : QSys P) : QAct P → Prop
  | .qunlock p => p ∈ s.held
  | _ => True

def QSys.Step [DecidableEq P] (s : QSys P) (a : QAct P) (s' : QSys P) : Prop :=
  s.Allowed a ∧ s.act a = some s'

/-- A lock nobody uses. -/
def QSys.Fresh (s : QSys P) : Prop :=
  s.q = {} ∧ (∀ p, s.pc p = .running) ∧ s.held = [] ∧ s.came = [] ∧ s.served = []

/-- What the lock promises: one holder; the queue is the list of the waiting
processes, none of which can run; they are served first come, first served; and
nobody waits for a free lock. -/
structure QSys.Ok (s : QSys P) : Prop where
  exclusive : s.held.length ≤ 1
  queue : ∃ ws, s.q.Rep s.procs ws ∧ (∀ p, p ∈ addrs ws ↔ s.pc p = .queued) ∧
    (∀ c ∈ ws, c.2 = .queueing) ∧ s.came = s.served ++ addrs ws
  granted : ∀ p, s.pc p = .granted → p ∈ s.held
  free : s.held = [] → ∀ p, s.pc p ≠ .queued

/-- Who is waking whom: a process about to be made ready has been granted the
lock and is still asleep, and nobody else wakes it. -/
structure Wakes (pc : P → Pc P) (procs : Procs P) : Prop where
  asleep : ∀ p x, pc p = .waking x → pc x = .granted ∧ (procs x).state ≠ .ready
  one : ∀ p p' x, pc p = .waking x → pc p' = .waking x → p = p'

structure QSys.Inv (s : QSys P) (ws : List (P × ProcState)) : Prop where
  rep : s.q.Rep s.procs ws
  queued : ∀ p, p ∈ addrs ws ↔ s.pc p = .queued
  kind : ∀ c ∈ ws, c.2 = .queueing
  fifo : s.came = s.served ++ addrs ws
  held : s.held.length = if s.q.locked then 1 else 0
  free : s.q.locked = false → ws = []
  granted : ∀ p, s.pc p = .granted → p ∈ s.held
  wakes : Wakes s.pc s.procs

variable {s s' : QSys P}

theorem QSys.Inv.ok (h : s.Inv ws) : s.Ok := by
  refine ⟨?_, ⟨ws, h.rep, h.queued, h.kind, h.fifo⟩, h.granted, ?_⟩
  · rw [h.held]
    split <;> omega
  · intro hnone p hp
    have hlocked : s.q.locked = false := by
      have hlen := h.held
      rw [hnone] at hlen
      by_contra hl
      simp [hl] at hlen
    have hmem := (h.queued p).mpr hp
    rw [h.free hlocked] at hmem
    cases hmem

theorem Wakes.start {pc : P → Pc P} (h : ∀ p, pc p = .running) : Wakes pc procs := by
  constructor <;> simp [h]

theorem QSys.Fresh.inv (h : s.Fresh) : s.Inv [] := by
  obtain ⟨hq, hpc, hheld, hcame, hserved⟩ := h
  refine ⟨?_, ?_, ?_, ?_, ?_, fun _ => rfl, ?_, Wakes.start hpc⟩
  · rw [hq]
    exact Waiters.Rep.empty
  · simp [hpc]
  · simp
  · simp [hcame, hserved]
  · simp [hheld, hq]
  · simp [hpc]

section Wakes

variable [DecidableEq P] {pc : P → Pc P}

/-- A running process goes to sleep on the queue. -/
theorem Wakes.queue (h : Wakes pc procs) (hp : pc p = .running)
    (hstate : ∀ x, pc x = .granted → (procs' x).state = (procs x).state) :
    Wakes (update pc p .queued) procs' := by
  constructor
  · intro q x hq
    have hold := h.asleep q x
    have hsame := hstate x
    grind
  · intro q q' x hq hq'
    have hold := h.one q q' x
    grind

/-- A waiter is granted the lock by `p`, which is about to make it ready. -/
theorem Wakes.grant (h : Wakes pc procs) (hp : pc p = .running) {x : P} (hx : pc x = .queued)
    (hstate : (procs x).state ≠ .ready) :
    Wakes (update (update pc x .granted) p (.waking x)) procs := by
  constructor
  · intro q y hq
    have hold := h.asleep q y
    grind
  · intro q q' y hq hq'
    have hold := h.one q q' y
    -- `x` was queued, so nobody was waking it
    have hq₁ := h.asleep q y
    have hq₂ := h.asleep q' y
    grind

/-- The wakeup is done. -/
theorem Wakes.woken (h : Wakes pc procs) {x : P} (hp : pc p = .waking x) :
    Wakes (update pc p .running) (makeReady procs x) := by
  constructor
  · intro q y hq
    have hold := h.asleep q y
    have hone := h.one q p y
    have hx := h.asleep p x hp
    grind [makeReady_state]
  · intro q q' y hq hq'
    have hold := h.one q q' y
    grind

/-- A ready process runs again: nobody was about to wake it. -/
theorem Wakes.resume (h : Wakes pc procs) (hready : (procs p).state = .ready) :
    Wakes (update pc p .running) (makeRunning procs p) := by
  constructor
  · intro q y hq
    have hold := h.asleep q y
    grind [makeRunning_state]
  · intro q q' y hq hq'
    have hold := h.one q q' y
    grind

theorem Wakes.env (h : Wakes pc procs) (hp : pc p = .running) (x : Proc P) :
    Wakes pc (update procs p x) := by
  refine ⟨?_, h.one⟩
  intro q y hq
  have hold := h.asleep q y hq
  grind

end Wakes

/-- A running process is not in the queue. -/
theorem QSys.Inv.not_mem (h : s.Inv ws) (hp : s.pc p = .running) : p ∉ addrs ws := by
  rw [h.queued, hp]
  simp

/-- `wait` changes the state of `up` only. -/
theorem wait_state [DecidableEq P] (w : Waiters P) (procs : Procs P) {x : P} (hx : x ≠ up)
    (st : ProcState) :
    ((wait w procs up st).2 x).state = (procs x).state := by
  unfold wait
  split
  · simp [update_of_ne hx]
  · rename_i a ha
    by_cases hxa : x = a <;> simp [update_of_ne hx, hxa]
    rw [← hxa, update_of_ne hx, hxa]
    simp

/-- The holder is the only entry of `held`. -/
theorem QSys.Inv.held_eq (h : s.Inv ws) (hp : p ∈ s.held) :
    s.held = [p] ∧ s.q.locked = true := by
  have hlen := h.held
  have hpos := length_pos_of_mem hp
  have hlocked : s.q.locked = true := by
    by_contra hl
    rw [if_neg hl] at hlen
    omega
  rw [if_pos hlocked] at hlen
  obtain ⟨x, hx⟩ := length_eq_one_iff.mp hlen
  rw [hx, mem_singleton] at hp
  rw [hp]
  exact ⟨hx, hlocked⟩

/-- Only a process that was granted the lock is made ready. -/
theorem QSys.Inv.queued_state (h : s.Inv ws) (hp : s.pc p = .queued) :
    (s.procs p).state = .queueing := by
  obtain ⟨c, hc, rfl⟩ := mem_map.mp ((h.queued p).mpr hp)
  rw [← h.kind c hc]
  exact h.rep.state_eq hc

/-- A free lock is taken. -/
theorem QSys.Inv.take (h : s.Inv ws) (p : P) (hl : ¬ s.q.locked) :
    QSys.Inv { s with q := { s.q with locked := true }, held := p :: s.held } ws := by
  have hfree : s.q.locked = false := by simpa using hl
  refine ⟨h.rep, h.queued, h.kind, h.fifo, ?_, fun _ => h.free hfree, ?_, h.wakes⟩
  · simp [h.held, hfree]
  · intro x hx
    exact mem_cons_of_mem _ (h.granted x hx)

variable [DecidableEq P]

theorem QSys.Inv.act_qlock (h : s.Inv ws) (hrun : s.act (.qlock p) = some s') :
    ∃ ws', s'.Inv ws' := by
  simp only [QSys.act] at hrun
  split at hrun
  next hp =>
    have hmem := h.not_mem hp
    unfold qlock at hrun
    by_cases hl : s.q.locked
    · simp only [hl, if_true, some.injEq] at hrun
      subst hrun
      refine ⟨ws ++ [(p, .queueing)], h.rep.wait hmem _, ?_, ?_, ?_, ?_, ?_, ?_, ?_⟩
      · intro x
        have hold := h.queued x
        simp only [addrs_append, addrs_cons, addrs_nil, mem_append, mem_singleton]
        grind
      · intro c hc
        have hold := h.kind c
        grind
      · simp [h.fifo]
      · simp [h.held, hl]
      · simp
      · intro x hx
        have hold := h.granted x
        grind
      · apply h.wakes.queue hp
        intro x hx
        apply wait_state
        rintro rfl
        rw [hp] at hx
        cases hx
    · simp only [hl, Bool.false_eq_true, if_false, some.injEq] at hrun
      subst hrun
      exact ⟨ws, h.take p hl⟩
  next => cases hrun

theorem QSys.Inv.act_canqlock {use : Bool} (h : s.Inv ws)
    (hrun : s.act (.canqlock p use) = some s') : ∃ ws', s'.Inv ws' := by
  simp only [QSys.act] at hrun
  split at hrun
  next hp =>
    unfold canqlock at hrun
    cases use with
    | false =>
      cases hrun
      exact ⟨ws, h⟩
    | true =>
      by_cases hl : s.q.locked
      · simp only [hl, if_true, some.injEq] at hrun
        subst hrun
        exact ⟨ws, h⟩
      · simp only [hl, if_true, Bool.false_eq_true, if_false, some.injEq] at hrun
        subst hrun
        exact ⟨ws, h.take p hl⟩
  next => cases hrun

theorem QSys.Inv.act_qunlock (h : s.Inv ws) (hheld : p ∈ s.held)
    (hrun : s.act (.qunlock p) = some s') : ∃ ws', s'.Inv ws' := by
  obtain ⟨hone, hlocked⟩ := h.held_eq hheld
  simp only [QSys.act] at hrun
  split at hrun
  next hp =>
    -- `p` runs, so nobody has been granted the lock
    have hnobody : ∀ x, s.pc x ≠ .granted := by
      intro x hx
      have hmem := h.granted x hx
      rw [hone, mem_singleton] at hmem
      rw [hmem, hp] at hx
      cases hx
    unfold qunlock at hrun
    cases ws with
    | nil =>
      rw [h.rep.nil_iff.mpr rfl] at hrun
      cases hrun
      refine ⟨[], h.rep, h.queued, h.kind, h.fifo, ?_, fun _ => rfl, ?_, h.wakes⟩
      · simp [hone]
      · intro x hx
        exact absurd hx (hnobody x)
    | cons c ws =>
      obtain ⟨x, st⟩ := c
      have hst : st = .queueing := h.kind (x, st) mem_cons_self
      have hx : s.pc x = .queued := (h.queued x).mp (by simp)
      have hstate : (s.procs x).state = .queueing := by
        rw [← hst]
        exact h.rep.state_eq mem_cons_self
      rw [(chain_cons.mp h.rep.chain).1] at hrun
      cases hrun
      have hnodup := h.rep.chain.head_not_mem
      refine ⟨ws, h.rep.drop, ?_, ?_, ?_, ?_, ?_, ?_, ?_⟩
      · intro y
        have hold := h.queued y
        simp only [addrs_cons, mem_cons] at hold
        grind
      · intro c hc
        exact h.kind c (mem_cons_of_mem _ hc)
      · simp [h.fifo]
      · simp [hone, hlocked]
      · intro hfree
        simp [hlocked] at hfree
      · intro y hy
        have hold := hnobody y
        grind
      · exact h.wakes.grant hp hx (by rw [hstate]; simp)
  next => cases hrun

theorem QSys.Inv.act_ready (h : s.Inv ws) (hrun : s.act (.ready p) = some s') :
    ∃ ws', s'.Inv ws' := by
  simp only [QSys.act] at hrun
  split at hrun
  next x hp =>
    cases hrun
    obtain ⟨hx, _⟩ := h.wakes.asleep p x hp
    have hmem : x ∉ addrs ws := by
      rw [h.queued, hx]
      simp
    refine ⟨ws, h.rep.update_ne hmem, ?_, h.kind, h.fifo, h.held, h.free, ?_, h.wakes.woken hp⟩
    · intro y
      have hold := h.queued y
      grind
    · intro y hy
      have hold := h.granted y
      grind
  next => cases hrun

theorem QSys.Inv.act_resume (h : s.Inv ws) (hrun : s.act (.resume p) = some s') :
    ∃ ws', s'.Inv ws' := by
  simp only [QSys.act] at hrun
  split at hrun
  next hp hready =>
    rw [h.queued_state hp] at hready
    cases hready
  next hp hready =>
    cases hrun
    have hmem : p ∉ addrs ws := by
      rw [h.queued, hp]
      simp
    refine ⟨ws, h.rep.update_ne hmem, ?_, h.kind, h.fifo, h.held, h.free, ?_, h.wakes.resume hready⟩
    · intro y
      have hold := h.queued y
      grind
    · intro y hy
      have hold := h.granted y
      grind
  next => cases hrun

theorem QSys.Inv.act_env {x : Proc P} (h : s.Inv ws) (hrun : s.act (.env p x) = some s') :
    ∃ ws', s'.Inv ws' := by
  simp only [QSys.act] at hrun
  split at hrun
  next hp =>
    cases hrun
    exact ⟨ws, h.rep.update_ne (h.not_mem hp), h.queued, h.kind, h.fifo, h.held, h.free,
      h.granted, h.wakes.env hp x⟩
  next => cases hrun

theorem QSys.Inv.step {a : QAct P} (h : s.Inv ws) (hstep : s.Step a s') :
    ∃ ws', s'.Inv ws' := by
  obtain ⟨hallowed, hrun⟩ := hstep
  cases a with
  | qlock p => exact h.act_qlock hrun
  | canqlock p use => exact h.act_canqlock hrun
  | qunlock p => exact h.act_qunlock hallowed hrun
  | ready p => exact h.act_ready hrun
  | resume p => exact h.act_resume hrun
  | env p x => exact h.act_env hrun

/-- **A `QLock` in any run**: see `QSys.Ok`. -/
theorem QSys.ok_of_reach (hr : Reach QSys.Fresh QSys.Step s) : s.Ok := by
  have hinv : ∃ ws, s.Inv ws := by
    refine hr.invariant (fun s => ∃ ws, s.Inv ws) ?_ ?_
    · intro s hs
      exact ⟨[], hs.inv⟩
    · intro s a t h hstep
      obtain ⟨ws, hws⟩ := h
      exact hws.step hstep
  obtain ⟨ws, hws⟩ := hinv
  exact hws.ok

end Qlock
