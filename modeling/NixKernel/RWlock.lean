import NixKernel.Qlock

/-!
# Reader-writer locks: `port/qlock.c`

An `RWlock` counts its readers and its writer and keeps one queue for both.
Readers enter while there is no writer and nobody waits; the last reader hands
the lock to the writer in front, and a writer hands it to the writer in front or
to all the readers up to the next writer.  The source's panics are the results
`none`.
-/

namespace Qlock

open HeapChain StepSystem List
open Function (update)

variable {P : Type*}

structure RWlock (P : Type*) extends Waiters P where
  readers : Int := 0
  writer : Int := 0

/-- `canrlock`. -/
def canrlock (q : RWlock P) : RWlock P × Bool :=
  if q.writer = 0 ∧ q.head.isNone then ({ q with readers := q.readers + 1 }, true)
  else (q, false)

/-- `runlock`: the writer to make ready, if the last reader leaves and one
waits. -/
def runlock (q : RWlock P) (procs : Procs P) : Option (RWlock P × Option P) :=
  let q := { q with readers := q.readers - 1 }
  match q.head with
  | none => some (q, none)
  | some p =>
    if 0 < q.readers then some (q, none)
    -- start waiting writer
    else if (procs p).state = .queueingW then
      some ({ q with toWaiters := q.drop procs p, writer := 1 }, some p)
    else none

/-- What `wunlock` does for the processes that wait. -/
inductive Unlocked (P : Type*)
  | nobody
  | writer (p : P)
  | readers (l : List P)

section

variable [DecidableEq P]

/-- `rlock` up to `sched`: whether the process may go on. -/
def rlock (q : RWlock P) (procs : Procs P) (up : P) : RWlock P × Procs P × Bool :=
  if q.writer = 0 ∧ q.head.isNone then
    -- no writer, go for it
    ({ q with readers := q.readers + 1 }, procs, true)
  else
    let (w, procs) := wait q.toWaiters procs up .queueingR
    ({ q with toWaiters := w }, procs, false)

/-- `wlock` up to `sched`: whether the process may go on. -/
def wlock (q : RWlock P) (procs : Procs P) (up : P) : RWlock P × Procs P × Bool :=
  if q.readers = 0 ∧ q.writer = 0 then
    -- noone waiting, go for it
    ({ q with writer := 1 }, procs, true)
  else
    let (w, procs) := wait q.toWaiters procs up .queueingW
    ({ q with toWaiters := w }, procs, false)

/-- The loop of `wunlock`, "waken waiting readers", with the processes it makes
ready. -/
def RWlock.wakeReaders (q : RWlock P) (procs : Procs P) : Option (RWlock P × Procs P × List P) :=
  match q.head with
  | none => some (q, procs, [])
  | some p =>
    if (procs p).state = .queueingR then do
      let (q, procs, l) ← ({ q with head := (procs p).qnext, readers := q.readers + 1 } : RWlock P)
        |>.wakeReaders (makeReady procs p)
      return (q, procs, p :: l)
    else some (q, procs, [])
partial_fixpoint

export RWlock (wakeReaders)

/-- `wunlock`, up to the `ready` of a waiting writer. -/
def wunlock (q : RWlock P) (procs : Procs P) : Option (RWlock P × Procs P × Unlocked P) :=
  match q.head with
  | none => some ({ q with writer := 0 }, procs, .nobody)
  | some p =>
    match (procs p).state with
    -- start waiting writer
    | .queueingW => some ({ q with toWaiters := q.drop procs p }, procs, .writer p)
    | .queueingR => do
        let (q, procs, l) ← wakeReaders q procs
        return ({ q with tail := if q.head.isNone then none else q.tail, writer := 0 }, procs,
          .readers l)
    | _ => none

end

/-- A lock and its processes.  `rheld` and `wheld` have one entry for each time
the lock was acquired, or handed over, and not released; `came` records who
queued for what, in order, and `served` the batches taken off the queue. -/
structure RWSys (P : Type*) where
  q : RWlock P
  procs : Procs P
  pc : P → Pc P
  rheld : List P := []
  wheld : List P := []
  came : List (P × ProcState) := []
  served : List (List (P × ProcState)) := []

inductive RWAct (P : Type*)
  | rlock (p : P)
  | canrlock (p : P)
  | runlock (p : P)
  | wlock (p : P)
  | wunlock (p : P)
  | ready (p : P)
  | resume (p : P)
  | env (p : P) (x : Proc P)

section

variable [DecidableEq P]

/-- One step. -/
def RWSys.act (s : RWSys P) : RWAct P → Option (RWSys P)
  | .rlock p =>
    match s.pc p with
    | .running =>
      match Qlock.rlock s.q s.procs p with
      | (q, procs, true) => some { s with q, procs, rheld := p :: s.rheld }
      | (q, procs, false) =>
        some { s with
          q
          procs
          pc := update s.pc p .queued
          came := s.came ++ [(p, .queueingR)] }
    | _ => none
  | .canrlock p =>
    match s.pc p with
    | .running =>
      match Qlock.canrlock s.q with
      | (q, true) => some { s with q, rheld := p :: s.rheld }
      | (q, false) => some { s with q }
    | _ => none
  | .runlock p =>
    match s.pc p with
    | .running => do
        match ← Qlock.runlock s.q s.procs with
        | (q, none) => return { s with q, rheld := s.rheld.erase p }
        | (q, some x) =>
          return { s with
            q
            pc := update (update s.pc x .granted) p (.waking x)
            rheld := s.rheld.erase p
            wheld := x :: s.wheld
            served := s.served ++ [[(x, .queueingW)]] }
    | _ => none
  | .wlock p =>
    match s.pc p with
    | .running =>
      match Qlock.wlock s.q s.procs p with
      | (q, procs, true) => some { s with q, procs, wheld := p :: s.wheld }
      | (q, procs, false) =>
        some { s with
          q
          procs
          pc := update s.pc p .queued
          came := s.came ++ [(p, .queueingW)] }
    | _ => none
  | .wunlock p =>
    match s.pc p with
    | .running => do
        match ← Qlock.wunlock s.q s.procs with
        | (q, procs, .nobody) => return { s with q, procs, wheld := s.wheld.erase p }
        | (q, procs, .writer x) =>
          return { s with
            q
            procs
            pc := update (update s.pc x .granted) p (.waking x)
            wheld := x :: s.wheld.erase p
            served := s.served ++ [[(x, .queueingW)]] }
        | (q, procs, .readers l) =>
          return { s with
            q
            procs
            pc := fun x => if x ∈ l then .granted else s.pc x
            rheld := l ++ s.rheld
            wheld := s.wheld.erase p
            served := s.served ++ [l.map fun x => (x, .queueingR)] }
    | _ => none
  | .ready p =>
    match s.pc p with
    | .waking x =>
      some { s with procs := makeReady s.procs x, pc := update s.pc p .running }
    | _ => none
  | .resume p =>
    match s.pc p, (s.procs p).state with
    | .queued, .ready | .granted, .ready =>
      some { s with procs := makeRunning s.procs p, pc := update s.pc p .running }
    | _, _ => none
  | .env p x =>
    match s.pc p with
    | .running => some { s with procs := update s.procs p x }
    | _ => none

/-- A process releases only what it holds. -/
def RWSys.Allowed (s : RWSys P) : RWAct P → Prop
  | .runlock p => p ∈ s.rheld
  | .wunlock p => p ∈ s.wheld
  | _ => True

def RWSys.Step (s : RWSys P) (a : RWAct P) (s' : RWSys P) : Prop :=
  s.Allowed a ∧ s.act a = some s'

/-- A lock nobody uses. -/
def RWSys.Fresh (s : RWSys P) : Prop :=
  s.q = {} ∧ (∀ p, s.pc p = .running) ∧ s.rheld = [] ∧ s.wheld = [] ∧ s.came = [] ∧ s.served = []

/-- A batch taken off the queue: one writer, or readers. -/
def Batch (b : List (P × ProcState)) : Prop :=
  (∃ p, b = [(p, .queueingW)]) ∨ (b ≠ [] ∧ ∀ c ∈ b, c.2 = .queueingR)

/-- What the lock promises: a writer is alone; the queue is the list of the
waiting processes, with a writer in front as long as there are readers; the
queue is served first come, first served, in batches; nobody waits for a free
lock; and an unlock does not panic. -/
structure RWSys.Ok (s : RWSys P) : Prop where
  writer : s.wheld.length ≤ 1
  exclusive : s.wheld ≠ [] → s.rheld = []
  queue : ∃ ws, s.q.Rep s.procs ws ∧ (∀ p, p ∈ addrs ws ↔ s.pc p = .queued) ∧
    (∀ c ∈ ws, c.2 = .queueingR ∨ c.2 = .queueingW) ∧
    (s.rheld ≠ [] → ∀ c ∈ ws.head?, c.2 = .queueingW) ∧ s.came = s.served.flatten ++ ws
  batches : ∀ b ∈ s.served, Batch b
  granted : ∀ p, s.pc p = .granted → p ∈ s.rheld ∨ p ∈ s.wheld
  free : s.rheld = [] → s.wheld = [] → ∀ p, s.pc p ≠ .queued
  runlock : ∀ p ∈ s.rheld, s.pc p = .running → (s.act (.runlock p)).isSome
  wunlock : ∀ p ∈ s.wheld, s.pc p = .running → (s.act (.wunlock p)).isSome

end

/-- The readers in front of the queue. -/
def frontReaders (ws : List (P × ProcState)) : List (P × ProcState) :=
  ws.takeWhile fun c => c.2 = .queueingR

/-- What is behind them. -/
def behindReaders (ws : List (P × ProcState)) : List (P × ProcState) :=
  ws.dropWhile fun c => c.2 = .queueingR

theorem frontReaders_append (ws : List (P × ProcState)) :
    frontReaders ws ++ behindReaders ws = ws := takeWhile_append_dropWhile

theorem frontReaders_kind {ws : List (P × ProcState)} {c : P × ProcState}
    (hc : c ∈ frontReaders ws) : c.2 = .queueingR := by
  simpa using mem_takeWhile_imp hc

variable {ws : List (P × ProcState)} {procs : Procs P} {p : P} {st : ProcState}

section

variable [DecidableEq P]

/-- The processes of `l` are made ready. -/
def makeAllReady (procs : Procs P) (l : List P) : Procs P := l.foldl makeReady procs

theorem makeAllReady_of_not_mem {l : List P} (hp : p ∉ l) :
    makeAllReady procs l p = procs p := by
  induction l generalizing procs with
  | nil => rfl
  | cons x l ih =>
    obtain ⟨hpx, hl⟩ := ne_and_not_mem_of_not_mem_cons hp
    exact (ih hl).trans (makeReady_of_ne hpx)

/-- **The loop wakes the readers in front**, and stops at the first writer. -/
theorem wakeReaders_spec {q : RWlock P} (hc : Chain (cells procs) q.head ws) :
    wakeReaders q procs =
      some ({ q with
          head := (addrs (behindReaders ws)).head?
          readers := q.readers + (frontReaders ws).length },
        makeAllReady procs (addrs (frontReaders ws)), addrs (frontReaders ws)) := by
  induction ws generalizing q procs with
  | nil =>
    unfold wakeReaders
    have hhead := chain_nil.mp hc
    rw [hhead]
    obtain ⟨⟨_, _⟩, _, _⟩ := q
    cases hhead
    simp [frontReaders, behindReaders, makeAllReady]
  | cons c ws ih =>
    obtain ⟨p, st⟩ := c
    obtain ⟨hhead, n, hp, hrest⟩ := chain_cons.mp hc
    have hcell := Option.some.inj hp
    have hst : (procs p).state = st := congrArg Cell.val hcell
    have hnext : (procs p).qnext = n := congrArg Cell.next hcell
    unfold wakeReaders
    rw [hhead]
    by_cases hr : st = .queueingR
    · -- `p` leaves the queue; the rest is untouched
      have hmem := hc.head_not_mem
      have hrest' : Chain (cells (makeReady procs p)) n ws := by
        unfold makeReady
        rw [cells_update]
        exact hrest.update_ne hmem
      simp only [hst, hr, if_true, hnext]
      rw [ih hrest']
      simp only [Option.pure_def, Option.bind_eq_bind, Option.bind_some, Option.some.injEq]
      simp only [frontReaders, behindReaders, takeWhile_cons, dropWhile_cons,
        decide_true, if_true, addrs_cons, length_cons]
      have hcount : q.readers + 1 + ((frontReaders ws).length : Int) =
          q.readers + (((frontReaders ws).length + 1 : Nat) : Int) := by
        push_cast
        omega
      unfold frontReaders at hcount
      rw [hcount]
      rfl
    · simp only [hst, if_neg hr]
      obtain ⟨⟨_, _⟩, _, _⟩ := q
      cases hhead
      simp [frontReaders, behindReaders, hr, makeAllReady]

end

structure RWSys.Inv (s : RWSys P) (ws : List (P × ProcState)) : Prop where
  rep : s.q.Rep s.procs ws
  queued : ∀ p, p ∈ addrs ws ↔ s.pc p = .queued
  kind : ∀ c ∈ ws, c.2 = .queueingR ∨ c.2 = .queueingW
  fifo : s.came = s.served.flatten ++ ws
  batches : ∀ b ∈ s.served, Batch b
  readers : s.q.readers = s.rheld.length
  writer : s.q.writer = s.wheld.length
  one : s.wheld.length ≤ 1
  excl : s.wheld ≠ [] → s.rheld = []
  front : s.rheld ≠ [] → ∀ c ∈ ws.head?, c.2 = .queueingW
  free : s.rheld = [] → s.wheld = [] → ws = []
  granted : ∀ p, s.pc p = .granted → p ∈ s.rheld ∨ p ∈ s.wheld
  wakes : Wakes s.pc s.procs

variable {s s' : RWSys P}

theorem RWSys.Fresh.inv (h : s.Fresh) : s.Inv [] := by
  obtain ⟨hq, hpc, hr, hw, hcame, hserved⟩ := h
  constructor
  case rep =>
    rw [hq]
    exact Waiters.Rep.empty
  case wakes => exact Wakes.start hpc
  all_goals simp [hq, hpc, hr, hw, hcame, hserved]

/-- A running process is not in the queue. -/
theorem RWSys.Inv.not_mem (h : s.Inv ws) (hp : s.pc p = .running) : p ∉ addrs ws := by
  rw [h.queued, hp]
  simp

/-- A waiting process is not ready. -/
theorem RWSys.Inv.queued_state (h : s.Inv ws) (hp : s.pc p = .queued) :
    (s.procs p).state ≠ .ready := by
  obtain ⟨c, hc, rfl⟩ := List.mem_map.mp ((h.queued p).mpr hp)
  rw [h.rep.state_eq hc]
  rcases h.kind c hc with hk | hk <;> simp [hk]

/-- The queue seen from its first waiter. -/
theorem RWSys.Inv.first {st : ProcState} (h : s.Inv ((p, st) :: ws)) :
    s.q.head = some p ∧ s.pc p = .queued ∧ (s.procs p).state = st :=
  ⟨(chain_cons.mp h.rep.chain).1, (h.queued p).mp (by simp), h.rep.state_eq mem_cons_self⟩

/-- The writer is the only entry of `wheld`, and there are no readers. -/
theorem RWSys.Inv.wheld_eq (h : s.Inv ws) (hp : p ∈ s.wheld) : s.wheld = [p] ∧ s.rheld = [] := by
  have hone := h.one
  have hpos := length_pos_of_mem hp
  obtain ⟨x, hx⟩ := List.length_eq_one_iff.mp (Nat.le_antisymm hone hpos)
  have hexcl := h.excl (ne_nil_of_mem hp)
  rw [hx, mem_singleton] at hp
  rw [hp]
  exact ⟨hx, hexcl⟩

theorem RWSys.Inv.wheld_nil (h : s.Inv ws) (hp : p ∈ s.rheld) : s.wheld = [] := by
  by_contra hne
  rw [h.excl hne] at hp
  cases hp

/-- A reader enters: there is no writer, and nobody waits. -/
theorem RWSys.Inv.enter (h : s.Inv ws) (p : P) (hq : s.q.writer = 0 ∧ s.q.head.isNone = true) :
    RWSys.Inv { s with q := { s.q with readers := s.q.readers + 1 }, rheld := p :: s.rheld } ws := by
  have hnil : ws = [] := h.rep.nil_iff.mp (by simpa using hq.2)
  have hno : s.wheld = [] := by
    have hw := h.writer
    rw [hq.1] at hw
    exact List.length_eq_zero_iff.mp (by omega)
  refine ⟨h.rep, h.queued, h.kind, h.fifo, h.batches, ?_, h.writer, h.one, ?_, ?_, ?_, ?_, h.wakes⟩
  · simp [h.readers]
  · intro hne
    exact absurd hno hne
  · simp [hnil]
  · simp
  · intro x hx
    exact (h.granted x hx).imp (mem_cons_of_mem _) id

section

variable [DecidableEq P]

/-- A process queues up behind a writer, or while the lock is not free. -/
theorem RWSys.Inv.queue {st : ProcState} (h : s.Inv ws) (hp : s.pc p = .running)
    (hst : st = .queueingR ∨ st = .queueingW)
    (hfront : s.rheld ≠ [] → ws = [] → st = .queueingW)
    (hbusy : s.rheld = [] → s.wheld = [] → False) :
    RWSys.Inv { s with
      q := { s.q with toWaiters := (wait s.q.toWaiters s.procs p st).1 }
      procs := (wait s.q.toWaiters s.procs p st).2
      pc := update s.pc p .queued
      came := s.came ++ [(p, st)] } (ws ++ [(p, st)]) := by
  refine ⟨h.rep.wait (h.not_mem hp) _, ?_, ?_, ?_, h.batches, h.readers, h.writer, h.one, h.excl,
    ?_, fun hr hw => (hbusy hr hw).elim, ?_, ?_⟩
  · intro x
    have hold := h.queued x
    simp only [addrs_append, addrs_cons, addrs_nil, mem_append, mem_singleton]
    grind
  · intro c hc
    have hold := h.kind c
    grind
  · simp [h.fifo]
  · intro hr c hc
    cases ws with
    | nil =>
      cases hc
      exact hfront hr rfl
    | cons d ws => exact h.front hr c hc
  · intro x hx
    have hold := h.granted x
    grind
  · apply h.wakes.queue hp
    intro x hx
    apply wait_state
    rintro rfl
    rw [hp] at hx
    cases hx

theorem RWSys.Inv.act_rlock (h : s.Inv ws) (hrun : s.act (.rlock p) = some s') :
    ∃ ws', s'.Inv ws' := by
  simp only [RWSys.act] at hrun
  split at hrun
  next hp =>
    unfold rlock at hrun
    by_cases hq : s.q.writer = 0 ∧ s.q.head.isNone = true
    · simp only [if_pos hq, Option.some.injEq] at hrun
      subst hrun
      exact ⟨ws, h.enter p hq⟩
    · simp only [if_neg hq, Option.some.injEq] at hrun
      subst hrun
      refine ⟨_, h.queue hp (Or.inl rfl) ?_ ?_⟩
      · -- with readers inside and nobody waiting, `p` would have entered
        intro hr hnil
        have hw : s.wheld = [] := by
          by_contra hne
          exact hr (h.excl hne)
        refine absurd ⟨?_, ?_⟩ hq
        · rw [h.writer, hw]
          rfl
        · rw [h.rep.nil_iff.mpr hnil]
          rfl
      · intro hr hw
        refine hq ⟨?_, ?_⟩
        · rw [h.writer, hw]
          rfl
        · rw [h.rep.nil_iff.mpr (h.free hr hw)]
          rfl
  next => cases hrun

theorem RWSys.Inv.act_canrlock (h : s.Inv ws) (hrun : s.act (.canrlock p) = some s') :
    ∃ ws', s'.Inv ws' := by
  simp only [RWSys.act] at hrun
  split at hrun
  next hp =>
    unfold canrlock at hrun
    by_cases hq : s.q.writer = 0 ∧ s.q.head.isNone = true
    · simp only [if_pos hq, Option.some.injEq] at hrun
      subst hrun
      exact ⟨ws, h.enter p hq⟩
    · simp only [if_neg hq, Option.some.injEq] at hrun
      subst hrun
      exact ⟨ws, h⟩
  next => cases hrun

theorem RWSys.Inv.act_wlock (h : s.Inv ws) (hrun : s.act (.wlock p) = some s') :
    ∃ ws', s'.Inv ws' := by
  simp only [RWSys.act] at hrun
  split at hrun
  next hp =>
    unfold wlock at hrun
    by_cases hq : s.q.readers = 0 ∧ s.q.writer = 0
    · simp only [if_pos hq, Option.some.injEq] at hrun
      subst hrun
      have hr : s.rheld = [] := by
        have hr := h.readers
        exact List.length_eq_zero_iff.mp (by omega)
      have hw : s.wheld = [] := by
        have hw := h.writer
        exact List.length_eq_zero_iff.mp (by omega)
      refine ⟨ws, h.rep, h.queued, h.kind, h.fifo, h.batches, h.readers, ?_, ?_, fun _ => hr,
        h.front, ?_, ?_, h.wakes⟩
      · simp [hw]
      · simp [hw]
      · simp
      · intro x hx
        exact (h.granted x hx).imp id (mem_cons_of_mem _)
    · simp only [if_neg hq, Option.some.injEq] at hrun
      subst hrun
      refine ⟨_, h.queue hp (Or.inr rfl) (fun _ _ => rfl) ?_⟩
      intro hr hw
      refine hq ⟨?_, ?_⟩
      · rw [h.readers, hr]
        rfl
      · rw [h.writer, hw]
        rfl
  next => cases hrun

/-- The lock is handed to the writer in front by `p`, which is about to make it
ready. -/
theorem RWSys.Inv.hand {x : P} (h : s.Inv ((x, .queueingW) :: ws)) (hp : s.pc p = .running)
    (hnobody : ∀ y, s.pc y ≠ .granted) :
    RWSys.Inv { s with
      q := { s.q with toWaiters := s.q.drop s.procs x, readers := 0, writer := 1 }
      pc := update (update s.pc x .granted) p (.waking x)
      rheld := []
      wheld := [x]
      served := s.served ++ [[(x, .queueingW)]] } ws := by
  obtain ⟨_, hx, hstate⟩ := h.first
  have hnodup := h.rep.chain.head_not_mem
  refine ⟨h.rep.drop, ?_, ?_, ?_, ?_, rfl, rfl, Nat.le_refl _, fun _ => rfl, ?_, ?_, ?_, ?_⟩
  · intro y
    have hold := h.queued y
    simp only [addrs_cons, mem_cons] at hold
    grind
  · intro c hc
    exact h.kind c (mem_cons_of_mem _ hc)
  · simp [h.fifo]
  · intro b hb
    rcases List.mem_append.mp hb with hb | hb
    · exact h.batches b hb
    · rw [List.mem_singleton.mp hb]
      exact Or.inl ⟨x, rfl⟩
  · simp
  · simp
  · intro y hy
    have hold := hnobody y
    grind
  · exact h.wakes.grant hp hx (by rw [hstate]; simp)

/-- The last reader leaves, or another one, or nobody waits: an unlock does not
panic, for the writer in front waits for the readers. -/
theorem RWSys.Inv.act_runlock (h : s.Inv ws) (hheld : p ∈ s.rheld) (hp : s.pc p = .running) :
    ∃ s' ws', s.act (.runlock p) = some s' ∧ s'.Inv ws' := by
  have hlen : (s.rheld.erase p).length = s.rheld.length - 1 := length_erase_of_mem hheld
  have hpos := length_pos_of_mem hheld
  have hno := h.wheld_nil hheld
  have hreaders : s.q.readers - 1 = (s.rheld.erase p).length := by
    rw [h.readers, hlen]
    omega
  have hgranted : ∀ y, s.pc y = .granted → y ∈ s.rheld.erase p := by
    intro y hy
    have hyp : y ≠ p := by
      rintro rfl
      rw [hp] at hy
      cases hy
    rcases h.granted y hy with hr | hw
    · exact (mem_erase_of_ne hyp).mpr hr
    · rw [hno] at hw
      cases hw
  have hstay : s.rheld.erase p ≠ [] ∨ ws = [] →
      RWSys.Inv { s with q := { s.q with readers := s.q.readers - 1 }, rheld := s.rheld.erase p } ws := by
    intro hor
    refine ⟨h.rep, h.queued, h.kind, h.fifo, h.batches, hreaders, h.writer, h.one, ?_, ?_, ?_, ?_, h.wakes⟩
    · intro hne
      exact absurd hno hne
    · intro _ c hc
      exact h.front (ne_nil_of_mem hheld) c hc
    · intro hnil _
      exact hor.resolve_left (fun hne => hne hnil)
    · intro y hy
      exact Or.inl (hgranted y hy)
  simp only [RWSys.act, hp, Qlock.runlock]
  cases ws with
  | nil =>
    rw [h.rep.nil_iff.mpr rfl]
    exact ⟨_, [], rfl, hstay (Or.inr rfl)⟩
  | cons c ws =>
    obtain ⟨x, st⟩ := c
    have hst : st = .queueingW := h.front (ne_nil_of_mem hheld) (x, st) rfl
    subst hst
    obtain ⟨hhead, _, hstate⟩ := h.first
    rw [hhead]
    by_cases hmore : 0 < s.q.readers - 1
    · simp only [if_pos hmore]
      refine ⟨_, _, rfl, hstay (Or.inl ?_)⟩
      intro hnil
      rw [hreaders, hnil] at hmore
      simp at hmore
    · have hnil : s.rheld.erase p = [] := by
        apply List.length_eq_zero_iff.mp
        omega
      simp only [if_neg hmore, hstate, if_true]
      refine ⟨_, ws, rfl, ?_⟩
      have hnobody : ∀ y, s.pc y ≠ .granted := by
        intro y hy
        have hmem := hgranted y hy
        rw [hnil] at hmem
        cases hmem
      have hinv := h.hand hp hnobody
      rw [hnil] at hreaders
      simpa [hnil, hno, hreaders] using hinv

/-- All the readers in front are made ready and get the lock. -/
theorem RWSys.Inv.hand_readers (h : s.Inv ws) (hnobody : ∀ y, s.pc y ≠ .granted)
    (hsome : frontReaders ws ≠ []) {q : RWlock P}
    (hhead : q.head = (addrs (behindReaders ws)).head?)
    (htail : q.tail = if q.head.isNone then none else s.q.tail)
    (hreaders : q.readers = (frontReaders ws).length) (hwriter : q.writer = 0) :
    RWSys.Inv { s with
      q
      procs := makeAllReady s.procs (addrs (frontReaders ws))
      pc := fun x => if x ∈ addrs (frontReaders ws) then .granted else s.pc x
      rheld := addrs (frontReaders ws)
      wheld := []
      served := s.served ++ [(addrs (frontReaders ws)).map fun x => (x, .queueingR)] }
      (behindReaders ws) := by
  have happ := frontReaders_append ws
  have hbatch : ((addrs (frontReaders ws)).map fun x => (x, ProcState.queueingR)) = frontReaders ws := by
    unfold addrs
    rw [List.map_map]
    refine (map_congr_left fun c hc => ?_).trans (List.map_id _)
    exact Prod.ext rfl (frontReaders_kind hc).symm
  have hchain := h.rep.chain
  have hnodup := hchain.nodup
  rw [← happ, addrs_append] at hnodup
  have hdisj := disjoint_of_nodup_append hnodup
  refine ⟨⟨?_, ?_⟩, ?_, ?_, ?_, ?_, ?_, hwriter, Nat.zero_le _, fun hne => absurd rfl hne, ?_, ?_, ?_, ?_⟩
  · -- the rest of the chain is not touched
    rw [← happ] at hchain
    obtain ⟨m, _, hrest⟩ := seg_append.mp hchain
    have hm : m = (addrs (behindReaders ws)).head? := by
      cases hb : behindReaders ws with
      | nil =>
        rw [hb] at hrest
        exact hrest
      | cons c l =>
        rw [hb] at hrest
        exact hrest.1
    rw [hhead, ← hm]
    apply Chain.frame hrest
    intro x hx
    have hsame : makeAllReady s.procs (addrs (frontReaders ws)) x = s.procs x :=
      makeAllReady_of_not_mem (fun hf => hdisj hf hx)
    simp only [cells, hsame]
  · rw [htail, hhead, h.rep.tail]
    cases hb : behindReaders ws with
    | nil => rfl
    | cons c l =>
      rw [← happ, hb, addrs_append, List.getLast?_append_of_ne_nil _ (by simp)]
      rfl
  · intro x
    have hold := h.queued x
    rw [← happ, addrs_append, mem_append] at hold
    have hx := @hdisj x
    grind
  · intro c hc
    exact h.kind c (by rw [← happ]; exact mem_append_right _ hc)
  · rw [hbatch, h.fifo]
    simp [happ]
  · intro b hb
    rcases List.mem_append.mp hb with hb | hb
    · exact h.batches b hb
    · rw [List.mem_singleton.mp hb, hbatch]
      exact Or.inr ⟨hsome, fun c hc => frontReaders_kind hc⟩
  · simp [hreaders, addrs]
  · -- the first one behind is no reader
    intro _ c hc
    have hmem : c ∈ ws := by
      rw [← happ]
      exact mem_append_right _ (mem_of_mem_head? hc)
    rcases h.kind c hmem with hr | hw
    · have hnot := List.head?_dropWhile_not (fun c : P × ProcState => decide (c.2 = .queueingR)) ws
      unfold behindReaders at hc
      rw [Option.mem_def.mp hc] at hnot
      simp [hr] at hnot
    · exact hw
  · intro hnil
    simp only [addrs, map_eq_nil_iff] at hnil
    exact absurd hnil hsome
  · intro y hy
    have hold := hnobody y
    grind
  · constructor
    · intro y x hy
      have hold := h.wakes.asleep y x
      have hno := hnobody x
      grind
    · intro y y' x hy hy'
      have hold := h.wakes.one y y' x
      grind

/-- An unlock by the writer does not panic: only readers and writers wait. -/
theorem RWSys.Inv.act_wunlock (h : s.Inv ws) (hheld : p ∈ s.wheld) (hp : s.pc p = .running) :
    ∃ s' ws', s.act (.wunlock p) = some s' ∧ s'.Inv ws' := by
  obtain ⟨hone, hnone⟩ := h.wheld_eq hheld
  have hnobody : ∀ y, s.pc y ≠ .granted := by
    intro y hy
    rcases h.granted y hy with hr | hw
    · rw [hnone] at hr
      cases hr
    · rw [hone, mem_singleton] at hw
      rw [hw, hp] at hy
      cases hy
  have hreaders : s.q.readers = 0 := by
    rw [h.readers, hnone]
    rfl
  have hwriter : s.q.writer = 1 := by
    rw [h.writer, hone]
    rfl
  simp only [RWSys.act, hp, Qlock.wunlock]
  cases ws with
  | nil =>
    rw [h.rep.nil_iff.mpr rfl]
    refine ⟨_, [], rfl, h.rep, h.queued, h.kind, h.fifo, h.batches, h.readers, ?_, ?_, fun _ => hnone,
      h.front, fun _ _ => rfl, ?_, h.wakes⟩
    · simp [hone]
    · simp [hone]
    · intro y hy
      exact absurd hy (hnobody y)
  | cons c ws =>
    obtain ⟨x, st⟩ := c
    rcases h.kind (x, st) mem_cons_self with hst | hst
    · -- readers in front
      simp only at hst
      subst hst
      obtain ⟨hhead, _, hstate⟩ := h.first
      rw [hhead]
      simp only [hstate, wakeReaders_spec h.rep.chain, Option.bind_eq_bind, Option.bind_some, Option.pure_def]
      refine ⟨_, behindReaders ((x, .queueingR) :: ws), rfl, ?_⟩
      simp only [hone, hnone, erase_cons_head, append_nil]
      exact h.hand_readers hnobody (by simp [frontReaders]) rfl rfl (by simp [hreaders]) rfl
    · simp only at hst
      subst hst
      obtain ⟨hhead, _, hstate⟩ := h.first
      rw [hhead]
      simp only [hstate]
      refine ⟨_, ws, rfl, ?_⟩
      have hinv := h.hand hp hnobody
      simpa [hone, hnone, hreaders, hwriter] using hinv

theorem RWSys.Inv.act_ready (h : s.Inv ws) (hrun : s.act (.ready p) = some s') :
    ∃ ws', s'.Inv ws' := by
  simp only [RWSys.act] at hrun
  split at hrun
  next x hp =>
    cases hrun
    obtain ⟨hx, _⟩ := h.wakes.asleep p x hp
    have hmem : x ∉ addrs ws := by
      rw [h.queued, hx]
      simp
    refine ⟨ws, h.rep.update_ne hmem, ?_, h.kind, h.fifo, h.batches, h.readers, h.writer, h.one,
      h.excl, h.front, h.free, ?_, h.wakes.woken hp⟩
    · intro y
      have hold := h.queued y
      grind
    · intro y hy
      have hold := h.granted y
      grind
  next => cases hrun

theorem RWSys.Inv.act_resume (h : s.Inv ws) (hrun : s.act (.resume p) = some s') :
    ∃ ws', s'.Inv ws' := by
  simp only [RWSys.act] at hrun
  split at hrun
  next hp hready => exact absurd hready (h.queued_state hp)
  next hp hready =>
    cases hrun
    have hmem : p ∉ addrs ws := by
      rw [h.queued, hp]
      simp
    refine ⟨ws, h.rep.update_ne hmem, ?_, h.kind, h.fifo, h.batches, h.readers, h.writer, h.one,
      h.excl, h.front, h.free, ?_, h.wakes.resume hready⟩
    · intro y
      have hold := h.queued y
      grind
    · intro y hy
      have hold := h.granted y
      grind
  next => cases hrun

theorem RWSys.Inv.act_env {x : Proc P} (h : s.Inv ws) (hrun : s.act (.env p x) = some s') :
    ∃ ws', s'.Inv ws' := by
  simp only [RWSys.act] at hrun
  split at hrun
  next hp =>
    cases hrun
    exact ⟨ws, h.rep.update_ne (h.not_mem hp), h.queued, h.kind, h.fifo, h.batches, h.readers,
      h.writer, h.one, h.excl, h.front, h.free, h.granted, h.wakes.env hp x⟩
  next => cases hrun

theorem RWSys.Inv.step {a : RWAct P} (h : s.Inv ws) (hstep : s.Step a s') :
    ∃ ws', s'.Inv ws' := by
  obtain ⟨hallowed, hrun⟩ := hstep
  have hrunning : ∀ {p}, a = .runlock p ∨ a = .wunlock p → s.pc p = .running := by
    intro p ha
    rcases ha with rfl | rfl
    all_goals
      simp only [RWSys.act] at hrun
      split at hrun
      next hp => exact hp
      next => cases hrun
  cases a with
  | rlock p => exact h.act_rlock hrun
  | canrlock p => exact h.act_canrlock hrun
  | runlock p =>
    obtain ⟨t, ws', ht, hinv⟩ := h.act_runlock hallowed (hrunning (Or.inl rfl))
    rw [ht] at hrun
    cases hrun
    exact ⟨ws', hinv⟩
  | wlock p => exact h.act_wlock hrun
  | wunlock p =>
    obtain ⟨t, ws', ht, hinv⟩ := h.act_wunlock hallowed (hrunning (Or.inr rfl))
    rw [ht] at hrun
    cases hrun
    exact ⟨ws', hinv⟩
  | ready p => exact h.act_ready hrun
  | resume p => exact h.act_resume hrun
  | env p x => exact h.act_env hrun

theorem RWSys.Inv.ok (h : s.Inv ws) : s.Ok := by
  refine ⟨h.one, h.excl, ⟨ws, h.rep, h.queued, h.kind, h.front, h.fifo⟩, h.batches, h.granted, ?_, ?_, ?_⟩
  · intro hr hw p hp
    have hmem := (h.queued p).mpr hp
    rw [h.free hr hw] at hmem
    cases hmem
  · intro p hheld hp
    obtain ⟨t, _, ht, _⟩ := h.act_runlock hheld hp
    rw [ht]
    rfl
  · intro p hheld hp
    obtain ⟨t, _, ht, _⟩ := h.act_wunlock hheld hp
    rw [ht]
    rfl

/-- **An `RWlock` in any run**: see `RWSys.Ok`. -/
theorem RWSys.ok_of_reach (hr : Reach RWSys.Fresh RWSys.Step s) : s.Ok := by
  have hinv : ∃ ws, s.Inv ws := by
    refine hr.invariant (fun s => ∃ ws, s.Inv ws) ?_ ?_
    · intro s hs
      exact ⟨[], hs.inv⟩
    · intro s a t h hstep
      obtain ⟨ws, hws⟩ := h
      exact hws.step hstep
  obtain ⟨ws, hws⟩ := hinv
  exact hws.ok

end

/-- **Locks in any run.**  Whatever the processes that use a `QLock` or an `RWlock` do
and in whatever order their sections run, the lock keeps its promises. -/
theorem locks_ok {P : Type*} [DecidableEq P] :
    (∀ s : QSys P, Reach QSys.Fresh QSys.Step s → s.Ok) ∧
      ∀ s : RWSys P, Reach RWSys.Fresh RWSys.Step s → s.Ok :=
  ⟨fun _ => QSys.ok_of_reach, fun _ => RWSys.ok_of_reach⟩

/-- Process 1 waits for process 0, which hands it the lock. -/
theorem locks_ok_handed :
    ∃ (s : QSys Nat) (t : RWSys Nat), s.came = [1] ∧ s.held = [1] ∧ s.Ok ∧
      t.came = [(1, .queueingW)] ∧ t.wheld = [1] ∧ t.Ok := by
  have hq₀ : Reach QSys.Fresh QSys.Step
      (⟨{}, fun _ => ⟨.running, none⟩, fun _ => .running, [], [], []⟩ : QSys Nat) :=
    Reach.start ⟨rfl, fun _ => rfl, rfl, rfl, rfl⟩
  have hq₁ := hq₀.next (i := QAct.qlock 0) ⟨trivial, rfl⟩
  have hq₂ := hq₁.next (i := QAct.qlock 1) ⟨trivial, rfl⟩
  have hq₃ := hq₂.next (i := QAct.qunlock 0) ⟨mem_cons_self, rfl⟩
  have hr₀ : Reach RWSys.Fresh RWSys.Step
      (⟨{}, fun _ => ⟨.running, none⟩, fun _ => .running, [], [], [], []⟩ : RWSys Nat) :=
    Reach.start ⟨rfl, fun _ => rfl, rfl, rfl, rfl, rfl⟩
  have hr₁ := hr₀.next (i := RWAct.rlock 0) ⟨trivial, rfl⟩
  have hr₂ := hr₁.next (i := RWAct.wlock 1) ⟨trivial, rfl⟩
  have hr₃ := hr₂.next (i := RWAct.runlock 0) ⟨mem_cons_self, rfl⟩
  exact ⟨_, _, rfl, rfl, locks_ok.1 _ hq₃, rfl, rfl, locks_ok.2 _ hr₃⟩

end Qlock
