import NixKernel.SpinLock
import NixKernel.StepSystem

/-!
# Sleep, wakeup and postnote: `port/proc.c`

Processes call `sleep`; anybody, an interrupt handler included, calls `wakeup`
and `postnote`, so the callers of these are a type of their own.  Every lock
operation is a step, and so is every read of a shared pointer on which a later
lock depends; the assignments made between, under both the lock of the Rendez
and the process's `rlock`, belong to the step they follow.

A condition `f(arg)` may change at any time; `cond r` is its value for the
process that uses `r`.  The record keeping of the notes, their texts included, is
left out, and so is what `postnote` does for a process in a rendezvous.
-/

namespace Rendez

open SpinLock StepSystem
open Function (update update_of_ne update_apply)

set_option linter.unusedSectionVars false

variable {P R A : Type*}

/-- `Proc.state`. -/
inductive PState
  | running
  | wakeme
  | ready
  deriving DecidableEq

/-- Where a process is in `sleep(r, f, arg)`. -/
inductive Pc (R : Type*)
  | idle
  /-- At `lock(r)`. -/
  | start (r : R)
  /-- At `lock(&up->rlock)`. -/
  | gotR (r : R)
  /-- At `r->p = up`. -/
  | gotBoth (r : R)
  /-- At the test. -/
  | posted (r : R)
  /-- The process does not sleep: at `unlock(&up->rlock)` and at `unlock(r)`. -/
  | leaving (r : R)
  | leaving2 (r : R)
  /-- The process goes to sleep: at `unlock(&up->rlock)` and at `unlock(r)`. -/
  | committed (r : R)
  | committed2 (r : R)
  /-- After `gotolabel(&m->sched)`. -/
  | asleep (r : R)
  /-- At the last test of `notepending`. -/
  | awake (r : R)

/-- Where a caller is in `wakeup(r)` or in the loop of `postnote(p)`. -/
inductive Apc (P R : Type*)
  | idle
  /-- At `lock(r)`. -/
  | wStart (r : R)
  /-- At `p = r->p`. -/
  | wGotR (r : R)
  /-- At `lock(&p->rlock)`. -/
  | wSeen (r : R) (p : P)
  /-- At the test of `p->state` and `p->r`. -/
  | wGotBoth (r : R) (p : P)
  /-- At `unlock(&p->rlock)`. -/
  | wDone (r : R) (p : P)
  /-- At `unlock(r)`. -/
  | wLeave (r : R)
  /-- At `p->notepending = 1`. -/
  | nStart (p : P)
  /-- At `lock(&p->rlock)`. -/
  | nLoop (p : P)
  /-- At `r = p->r`. -/
  | nGotP (p : P)
  /-- At `canlock(r)`. -/
  | nSeen (p : P) (r : R)
  /-- At the test of `p->state` and `r->p`. -/
  | nGotBoth (p : P) (r : R)
  /-- At `unlock(r)`. -/
  | nDone (p : P) (r : R)
  /-- At the `unlock(&p->rlock)` behind the loop. -/
  | nLeave (p : P)
  /-- At the `unlock(&p->rlock)` before trying again. -/
  | nRetry (p : P)
  | panicked

/-- The shared state.  `woken p` counts the `ready(p)` since `p` called `sleep`;
`heard r` is set when a `wakeup(r)` ends while the condition holds, and reset
when the condition fails. -/
structure Sys (P R A : Type*) where
  rp : R → Option P
  rlk : R → Option (P ⊕ A)
  pr : P → Option R
  plk : P → Option (P ⊕ A)
  state : P → PState
  notepending : P → Bool
  cond : R → Bool
  pc : P → Pc R
  apc : A → Apc P R
  woken : P → Nat
  heard : R → Bool

inductive Act (P R A : Type*)
  | sleep (p : P) (r : R)
  | proc (p : P)
  | wakeup (a : A) (r : R)
  | postnote (a : A) (p : P)
  | agent (a : A)
  | cond (r : R) (b : Bool)

section

variable [DecidableEq P] [DecidableEq R] [DecidableEq A]

/-- The next step of a process in `sleep`. -/
def Sys.proc (s : Sys P R A) (p : P) : Option (Sys P R A) :=
  match s.pc p with
  | .idle => none
  | .start r =>
    match s.rlk r with
    | none => some { s with rlk := update s.rlk r (some (.inl p)), pc := update s.pc p (.gotR r) }
    | some _ => none
  | .gotR r =>
    match s.plk p with
    | none => some { s with plk := update s.plk p (some (.inl p)), pc := update s.pc p (.gotBoth r) }
    | some _ => none
  | .gotBoth r => some { s with rp := update s.rp r (some p), pc := update s.pc p (.posted r) }
  | .posted r =>
    if s.cond r || s.notepending p then
      -- never mind
      some { s with rp := update s.rp r none, pc := update s.pc p (.leaving r) }
    else
      some { s with
        state := update s.state p .wakeme
        pr := update s.pr p (some r)
        pc := update s.pc p (.committed r) }
  | .leaving r => some { s with plk := update s.plk p none, pc := update s.pc p (.leaving2 r) }
  | .leaving2 r => some { s with rlk := update s.rlk r none, pc := update s.pc p (.awake r) }
  | .committed r => some { s with plk := update s.plk p none, pc := update s.pc p (.committed2 r) }
  | .committed2 r => some { s with rlk := update s.rlk r none, pc := update s.pc p (.asleep r) }
  | .asleep r =>
    match s.state p with
    | .ready => some { s with state := update s.state p .running, pc := update s.pc p (.awake r) }
    | _ => none
  -- with `error(Eintr)` if it was set
  | .awake _ => some { s with notepending := update s.notepending p false, pc := update s.pc p .idle }

/-- `r->p = nil; p->r = nil; ready(p)`, as `wakeup` and `postnote` do under both
locks. -/
def Sys.wake (s : Sys P R A) (r : R) (p : P) : Sys P R A :=
  { s with
    rp := update s.rp r none
    pr := update s.pr p none
    state := update s.state p .ready
    woken := update s.woken p (s.woken p + 1) }

/-- The next step of a caller of `wakeup` or `postnote`. -/
def Sys.agent (s : Sys P R A) (a : A) : Option (Sys P R A) :=
  match s.apc a with
  | .idle | .panicked => none
  | .wStart r =>
    match s.rlk r with
    | none => some { s with rlk := update s.rlk r (some (.inr a)), apc := update s.apc a (.wGotR r) }
    | some _ => none
  | .wGotR r =>
    match s.rp r with
    | none => some { s with apc := update s.apc a (.wLeave r) }
    | some p => some { s with apc := update s.apc a (.wSeen r p) }
  | .wSeen r p =>
    match s.plk p with
    | none =>
      some { s with plk := update s.plk p (some (.inr a)), apc := update s.apc a (.wGotBoth r p) }
    | some _ => none
  | .wGotBoth r p =>
    if s.state p ≠ .wakeme ∨ s.pr p ≠ some r then
      some { s with apc := update s.apc a .panicked }
    else some { s.wake r p with apc := update s.apc a (.wDone r p) }
  | .wDone r p => some { s with plk := update s.plk p none, apc := update s.apc a (.wLeave r) }
  | .wLeave r =>
    some { s with
      rlk := update s.rlk r none
      apc := update s.apc a .idle
      heard := update s.heard r (s.cond r) }
  | .nStart p =>
    some { s with notepending := update s.notepending p true, apc := update s.apc a (.nLoop p) }
  | .nLoop p =>
    match s.plk p with
    | none => some { s with plk := update s.plk p (some (.inr a)), apc := update s.apc a (.nGotP p) }
    | some _ => none
  | .nGotP p =>
    match s.pr p with
    | none => some { s with apc := update s.apc a (.nLeave p) }
    | some r => some { s with apc := update s.apc a (.nSeen p r) }
  | .nSeen p r =>
    match s.rlk r with
    | none =>
      some { s with rlk := update s.rlk r (some (.inr a)), apc := update s.apc a (.nGotBoth p r) }
    | some _ => some { s with apc := update s.apc a (.nRetry p) }
  | .nGotBoth p r =>
    if s.state p ≠ .wakeme ∨ s.rp r ≠ some p then
      some { s with apc := update s.apc a .panicked }
    else some { s.wake r p with apc := update s.apc a (.nDone p r) }
  | .nDone p r => some { s with rlk := update s.rlk r none, apc := update s.apc a (.nLeave p) }
  | .nLeave p => some { s with plk := update s.plk p none, apc := update s.apc a .idle }
  | .nRetry p => some { s with plk := update s.plk p none, apc := update s.apc a (.nLoop p) }

/-- One step. -/
def Sys.act (s : Sys P R A) : Act P R A → Option (Sys P R A)
  | .sleep p r =>
    match s.pc p with
    | .idle => some { s with pc := update s.pc p (.start r), woken := update s.woken p 0 }
    | _ => none
  | .proc p => s.proc p
  | .wakeup a r =>
    match s.apc a with
    | .idle => some { s with apc := update s.apc a (.wStart r) }
    | _ => none
  | .postnote a p =>
    match s.apc a with
    | .idle => some { s with apc := update s.apc a (.nStart p) }
    | _ => none
  | .agent a => s.agent a
  | .cond r b =>
    some { s with cond := update s.cond r b, heard := update s.heard r (s.heard r && b) }

end

/-- The Rendez of a process in `sleep`. -/
def Pc.rendez : Pc R → Option R
  | .idle => none
  | .start r | .gotR r | .gotBoth r | .posted r | .leaving r | .leaving2 r | .committed r
  | .committed2 r | .asleep r | .awake r => some r

/-- A Rendez has one sleeper at a time. -/
def Sys.Allowed (s : Sys P R A) : Act P R A → Prop
  | .sleep _ r => ∀ q, (s.pc q).rendez ≠ some r
  | _ => True

def Sys.Step [DecidableEq P] [DecidableEq R] [DecidableEq A] (s : Sys P R A) (a : Act P R A)
    (s' : Sys P R A) : Prop := s.Allowed a ∧ s.act a = some s'

/-- Nobody sleeps, and nobody calls `wakeup` or `postnote`. -/
structure Sys.Fresh (s : Sys P R A) : Prop where
  rp : ∀ r, s.rp r = none
  rlk : ∀ r, s.rlk r = none
  pr : ∀ p, s.pr p = none
  plk : ∀ p, s.plk p = none
  state : ∀ p, s.state p = .running
  pc : ∀ p, s.pc p = .idle
  apc : ∀ a, s.apc a = .idle
  woken : ∀ p, s.woken p = 0
  heard : ∀ r, s.heard r = false

/-- The process has committed itself to sleep on `r` and was not made ready. -/
def Sys.Committed (s : Sys P R A) (p : P) (r : R) : Prop :=
  s.state p = .wakeme ∧ (s.pc p = .committed r ∨ s.pc p = .committed2 r ∨ s.pc p = .asleep r)

/-- What `sleep`, `wakeup` and `postnote` promise: outside the critical sections
`p->r` and `r->p` agree; nobody panics, and `sleep` finds the Rendez unused; a
process is made ready at most once per sleep; and nobody is committed to sleep
whose condition became true before a `wakeup` ended. -/
structure Sys.Ok (s : Sys P R A) : Prop where
  linked : ∀ p r, s.rlk r = none ∨ s.plk p = none → (s.pr p = some r ↔ s.rp r = some p)
  unpanicked : ∀ a, s.apc a ≠ .panicked
  single : ∀ p r, s.pc p = .gotBoth r → s.rp r = none
  once : ∀ p, s.woken p ≤ 1
  heard : ∀ p r, s.Committed p r → s.heard r = false

/-- The Rendez whose lock a process holds. -/
def Pc.locksR : Pc R → Option R
  | .gotR r | .gotBoth r | .posted r | .leaving r | .leaving2 r | .committed r | .committed2 r => some r
  | _ => none

/-- Whether a process holds its `rlock`. -/
def Pc.locksP : Pc R → Bool
  | .gotBoth _ | .posted _ | .leaving _ | .committed _ => true
  | _ => false

/-- The Rendez whose lock a caller of `wakeup` or `postnote` holds. -/
def Apc.locksR : Apc P R → Option R
  | .wGotR r | .wSeen r _ | .wGotBoth r _ | .wDone r _ | .wLeave r | .nGotBoth _ r | .nDone _ r => some r
  | _ => none

/-- The process whose `rlock` a caller of `wakeup` or `postnote` holds. -/
def Apc.locksP : Apc P R → Option P
  | .wGotBoth _ p | .wDone _ p | .nGotP p | .nSeen p _ | .nGotBoth p _ | .nDone p _ | .nLeave p
  | .nRetry p => some p
  | _ => none

/-- The Rendez whose lock a party holds. -/
def holdsR (pc : P → Pc R) (apc : A → Apc P R) : P ⊕ A → Option R
  | .inl p => (pc p).locksR
  | .inr a => (apc a).locksR

/-- The process whose `rlock` a party holds. -/
def holdsP (pc : P → Pc R) (apc : A → Apc P R) : P ⊕ A → Option P
  | .inl p => if (pc p).locksP then some p else none
  | .inr a => (apc a).locksP

/-- Locks are held by those whose program counters say so. -/
structure Sys.Locks (s : Sys P R A) : Prop where
  rendez : Held s.rlk (holdsR s.pc s.apc)
  rlock : Held s.plk (holdsP s.pc s.apc)

/-- How `p->r`, `r->p` and `p->state` go together. -/
structure Sys.Links (s : Sys P R A) : Prop where
  of_pr : ∀ p r, s.pr p = some r → s.state p = .wakeme ∧ s.rp r = some p ∧
    (s.pc p = .committed r ∨ s.pc p = .committed2 r ∨ s.pc p = .asleep r)
  of_rp : ∀ p r, s.rp r = some p → s.pr p = some r ∨ s.pc p = .posted r
  of_wakeme : ∀ p, s.state p = .wakeme → ∃ r, s.pr p = some r
  posted : ∀ p r, s.pc p = .posted r → s.rp r = some p
  committed : ∀ p r, s.pc p = .committed r ∨ s.pc p = .committed2 r → s.pr p = some r
  single : ∀ p q r, (s.pc p).rendez = some r → (s.pc q).rendez = some r → p = q

/-- What the callers of `wakeup` and `postnote` have seen still holds. -/
structure Sys.Seen (s : Sys P R A) : Prop where
  unpanicked : ∀ a, s.apc a ≠ .panicked
  wakeup : ∀ a r p, s.apc a = .wSeen r p ∨ s.apc a = .wGotBoth r p → s.rp r = some p
  woken : ∀ a r p, s.apc a = .wDone r p → s.rp r = none
  leave : ∀ a r, s.apc a = .wLeave r → s.rp r = none
  note : ∀ a r p, s.apc a = .nSeen p r ∨ s.apc a = .nGotBoth p r → s.pr p = some r

/-- `sleep` has not tested the condition yet. -/
def Pc.early : Pc R → Bool
  | .start _ | .gotR _ | .gotBoth _ | .posted _ => true
  | _ => false

/-- The ghost counts. -/
structure Sys.Counts (s : Sys P R A) : Prop where
  once : ∀ p, s.woken p ≤ 1
  woken : ∀ p r, s.pr p = some r → s.woken p = 0
  early : ∀ p, (s.pc p).early = true → s.woken p = 0
  heard : ∀ r, s.heard r = true → s.cond r = true
  unheard : ∀ p r, s.pr p = some r → s.heard r = false

structure Sys.Inv (s : Sys P R A) : Prop where
  locks : s.Locks
  links : s.Links
  seen : s.Seen
  counts : s.Counts

variable {s s' : Sys P R A}

theorem Sys.Inv.ok (h : s.Inv) : s.Ok := by
  refine ⟨?_, h.seen.unpanicked, ?_, h.counts.once, ?_⟩
  · intro p r hfree
    constructor
    · intro hpr
      exact (h.links.of_pr p r hpr).2.1
    · intro hrp
      rcases h.links.of_rp p r hrp with hpr | hpc
      · exact hpr
      · -- a process at the test holds both locks
        have hr : s.rlk r = some (.inl p) := h.locks.rendez.lk_eq (by simp [holdsR, hpc, Pc.locksR])
        have hp : s.plk p = some (.inl p) := h.locks.rlock.lk_eq (by simp [holdsP, hpc, Pc.locksP])
        rcases hfree with hf | hf
        · rw [hf] at hr
          cases hr
        · rw [hf] at hp
          cases hp
  · intro p r hpc
    by_contra hne
    obtain ⟨q, hq⟩ := Option.ne_none_iff_exists'.mp hne
    have hin : (s.pc q).rendez = some r := by
      rcases h.links.of_rp q r hq with hpr | hq
      · rcases (h.links.of_pr q r hpr).2.2 with h | h | h <;> simp [h, Pc.rendez]
      · simp [hq, Pc.rendez]
    have heq : p = q := h.links.single p q r (by rw [hpc]; rfl) hin
    subst heq
    rcases h.links.of_rp p r hq with hpr | hq
    · rcases (h.links.of_pr p r hpr).2.2 with h | h | h <;> simp [h] at hpc
    · simp [hq] at hpc
  · intro p r hc
    obtain ⟨x, hx⟩ := h.links.of_wakeme p hc.1
    have hxr : x = r := by
      rcases (h.links.of_pr p x hx).2.2 with h | h | h <;> rcases hc.2 with h' | h' | h' <;>
        simp_all
    rw [← hxr]
    exact h.counts.unheard p x hx

theorem Sys.Fresh.inv (h : s.Fresh) : s.Inv := by
  obtain ⟨hrp, hrlk, hpr, hplk, hstate, hpc, hapc, hwoken, hheard⟩ := h
  refine ⟨⟨Held.free hrlk ?_, Held.free hplk ?_⟩, ?_, ?_, ?_⟩
  · rintro (p | a) <;> simp [holdsR, hpc, hapc, Pc.locksR, Apc.locksR]
  · rintro (p | a) <;> simp [holdsP, hpc, hapc, Pc.locksP, Apc.locksP]
  all_goals constructor <;> simp [hrp, hpr, hstate, hpc, hapc, hwoken, hheard, Pc.rendez, Pc.early]

section

variable {p : P} {a b : A} {r : R}

theorem Sys.Inv.rendez_apart (h : s.Inv) (hp : (s.pc p).locksR = some r)
    (ha : (s.apc a).locksR = some r) : False := by
  have heq : (Sum.inl p : P ⊕ A) = .inr a := h.locks.rendez.unique hp ha
  cases heq

theorem Sys.Inv.rlock_apart (h : s.Inv) (hp : (s.pc p).locksP = true)
    (ha : (s.apc a).locksP = some p) : False := by
  have heq : (Sum.inl p : P ⊕ A) = .inr a := h.locks.rlock.unique (by simp [holdsP, hp]) ha
  cases heq

theorem Sys.Inv.rendez_same (h : s.Inv) (ha : (s.apc a).locksR = some r)
    (hb : (s.apc b).locksR = some r) : a = b := by
  have heq : (Sum.inr a : P ⊕ A) = .inr b := h.locks.rendez.unique ha hb
  exact Sum.inr.inj heq

theorem Sys.Inv.rlock_same (h : s.Inv) (ha : (s.apc a).locksP = some p)
    (hb : (s.apc b).locksP = some p) : a = b := by
  have heq : (Sum.inr a : P ⊕ A) = .inr b := h.locks.rlock.unique ha hb
  exact Sum.inr.inj heq

/-- What the caller of `wakeup` or `postnote` tests always holds. -/
theorem Sys.Inv.wake_tests (h : s.Inv)
    (ha : s.apc a = .wGotBoth r p ∨ s.apc a = .nGotBoth p r) :
    s.state p = .wakeme ∧ s.pr p = some r ∧ s.rp r = some p := by
  have hlinked : s.pr p = some r := by
    rcases ha with ha | ha
    · rcases h.links.of_rp p r (h.seen.wakeup a r p (Or.inr ha)) with hpr | hpc
      · exact hpr
      · exact (h.rendez_apart (by rw [hpc]; rfl) (by rw [ha]; rfl)).elim
    · exact h.seen.note a r p (Or.inr ha)
  obtain ⟨hstate, hrp, _⟩ := h.links.of_pr p r hlinked
  exact ⟨hstate, hlinked, hrp⟩

end

section

variable [DecidableEq P] [DecidableEq A] {pc : P → Pc R} {apc : A → Apc P R} {p : P} {a : A}

theorem holdsR_pc (x : Pc R) : holdsR (update pc p x) apc =
    update (holdsR pc apc) (.inl p) x.locksR := by
  funext w
  rcases w with q | b
  · by_cases hq : q = p <;> simp [holdsR, hq]
  · rfl

theorem holdsR_apc (x : Apc P R) : holdsR pc (update apc a x) =
    update (holdsR pc apc) (.inr a) x.locksR := by
  funext w
  rcases w with q | b
  · rfl
  · by_cases hb : b = a <;> simp [holdsR, hb]

theorem holdsP_pc (x : Pc R) : holdsP (update pc p x) apc =
    update (holdsP pc apc) (.inl p) (if x.locksP then some p else none) := by
  funext w
  rcases w with q | b
  · by_cases hq : q = p <;> simp [holdsP, hq]
  · rfl

theorem holdsP_apc (x : Apc P R) : holdsP pc (update apc a x) =
    update (holdsP pc apc) (.inr a) x.locksP := by
  funext w
  rcases w with q | b
  · rfl
  · by_cases hb : b = a <;> simp [holdsP, hb]

end

variable [DecidableEq P] [DecidableEq R] [DecidableEq A] {p : P} {a : A} {r : R}

theorem Sys.Inv.locks_proc (h : s.Inv) (hrun : s.proc p = some s') : s'.Locks := by
  have hr := h.locks.rendez
  have hp := h.locks.rlock
  unfold Sys.proc at hrun
  repeat' split at hrun
  all_goals cases hrun
  all_goals constructor
  all_goals simp only [holdsR_pc, holdsP_pc]
  -- each step takes, gives up or keeps each of the two locks
  all_goals first
    | exact Held.move hr (by simp [holdsR, *, Pc.locksR])
    | exact Held.move hp (by simp [holdsP, *, Pc.locksP])
    | exact Held.acquire hr ‹_› (by simp [holdsR, *, Pc.locksR])
    | exact Held.acquire hp ‹_› (by simp [holdsP, *, Pc.locksP])
    | exact Held.release hr (by simp [holdsR, *, Pc.locksR])
    | exact Held.release hp (by simp [holdsP, *, Pc.locksP])

/-- The tests under both locks succeed, and the process is made ready. -/
theorem Sys.Inv.agent_wakes (h : s.Inv) (hrun : s.agent a = some s')
    (ha : s.apc a = .wGotBoth r p ∨ s.apc a = .nGotBoth p r) :
    ∃ x, s' = { s.wake r p with apc := update s.apc a x } ∧
      (x = .wDone r p ∨ x = .nDone p r) := by
  obtain ⟨hstate, hpr, hrp⟩ := h.wake_tests ha
  rcases ha with ha | ha
  all_goals
    simp only [Sys.agent, ha, hstate, hpr, hrp, ne_eq, not_true_eq_false, or_self, if_false,
      Option.some.injEq] at hrun
    subst hrun
  · exact ⟨_, rfl, Or.inl rfl⟩
  · exact ⟨_, rfl, Or.inr rfl⟩

theorem Sys.Inv.locks_agent (h : s.Inv) (hrun : s.agent a = some s') : s'.Locks := by
  have hr := h.locks.rendez
  have hp := h.locks.rlock
  have hwake : ∀ r p, s.apc a = .wGotBoth r p ∨ s.apc a = .nGotBoth p r → s'.Locks := by
    intro r p ha
    obtain ⟨x, rfl, hx⟩ := h.agent_wakes hrun ha
    constructor
    all_goals simp only [holdsR_apc, holdsP_apc, Sys.wake]
    · exact hr.move (by rcases ha with ha | ha <;> rcases hx with rfl | rfl <;> simp [holdsR, ha, Apc.locksR])
    · exact hp.move (by rcases ha with ha | ha <;> rcases hx with rfl | rfl <;> simp [holdsP, ha, Apc.locksP])
  cases hpc : s.apc a with
  | wGotBoth r p => exact hwake r p (Or.inl hpc)
  | nGotBoth p r => exact hwake r p (Or.inr hpc)
  | _ =>
    simp only [Sys.agent, hpc] at hrun
    repeat' split at hrun
    all_goals cases hrun
    all_goals constructor
    all_goals simp only [holdsR_apc, holdsP_apc]
    all_goals first
      | exact Held.move hr (by simp [holdsR, *, Apc.locksR])
      | exact Held.move hp (by simp [holdsP, *, Apc.locksP])
      | exact Held.acquire hr ‹_› (by simp [holdsR, *, Apc.locksR])
      | exact Held.acquire hp ‹_› (by simp [holdsP, *, Apc.locksP])
      | exact Held.release hr (by simp [holdsR, *, Apc.locksR])
      | exact Held.release hp (by simp [holdsP, *, Apc.locksP])

theorem Sys.proc_apc (hrun : s.proc p = some s') : s'.apc = s.apc := by
  unfold Sys.proc at hrun
  repeat' split at hrun
  all_goals cases hrun
  all_goals rfl

/-- `r->p` changes under the lock of `r`. -/
theorem Sys.proc_rp (hrun : s.proc p = some s') (hr : (s.pc p).locksR ≠ some r) :
    s'.rp r = s.rp r := by
  unfold Sys.proc at hrun
  repeat' split at hrun
  all_goals cases hrun
  all_goals grind [Pc.locksR]

/-- `p->r` changes under the `rlock` of `p`. -/
theorem Sys.proc_pr {q : P} (hrun : s.proc p = some s') (hq : (s.pc p).locksP = true → q ≠ p) :
    s'.pr q = s.pr q := by
  unfold Sys.proc at hrun
  repeat' split at hrun
  all_goals cases hrun
  all_goals grind [Pc.locksP]

@[simp, grind =] theorem wake_rp {x : R} :
    (s.wake r p).rp x = if x = r then none else s.rp x := update_apply ..

@[simp, grind =] theorem wake_pr {x : P} :
    (s.wake r p).pr x = if x = p then none else s.pr x := update_apply ..

@[simp, grind =] theorem wake_state {x : P} :
    (s.wake r p).state x = if x = p then .ready else s.state x := update_apply ..

@[simp, grind =] theorem wake_woken {x : P} :
    (s.wake r p).woken x = if x = p then s.woken p + 1 else s.woken x := update_apply ..

@[simp, grind =] theorem wake_pc {x : P} : (s.wake r p).pc x = s.pc x := rfl

@[simp, grind =] theorem wake_cond {x : R} : (s.wake r p).cond x = s.cond x := rfl

@[simp, grind =] theorem wake_heard {x : R} : (s.wake r p).heard x = s.heard x := rfl

theorem Sys.agent_apc {b : A} (hrun : s.agent a = some s') (hb : b ≠ a) : s'.apc b = s.apc b := by
  unfold Sys.agent at hrun
  repeat' split at hrun
  all_goals cases hrun
  all_goals exact update_of_ne hb _ _

theorem Sys.agent_rp (hrun : s.agent a = some s') (hr : (s.apc a).locksR ≠ some r) :
    s'.rp r = s.rp r := by
  unfold Sys.agent at hrun
  repeat' split at hrun
  all_goals cases hrun
  all_goals grind [Apc.locksR]

theorem Sys.agent_pr (hrun : s.agent a = some s') (hp : (s.apc a).locksP ≠ some p) :
    s'.pr p = s.pr p := by
  unfold Sys.agent at hrun
  repeat' split at hrun
  all_goals cases hrun
  all_goals grind [Apc.locksP]

theorem Sys.Inv.links_proc (h : s.Inv) (hrun : s.proc p = some s') : s'.Links := by
  obtain ⟨h1, h2, h3, h4, h5, h6⟩ := h.links
  have hsingle := h.ok.single p
  unfold Sys.proc at hrun
  repeat' split at hrun
  all_goals cases hrun
  all_goals constructor <;> grind [Pc.rendez]

theorem Sys.Links.congr (h : s.Links) (hrp : s'.rp = s.rp) (hpr : s'.pr = s.pr)
    (hstate : s'.state = s.state) (hpc : s'.pc = s.pc) : s'.Links := by
  constructor
  all_goals simp only [hrp, hpr, hstate, hpc]
  exacts [h.of_pr, h.of_rp, h.of_wakeme, h.posted, h.committed, h.single]

/-- Making a process ready takes both links away.  It is asleep, since it does not hold
the lock of the Rendez. -/
theorem Sys.Inv.links_wake (h : s.Inv) (hp : s.pr p = some r) (ha : (s.apc a).locksR = some r) :
    (s.wake r p).Links := by
  obtain ⟨h1, h2, h3, h4, h5, h6⟩ := h.links
  have hasleep : s.pc p = .asleep r := by
    rcases (h1 p r hp).2.2 with hpc | hpc | hpc
    · exact (h.rendez_apart (by rw [hpc]; rfl) ha).elim
    · exact (h.rendez_apart (by rw [hpc]; rfl) ha).elim
    · exact hpc
  have hposted : ∀ q, s.pc q ≠ .posted r := fun q hq => h.rendez_apart (by rw [hq]; rfl) ha
  constructor <;> grind

theorem Sys.Inv.links_agent (h : s.Inv) (hrun : s.agent a = some s') : s'.Links := by
  have hwake : ∀ r p, s.apc a = .wGotBoth r p ∨ s.apc a = .nGotBoth p r → s'.Links := by
    intro r p ha
    obtain ⟨x, rfl, _⟩ := h.agent_wakes hrun ha
    have hlock : (s.apc a).locksR = some r := by
      rcases ha with ha | ha <;> rw [ha] <;> rfl
    exact (h.links_wake (h.wake_tests ha).2.1 hlock).congr rfl rfl rfl rfl
  cases hpc : s.apc a with
  | wGotBoth r p => exact hwake r p (Or.inl hpc)
  | nGotBoth p r => exact hwake r p (Or.inr hpc)
  | _ =>
    simp only [Sys.agent, hpc] at hrun
    repeat' split at hrun
    all_goals cases hrun
    all_goals exact h.links.congr rfl rfl rfl rfl

theorem Sys.Inv.seen_proc (h : s.Inv) (hrun : s.proc p = some s') : s'.Seen := by
  have hapc := Sys.proc_apc hrun
  have hrp : ∀ {a r}, (s.apc a).locksR = some r → s'.rp r = s.rp r := by
    intro a r ha
    exact Sys.proc_rp hrun (fun hp => h.rendez_apart hp ha)
  have hpr : ∀ {a q}, (s.apc a).locksP = some q → s'.pr q = s.pr q := by
    intro a q ha
    apply Sys.proc_pr hrun
    rintro hp rfl
    exact h.rlock_apart hp ha
  constructor
  all_goals rw [hapc]
  · exact h.seen.unpanicked
  · intro a r q ha
    rw [hrp (a := a) (by rcases ha with ha | ha <;> rw [ha] <;> rfl)]
    exact h.seen.wakeup a r q ha
  · intro a r q ha
    rw [hrp (a := a) (by rw [ha]; rfl)]
    exact h.seen.woken a r q ha
  · intro a r ha
    rw [hrp (a := a) (by rw [ha]; rfl)]
    exact h.seen.leave a r ha
  · intro a r q ha
    rw [hpr (a := a) (by rcases ha with ha | ha <;> rw [ha] <;> rfl)]
    exact h.seen.note a r q ha

/-- What the caller that moves has seen. -/
theorem Sys.Inv.seen_own (h : s.Inv) (hrun : s.agent a = some s') :
    s'.apc a ≠ .panicked ∧
      (∀ r p, s'.apc a = .wSeen r p ∨ s'.apc a = .wGotBoth r p → s'.rp r = some p) ∧
      (∀ r p, s'.apc a = .wDone r p → s'.rp r = none) ∧
      (∀ r, s'.apc a = .wLeave r → s'.rp r = none) ∧
      ∀ r p, s'.apc a = .nSeen p r ∨ s'.apc a = .nGotBoth p r → s'.pr p = some r := by
  have hwake : ∀ r p, s.apc a = .wGotBoth r p ∨ s.apc a = .nGotBoth p r → _ :=
    fun r p ha => h.agent_wakes hrun ha
  have hseen := h.seen.wakeup a
  have hwoken := h.seen.woken a
  have hnote := h.seen.note a
  cases hpc : s.apc a with
  | wGotBoth r p =>
    obtain ⟨x, rfl, hx⟩ := hwake r p (Or.inl hpc)
    grind
  | nGotBoth p r =>
    obtain ⟨x, rfl, hx⟩ := hwake r p (Or.inr hpc)
    grind
  | _ =>
    simp only [Sys.agent, hpc] at hrun
    repeat' split at hrun
    all_goals cases hrun
    all_goals grind

theorem Sys.Inv.seen_agent (h : s.Inv) (hrun : s.agent a = some s') : s'.Seen := by
  obtain ⟨hown1, hown2, hown3, hown4, hown5⟩ := h.seen_own hrun
  have hrp : ∀ {b r}, b ≠ a → (s.apc b).locksR = some r → s'.rp r = s.rp r := by
    intro b r hb hlock
    exact Sys.agent_rp hrun (fun ha => hb (h.rendez_same hlock ha))
  have hpr : ∀ {b q}, b ≠ a → (s.apc b).locksP = some q → s'.pr q = s.pr q := by
    intro b q hb hlock
    exact Sys.agent_pr hrun (fun ha => hb (h.rlock_same hlock ha))
  constructor
  · intro b
    by_cases hb : b = a
    · exact hb ▸ hown1
    · rw [Sys.agent_apc hrun hb]
      exact h.seen.unpanicked b
  · intro b r q hpc
    by_cases hb : b = a
    · exact hown2 r q (hb ▸ hpc)
    · rw [Sys.agent_apc hrun hb] at hpc
      rw [hrp hb (by rcases hpc with hpc | hpc <;> rw [hpc] <;> rfl)]
      exact h.seen.wakeup b r q hpc
  · intro b r q hpc
    by_cases hb : b = a
    · exact hown3 r q (hb ▸ hpc)
    · rw [Sys.agent_apc hrun hb] at hpc
      rw [hrp hb (by rw [hpc]; rfl)]
      exact h.seen.woken b r q hpc
  · intro b r hpc
    by_cases hb : b = a
    · exact hown4 r (hb ▸ hpc)
    · rw [Sys.agent_apc hrun hb] at hpc
      rw [hrp hb (by rw [hpc]; rfl)]
      exact h.seen.leave b r hpc
  · intro b r q hpc
    by_cases hb : b = a
    · exact hown5 r q (hb ▸ hpc)
    · rw [Sys.agent_apc hrun hb] at hpc
      rw [hpr hb (by rcases hpc with hpc | hpc <;> rw [hpc] <;> rfl)]
      exact h.seen.note b r q hpc

theorem Sys.Inv.counts_proc (h : s.Inv) (hrun : s.proc p = some s') : s'.Counts := by
  obtain ⟨h1, h2, h3, h4, h5⟩ := h.counts
  unfold Sys.proc at hrun
  repeat' split at hrun
  all_goals cases hrun
  all_goals constructor <;> grind [Pc.early]

theorem Sys.Counts.congr (h : s.Counts) (hpr : s'.pr = s.pr) (hpc : s'.pc = s.pc)
    (hcond : s'.cond = s.cond) (hwoken : s'.woken = s.woken) (hheard : s'.heard = s.heard) :
    s'.Counts := by
  constructor
  all_goals simp only [hpr, hpc, hcond, hwoken, hheard]
  exacts [h.once, h.woken, h.early, h.heard, h.unheard]

/-- The process made ready had not been made ready since it went to sleep. -/
theorem Sys.Inv.counts_wake (h : s.Inv) (hp : s.pr p = some r) : (s.wake r p).Counts := by
  obtain ⟨h1, h2, h3, h4, h5⟩ := h.counts
  have hzero := h2 p r hp
  have hlate : (s.pc p).early = false := by
    rcases (h.links.of_pr p r hp).2.2 with hpc | hpc | hpc <;> rw [hpc] <;> rfl
  constructor <;> grind

/-- A `wakeup` that ends finds nobody linked to the Rendez. -/
theorem Sys.Inv.counts_agent (h : s.Inv) (hrun : s.agent a = some s') : s'.Counts := by
  have hwake : ∀ r p, s.apc a = .wGotBoth r p ∨ s.apc a = .nGotBoth p r → s'.Counts := by
    intro r p ha
    obtain ⟨x, rfl, _⟩ := h.agent_wakes hrun ha
    exact (h.counts_wake (h.wake_tests ha).2.1).congr rfl rfl rfl rfl rfl
  cases hpc : s.apc a with
  | wGotBoth r p => exact hwake r p (Or.inl hpc)
  | nGotBoth p r => exact hwake r p (Or.inr hpc)
  | wLeave r =>
    have hnobody : ∀ p, s.pr p ≠ some r := by
      intro p hp
      have hrp := (h.links.of_pr p r hp).2.1
      rw [h.seen.leave a r hpc] at hrp
      cases hrp
    simp only [Sys.agent, hpc, Option.some.injEq] at hrun
    subst hrun
    obtain ⟨h1, h2, h3, h4, h5⟩ := h.counts
    constructor <;> grind
  | _ =>
    simp only [Sys.agent, hpc] at hrun
    repeat' split at hrun
    all_goals cases hrun
    all_goals exact h.counts.congr rfl rfl rfl rfl rfl

theorem Sys.Seen.congr (h : s.Seen) (hrp : s'.rp = s.rp) (hpr : s'.pr = s.pr)
    (hapc : s'.apc = s.apc) : s'.Seen := by
  constructor
  all_goals simp only [hrp, hpr, hapc]
  exacts [h.unpanicked, h.wakeup, h.woken, h.leave, h.note]

theorem Sys.Inv.act_sleep (h : s.Inv) (hp : s.pc p = .idle)
    (hsingle : ∀ q, (s.pc q).rendez ≠ some r) :
    Sys.Inv { s with
      pc := update s.pc p (.start r)
      woken := update s.woken p 0 } := by
  refine ⟨⟨?_, ?_⟩, ?_, h.seen.congr rfl rfl rfl, ?_⟩
  · simp only [holdsR_pc]
    exact h.locks.rendez.move (by simp [holdsR, hp, Pc.locksR])
  · simp only [holdsP_pc]
    exact h.locks.rlock.move (by simp [holdsP, hp, Pc.locksP])
  · obtain ⟨h1, h2, h3, h4, h5, h6⟩ := h.links
    constructor <;> grind [Pc.rendez]
  · obtain ⟨h1, h2, h3, h4, h5⟩ := h.counts
    constructor <;> grind [Pc.early]

/-- A caller starts: it holds no lock and has seen nothing. -/
theorem Sys.Inv.act_call (h : s.Inv) (ha : s.apc a = .idle) {x : Apc P R}
    (hx : (∃ r, x = .wStart r) ∨ ∃ p, x = .nStart p) :
    Sys.Inv { s with apc := update s.apc a x } := by
  refine ⟨⟨?_, ?_⟩, h.links.congr rfl rfl rfl rfl, ?_, h.counts.congr rfl rfl rfl rfl rfl⟩
  · simp only [holdsR_apc]
    exact h.locks.rendez.move (by rcases hx with ⟨_, rfl⟩ | ⟨_, rfl⟩ <;> simp [holdsR, ha, Apc.locksR])
  · simp only [holdsP_apc]
    exact h.locks.rlock.move (by rcases hx with ⟨_, rfl⟩ | ⟨_, rfl⟩ <;> simp [holdsP, ha, Apc.locksP])
  · obtain ⟨h1, h2, h3, h4, h5⟩ := h.seen
    constructor <;> grind

theorem Sys.Inv.act_cond {b : Bool} (h : s.Inv) :
    Sys.Inv { s with
      cond := update s.cond r b
      heard := update s.heard r (s.heard r && b) } := by
  refine ⟨⟨h.locks.rendez, h.locks.rlock⟩, h.links.congr rfl rfl rfl rfl, h.seen.congr rfl rfl rfl, ?_⟩
  obtain ⟨h1, h2, h3, h4, h5⟩ := h.counts
  constructor <;> grind

theorem Sys.Inv.step {x : Act P R A} (h : s.Inv) (hstep : s.Step x s') : s'.Inv := by
  obtain ⟨hallowed, hrun⟩ := hstep
  cases x with
  | sleep p r =>
    simp only [Sys.act] at hrun
    split at hrun
    next hp =>
      cases hrun
      exact h.act_sleep hp hallowed
    next => cases hrun
  | proc p => exact ⟨h.locks_proc hrun, h.links_proc hrun, h.seen_proc hrun, h.counts_proc hrun⟩
  | wakeup a r =>
    simp only [Sys.act] at hrun
    split at hrun
    next ha =>
      cases hrun
      exact h.act_call ha (Or.inl ⟨r, rfl⟩)
    next => cases hrun
  | postnote a p =>
    simp only [Sys.act] at hrun
    split at hrun
    next ha =>
      cases hrun
      exact h.act_call ha (Or.inr ⟨p, rfl⟩)
    next => cases hrun
  | agent a => exact ⟨h.locks_agent hrun, h.links_agent hrun, h.seen_agent hrun, h.counts_agent hrun⟩
  | cond r b =>
    cases hrun
    exact h.act_cond

/-- **Sleep and wakeup in any run**: see `Sys.Ok`. -/
theorem sleep_wakeup_ok (hr : Reach Sys.Fresh Sys.Step s) : s.Ok :=
  (hr.invariant Sys.Inv (fun _ hs => hs.inv) (fun _ _ _ h hstep => h.step hstep)).ok

/-- Process 0 is asleep when a `wakeup` begins, and is made ready. -/
theorem sleep_wakeup_ok_woken :
    ∃ s t : Sys Nat Nat Nat, s.Committed 0 0 ∧ s.Ok ∧ t.state 0 = .ready ∧ t.rp 0 = none ∧ t.Ok := by
  have h₀ : Reach Sys.Fresh Sys.Step
      (⟨fun _ => none, fun _ => none, fun _ => none, fun _ => none, fun _ => .running, fun _ => false,
        fun _ => false, fun _ => .idle, fun _ => .idle, fun _ => 0, fun _ => false⟩ : Sys Nat Nat Nat) :=
    Reach.start ⟨fun _ => rfl, fun _ => rfl, fun _ => rfl, fun _ => rfl, fun _ => rfl, fun _ => rfl,
      fun _ => rfl, fun _ => rfl, fun _ => rfl⟩
  have h₁ := h₀.next (i := Act.sleep 0 0) ⟨fun q => by simp [Pc.rendez], rfl⟩
  have h₂ := h₁.next (i := Act.proc 0) ⟨trivial, rfl⟩
  have h₃ := h₂.next (i := Act.proc 0) ⟨trivial, rfl⟩
  have h₄ := h₃.next (i := Act.proc 0) ⟨trivial, rfl⟩
  have h₅ := h₄.next (i := Act.proc 0) ⟨trivial, rfl⟩
  have h₆ := h₅.next (i := Act.proc 0) ⟨trivial, rfl⟩
  have h₇ := h₆.next (i := Act.proc 0) ⟨trivial, rfl⟩
  have k₁ := h₇.next (i := Act.wakeup 0 0) ⟨trivial, rfl⟩
  have k₂ := k₁.next (i := Act.agent 0) ⟨trivial, rfl⟩
  have k₃ := k₂.next (i := Act.agent 0) ⟨trivial, rfl⟩
  have k₄ := k₃.next (i := Act.agent 0) ⟨trivial, rfl⟩
  have k₅ := k₄.next (i := Act.agent 0) ⟨trivial, rfl⟩
  exact ⟨_, _, ⟨rfl, Or.inr (Or.inr rfl)⟩, sleep_wakeup_ok h₇, rfl, rfl, sleep_wakeup_ok k₅⟩

end Rendez
