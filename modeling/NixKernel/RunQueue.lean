import NixKernel.LinkList
import NixKernel.StepSystem

/-!
# The run queues

The `Sched` of a processor with its queues of ready processes: `queueproc` and `dequeueproc`
of `proc.c`, `ready` with `reprioritize`, and `edfready`, which keeps the queue of the real
time processes in the order of their deadlines.  The links are `rnext` of the processes.

What `canlock`, `procsaved` and the clock say is given with each call, and so is what
`updatecpu` leaves in `p->cpu`.  `runproc`, `rebalance` and `releaseintr` look at the queues
without the lock and then call `dequeueproc`; their choice is left open.  A process that
`dequeueproc` has returned, or that `ready` is about to queue, is in the hands of one
processor (`hand`).

Nothing here looks at the state of the process that it is called for.  `addbroken` puts a process into the
table of the broken ones before it is `Broken`, and `addbroken`, `unbreak` and `freebroken` call `ready` for
a process of that table, which may have been preempted and be queued.
-/

namespace RunQueue

open LinkList StepSystem List
open Function (update update_self update_of_ne update_eq_self)

abbrev Proc := Nat

def npriq : Nat := 20
def nrq : Nat := npriq + 2
def priEdf : Nat := npriq + 1
def priExtra : Nat := npriq - 1

/-- `p->state`, as far as it matters here. -/
inductive PState
  | ready
  | running
  | scheding
  | waitrelease
  | other
  deriving DecidableEq, Repr

/-- An admitted `Edf`: times, and the flags. -/
structure Edf where
  D : Int
  T : Int
  C : Int
  S : Int
  r : Int
  d : Int
  t : Int
  sporadic : Bool
  yield : Bool
  yieldonblock : Bool
  extratime : Bool
  deriving DecidableEq, Repr

structure Schedq where
  head : Option Proc
  tail : Option Proc
  n : Int
  deriving DecidableEq, Repr

/-- The fields of the processes and the `Sched`. -/
structure St where
  rnext : Proc → Option Proc
  state : Proc → PState
  priority : Proc → Nat
  basepri : Proc → Nat
  edf : Proc → Option Edf
  runq : Nat → Schedq
  nrdy : Int
  runvec : BitVec 32
  hand : Proc → Bool

/-- `queueproc`. -/
def queueproc (s : St) (pri : Nat) (p : Proc) : St :=
  let rq := s.runq pri
  let (head, rnext) := store rq.tail (some p) rq.head (update s.rnext p none)
  { s with
    priority := update s.priority p pri
    rnext
    runq := update s.runq pri ⟨head, some p, rq.n + 1⟩
    nrdy := s.nrdy + 1
    runvec := s.runvec ||| (1#32 <<< pri)
    hand := update s.hand p false }

/-- The part of `dequeueproc` that takes `p` out, with `l` in front of it. -/
def unlinkproc (s : St) (pri : Nat) (l : Option Proc) (p : Proc) : St :=
  let rq := s.runq pri
  let tail := if s.rnext p = none then l else rq.tail
  let (head, rnext) := store l (s.rnext p) rq.head s.rnext
  { s with
    rnext
    runq := update s.runq pri ⟨head, tail, rq.n - 1⟩
    runvec := if head = none then s.runvec &&& ~~~(1#32 <<< pri) else s.runvec
    nrdy := s.nrdy - 1
    hand := update s.hand p true }

/-- `dequeueproc`: the state and the process returned.  `none` when the search for the
process does not end. -/
def dequeueproc (s : St) (canlock procsaved : Bool) (pri : Nat) (tp : Proc) :
    Option (St × Option Proc) :=
  if !canlock then some (s, none)
  else
    let rq := s.runq pri
    match search s.rnext (fun p => decide (p = tp)) (rq.n.toNat + 1) none rq.head with
    | none => none
    | some (_, none) => some (s, none)
    | some (l, some p) =>
      if !procsaved then some (s, none) else some (unlinkproc s pri l p, some p)

/-- `reprioritize`. -/
def reprioritize (load nmach cpu basepri : Nat) : Nat :=
  if load = 0 then basepri
  else
    let fairshare := nmach * 1000 * 1000 / load
    let n := if cpu = 0 then 1 else cpu
    min ((fairshare + n / 2) / n) basepri

/-- "Non sporadic processes stay true to their period; calculate next release time." -/
def nextRelease (now : Int) (e : Edf) : Int :=
  let n := now - e.t
  if 0 < n then
    if n < e.T then e.t + e.T else now + e.T - n % e.T
  else e.t

/-- "past deadline, arrange for next release". -/
def arrange (now : Int) (e : Edf) : Edf :=
  if e.sporadic then e else { e with t := nextRelease now e }

/-- `release`. -/
def release (now : Int) (e : Edf) : Edf :=
  let e := { e with yield := false }
  if e.d - now < 0 then
    let t := if e.sporadic then now + e.T else nextRelease now e
    { e with r := now, t, d := now + e.D, S := e.C }
  else e

/-- The part of `edfready` that links `p` between `l` and `pp`. -/
def linkproc (s : St) (l pp : Option Proc) (p : Proc) : St :=
  let rq := s.runq priEdf
  let (head, rnext) := store l (some p) rq.head (update s.rnext p pp)
  let tail := if pp = none then some p else rq.tail
  { s with
    rnext
    runq := update s.runq priEdf ⟨head, tail, rq.n + 1⟩
    nrdy := s.nrdy + 1
    runvec := s.runvec ||| (1#32 <<< priEdf)
    priority := update s.priority p priEdf
    state := update s.state p .ready }

/-- "insert in queue in earliest deadline order". -/
def edfinsert (s : St) (p : Proc) (e : Edf) : Option St :=
  let rq := s.runq priEdf
  let later (pp : Proc) : Bool := (s.edf pp).any fun e' => e.d < e'.d
  match search s.rnext later (rq.n.toNat + 1) none rq.head with
  | none => none
  | some (l, pp) => some (linkproc s l pp p)

/-- `edfready`: the state, and whether the process has been dealt with.  The timer that is
started for the next release is left out. -/
def edfready (s : St) (now : Int) (p : Proc) : Option (St × Bool) :=
  match s.edf p with
  | none => some (s, false)
  | some e =>
    if e.d - now ≤ 0 then
      let e := arrange now e
      if now - e.t < 0 then
        let s := { s with edf := update s.edf p (some e) }
        if s.state p = .running ∧ !(e.yield || e.yieldonblock) ∧ e.extratime then
          -- Stick on runq[PriExtra]
          some ({ s with basepri := update s.basepri p priExtra }, false)
        else some ({ s with state := update s.state p .waitrelease }, true)
      else
        let e := release now e
        (edfinsert { s with edf := update s.edf p (some e) } p e).map (·, true)
    else (edfinsert s p e).map (·, true)

/-- `ready` up to the call of `queueproc`. -/
def ready (s : St) (now : Int) (load nmach cpu : Nat) (p : Proc) : Option St :=
  match edfready s now p with
  | none => none
  | some (s, true) => some s
  | some (s, false) =>
    let pri := reprioritize load nmach cpu (s.basepri p)
    some { s with
      priority := update s.priority p pri
      state := update s.state p .ready
      hand := update s.hand p true }

/-- `procpriority`. -/
def procpriority (s : St) (p : Proc) (pri : Int) : St :=
  let pri := if npriq ≤ pri then npriq - 1 else pri.toNat
  { s with
    basepri := update s.basepri p pri
    priority := update s.priority p pri }

/-- The steps.  `scheding` is the assignment of `runproc` to the process it got,
`waitrelease` that of `releaseintr`; `run` is any other assignment of a state that is not `Ready`, by the
processor the process runs on or by one that wakes it up or kills it; `setedf`
covers `edfadmit`, `edfstop`, `edfrecord` and releases. -/
inductive Act
  | ready (now : Int) (load nmach cpu : Nat) (p : Proc)
  | queueproc (pri : Nat) (p : Proc)
  | dequeueproc (canlock procsaved : Bool) (pri : Nat) (tp : Proc)
  | scheding (p : Proc)
  | waitrelease (p : Proc)
  | run (p : Proc) (st : PState)
  | procpriority (p : Proc) (pri : Int)
  | setedf (p : Proc) (e : Option Edf)

/-- A step.  The queues are those of the array `runq`. -/
def step (s : St) : Act → Option St
  | .ready now load nmach cpu p => ready s now load nmach cpu p
  | .queueproc pri p => if pri < nrq then some (queueproc s pri p) else none
  | .dequeueproc canlock procsaved pri tp =>
    if pri < nrq then (dequeueproc s canlock procsaved pri tp).map Prod.fst else none
  | .scheding p =>
    some { s with
      state := update s.state p .scheding
      hand := update s.hand p false }
  | .waitrelease p =>
    some { s with
      state := update s.state p .waitrelease
      hand := update s.hand p false }
  | .run p st => if st ≠ .ready then some { s with state := update s.state p st } else none
  | .procpriority p pri => some (procpriority s p pri)
  | .setedf p e => some { s with edf := update s.edf p e }

/-- `ready` is called for a process that is not ready, and no other state is assigned to one that is queued.
`queueproc` and `runproc` have the process in hand, from `ready` itself or from `dequeueproc`. -/
def Proper (s : St) : Act → Prop
  | .ready _ _ _ _ p | .run p _ => s.state p ≠ .ready ∧ s.hand p = false
  | .queueproc _ p | .scheding p | .waitrelease p => s.hand p = true
  | _ => True

instance (s : St) (a : Act) : Decidable (Proper s a) := by
  cases a <;> unfold Proper <;> infer_instance

/-- All queues are empty, and no process is ready. -/
def Start (s : St) : Prop :=
  (∀ i, s.runq i = ⟨none, none, 0⟩) ∧ s.nrdy = 0 ∧ s.runvec = 0 ∧
    ∀ p, s.state p ≠ .ready ∧ s.hand p = false ∧ s.priority p < npriq ∧ s.basepri p < npriq

/-- The queues hold the processes of `chain`. -/
structure Queues (s : St) (chain : Nat → List Proc) : Prop where
  path : ∀ i < nrq, Path s.rnext (s.runq i).head (chain i) none
  tail : ∀ i < nrq, (s.runq i).tail = (chain i).getLast?
  n : ∀ i < nrq, (s.runq i).n = (chain i).length
  nrdy : s.nrdy = ∑ i ∈ Finset.range nrq, (s.runq i).n
  runvec : ∀ i < nrq, s.runvec.getLsbD i = true ↔ chain i ≠ []
  disjoint : ∀ i < nrq, ∀ j < nrq, i ≠ j → ∀ p ∈ chain i, p ∉ chain j
  queued : ∀ p, (∃ i < nrq, p ∈ chain i) ↔ s.state p = .ready ∧ s.hand p = false
  inHand : ∀ p, s.hand p = true → s.state p = .ready
  priority : ∀ p, s.priority p < nrq ∧ s.basepri p < npriq

variable {s s' : St} {chain : Nat → List Proc} {i pri : Nat} {p : Proc} {A B : List Proc}

theorem Queues.nodup (h : Queues s chain) (hi : i < nrq) : (chain i).Nodup := (h.path i hi).nodup

theorem Queues.fuel (h : Queues s chain) (hi : i < nrq) :
    (chain i).length < (s.runq i).n.toNat + 1 := by
  have hn := h.n i hi
  omega

theorem mem_chains (hi : i < nrq) {a : Proc} {l : List Proc} (hl : a ∈ l ↔ a ∈ chain i) :
    (a ∈ l ∨ ∃ j < nrq, j ≠ i ∧ a ∈ chain j) ↔ ∃ j < nrq, a ∈ chain j := by
  rw [hl]
  constructor
  · rintro (ha | ⟨j, hj, _, ha⟩)
    · exact ⟨i, hi, ha⟩
    · exact ⟨j, hj, ha⟩
  · rintro ⟨j, hj, ha⟩
    by_cases hji : j = i
    · subst hji
      exact Or.inl ha
    · exact Or.inr ⟨j, hj, hji, ha⟩

/-- One queue has changed, and with it the processes that are queued. -/
theorem Queues.replace (h : Queues s chain) (hi : i < nrq) {l : List Proc}
    (hpath : Path s'.rnext (s'.runq i).head l none) (htail : (s'.runq i).tail = l.getLast?)
    (hn : (s'.runq i).n = l.length) (hother : ∀ j, j ≠ i → s'.runq j = s.runq j)
    (hframe : ∀ j < nrq, j ≠ i → ∀ a ∈ chain j, s'.rnext a = s.rnext a)
    (hnrdy : s'.nrdy - s.nrdy = (s'.runq i).n - (s.runq i).n)
    (hvec : ∀ j < nrq, s'.runvec.getLsbD j = if j = i then !l.isEmpty else s.runvec.getLsbD j)
    (hdisj : ∀ j < nrq, j ≠ i → ∀ a ∈ l, a ∉ chain j)
    (hqueued : ∀ a, (a ∈ l ∨ ∃ j < nrq, j ≠ i ∧ a ∈ chain j) ↔
      s'.state a = .ready ∧ s'.hand a = false)
    (hhand : ∀ a, s'.hand a = true → s'.state a = .ready)
    (hpri : ∀ a, s'.priority a < nrq ∧ s'.basepri a < npriq) :
    Queues s' (update chain i l) := by
  have hne : ∀ j, j ≠ i → update chain i l j = chain j :=
    fun j hj => update_of_ne hj _ _
  refine ⟨?_, ?_, ?_, ?_, ?_, ?_, ?_, hhand, hpri⟩
  · intro j hj
    by_cases hji : j = i
    · subst hji
      rw [update_self]
      exact hpath
    · rw [hne j hji, hother j hji]
      exact (h.path j hj).frame (hframe j hj hji)
  · intro j hj
    by_cases hji : j = i
    · subst hji
      rw [update_self]
      exact htail
    · rw [hne j hji, hother j hji]
      exact h.tail j hj
  · intro j hj
    by_cases hji : j = i
    · subst hji
      rw [update_self]
      exact hn
    · rw [hne j hji, hother j hji]
      exact h.n j hj
  · have hsum : ∑ j ∈ Finset.range nrq, ((s'.runq j).n - (s.runq j).n) =
        (s'.runq i).n - (s.runq i).n := by
      apply Finset.sum_eq_single_of_mem i (Finset.mem_range.mpr hi)
      intro j _ hji
      rw [hother j hji, Int.sub_self]
    rw [Finset.sum_sub_distrib] at hsum
    have hold := h.nrdy
    omega
  · intro j hj
    rw [hvec j hj]
    by_cases hji : j = i
    · subst hji
      simp [update_self]
    · rw [if_neg hji, hne j hji]
      exact h.runvec j hj
  · intro j hj k hk hjk a ha
    by_cases hji : j = i
    · subst hji
      rw [update_self] at ha
      rw [hne k (Ne.symm hjk)]
      exact hdisj k hk (Ne.symm hjk) a ha
    · rw [hne j hji] at ha
      by_cases hki : k = i
      · subst hki
        rw [update_self]
        exact fun hmem => hdisj j hj hji a hmem ha
      · rw [hne k hki]
        exact h.disjoint j hj k hk hjk a ha
  · intro a
    rw [← hqueued a]
    constructor
    · rintro ⟨j, hj, ha⟩
      by_cases hji : j = i
      · subst hji
        rw [update_self] at ha
        exact Or.inl ha
      · rw [hne j hji] at ha
        exact Or.inr ⟨j, hj, hji, ha⟩
    · rintro (ha | ⟨j, hj, hji, ha⟩)
      · exact ⟨i, hi, by rw [update_self]; exact ha⟩
      · exact ⟨j, hj, by rw [hne j hji]; exact ha⟩

theorem getLsbD_set (v : BitVec 32) {i j : Nat} (hi : i < nrq) :
    (v ||| (1#32 <<< i)).getLsbD j = if j = i then true else v.getLsbD j := by
  rw [BitVec.getLsbD_or, BitVec.getLsbD_shiftLeft, BitVec.getLsbD_one]
  simp only [nrq, npriq] at hi
  by_cases hij : j = i
  · simp [hij]
    omega
  · simp [hij]
    omega

theorem getLsbD_clear (v : BitVec 32) {i j : Nat} (hj : j < nrq) :
    (v &&& ~~~(1#32 <<< i)).getLsbD j = if j = i then false else v.getLsbD j := by
  rw [BitVec.getLsbD_and, BitVec.getLsbD_not, BitVec.getLsbD_shiftLeft, BitVec.getLsbD_one]
  simp only [nrq, npriq] at hj
  by_cases hij : j = i
  · simp [hij]
  · simp [hij]
    omega

theorem update_store_ne {next : Proc → Option Proc} {owner v head m : Option Proc} {a : Proc}
    (hap : a ≠ p) (howner : ∀ b, owner = some b → a ≠ b) :
    (store owner v head (update next p m)).2 a = next a := by
  cases owner with
  | none => exact update_of_ne hap _ _
  | some b =>
    show update (update next p m) b v a = next a
    rw [update_of_ne (howner b rfl), update_of_ne hap]

/-- **A process is queued** at any place of a queue. -/
theorem Queues.insert (h : Queues s chain) (hi : i < nrq) (hAB : chain i = A ++ B)
    (hp : ∀ j < nrq, p ∉ chain j)
    (hrnext : s'.rnext =
      (store A.getLast? (some p) (s.runq i).head (update s.rnext p B.head?)).2)
    (hrunq : s'.runq = update s.runq i
      ⟨(store A.getLast? (some p) (s.runq i).head (update s.rnext p B.head?)).1,
        (A ++ p :: B).getLast?, (s.runq i).n + 1⟩)
    (hnrdy : s'.nrdy = s.nrdy + 1) (hvec : s'.runvec = s.runvec ||| (1#32 <<< i))
    (hready : s'.state p = .ready ∧ s'.hand p = false)
    (hsame : ∀ a, a ≠ p → s'.state a = s.state a ∧ s'.hand a = s.hand a)
    (hpri : ∀ a, s'.priority a < nrq ∧ s'.basepri a < npriq) :
    Queues s' (update chain i (A ++ p :: B)) := by
  have hpi := hp i hi
  have hpath := h.path i hi
  rw [hAB] at hpi hpath
  obtain ⟨m, hA, hB⟩ := path_append.mp hpath
  have hself : s'.runq i = ⟨(store A.getLast? (some p) (s.runq i).head
      (update s.rnext p B.head?)).1, (A ++ p :: B).getLast?, (s.runq i).n + 1⟩ := by
    rw [hrunq, update_self]
  have hn := h.n i hi
  rw [hAB, length_append] at hn
  rw [hB.head_eq] at hA hB
  apply h.replace hi
  · rw [hself, hrnext]
    exact hA.insert hB hpi
  · rw [hself]
  · rw [hself]
    simp only [length_append, length_cons]
    omega
  · intro j hj
    rw [hrunq, update_of_ne hj]
  · intro j hj hji a ha
    rw [hrnext]
    apply update_store_ne
    · rintro rfl
      exact hp j hj ha
    · rintro b hb rfl
      have hai : a ∈ chain i := by
        rw [hAB]
        exact mem_append_left _ (mem_of_getLast? hb)
      exact h.disjoint j hj i hi hji a ha hai
  · rw [hself, hnrdy]
    simp only
    omega
  · intro j hj
    rw [hvec, getLsbD_set _ hi]
    by_cases hji : j = i
    · simp [hji]
    · simp [hji]
  · intro j hj hji a ha
    rcases mem_append.mp ha with hA' | hB'
    · exact h.disjoint i hi j hj (Ne.symm hji) a (by rw [hAB]; simp [hA'])
    · rcases mem_cons.mp hB' with rfl | hB'
      · exact hp j hj
      · exact h.disjoint i hi j hj (Ne.symm hji) a (by rw [hAB]; simp [hB'])
  · intro a
    by_cases hap : a = p
    · subst hap
      exact iff_of_true (Or.inl (by simp)) hready
    · obtain ⟨hst, hhd⟩ := hsame a hap
      rw [hst, hhd, ← h.queued a]
      apply mem_chains hi
      simp [hAB, hap]
  · intro a ha
    by_cases hap : a = p
    · rw [hap]
      exact hready.1
    · rw [(hsame a hap).2] at ha
      rw [(hsame a hap).1]
      exact h.inHand a ha
  · exact hpri

/-- **A process is taken off** any place of a queue. -/
theorem Queues.remove (h : Queues s chain) (hi : i < nrq) (hAB : chain i = A ++ p :: B)
    (hrnext : s'.rnext = (store A.getLast? (s.rnext p) (s.runq i).head s.rnext).2)
    (hrunq : s'.runq = update s.runq i
      ⟨(store A.getLast? (s.rnext p) (s.runq i).head s.rnext).1, (A ++ B).getLast?,
        (s.runq i).n - 1⟩)
    (hnrdy : s'.nrdy = s.nrdy - 1)
    (hvec : s'.runvec = if A ++ B = [] then s.runvec &&& ~~~(1#32 <<< i) else s.runvec)
    (hhand : s'.hand p = true) (hready : s'.state p = .ready)
    (hsame : ∀ a, a ≠ p → s'.state a = s.state a ∧ s'.hand a = s.hand a)
    (hpri : ∀ a, s'.priority a < nrq ∧ s'.basepri a < npriq) :
    Queues s' (update chain i (A ++ B)) := by
  have hpath := h.path i hi
  have hnodup := h.nodup hi
  rw [hAB] at hpath hnodup
  have hpAB : p ∉ A ++ B := by
    have hperm := nodup_middle.mp hnodup
    exact (nodup_cons.mp hperm).1
  obtain ⟨m, hA, hB⟩ := path_append.mp hpath
  have hm : m = some p := hB.1
  subst hm
  have hself : s'.runq i = ⟨(store A.getLast? (s.rnext p) (s.runq i).head s.rnext).1,
      (A ++ B).getLast?, (s.runq i).n - 1⟩ := by
    rw [hrunq, update_self]
  have hn := h.n i hi
  rw [hAB, length_append, length_cons] at hn
  apply h.replace hi
  · rw [hself, hrnext]
    exact hA.remove hB
  · rw [hself]
  · rw [hself]
    simp only [length_append]
    omega
  · intro j hj
    rw [hrunq, update_of_ne hj]
  · intro j hj hji a ha
    rw [hrnext]
    cases hlast : A.getLast? with
    | none => rfl
    | some b =>
      apply update_of_ne
      rintro rfl
      have hai : a ∈ chain i := by
        rw [hAB]
        exact mem_append_left _ (mem_of_getLast? hlast)
      exact h.disjoint j hj i hi hji a ha hai
  · rw [hself, hnrdy]
    simp only
    omega
  · intro j hj
    rw [hvec]
    by_cases hnil : A ++ B = []
    · rw [if_pos hnil, getLsbD_clear _ hj, hnil]
      rfl
    · have hset := (h.runvec i hi).mpr (by rw [hAB]; simp)
      rw [if_neg hnil]
      by_cases hji : j = i
      · subst hji
        simp [hset, hnil]
      · rw [if_neg hji]
  · intro j hj hji a ha
    apply h.disjoint i hi j hj (Ne.symm hji)
    rw [hAB]
    rcases mem_append.mp ha with ha | ha
    · simp [ha]
    · simp [ha]
  · intro a
    by_cases hap : a = p
    · subst hap
      apply iff_of_false
      · rintro (ha | ⟨j, hj, hji, ha⟩)
        · exact hpAB ha
        · exact h.disjoint j hj i hi hji a ha (by rw [hAB]; simp)
      · rw [hhand]
        simp
    · obtain ⟨hst, hhd⟩ := hsame a hap
      rw [hst, hhd, ← h.queued a]
      apply mem_chains hi
      simp [hAB, hap]
  · intro a ha
    by_cases hap : a = p
    · rw [hap]
      exact hready
    · rw [(hsame a hap).2] at ha
      rw [(hsame a hap).1]
      exact h.inHand a ha
  · exact hpri

/-- A process that is not both ready and out of hand is in no queue. -/
theorem Queues.not_mem (h : Queues s chain) (hp : ¬ (s.state p = .ready ∧ s.hand p = false)) :
    ∀ j < nrq, p ∉ chain j :=
  fun j hj hmem => hp ((h.queued p).mp ⟨j, hj, hmem⟩)

theorem Queues.queueproc (h : Queues s chain) (hi : pri < nrq) (hhand : s.hand p = true) : ∃ chain', Queues (queueproc s pri p) chain' := by
  have hp := h.not_mem (p := p) (by simp [hhand])
  refine ⟨_, h.insert (A := chain pri) (B := []) (p := p) hi (by simp) hp ?_ ?_ rfl rfl ?_ ?_ ?_⟩
  · simp only [RunQueue.queueproc, h.tail pri hi]
    rfl
  · simp only [RunQueue.queueproc, h.tail pri hi]
    simp
  · exact ⟨h.inHand p hhand, update_self ..⟩
  · exact fun a ha => ⟨rfl, update_of_ne ha _ _⟩
  · intro a
    refine ⟨?_, (h.priority a).2⟩
    simp only [RunQueue.queueproc]
    by_cases ha : a = p
    · rw [ha, update_self]
      exact hi
    · rw [update_of_ne ha]
      exact (h.priority a).1

theorem Queues.unlinkproc (h : Queues s chain) (hi : pri < nrq) (hAB : chain pri = A ++ p :: B) :
    ∃ chain', Queues (unlinkproc s pri A.getLast? p) chain' := by
  have hpath := h.path pri hi
  rw [hAB] at hpath
  obtain ⟨m, hA, hB⟩ := path_append.mp hpath
  have hm : m = some p := hB.1
  subst hm
  have hnext : s.rnext p = B.head? := hB.2.head_eq
  have hhead := (hA.remove hB).head_eq
  have hready := ((h.queued p).mp ⟨pri, hi, by rw [hAB]; simp⟩).1
  refine ⟨_, h.remove hi hAB rfl ?_ rfl ?_ (update_self ..) hready ?_ h.priority⟩
  · -- the tail moves when the last process is taken
    have htail : (if s.rnext p = none then A.getLast? else (s.runq pri).tail) = (A ++ B).getLast? := by
      rw [hnext, h.tail pri hi, hAB]
      cases B with
      | nil => simp
      | cons b t => simp
    simp only [RunQueue.unlinkproc, htail]
  · simp only [RunQueue.unlinkproc, hhead, List.head?_eq_none_iff]
  · exact fun a ha => ⟨rfl, update_of_ne ha _ _⟩

/-- `dequeueproc` returns; it leaves everything alone, or takes the process off the queue
into the hands of the caller. -/
theorem Queues.dequeueproc (h : Queues s chain) (hi : pri < nrq) (canlock procsaved : Bool)
    (tp : Proc) : ∃ s' r, dequeueproc s canlock procsaved pri tp = some (s', r) ∧
      (r = none ∧ s' = s ∨ r = some tp ∧ s'.hand tp = true) ∧ ∃ chain', Queues s' chain' := by
  have hpath := h.path pri hi
  have hfuel := h.fuel hi
  by_cases hlock : canlock = false
  · exact ⟨s, none, by simp [RunQueue.dequeueproc, hlock], Or.inl ⟨rfl, rfl⟩, chain, h⟩
  by_cases hmem : tp ∈ chain pri
  · obtain ⟨A, B, hAB, hsearch⟩ := hpath.search_mem hmem hfuel
    by_cases hsaved : procsaved = false
    · exact ⟨s, none, by simp [RunQueue.dequeueproc, hlock, hsearch, hsaved], Or.inl ⟨rfl, rfl⟩, chain, h⟩
    · refine ⟨RunQueue.unlinkproc s pri A.getLast? tp, some tp, ?_,
        Or.inr ⟨rfl, update_self ..⟩, h.unlinkproc hi hAB⟩
      simp [RunQueue.dequeueproc, hlock, hsearch, hsaved]
  · obtain ⟨q, hsearch⟩ := hpath.search_not_mem hmem hfuel
    exact ⟨s, none, by simp [RunQueue.dequeueproc, hlock, hsearch], Or.inl ⟨rfl, rfl⟩, chain, h⟩

theorem Queues.linkproc (h : Queues s chain) (hstate : s.state p ≠ .ready) (hhand : s.hand p = false)
    (hAB : chain priEdf = A ++ B) : ∃ chain', Queues (linkproc s A.getLast? B.head? p) chain' := by
  have hi : priEdf < nrq := by decide
  have hp := h.not_mem (p := p) (by simp [hstate])
  refine ⟨_, h.insert hi hAB hp rfl ?_ rfl rfl ⟨update_self .., hhand⟩ ?_ ?_⟩
  · -- the tail moves when the process is the last
    have htail : (if B.head? = none then some p else (s.runq priEdf).tail) = (A ++ p :: B).getLast? := by
      rw [h.tail priEdf hi, hAB]
      cases B with
      | nil => simp
      | cons b t => simp
    simp only [RunQueue.linkproc, htail]
  · exact fun a ha => ⟨update_of_ne ha _ _, rfl⟩
  · intro a
    refine ⟨?_, (h.priority a).2⟩
    show update s.priority p priEdf a < nrq
    by_cases ha : a = p
    · rw [ha, update_self]
      exact hi
    · rw [update_of_ne ha]
      exact (h.priority a).1

/-- A process that is neither ready nor in hand goes into the queue of the real time
processes. -/
theorem Queues.edfinsert (h : Queues s chain) (hstate : s.state p ≠ .ready) (hhand : s.hand p = false)
    (e : Edf) : ∃ s', edfinsert s p e = some s' ∧ ∃ chain', Queues s' chain' := by
  have hi : priEdf < nrq := by decide
  have hsearch := @search_spec _ _ _ _ (fun pp => (s.edf pp).any fun e' => decide (e.d < e'.d)) _ none
    (h.path priEdf hi) (h.fuel hi)
  rw [Option.or_none] at hsearch
  have hinv := h.linkproc (p := p) hstate hhand (takeWhile_append_dropWhile
    (p := fun pp => !(s.edf pp).any fun e' => decide (e.d < e'.d))).symm
  exact ⟨_, by simp only [RunQueue.edfinsert, hsearch], hinv⟩

/-- Changes of other fields. -/
theorem Queues.congr (h : Queues s chain) (hrnext : s'.rnext = s.rnext) (hrunq : s'.runq = s.runq)
    (hnrdy : s'.nrdy = s.nrdy) (hvec : s'.runvec = s.runvec)
    (hqueued : ∀ a, (s'.state a = .ready ∧ s'.hand a = false) ↔ (s.state a = .ready ∧ s.hand a = false))
    (hhand : ∀ a, s'.hand a = true → s'.state a = .ready)
    (hpri : ∀ a, s'.priority a < nrq ∧ s'.basepri a < npriq) : Queues s' chain where
  path i hi := by rw [hrnext, hrunq]; exact h.path i hi
  tail i hi := by rw [hrunq]; exact h.tail i hi
  n i hi := by rw [hrunq]; exact h.n i hi
  nrdy := by rw [hnrdy, hrunq]; exact h.nrdy
  runvec i hi := by rw [hvec]; exact h.runvec i hi
  disjoint := h.disjoint
  queued a := (h.queued a).trans (hqueued a).symm
  inHand := hhand
  priority := hpri

/-- The priority that `ready` chooses is that of a queue. -/
theorem reprioritize_le (load nmach cpu basepri : Nat) :
    reprioritize load nmach cpu basepri ≤ basepri := by
  simp only [reprioritize]
  split
  · exact Nat.le_refl _
  · exact Nat.min_le_right _ _

theorem Queues.edfready (h : Queues s chain) (hstate : s.state p ≠ .ready) (hhand : s.hand p = false)
    (now : Int) : ∃ s' done, edfready s now p = some (s', done) ∧ (∃ chain', Queues s' chain') ∧
      (done = false → s'.state p ≠ .ready ∧ s'.hand p = false) := by
  cases hedf : s.edf p with
  | none =>
    exact ⟨s, false, by simp [RunQueue.edfready, hedf], ⟨chain, h⟩, fun _ => ⟨hstate, hhand⟩⟩
  | some e =>
    have hset : ∀ e', Queues { s with edf := update s.edf p (some e') } chain :=
      fun e' => h.congr rfl rfl rfl rfl (fun _ => Iff.rfl) h.inHand h.priority
    simp only [RunQueue.edfready, hedf]
    split
    · split
      · split
        · refine ⟨_, _, rfl, ⟨chain, ?_⟩, fun _ => ⟨hstate, hhand⟩⟩
          refine h.congr rfl rfl rfl rfl (fun _ => Iff.rfl) h.inHand ?_
          intro a
          refine ⟨(h.priority a).1, ?_⟩
          show update s.basepri p priExtra a < npriq
          by_cases ha : a = p
          · rw [ha, update_self]
            decide
          · rw [update_of_ne ha]
            exact (h.priority a).2
        · refine ⟨_, _, rfl, ⟨chain, ?_⟩, by simp⟩
          refine h.congr rfl rfl rfl rfl ?_ ?_ h.priority
          · intro a
            show update s.state p .waitrelease a = _ ∧ _ ↔ _
            by_cases ha : a = p
            · rw [ha, update_self]
              simp [hstate]
            · rw [update_of_ne ha]
          · intro a hha
            show update s.state p .waitrelease a = .ready
            have ha : a ≠ p := by
              rintro rfl
              rw [hhand] at hha
              cases hha
            rw [update_of_ne ha]
            exact h.inHand a hha
      · obtain ⟨s', hrun, hinv⟩ := (hset _).edfinsert hstate hhand _
        rw [hrun]
        exact ⟨s', true, rfl, hinv, by simp⟩
    · obtain ⟨s', hrun, hinv⟩ := h.edfinsert hstate hhand e
      rw [hrun]
      exact ⟨s', true, rfl, hinv, by simp⟩

/-- `ready` returns; it has dealt with the process, or is about to queue it. -/
theorem Queues.ready (h : Queues s chain) (hstate : s.state p ≠ .ready) (hhand : s.hand p = false)
    (now : Int) (load nmach cpu : Nat) :
    ∃ s', ready s now load nmach cpu p = some s' ∧ ∃ chain', Queues s' chain' := by
  obtain ⟨s1, done, hrun, ⟨chain1, h1⟩, hnot⟩ := h.edfready hstate hhand now
  cases done with
  | true => exact ⟨s1, by simp [RunQueue.ready, hrun], chain1, h1⟩
  | false =>
    obtain ⟨hstate1, hhand1⟩ := hnot rfl
    simp only [RunQueue.ready, hrun]
    refine ⟨_, rfl, chain1, ?_⟩
    refine h1.congr rfl rfl rfl rfl ?_ ?_ ?_
    · intro a
      show update s1.state p .ready a = .ready ∧ update s1.hand p true a = false ↔ _
      by_cases ha : a = p
      · rw [ha, update_self, update_self]
        simp [hstate1]
      · rw [update_of_ne ha, update_of_ne ha]
    · intro a hha
      change update s1.hand p true a = true at hha
      show update s1.state p .ready a = .ready
      by_cases ha : a = p
      · rw [ha, update_self]
      · rw [update_of_ne ha] at hha ⊢
        exact h1.inHand a hha
    · intro a
      refine ⟨?_, (h1.priority a).2⟩
      show update s1.priority p (reprioritize load nmach cpu (s1.basepri p)) a < nrq
      by_cases ha : a = p
      · rw [ha, update_self]
        have hle := reprioritize_le load nmach cpu (s1.basepri p)
        have hbase := (h1.priority p).2
        simp only [nrq] at *
        omega
      · rw [update_of_ne ha]
        exact (h1.priority a).1

/-- A process that is not queued is given another state than ready. -/
theorem Queues.setState (h : Queues s chain) {st : PState} (hst : st ≠ .ready)
    (hp : ¬ (s.state p = .ready ∧ s.hand p = false)) :
    Queues { s with
      state := update s.state p st
      hand := update s.hand p false } chain := by
  refine h.congr rfl rfl rfl rfl ?_ ?_ h.priority
  · intro a
    show update s.state p st a = .ready ∧ update s.hand p false a = false ↔ _
    by_cases ha : a = p
    · rw [ha, update_self, update_self]
      exact iff_of_false (fun hr => hst hr.1) hp
    · rw [update_of_ne ha, update_of_ne ha]
  · intro a hha
    change update s.hand p false a = true at hha
    show update s.state p st a = .ready
    have ha : a ≠ p := by
      rintro rfl
      rw [update_self] at hha
      cases hha
    rw [update_of_ne ha] at hha ⊢
    exact h.inHand a hha

theorem Queues.procpriority (h : Queues s chain) (pri : Int) : Queues (procpriority s p pri) chain := by
  have hpri : (if (npriq : Int) ≤ pri then npriq - 1 else pri.toNat) < npriq := by
    by_cases hle : (npriq : Int) ≤ pri
    · rw [if_pos hle]
      decide
    · rw [if_neg hle]
      simp only [npriq] at *
      omega
  refine h.congr rfl rfl rfl rfl (fun _ => Iff.rfl) h.inHand ?_
  intro a
  show update s.priority p _ a < nrq ∧ update s.basepri p _ a < npriq
  by_cases ha : a = p
  · rw [ha, update_self, update_self]
    refine ⟨?_, hpri⟩
    simp only [nrq] at *
    omega
  · rw [update_of_ne ha, update_of_ne ha]
    exact h.priority a

/-- A step for a process that is where the caller has it. -/
theorem Queues.step {act : Act} (h : Queues s chain) (hproper : Proper s act) (hstep : step s act = some s') :
    ∃ chain', Queues s' chain' := by
  cases act with
  | ready now load nmach cpu p =>
    obtain ⟨s1, hrun, hinv⟩ := h.ready hproper.1 hproper.2 now load nmach cpu
    cases hrun.symm.trans hstep
    exact hinv
  | queueproc pri p =>
    obtain ⟨hi, hs⟩ := Option.ite_none_right_eq_some.mp hstep
    cases hs
    exact h.queueproc hi hproper
  | dequeueproc canlock procsaved pri tp =>
    obtain ⟨hi, hs⟩ := Option.ite_none_right_eq_some.mp hstep
    obtain ⟨s1, r, hrun, _, hinv⟩ := h.dequeueproc hi canlock procsaved tp
    rw [hrun] at hs
    cases hs
    exact hinv
  | scheding p | waitrelease p =>
    cases hstep
    exact ⟨chain, h.setState (by decide) (by simp [show s.hand p = true from hproper])⟩
  | run p st =>
    obtain ⟨hst, hs⟩ := Option.ite_none_right_eq_some.mp hstep
    cases hs
    have hinv := h.setState (p := p) hst (by simp [hproper.1])
    rw [← hproper.2, update_eq_self] at hinv
    exact ⟨chain, hinv⟩
  | procpriority p pri =>
    cases hstep
    exact ⟨chain, h.procpriority pri⟩
  | setedf p e =>
    cases hstep
    exact ⟨chain, h.congr rfl rfl rfl rfl (fun _ => Iff.rfl) h.inHand h.priority⟩

theorem Start.queues (h : Start s) : Queues s fun _ => [] where
  path i _ := by rw [h.1 i]; rfl
  tail i _ := by rw [h.1 i]; rfl
  n i _ := by rw [h.1 i]; rfl
  nrdy := by simp [h.1, h.2.1]
  runvec i _ := by simp [h.2.2.1]
  disjoint := by simp
  queued p := by simp [(h.2.2.2 p).1]
  inHand p hp := by simp [(h.2.2.2 p).2.1] at hp
  priority p := by
    have hp := h.2.2.2 p
    simp only [nrq]
    omega

/-- Each queue is a chain that ends at its tail, with `n` processes; `runvec` has the bits of the queues that
are not empty, `nrdy` counts the processes; and a process that is ready and not in the hands of a processor
is in exactly one chain, once. -/
def Consistent (s : St) : Prop :=
  ∃ chain : Nat → List Proc,
    (∀ i < nrq, Path s.rnext (s.runq i).head (chain i) none ∧
      (s.runq i).tail = (chain i).getLast? ∧ (s.runq i).n = (chain i).length ∧
      (s.runvec.getLsbD i = true ↔ (s.runq i).head ≠ none)) ∧
    s.nrdy = ∑ i ∈ Finset.range nrq, (s.runq i).n ∧
    ∀ p, s.state p = .ready ∧ s.hand p = false ↔
      ∃ i < nrq, (chain i).count p = 1 ∧ ∀ j < nrq, j ≠ i → p ∉ chain j

theorem Queues.consistent (h : Queues s chain) : Consistent s := by
  refine ⟨chain, ?_, h.nrdy, ?_⟩
  · intro i hi
    refine ⟨h.path i hi, h.tail i hi, h.n i hi, ?_⟩
    rw [h.runvec i hi, (h.path i hi).head_eq, ne_eq, ne_eq, List.head?_eq_none_iff]
  · intro p
    rw [← h.queued p]
    constructor
    · rintro ⟨i, hi, hp⟩
      exact ⟨i, hi, count_eq_one_of_mem (h.nodup hi) hp,
        fun j hj hji => h.disjoint i hi j hj (Ne.symm hji) p hp⟩
    · rintro ⟨i, hi, hone, _⟩
      exact ⟨i, hi, List.count_pos_iff.mp (by omega)⟩

/-- **The run queue invariant** holds in every state that is reached by steps for processes that are where
their callers have them. -/
theorem runq_consistent (hreach : Reach Start (fun s a s' => Proper s a ∧ step s a = some s') s) :
    Consistent s := by
  obtain ⟨chain, h⟩ := hreach.invariant (fun s => ∃ chain, Queues s chain)
    (fun s hs => ⟨_, hs.queues⟩) (fun s a t ⟨chain, h⟩ hs => h.step hs.1 hs.2)
  exact h.consistent

/-- No process has run. -/
def idle : St where
  rnext _ := none
  state _ := .other
  priority _ := 10
  basepri _ := 10
  edf _ := none
  runq _ := ⟨none, none, 0⟩
  nrdy := 0
  runvec := 0
  hand _ := false

theorem idle_start : Start idle := ⟨fun _ => rfl, rfl, rfl, fun _ => by simp [idle, npriq]⟩

/-- Two processes are readied, the first at its base priority and the second below; then
the first is taken to run. -/
theorem runq_consistent_two :
    ∃ s, Reach Start (fun s a s' => Proper s a ∧ step s a = some s') s ∧ (s.runq 5).head = some 2 ∧
      Consistent s := by
  have hrun : (exec (fun s a => if Proper s a then step s a else none) idle [.ready 0 0 1 0 1, .queueproc 10 1,
      .ready 0 1000 1 200 2, .queueproc 5 2, .dequeueproc true true 10 1, .scheding 1]).isSome = true := by
    decide
  have hreach := (Reach.start idle_start).exec (exec_getD (d := idle) hrun)
    (fun _ _ _ _ h => Option.ite_none_right_eq_some.mp h)
  exact ⟨_, hreach, by decide, runq_consistent hreach⟩

/-- A process calls `addbroken` and is preempted before it is `Broken`; then `freebroken` readies it again. -/
def preempted : List Act :=
  [.ready 0 0 1 0 1, .queueproc 10 1, .ready 0 0 1 0 1, .queueproc 10 1]

/-- **It is queued twice**: its link leads to itself, and the queue has no end. -/
theorem ready_queued_twice : ∃ s, Reach Start (fun s a s' => step s a = some s') s ∧ ¬Consistent s := by
  have hrun : (exec step idle preempted).isSome = true := by decide
  refine ⟨_, (Reach.start idle_start).exec (exec_getD (d := idle) hrun) (fun _ _ _ _ h => h), ?_⟩
  rintro ⟨chain, hqueue, -⟩
  obtain ⟨hpath, -⟩ := hqueue 10 (by decide)
  have hhead : ((exec step idle preempted).getD idle).runq 10 = ⟨some 1, some 1, 2⟩ := by decide
  have hlink : ((exec step idle preempted).getD idle).rnext 1 = some 1 := by decide
  rw [hhead] at hpath
  obtain ⟨t, ht, hrest⟩ := hpath.of_some
  rw [hlink] at hrest
  exact List.cons_ne_self 1 t (ht.symm.trans (hpath.unique hrest))

end RunQueue
