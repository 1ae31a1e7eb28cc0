import NixKernel.StepSystem

/-!
# The run queue of the real time processes

`edfready` puts a process into the queue of priority `PriEdf` in front of the
first one with a later deadline.  A deadline is the low 32 bits of a time in
microseconds, and the code has two ways to compare: the sign of the difference
to `now`, for a deadline that may be over, and the plain `>` of two deadlines
in the queue.  They agree as long as the clock does not wrap between `now` and
only some of the deadlines.
-/

namespace EdfQueue

open StepSystem Function List Option

abbrev Proc := ℕ

def npriq : ℕ := 20
def priEdf : ℕ := npriq + 1
def priExtra : ℕ := npriq - 1

/-- `p->state`, as far as `edfready` sets or reads it. -/
inductive PState
  | ready
  | running
  | waitrelease
  | other
  deriving DecidableEq, Repr

/-- `e->tf`. -/
inductive Tf
  | releaseintr
  | deadlineintr
  deriving DecidableEq, Repr

/-- `struct Edf`: times are microseconds, of absolute ones the low 32 bits.
`edfadmit` refuses a process without a period. -/
structure Edf where
  D : Int32
  T : Int32
  C : Int32
  S : Int32
  r : Int32
  d : Int32
  t : Int32
  admitted : Bool
  sporadic : Bool
  yield : Bool
  yieldonblock : Bool
  extratime : Bool
  periods : UInt32
  /-- `e->tt` is not nil: the timer is on a list -/
  tt : Bool
  tf : Option Tf
  tns : Int64
  period : T ≠ 0
  deriving DecidableEq, Repr

/-- The processes, the clock and the queue of `PriEdf`. -/
structure St where
  now : Int32
  edf : Proc → Option Edf
  state : Proc → PState
  priority : Proc → ℕ
  basepri : Proc → ℕ
  fixedpri : Proc → Bool
  rq : List Proc
  nrdy : Int
  runvec : UInt32

/-- "Non sporadic processes stay true to their period; calculate next release
time." -/
def nextRelease (now : Int32) (e : Edf) : Int32 :=
  let n := now - e.t
  if 0 < n then
    if n < e.T then e.t + e.T else now + e.T - n % e.T
  else e.t

/-- "past deadline, arrange for next release". -/
def arrange (now : Int32) (e : Edf) : Edf :=
  if e.sporadic then e else { e with t := nextRelease now e }

/-- `release`. -/
def release (now : Int32) (e : Edf) : Edf :=
  let e := { e with yield := false }
  if e.d - now < 0 then
    let t := if e.sporadic then now + e.T else nextRelease now e
    { e with periods := e.periods + 1, r := now, t, d := now + e.D, S := e.C }
  else e

/-- "Next release is in the future, schedule it". -/
def schedule (now : Int32) (e : Edf) : Edf :=
  if !e.tt || e.tf ≠ some .releaseintr then
    let n := e.t - now
    let n := if n < 20 then 20 else n
    { e with tns := 1000 * n.toInt64, tf := some .releaseintr, tt := true }
  else e

/-- `pp->edf->d`; every process in the queue has an `edf`. -/
def St.d (s : St) (p : Proc) : Int32 :=
  match s.edf p with
  | some e => e.d
  | none => 0

/-- The loop over the queue: in front of the first with a later deadline. -/
def place (d : Proc → Int32) (p : Proc) : List Proc → List Proc
  | [] => [p]
  | pp :: l => if d pp > d p then p :: pp :: l else pp :: place d p l

/-- "insert in queue in earliest deadline order". -/
def insert (s : St) (p : Proc) : St :=
  { s with
    rq := place s.d p s.rq
    nrdy := s.nrdy + 1
    runvec := s.runvec ||| 1 <<< UInt32.ofNat priEdf
    priority := update s.priority p priEdf
    state := update s.state p .ready }

/-- `edfready`, when the clock says `us`: the state, and whether the
process has been dealt with. -/
def edfready (s : St) (us : Int32) (p : Proc) : St × Bool :=
  match s.edf p with
  | none => (s, false)
  | some e =>
    if !e.admitted then (s, false)
    else
      let s := { s with now := us }
      if e.d - s.now ≤ 0 then
        let e := arrange s.now e
        if s.now - e.t < 0 then
          let s := { s with edf := update s.edf p (some (schedule s.now e)) }
          if s.state p = .running ∧ !(e.yield || e.yieldonblock) ∧ e.extratime then
            -- Stick on runq[PriExtra]
            ({ s with basepri := update s.basepri p priExtra,
                      fixedpri := update s.fixedpri p true }, false)
          else
            -- Make runnable later
            ({ s with state := update s.state p .waitrelease }, true)
        else
          (insert { s with edf := update s.edf p (some (release s.now e)) } p, true)
      else (insert s p, true)

/-- `dequeueproc` on the queue of `PriEdf`: the process is there, the lock was
free and its state saved, or nothing happens. -/
def dequeueproc (s : St) (canlock procsaved : Bool) (p : Proc) : St :=
  if canlock ∧ p ∈ s.rq ∧ procsaved then
    let rq := s.rq.erase p
    { s with
      rq
      nrdy := s.nrdy - 1
      runvec := if rq = [] then s.runvec &&& ~~~(1 <<< UInt32.ofNat priEdf) else s.runvec }
  else s

/-- The steps: a process is readied, one is taken off the queue, the clock
is read elsewhere, and `edfadmit`, `edfstop`, `edfrecord` or a timer changes the
`Edf` of a process. -/
inductive Act
  | edfready (us : Int32) (p : Proc)
  | dequeueproc (canlock procsaved : Bool) (p : Proc)
  | clock (us : Int32)
  | setedf (p : Proc) (e : Option Edf)

/-- A process in the queue is not readied again, and is not given other times. -/
def step (s : St) : Act → Option St
  | .edfready us p => if p ∈ s.rq then none else some (edfready s us p).1
  | .dequeueproc canlock procsaved p => some (dequeueproc s canlock procsaved p)
  | .clock us => some { s with now := us }
  | .setedf p e => if p ∈ s.rq then none else some { s with edf := update s.edf p e }

/-- At the start the queue is empty. -/
def Initial (s : St) : Prop := s.rq = []

/-- The time to a deadline, as the signed difference. -/
def left (now d : Int32) : Int := (d - now).toInt

/-- The queue is ordered by the time to the deadlines, and the head is as early
as any. -/
structure Ordered (s : St) : Prop where
  pairwise : s.rq.Pairwise fun p q => left s.now (s.d p) ≤ left s.now (s.d q)
  head : ∀ h ∈ s.rq.head?, ∀ q ∈ s.rq, left s.now (s.d h) ≤ left s.now (s.d q)

/-- The deadline a process would be queued under at `us`. -/
def due (us : Int32) (e : Edf) : Int32 := if e.d - us < 0 then us + e.D else e.d

/-- The process is not past its deadline, or its next release has come. -/
def Queues (us : Int32) (e : Edf) : Prop := ¬e.d - us ≤ 0 ∨ ¬us - (arrange us e).t < 0

instance (us : Int32) (e : Edf) : Decidable (Queues us e) := inferInstanceAs (Decidable (_ ∨ _))

/-- As the clock goes on to `us`, all the queued deadlines come nearer by the same: it
passes none of them by 2^31 or passes all. -/
def Together (s : St) (us : Int32) : Prop :=
  ∀ p ∈ s.rq, ∀ q ∈ s.rq,
    left s.now (s.d p) - left us (s.d p) = left s.now (s.d q) - left us (s.d q)

/-- From `us` on, the clock wraps before both deadlines or before neither. -/
def SameSide (us d d' : Int32) : Prop := d.toInt - left us d = d'.toInt - left us d'

instance (s : St) (us : Int32) : Decidable (Together s us) :=
  inferInstanceAs (Decidable (∀ p ∈ s.rq, ∀ q ∈ s.rq, _ = _))

instance (us d d' : Int32) : Decidable (SameSide us d d') := inferInstanceAs (Decidable (_ = _))

/-- What the two comparisons need: the clock passes the queued deadlines
together, and what is inserted is on the same side of the wrap as they are. -/
def Unwrapped (s : St) : Act → Prop
  | .edfready us p =>
    ∀ e ∈ s.edf p, e.admitted = true →
      Together s us ∧ (Queues us e → ∀ q ∈ s.rq, SameSide us (due us e) (s.d q))
  | .dequeueproc .. => True
  | .clock us => Together s us
  | .setedf .. => True

section Place

variable {d : Proc → Int32} {p : Proc} {l : List Proc}

/-- The process is put among those of the queue. -/
theorem mem_place {q : Proc} : q ∈ place d p l ↔ q = p ∨ q ∈ l := by
  induction l with
  | nil => simp [place]
  | cons pp l ih =>
    rw [place]
    split_ifs
    · exact mem_cons
    · rw [mem_cons, ih, mem_cons]
      tauto

/-- **Insertion keeps the order of a key the comparison agrees with.** -/
theorem pairwise_place {key : Proc → Int} (h : l.Pairwise fun a b => key a ≤ key b)
    (hagree : ∀ q ∈ l, d q > d p ↔ key p < key q) :
    (place d p l).Pairwise fun a b => key a ≤ key b := by
  induction l with
  | nil => simp [place]
  | cons pp l ih =>
    obtain ⟨hpp, hl⟩ := pairwise_cons.mp h
    have hhead := hagree pp mem_cons_self
    rw [place]
    split_ifs with hlate
    · have hlt := hhead.mp hlate
      refine pairwise_cons.mpr ⟨fun q hq => ?_, h⟩
      rcases mem_cons.mp hq with rfl | hq
      · exact Int.le_of_lt hlt
      · exact Int.le_trans (Int.le_of_lt hlt) (hpp q hq)
    · have hle : key pp ≤ key p := Int.not_lt.mp fun hlt => hlate (hhead.mpr hlt)
      refine pairwise_cons.mpr ⟨fun q hq => ?_,
        ih hl fun q hq => hagree q (mem_cons_of_mem _ hq)⟩
      rcases mem_place.mp hq with rfl | hq
      · exact hle
      · exact hpp q hq

end Place

section Clock

variable {s : St} {us : Int32}

/-- In an ordered queue no process is earlier than the head. -/
theorem ordered_of_pairwise
    (h : s.rq.Pairwise fun p q => left s.now (s.d p) ≤ left s.now (s.d q)) : Ordered s := by
  refine ⟨h, fun p hp q hq => ?_⟩
  cases hrq : s.rq with
  | nil =>
    rw [hrq] at hq
    cases hq
  | cons a l =>
    rw [hrq] at h hp hq
    cases hp
    rcases mem_cons.mp hq with rfl | hq
    · exact Int.le_refl _
    · exact rel_of_pairwise_cons h hq

/-- A clock that passes the deadlines together keeps their order. -/
theorem Ordered.together (h : Ordered s) (ht : Together s us) :
    s.rq.Pairwise fun p q => left us (s.d p) ≤ left us (s.d q) := by
  refine h.pairwise.imp_of_mem fun {p q} hp hq hle => ?_
  have heq := ht p hp q hq
  omega

/-- On one side of the wrap the two comparisons agree. -/
theorem SameSide.gt_iff {d d' : Int32} (h : SameSide us d d') :
    d' > d ↔ left us d < left us d' := by
  unfold SameSide at h
  rw [gt_iff_lt, Int32.lt_iff_toInt_lt]
  omega

end Clock

section Ready

variable {s t : St} {us now : Int32} {p q : Proc} {e : Edf}

/-- `release` moves a deadline that is over. -/
theorem release_d : (release now e).d = due now e := by
  simp only [release, due]
  split_ifs <;> rfl

/-- Arranging the next release leaves the deadline. -/
theorem due_arrange : due now (arrange now e) = due now e := by
  unfold arrange
  split_ifs <;> rfl

/-- A change of one process leaves the deadlines of the others. -/
theorem St.d_of_edf {o : Option Edf} (h : t.edf = update s.edf p o) (hq : q ≠ p) : t.d q = s.d q := by
  rw [St.d, h, update_of_ne hq, St.d]

/-- What a change of one process makes of its own deadline. -/
theorem St.d_self (h : t.edf = update s.edf p (some e)) : t.d p = e.d := by
  rw [St.d, h, update_self]

/-- **What `edfready` does to the queue**: nothing, when the process is not
admitted; nothing but reading the clock, when its next release is to come; and
else the process is placed under the deadline `due`. -/
theorem edfready_cases (s : St) (us : Int32) (p : Proc) :
    (edfready s us p).1 = s ∨
    ∃ e, s.edf p = some e ∧ e.admitted = true ∧ (edfready s us p).1.now = us ∧
      (∀ q, q ≠ p → (edfready s us p).1.d q = s.d q) ∧
      ((edfready s us p).1.rq = s.rq ∨
        Queues us e ∧ (edfready s us p).1.d p = due us e ∧
          (edfready s us p).1.rq = place (edfready s us p).1.d p s.rq) := by
  unfold edfready
  cases he : s.edf p with
  | none => exact Or.inl rfl
  | some e =>
    cases hadm : e.admitted with
    | false => exact Or.inl (by simp [hadm])
    | true =>
      refine Or.inr ⟨e, rfl, hadm, ?_⟩
      simp only [hadm, Bool.not_true, Bool.false_eq_true, if_false]
      by_cases hpast : e.d - us ≤ 0
      · rw [if_pos hpast]
        by_cases hfuture : us - (arrange us e).t < 0
        · rw [if_pos hfuture]
          split_ifs
          all_goals exact ⟨rfl, fun q hq => St.d_of_edf rfl hq, Or.inl rfl⟩
        · rw [if_neg hfuture]
          refine ⟨rfl, fun q hq => St.d_of_edf rfl hq, Or.inr ⟨Or.inr hfuture, ?_, rfl⟩⟩
          exact (St.d_self rfl).trans (release_d.trans due_arrange)
      · rw [if_neg hpast]
        refine ⟨rfl, fun q _ => rfl, Or.inr ⟨Or.inl hpast, ?_, rfl⟩⟩
        have hd : ¬e.d - us < 0 := fun hlt => hpast (Int32.le_of_lt hlt)
        rw [due, if_neg hd]
        change s.d p = e.d
        rw [St.d, he]

end Ready

section Run

variable {s t : St}

/-- A state with the same queue, under the same deadlines, is ordered by a clock
that passed them together. -/
theorem pairwise_of_same {us : Int32} (h : Ordered s) (htog : Together s us) (hnow : t.now = us)
    (hd : ∀ q ∈ s.rq, t.d q = s.d q) :
    s.rq.Pairwise fun p q => left t.now (t.d p) ≤ left t.now (t.d q) := by
  refine (h.together htog).imp_of_mem fun {p q} hp hq hle => ?_
  rw [hnow, hd p hp, hd q hq]
  exact hle

/-- **`edfready` keeps the order.** -/
theorem Ordered.edfready {us : Int32} {p : Proc} (h : Ordered s) (hp : p ∉ s.rq)
    (hun : Unwrapped s (.edfready us p)) : Ordered (edfready s us p).1 := by
  obtain heq | ⟨e, he, hadm, hnow, hd, hrq⟩ := edfready_cases s us p
  · rw [heq]
    exact h
  · obtain ⟨htog, hside⟩ := hun e he hadm
    have hkeep : ∀ q ∈ s.rq, (EdfQueue.edfready s us p).1.d q = s.d q := fun q hq =>
      hd q fun heq => hp (heq ▸ hq)
    have hsame := pairwise_of_same h htog hnow hkeep
    obtain hrq | ⟨hqueues, hdp, hrq⟩ := hrq
    · apply ordered_of_pairwise
      rw [hrq]
      exact hsame
    · apply ordered_of_pairwise
      rw [hrq]
      refine pairwise_place hsame fun q hq => ?_
      rw [hnow, hdp, hkeep q hq]
      exact (hside hqueues q hq).gt_iff

/-- Taking a process off keeps the order. -/
theorem Ordered.dequeueproc (h : Ordered s) (canlock procsaved : Bool) (p : Proc) :
    Ordered (dequeueproc s canlock procsaved p) := by
  unfold EdfQueue.dequeueproc
  split_ifs
  · exact ordered_of_pairwise (h.pairwise.sublist erase_sublist)
  · exact h

/-- **One step keeps the order.** -/
theorem Ordered.step {a : Act} (h : Ordered s) (hstep : step s a = some t) (hun : Unwrapped s a) :
    Ordered t := by
  cases a with
  | edfready us p =>
    rw [EdfQueue.step, ite_none_left_eq_some] at hstep
    obtain ⟨hp, hstep⟩ := hstep
    obtain rfl := some.inj hstep
    exact h.edfready hp hun
  | dequeueproc canlock procsaved p =>
    obtain rfl := some.inj hstep
    exact h.dequeueproc canlock procsaved p
  | clock us =>
    obtain rfl := some.inj hstep
    exact ordered_of_pairwise (@pairwise_of_same s _ us h hun rfl fun q _ => rfl)
  | setedf p e =>
    rw [EdfQueue.step, ite_none_left_eq_some] at hstep
    obtain ⟨hp, hstep⟩ := hstep
    obtain rfl := some.inj hstep
    have hd : ∀ q ∈ s.rq, St.d { s with edf := update s.edf p e } q = s.d q := fun q hq =>
      St.d_of_edf rfl fun heq => hp (heq ▸ hq)
    refine ordered_of_pairwise (h.pairwise.imp_of_mem fun {a b} ha hb hle => ?_)
    rw [hd a ha, hd b hb]
    exact hle

/-- **The queue of every run is ordered** whose clock does not wrap between the
deadlines it compares. -/
theorem ordered_of_reach
    (h : Reach Initial (fun s a t => step s a = some t ∧ Unwrapped s a) s) : Ordered s := by
  refine h.invariant Ordered (fun s hs => ?_) fun s a t hord hstep => hord.step hstep.1 hstep.2
  apply ordered_of_pairwise
  rw [hs]
  exact List.Pairwise.nil

end Run

section Runs

/-- A process with the deadline `D` that is released when it is readied at `t`. -/
def released (D t : Int32) : Edf :=
  ⟨D, 1000, 10, 0, 0, t - 1, t, true, false, false, false, false, 0, false, none, 0, by decide⟩

/-- Two processes, with 50 and 200 µs to their deadlines, and an empty queue. -/
def two (t : Int32) : St where
  now := t
  edf p := if p = 0 then some (released 50 t) else if p = 1 then some (released 200 t) else none
  state _ := .other
  priority _ := 0
  basepri _ := 0
  fixedpri _ := false
  rq := []
  nrdy := 0
  runvec := 0

instance (s : St) : ∀ a, Decidable (Unwrapped s a)
  | .edfready us p =>
    match h : s.edf p with
    | none => isTrue fun _ he => nomatch h.symm.trans he
    | some e =>
      decidable_of_iff (e.admitted = true →
          Together s us ∧ (Queues us e → ∀ q ∈ s.rq, SameSide us (due us e) (s.d q)))
        ⟨fun hall e' he' => some.inj (h.symm.trans he') ▸ hall, fun hall => hall e h⟩
  | .dequeueproc .. => isTrue trivial
  | .clock us => inferInstanceAs (Decidable (Together s us))
  | .setedf .. => isTrue trivial

/-- A step that keeps clear of the wrap. -/
def act (s : St) (a : Act) : Option St := if Unwrapped s a then step s a else none

theorem step_of_act {s t : St} {a : Act} (h : act s a = some t) :
    step s a = some t ∧ Unwrapped s a := by
  rw [act, ite_none_right_eq_some] at h
  exact ⟨h.2, h.1⟩

/-- The two are queued in order, and the earlier is taken off. -/
theorem ordered_of_reach_two : ∃ s, s.rq = [1] ∧ Ordered s := by
  obtain ⟨s, hs, htest⟩ := @Reach.exists_of_exec St Act Initial
    (fun s a t => step s a = some t ∧ Unwrapped s a) act
    [.edfready 1000 1, .edfready 1000 0, .clock 1020, .dequeueproc true true 0] (two 1000)
    (fun s => s.rq = [1]) (Reach.start rfl) (fun s a t _ hact => step_of_act hact) (by decide +kernel)
  exact ⟨s, of_decide_eq_true htest, ordered_of_reach hs⟩

/-- **Around the wrap the later deadline is at the head**: 101 µs before it, the
process with 200 µs to go is in front of that with 50. -/
theorem wrap_misorders : ¬ ∀ s, Reach Initial (fun s a t => step s a = some t) s → Ordered s := by
  intro h
  obtain ⟨s, hs, htest⟩ := @Reach.exists_of_exec St Act Initial
    (fun s a t => step s a = some t) step
    [.edfready 2147483547 1, .edfready 2147483547 0] (two 2147483547)
    (fun s => s.rq = [1, 0] ∧ left s.now (s.d 0) < left s.now (s.d 1)) (Reach.start rfl)
    (fun s a t _ hact => hact) (by decide +kernel)
  obtain ⟨hrq, hlt⟩ := of_decide_eq_true htest
  have hpair := (h s hs).pairwise
  rw [hrq, pairwise_cons] at hpair
  exact absurd (hpair.1 0 mem_cons_self) (Int.not_le.mpr hlt)

end Runs

end EdfQueue
