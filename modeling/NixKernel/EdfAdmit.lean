import Mathlib

/-!
# Admission of real time processes

`testschedulability` simulates the releases and the deadlines of the admitted processes and
of the one to be admitted, all released at time 0, with one queue of events.  At a deadline
the cost of the jobs that are due is compared with the time; the test ends well at the first
release, later than 0, by which all that was released could have been done.

Times are integers; the code's `long` is taken to hold them.
-/

namespace EdfAdmit

open List

def maxsteps : Nat := 200 * 100 * 2

/-- `Dl` and `Rl`. -/
inductive TestType
  | dl
  | rl
  deriving DecidableEq, Repr

/-- The fields of `struct Edf` that the test uses. -/
structure Edf where
  C : Int
  D : Int
  T : Int
  testtype : TestType
  testtime : Int
  deriving DecidableEq, Repr

/-- A process: whether it is dead, and its `edf` with the flag `Admitted`. -/
structure Proc where
  dead : Bool
  admitted : Bool
  edf : Option Edf
  deriving DecidableEq, Repr

/-- The event of `e` comes before that of `x`. -/
def earlier (e x : Edf) : Prop :=
  e.testtime - x.testtime < 0 ∨
    (e.testtime = x.testtime ∧ e.testtype = .dl ∧ x.testtype = .rl)

instance (e x : Edf) : Decidable (earlier e x) := inferInstanceAs (Decidable (_ ∨ _))

/-- `testenq`. -/
def testenq (e : Edf) : List Edf → List Edf
  | [] => [e]
  | x :: t => if earlier e x then e :: x :: t else x :: testenq e t

/-- The processes to be tested, with their events set to a release at 0. -/
def candidates (procs : List Proc) (theproc : Nat) : List Edf :=
  procs.zipIdx.filterMap fun (p, i) =>
    if p.dead then none
    else if !p.admitted ∧ i ≠ theproc then none
    else p.edf.map fun e => { e with testtype := .rl, testtime := 0 }

/-- The loop of `testschedulability`.  An empty queue is not looked at: there is at least
`theproc`. -/
def testLoop : Nat → Int → Int → List Edf → Option String
  | 0, _, _, _ => some "probably not schedulable"
  | _ + 1, _, _, [] => some "probably not schedulable"
  | steps + 1, H, G, p :: q =>
    let ticks := p.testtime
    match p.testtype with
    | .dl =>
      let H := H + p.C
      let Cb := 0
      if ticks < H + Cb then some "not schedulable"
      else
        testLoop steps H G (testenq { p with testtime := p.testtime + (p.T - p.D), testtype := .rl } q)
    | .rl =>
      if ticks ≠ 0 ∧ G ≤ ticks then none
      else
        testLoop steps H (G + p.C)
          (testenq { p with testtime := p.testtime + p.D, testtype := .dl } q)

/-- `testschedulability`. -/
def testschedulability (procs : List Proc) (theproc : Nat) : Option String :=
  testLoop maxsteps 0 0 ((candidates procs theproc).foldl (fun q e => testenq e q) [])

/-- The parameters of an admitted process. -/
def Valid (e : Edf) : Prop := 0 < e.C ∧ e.C ≤ e.D ∧ e.D ≤ e.T

/-- The number of deadlines of `e` up to `t`. -/
def dues (e : Edf) (t : Int) : Int := if e.D ≤ t then (t - e.D) / e.T + 1 else 0

/-- The processor demand up to `t`. -/
def demand (l : List Edf) (t : Int) : Int := (l.map fun e => dues e t * e.C).sum

variable {e x : Edf} {l q : List Edf} {t τ k H G : Int}

/-- Deadlines up to `t` are earlier than the `k`th when that is later than `t`. -/
theorem dues_le (he : Valid e) (hk : 0 ≤ k) (ht : t < k * e.T + e.D) : dues e t ≤ k := by
  simp only [dues]
  split
  · have hT : 0 < e.T := by
      obtain ⟨hC, hD, hT⟩ := he
      omega
    have hlt : (t - e.D) / e.T < k := by
      apply Int.ediv_lt_of_lt_mul hT
      omega
    omega
  · exact hk

/-- Jobs due by `t` are among the first `k`, or due by `t - τ` when these are left out. -/
theorem dues_shift (he : Valid e) (hk : 0 ≤ k) (hτ : τ ≤ k * e.T) : dues e t ≤ k + dues e (t - τ) := by
  obtain ⟨hC, hD, hT⟩ := he
  have hTpos : 0 < e.T := by omega
  by_cases hlt : t < k * e.T + e.D
  · have hle := dues_le ⟨hC, hD, hT⟩ hk hlt
    have hnonneg : 0 ≤ dues e (t - τ) := by
      simp only [dues]
      split
      · have hdiv : 0 ≤ (t - τ - e.D) / e.T := Int.ediv_nonneg (by omega) (by omega)
        omega
      · exact Int.le_refl 0
    omega
  · have h1 : e.D ≤ t - τ := by omega
    have h2 : e.D ≤ t := by
      have hmul : 0 ≤ k * e.T := Int.mul_nonneg hk (by omega)
      omega
    simp only [dues, if_pos h1, if_pos h2]
    have hsub : (t - e.D) / e.T = (t - e.D - k * e.T) / e.T + k := by
      rw [← Int.add_mul_ediv_right _ _ (by omega)]
      congr 1
      omega
    have hmono : (t - e.D - k * e.T) / e.T ≤ (t - τ - e.D) / e.T :=
      Int.ediv_le_ediv hTpos (by omega)
    omega

theorem earlier_trans {y : Edf} (hyx : earlier y x) (hxe : earlier x e) : earlier y e := by
  rcases hyx with hlt | ⟨heq, hy, hx⟩
  · rcases hxe with hlt' | ⟨heq', _, _⟩
    · exact Or.inl (by omega)
    · exact Or.inl (by omega)
  · rcases hxe with hlt' | ⟨_, hx', _⟩
    · exact Or.inl (by omega)
    · rw [hx] at hx'
      cases hx'

/-- The queue is in order. -/
def Sorted (q : List Edf) : Prop := q.Pairwise fun x y => ¬ earlier y x

theorem testenq_perm (e : Edf) (q : List Edf) : (testenq e q).Perm (e :: q) := by
  induction q with
  | nil => exact List.Perm.refl _
  | cons x t ih =>
    simp only [testenq]
    split
    · exact List.Perm.refl _
    · exact (ih.cons x).trans (List.Perm.swap e x t)

theorem Sorted.testenq (h : Sorted q) (e : Edf) : Sorted (testenq e q) := by
  induction q with
  | nil => exact pairwise_singleton _ _
  | cons x t ih =>
    obtain ⟨hx, ht⟩ := pairwise_cons.mp h
    simp only [EdfAdmit.testenq]
    split
    · next hlt =>
        refine pairwise_cons.mpr ⟨?_, h⟩
        intro y hy hye
        rcases mem_cons.mp hy with rfl | hyt
        · rcases hlt with hlt | ⟨heq, he, hy'⟩
          · rcases hye with hlt' | ⟨heq', _, _⟩
            · omega
            · omega
          · rcases hye with hlt' | ⟨_, hy'', _⟩
            · omega
            · rw [hy'] at hy''
              cases hy''
        · exact hx y hyt (earlier_trans hye hlt)
    · next hnot =>
        refine pairwise_cons.mpr ⟨?_, ih ht⟩
        intro y hy
        rcases mem_cons.mp ((testenq_perm e t).mem_iff.mp hy) with rfl | hyt
        · exact hnot
        · exact hx y hyt

/-- The event is the `k`th release of the process, or the `k`th deadline. -/
def AtEvent (e : Edf) (k : Int) : Prop :=
  0 ≤ k ∧ e.testtime = k * e.T + match e.testtype with | .rl => 0 | .dl => e.D

/-- The deadlines of the process that have passed. -/
def passed (e : Edf) : Int :=
  match e.testtype with
  | .rl => e.testtime / e.T
  | .dl => (e.testtime - e.D) / e.T

/-- The releases of the process that have passed. -/
def released (e : Edf) : Int :=
  match e.testtype with
  | .rl => e.testtime / e.T
  | .dl => (e.testtime - e.D) / e.T + 1

theorem AtEvent.counts (h : AtEvent e k) (he : Valid e) :
    passed e = k ∧ released e = match e.testtype with | .rl => k | .dl => k + 1 := by
  obtain ⟨_, htime⟩ := h
  have hT : e.T ≠ 0 := by
    obtain ⟨hC, hD, hT⟩ := he
    omega
  simp only [passed, released]
  cases htype : e.testtype with
  | rl =>
    rw [htype] at htime
    simp only at htime
    have hdiv : e.testtime / e.T = k := by
      rw [htime, Int.add_zero]
      exact Int.mul_ediv_cancel k hT
    simp [hdiv]
  | dl =>
    rw [htype] at htime
    simp only at htime
    have hdiv : (e.testtime - e.D) / e.T = k := by
      rw [htime, Int.add_sub_cancel]
      exact Int.mul_ediv_cancel k hT
    simp [hdiv]

/-- The state of the test, with no event before `now`. -/
structure Sim (now H G : Int) (q : List Edf) : Prop where
  sorted : Sorted q
  valid : ∀ e ∈ q, Valid e
  event : ∀ e ∈ q, ∃ k, AtEvent e k
  front : ∀ e ∈ q, now ≤ e.testtime
  dueCost : H = (q.map fun e => passed e * e.C).sum
  releasedCost : G = (q.map fun e => released e * e.C).sum
  meets : H ≤ now
  early : ∀ t, 0 < t → t < now → demand q t ≤ t

variable {now : Int}

/-- No deadline up to `t` is left. -/
theorem Sim.demand_le (h : Sim now H G q)
    (ht : ∀ e ∈ q, t < e.testtime ∨ (e.testtype = .rl ∧ t ≤ e.testtime)) : demand q t ≤ H := by
  rw [h.dueCost]
  apply sum_le_sum
  intro e he
  have hv := h.valid e he
  obtain ⟨k, hk⟩ := h.event e he
  rw [(hk.counts hv).1]
  apply Int.mul_le_mul_of_nonneg_right _ (by obtain ⟨hC, _⟩ := hv; omega)
  apply dues_le hv hk.1
  have htime := hk.2
  have hcase := ht e he
  obtain ⟨hC, hD, hT⟩ := hv
  cases htype : e.testtype with
  | rl =>
    rw [htype] at htime hcase
    simp only at htime
    rcases hcase with hlt | ⟨_, hle⟩
    · omega
    · omega
  | dl =>
    rw [htype] at htime hcase
    simp only at htime
    rcases hcase with hlt | ⟨hrl, _⟩
    · omega
    · cases hrl

/-- The next event is the first of the queue. -/
theorem Sim.advance {p : Edf} (h : Sim now H G (p :: q)) : Sim p.testtime H G (p :: q) := by
  have hfirst := h.front p mem_cons_self
  have hall : ∀ e ∈ p :: q, p.testtime ≤ e.testtime := by
    intro e he
    rcases mem_cons.mp he with rfl | heq
    · exact Int.le_refl _
    · have hnot := (pairwise_cons.mp h.sorted).1 e heq
      have hnlt : ¬ e.testtime - p.testtime < 0 := fun hlt => hnot (Or.inl hlt)
      omega
  refine ⟨h.sorted, h.valid, h.event, hall, h.dueCost, h.releasedCost, ?_, ?_⟩
  · have hm := h.meets
    omega
  · intro t hpos ht
    by_cases hnow : t < now
    · exact h.early t hpos hnow
    · have hle := h.demand_le (t := t) (fun e he => Or.inl (by have hfe := hall e he; omega))
      have hm := h.meets
      omega

/-- Only the event of the process changes. -/
structure SameTask (p p' : Edf) : Prop where
  C : p'.C = p.C
  D : p'.D = p.D
  T : p'.T = p.T

theorem demand_testenq {p p' : Edf} (h : SameTask p p') (q : List Edf) (t : Int) :
    demand (testenq p' q) t = demand (p :: q) t := by
  have hdues : dues p' t = dues p t := by simp only [dues, h.D, h.T]
  rw [demand, ((testenq_perm p' q).map fun e => dues e t * e.C).sum_eq, demand, map_cons,
    map_cons, sum_cons, sum_cons, hdues, h.C]

/-- The first event is taken and the next one of the same process put into the queue. -/
theorem Sim.replace {p p' : Edf} {H' G' : Int} (h : Sim p.testtime H G (p :: q)) (hsame : SameTask p p')
    (hevent : ∃ k, AtEvent p' k) (hlater : p.testtime ≤ p'.testtime)
    (hH : H' - H = (passed p' - passed p) * p.C) (hG : G' - G = (released p' - released p) * p.C)
    (hmeets : H' ≤ p.testtime) : Sim p.testtime H' G' (testenq p' q) := by
  have hmem : ∀ e, e ∈ testenq p' q → e = p' ∨ e ∈ q :=
    fun e he => mem_cons.mp ((testenq_perm p' q).mem_iff.mp he)
  have hsorted := (pairwise_cons.mp h.sorted).2
  have hdue := h.dueCost
  have hrel := h.releasedCost
  rw [map_cons, sum_cons] at hdue hrel
  refine ⟨Sorted.testenq hsorted p', ?_, ?_, ?_, ?_, ?_, hmeets, ?_⟩
  · intro e he
    rcases hmem e he with rfl | heq
    · have hp := h.valid p mem_cons_self
      rw [Valid, hsame.C, hsame.D, hsame.T]
      exact hp
    · exact h.valid e (mem_cons_of_mem _ heq)
  · intro e he
    rcases hmem e he with rfl | heq
    · exact hevent
    · exact h.event e (mem_cons_of_mem _ heq)
  · intro e he
    rcases hmem e he with rfl | heq
    · exact hlater
    · exact h.front e (mem_cons_of_mem _ heq)
  · rw [((testenq_perm p' q).map fun e => passed e * e.C).sum_eq, map_cons, sum_cons, hsame.C]
    rw [Int.sub_mul] at hH
    omega
  · rw [((testenq_perm p' q).map fun e => released e * e.C).sum_eq, map_cons, sum_cons, hsame.C]
    rw [Int.sub_mul] at hG
    omega
  · intro t hpos ht
    rw [demand_testenq hsame]
    exact h.early t hpos ht

/-- A deadline passes. -/
theorem Sim.deadline {p : Edf} (h : Sim p.testtime H G (p :: q)) (htype : p.testtype = .dl)
    (hmeets : H + p.C ≤ p.testtime) :
    Sim p.testtime (H + p.C) G
      (testenq { p with testtime := p.testtime + (p.T - p.D), testtype := .rl } q) := by
  have hv := h.valid p mem_cons_self
  obtain ⟨k, hk⟩ := h.event p mem_cons_self
  have htime := hk.2
  have hcounts := hk.counts hv
  rw [htype] at htime hcounts
  simp only at htime hcounts
  have hnext : AtEvent { p with testtime := p.testtime + (p.T - p.D), testtype := .rl } (k + 1) := by
    refine ⟨by have hk0 := hk.1; omega, ?_⟩
    simp only [Int.add_mul]
    omega
  have hcounts' := hnext.counts (show Valid _ from hv)
  simp only at hcounts'
  obtain ⟨hC, hD, hT⟩ := hv
  refine h.replace ⟨rfl, rfl, rfl⟩ ⟨k + 1, hnext⟩ ?_ ?_ ?_ hmeets
  · simp only
    omega
  · rw [hcounts'.1, hcounts.1, add_sub_cancel_left, add_sub_cancel_left, Int.one_mul]
  · rw [hcounts'.2, hcounts.2, Int.sub_self, Int.sub_self, Int.zero_mul]

/-- A release. -/
theorem Sim.release {p : Edf} (h : Sim p.testtime H G (p :: q)) (htype : p.testtype = .rl) :
    Sim p.testtime H (G + p.C) (testenq { p with testtime := p.testtime + p.D, testtype := .dl } q) := by
  have hv := h.valid p mem_cons_self
  obtain ⟨k, hk⟩ := h.event p mem_cons_self
  have htime := hk.2
  have hcounts := hk.counts hv
  rw [htype] at htime hcounts
  simp only at htime hcounts
  have hnext : AtEvent { p with testtime := p.testtime + p.D, testtype := .dl } k := by
    refine ⟨hk.1, ?_⟩
    simp only
    omega
  have hcounts' := hnext.counts (show Valid _ from hv)
  simp only at hcounts'
  obtain ⟨hC, hD, hT⟩ := hv
  refine h.replace ⟨rfl, rfl, rfl⟩ ⟨k, hnext⟩ ?_ ?_ ?_ h.meets
  · simp only
    omega
  · rw [hcounts'.1, hcounts.1, Int.sub_self, Int.sub_self, Int.zero_mul]
  · rw [hcounts'.2, hcounts.2, add_sub_cancel_left, add_sub_cancel_left, Int.one_mul]

/-- **The exit is sound.**  At a release by which everything released before could have been
done, the demand is met at all times. -/
theorem Sim.exit {p : Edf} (h : Sim p.testtime H G (p :: q)) (htype : p.testtype = .rl)
    (hzero : p.testtime ≠ 0) (hG : G ≤ p.testtime) (hpos : 0 < t) : demand (p :: q) t ≤ t := by
  have hnonneg : 0 < p.testtime := by
    obtain ⟨hC, hD, hT⟩ := h.valid p mem_cons_self
    obtain ⟨k, hk, htime⟩ := h.event p mem_cons_self
    rw [htype] at htime
    have hmul : 0 ≤ k * p.T := Int.mul_nonneg hk (by omega)
    simp only at htime
    omega
  -- events at the same time are releases
  have hsame : ∀ e ∈ p :: q, p.testtime < e.testtime ∨ (e.testtype = .rl ∧ p.testtime ≤ e.testtime) := by
    intro e he
    have hfront := h.front e he
    cases het : e.testtype with
    | rl => exact Or.inr ⟨rfl, hfront⟩
    | dl =>
      left
      rcases mem_cons.mp he with rfl | heq
      · rw [htype] at het
        cases het
      · have hnot := (pairwise_cons.mp h.sorted).1 e heq
        have hne : e.testtime ≠ p.testtime := fun heqt => hnot (Or.inr ⟨heqt, het, htype⟩)
        omega
  -- what is due by `t` was released before, or is due by `t - p.testtime`
  have hshift : ∀ t, demand (p :: q) t ≤ G + demand (p :: q) (t - p.testtime) := by
    intro t
    rw [h.releasedCost, demand, demand, ← sum_map_add]
    apply sum_le_sum
    intro e he
    have hv := h.valid e he
    obtain ⟨k, hk⟩ := h.event e he
    have htime := hk.2
    have hcounts := (hk.counts hv).2
    have hτ : p.testtime ≤ released e * e.T ∧ 0 ≤ released e := by
      have hk0 := hk.1
      have hcase := hsame e he
      obtain ⟨hC, hD, hT⟩ := hv
      cases het : e.testtype with
      | rl =>
        rw [het] at htime hcounts
        simp only at htime hcounts
        rw [hcounts]
        omega
      | dl =>
        rw [het] at htime hcounts
        simp only at htime hcounts
        rw [hcounts, Int.add_mul]
        have hfront := h.front e he
        omega
    have hle := dues_shift (t := t) hv hτ.2 hτ.1
    have hC : 0 ≤ e.C := by
      obtain ⟨hC, _⟩ := hv
      omega
    have hmul := Int.mul_le_mul_of_nonneg_right hle hC
    rw [Int.add_mul] at hmul
    exact hmul
  -- by induction on `t`, in steps of `p.testtime`
  obtain ⟨n, hn⟩ : ∃ n : Nat, t.toNat = n := ⟨_, rfl⟩
  induction n using Nat.strong_induction_on generalizing t with
  | _ n ih =>
    rcases lt_trichotomy t p.testtime with hlt | heq | hgt
    · exact h.early t hpos hlt
    · have hle := h.demand_le (t := t) (by rw [heq]; exact hsame)
      have hm := h.meets
      omega
    · have hrest := ih (t - p.testtime).toNat (by omega) (t := t - p.testtime) (by omega) rfl
      have hle := hshift t
      omega

theorem Sim.sound {steps : Nat} (h : Sim now H G q) (hrun : testLoop steps H G q = none) (hpos : 0 < t) :
    demand q t ≤ t := by
  induction steps generalizing now H G q with
  | zero => cases hrun
  | succ steps ih =>
    cases q with
    | nil => cases hrun
    | cons p q =>
      have hp := h.advance
      simp only [testLoop] at hrun
      cases htype : p.testtype with
      | dl =>
        rw [htype] at hrun
        simp only [Int.add_zero] at hrun
        split at hrun
        · cases hrun
        · next hmeets =>
            have hle := ih (hp.deadline htype (by omega)) hrun
            rwa [demand_testenq ⟨rfl, rfl, rfl⟩] at hle
      | rl =>
        rw [htype] at hrun
        simp only at hrun
        split at hrun
        · next hexit => exact hp.exit htype hexit.1 hexit.2 hpos
        · have hle := ih (hp.release htype) hrun
          rwa [demand_testenq ⟨rfl, rfl, rfl⟩] at hle

theorem foldl_testenq (l q : List Edf) (hq : Sorted q) :
    (l.foldl (fun q e => testenq e q) q).Perm (l ++ q) ∧
    Sorted (l.foldl (fun q e => testenq e q) q) := by
  induction l generalizing q with
  | nil => exact ⟨List.Perm.refl _, hq⟩
  | cons e t ih =>
    obtain ⟨hperm, hsorted⟩ := ih _ (hq.testenq e)
    refine ⟨hperm.trans ?_, hsorted⟩
    exact ((testenq_perm e q).append_left t).trans perm_middle

theorem candidates_start {procs : List Proc} {theproc : Nat} (he : e ∈ candidates procs theproc) :
    e.testtype = .rl ∧ e.testtime = 0 := by
  simp only [candidates, mem_filterMap] at he
  obtain ⟨⟨p, i⟩, _, hp⟩ := he
  simp only at hp
  split at hp
  · cases hp
  · split at hp
    · cases hp
    · obtain ⟨e', _, rfl⟩ := Option.map_eq_some_iff.mp hp
      exact ⟨rfl, rfl⟩

/-- **Admission is sound.**  If the test finds no fault, the demand of the processes tested
is met at all times. -/
theorem testschedulability_sound (procs : List Proc) (theproc : Nat)
    (hvalid : ∀ e ∈ candidates procs theproc, 0 < e.C ∧ e.C ≤ e.D ∧ e.D ≤ e.T)
    (htest : testschedulability procs theproc = none) (t : Int) (hpos : 0 < t) :
    ((candidates procs theproc).map fun e =>
      (if e.D ≤ t then (t - e.D) / e.T + 1 else 0) * e.C).sum ≤ t := by
  obtain ⟨hperm, hsorted⟩ := foldl_testenq (candidates procs theproc) [] List.Pairwise.nil
  rw [append_nil] at hperm
  have hstart : ∀ e ∈ (candidates procs theproc).foldl (fun q e => testenq e q) [],
      e.testtype = .rl ∧ e.testtime = 0 :=
    fun e he => candidates_start (hperm.mem_iff.mp he)
  have hcount : ∀ e ∈ (candidates procs theproc).foldl (fun q e => testenq e q) [],
      passed e = 0 ∧ released e = 0 := by
    intro e he
    obtain ⟨htype, htime⟩ := hstart e he
    simp [passed, released, htype, htime]
  have hsim : Sim 0 0 0 ((candidates procs theproc).foldl (fun q e => testenq e q) []) := by
    refine ⟨hsorted, fun e he => hvalid e (hperm.mem_iff.mp he), ?_, ?_, ?_, ?_, Int.le_refl 0, ?_⟩
    · intro e he
      obtain ⟨htype, htime⟩ := hstart e he
      exact ⟨0, Int.le_refl 0, by simp [htype, htime]⟩
    · intro e he
      rw [(hstart e he).2]
    · symm
      apply sum_eq_zero
      simp only [List.forall_mem_map]
      intro e he
      rw [(hcount e he).1, Int.zero_mul]
    · symm
      apply sum_eq_zero
      simp only [List.forall_mem_map]
      intro e he
      rw [(hcount e he).2, Int.zero_mul]
    · intro t ht ht'
      omega
  have hle := hsim.sound htest hpos
  rw [demand, (hperm.map fun e => dues e t * e.C).sum_eq] at hle
  exact hle

/-- A process with cost 2, deadline 4 and period 5 beside an admitted one with 3, 8 and 10. -/
theorem testschedulability_sound_pair :
    ((candidates [⟨false, true, some ⟨3, 8, 10, .rl, 0⟩⟩, ⟨false, false, some ⟨2, 4, 5, .rl, 0⟩⟩] 1).map
      fun e => (if e.D ≤ 28 then (28 - e.D) / e.T + 1 else 0) * e.C).sum ≤ 28 :=
  testschedulability_sound _ 1 (by decide) (by decide) 28 (by decide)

end EdfAdmit
