import Mathlib

/-!
# Labelled step systems and their reachable states

A step system is a set of initial states together with a labelled step relation.  `Reach` collects
the states its runs visit.
-/

namespace StepSystem

open Option

variable {σ ι : Type*}

/-- The states reached from `init` by finitely many labelled steps. -/
inductive Reach (init : σ → Prop) (step : σ → ι → σ → Prop) : σ → Prop
  | start {s : σ} (h : init s) : Reach init step s
  | next {s t : σ} {i : ι} (hr : Reach init step s) (hs : step s i t) :
      Reach init step t

variable {init : σ → Prop} {step : σ → ι → σ → Prop}

/-- **The invariant rule.** -/
theorem Reach.invariant (inv : σ → Prop) (hinit : ∀ s, init s → inv s)
    (hstep : ∀ s i t, inv s → step s i t → inv t) {s : σ}
    (hr : Reach init step s) : inv s := by
  induction hr with
  | start h => exact hinit _ h
  | next _ hs ih => exact hstep _ _ _ ih hs

/-- More steps reach more states. -/
theorem Reach.mono {step' : σ → ι → σ → Prop} (h : ∀ s i t, step s i t → step' s i t) {s : σ}
    (hr : Reach init step s) : Reach init step' s := by
  induction hr with
  | start hs => exact Reach.start hs
  | next _ hs ih => exact ih.next (h _ _ _ hs)

/-- Carry out a list of labels with a step function. -/
def exec (act : σ → ι → Option σ) : σ → List ι → Option σ
  | s, [] => some s
  | s, i :: l => (act s i).bind fun t => exec act t l

theorem exec_append {act : σ → ι → Option σ} {l r : List ι} {s t u : σ} (hl : exec act s l = some t)
    (hr : exec act t r = some u) : exec act s (l ++ r) = some u := by
  induction l generalizing s with
  | nil =>
    cases hl
    exact hr
  | cons i l ih =>
    obtain ⟨v, hv, hrest⟩ := bind_eq_some_iff.mp hl
    rw [List.cons_append, exec, hv, bind_some]
    exact ih hrest

/-- What a step function computes from a reached state is reached, if its steps are
steps of the system. -/
theorem Reach.exec {act : σ → ι → Option σ} {l : List ι} {s t : σ} (hr : Reach init step s)
    (hrun : StepSystem.exec act s l = some t)
    (hstep : ∀ s i t, i ∈ l → act s i = some t → step s i t) : Reach init step t := by
  induction l generalizing s with
  | nil =>
    cases hrun
    exact hr
  | cons i l ih =>
    obtain ⟨u, hu, hrest⟩ := bind_eq_some_iff.mp hrun
    have hnext := hr.next (hstep s i u List.mem_cons_self hu)
    exact ih hnext hrest (fun s j t hj => hstep s j t (List.mem_cons_of_mem _ hj))

/-- A run that succeeds ends where `getD` says. -/
theorem exec_getD {act : σ → ι → Option σ} {l : List ι} {s d : σ}
    (h : (exec act s l).isSome = true) : exec act s l = some ((exec act s l).getD d) :=
  (getD_of_ne_none (isSome_iff_ne_none.mp h) d).symm

/-- A run that passes a test reaches a state that does. -/
theorem Reach.exists_of_exec {act : σ → ι → Option σ} {l : List ι} {s : σ} {test : σ → Bool}
    (hr : Reach init step s) (hstep : ∀ s i t, i ∈ l → act s i = some t → step s i t)
    (hrun : (StepSystem.exec act s l).any test = true) : ∃ t, Reach init step t ∧ test t = true := by
  obtain ⟨t, ht, htest⟩ := (any_eq_true _ _).mp hrun
  exact ⟨t, hr.exec ht hstep, htest⟩

/-- No step of the run is a loss. -/
def Spared (act : σ → ι → Option σ) (lost : σ → ι → Prop) : σ → List ι → Prop
  | _, [] => True
  | s, i :: l => ¬lost s i ∧ ∀ t, act s i = some t → Spared act lost t l

theorem spared_cons {act : σ → ι → Option σ} {lost : σ → ι → Prop} {s t : σ} {i : ι} {l : List ι} (h : act s i = some t) :
    Spared act lost s (i :: l) ↔ ¬lost s i ∧ Spared act lost t l := by
  rw [Spared]
  refine and_congr_right fun _ => ⟨fun hall => hall t h, fun hspared t' ht' => ?_⟩
  rw [h] at ht'
  cases ht'
  exact hspared

theorem Spared.append {act : σ → ι → Option σ} {lost : σ → ι → Prop} {l r : List ι} {s t : σ}
    (h : Spared act lost s (l ++ r)) (hl : exec act s l = some t) : Spared act lost s l ∧ Spared act lost t r := by
  induction l generalizing s with
  | nil =>
    cases hl
    exact ⟨trivial, h⟩
  | cons i l ih =>
    obtain ⟨u, hu, hrest⟩ := bind_eq_some_iff.mp hl
    rw [List.cons_append, spared_cons hu] at h
    rw [spared_cons hu]
    exact ⟨⟨h.1, (ih h.2 hrest).1⟩, (ih h.2 hrest).2⟩

instance Spared.decidable (act : σ → ι → Option σ) (lost : σ → ι → Prop) [∀ s i, Decidable (lost s i)] :
    ∀ s l, Decidable (Spared act lost s l)
  | _, [] => isTrue trivial
  | s, i :: l =>
    match h : act s i with
    | none => decidable_of_iff (¬lost s i) ⟨fun hkept => ⟨hkept, fun t ht => nomatch h.symm.trans ht⟩, And.left⟩
    | some t =>
      have := Spared.decidable act lost t l
      decidable_of_iff (¬lost s i ∧ Spared act lost t l) (spared_cons h).symm

/-- **What is lost stays lost**: a run has lost nothing more at its end exactly if none of its steps is a loss. -/
theorem exec_loss {act : σ → ι → Option σ} {lost : σ → ι → Prop} {inv : σ → Nat → Prop}
    (hstep : ∀ s i t n, inv s n → act s i = some t → ∃ m, inv t m ∧ ((lost s i ∧ n < m) ∨ (¬lost s i ∧ m = n)))
    {l : List ι} {s u : σ} {n : Nat} (h : inv s n) (hrun : exec act s l = some u) :
    ∃ m, inv u m ∧ n ≤ m ∧ (m = n ↔ Spared act lost s l) := by
  induction l generalizing s n with
  | nil =>
    cases hrun
    exact ⟨n, h, Nat.le_refl _, iff_of_true rfl trivial⟩
  | cons i l ih =>
    obtain ⟨t, hact, hrest⟩ := bind_eq_some_iff.mp hrun
    obtain ⟨k, ht, hcase⟩ := hstep s i t n h hact
    obtain ⟨m, hu, hle, hiff⟩ := ih ht hrest
    refine ⟨m, hu, ?_⟩
    rw [spared_cons hact, ← hiff]
    rcases hcase with ⟨hlost, hlt⟩ | ⟨hkept, rfl⟩
    · exact ⟨by omega, iff_of_false (by omega) fun hspared => hspared.1 hlost⟩
    · exact ⟨hle, (and_iff_right hkept).symm⟩

end StepSystem
