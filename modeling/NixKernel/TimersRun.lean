import NixKernel.TimersLists

/-!
# Timers over whole runs

Three may change a timer's `tt`: the holder of its lock, `timerintr` when the timer is due, and
`timerintr` again for a periodic timer that it has taken off.  While such a timer is in flight
nobody else must look for it; then the thread that holds the lock of a timer can rely on what
it has seen.
-/

namespace Timers

open LinkList SpinLock StepSystem Option
open Function (update update_self update_of_ne update_eq_self)

set_option linter.unusedSectionVars false

variable {T M W : Type*} [DecidableEq T] [DecidableEq M] [DecidableEq W] [Fintype T]
  {s s' : Sys T M W} {l : M → List T} {k m : M} {t : T} {now fast ticks : Int} {w : W}
  {periodic tf : T → Bool}

/-- The timer whose lock a thread holds. -/
def Pc.holds : Pc T M → Option T
  | .addLocked nt _ | .addSeen nt _ _ | .addGone nt _ | .addDone nt => some nt
  | .delLocked dt | .delSeen dt _ | .delDone dt => some dt
  | _ => none

/-- The periodic timer that a thread has taken off for its callback. -/
def Pc.flies (periodic : T → Bool) : Pc T M → Option T
  | .call _ _ t => if periodic t then some t else none
  | _ => none

/-- The timer that a thread relies on to be on no list. -/
def Pc.off : Pc T M → Option T
  | .addGone nt _ => some nt
  | .delDone dt => some dt
  | _ => none

/-- The timer that a thread is about to add. -/
def Pc.adding : Pc T M → Option T
  | .addLocked nt _ | .addSeen nt _ _ | .addGone nt _ => some nt
  | _ => none

/-- The timer that a thread has seen on a list. -/
def Pc.seen : Pc T M → Option (T × M)
  | .addSeen nt _ k => some (nt, k)
  | .delSeen dt k => some (dt, k)
  | _ => none

/-- **The invariant.**  `l` are the lists, and `fl` says which thread has a periodic timer in
flight. -/
structure Inv (periodic : T → Bool) (s : Sys T M W) (l : M → List T) (fl : T → Option W) : Prop where
  lists : Lists s l
  held : Held s.lk fun w => (s.pc w).holds
  flies : Held fl fun w => (s.pc w).flies periodic
  flight : ∀ t, fl t ≠ none → s.tt t = none ∧ s.gone t = false
  off : ∀ w t, (s.pc w).off = some t → s.tt t = none ∧ fl t = none
  adding : ∀ w t, (s.pc w).adding = some t → s.gone t = false
  gone : ∀ t, s.gone t = true → s.tt t = none
  seen : ∀ w t k, (s.pc w).seen = some (t, k) → (s.tt t = none ∨ s.tt t = some k) ∧
    ∀ w' m now, periodic t = true → s.pc w' = .call m now t → m = k
  period : ∀ t, periodic t = true → 100000 ≤ s.tns t
  alive : s.dead = false

variable {fl : T → Option W} {p : Pc T M} {w' : W} {a : T}

theorem Pc.holds_of_off (h : p.off = some t) : p.holds = some t := by
  cases p <;> first | exact h | cases h

theorem Pc.holds_of_adding (h : p.adding = some t) : p.holds = some t := by
  cases p <;> first | exact h | cases h

theorem Pc.holds_of_seen (h : p.seen = some (t, k)) : p.holds = some t := by
  cases p <;> cases h <;> rfl

@[simp] theorem at_pc_self : (s.at w p).pc w = p := update_self ..

theorem at_pc_of_ne (h : w' ≠ w) : (s.at w p).pc w' = s.pc w' := update_of_ne h ..

/-- What the threads do after one has moved. -/
theorem at_map {X : Type*} (f : Pc T M → X) :
    (fun w' => f ((s.at w p).pc w')) = update (fun w' => f (s.pc w')) w (f p) := by
  funext w'
  by_cases hw : w' = w
  · subst hw
    rw [at_pc_self, update_self]
  · rw [at_pc_of_ne hw, update_of_ne hw]

/-- What another thread says is as before. -/
theorem at_some {X : Type*} {f : Pc T M → Option X} {x : X} {v : W} (hp : f p = none)
    (hv : f ((s.at w p).pc v) = some x) : v ≠ w ∧ f (s.pc v) = some x := by
  by_cases hw : v = w
  · subst hw
    rw [at_pc_self, hp] at hv
    cases hv
  · rw [at_pc_of_ne hw] at hv
    exact ⟨hw, hv⟩

theorem at_call {v : W} (hp : ∀ m now t, p ≠ .call m now t) (hv : (s.at w p).pc v = .call m now t) :
    s.pc v = .call m now t := by
  by_cases hw : v = w
  · subst hw
    rw [at_pc_self] at hv
    exact absurd hv (hp m now t)
  · rwa [at_pc_of_ne hw] at hv

/-- **A thread moves on** and keeps its lock and its timer in flight. -/
theorem Inv.move (h : Inv periodic s l fl) (hholds : (s.pc w).holds = p.holds)
    (hflies : (s.pc w).flies periodic = p.flies periodic)
    (hoff : ∀ t, p.off = some t → s.tt t = none ∧ fl t = none)
    (hadding : ∀ t, p.adding = some t → s.gone t = false)
    (hseen : ∀ t k, p.seen = some (t, k) → (s.tt t = none ∨ s.tt t = some k) ∧
      ∀ w' m now, periodic t = true → s.pc w' = .call m now t → m = k)
    (hcall : ∀ m now t, p = .call m now t → periodic t = false) : Inv periodic (s.at w p) l fl := by
  constructor
  · exact ⟨h.lists.path, h.lists.mem, h.lists.sorted⟩
  · rw [at_map Pc.holds, ← hholds]
    exact h.held.move rfl
  · rw [at_map (Pc.flies periodic), ← hflies]
    exact h.flies.move rfl
  · exact h.flight
  · intro v t hv
    by_cases hw : v = w
    · subst hw
      rw [at_pc_self] at hv
      exact hoff t hv
    · rw [at_pc_of_ne hw] at hv
      exact h.off v t hv
  · intro v t hv
    by_cases hw : v = w
    · subst hw
      rw [at_pc_self] at hv
      exact hadding t hv
    · rw [at_pc_of_ne hw] at hv
      exact h.adding v t hv
  · exact h.gone
  · intro v t k hv
    have hbefore : (s.tt t = none ∨ s.tt t = some k) ∧
        ∀ w' m now, periodic t = true → s.pc w' = .call m now t → m = k := by
      by_cases hw : v = w
      · subst hw
        rw [at_pc_self] at hv
        exact hseen t k hv
      · rw [at_pc_of_ne hw] at hv
        exact h.seen v t k hv
    refine ⟨hbefore.1, fun v' m now ht hv' => ?_⟩
    by_cases hw : v' = w
    · subst hw
      rw [at_pc_self] at hv'
      have hnot := hcall m now t hv'
      rw [ht] at hnot
      cases hnot
    · rw [at_pc_of_ne hw] at hv'
      exact hbefore.2 v' m now ht hv'
  · exact h.period
  · exact h.alive

/-- The lock is taken for adding, which ends what a `timerdel` has said of the timer. -/
theorem Inv.lock (h : Inv periodic s l fl) (hfree : s.lk t = none) (hp : p.holds = some t)
    (hold : (s.pc w).holds = none) {b : Bool} (hb : b = true → s.gone t = true)
    (hadding : ∀ a, p.adding = some a → a = t ∧ b = false)
    (hflies : (s.pc w).flies periodic = none) (hflies' : p.flies periodic = none) (hoff : p.off = none)
    (hseen : p.seen = none) :
    Inv periodic (Sys.at { s with lk := update s.lk t (some w), gone := update s.gone t b } w p) l fl := by
  have hgone : ∀ a, update s.gone t b a = true → s.gone a = true := by
    intro a ha
    by_cases hat : a = t
    · subst hat
      rw [update_self] at ha
      exact hb ha
    · rwa [update_of_ne hat] at ha
  have hstays : ∀ a, s.gone a = false → update s.gone t b a = false := by
    intro a ha
    by_contra hne
    have := hgone a (by simpa using hne)
    rw [ha] at this
    cases this
  constructor
  · exact ⟨h.lists.path, h.lists.mem, h.lists.sorted⟩
  · rw [at_map Pc.holds, hp]
    exact h.held.acquire hfree hold
  · rw [at_map (Pc.flies periodic), hflies', ← hflies]
    exact h.flies.move rfl
  · exact fun a ha => ⟨(h.flight a ha).1, hstays a (h.flight a ha).2⟩
  · exact fun v a hv => h.off v a (at_some hoff hv).2
  · intro v a hv
    by_cases hw : v = w
    · subst hw
      rw [at_pc_self] at hv
      obtain ⟨rfl, rfl⟩ := hadding a hv
      exact update_self ..
    · rw [at_pc_of_ne hw] at hv
      exact hstays a (h.adding v a hv)
  · exact fun a ha => h.gone a (hgone a ha)
  · intro v a k hv
    obtain ⟨htt, hcalls⟩ := h.seen v a k (at_some hseen hv).2
    refine ⟨htt, fun v' m now ha hv' => hcalls v' m now ha (at_call ?_ hv')⟩
    rintro m now t rfl
    cases hp
  · exact h.period
  · exact h.alive

/-- The lock is given up.  A `timerdel` says then that its timer is on no list. -/
theorem Inv.unlock (h : Inv periodic s l fl) (hold : (s.pc w).holds = some t)
    (hflies : (s.pc w).flies periodic = none) {b : Bool}
    (hb : b = true → s.gone t = true ∨ (s.tt t = none ∧ fl t = none)) :
    Inv periodic (Sys.at { s with lk := update s.lk t none, gone := update s.gone t b } w .idle) l fl := by
  have hother : ∀ v, v ≠ w → (s.pc v).holds ≠ some t := fun v hv hheld =>
    hv (h.held.unique hheld hold)
  have hoff : b = true → s.tt t = none ∧ fl t = none := by
    intro htrue
    rcases hb htrue with hgone | hoff
    · refine ⟨h.gone t hgone, ?_⟩
      by_contra hne
      have hnot := (h.flight t hne).2
      rw [hgone] at hnot
      cases hnot
    · exact hoff
  constructor
  · exact ⟨h.lists.path, h.lists.mem, h.lists.sorted⟩
  · rw [at_map Pc.holds]
    exact h.held.release hold
  · rw [at_map (Pc.flies periodic)]
    exact h.flies.move hflies
  · intro a ha
    refine ⟨(h.flight a ha).1, ?_⟩
    dsimp only [Sys.at]
    by_cases hat : a = t
    · subst hat
      rw [update_self]
      cases b with
      | false => rfl
      | true => exact absurd (hoff rfl).2 ha
    · rw [update_of_ne hat]
      exact (h.flight a ha).2
  · exact fun v a hv => h.off v a (at_some rfl hv).2
  · intro v a hv
    obtain ⟨hw, hv⟩ := at_some rfl hv
    have hat : a ≠ t := by
      rintro rfl
      exact hother v hw (Pc.holds_of_adding hv)
    dsimp only [Sys.at]
    rw [update_of_ne hat]
    exact h.adding v a hv
  · intro a ha
    dsimp only [Sys.at] at ha ⊢
    by_cases hat : a = t
    · subst hat
      rw [update_self] at ha
      exact (hoff ha).1
    · rw [update_of_ne hat] at ha
      exact h.gone a ha
  · intro v a k hv
    obtain ⟨htt, hcalls⟩ := h.seen v a k (at_some rfl hv).2
    refine ⟨htt, fun v' m now ha hv' => hcalls v' m now ha (at_call ?_ hv')⟩
    rintro m now t ⟨⟩
  · exact h.period
  · exact h.alive

section Links

variable {next : T → Option T} {head : M → Option T} {twhen : T → Int} {tns : Int} {r : M → List T}

/-- A timer goes off its list. -/
theorem Inv.leave (h : Inv periodic s l fl)
    (hlists : Lists { s with next, head, tt := update s.tt t none } r) :
    Inv periodic { s with next, head, tt := update s.tt t none } r fl := by
  have hnone : ∀ a, s.tt a = none → update s.tt t none a = none := by
    intro a ha
    by_cases hat : a = t
    · subst hat
      exact update_self ..
    · rwa [update_of_ne hat]
  refine ⟨hlists, h.held, h.flies, fun a ha => ?_, fun v a hv => ?_, h.adding, fun a ha => ?_,
    fun v a k hv => ?_, h.period, h.alive⟩
  · exact ⟨hnone a (h.flight a ha).1, (h.flight a ha).2⟩
  · exact ⟨hnone a (h.off v a hv).1, (h.off v a hv).2⟩
  · exact hnone a (h.gone a ha)
  · obtain ⟨htt, hcalls⟩ := h.seen v a k hv
    refine ⟨?_, hcalls⟩
    by_cases hat : a = t
    · subst hat
      exact Or.inl (update_self ..)
    · dsimp only
      rwa [update_of_ne hat]

/-- A timer goes on a list, when nobody relies on the contrary. -/
theorem Inv.join (h : Inv periodic s l fl) (hfl : fl t = none) (hgone : s.gone t = false)
    (hoff : ∀ v, (s.pc v).off ≠ some t) (hseen : ∀ v k, (s.pc v).seen = some (t, k) → m = k)
    (htns : periodic t = true → tns = s.tns t)
    (hlists : Lists { s with next, head, twhen, tns := update s.tns t tns, tt := update s.tt t (some m) } r) :
    Inv periodic { s with next, head, twhen, tns := update s.tns t tns, tt := update s.tt t (some m) } r fl := by
  refine ⟨hlists, h.held, h.flies, fun a ha => ?_, fun v a hv => ?_, h.adding, fun a ha => ?_,
    fun v a k hv => ?_, fun a ha => ?_, h.alive⟩
  · have hat : a ≠ t := by
      rintro rfl
      exact ha hfl
    dsimp only
    rw [update_of_ne hat]
    exact h.flight a ha
  · have hat : a ≠ t := by
      rintro rfl
      exact hoff v hv
    dsimp only
    rw [update_of_ne hat]
    exact h.off v a hv
  · have hat : a ≠ t := by
      rintro rfl
      have hyes : s.gone a = true := ha
      rw [hgone] at hyes
      cases hyes
    dsimp only
    rw [update_of_ne hat]
    exact h.gone a ha
  · obtain ⟨htt, hcalls⟩ := h.seen v a k hv
    refine ⟨?_, hcalls⟩
    dsimp only
    by_cases hat : a = t
    · subst hat
      rw [update_self, hseen v k hv]
      exact Or.inr rfl
    · rwa [update_of_ne hat]
  · dsimp only
    by_cases hat : a = t
    · subst hat
      rw [update_self, htns ha]
      exact h.period a ha
    · rw [update_of_ne hat]
      exact h.period a ha

end Links

/-- A periodic timer that has been taken off is called. -/
theorem Inv.fly (h : Inv periodic s l fl) (hpc : s.pc w = .intr m now) (ht : periodic t = true)
    (htt : s.tt t = none) (hfl : fl t = none) (hgone : s.gone t = false)
    (hoff : ∀ v, (s.pc v).off ≠ some t) (hseen : ∀ v k, (s.pc v).seen = some (t, k) → m = k) :
    Inv periodic (s.at w (.call m now t)) l (update fl t (some w)) := by
  constructor
  · exact ⟨h.lists.path, h.lists.mem, h.lists.sorted⟩
  · rw [at_map Pc.holds]
    exact h.held.move (by rw [hpc]; rfl)
  · have hflies : (Pc.call m now t).flies periodic = some t := if_pos ht
    rw [at_map (Pc.flies periodic), hflies]
    exact h.flies.acquire hfl (by rw [hpc]; rfl)
  · intro a ha
    by_cases hat : a = t
    · subst hat
      exact ⟨htt, hgone⟩
    · rw [update_of_ne hat] at ha
      exact h.flight a ha
  · intro v a hv
    obtain ⟨-, hbefore⟩ := at_some (f := Pc.off) rfl hv
    have hat : a ≠ t := by
      rintro rfl
      exact hoff v hbefore
    rw [update_of_ne hat]
    exact h.off v a hbefore
  · exact fun v a hv => h.adding v a (at_some rfl hv).2
  · exact h.gone
  · intro v a k hv
    obtain ⟨-, hbefore⟩ := at_some (f := Pc.seen) rfl hv
    obtain ⟨hold, hcalls⟩ := h.seen v a k hbefore
    refine ⟨hold, fun v' m' now' ha hv' => ?_⟩
    by_cases hw' : v' = w
    · subst hw'
      rw [at_pc_self] at hv'
      cases hv'
      exact hseen v k hbefore
    · rw [at_pc_of_ne hw'] at hv'
      exact hcalls v' m' now' ha hv'
  · exact h.period
  · exact h.alive

/-- The callback of a periodic timer has returned. -/
theorem Inv.land (h : Inv periodic s l fl) (hpc : s.pc w = .call m now t) (ht : periodic t = true) :
    Inv periodic (s.at w (.intr m now)) l (update fl t none) := by
  have hflies : (s.pc w).flies periodic = some t := by
    rw [hpc]
    exact if_pos ht
  have hless : ∀ a, update fl t none a ≠ none → fl a ≠ none := by
    intro a ha
    by_cases hat : a = t
    · subst hat
      exact absurd (update_self ..) ha
    · rwa [update_of_ne hat] at ha
  constructor
  · exact ⟨h.lists.path, h.lists.mem, h.lists.sorted⟩
  · rw [at_map Pc.holds]
    exact h.held.move (by rw [hpc]; rfl)
  · rw [at_map (Pc.flies periodic)]
    exact h.flies.release hflies
  · exact fun a ha => h.flight a (hless a ha)
  · intro v a hv
    obtain ⟨-, hv⟩ := at_some rfl hv
    refine ⟨(h.off v a hv).1, ?_⟩
    by_contra hne
    exact hless a hne (h.off v a hv).2
  · exact fun v a hv => h.adding v a (at_some rfl hv).2
  · exact h.gone
  · intro v a k hv
    obtain ⟨hold, hcalls⟩ := h.seen v a k (at_some rfl hv).2
    refine ⟨hold, fun v' m' now' ha hv' => hcalls v' m' now' ha (at_call ?_ hv')⟩
    rintro m now t ⟨⟩
  · exact h.period
  · exact h.alive

theorem Inv.not_inFlight (h : Inv periodic s l fl) (hnot : ¬ InFlight periodic s t) : fl t = none := by
  cases hfl : fl t with
  | none => rfl
  | some w =>
    exfalso
    have hw : (s.pc w).flies periodic = some t := (h.flies t w).mp hfl
    apply hnot
    cases hpc : s.pc w with
    | call m now t' =>
      rw [hpc, Pc.flies] at hw
      split at hw
      next ht =>
        cases hw
        exact ⟨ht, w, m, now, hpc⟩
      next => cases hw
    | _ =>
      rw [hpc] at hw
      cases hw

/-- `timeradd` has taken the timer off. -/
theorem Inv.at_addGone (h : Inv periodic s l fl) (hholds : (s.pc w).holds = some t)
    (hflies : (s.pc w).flies periodic = none) (hgone : s.gone t = false) (htt : s.tt t = none)
    (hfl : fl t = none) (m : M) : Inv periodic (s.at w (.addGone t m)) l fl := by
  apply h.move hholds hflies
  · rintro a ⟨⟩
    exact ⟨htt, hfl⟩
  · rintro a ⟨⟩
    exact hgone
  · rintro a k ⟨⟩
  · rintro m now a ⟨⟩

/-- `timerdel` has taken the timer off. -/
theorem Inv.at_delDone (h : Inv periodic s l fl) (hholds : (s.pc w).holds = some t)
    (hflies : (s.pc w).flies periodic = none) (htt : s.tt t = none) (hfl : fl t = none) :
    Inv periodic (s.at w (.delDone t)) l fl := by
  apply h.move hholds hflies
  · rintro a ⟨⟩
    exact ⟨htt, hfl⟩
  · rintro a ⟨⟩
  · rintro a k ⟨⟩
  · rintro m now a ⟨⟩

/-- A thread that holds no lock goes where it relies on nothing. -/
theorem Inv.free (h : Inv periodic s l fl) (hholds : (s.pc w).holds = none)
    (hflies : (s.pc w).flies periodic = none) (hp : p.holds = none)
    (hp' : p.flies periodic = none) (hcall : ∀ m now t, p = .call m now t → periodic t = false) :
    Inv periodic (s.at w p) l fl := by
  refine h.move (hholds.trans hp.symm) (hflies.trans hp'.symm) (fun a ha => ?_) (fun a ha => ?_)
    (fun a k ha => ?_) hcall
  · rw [Pc.holds_of_off ha] at hp
    cases hp
  · rw [Pc.holds_of_adding ha] at hp
    cases hp
  · rw [Pc.holds_of_seen ha] at hp
    cases hp

/-- A timer that is on no list, and that nobody relies on to be on none, is added; the thread
goes on to `p`. -/
theorem Inv.tadd (h : Inv periodic (s.at w p) l fl) (htt : s.tt t = none) (hfl : fl t = none)
    (hgone : s.gone t = false) (hoff : ∀ v, ((s.at w p).pc v).off ≠ some t)
    (hseen : ∀ v k, ((s.at w p).pc v).seen = some (t, k) → m = k) (fast ticks : Int) : ∃ s' l',
    s.tadd periodic m t fast ticks = some s' ∧ Inv periodic (s'.at w p) l' fl := by
  have hlists : Lists s l := ⟨h.lists.path, h.lists.mem, h.lists.sorted⟩
  obtain ⟨next, head, twhen, tns, r, hrun, hlists', htns⟩ := hlists.tadd htt m (h.period t) fast ticks
  refine ⟨_, r, hrun, h.join hfl hgone hoff hseen htns ?_⟩
  exact ⟨hlists'.path, hlists'.mem, hlists'.sorted⟩

/-- The same, if the timer is periodic. -/
theorem Inv.rearm (h : Inv periodic (s.at w p) l fl) (htt : s.tt t = none) (hfl : fl t = none)
    (hgone : s.gone t = false) (hoff : ∀ v, ((s.at w p).pc v).off ≠ some t)
    (hseen : ∀ v k, ((s.at w p).pc v).seen = some (t, k) → m = k) (fast ticks : Int) : ∃ s' l',
    s.rearm periodic m t fast ticks = some s' ∧ Inv periodic (s'.at w p) l' fl := by
  unfold Sys.rearm
  by_cases ht : periodic t = true
  · rw [if_pos ht]
    exact h.tadd htt hfl hgone hoff hseen fast ticks
  · rw [if_neg ht]
    exact ⟨s, l, rfl, h⟩

/-- **`timerintr`** at the head of its list. -/
theorem Inv.intr (h : Inv periodic s l fl) (hpc : s.pc w = .intr m now)
    (hrun : s.go periodic tf w fast ticks = some s') : ∃ l' fl', Inv periodic s' l' fl' := by
  have hholds : (s.pc w).holds = none := by rw [hpc]; rfl
  have hflies : (s.pc w).flies periodic = none := by rw [hpc]; rfl
  have hidle : Inv periodic (s.at w .idle) l fl := by
    apply h.free hholds hflies rfl rfl
    rintro m now a ⟨⟩
  simp only [Sys.go, hpc] at hrun
  cases hhead : s.head m with
  | none =>
    simp only [hhead] at hrun
    cases hrun
    exact ⟨l, fl, hidle⟩
  | some t =>
    simp only [hhead] at hrun
    obtain ⟨htt, r, hlists⟩ := h.lists.unlink hhead
    -- what the timer on the list excludes
    have hoff : ∀ v, (s.pc v).off ≠ some t := by
      intro v hv
      rw [(h.off v t hv).1] at htt
      cases htt
    have hgone : s.gone t = false := by
      by_contra hne
      rw [h.gone t (by simpa using hne)] at htt
      cases htt
    have hfl : fl t = none := by
      by_contra hne
      rw [(h.flight t hne).1] at htt
      cases htt
    have hseen : ∀ v k, (s.pc v).seen = some (t, k) → m = k := by
      intro v k hv
      rcases (h.seen v t k hv).1 with hnone | hsome
      · rw [hnone] at htt
        cases htt
      · exact some.inj (htt.symm.trans hsome)
    have hleft : Inv periodic (s.unlink m t) r fl := h.leave hlists
    have htt' : (s.unlink m t).tt t = none := update_self ..
    split at hrun
    next =>
      cases hrun
      exact ⟨l, fl, hidle⟩
    next =>
      rw [if_neg (not_not_intro htt)] at hrun
      split at hrun
      next =>
        cases hrun
        by_cases ht : periodic t = true
        · exact ⟨r, _, hleft.fly hpc ht htt' hfl hgone hoff hseen⟩
        · refine ⟨r, fl, hleft.free hholds hflies rfl (if_neg ht) ?_⟩
          rintro m now a ⟨⟩
          simpa using ht
      next =>
        have hstay : Inv periodic ((s.unlink m t).at w (.intr m now)) r fl := by
          apply hleft.free hholds hflies rfl rfl
          rintro m now a ⟨⟩
        obtain ⟨u, l', hu, hinv⟩ := hstay.rearm htt' hfl hgone
          (fun v hv => hoff v (at_some (f := Pc.off) rfl hv).2)
          (fun v k hv => hseen v k (at_some (f := Pc.seen) rfl hv).2) fast ticks
        rw [hu] at hrun
        cases hrun
        exact ⟨l', fl, hinv⟩

/-- **`timerintr`** behind a callback. -/
theorem Inv.call (h : Inv periodic s l fl) (hpc : s.pc w = .call m now t)
    (hrun : s.go periodic tf w fast ticks = some s') : ∃ l' fl', Inv periodic s' l' fl' := by
  simp only [Sys.go, hpc] at hrun
  by_cases ht : periodic t = true
  · have hflies : (s.pc w).flies periodic = some t := by
      rw [hpc]
      exact if_pos ht
    have hfl : fl t ≠ none := by
      rw [(h.flies t w).mpr hflies]
      exact some_ne_none w
    obtain ⟨htt, hgone⟩ := h.flight t hfl
    obtain ⟨u, l', hu, hinv⟩ := (h.land hpc ht).rearm htt (update_self ..) hgone
      (fun v hv => hfl (h.off v t (at_some (f := Pc.off) rfl hv).2).2)
      (fun v k hv => (h.seen v t k (at_some (f := Pc.seen) rfl hv).2).2 w m now ht hpc) fast ticks
    rw [hu] at hrun
    cases hrun
    exact ⟨l', _, hinv⟩
  · rw [Sys.rearm, if_neg ht] at hrun
    cases hrun
    refine ⟨l, fl, h.free (by rw [hpc]; rfl) (by rw [hpc]; exact if_neg ht) rfl rfl ?_⟩
    rintro m now a ⟨⟩

/-- **One step of a thread.** -/
theorem Inv.go (h : Inv periodic s l fl) (hrun : s.go periodic tf w fast ticks = some s')
    (hquiet : ∀ t, (s.pc w).looks = some t → ¬ InFlight periodic s t) :
    ∃ l' fl', Inv periodic s' l' fl' := by
  cases hpc : s.pc w with
  | idle =>
    simp only [Sys.go, hpc] at hrun
    cases hrun
  | addStart nt m =>
    simp only [Sys.go, hpc] at hrun
    cases hlk : s.lk nt with
    | some v =>
      simp only [hlk] at hrun
      cases hrun
    | none =>
      simp only [hlk] at hrun
      cases hrun
      refine ⟨l, fl, h.lock hlk rfl (by rw [hpc]; rfl) (fun hf => by cases hf) ?_
        (by rw [hpc]; rfl) rfl rfl rfl⟩
      rintro a ⟨⟩
      exact ⟨rfl, rfl⟩
  | addLocked nt m =>
    have hfl : fl nt = none := h.not_inFlight (hquiet nt (by rw [hpc]; rfl))
    have hgone : s.gone nt = false := h.adding w nt (by rw [hpc]; rfl)
    simp only [Sys.go, hpc] at hrun
    cases htt : s.tt nt with
    | none =>
      simp only [htt] at hrun
      cases hrun
      exact ⟨l, fl, h.at_addGone (by rw [hpc]; rfl) (by rw [hpc]; rfl) hgone htt hfl m⟩
    | some k =>
      simp only [htt] at hrun
      cases hrun
      refine ⟨l, fl, h.move (by rw [hpc]; rfl) (by rw [hpc]; rfl) ?_ ?_ ?_ ?_⟩
      · rintro a ⟨⟩
      · rintro a ⟨⟩
        exact hgone
      · rintro a k ⟨⟩
        refine ⟨Or.inr htt, fun v m' now ht hv => ?_⟩
        have hin : InFlight periodic s nt := ⟨ht, v, m', now, hv⟩
        exact absurd hin (hquiet nt (by rw [hpc]; rfl))
      · rintro m now a ⟨⟩
  | addSeen nt m k =>
    have hfl : fl nt = none := h.not_inFlight (hquiet nt (by rw [hpc]; rfl))
    have hgone : s.gone nt = false := h.adding w nt (by rw [hpc]; rfl)
    obtain ⟨next, head, r, hdel, hlists⟩ := h.lists.tdel nt
    simp only [Sys.go, hpc, hdel, map_some] at hrun
    cases hrun
    exact ⟨r, fl, (h.leave hlists).at_addGone (by rw [hpc]; rfl) (by rw [hpc]; rfl) hgone
      (update_self ..) hfl m⟩
  | addGone nt m =>
    have hholds : (s.pc w).holds = some nt := by rw [hpc]; rfl
    obtain ⟨htt, hfl⟩ := h.off w nt (by rw [hpc]; rfl)
    have hgone : s.gone nt = false := h.adding w nt (by rw [hpc]; rfl)
    have hdone : Inv periodic (s.at w (.addDone nt)) l fl := by
      apply h.move hholds (by rw [hpc]; rfl)
      · rintro a ⟨⟩
      · rintro a ⟨⟩
      · rintro a k ⟨⟩
      · rintro m now a ⟨⟩
    have hoff : ∀ v, ((s.at w (.addDone nt)).pc v).off ≠ some nt := by
      intro v hv
      obtain ⟨hw, hv⟩ := at_some (f := Pc.off) rfl hv
      exact hw (h.held.unique (Pc.holds_of_off hv) hholds)
    have hseen : ∀ v k, ((s.at w (.addDone nt)).pc v).seen = some (nt, k) → m = k := by
      intro v k hv
      obtain ⟨hw, hv⟩ := at_some (f := Pc.seen) rfl hv
      exact absurd (h.held.unique (Pc.holds_of_seen hv) hholds) hw
    obtain ⟨u, l', hadd, hinv⟩ := hdone.tadd htt hfl hgone hoff hseen fast ticks
    simp only [Sys.go, hpc, hadd, map_some] at hrun
    cases hrun
    exact ⟨l', fl, hinv⟩
  | addDone nt =>
    simp only [Sys.go, hpc] at hrun
    cases hrun
    have hinv := h.unlock (w := w) (t := nt) (b := s.gone nt) (by rw [hpc]; rfl) (by rw [hpc]; rfl)
      Or.inl
    rw [update_eq_self] at hinv
    exact ⟨l, fl, hinv⟩
  | delStart dt =>
    simp only [Sys.go, hpc] at hrun
    cases hlk : s.lk dt with
    | some v =>
      simp only [hlk] at hrun
      cases hrun
    | none =>
      simp only [hlk] at hrun
      cases hrun
      have hinv := h.lock (w := w) (t := dt) (p := .delLocked dt) (b := s.gone dt) hlk rfl
        (by rw [hpc]; rfl) id (fun a ha => by cases ha) (by rw [hpc]; rfl) rfl rfl rfl
      rw [update_eq_self] at hinv
      exact ⟨l, fl, hinv⟩
  | delLocked dt =>
    have hfl : fl dt = none := h.not_inFlight (hquiet dt (by rw [hpc]; rfl))
    simp only [Sys.go, hpc] at hrun
    cases htt : s.tt dt with
    | none =>
      simp only [htt] at hrun
      cases hrun
      exact ⟨l, fl, h.at_delDone (by rw [hpc]; rfl) (by rw [hpc]; rfl) htt hfl⟩
    | some k =>
      simp only [htt] at hrun
      cases hrun
      refine ⟨l, fl, h.move (by rw [hpc]; rfl) (by rw [hpc]; rfl) ?_ ?_ ?_ ?_⟩
      · rintro a ⟨⟩
      · rintro a ⟨⟩
      · rintro a k ⟨⟩
        refine ⟨Or.inr htt, fun v m' now ht hv => ?_⟩
        have hin : InFlight periodic s dt := ⟨ht, v, m', now, hv⟩
        exact absurd hin (hquiet dt (by rw [hpc]; rfl))
      · rintro m now a ⟨⟩
  | delSeen dt k =>
    have hfl : fl dt = none := h.not_inFlight (hquiet dt (by rw [hpc]; rfl))
    obtain ⟨next, head, r, hdel, hlists⟩ := h.lists.tdel dt
    simp only [Sys.go, hpc, hdel, map_some] at hrun
    cases hrun
    exact ⟨r, fl, (h.leave hlists).at_delDone (by rw [hpc]; rfl) (by rw [hpc]; rfl)
      (update_self ..) hfl⟩
  | delDone dt =>
    simp only [Sys.go, hpc] at hrun
    cases hrun
    exact ⟨l, fl, h.unlock (by rw [hpc]; rfl) (by rw [hpc]; rfl)
      fun _ => Or.inr (h.off w dt (by rw [hpc]; rfl))⟩
  | intr m now => exact h.intr hpc hrun
  | call m now t => exact h.call hpc hrun

/-- The timer whose lock a thread waits for. -/
def Pc.waits : Pc T M → Option T
  | .addStart nt _ => some nt
  | .delStart dt => some dt
  | _ => none

/-- **No thread gets stuck**: it goes on, unless it is idle or another one holds the lock. -/
theorem Inv.goes_on (h : Inv periodic s l fl) (hidle : s.pc w ≠ .idle)
    (hfree : ∀ t, (s.pc w).waits = some t → s.lk t = none) (fast ticks : Int) :
    ∃ s', s.go periodic tf w fast ticks = some s' := by
  cases hpc : s.pc w with
  | idle => exact absurd hpc hidle
  | addStart nt m =>
    have hlk := hfree nt (by rw [hpc]; rfl)
    simp only [Sys.go, hpc, hlk]
    exact ⟨_, rfl⟩
  | addLocked nt m =>
    cases htt : s.tt nt with
    | none | some k =>
      simp only [Sys.go, hpc, htt]
      exact ⟨_, rfl⟩
  | addSeen nt m k =>
    obtain ⟨next, head, r, hdel, -⟩ := h.lists.tdel nt
    simp only [Sys.go, hpc, hdel, map_some]
    exact ⟨_, rfl⟩
  | addGone nt m =>
    obtain ⟨htt, -⟩ := h.off w nt (by rw [hpc]; rfl)
    obtain ⟨next, head, twhen, tns, r, hadd, -⟩ := h.lists.tadd htt m (h.period nt) fast ticks
    simp only [Sys.go, hpc, hadd, map_some]
    exact ⟨_, rfl⟩
  | addDone nt | delDone dt =>
    simp only [Sys.go, hpc]
    exact ⟨_, rfl⟩
  | delStart dt =>
    have hlk := hfree dt (by rw [hpc]; rfl)
    simp only [Sys.go, hpc, hlk]
    exact ⟨_, rfl⟩
  | delLocked dt =>
    cases htt : s.tt dt with
    | none | some k =>
      simp only [Sys.go, hpc, htt]
      exact ⟨_, rfl⟩
  | delSeen dt k =>
    obtain ⟨next, head, r, hdel, -⟩ := h.lists.tdel dt
    simp only [Sys.go, hpc, hdel, map_some]
    exact ⟨_, rfl⟩
  | intr m now =>
    cases hhead : s.head m with
    | none =>
      simp only [Sys.go, hpc, hhead]
      exact ⟨_, rfl⟩
    | some t =>
      obtain ⟨htt, r, hlists⟩ := h.lists.unlink hhead
      simp only [Sys.go, hpc, hhead]
      rw [if_neg (not_not_intro htt)]
      split
      next => exact ⟨_, rfl⟩
      next =>
        split
        next => exact ⟨_, rfl⟩
        next =>
          unfold Sys.rearm
          split
          next =>
            obtain ⟨next, head, twhen, tns, r', hadd, -⟩ :=
              hlists.tadd (update_self ..) m (h.period t) fast ticks
            rw [hadd]
            exact ⟨_, rfl⟩
          next => exact ⟨_, rfl⟩
  | call m now t =>
    simp only [Sys.go, hpc, Sys.rearm]
    split
    next ht =>
      have hflies : (s.pc w).flies periodic = some t := by
        rw [hpc]
        exact if_pos ht
      have hfl : fl t ≠ none := by
        rw [(h.flies t w).mpr hflies]
        exact some_ne_none w
      obtain ⟨next, head, twhen, tns, r, hadd, -⟩ :=
        h.lists.tadd (h.flight t hfl).1 m (h.period t) fast ticks
      rw [hadd]
      exact ⟨_, rfl⟩
    next => exact ⟨_, rfl⟩

/-- A call starts. -/
theorem Inv.start (h : Inv periodic s l fl) (hpc : s.pc w = .idle) (hp : p.holds = none)
    (hp' : p.flies periodic = none) (hcall : ∀ m now t, p = .call m now t → periodic t = false) :
    Inv periodic (s.at w p) l fl :=
  h.free (by rw [hpc]; rfl) (by rw [hpc]; rfl) hp hp' hcall

/-- **One step.** -/
theorem Inv.act {a : Act T M W} (h : Inv periodic s l fl) (hproper : Proper periodic a)
    (hquiet : Quiet periodic s a) (hrun : s.act periodic tf a = some s') :
    ∃ l' fl', Inv periodic s' l' fl' := by
  cases a with
  | timeradd w m nt tns =>
    simp only [Sys.act] at hrun
    split at hrun
    next hpc =>
      cases hrun
      have hset : Inv periodic { s with tns := update s.tns nt tns } l fl := by
        refine { h with lists := ⟨h.lists.path, h.lists.mem, h.lists.sorted⟩, period := ?_ }
        intro t ht
        dsimp only
        by_cases hnt : t = nt
        · subst hnt
          rw [update_self]
          exact hproper ht
        · rw [update_of_ne hnt]
          exact h.period t ht
      refine ⟨l, fl, hset.start hpc rfl rfl ?_⟩
      rintro m now t ⟨⟩
    next => cases hrun
  | timerdel w dt | timerintr w m now =>
    simp only [Sys.act] at hrun
    split at hrun
    next hpc =>
      cases hrun
      refine ⟨l, fl, h.start hpc rfl rfl ?_⟩
      rintro m now t ⟨⟩
    next => cases hrun
  | go w fast ticks => exact h.go hrun hquiet

theorem start_inv (h : Start periodic s) : Inv periodic s (fun _ => []) fun _ => none := by
  obtain ⟨hhead, htt, hlk, hpc, hgone, hdead, hperiod⟩ := h
  refine ⟨⟨fun m => hhead m, fun m t => ?_, fun m => List.Pairwise.nil⟩, ?_, ?_, fun t ht => absurd rfl ht,
    fun w t hw => ?_, fun w t hw => ?_, fun t _ => htt t, fun w t k hw => ?_, hperiod, hdead⟩
  · simp [htt]
  · exact Held.free hlk fun w => by rw [hpc]; rfl
  · exact Held.free (fun _ => rfl) fun w => by rw [hpc]; rfl
  all_goals
    rw [hpc] at hw
    cases hw

theorem reach_inv (h : Reach periodic tf s) : ∃ l fl, Inv periodic s l fl := by
  apply h.invariant (fun s => ∃ l fl, Inv periodic s l fl)
  · exact fun s hs => ⟨_, _, start_inv hs⟩
  · rintro s a s' ⟨l, fl, hinv⟩ ⟨hproper, hquiet, hrun⟩
    exact hinv.act hproper hquiet hrun

/-- **The timer lists.**  As long as no `timeradd` and no `timerdel` looks for a periodic timer
that is off its list for its callback: no assertion fires; every list is in the order of
`twhen`, and holds exactly the timers whose `tt` points to it; a timer that has been deleted
and not been added since is on no list; a list that a thread has seen a timer on, and whose
lock it takes for that, is the only one that the timer can be on; and no thread gets stuck. -/
theorem timers_ok (h : Reach periodic tf s) :
    s.dead = false ∧
    (∃ l : M → List T, (∀ m, Path s.next (s.head m) (l m) none ∧ (l m).Nodup ∧
      (l m).Pairwise fun a b => s.twhen a ≤ s.twhen b) ∧ ∀ m t, t ∈ l m ↔ s.tt t = some m) ∧
    (∀ t, s.gone t = true → s.tt t = none) ∧
    (∀ w t k, (s.pc w).seen = some (t, k) → s.tt t = none ∨ s.tt t = some k) ∧
    ∀ w, s.pc w ≠ .idle → (∀ t, (s.pc w).waits = some t → s.lk t = none) →
      ∀ fast ticks, ∃ s', s.go periodic tf w fast ticks = some s' := by
  obtain ⟨l, fl, hinv⟩ := reach_inv h
  refine ⟨hinv.alive, ⟨l, fun m => ⟨hinv.lists.path m, (hinv.lists.path m).nodup, hinv.lists.sorted m⟩,
    hinv.lists.mem⟩, hinv.gone, fun w t k hw => (hinv.seen w t k hw).1, ?_⟩
  intro w hidle hfree fast ticks
  exact hinv.goes_on hidle hfree fast ticks

/-- One periodic timer, two processors, two threads; nothing runs. -/
def oneTimer : Sys Unit Bool Bool :=
  ⟨fun _ => none, fun _ => none, fun _ => none, fun _ => 0, fun _ => 200000, fun _ => none,
    fun _ => .idle, fun _ => false, false⟩

theorem oneTimer_start : Start (fun _ => true) oneTimer := by
  have hperiod : (100000 : Int) ≤ 200000 := by decide
  exact ⟨fun _ => rfl, fun _ => rfl, fun _ => rfl, fun _ => rfl, fun _ => rfl, rfl, fun _ _ => hperiod⟩

/-- Thread `w` adds the timer on processor `m`. -/
def adds (w m : Bool) : List (Act Unit Bool Bool) :=
  [.timeradd w m () 200000, .go w 5 3, .go w 5 3, .go w 5 3, .go w 5 3]

/-- The clock interrupt of processor `false` takes the timer off and calls it. -/
def calls : List (Act Unit Bool Bool) := [.timerintr false false 100, .go false 100 3]

/-- The timer is added, and is on the list of its processor. -/
theorem timers_ok_added : ∃ s : Sys Unit Bool Bool, Reach (fun _ => true) (fun _ => true) s ∧
    s.tt () = some false ∧ ∃ l : Bool → List Unit, () ∈ l false ∧ () ∉ l true ∧
      ∀ m, Path s.next (s.head m) (l m) none := by
  have hstart : Reach (fun _ => true) (fun _ => true) oneTimer :=
    Reach.start oneTimer_start
  have hgo : ∀ {s s' : Sys Unit Bool Bool} (w : Bool), Reach (fun _ => true) (fun _ => true) s →
      (∀ m now t, s.pc w ≠ .call m now t) → (∀ m now t, s.pc (!w) ≠ .call m now t) →
      s.go (fun _ => true) (fun _ => true) w 5 3 = some s' → Reach (fun _ => true) (fun _ => true) s' := by
    intro s s' w hs hw hw' hrun
    refine hs.next (i := .go w 5 3) ⟨trivial, ?_, hrun⟩
    rintro t - ⟨-, v, m, now, hv⟩
    cases v <;> cases w
    · exact hw m now t hv
    · exact hw' m now t hv
    · exact hw' m now t hv
    · exact hw m now t hv
  have hproper : Proper (fun _ => true) (Act.timeradd false false () 200000 : Act Unit Bool Bool) := by
    intro _
    decide
  have hcall := hstart.next ⟨hproper, trivial, rfl⟩
  have hlocked := hgo false hcall (by rintro m now t ⟨⟩) (by rintro m now t ⟨⟩) rfl
  have hread := hgo false hlocked (by rintro m now t ⟨⟩) (by rintro m now t ⟨⟩) rfl
  have hadded := hgo false hread (by rintro m now t ⟨⟩) (by rintro m now t ⟨⟩) rfl
  obtain ⟨-, ⟨l, hl, hmem⟩, -⟩ := timers_ok hadded
  refine ⟨_, hadded, rfl, l, (hmem false ()).mpr rfl, fun hin => ?_, fun m => (hl m).1⟩
  cases (hmem true ()).mp hin

/-- While the interrupt has the periodic timer off its list, another processor adds it: then
the assertion of `tadd` fires.  Or it deletes the timer: then the timer comes back. -/
theorem timer_in_flight : Start (fun _ => true) oneTimer ∧
    (∃ s, exec (Sys.act (fun _ => true) fun _ => true) oneTimer
      (adds false false ++ calls ++ adds true true ++ [.go false 100 3]) = some s ∧ s.dead = true) ∧
    ∃ s, exec (Sys.act (fun _ => true) fun _ => true) oneTimer
      (adds false false ++ calls ++ [.timerdel true (), .go true 101 3, .go true 101 3, .go true 101 3] ++
        [.go false 102 3]) = some s ∧
      s.gone () = true ∧ s.tt () = some false ∧ s.head false = some () :=
  ⟨oneTimer_start, ⟨_, rfl, rfl⟩, ⟨_, rfl, rfl, rfl, rfl⟩⟩

end Timers
