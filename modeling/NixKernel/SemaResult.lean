import NixKernel.Semaphore

/-!
# What a timed acquisition returns: `port/sysproc.c`

`tsemacquire` keeps whether it acquired the semaphore in `acquired` and what is left of
its time in `ms`, and looks at `ms` first when it comes to return.  A `Record` adds to
the semaphores of a segment the call a process made last and how often a `cas32` of this
call has taken from the value.

The system call reads its argument as an `ulong` and keeps it in an `int`, so that an
argument from `2 ^ 31` on is a negative time: it does not keep the call from the loop, and
the `canacquire` there may succeed when `ms` has been below zero from the start.
-/

namespace Sema

open StepSystem

open Function (update update_self update_of_ne)

variable {P A : Type*}

/-- `systsemacquire`: the `ulong` of the argument becomes an `int`. -/
def systsemacquire (addr : A) (n : UInt32) : Call A := .tsemacquire addr (int32 n.toNat)

/-- The next step of `p` is a `cas32` for a lesser value, and it succeeds. -/
def Sys.takes [DecidableEq A] (s : Sys P A) (p : P) : Bool :=
  match s.pc p with
  | .tryCas c value | .testCas c value => s.value c.addr = value
  | _ => false

/-- The semaphores with what became of the calls: `call p` is the call that `p` is in or
made last, if it was one that reached `canacquire`, and `took p` is how often it has
taken from the value. -/
structure Record (P A : Type*) where
  sys : Sys P A
  call : P → Option (Call A)
  took : P → Nat

section

variable [DecidableEq P] [DecidableEq A]

def Record.act (r : Record P A) (x : Act P A) : Option (Record P A) :=
  (r.sys.act x).map fun s =>
    match x with
    | .semrelease p _ _ => { r with sys := s, call := update r.call p none }
    | .semacquire p c =>
      { sys := s
        call := update r.call p (if r.sys.value c.addr < 0 then none else some c)
        took := update r.took p 0 }
    | .step p _ =>
      { r with sys := s, took := update r.took p (r.took p + if r.sys.takes p then 1 else 0) }
    | .postnote _ | .twakeup _ => { r with sys := s }

end

/-- No process is in a call, or has made one. -/
structure Record.Fresh (r : Record P A) : Prop where
  pc : ∀ p, r.sys.pc p = .idle
  call : ∀ p, r.call p = none

/-- The call of `p` returned 1 exactly if it decremented the semaphore, and it returned 0 or
raised `Eintr` exactly if it did not. -/
def Record.Exact (r : Record P A) (p : P) : Prop :=
  (r.sys.result p = .ret 1 ↔ r.took p = 1) ∧
    (r.sys.result p = .ret 0 ∨ r.sys.result p = .eintr ↔ r.took p = 0)

/-- In every run, whatever was in the semaphores before it, every call of `tsemacquire`
with the argument `n` ends as it should. -/
def Tells (n : UInt32) : Prop :=
  ∀ (P A : Type) [DecidableEq P] [DecidableEq A] (r₀ r : Record P A) (p : P) (a : A),
    r₀.Fresh → Reach (· = r₀) (fun r x r' => r.act x = some r') r →
      r.call p = some (systsemacquire a n) → r.sys.pc p = .idle → r.Exact p

/-- The result that goes with a number of decrements. -/
def Told (v : Result) (took : Nat) : Prop :=
  (v = .ret 1 ∧ took = 1) ∨ ((v = .ret 0 ∨ v = .eintr) ∧ took = 0)

theorem Told.exact {r : Record P A} {p : P} (h : Told (r.sys.result p) (r.took p)) : r.Exact p := by
  obtain ⟨hr, hk⟩ | ⟨hr, hk⟩ := h
  · rw [Record.Exact, hr, hk]
    decide
  · rw [Record.Exact, hk]
    rcases hr with hr | hr <;> rw [hr] <;> decide

/-- The call does not wait, or has time left. -/
def Call.InTime (c : Call A) : Prop := c.block = true → c.expired = false

/-- What a call has done where it is, if it started in time. -/
def Pc.Accounts (v : Result) (took : Nat) : Pc P A → Prop
  | .idle => Told v took
  | .relRead _ _ | .relCas _ _ _ => False
  | .tryRead c | .tryCas c _ => took = 0 ∧ c.InTime
  | .queue c | .set c | .testRead c | .testCas c _ | .sleep c | .asleep c | .woken c =>
    took = 0 ∧ c.expired = false
  | .dequeue c b | .check c b => Told (c.result b) took
  | .wake _ _ v' | .scan _ _ _ v' | .waking _ _ _ v' => Told v' took

/-- Every call that started in time keeps its account. -/
def Record.Inv (r : Record P A) : Prop :=
  ∀ p c, r.call p = some c → c.InTime → (r.sys.pc p).Accounts (r.sys.result p) (r.took p)

section

variable [DecidableEq P] [DecidableEq A] {s s' : Sys P A} {p q : P} {t : Int} {v : Result} {k : Nat}

omit [DecidableEq A] in
/-- A wakeup only gets a sleeper out of its sleep. -/
theorem Sys.wakeup_accounts (h : (s.pc p).Accounts v k) : ((s.wakeup q).pc p).Accounts v k := by
  rcases eq_or_ne p q with rfl | hne
  · simp only [Sys.wakeup, update_self]
    cases hpc : s.pc p <;> rw [hpc] at h <;> exact h
  · simpa only [Sys.wakeup, update_of_ne hne] using h

/-- The step of another process. -/
theorem Sys.step_other (hne : p ≠ q) (hrun : s.step q t = some s') :
    s'.result p = s.result p ∧ ((s.pc p).Accounts v k → (s'.pc p).Accounts v k) := by
  cases hpc : s.pc q with
  | waking a n x r =>
    simp only [Sys.step, hpc, Option.some.injEq] at hrun
    subst hrun
    refine ⟨rfl, fun h => ?_⟩
    simpa only [Sys.goto, update_of_ne hne] using Sys.wakeup_accounts h
  | scan a n x r =>
    cases x <;> simp only [Sys.step, hpc] at hrun <;> repeat' split at hrun
    all_goals cases hrun
    all_goals simp [Sys.goto, Sys.finish, update_of_ne hne]
  | _ =>
    simp only [Sys.step, hpc] at hrun
    repeat' split at hrun
    all_goals cases hrun
    all_goals simp [Sys.goto, Sys.finish, Sys.take, update_of_ne hne]

/-- The step of the process itself. -/
theorem Sys.step_own (h : (s.pc p).Accounts (s.result p) k) (hrun : s.step p t = some s') :
    (s'.pc p).Accounts (s'.result p) (k + if s.takes p then 1 else 0) := by
  cases hpc : s.pc p with
  | idle | asleep c => simp [Sys.step, hpc] at hrun
  | relRead a d | relCas a d w =>
    rw [hpc] at h
    exact h.elim
  | tryRead c =>
    rw [hpc] at h
    obtain ⟨rfl, htime⟩ := h
    simp only [Sys.step, hpc] at hrun
    split at hrun
    next =>
      cases hrun
      simpa [Sys.goto, Sys.takes, hpc, Pc.Accounts] using htime
    next =>
      split at hrun
      next hblock =>
        cases hrun
        simpa [Sys.goto, Sys.takes, hpc, Pc.Accounts] using htime hblock
      next =>
        cases hrun
        simp [Sys.finish, Sys.takes, hpc, Pc.Accounts, Told]
  | tryCas c w =>
    rw [hpc] at h
    obtain ⟨rfl, htime⟩ := h
    simp only [Sys.step, hpc] at hrun
    split at hrun
    next hsame =>
      cases hrun
      simp [Sys.finish, Sys.take, Sys.takes, hpc, hsame, Pc.Accounts, Told]
    next hchanged =>
      cases hrun
      simpa [Sys.goto, Sys.takes, hpc, hchanged, Pc.Accounts] using htime
  | testCas c w =>
    rw [hpc] at h
    obtain ⟨rfl, hleft⟩ := h
    simp only [Sys.step, hpc] at hrun
    split at hrun
    next hsame =>
      -- `acquired = 1` with time left: 1 is returned
      cases hrun
      simp [Sys.goto, Sys.take, Sys.takes, hpc, hsame, Pc.Accounts, Told, Call.result, hleft]
    next hchanged =>
      cases hrun
      simpa [Sys.goto, Sys.takes, hpc, hchanged, Pc.Accounts] using hleft
  | woken c =>
    rw [hpc] at h
    obtain ⟨rfl, hleft⟩ := h
    simp only [Sys.step, hpc] at hrun
    split at hrun
    next =>
      cases hrun
      simp [Sys.takes, hpc, Pc.Accounts, Told, Call.result, hleft]
    next =>
      split at hrun
      next hexpired =>
        cases hrun
        simp [Sys.goto, Sys.takes, hpc, Pc.Accounts, Told, Call.result, hexpired]
      next hmore =>
        cases hrun
        simpa [Sys.goto, Sys.takes, hpc, Pc.Accounts] using hmore
  | scan a n x r =>
    rw [hpc] at h
    cases x <;> simp only [Sys.step, hpc] at hrun <;> repeat' split at hrun
    all_goals cases hrun
    all_goals simpa [Sys.goto, Sys.finish, Sys.takes, hpc, Pc.Accounts] using h
  | _ =>
    -- the rest goes on with what it has
    rw [hpc] at h
    simp only [Sys.step, hpc] at hrun
    repeat' split at hrun
    all_goals cases hrun
    all_goals simpa [Sys.goto, Sys.finish, Sys.takes, hpc, Pc.Accounts] using h

end

section

variable [DecidableEq P] [DecidableEq A] {r r₀ r' : Record P A} {p : P}

omit [DecidableEq P] [DecidableEq A] in
theorem Record.Fresh.inv (h : r.Fresh) : r.Inv := by
  intro p c hcall
  rw [h.call p] at hcall
  cases hcall

theorem Record.Inv.act {x : Act P A} (h : r.Inv) (hrun : r.act x = some r') : r'.Inv := by
  obtain ⟨s, hs, rfl⟩ := Option.map_eq_some_iff.mp hrun
  intro p c hcall htime
  cases x with
  | semrelease q a d =>
    rcases eq_or_ne p q with rfl | hne
    · simp at hcall
    · simp only [update_of_ne hne] at hcall
      simp only [Sys.act] at hs
      repeat' split at hs
      all_goals cases hs
      all_goals simpa only [Sys.finish, Sys.goto, update_of_ne hne] using h p c hcall htime
  | semacquire q c' =>
    simp only [Sys.act] at hs
    split at hs
    next =>
      rcases eq_or_ne p q with rfl | hne
      · simp only [update_self] at hcall ⊢
        split at hcall
        next => cases hcall
        next hvalue =>
          cases hcall
          rw [if_neg hvalue] at hs
          cases hs
          simpa [Sys.goto, Pc.Accounts] using htime
      · simp only [update_of_ne hne] at hcall ⊢
        split at hs
        all_goals cases hs
        all_goals simpa only [Sys.finish, Sys.goto, update_of_ne hne] using h p c hcall htime
    next => cases hs
  | step q t =>
    rcases eq_or_ne p q with rfl | hne
    · simp only [update_self]
      exact Sys.step_own (h p c hcall htime) hs
    · obtain ⟨hresult, hkeep⟩ := Sys.step_other hne hs
      simp only [update_of_ne hne, hresult]
      exact hkeep (h p c hcall htime)
  | postnote q =>
    cases hs
    exact Sys.wakeup_accounts (h p c hcall htime)
  | twakeup q =>
    simp only [Sys.act] at hs
    split at hs
    all_goals cases hs
    all_goals exact Sys.wakeup_accounts (h p c hcall htime)

/-- In any run a call that started in time and has ended is exact. -/
theorem Record.Fresh.exact (h₀ : r₀.Fresh) (hr : Reach (· = r₀) (fun r x r' => r.act x = some r') r)
    {c : Call A} (hcall : r.call p = some c) (htime : c.InTime) (hpc : r.sys.pc p = .idle) :
    r.Exact p := by
  have hinv : r.Inv := by
    apply hr.invariant Record.Inv
    · rintro r rfl
      exact h₀.inv
    · intro r x r' h hrun
      exact h.act hrun
  have hended := hinv p c hcall htime
  rw [hpc] at hended
  exact Told.exact hended

end

/-- An argument below `2 ^ 31` is no negative time. -/
theorem systsemacquire_inTime {a : A} {n : UInt32} (hn : n < 2 ^ 31) : (systsemacquire a n).InTime := by
  have hlt : n.toNat < 2 ^ 31 := hn
  have hms : int32 n.toNat = n.toNat := by
    rw [int32, Int.bmod_def]
    split <;> omega
  intro hblock
  simp only [systsemacquire, Call.block, Call.expired, hms, decide_eq_true_eq, decide_eq_false_iff_not] at *
  omega

/-- One from `2 ^ 31` on is. -/
theorem systsemacquire_expired {a : A} {n : UInt32} (hn : ¬ n < 2 ^ 31) :
    (systsemacquire a n).block = true ∧ (systsemacquire a n).expired = true := by
  have hge : 2 ^ 31 ≤ n.toNat := Nat.le_of_not_lt hn
  have hlt := n.toNat_lt
  have hms : int32 n.toNat = n.toNat - 2 ^ 32 := by
    rw [int32, Int.bmod_def]
    split <;> omega
  simp only [systsemacquire, Call.block, Call.expired, hms, decide_eq_true_eq]
  omega

/-- Nobody is in a call, and the semaphore is not free. -/
def idle : Record Bool Unit where
  sys := {
    value := fun _ => 0
    links := ⟨fun _ => none, fun _ => none⟩
    addr := fun _ => none
    waiting := fun _ => false
    lk := none
    notepending := fun _ => false
    timedout := fun _ => false
    pc := fun _ => .idle
    result := fun _ => .ebadarg
    released := fun _ => 0
    acquired := fun _ => 0 }
  call := fun _ => none
  took := fun _ => 0

/-- `false` queues itself, `true` releases the semaphore, and `false` takes it in the loop. -/
def lateTake (c : Call Unit) : List (Act Bool Unit) :=
  [.semacquire false c, .step false 0, .step false 0, .step false 0,
    .semrelease true () 1, .step true 0, .step true 0,
    .step false 0, .step false 0, .step false 0, .step false 0]

/-- The call finds the semaphore taken and queues itself. -/
theorem idle_queues {c : Call Unit} (hblock : c.block = true) :
    ∃ r, exec Record.act idle [.semacquire false c, .step false 0, .step false 0, .step false 0] = some r ∧
      r.sys.pc false = .testRead c ∧ r.sys.pc true = .idle ∧ r.sys.value () = 0 ∧ r.sys.lk = none ∧
      r.sys.waiting false = true ∧ r.call false = some c ∧ r.took false = 0 := by
  simp [exec, Record.act, Sys.act, Sys.step, idle, Sys.goto, Sys.takes, hblock]

/-- Another process makes the semaphore free. -/
theorem queued_releases {r : Record Bool Unit} (hidle : r.sys.pc true = .idle) (hvalue : r.sys.value () = 0) :
    ∃ t, exec Record.act r [.semrelease true () 1, .step true 0, .step true 0] = some t ∧
      t.sys.pc false = r.sys.pc false ∧ t.sys.value () = 1 ∧ t.sys.lk = r.sys.lk ∧
      t.sys.waiting false = r.sys.waiting false ∧ t.call false = r.call false ∧ t.took false = r.took false := by
  simp [exec, Record.act, Sys.act, Sys.step, Sys.goto, Sys.takes, hidle, hvalue, int32]

/-- The call takes the free semaphore in the loop, leaves the queue and returns. -/
theorem queued_takes {r : Record Bool Unit} {c : Call Unit} (hpc : r.sys.pc false = .testRead c)
    (hvalue : r.sys.value () = 1) (hlk : r.sys.lk = none) (hwaiting : r.sys.waiting false = true) :
    ∃ t, exec Record.act r [.step false 0, .step false 0, .step false 0, .step false 0] = some t ∧
      t.call false = r.call false ∧ t.sys.pc false = .idle ∧ t.sys.result false = c.result true ∧
      t.took false = r.took false + 1 := by
  simp [exec, Record.act, Sys.act, Sys.step, Sys.goto, Sys.finish, Sys.take, Sys.takes, hpc, hvalue, hlk, hwaiting]

/-- A call with a negative time takes the semaphore in the loop and returns 0. -/
theorem lateTake_spec {c : Call Unit} (hblock : c.block = true) (hexpired : c.expired = true) :
    ∃ r, exec Record.act idle (lateTake c) = some r ∧ r.call false = some c ∧
      r.sys.pc false = .idle ∧ r.sys.result false = .ret 0 ∧ r.took false = 1 := by
  obtain ⟨r, hqueue, hpc, hidle, hvalue, hlk, hwaiting, hcall, htook⟩ := idle_queues hblock
  obtain ⟨s, hrelease, hpc', hvalue', hlk', hwaiting', hcall', htook'⟩ := queued_releases hidle hvalue
  obtain ⟨t, htake, hcall'', hdone, hresult, htook''⟩ :=
    queued_takes (hpc'.trans hpc) hvalue' (hlk'.trans hlk) (hwaiting'.trans hwaiting)
  refine ⟨t, exec_append hqueue (exec_append hrelease htake), hcall''.trans (hcall'.trans hcall), hdone, ?_, ?_⟩
  · cases c with
    | semacquire a b => cases hexpired
    | tsemacquire a ms =>
      rw [hresult, Call.result, hexpired]
      rfl
  · rw [htook'', htook', htook]

theorem not_tells {n : UInt32} (hn : ¬ n < 2 ^ 31) : ¬ Tells n := by
  intro htells
  obtain ⟨hblock, hexpired⟩ := systsemacquire_expired (A := Unit) (a := ()) hn
  obtain ⟨r, hrun, hcall, hpc, hresult, htook⟩ := lateTake_spec hblock hexpired
  have hstart : Reach (· = idle) (fun r x r' => Record.act r x = some r') idle := Reach.start rfl
  have hr := hstart.exec hrun fun _ _ _ _ hact => hact
  have hexact := htells Bool Unit idle r false () ⟨fun _ => rfl, fun _ => rfl⟩ hr hcall hpc
  have hone := hexact.1.mpr htook
  rw [hresult] at hone
  cases hone

/-- **What `tsemacquire` returns is right in every run exactly for the arguments below
`2 ^ 31`**: then 1 says that the semaphore was decremented, once, and 0 or `Eintr` that it was not. -/
theorem timed_result (n : UInt32) : Tells n ↔ n < 2 ^ 31 := by
  constructor
  · intro htells
    exact Decidable.not_not.mp fun hn => not_tells hn htells
  · intro hn P A _ _ r₀ r p a h₀ hr hcall hpc
    exact h₀.exact hr hcall (systsemacquire_inTime hn) hpc

/-- With the largest argument a call that took the semaphore may return 0. -/
theorem timed_result_largest : ¬ Tells 0xffffffff :=
  not_tells (by decide)

end Sema
