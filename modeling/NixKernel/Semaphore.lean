import NixKernel.Ring
import NixKernel.SpinLock
import NixKernel.StepSystem

/-!
# User semaphores: `port/sysproc.c`

The processes share one segment.  Every access to the integer at a user address
is a step of its own, and so is every access to `waiting`; `semqueue` and
`semdequeue` touch only what the lock of the list protects, so each is one step
that needs the lock.  The walk of `semwakeup` along the list is done node by node
with the lock held.

`sleep` tests its condition and commits itself in one step, `wakeup` is another:
the order of the two is the subject of `NixKernel.SleepWakeup`.  The clock may
take any amount off the `ms` of `tsemacquire`.
-/

namespace Sema

open StepSystem Ring

open Function (update update_self update_of_ne update_apply update_eq_self)

set_option linter.unusedSectionVars false

variable {P A : Type*}

/-- The arguments of a call that acquires.  The `ms` of `tsemacquire` is what is left of it. -/
inductive Call (A : Type*)
  | semacquire (addr : A) (block : Bool)
  | tsemacquire (addr : A) (ms : Int)

def Call.addr : Call A → A
  | .semacquire a _ | .tsemacquire a _ => a

/-- Whether the call waits when the first `canacquire` fails. -/
def Call.block : Call A → Bool
  | .semacquire _ b => b
  | .tsemacquire _ ms => ms ≠ 0

/-- `ms -= TK2MS(sys->ticks-t)`. -/
def Call.elapse (c : Call A) (t : Int) : Call A :=
  match c with
  | .semacquire a b => .semacquire a b
  | .tsemacquire a ms => .tsemacquire a (ms - t)

/-- `ms <= 0`. -/
def Call.expired : Call A → Bool
  | .semacquire _ _ => false
  | .tsemacquire _ ms => ms ≤ 0

inductive Result
  | ret (v : Int)
  | ebadarg
  | eintr
  deriving DecidableEq

/-- How a call ends that has queued itself. -/
def Call.result (c : Call A) (acquired : Bool) : Result :=
  if c.expired then .ret 0 else if acquired then .ret 1 else .eintr

/-- Where a process is.  A process in `semwakeup` remembers how its call ends. -/
inductive Pc (P A : Type*)
  | idle
  /-- In `semrelease`: at `value = *addr` and at the `cas32`. -/
  | relRead (a : A) (delta : Int)
  | relCas (a : A) (delta value : Int)
  /-- In the first `canacquire`: at `value = *addr` and at the `cas32`. -/
  | tryRead (c : Call A)
  | tryCas (c : Call A) (value : Int)
  /-- At `semqueue`. -/
  | queue (c : Call A)
  /-- At `phore.waiting = 1`. -/
  | set (c : Call A)
  /-- In the `canacquire` of the loop. -/
  | testRead (c : Call A)
  | testCas (c : Call A) (value : Int)
  /-- At the test of `sleep` or `tsleep`. -/
  | sleep (c : Call A)
  | asleep (c : Call A)
  /-- At the last test of `notepending`. -/
  | woken (c : Call A)
  /-- At `semdequeue`. -/
  | dequeue (c : Call A) (acquired : Bool)
  /-- At the test of `phore.waiting` behind it. -/
  | check (c : Call A) (acquired : Bool)
  /-- In `semwakeup`: at `lock(&s->sema)`, at the test of the loop, and at `wakeup(p)`. -/
  | wake (a : A) (n : Int) (r : Result)
  | scan (a : A) (n : Int) (p : Option P) (r : Result)
  | waking (a : A) (n : Int) (p : P) (r : Result)

/-- The state of a segment's semaphores.  `links` are those of the list at `s->sema`,
whose nodes are the `phore`s of the processes; `timedout p` stands for
`p->trend == nil`.  `released` and `acquired` count what was added to and taken from
the value at an address. -/
structure Sys (P A : Type*) where
  value : A → Int
  links : Links P
  addr : P → Option A
  waiting : P → Bool
  lk : Option P
  notepending : P → Bool
  timedout : P → Bool
  pc : P → Pc P A
  result : P → Result
  released : A → Int
  acquired : A → Nat

inductive Act (P A : Type*)
  | semrelease (p : P) (a : A) (delta : Int)
  | semacquire (p : P) (c : Call A)
  /-- The next step of `p`; `t` is what the clock takes off, where it does. -/
  | step (p : P) (t : Int)
  | postnote (p : P)
  | twakeup (p : P)

/-- What a 32-bit `int` keeps of a sum. -/
def int32 (v : Int) : Int := v.bmod (2 ^ 32)

section

variable [DecidableEq P] [DecidableEq A]

def Sys.goto (s : Sys P A) (p : P) (x : Pc P A) : Sys P A := { s with pc := update s.pc p x }

/-- The call of `p` ends. -/
def Sys.finish (s : Sys P A) (p : P) (r : Result) : Sys P A :=
  { s with pc := update s.pc p .idle, result := update s.result p r }

/-- `cas32(addr, value, value-1)` succeeds. -/
def Sys.take (s : Sys P A) (a : A) (value : Int) : Sys P A :=
  { s with
    value := update s.value a (int32 (value - 1))
    acquired := update s.acquired a (s.acquired a + 1) }

/-- `wakeup(&phore)` for the `phore` of `p`, or what `postnote` does to `p` in `sleep`. -/
def Sys.wakeup (s : Sys P A) (p : P) : Sys P A :=
  { s with
    pc := update s.pc p
      (match s.pc p with
      | .asleep c => .woken c
      | x => x) }

/-- The next step of a process. -/
def Sys.step (s : Sys P A) (p : P) (t : Int) : Option (Sys P A) :=
  match s.pc p with
  | .idle => none
  | .relRead a delta => some (s.goto p (.relCas a delta (s.value a)))
  | .relCas a delta value =>
    if s.value a = value then
      some { s with
        value := update s.value a (int32 (value + delta))
        released := update s.released a (s.released a + delta)
        pc := update s.pc p (.wake a delta (.ret (int32 (value + delta)))) }
    else some (s.goto p (.relRead a delta))
  | .tryRead c =>
    if 0 < s.value c.addr then some (s.goto p (.tryCas c (s.value c.addr)))
    else if c.block then some (s.goto p (.queue c))
    else some (s.finish p (.ret 0))
  | .tryCas c value =>
    if s.value c.addr = value then some ((s.take c.addr value).finish p (.ret 1))
    else some (s.goto p (.tryRead c))
  | .queue c =>
    match s.lk with
    | some _ => none
    | none =>
      some { s with
        addr := update s.addr p (some c.addr)
        waiting := update s.waiting p false
        links := s.links.queue p
        pc := update s.pc p (.set c) }
  | .set c => some { s with waiting := update s.waiting p true, pc := update s.pc p (.testRead c) }
  | .testRead c =>
    if 0 < s.value c.addr then some (s.goto p (.testCas c (s.value c.addr)))
    else some { s with timedout := update s.timedout p false, pc := update s.pc p (.sleep c) }
  | .testCas c value =>
    if s.value c.addr = value then some ((s.take c.addr value).goto p (.dequeue c true))
    else some (s.goto p (.testRead c))
  | .sleep c =>
    if s.waiting p = false ∨ s.notepending p ∨ s.timedout p then some (s.goto p (.woken c))
    else some (s.goto p (.asleep c))
  | .asleep _ => none
  | .woken c =>
    if s.notepending p then
      -- `error(Eintr)`: out of the loop by way of `waserror`
      some { s with
        notepending := update s.notepending p false
        pc := update s.pc p (.dequeue c false) }
    else if (c.elapse t).expired then some (s.goto p (.dequeue (c.elapse t) false))
    else some (s.goto p (.set (c.elapse t)))
  | .dequeue c acquired =>
    match s.lk with
    | some _ => none
    | none => some { s with links := s.links.dequeue p, pc := update s.pc p (.check c acquired) }
  | .check c acquired =>
    if s.waiting p then some (s.finish p (c.result acquired))
    else some (s.goto p (.wake c.addr 1 (c.result acquired)))
  | .wake a n r =>
    match s.lk with
    | some _ => none
    | none => some { s with lk := some p, pc := update s.pc p (.scan a n (s.links.next none) r) }
  | .scan _ _ none r => some { s.finish p r with lk := none }
  | .scan a n (some x) r =>
    if n ≤ 0 then some { s.finish p r with lk := none }
    else if s.addr x = some a ∧ s.waiting x then
      some { s with waiting := update s.waiting x false, pc := update s.pc p (.waking a n x r) }
    else some (s.goto p (.scan a n (s.links.next (some x)) r))
  | .waking a n x r => some ((s.wakeup x).goto p (.scan a (n - 1) (s.links.next (some x)) r))

def Sys.act (s : Sys P A) : Act P A → Option (Sys P A)
  | .semrelease p a delta =>
    match s.pc p with
    | .idle =>
      if delta < 0 ∨ s.value a < 0 then some (s.finish p .ebadarg)
      else some (s.goto p (.relRead a delta))
    | _ => none
  | .semacquire p c =>
    match s.pc p with
    | .idle =>
      if s.value c.addr < 0 then some (s.finish p .ebadarg)
      else some (s.goto p (.tryRead c))
    | _ => none
  | .step p t => s.step p t
  | .postnote p => some { s.wakeup p with notepending := update s.notepending p true }
  | .twakeup p =>
    match s.pc p with
    | .sleep (.tsemacquire _ _) | .asleep (.tsemacquire _ _) =>
      some { s.wakeup p with timedout := update s.timedout p true }
    | _ => none

/-- Releases keep the value in range. -/
def Sys.Allowed (s : Sys P A) : Act P A → Prop
  | .step p _ => ∀ a delta value,
      s.pc p = .relCas a delta value → s.value a = value → value + delta < 2 ^ 31
  | _ => True

def Sys.Step (s : Sys P A) (x : Act P A) (s' : Sys P A) : Prop := s.Allowed x ∧ s.act x = some s'

end

/-- Nobody is in a call, and every value is a non-negative `int`. -/
structure Sys.Fresh (s : Sys P A) : Prop where
  value : ∀ a, 0 ≤ s.value a ∧ s.value a < 2 ^ 31
  links : s.links.next none = none ∧ s.links.prev none = none
  lk : s.lk = none
  pc : ∀ p, s.pc p = .idle
  released : ∀ a, s.released a = 0
  acquired : ∀ a, s.acquired a = 0

/-- `p` is in `sleep` for the semaphore at `a`, or about to be, and its `waiting` is set. -/
def Sys.Sleeps (s : Sys P A) (p : P) (a : A) : Prop :=
  s.waiting p = true ∧ ∃ c, c.addr = a ∧ (s.pc p = .sleep c ∨ s.pc p = .asleep c)

/-- `q` has a wakeup for the sleepers at `a` to deliver: `semwakeup` is about to start, or
has `p` still before it, or is at `wakeup`. -/
def Sys.Delivers (s : Sys P A) (a : A) (p q : P) : Prop :=
  (∃ n r, 0 < n ∧ s.pc q = .wake a n r) ∨
    (∃ n x r, 0 < n ∧ s.pc q = .scan a n x r ∧ ∃ k, s.links.next^[k] x = some p) ∨
    ∃ n x r, s.pc q = .waking a n x r

/-- `q` is about to test the value at `a`. -/
def Sys.Tests (s : Sys P A) (a : A) (q : P) : Prop :=
  ∃ c, c.addr = a ∧ (s.pc q = .set c ∨ s.pc q = .testRead c ∨ ∃ v, s.pc q = .testCas c v)

/-- `q` was given a wakeup for `a`: it is on its way to the test or will pass it on. -/
def Sys.Given (s : Sys P A) (a : A) (q : P) : Prop :=
  s.waiting q = false ∧ ∃ c, c.addr = a ∧
    (s.pc q = .sleep c ∨ s.pc q = .woken c ∨ (∃ b, s.pc q = .dequeue c b) ∨ ∃ b, s.pc q = .check c b)

/-- What the semaphores of a segment promise after a start in `s₀`: no value is negative;
each is what it was plus what was released less the number of times it was acquired;
and where a process sleeps while the value is positive, somebody has a wakeup pending
or is about to test the value. -/
structure Sys.Ok (s₀ s : Sys P A) : Prop where
  nonneg : ∀ a, 0 ≤ s.value a
  balance : ∀ a, s.value a = s₀.value a + s.released a - s.acquired a
  stirred : ∀ p a, s.Sleeps p a → 0 < s.value a →
    ∃ q, s.Delivers a p q ∨ s.Tests a q ∨ s.Given a q

/-- The address for which a process has its `phore` on the list. -/
def Pc.queued : Pc P A → Option A
  | .set c | .testRead c | .testCas c _ | .sleep c | .asleep c | .woken c | .dequeue c _ => some c.addr
  | _ => none

/-- Whether a process holds the lock of the list. -/
def Pc.holds : Pc P A → Bool
  | .scan _ _ _ _ | .waking _ _ _ _ => true
  | _ => false

/-- What a process remembers of a value was positive, and a `delta` is not negative. -/
def Pc.Sound : Pc P A → Prop
  | .tryCas _ v | .testCas _ v => 0 < v
  | .relRead _ d | .relCas _ d _ => 0 ≤ d
  | _ => True

/-- The list holds the `phore`s of those that wait, and only the holder of its lock
walks along it. -/
structure Sys.Listed (s : Sys P A) (l : List P) : Prop where
  ring : Ringed s.links l
  queued : ∀ q, q ∈ l ↔ (s.pc q).queued.isSome
  addr : ∀ q a, (s.pc q).queued = some a → s.addr q = some a
  lock : ∀ q, s.lk = some q ↔ (s.pc q).holds = true
  cursor : ∀ q a n x r, s.pc q = .scan a n (some x) r → x ∈ l
  target : ∀ q a n x r, s.pc q = .waking a n x r → x ∈ l ∧ s.addr x = some a

/-- The values are in range and add up. -/
structure Sys.Valued (s₀ s : Sys P A) : Prop where
  range : ∀ a, 0 ≤ s.value a ∧ s.value a < 2 ^ 31
  balance : ∀ a, s.value a = s₀.value a + s.released a - s.acquired a
  sound : ∀ q, (s.pc q).Sound

/-- A sleeper whose `waiting` was cleared is about to be woken. -/
def Sys.Roused (s : Sys P A) : Prop :=
  ∀ q c, s.pc q = .asleep c → s.waiting q = false → ∃ w n r, s.pc w = .waking c.addr n q r

/-- The wakeups at `a` that a process in state `x`, with its `waiting` flag `w`, still has
for `p`: those it has to deliver, or the one it was given; a process about to test the
value counts once more. -/
def tokens [DecidableEq P] [DecidableEq A] (l : List P) (a : A) (p : P) (w : Bool) : Pc P A → Nat
  | .wake b n _ => if b = a then n.toNat else 0
  | .scan b n x _ => if b = a ∧ p ∈ rest l x then n.toNat else 0
  | .waking b n x _ => if b = a ∧ p ∈ (rest l (some x)).tail then (n - 1).toNat else 0
  | .testRead c | .testCas c _ => if c.addr = a then (if w then 1 else 2) else 0
  | .set c | .sleep c | .asleep c | .woken c | .dequeue c _ | .check c _ =>
    if c.addr = a ∧ w = false then 1 else 0
  | _ => 0

variable [Fintype P] [DecidableEq P] [DecidableEq A]

/-- For every sleeper there are at least as many wakeups under way as the value allows. -/
def Sys.Enough (s : Sys P A) (l : List P) : Prop :=
  ∀ p a, s.Sleeps p a → s.value a ≤ ∑ q, (tokens l a p (s.waiting q) (s.pc q) : Int)

structure Sys.Inv (s₀ s : Sys P A) (l : List P) : Prop where
  listed : s.Listed l
  valued : s₀.Valued s
  roused : s.Roused
  enough : s.Enough l

variable {s₀ s s' : Sys P A} {l : List P} {p q w : P} {a : A} {t : Int}

theorem Sys.Fresh.inv (h : s.Fresh) : s.Inv s [] := by
  have hpc := h.pc
  refine ⟨⟨⟨⟨h.links.1, h.links.2⟩, List.nodup_nil⟩, ?_, ?_, ?_, ?_, ?_⟩, ⟨h.value, ?_, ?_⟩, ?_, ?_⟩
  · simp [hpc, Pc.queued]
  · simp [hpc, Pc.queued]
  · simp [hpc, Pc.holds, h.lk]
  · simp [hpc]
  · simp [hpc]
  · simp [h.released, h.acquired]
  · simp [hpc, Pc.Sound]
  · intro q c hq
    simp [hpc] at hq
  · rintro q a ⟨_, c, _, hq⟩
    simp [hpc] at hq

/-- A process with a token for `p` delivers a wakeup, or is about to test, or was given one. -/
theorem Sys.Inv.helper (h : s₀.Inv s l) (htok : 0 < tokens l a p (s.waiting q) (s.pc q)) :
    ∃ q, s.Delivers a p q ∨ s.Tests a q ∨ s.Given a q := by
  cases hpc : s.pc q with
  | wake b n r =>
    simp only [hpc, tokens] at htok
    split at htok
    next hb =>
      subst hb
      exact ⟨q, Or.inl (Or.inl ⟨n, r, by omega, hpc⟩)⟩
    next => omega
  | scan b n x r =>
    simp only [hpc, tokens] at htok
    split at htok
    next hb =>
      obtain ⟨rfl, hp⟩ := hb
      have hx : ∀ y, x = some y → y ∈ l := by
        rintro y rfl
        exact h.listed.cursor q b n y r hpc
      exact ⟨q, Or.inl (Or.inr (Or.inl ⟨n, x, r, by omega, hpc, h.listed.ring.reaches hx hp⟩))⟩
    next => omega
  | waking b n x r =>
    simp only [hpc, tokens] at htok
    split at htok
    next hb => exact ⟨q, Or.inl (Or.inr (Or.inr ⟨n, x, r, hb.1 ▸ hpc⟩))⟩
    next => omega
  | asleep c =>
    -- somebody is at the `wakeup` of this process
    simp only [hpc, tokens] at htok
    split at htok
    next hc =>
      obtain ⟨w, n, r, hw⟩ := h.roused q c hpc hc.2
      exact ⟨w, Or.inl (Or.inr (Or.inr ⟨n, q, r, hc.1 ▸ hw⟩))⟩
    next => omega
  | idle | relRead _ _ | relCas _ _ _ | tryRead _ | tryCas _ _ | queue _ =>
    simp only [hpc, tokens] at htok
    omega
  | _ =>
    simp only [hpc, tokens] at htok
    split at htok
    next =>
      refine ⟨q, Or.inr ?_⟩
      simp only [Sys.Tests, Sys.Given, hpc]
      grind
    next => omega

theorem Sys.Inv.ok (h : s₀.Inv s l) : s₀.Ok s := by
  refine ⟨fun a => (h.valued.range a).1, h.valued.balance, ?_⟩
  intro p a hp hpos
  have hsum := h.enough p a hp
  have hlt : ∑ q : P, (0 : Int) < ∑ q, (tokens l a p (s.waiting q) (s.pc q) : Int) := by
    rw [Finset.sum_const_zero]
    omega
  obtain ⟨q, _, hq⟩ := Finset.exists_lt_of_sum_lt hlt
  exact h.helper (q := q) (by omega)

variable {v : Int}

theorem int32_of_range (h₀ : 0 ≤ v) (h₁ : v < 2 ^ 31) : int32 v = v := by
  unfold int32
  rw [Int.bmod_eq_of_le (by omega) (by omega)]

@[simp, grind =] theorem Call.elapse_addr (c : Call A) : (c.elapse t).addr = c.addr := by
  cases c <;> rfl

/-- What a successful `cas32` of `canacquire` stores. -/
theorem Sys.Valued.take (h : s₀.Valued s) (hv : s.value a = v) (hpos : 0 < v) :
    s₀.Valued (s.take a v) := by
  obtain ⟨h1, h2, h3⟩ := h
  have ha := h1 a
  have hsum := h2 a
  have hint : int32 (v - 1) = v - 1 := int32_of_range (by omega) (by omega)
  refine ⟨?_, ?_, h3⟩
  · intro b
    have hb := h1 b
    simp only [Sys.take, hint, update_apply]
    split <;> omega
  · intro b
    have hb := h2 b
    simp only [Sys.take, hint, update_apply]
    split
    next heq =>
      subst heq
      push_cast
      omega
    next => exact hb

theorem Sys.Valued.release (h : s₀.Valued s) {v d : Int} (hv : s.value a = v) (hd : 0 ≤ d)
    (hlt : v + d < 2 ^ 31) :
    s₀.Valued { s with
      value := update s.value a (int32 (v + d))
      released := update s.released a (s.released a + d) } := by
  obtain ⟨h1, h2, h3⟩ := h
  have ha := h1 a
  have hsum := h2 a
  have hint : int32 (v + d) = v + d := int32_of_range (by omega) hlt
  refine ⟨?_, ?_, h3⟩
  · intro b
    have hb := h1 b
    simp only [hint, update_apply]
    split <;> omega
  · intro b
    have hb := h2 b
    simp only [hint, update_apply]
    split
    next heq =>
      subst heq
      omega
    next => exact hb

/-- A process moves on from one place in its call to another. -/
structure Moves (s s' : Sys P A) (p : P) (x : Pc P A) : Prop where
  pc : s'.pc = update s.pc p x
  waiting : ∀ q, q ≠ p → s'.waiting q = s.waiting q
  addr : s'.addr = s.addr
  links : s'.links = s.links
  lk : s'.lk = s.lk

variable {x : Pc P A}

theorem Sys.Valued.move (h : s₀.Valued s) (hpc : s'.pc = update s.pc p x) (hx : x.Sound)
    (hvalue : s'.value = s.value) (hreleased : s'.released = s.released)
    (hacquired : s'.acquired = s.acquired) : s₀.Valued s' := by
  refine ⟨?_, ?_, ?_⟩
  · rw [hvalue]
    exact h.range
  · rw [hvalue, hreleased, hacquired]
    exact h.balance
  · intro q
    have hq := h.sound q
    rw [hpc, update_apply]
    split
    · exact hx
    · exact hq

/-- The tests of `Listed` on the place `x` a process moves to. -/
structure Pc.Follows (x y : Pc P A) (l : List P) : Prop where
  queued : x.queued = y.queued
  holds : x.holds = y.holds
  cursor : ∀ a n z r, x = .scan a n (some z) r → z ∈ l
  target : ∀ a n z r, x ≠ .waking a n z r

theorem Sys.Listed.move (h : s.Listed l) (hm : Moves s s' p x) (hx : x.Follows (s.pc p) l) :
    s'.Listed l := by
  obtain ⟨h1, h2, h3, h4, h5, h6⟩ := h
  obtain ⟨k1, k2, k3, k4⟩ := hx
  obtain ⟨hpc, -, haddr, hlinks, hlk⟩ := hm
  have hpc : ∀ q, s'.pc q = if q = p then x else s.pc q := by
    intro q
    rw [hpc, update_apply]
  refine ⟨hlinks ▸ h1, ?_, ?_, ?_, ?_, ?_⟩
  all_goals simp only [hpc, haddr, hlk]
  all_goals grind

theorem Sys.Roused.move (h : s.Roused) (hpc : s'.pc = update s.pc p x)
    (hwaiting : ∀ q, q ≠ p → s'.waiting q = s.waiting q) (hp : ∀ a n z r, s.pc p = .waking a n z r → ∀ c, s.pc z ≠ .asleep c)
    (hx : ∀ c, x = .asleep c → s'.waiting p = true) : s'.Roused := by
  intro q c hq hwait
  rw [hpc, update_apply] at hq
  by_cases hqp : q = p
  · subst hqp
    rw [if_pos rfl] at hq
    rw [hx c hq] at hwait
    cases hwait
  · rw [if_neg hqp] at hq
    rw [hwaiting q hqp] at hwait
    obtain ⟨w, n, r, hw⟩ := h q c hq hwait
    have hwp : w ≠ p := by
      rintro rfl
      exact hp _ _ _ _ hw c hq
    exact ⟨w, n, r, by rw [hpc, update_of_ne hwp, hw]⟩

/-- Sums of which two terms change. -/
theorem sum_le_of_shift {f g : P → Int} {k : Int} (hp : f p + k ≤ g p)
    (hother : ∀ q, q ≠ p → f q ≤ g q) : ∑ q, f q + k ≤ ∑ q, g q := by
  have hle : ∑ q, (f q + if q = p then k else 0) ≤ ∑ q, g q := by
    apply Finset.sum_le_sum
    intro q _
    split
    next hq => exact hq ▸ hp
    next hq => simpa using hother q hq
  rw [Finset.sum_add_distrib, Finset.sum_ite_eq' Finset.univ p, if_pos (Finset.mem_univ p)] at hle
  exact hle

/-- A process moves on and the value changes by no more than its tokens do. -/
theorem Sys.Enough.move (h : s.Enough l) (hpc : s'.pc = update s.pc p x)
    (hwaiting : ∀ q, q ≠ p → s'.waiting q = s.waiting q)
    (hsleeps : ∀ a, s'.Sleeps p a → s.Sleeps p a ∨ s'.value a ≤ 0)
    (htok : ∀ q a, s'.Sleeps q a → s'.value a + tokens l a q (s.waiting p) (s.pc p) ≤
      s.value a + tokens l a q (s'.waiting p) x ∨ s'.value a ≤ 0) : s'.Enough l := by
  intro q a hq
  have hzero : s'.value a ≤ 0 → s'.value a ≤ ∑ w, (tokens l a q (s'.waiting w) (s'.pc w) : Int) := by
    intro hle
    exact hle.trans (Finset.sum_nonneg (fun w _ => Int.natCast_nonneg _))
  rcases htok q a hq with hk | hle
  · have hold : s.Sleeps q a ∨ s'.value a ≤ 0 := by
      by_cases hqp : q = p
      · subst hqp
        exact hsleeps a hq
      · left
        obtain ⟨hw, c, hc, hsleep⟩ := hq
        rw [hwaiting q hqp] at hw
        rw [hpc, update_of_ne hqp] at hsleep
        exact ⟨hw, c, hc, hsleep⟩
    rcases hold with hold | hle
    · have hsum := h q a hold
      have hshift : ∑ w, (tokens l a q (s.waiting w) (s.pc w) : Int) + (s'.value a - s.value a) ≤
          ∑ w, (tokens l a q (s'.waiting w) (s'.pc w) : Int) := by
        apply sum_le_of_shift (p := p)
        · rw [hpc, update_self]
          omega
        · intro w hw
          rw [hpc, update_of_ne hw, hwaiting w hw]
      omega
    · exact hzero hle
  · exact hzero hle

theorem Sys.Inv.move (h : s₀.Inv s l) (hm : Moves s s' p x) (hvalued : s₀.Valued s')
    (hx : x.Follows (s.pc p) l) (hp : ∀ a n z r, s.pc p = .waking a n z r → ∀ c, s.pc z ≠ .asleep c)
    (hasleep : ∀ c, x = .asleep c → s'.waiting p = true)
    (hsleeps : ∀ a, s'.Sleeps p a → s.Sleeps p a ∨ s'.value a ≤ 0)
    (htok : ∀ q a, s'.Sleeps q a → s'.value a + tokens l a q (s.waiting p) (s.pc p) ≤
      s.value a + tokens l a q (s'.waiting p) x ∨ s'.value a ≤ 0) : s₀.Inv s' l :=
  ⟨h.listed.move hm hx, hvalued, h.roused.move hm.pc hm.waiting hp hasleep, h.enough.move hm.pc hm.waiting hsleeps htok⟩

/-- A process moves on and changes no value and no flag that matters here. -/
theorem Sys.Inv.goto (h : s₀.Inv s l) (hm : Moves s s' p x) (hwaiting : s'.waiting p = s.waiting p)
    (hvalue : s'.value = s.value ∧ s'.released = s.released ∧ s'.acquired = s.acquired)
    (hsound : x.Sound) (hx : x.Follows (s.pc p) l) (hp : ∀ a n z r, s.pc p = .waking a n z r → ∀ c, s.pc z ≠ .asleep c)
    (hsleep : ∀ c, x = .sleep c → s.value c.addr ≤ 0)
    (hasleep : ∀ c, x = .asleep c → s.pc p = .sleep c ∧ s.waiting p = true)
    (htok : ∀ q a, s'.Sleeps q a →
      tokens l a q (s.waiting p) (s.pc p) ≤ tokens l a q (s.waiting p) x ∨ s.value a ≤ 0) :
    s₀.Inv s' l := by
  obtain ⟨hvalue, hreleased, hacquired⟩ := hvalue
  refine h.move hm (h.valued.move hm.pc hsound hvalue hreleased hacquired) hx hp ?_ ?_ ?_
  · intro c hc
    rw [hwaiting]
    exact (hasleep c hc).2
  · rintro a ⟨hw, c, rfl, hpc⟩
    rw [hm.pc, update_self] at hpc
    rcases hpc with hpc | hpc
    · right
      rw [hvalue]
      exact hsleep c hpc
    · left
      exact ⟨(hasleep c hpc).2, c, rfl, Or.inl (hasleep c hpc).1⟩
  · intro q a hq
    rw [hvalue, hwaiting]
    have := htok q a hq
    omega

/-- A process does nothing but move on. -/
theorem Sys.Inv.pass (h : s₀.Inv s l) (hsound : x.Sound) (hx : x.Follows (s.pc p) l)
    (hp : ∀ a n z r, s.pc p = .waking a n z r → ∀ c, s.pc z ≠ .asleep c) (hsleep : ∀ c, x = .sleep c → s.value c.addr ≤ 0)
    (hasleep : ∀ c, x = .asleep c → s.pc p = .sleep c ∧ s.waiting p = true)
    (htok : ∀ q a, (s.goto p x).Sleeps q a →
      tokens l a q (s.waiting p) (s.pc p) ≤ tokens l a q (s.waiting p) x ∨ s.value a ≤ 0) : s₀.Inv (s.goto p x) l :=
  h.goto ⟨rfl, fun _ _ => rfl, rfl, rfl, rfl⟩ rfl ⟨rfl, rfl, rfl⟩ hsound hx hp hsleep hasleep htok

theorem Sys.Inv.step_relRead {d : Int} (h : s₀.Inv s l) (hpc : s.pc p = .relRead a d)
    (hrun : s.step p t = some s') : s₀.Inv s' l := by
  simp only [Sys.step, hpc, Option.some.injEq] at hrun
  subst hrun
  have hd := h.valued.sound p
  simp only [hpc, Pc.Sound] at hd
  refine h.pass hd ⟨?_, ?_, ?_, ?_⟩ ?_ ?_ ?_ ?_
  all_goals simp [hpc, Pc.queued, Pc.holds, tokens]

theorem Sys.Inv.step_relCas {d v : Int} (h : s₀.Inv s l) (hpc : s.pc p = .relCas a d v)
    (hlt : s.value a = v → v + d < 2 ^ 31) (hrun : s.step p t = some s') : s₀.Inv s' l := by
  have hd := h.valued.sound p
  simp only [hpc, Pc.Sound] at hd
  simp only [Sys.step, hpc] at hrun
  split at hrun
  next hv =>
    cases hrun
    have hreleased := h.valued.release hv hd (hlt hv)
    refine h.move (p := p) ⟨rfl, fun _ _ => rfl, rfl, rfl, rfl⟩ (hreleased.move rfl trivial rfl rfl rfl)
      ⟨?_, ?_, ?_, ?_⟩ ?_ ?_ ?_ ?_
    · simp [hpc, Pc.queued]
    · simp [hpc, Pc.holds]
    · simp
    · simp
    · simp [hpc]
    · simp
    · rintro b ⟨_, c, _, hsleep⟩
      simp at hsleep
    · intro q b _
      left
      have hint : int32 (v + d) = v + d :=
        int32_of_range (by have := h.valued.range a; omega) (hlt hv)
      simp only [tokens, update_apply, hint]
      grind
  next =>
    cases hrun
    refine h.pass hd ⟨?_, ?_, ?_, ?_⟩ ?_ ?_ ?_ ?_
    all_goals simp [hpc, Pc.queued, Pc.holds, tokens]

variable {c : Call A}

theorem Sys.Inv.step_tryRead (h : s₀.Inv s l) (hpc : s.pc p = .tryRead c)
    (hrun : s.step p t = some s') : s₀.Inv s' l := by
  simp only [Sys.step, hpc] at hrun
  split at hrun
  next hpos =>
    cases hrun
    refine h.pass hpos ⟨?_, ?_, ?_, ?_⟩ ?_ ?_ ?_ ?_
    all_goals simp [hpc, Pc.queued, Pc.holds, tokens]
  next =>
    split at hrun
    all_goals
      cases hrun
      refine h.goto ⟨rfl, fun _ _ => rfl, rfl, rfl, rfl⟩ rfl ⟨rfl, rfl, rfl⟩ trivial ⟨?_, ?_, ?_, ?_⟩
        ?_ ?_ ?_ ?_
    all_goals simp [hpc, Pc.queued, Pc.holds, tokens]

/-- The value falls by one, and so do the tokens at most. -/
theorem Sys.Inv.step_take {y : Pc P A} (h : s₀.Inv s l)
    (hpc : s.pc p = .tryCas c v ∧ y = .idle ∨ s.pc p = .testCas c v ∧ y = .dequeue c true)
    (hv : s.value c.addr = v) (hm : Moves (s.take c.addr v) s' p y)
    (hvalue : s'.value = (s.take c.addr v).value ∧ s'.released = (s.take c.addr v).released ∧ s'.acquired = (s.take c.addr v).acquired)
    (hwaiting : s'.waiting p = s.waiting p) :
    s₀.Inv s' l := by
  have hpos := h.valued.sound p
  have hpos : 0 < v := by
    rcases hpc with ⟨hpc, _⟩ | ⟨hpc, _⟩
    all_goals simpa only [hpc, Pc.Sound] using hpos
  have hsound : y.Sound := by
    rcases hpc with ⟨_, rfl⟩ | ⟨_, rfl⟩ <;> trivial
  have hint : int32 (v - 1) = v - 1 :=
    int32_of_range (by omega) (by have := h.valued.range c.addr; omega)
  have hvalued := (h.valued.take hv hpos).move hm.pc hsound hvalue.1 hvalue.2.1 hvalue.2.2
  have hm' : Moves s s' p y := ⟨hm.pc, hm.waiting, hm.addr, hm.links, hm.lk⟩
  refine h.move hm' hvalued ⟨?_, ?_, ?_, ?_⟩ ?_ ?_ ?_ ?_
  · rcases hpc with ⟨hpc, rfl⟩ | ⟨hpc, rfl⟩ <;> simp [hpc, Pc.queued]
  · rcases hpc with ⟨hpc, rfl⟩ | ⟨hpc, rfl⟩ <;> simp [hpc, Pc.holds]
  · rcases hpc with ⟨hpc, rfl⟩ | ⟨hpc, rfl⟩ <;> simp
  · rcases hpc with ⟨hpc, rfl⟩ | ⟨hpc, rfl⟩ <;> simp
  · rcases hpc with ⟨hpc, rfl⟩ | ⟨hpc, rfl⟩ <;> simp [hpc]
  · rcases hpc with ⟨hpc, rfl⟩ | ⟨hpc, rfl⟩ <;> simp
  · rintro b ⟨_, d, _, hsleep⟩
    rw [hm.pc, update_self] at hsleep
    rcases hpc with ⟨_, rfl⟩ | ⟨_, rfl⟩ <;> simp at hsleep
  · intro q b _
    left
    rw [hvalue.1, hwaiting]
    simp only [Sys.take, update_apply, hint]
    rcases hpc with ⟨hpc, rfl⟩ | ⟨hpc, rfl⟩
    all_goals simp only [hpc, tokens]
    all_goals grind

theorem Sys.Inv.step_cas (h : s₀.Inv s l) (hpc : s.pc p = .tryCas c v ∨ s.pc p = .testCas c v)
    (hrun : s.step p t = some s') : s₀.Inv s' l := by
  rcases hpc with hpc | hpc
  all_goals
    simp only [Sys.step, hpc] at hrun
    split at hrun
    next hv =>
      cases hrun
      exact h.step_take (by simp [hpc]) hv ⟨rfl, fun _ _ => rfl, rfl, rfl, rfl⟩ ⟨rfl, rfl, rfl⟩ rfl
    next =>
      cases hrun
      refine h.pass trivial ⟨?_, ?_, ?_, ?_⟩ ?_ ?_ ?_ ?_
      all_goals simp [hpc, Pc.queued, Pc.holds, tokens]

theorem Sys.Inv.step_testRead (h : s₀.Inv s l) (hpc : s.pc p = .testRead c)
    (hrun : s.step p t = some s') : s₀.Inv s' l := by
  simp only [Sys.step, hpc] at hrun
  split at hrun
  next hpos =>
    cases hrun
    refine h.pass hpos ⟨?_, ?_, ?_, ?_⟩ ?_ ?_ ?_ ?_
    all_goals simp [hpc, Pc.queued, Pc.holds, tokens]
  next hzero =>
    cases hrun
    refine h.goto ⟨rfl, fun _ _ => rfl, rfl, rfl, rfl⟩ rfl ⟨rfl, rfl, rfl⟩ trivial ⟨?_, ?_, ?_, ?_⟩ ?_ ?_ ?_ ?_
    all_goals grind [Pc.queued, Pc.holds, tokens]

theorem Sys.Inv.step_set (h : s₀.Inv s l) (hpc : s.pc p = .set c) (hrun : s.step p t = some s') :
    s₀.Inv s' l := by
  simp only [Sys.step, hpc, Option.some.injEq] at hrun
  subst hrun
  have hm : Moves s { s with waiting := update s.waiting p true, pc := update s.pc p (.testRead c) } p
      (.testRead c) := ⟨rfl, fun q hq => update_of_ne hq _ _, rfl, rfl, rfl⟩
  refine h.move hm (h.valued.move rfl trivial rfl rfl rfl) ⟨?_, ?_, ?_, ?_⟩ ?_ ?_ ?_ ?_
  all_goals grind [Pc.queued, Pc.holds, tokens, Sys.Sleeps]

theorem Sys.Inv.step_sleep (h : s₀.Inv s l) (hpc : s.pc p = .sleep c) (hrun : s.step p t = some s') :
    s₀.Inv s' l := by
  simp only [Sys.step, hpc] at hrun
  split at hrun
  next =>
    cases hrun
    refine h.pass trivial ⟨?_, ?_, ?_, ?_⟩ ?_ ?_ ?_ ?_
    all_goals simp [hpc, Pc.queued, Pc.holds, tokens]
  next hwait =>
    cases hrun
    have hwait : s.waiting p = true := by grind
    refine h.pass trivial ⟨?_, ?_, ?_, ?_⟩ ?_ ?_ ?_ ?_
    all_goals simp [hpc, Pc.queued, Pc.holds, tokens, hwait]

theorem Sys.Inv.step_woken (h : s₀.Inv s l) (hpc : s.pc p = .woken c) (hrun : s.step p t = some s') :
    s₀.Inv s' l := by
  simp only [Sys.step, hpc] at hrun
  repeat' split at hrun
  all_goals
    cases hrun
    refine h.goto ⟨rfl, fun _ _ => rfl, rfl, rfl, rfl⟩ rfl ⟨rfl, rfl, rfl⟩ trivial ⟨?_, ?_, ?_, ?_⟩ ?_ ?_ ?_ ?_
  all_goals simp [hpc, Pc.queued, Pc.holds, tokens]

theorem Sys.Inv.step_check {b : Bool} (h : s₀.Inv s l) (hpc : s.pc p = .check c b)
    (hrun : s.step p t = some s') : s₀.Inv s' l := by
  simp only [Sys.step, hpc] at hrun
  split at hrun
  all_goals
    cases hrun
    refine h.goto ⟨rfl, fun _ _ => rfl, rfl, rfl, rfl⟩ rfl ⟨rfl, rfl, rfl⟩ trivial ⟨?_, ?_, ?_, ?_⟩ ?_ ?_ ?_ ?_
  all_goals grind [Pc.queued, Pc.holds, tokens]

/-- Only who walks along the list has tokens that depend on it. -/
theorem tokens_list {l' : List P} {b : Bool} (hx : x.holds = false) :
    tokens l a p b x = tokens l' a p b x := by
  cases x <;> simp_all [Pc.holds, tokens]

theorem Sys.Listed.unlocked (h : s.Listed l) (hlk : s.lk = none) (q : P) : (s.pc q).holds = false := by
  have hq := h.lock q
  rw [hlk] at hq
  simpa using hq

/-- Nobody walks along the list while it changes, so only the tokens of the process that
changes it matter. -/
theorem Sys.Enough.relink {l' : List P} (h : s.Enough l) (hlk : ∀ q, (s.pc q).holds = false)
    (hpc : s'.pc = update s.pc p x) (hwaiting : ∀ q, q ≠ p → s'.waiting q = s.waiting q)
    (hvalue : s'.value = s.value) (hx : ∀ c, x ≠ .sleep c ∧ x ≠ .asleep c)
    (htok : ∀ q a, s.Sleeps q a →
      tokens l a q (s.waiting p) (s.pc p) ≤ tokens l' a q (s'.waiting p) x) : s'.Enough l' := by
  intro q a hq
  obtain ⟨hw, c, hc, hqpc⟩ := hq
  have hqp : q ≠ p := by
    rintro rfl
    rw [hpc, update_self] at hqpc
    have := hx c
    tauto
  rw [hwaiting q hqp] at hw
  rw [hpc, update_of_ne hqp] at hqpc
  rw [hvalue]
  have hq : s.Sleeps q a := ⟨hw, c, hc, hqpc⟩
  calc s.value a ≤ ∑ w, (tokens l a q (s.waiting w) (s.pc w) : Int) := h q a hq
    _ ≤ ∑ w, (tokens l' a q (s'.waiting w) (s'.pc w) : Int) := by
        apply Finset.sum_le_sum
        intro w _
        by_cases hwp : w = p
        · subst hwp
          have := htok q a hq
          rw [hpc, update_self]
          omega
        · rw [hpc, update_of_ne hwp, hwaiting w hwp, @tokens_list _ _ _ _ _ _ _ _ _ l' _ (hlk w)]

theorem Sys.Inv.step_queue (h : s₀.Inv s l) (hpc : s.pc p = .queue c) (hrun : s.step p t = some s') :
    s₀.Inv s' (l ++ [p]) := by
  simp only [Sys.step, hpc] at hrun
  split at hrun
  next => cases hrun
  next hlk =>
    cases hrun
    have hfree := h.listed.unlocked hlk
    obtain ⟨h1, h2, h3, h4, h5, h6⟩ := h.listed
    have hp : p ∉ l := by simp [h2, hpc, Pc.queued]
    refine ⟨⟨h1.queue hp, ?_, ?_, ?_, ?_, ?_⟩, h.valued.move rfl trivial rfl rfl rfl,
      h.roused.move (p := p) rfl ?_ (by simp [hpc]) (by simp), ?_⟩
    · grind [Pc.queued]
    · grind [Pc.queued]
    · grind [Pc.holds]
    · grind
    · grind
    · grind
    · exact h.enough.relink hfree rfl (fun q hq => update_of_ne hq _ _) rfl (by simp)
        (by simp [hpc, tokens])

theorem Sys.Inv.step_dequeue {b : Bool} (h : s₀.Inv s l) (hpc : s.pc p = .dequeue c b)
    (hrun : s.step p t = some s') : s₀.Inv s' (l.erase p) := by
  simp only [Sys.step, hpc] at hrun
  split at hrun
  next => cases hrun
  next hlk =>
    cases hrun
    have hfree := h.listed.unlocked hlk
    obtain ⟨h1, h2, h3, h4, h5, h6⟩ := h.listed
    have hp : p ∈ l := by simp [h2, hpc, Pc.queued]
    have hmem : ∀ q, q ∈ l.erase p ↔ q ≠ p ∧ q ∈ l := fun q => h1.nodup.mem_erase_iff
    refine ⟨⟨h1.dequeue hp, ?_, ?_, ?_, ?_, ?_⟩, h.valued.move rfl trivial rfl rfl rfl,
      h.roused.move (p := p) rfl ?_ (by simp [hpc]) (by simp), ?_⟩
    · grind [Pc.queued]
    · grind [Pc.queued]
    · grind [Pc.holds]
    · grind [Pc.holds]
    · grind [Pc.holds]
    · grind
    · exact h.enough.relink hfree rfl (fun _ _ => rfl) rfl (by simp) (by simp [hpc, tokens])

theorem Sys.Listed.mem_of_sleeps (h : s.Listed l) (hp : s.Sleeps p a) : p ∈ l := by
  obtain ⟨_, c, _, hpc⟩ := hp
  rw [h.queued]
  rcases hpc with hpc | hpc <;> simp [hpc, Pc.queued]

variable {r : Result} {n : Int}

theorem Sys.Inv.step_wake (h : s₀.Inv s l) (hpc : s.pc p = .wake a n r)
    (hrun : s.step p t = some s') : s₀.Inv s' l := by
  simp only [Sys.step, hpc] at hrun
  split at hrun
  next => cases hrun
  next hlk =>
    cases hrun
    have hfree := h.listed.unlocked hlk
    have hhead : ∀ x, s.links.next none = some x → x ∈ l :=
      fun x hx => h.listed.ring.next_mem (by simp) hx
    obtain ⟨h1, h2, h3, h4, h5, h6⟩ := h.listed
    refine ⟨⟨h1, ?_, ?_, ?_, ?_, ?_⟩, h.valued.move rfl trivial rfl rfl rfl,
      h.roused.move (p := p) rfl (fun _ _ => rfl) (by simp [hpc]) (by simp), ?_⟩
    · grind [Pc.queued]
    · grind [Pc.queued]
    · grind [Pc.holds]
    · grind
    · grind
    · refine h.enough.relink hfree rfl (fun _ _ => rfl) rfl (by simp) ?_
      intro q b hq
      simp [hpc, tokens, h1.rest_next, h.listed.mem_of_sleeps hq]

/-- The end of the walk. -/
theorem Sys.Inv.unlock {z : Option P} (h : s₀.Inv s l) (hpc : s.pc p = .scan a n z r)
    (hend : z = none ∨ n ≤ 0) :
    s₀.Inv { s.finish p r with lk := none } l := by
  obtain ⟨h1, h2, h3, h4, h5, h6⟩ := h.listed
  have hp := h4 p
  refine ⟨⟨h1, ?_, ?_, ?_, ?_, ?_⟩, h.valued.move rfl trivial rfl rfl rfl,
    h.roused.move (p := p) rfl (fun _ _ => rfl) (by simp [hpc]) (by simp),
    h.enough.move (p := p) rfl (fun _ _ => rfl) ?_ ?_⟩
  all_goals simp only [Sys.finish]
  · grind [Pc.queued]
  · grind [Pc.queued]
  · grind [Pc.holds]
  · grind
  · grind
  · rintro b ⟨_, c, _, hsleep⟩
    simp at hsleep
  · intro q b _
    left
    rcases hend with rfl | hn
    · simp [hpc, tokens]
    · simp only [hpc, tokens, Int.toNat_of_nonpos hn]
      simp

/-- A waiter is given a wakeup: the one who gives it has one token less, and the waiter one
more. -/
theorem Sys.Enough.give {z : P} (h : s.Enough l) (hl : s.Listed l)
    (hpc : s.pc p = .scan a n (some z) r) (hz : s.addr z = some a) (hwait : s.waiting z = true) :
    Sys.Enough
      { s with waiting := update s.waiting z false, pc := update s.pc p (.waking a n z r) } l := by
  have hzl := hl.cursor p a n z r hpc
  have hzq : (s.pc z).queued = some a := by
    obtain ⟨b, hb⟩ := Option.isSome_iff_exists.mp ((hl.queued z).mp hzl)
    rw [hb, ← hz, hl.addr z b hb]
  have hpz : z ≠ p := by
    rintro rfl
    simp [hpc, Pc.queued] at hzq
  intro q b hq
  obtain ⟨hw, c, hc, hqpc⟩ := hq
  have hqz : q ≠ z := by
    rintro rfl
    simp at hw
  have hqp : q ≠ p := by
    rintro rfl
    simp at hqpc
  simp only [update_of_ne hqz] at hw
  simp only [update_of_ne hqp] at hqpc
  have hle : ∑ w, ((tokens l b q (s.waiting w) (s.pc w) : Int) + if w = z then (if a = b then 1 else 0) else 0) ≤
      ∑ w, ((tokens l b q (update s.waiting z false w) (update s.pc p (.waking a n z r) w) : Int) +
        if w = p then (if a = b then 1 else 0) else 0) := by
    apply Finset.sum_le_sum
    intro w _
    by_cases hwz : w = z
    · subst hwz
      rw [update_self, update_of_ne hpz, if_pos rfl, if_neg hpz, hwait]
      cases hwpc : s.pc w <;> grind [tokens, Pc.queued]
    · rw [update_of_ne hwz, if_neg hwz]
      by_cases hwp : w = p
      · subst hwp
        rw [update_self, if_pos rfl, hpc]
        simp only [tokens, hl.ring.rest_step hzl, List.mem_cons, List.tail_cons, hqz, false_or]
        grind
      · rw [update_of_ne hwp, if_neg hwp]
  rw [Finset.sum_add_distrib, Finset.sum_add_distrib, Finset.sum_ite_eq' Finset.univ z,
    Finset.sum_ite_eq' Finset.univ p, if_pos (Finset.mem_univ z), if_pos (Finset.mem_univ p)] at hle
  have hsum := h q b ⟨hw, c, hc, hqpc⟩
  simp only at hsum ⊢
  omega

theorem Sys.Inv.step_scan {z : Option P} (h : s₀.Inv s l) (hpc : s.pc p = .scan a n z r)
    (hrun : s.step p t = some s') : s₀.Inv s' l := by
  cases z with
  | none =>
    simp only [Sys.step, hpc, Option.some.injEq] at hrun
    subst hrun
    exact h.unlock hpc (Or.inl rfl)
  | some z =>
    have hz := h.listed.cursor p a n z r hpc
    simp only [Sys.step, hpc] at hrun
    split at hrun
    next hn =>
      cases hrun
      exact h.unlock hpc (Or.inr hn)
    next hn =>
      split at hrun
      next hgive =>
        cases hrun
        obtain ⟨haddr, hwait⟩ := hgive
        have henough := h.enough.give h.listed hpc haddr hwait
        obtain ⟨h1, h2, h3, h4, h5, h6⟩ := h.listed
        have hp := h4 p
        refine ⟨⟨h1, ?_, ?_, ?_, ?_, ?_⟩, h.valued.move rfl trivial rfl rfl rfl, ?_, henough⟩
        · grind [Pc.queued]
        · grind [Pc.queued]
        · grind [Pc.holds]
        · grind
        · grind
        · intro q c hq hq'
          have hold := h.roused q c
          have hzq := h3 z
          by_cases hqz : q = z
          · subst hqz
            refine ⟨p, n, r, ?_⟩
            grind [Pc.queued]
          · have hqp : q ≠ p := by
              rintro rfl
              simp at hq
            simp only [update_of_ne hqz] at hq'
            simp only [update_of_ne hqp] at hq
            obtain ⟨w, m, r', hw⟩ := hold hq hq'
            have hwp : w ≠ p := by
              rintro rfl
              rw [hpc] at hw
              cases hw
            exact ⟨w, m, r', by simp only [update_of_ne hwp, hw]⟩
      next hskip =>
        cases hrun
        refine h.pass trivial ⟨?_, ?_, ?_, ?_⟩ ?_ ?_ ?_ ?_
        · simp [hpc, Pc.queued]
        · simp [hpc, Pc.holds]
        · rintro b m y r' hx
          injection hx with _ _ hy
          exact h.listed.ring.path.next_mem hz hy
        · simp
        · simp [hpc]
        · simp
        · simp
        · rintro q b ⟨hw, c, rfl, hq⟩
          left
          -- the node left behind is not a sleeper for this address
          have hqz : a = c.addr → q ≠ z := by
            rintro ha rfl
            have hqp : q ≠ p := by
              rintro rfl
              simp [Sys.goto] at hq
            simp only [Sys.goto, update_of_ne hqp] at hq
            have haddr := h.listed.addr q c.addr
            exact hskip ⟨by grind [Pc.queued], hw⟩
          simp only [hpc, tokens, h.listed.ring.rest_step hz, List.mem_cons]
          grind

theorem Sys.Inv.wakeup (h : s₀.Inv s l) (q : P) : s₀.Inv (s.wakeup q) l := by
  cases hpc : s.pc q with
  | asleep c =>
    have heq : s.wakeup q = { s with pc := update s.pc q (.woken c) } := by simp [Sys.wakeup, hpc]
    rw [heq]
    refine h.pass (p := q) trivial ⟨?_, ?_, ?_, ?_⟩ ?_ ?_ ?_ ?_
    all_goals simp [hpc, Pc.queued, Pc.holds, tokens]
  | _ =>
    have heq : s.wakeup q = s := by
      simp only [Sys.wakeup, hpc]
      rw [← hpc, update_eq_self]
    rw [heq]
    exact h

theorem Sys.Inv.step_waking {z : P} (h : s₀.Inv s l) (hpc : s.pc p = .waking a n z r)
    (hrun : s.step p t = some s') : s₀.Inv s' l := by
  simp only [Sys.step, hpc, Option.some.injEq] at hrun
  subst hrun
  have hz := (h.listed.target p a n z r hpc).1
  have hpz : p ≠ z := by
    rintro rfl
    have := (h.listed.queued p).mp hz
    simp [hpc, Pc.queued] at this
  have hpc' : (s.wakeup z).pc p = .waking a n z r := by
    simp only [Sys.wakeup, update_of_ne hpz, hpc]
  have hz' : ∀ c, (s.wakeup z).pc z ≠ .asleep c := by
    intro c
    simp only [Sys.wakeup, update_self]
    cases s.pc z <;> simp
  refine (h.wakeup z).pass (p := p) trivial ⟨?_, ?_, ?_, ?_⟩ ?_ ?_ ?_ ?_
  · simp [hpc', Pc.queued]
  · simp [hpc', Pc.holds]
  · rintro b m y r' hx
    injection hx with _ _ hy
    exact h.listed.ring.path.next_mem hz hy
  · simp
  · rintro b m y r' hy c
    rw [hpc'] at hy
    cases hy
    exact hz' c
  · simp
  · simp
  · intro q b _
    left
    simp [hpc', tokens, h.listed.ring.rest_step hz]

theorem Sys.Inv.step (h : s₀.Inv s l) (hrun : s.step p t = some s') (hallowed : s.Allowed (.step p t)) :
    ∃ l', s₀.Inv s' l' := by
  cases hpc : s.pc p with
  | idle | asleep c => simp [Sys.step, hpc] at hrun
  | relRead a d => exact ⟨l, h.step_relRead hpc hrun⟩
  | relCas a d v => exact ⟨l, h.step_relCas hpc (hallowed a d v hpc) hrun⟩
  | tryRead c => exact ⟨l, h.step_tryRead hpc hrun⟩
  | tryCas c v => exact ⟨l, h.step_cas (Or.inl hpc) hrun⟩
  | queue c => exact ⟨_, h.step_queue hpc hrun⟩
  | set c => exact ⟨l, h.step_set hpc hrun⟩
  | testRead c => exact ⟨l, h.step_testRead hpc hrun⟩
  | testCas c v => exact ⟨l, h.step_cas (Or.inr hpc) hrun⟩
  | sleep c => exact ⟨l, h.step_sleep hpc hrun⟩
  | woken c => exact ⟨l, h.step_woken hpc hrun⟩
  | dequeue c b => exact ⟨_, h.step_dequeue hpc hrun⟩
  | check c b => exact ⟨l, h.step_check hpc hrun⟩
  | wake a n r => exact ⟨l, h.step_wake hpc hrun⟩
  | scan a n z r => exact ⟨l, h.step_scan hpc hrun⟩
  | waking a n z r => exact ⟨l, h.step_waking hpc hrun⟩

theorem Sys.Inv.flags (h : s₀.Inv s l) {note timedout : P → Bool} :
    s₀.Inv { s with notepending := note, timedout := timedout } l :=
  ⟨{ h.listed with },
    ⟨h.valued.range, h.valued.balance, h.valued.sound⟩, h.roused, h.enough⟩

theorem Sys.Inv.act {i : Act P A} (h : s₀.Inv s l) (hstep : s.Step i s') : ∃ l', s₀.Inv s' l' := by
  obtain ⟨hallowed, hrun⟩ := hstep
  cases i with
  | semrelease p a d =>
    simp only [Sys.act] at hrun
    repeat' split at hrun
    next hpc hbad =>
      cases hrun
      refine ⟨l, h.goto ⟨rfl, fun _ _ => rfl, rfl, rfl, rfl⟩ rfl ⟨rfl, rfl, rfl⟩ trivial ⟨?_, ?_, ?_, ?_⟩ ?_ ?_ ?_ ?_⟩
      all_goals simp [hpc, Pc.queued, Pc.holds, tokens]
    next hpc hgood =>
      cases hrun
      have hd : 0 ≤ d := by omega
      refine ⟨l, h.pass hd ⟨?_, ?_, ?_, ?_⟩ ?_ ?_ ?_ ?_⟩
      all_goals simp [hpc, Pc.queued, Pc.holds, tokens]
    next => cases hrun
  | semacquire p c =>
    simp only [Sys.act] at hrun
    repeat' split at hrun
    next hpc _ =>
      cases hrun
      refine ⟨l, h.goto ⟨rfl, fun _ _ => rfl, rfl, rfl, rfl⟩ rfl ⟨rfl, rfl, rfl⟩ trivial ⟨?_, ?_, ?_, ?_⟩ ?_ ?_ ?_ ?_⟩
      all_goals simp [hpc, Pc.queued, Pc.holds, tokens]
    next hpc _ =>
      cases hrun
      refine ⟨l, h.pass trivial ⟨?_, ?_, ?_, ?_⟩ ?_ ?_ ?_ ?_⟩
      all_goals simp [hpc, Pc.queued, Pc.holds, tokens]
    next => cases hrun
  | step p t => exact h.step hrun hallowed
  | postnote p =>
    cases hrun
    exact ⟨l, (h.wakeup p).flags⟩
  | twakeup p =>
    simp only [Sys.act] at hrun
    split at hrun
    iterate 2 next =>
      cases hrun
      exact ⟨l, (h.wakeup p).flags⟩
    next => cases hrun

/-- **User semaphores in any run**: see `Sys.Ok`. -/
theorem sema_ok (h₀ : s₀.Fresh) (hr : Reach (· = s₀) Sys.Step s) : s₀.Ok s := by
  have hinv : ∃ l, s₀.Inv s l := by
    apply hr.invariant (fun s => ∃ l, s₀.Inv s l)
    · rintro s rfl
      exact ⟨[], h₀.inv⟩
    · rintro s i s' ⟨l, h⟩ hstep
      exact h.act hstep
  obtain ⟨l, h⟩ := hinv
  exact h.ok

/-- Process 0 sleeps for the semaphore at 0 when process 1 has added one to it and is about
to wake its waiters. -/
theorem sema_ok_released :
    ∃ s₀ s : Sys (Fin 2) Nat, s₀.Fresh ∧ s.Sleeps 0 0 ∧ s.value 0 = 1 ∧ s₀.Ok s := by
  let s₀ : Sys (Fin 2) Nat :=
    ⟨fun _ => 0, ⟨fun _ => none, fun _ => none⟩, fun _ => none, fun _ => false, none, fun _ => false,
      fun _ => false, fun _ => .idle, fun _ => .ret 0, fun _ => 0, fun _ => 0⟩
  have h₀ : s₀.Fresh :=
    ⟨fun _ => ⟨le_refl _, by simp [s₀]⟩, ⟨rfl, rfl⟩, rfl, fun _ => rfl, fun _ => rfl, fun _ => rfl⟩
  have h₁ : Reach (· = s₀) Sys.Step s₀ := Reach.start rfl
  have h₂ := h₁.next (i := Act.semacquire 0 (.semacquire 0 true)) ⟨trivial, rfl⟩
  have h₃ := h₂.next (i := Act.step 0 0) ⟨nofun, rfl⟩
  have h₄ := h₃.next (i := Act.step 0 0) ⟨nofun, rfl⟩
  have h₅ := h₄.next (i := Act.step 0 0) ⟨nofun, rfl⟩
  have h₆ := h₅.next (i := Act.step 0 0) ⟨nofun, rfl⟩
  have h₇ := h₆.next (i := Act.step 0 0) ⟨nofun, rfl⟩
  have k₁ := h₇.next (i := Act.semrelease 1 0 1) ⟨trivial, rfl⟩
  have k₂ := k₁.next (i := Act.step 1 0) ⟨nofun, rfl⟩
  have k₃ := k₂.next (i := Act.step 1 0) ⟨by rintro a d v ⟨⟩ _; decide, rfl⟩
  exact ⟨s₀, _, h₀, ⟨rfl, _, rfl, Or.inr rfl⟩, rfl, sema_ok h₀ k₃⟩

end Sema
