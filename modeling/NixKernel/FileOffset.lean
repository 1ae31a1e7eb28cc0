import NixKernel.StepSystem
import NixKernel.Tally

/-!
# The offset of a channel: `write`

`write` adds the count to `c->offset` before the device writes, and takes back what was not written, unless it was
called by `syspwrite`.  But `pwrite` with offset -1 writes at the channel's own offset too, and the library's
`write` is just that.  Calls of `write` on one channel are interleaved: the updates of `c->offset` are made under
the channel's lock, one step each; the device write is a step between them.
-/

namespace FileOffset

open List

/-- Where a call of `write` is.  `rollback` is behind a short write, `handler` is the error handler. -/
inductive Pc
  | checks
  | device
  | rollback (r : Nat)
  | handler
  | returned (r : Nat)
  | raised
  deriving DecidableEq, Repr

/-- What the device made of the write. -/
inductive Device
  | uncalled
  | wrote (r : Nat)
  | failed
  deriving DecidableEq, Repr

/-- A call of `write`: its arguments, the variable `n`, what the device did, and what the call has added to
`c->offset` so far and not taken back.  The source does not record the last two.  `off` is -1 where the offset
argument is `~0LL`, or there is none. -/
structure Call where
  ispwrite : Bool
  off : Int
  count : Nat
  pc : Pc
  n : Nat
  device : Device
  added : Nat
  deriving DecidableEq, Repr

/-- What happens to a call: it is refused before the error handler is set, or because the file is a directory; it
goes on to the device; the device writes `r` bytes or raises an error; `c->offset` is put right. -/
inductive Act
  | refuse
  | isdir
  | begin
  | wrote (r : Nat)
  | fail
  | settle
  deriving DecidableEq, Repr

/-- One step of a call, with `c->offset`. -/
def Call.act (c : Call) (offset : Int) : Act → Option (Call × Int)
  | .refuse => if c.pc = .checks then some ({ c with pc := .raised }, offset) else none
  | .isdir => if c.pc = .checks then some ({ c with pc := .handler }, offset) else none
  | .begin =>
    if c.pc = .checks then
      if c.ispwrite = false ∨ c.off = -1 then
        some ({ c with pc := .device, n := c.count, added := c.count }, offset + c.count)
      else some ({ c with pc := .device, n := c.count }, offset)
    else none
  | .wrote r =>
    if c.pc = .device ∧ r ≤ c.n then
      if c.ispwrite = false ∧ r < c.n then some ({ c with pc := .rollback r, device := .wrote r }, offset)
      else some ({ c with pc := .returned r, device := .wrote r }, offset)
    else none
  | .fail => if c.pc = .device then some ({ c with pc := .handler, device := .failed }, offset) else none
  | .settle =>
    match c.pc with
    | .rollback r => some ({ c with pc := .returned r, added := c.added - (c.n - r) }, offset - (c.n - r : Nat))
    | .handler =>
      if c.ispwrite = false then some ({ c with pc := .raised, added := c.added - c.n }, offset - c.n)
      else some ({ c with pc := .raised }, offset)
    | _ => none

/-- The channel's offset, and the calls of `write` that were or will be made. -/
structure Sys where
  offset : Int
  calls : List Call
  deriving DecidableEq, Repr

/-- A step of the `i`th call. -/
def act (s : Sys) : Nat × Act → Option Sys
  | (i, a) => do
      let c ← s.calls[i]?
      let (c', offset) ← c.act s.offset a
      return ⟨offset, s.calls.set i c'⟩

def step (s : Sys) (a : Nat × Act) (t : Sys) : Prop := act s a = some t

/-- The call has not begun. -/
def Call.Fresh (c : Call) : Prop := c.pc = .checks ∧ c.n = 0 ∧ c.device = .uncalled ∧ c.added = 0

/-- A call of `syspwrite` with offset -1. -/
def Call.Own (c : Call) : Prop := c.ispwrite = true ∧ c.off = -1

/-- Calls of `pwrite` with offset -1 at the offset `o`, none of which has begun. -/
def Start (o : Int) (s : Sys) : Prop := s.offset = o ∧ ∀ c ∈ s.calls, c.Fresh ∧ c.Own

/-- A call that returned has moved the offset by what it returned, one that raised an error not at all. -/
def Call.Accounted (c : Call) : Prop := (∀ r, c.pc = .returned r → c.added = r) ∧ (c.pc = .raised → c.added = 0)

/-- **The condition.**  The device wrote all bytes of a call that returned, and it did not fail a call that raised an
error, unless that was for no bytes. -/
def Call.Whole (c : Call) : Prop :=
  (∀ r, c.pc = .returned r → c.device = .wrote c.count) ∧ (c.pc = .raised → c.device = .failed → c.count = 0)

/-- What a call that is over has returned; an error counts nothing. -/
def Call.result (c : Call) : Nat :=
  match c.pc with
  | .returned r => r
  | _ => 0

def Call.Over (c : Call) : Prop := c.pc = .raised ∨ ∃ r, c.pc = .returned r

variable {c c' : Call} {a : Act} {o offset offset' : Int} {s t : Sys}

/-- A call of `syspwrite` at the channel's offset: nothing is taken back. -/
structure Call.Good (c : Call) : Prop where
  own : c.Own
  added : c.added = c.n
  checks : c.pc = .checks → c.n = 0 ∧ c.device = .uncalled
  device : c.pc = .device → c.n = c.count
  rollback : ∀ r, c.pc ≠ .rollback r
  returned : ∀ r, c.pc = .returned r → c.n = c.count ∧ c.device = .wrote r
  handler : c.pc = .handler ∨ c.pc = .raised → c.n = if c.device = .failed then c.count else 0

theorem Call.Fresh.good (h : c.Fresh) (hown : c.Own) : c.Good := by
  obtain ⟨hpc, hn, hdev, hadded⟩ := h
  refine ⟨hown, hadded.trans hn.symm, fun _ => ⟨hn, hdev⟩, fun hd => ?_, fun r hr => ?_, fun r hr => ?_, fun hr => ?_⟩
  · rw [hpc] at hd
    cases hd
  · rw [hpc] at hr
    cases hr
  · rw [hpc] at hr
    cases hr
  · rw [hpc] at hr
    rcases hr with hr | hr <;> cases hr

/-- **What a step of such a call can do.** -/
theorem Call.Good.act (h : c.Good) (hact : c.act offset a = some (c', offset')) :
    c'.Good ∧ offset' + c.added = offset + c'.added := by
  obtain ⟨⟨hpw, hoff⟩, hadded, hchecks, hdevice, hrollback, hreturned, hhandler⟩ := h
  have hkeep : c.ispwrite ≠ false := by
    rw [hpw]
    exact nofun
  cases a with
  | refuse | isdir =>
    rw [Call.act] at hact
    split at hact
    · next hpc =>
      cases hact
      obtain ⟨hn, hdev⟩ := hchecks hpc
      exact ⟨⟨⟨hpw, hoff⟩, hadded, nofun, nofun, nofun, nofun, fun _ => by rw [if_neg (by rw [hdev]; nofun), hn]⟩, rfl⟩
    · cases hact
  | begin =>
    rw [Call.act] at hact
    split at hact
    · next hpc =>
      rw [if_pos (Or.inr hoff)] at hact
      cases hact
      refine ⟨⟨⟨hpw, hoff⟩, rfl, nofun, fun _ => rfl, nofun, nofun, fun hr => by rcases hr with hr | hr <;> cases hr⟩, ?_⟩
      have hzero := (hchecks hpc).1
      change offset + (c.count : Int) + (c.added : Int) = offset + (c.count : Int)
      omega
    · cases hact
  | wrote r =>
    rw [Call.act] at hact
    split at hact
    · next hpc =>
      rw [if_neg fun hshort => hkeep hshort.1] at hact
      cases hact
      refine ⟨⟨⟨hpw, hoff⟩, hadded, nofun, nofun, nofun, fun r' hr => ⟨hdevice hpc.1, ?_⟩,
        fun hr => by rcases hr with hr | hr <;> cases hr⟩, rfl⟩
      cases hr
      rfl
    · cases hact
  | fail =>
    rw [Call.act] at hact
    split at hact
    · next hpc =>
      cases hact
      exact ⟨⟨⟨hpw, hoff⟩, hadded, nofun, nofun, nofun, nofun, fun _ => hdevice hpc⟩, rfl⟩
    · cases hact
  | settle =>
    rw [Call.act] at hact
    split at hact
    · next r hpc => exact absurd hpc (hrollback r)
    · next hpc =>
      rw [if_neg hkeep] at hact
      cases hact
      exact ⟨⟨⟨hpw, hoff⟩, hadded, nofun, nofun, nofun, nofun, fun _ => hhandler (Or.inl hpc)⟩, rfl⟩
    · cases hact

theorem Call.Good.accounted_iff (h : c.Good) : c.Accounted ↔ c.Whole := by
  have hadded := h.added
  constructor
  · intro haccounted
    refine ⟨fun r hr => ?_, fun hr hfailed => ?_⟩
    · obtain ⟨hn, hdev⟩ := h.returned r hr
      have hmoved := haccounted.1 r hr
      rw [hdev, ← hmoved, hadded, hn]
    · have hn := h.handler (Or.inr hr)
      rw [if_pos hfailed] at hn
      have hmoved := haccounted.2 hr
      omega
  · intro hwhole
    refine ⟨fun r hr => ?_, fun hr => ?_⟩
    · obtain ⟨hn, hdev⟩ := h.returned r hr
      have hall := hwhole.1 r hr
      rw [hdev] at hall
      cases hall
      omega
    · have hn := h.handler (Or.inr hr)
      split at hn
      · next hfailed =>
        have hnone := hwhole.2 hr hfailed
        omega
      · omega

/-- The offset is where it was, with what the calls have added. -/
structure Inv (o : Int) (s : Sys) : Prop where
  good : ∀ c ∈ s.calls, c.Good
  offset : s.offset = o + ((s.calls.map Call.added).sum : Nat)

theorem Start.inv (h : Start o s) : Inv o s where
  good c hc := (h.2 c hc).1.good (h.2 c hc).2
  offset := by
    have hzero : (s.calls.map Call.added).sum = 0 := by
      refine sum_eq_zero fun n hn => ?_
      obtain ⟨c, hc, rfl⟩ := mem_map.mp hn
      exact (h.2 c hc).1.2.2.2
    rw [hzero, h.1]
    exact (Int.add_zero o).symm

theorem Inv.step {a : Nat × Act} (h : Inv o s) (hstep : step s a t) : Inv o t := by
  obtain ⟨i, a⟩ := a
  rw [FileOffset.step, FileOffset.act] at hstep
  obtain ⟨c, hc, hrest⟩ := Option.bind_eq_some_iff.mp hstep
  obtain ⟨⟨c', offset'⟩, hact, heq⟩ := Option.bind_eq_some_iff.mp hrest
  cases heq
  obtain ⟨hi, hget⟩ := List.getElem?_eq_some_iff.mp hc
  obtain ⟨hgood, hmoved⟩ := (h.good c (mem_of_getElem? hc)).act hact
  refine ⟨fun d hd => ?_, ?_⟩
  · rcases mem_or_eq_of_mem_set hd with hd | rfl
    · exact h.good d hd
    · exact hgood
  · have hsum := Tally.sum_set (d := c) Call.added hi c'
    rw [Tally.getD_lt hi, hget] at hsum
    have hoffset := h.offset
    change offset' = o + (((s.calls.set i c').map Call.added).sum : Nat)
    omega

theorem sum_result {l : List Call} (h : ∀ c ∈ l, c.Accounted ∧ c.Over) :
    (l.map Call.added).sum = (l.map Call.result).sum := by
  refine congrArg List.sum (map_congr_left fun c hc => ?_)
  obtain ⟨⟨hret, hraised⟩, hr | ⟨r, hr⟩⟩ := h c hc
  · rw [hraised hr, Call.result, hr]
  · rw [hret r hr, Call.result, hr]

/-- **The accounts of the offset.**  Calls of `pwrite` with offset -1 are interleaved in any way.  That each has moved
the offset by what it returned, or not at all if it raised an error, and that when all are over the offset is the
initial one and the sum of what was returned, holds exactly when the device wrote all bytes of each and failed none. -/
theorem offset_accounts (hreach : StepSystem.Reach (Start o) step s) :
    ((∀ c ∈ s.calls, c.Accounted) ∧
        ((∀ c ∈ s.calls, c.Over) → s.offset = o + ((s.calls.map Call.result).sum : Nat))) ↔
      ∀ c ∈ s.calls, c.Whole := by
  have hinv := hreach.invariant (Inv o) (fun _ => Start.inv) fun _ _ _ => Inv.step
  constructor
  · rintro ⟨haccounts, -⟩ c hc
    exact (hinv.good c hc).accounted_iff.mp (haccounts c hc)
  · intro hwhole
    have haccounts : ∀ c ∈ s.calls, c.Accounted := fun c hc => (hinv.good c hc).accounted_iff.mpr (hwhole c hc)
    refine ⟨haccounts, fun hover => ?_⟩
    rw [hinv.offset, sum_result fun c hc => ⟨haccounts c hc, hover c hc⟩]

/-- A call of `pwrite` with offset -1. -/
def someCall (count : Nat) : Call := ⟨true, -1, count, .checks, 0, .uncalled, 0⟩

theorem start_some (o : Int) (m n : Nat) : Start o ⟨o, [someCall m, someCall n]⟩ := by
  refine ⟨rfl, forall_mem_cons.mpr ⟨?_, forall_mem_singleton.mpr ?_⟩⟩
  · exact ⟨⟨rfl, rfl, rfl, rfl⟩, rfl, rfl⟩
  · exact ⟨⟨rfl, rfl, rfl, rfl⟩, rfl, rfl⟩

/-- Two calls take turns; each writes all its bytes. -/
theorem offset_accounts_two :
    let s : Sys := ⟨107, [⟨true, -1, 3, .returned 3, 3, .wrote 3, 3⟩, ⟨true, -1, 4, .returned 4, 4, .wrote 4, 4⟩]⟩
    (∀ c ∈ s.calls, c.Accounted) ∧ ((∀ c ∈ s.calls, c.Over) → s.offset = 100 + ((s.calls.map Call.result).sum : Nat)) := by
  intro s
  have hrun : StepSystem.exec act ⟨100, [someCall 3, someCall 4]⟩
      [(0, .begin), (1, .begin), (1, .wrote 4), (0, .wrote 3)] = some s := by
    decide +kernel
  have hreach := (StepSystem.Reach.start (start_some 100 3 4)).exec hrun fun _ _ _ _ => id
  refine (offset_accounts hreach).mpr ?_
  refine List.forall_mem_cons.mpr ⟨⟨fun r hr => ?_, nofun⟩, List.forall_mem_singleton.mpr ⟨fun r hr => ?_, nofun⟩⟩
  · cases hr
    rfl
  · cases hr
    rfl

/-- A short write leaves the offset where a whole one would. -/
theorem offset_short :
    ¬ ∀ (o : Int) (s : Sys), StepSystem.Reach (Start o) step s → ∀ c ∈ s.calls, c.Accounted := by
  intro hall
  have hrun : StepSystem.exec act ⟨100, [someCall 3, someCall 4]⟩ [(0, .begin), (0, .wrote 1)] =
      some ⟨103, [⟨true, -1, 3, .returned 1, 3, .wrote 1, 3⟩, someCall 4]⟩ := by
    decide +kernel
  have hreach := (StepSystem.Reach.start (start_some 100 3 4)).exec hrun fun _ _ _ _ => id
  have hmoved := (hall 100 _ hreach _ List.mem_cons_self).1 1 rfl
  cases hmoved

end FileOffset
