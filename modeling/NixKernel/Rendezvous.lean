import NixKernel.ChainTable
import NixKernel.StepSystem

/-!
# Rendezvous: `sysrendezvous` and the end of `postnote`

The processes of one `Rgrp` call `rendezvous(tag, val)`, each again and again, and notes are posted to them by anyone.
What is done under the lock of the group is cut where another party can see it: the state of a process is read by
`postnote` before it has the lock, and a process that has been made ready runs before the other has let the lock go.

`calls` is for the record: every call in the order of their beginning, with the call it has been paired with, whether a
note has pulled it out, and what it has returned.  `cur` is the call a process is in.
-/

namespace Rendezvous

open LinkList Function

/-- `RENDHASH`. -/
def rendhashsize : Nat := 32

/-- `REND`. -/
def rend (tag : UInt64) : Nat := tag.toNat % rendhashsize

/-- `~0`. -/
def nil : UInt64 := 0xffffffffffffffff

/-- The states of a process that matter here. -/
inductive State
  | running
  | rendezvous
  | ready
  deriving DecidableEq, Repr

/-- Where a process is in `sysrendezvous`. -/
inductive Pc
  | user
  | entered (tag val : UInt64)
  | locked (tag val : UInt64)
  | paired (p : Nat) (val : UInt64)
  | leaving (val : UInt64)
  | queued
  | unlocked
  | saved
  deriving DecidableEq, Repr

/-- Where a poster is at the end of `postnote`. -/
inductive Poster
  | idle
  | wants (p : Nat)
  | locked (p : Nat)
  | pulled (p : Nat)
  | leaving
  deriving DecidableEq, Repr

inductive Agent
  | proc (i : Nat)
  | poster (k : Nat)
  deriving DecidableEq, Repr

structure Call where
  proc : Nat
  tag : UInt64
  val : UInt64
  partner : Option Nat
  interrupted : Bool
  result : Option UInt64
  deriving DecidableEq, Repr

/-- The group, its `nproc` processes and the posters. -/
structure Rgrp where
  nproc : Nat
  lock : Option Agent
  head : Nat → Option Nat
  rendhash : Nat → Option Nat
  rendtag : Nat → UInt64
  rendval : Nat → UInt64
  state : Nat → State
  pc : Nat → Pc
  cur : Nat → Nat
  poster : Nat → Poster
  calls : List Call

def Rgrp.goto (s : Rgrp) (i : Nat) (pc : Pc) : Rgrp := { s with pc := update s.pc i pc }

def Rgrp.post (s : Rgrp) (k : Nat) (p : Poster) : Rgrp := { s with poster := update s.poster k p }

/-- `*l = v` in the chain `b`, for `l` the link of `prev` or the head. -/
def Rgrp.link (s : Rgrp) (b : Nat) (prev v : Option Nat) : Rgrp :=
  let r := store prev v (s.head b) s.rendhash
  { s with head := update s.head b r.1, rendhash := r.2 }

/-- Record something of a call. -/
def Rgrp.note (s : Rgrp) (n : Nat) (f : Call → Call) : Rgrp := { s with calls := s.calls.modify n f }

/-- Return from the call. -/
def Rgrp.ret (s : Rgrp) (i : Nat) (val : UInt64) : Rgrp :=
  (s.note (s.cur i) fun c => { c with result := some val }).goto i .user

/-- `sysrendezvous` up to the lock. -/
def Rgrp.enter (s : Rgrp) (i : Nat) (tag val : UInt64) : Rgrp :=
  { s with
    rendval := update s.rendval i nil
    pc := update s.pc i (.entered tag val)
    cur := update s.cur i s.calls.length
    calls := s.calls ++ [⟨i, tag, val, none, false, none⟩] }

/-- The process `p` is found: it comes off the chain, and the values are exchanged. -/
def Rgrp.pair (s : Rgrp) (i p : Nat) (prev : Option Nat) (tag val : UInt64) : Rgrp :=
  let s' := s.link (rend tag) prev (s.rendhash p)
  let s' := { s' with rendval := update s.rendval p val }
  let s' := s'.note (s.cur i) fun c => { c with partner := some (s.cur p) }
  let s' := s'.note (s.cur p) fun c => { c with partner := some (s.cur i) }
  s'.goto i (.paired p (s.rendval p))

/-- "Going to sleep here": the process is linked at the end of the chain. -/
def Rgrp.queue (s : Rgrp) (i : Nat) (prev : Option Nat) (tag val : UInt64) : Rgrp :=
  let s' : Rgrp := { s with
    rendtag := update s.rendtag i tag
    rendval := update s.rendval i val
    rendhash := update s.rendhash i none
    state := update s.state i .rendezvous }
  (s'.link (rend tag) prev (some i)).goto i .queued

/-- The loop of `sysrendezvous` and what follows on it. -/
def Rgrp.search (s : Rgrp) (i : Nat) (tag val : UInt64) : Option Rgrp :=
  (LinkList.search s.rendhash (fun p => decide (s.rendtag p = tag)) (s.nproc + 1) none (s.head (rend tag))).map fun r =>
    match r.2 with
    | some p => s.pair i p r.1 tag val
    | none => s.queue i r.1 tag val

/-- "Try and pull out of a rendezvous". -/
def Rgrp.pull (s : Rgrp) (k p : Nat) : Option Rgrp :=
  if s.state p = .rendezvous then
    (ChainTable.unlink (s.nproc + 1) p (s.head (rend (s.rendtag p))) s.rendhash).map fun r =>
      let s' : Rgrp := { s with
        rendval := update s.rendval p nil
        head := update s.head (rend (s.rendtag p)) r.1
        rendhash := r.2 }
      (s'.note (s.cur p) fun c => { c with interrupted := true }).post k (.pulled p)
  else some (s.post k .leaving)

/-- What a party does next. -/
inductive Act
  | enter (i : Nat) (tag val : UInt64)
  | proc (i : Nat)
  | notice (k p : Nat)
  | poster (k : Nat)
  deriving DecidableEq, Repr

/-- A process goes on. -/
def Rgrp.step (s : Rgrp) (i : Nat) : Option Rgrp :=
  match s.pc i with
  | .user => none
  | .entered tag val =>
    if s.lock = none then some ({ s with lock := some (.proc i) }.goto i (.locked tag val)) else none
  | .locked tag val => s.search i tag val
  | .paired p val =>
    -- while(!procsaved(p)) pause(); ready(p);
    if s.pc p = .saved then some ({ s with state := update s.state p .ready }.goto i (.leaving val)) else none
  | .leaving val => some ({ s with lock := none }.ret i val)
  | .queued => some ({ s with lock := none }.goto i .unlocked)
  | .unlocked => some (s.goto i .saved)
  | .saved =>
    if s.state i = .ready then some ({ s with state := update s.state i .running }.ret i (s.rendval i)) else none

/-- A poster goes on. -/
def Rgrp.poststep (s : Rgrp) (k : Nat) : Option Rgrp :=
  match s.poster k with
  | .idle => none
  | .wants p => if s.lock = none then some ({ s with lock := some (.poster k) }.post k (.locked p)) else none
  | .locked p => s.pull k p
  | .pulled p => some ({ s with state := update s.state p .ready }.post k .leaving)
  | .leaving => some ({ s with lock := none }.post k .idle)

def act (s : Rgrp) : Act → Option Rgrp
  | .enter i tag val => if s.pc i = .user ∧ i < s.nproc then some (s.enter i tag val) else none
  | .proc i => s.step i
  | .notice k p =>
    if s.poster k = .idle then
      if s.state p = .rendezvous then some (s.post k (.wants p)) else some s
    else none
  | .poster k => s.poststep k

def step (s : Rgrp) (a : Act) (t : Rgrp) : Prop := act s a = some t

/-- Nobody has called yet. -/
def init (nproc : Nat) : Rgrp where
  nproc := nproc
  lock := none
  head _ := none
  rendhash _ := none
  rendtag _ := 0
  rendval _ := 0
  state _ := .running
  pc _ := .user
  cur _ := 0
  poster _ := .idle
  calls := []

/-- What a call has got that has returned: its partner's value, and the partner gets its own; or, if a note has pulled
it out, `~0` and no partner.  Nobody but its partner is paired with it. -/
structure Fair (calls : List Call) (n : Nat) (c : Call) (r : UInt64) : Prop where
  paired : c.interrupted = false → ∃ d c', calls[d]? = some c' ∧ c.partner = some d ∧ c'.partner = some n ∧
    c'.proc ≠ c.proc ∧ c'.tag = c.tag ∧ c'.interrupted = false ∧ r = c'.val ∧ ∀ r', c'.result = some r' → r' = c.val
  interrupted : c.interrupted = true → r = nil ∧ c.partner = none
  only : ∀ (d : Nat) c', calls[d]? = some c' → c'.partner = some n → c.partner = some d

/-- The lock holder is about to make `p` ready, which it has taken off its chain. -/
def Rgrp.Waking (s : Rgrp) (p : Nat) : Prop :=
  (∃ i val, s.lock = some (.proc i) ∧ s.pc i = .paired p val) ∨ ∃ k, s.lock = some (.poster k) ∧ s.poster k = .pulled p

/-- **The chains** hold the processes in state `Rendezvous`, each once in the chain of its tag; the one that is being
made ready is on none. -/
def Rgrp.Chained (s : Rgrp) : Prop :=
  ∃ tab : Nat → List Nat, ChainTable.Chains s.head s.rendhash tab ∧
    ∀ b p, p ∈ tab b ↔ s.state p = .rendezvous ∧ rend (s.rendtag p) = b ∧ ¬s.Waking p

end Rendezvous
