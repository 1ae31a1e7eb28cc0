import NixKernel.StepSystem

/-!
# Descriptor tables: `port/sysfile.c`, `port/pgrp.c`

An `Fgrp` is a table of Chans that processes share.  It grows when there is no free descriptor,
and `maxfd` bounds the descriptors in use: copying and closing go no further.

Chans and tables have numbers; `nfd` is the length of a table, and a table that has been freed is
`none`.  Whether `malloc` finds memory is part of each call.  `held` is for the record: the
references that are not in a table.  A step without a result is a panic, or reads past the end of
a table.  Each call holds the lock of the table while it works on it; `exceed`, which makes a
warning, is left out.
-/

namespace Fdtab

def DELTAFD : Nat := 20

/-- What the tables are about of a Chan. -/
structure Chan where
  ref : Nat
  flag : UInt16
deriving Repr, DecidableEq

structure Fgrp where
  ref : Nat
  fd : List (Option Nat)
  maxfd : Nat
deriving Repr, DecidableEq

def Fgrp.nfd (f : Fgrp) : Nat := f.fd.length

/-- `fd[i]`, where there is one. -/
def Fgrp.get (f : Fgrp) (i : Nat) : Option Nat := f.fd.getD i none

def Fgrp.set (f : Fgrp) (i : Nat) (c : Option Nat) : Fgrp := { f with fd := f.fd.set i c }

/-- `growfd`; nothing for -1. -/
def Fgrp.growfd (f : Fgrp) (fd : Nat) (mem : Bool) : Option Fgrp :=
  if fd < f.nfd then some f
  else if fd ≥ f.nfd + DELTAFD then none
  else if f.nfd ≥ 5000 then none
  else if mem = false then none
  else
    some { f with
      fd := f.fd ++ List.replicate DELTAFD none
      maxfd := if fd > f.maxfd then fd else f.maxfd }

/-- "for(fd=start; fd<f->nfd; fd++) if(f->fd[fd] == 0) break;" from the part behind `fd`. -/
def scan : List (Option Nat) → Nat → Nat
  | [], fd => fd
  | none :: _, fd => fd
  | some _ :: l, fd => scan l (fd + 1)

def Fgrp.findfreefd (f : Fgrp) (start : Nat) (mem : Bool) : Option (Nat × Fgrp) :=
  let fd := scan (f.fd.drop start) start
  if fd ≥ f.nfd then (f.growfd fd mem).map fun f => (fd, f) else some (fd, f)

/-- "if(fd > f->maxfd) f->maxfd = fd;" -/
def Fgrp.raise (f : Fgrp) (fd : Nat) : Fgrp := { f with maxfd := if fd > f.maxfd then fd else f.maxfd }

def Fgrp.newfd (f : Fgrp) (c : Nat) (mem : Bool) : Option Nat × Fgrp :=
  match f.findfreefd 0 mem with
  | none => (none, f)
  | some (fd, f) => (some fd, (f.raise fd).set fd (some c))

def Fgrp.newfd2 (f : Fgrp) (c₀ c₁ : Nat) (mem : Bool) : Option (Nat × Nat) × Fgrp :=
  match f.findfreefd 0 mem with
  | none => (none, f)
  | some (fd₀, f) =>
    match f.findfreefd (fd₀ + 1) mem with
    | none => (none, f)
    | some (fd₁, f) => (some (fd₀, fd₁), ((f.raise fd₁).set fd₀ (some c₀)).set fd₁ (some c₁))

/-- "for(i = fd; --i >= 0 && f->fd[i] == 0; ) f->maxfd = i;" -/
def Fgrp.walk (f : Fgrp) : Nat → Nat
  | 0 => 0
  | i + 1 => if f.get i = none then f.walk i else i + 1

/-- The table of `fdclose` without `fd`. -/
def Fgrp.clear (f : Fgrp) (fd : Nat) : Fgrp :=
  let f := f.set fd none
  if fd = f.maxfd then { f with maxfd := f.walk fd } else f

/-- The table of `dupfgrp`. -/
def Fgrp.copy (f : Fgrp) : Fgrp :=
  let nfd := f.maxfd + 1
  let i := nfd % DELTAFD
  let nfd := if i ≠ 0 then nfd + (DELTAFD - i) else nfd
  { ref := 1
    fd := f.fd.take (f.maxfd + 1) ++ List.replicate (nfd - (f.maxfd + 1)) none
    maxfd := f.maxfd }

structure Sys where
  chan : Nat → Chan
  fgrp : List (Option Fgrp)
  held : Nat → Nat

def Sys.table (s : Sys) (g : Nat) : Option Fgrp := s.fgrp.getD g none

def Sys.put (s : Sys) (g : Nat) (f : Option Fgrp) : Sys := { s with fgrp := s.fgrp.set g f }

def Sys.setref (s : Sys) (c n : Nat) : Sys :=
  { s with chan := Function.update s.chan c { s.chan c with ref := n } }

def Sys.hold (s : Sys) (c n : Nat) : Sys := { s with held := Function.update s.held c n }

def Sys.incref (s : Sys) (c : Nat) : Sys := s.setref c ((s.chan c).ref + 1)

/-- `cclose`, up to the device.  A Chan without references is `CFREE`. -/
def Sys.cclose (s : Sys) (c : Nat) : Option Sys :=
  if (s.chan c).ref = 0 then none else some (s.setref c ((s.chan c).ref - 1))

/-- `newfd`: the table takes over the reference of the caller. -/
def Sys.newfd (s : Sys) (g c : Nat) (mem : Bool) : Option (Option Nat × Sys) :=
  (s.table g).map fun f =>
    match f.newfd c mem with
    | (none, f) => (none, s.put g (some f))
    | (some fd, f) => (some fd, (s.put g (some f)).hold c (s.held c - 1))

def Sys.newfd2 (s : Sys) (g c₀ c₁ : Nat) (mem : Bool) : Option (Option (Nat × Nat) × Sys) :=
  (s.table g).map fun f =>
    match f.newfd2 c₀ c₁ mem with
    | (none, f) => (none, s.put g (some f))
    | (some fds, f) =>
      let t := (s.put g (some f)).hold c₀ (s.held c₀ - 1)
      (some fds, t.hold c₁ (t.held c₁ - 1))

/-- `sysdup` behind `fdtochan`; nothing for the descriptor is an error. -/
def Sys.dupto (s : Sys) (g oc : Nat) (f : Fgrp) (nfd : Int) (mem : Bool) : Option (Option Nat × Sys) :=
  if nfd ≠ -1 then
    if nfd < 0 then (s.cclose oc).map fun s => (none, s)
    else
      match f.growfd nfd.toNat mem with
      | none => (s.cclose oc).map fun s => (none, s)
      | some f =>
        let t := s.put g (some ((f.raise nfd.toNat).set nfd.toNat (some oc)))
        match f.get nfd.toNat with
        | none => some (some nfd.toNat, t)
        | some nc => (t.cclose nc).map fun t => (some nfd.toNat, t)
  else
    match f.newfd oc mem with
    | (none, f) => ((s.put g (some f)).cclose oc).map fun s => (none, s)
    | (some fd, f) => some (some fd, s.put g (some f))

/-- `sysdup`. -/
def Sys.dup (s : Sys) (g : Nat) (ofd nfd : Int) (mem : Bool) : Option (Option Nat × Sys) :=
  match s.table g with
  | none => none
  | some f =>
    if ofd < 0 then some (none, s)
    else
      match f.get ofd.toNat with
      | none => some (none, s)
      | some oc => (s.incref oc).dupto g oc f nfd mem

def Sys.fdclose (s : Sys) (g fd : Nat) (flag : UInt16) : Option Sys :=
  match s.table g with
  | none => none
  | some f =>
    if fd ≥ f.nfd then none
    else
      match f.get fd with
      | none => some s
      | some c =>
        if flag ≠ 0 ∧ (s.chan c).flag &&& flag = 0 then some s
        else (s.put g (some (f.clear fd))).cclose c

/-- The loop of `dupfgrp`. -/
def Sys.increfs (s : Sys) : List (Option Nat) → Sys
  | [] => s
  | none :: l => s.increfs l
  | some c :: l => (s.incref c).increfs l

/-- `dupfgrp`; nothing is an error. -/
def Sys.dupfgrp (s : Sys) (g : Option Nat) (mem : Bool) : Option (Option Nat × Sys) :=
  match g with
  | none =>
    some (some s.fgrp.length, { s with fgrp := s.fgrp ++ [some ⟨1, List.replicate DELTAFD none, 0⟩] })
  | some g =>
    match s.table g with
    | none => none
    | some f =>
      if mem = false then some (none, s)
      else if f.maxfd ≥ f.nfd then none
      else
        let t := s.increfs (f.fd.take (f.maxfd + 1))
        some (some t.fgrp.length, { t with fgrp := t.fgrp ++ [some f.copy] })

/-- The loop of `closefgrp`. -/
def Sys.closes (s : Sys) : List (Option Nat) → Option Sys
  | [] => some s
  | none :: l => s.closes l
  | some c :: l => (s.cclose c).bind fun s => s.closes l

def Sys.closefgrp (s : Sys) (g : Nat) : Option Sys :=
  match s.table g with
  | none => none
  | some f =>
    if f.ref = 0 then none
    else if f.ref - 1 ≠ 0 then some (s.put g (some { f with ref := f.ref - 1 }))
    else if f.maxfd ≥ f.nfd then none
    else (s.put g none).closes (f.fd.take (f.maxfd + 1))

inductive Op
  | newfd (g c : Nat) (mem : Bool)
  | newfd2 (g c₀ c₁ : Nat) (mem : Bool)
  | dup (g : Nat) (ofd nfd : Int) (mem : Bool)
  | fdclose (g fd : Nat) (flag : UInt16)
  | dupfgrp (g : Option Nat) (mem : Bool)
  | closefgrp (g : Nat)
  /-- Another process shares the table. -/
  | share (g : Nat)
  /-- A reference is taken outside the tables. -/
  | incref (c : Nat)
  /-- It is given up. -/
  | cclose (c : Nat)
deriving Repr, DecidableEq

def act (s : Sys) : Op → Option Sys
  | .newfd g c mem => (s.newfd g c mem).map Prod.snd
  | .newfd2 g c₀ c₁ mem => (s.newfd2 g c₀ c₁ mem).map Prod.snd
  | .dup g ofd nfd mem => (s.dup g ofd nfd mem).map Prod.snd
  | .fdclose g fd flag => s.fdclose g fd flag
  | .dupfgrp g mem => (s.dupfgrp g mem).map Prod.snd
  | .closefgrp g => s.closefgrp g
  | .share g => (s.table g).map fun f => s.put g (some { f with ref := f.ref + 1 })
  | .incref c => some ((s.incref c).hold c (s.held c + 1))
  | .cclose c => (s.cclose c).map fun t => t.hold c (s.held c - 1)

/-- Callers name tables that there are, hold the references that they give away, and close
descriptors of the table. -/
def Allowed (s : Sys) : Op → Prop
  | .newfd g c _ => s.table g ≠ none ∧ 0 < s.held c
  | .newfd2 g c₀ c₁ _ => s.table g ≠ none ∧ 0 < s.held c₀ ∧ 0 < s.held c₁ ∧ (c₀ = c₁ → 1 < s.held c₀)
  | .dup g _ _ _ | .closefgrp g | .share g => s.table g ≠ none
  | .fdclose g fd _ => ∃ f, s.table g = some f ∧ fd < f.nfd
  | .dupfgrp g _ => ∀ g', g = some g' → s.table g' ≠ none
  | .incref _ => True
  | .cclose c => 0 < s.held c

/-- No table yet. -/
structure Start (s : Sys) : Prop where
  fgrp : s.fgrp = []
  held : ∀ c, s.held c = (s.chan c).ref

/-- The states that runs reach. -/
def Reach : Sys → Prop := StepSystem.Reach Start fun s op t => Allowed s op ∧ act s op = some t

/-- The entries of the tables that are the Chan `c`. -/
def Sys.entries (s : Sys) (c : Nat) : Nat :=
  (s.fgrp.map fun f => match f with
    | none => 0
    | some f => f.fd.count (some c)).sum

end Fdtab
