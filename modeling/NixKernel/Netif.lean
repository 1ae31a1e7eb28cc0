import NixKernel.StepSystem

/-!
# Network interfaces: `port/netif.c`

An interface has Netfiles, which Chans open for their data and ctl files.  A Netfile counts its
opens; the interface counts the Netfiles that are promiscuous, scan, or take packets of all types.

A Chan has a number; one that has been closed is `none`.  A call is one step, though `netifwrite`
locks the interface and `netifclose` the Netfile.  The tables of multicast addresses are left out,
and so is what the hardware does.  A call without a result reads a Netfile that there is not.
-/

namespace Netif

/-- The bytes of a string before its end. -/
abbrev Str := List UInt8

def KNAMELEN : Nat := 28

def Ncloneqid : Nat := 1
def Naddrqid : Nat := 2
def N2ndqid : Nat := 3
def N3rdqid : Nat := 4
def Ndataqid : Nat := 5
def Nctlqid : Nat := 6
def Nstatqid : Nat := 7
def Ntypeqid : Nat := 8
def Nifstatqid : Nat := 9
def Nmtuqid : Nat := 10

/-- "((ulong)x)&0x1f" -/
def NETTYPE (x : Nat) : Nat := x % 32

/-- "(((ulong)x))>>5" -/
def NETID (x : Nat) : Nat := x / 32

/-- "(((ulong)i)<<5)|(t)" -/
def NETQID (i t : Nat) : Nat := i * 32 + t

structure Queue where
  closed : Bool
  flow : Bool
  starve : Bool
  eof : Nat
  limit : Nat
  inilim : Nat
  noblock : Bool
  blocks : List Str
deriving Repr, DecidableEq

structure Netfile where
  inuse : Int
  mode : Nat
  owner : Str
  type : Int
  prom : Int
  scan : Int
  bridge : Nat
  iq : Queue
deriving Repr, DecidableEq

structure Chan where
  path : Nat
  /-- `QTDIR` -/
  dir : Bool
  /-- `COPEN` -/
  copen : Bool
  mode : Int32
deriving Repr, DecidableEq

/-- An interface with the Chans on it; `eve` owns the machine. -/
structure Sys where
  f : List (Option Netfile)
  limit : Nat
  alen : Nat
  minmtu : Int
  maxmtu : Int
  mtu : Int
  prom : Int
  scan : Int
  all : Int
  /-- "nif->multicast != nil" -/
  multicast : Bool
  hwmtu : Option (Int → Int)
  chan : List (Option Chan)
  eve : Str

inductive Err
  | Eperm | Ebadarg | Enodev | Einuse | exhausted | badaddress | nomulticast
deriving Repr, DecidableEq

/-- "nif->f[id]" -/
def Sys.file (s : Sys) (id : Nat) : Option Netfile := s.f.getD id none

def Sys.setfile (s : Sys) (id : Nat) (f : Netfile) : Sys := { s with f := s.f.set id (some f) }

def Sys.at (s : Sys) (c : Nat) : Option Chan := s.chan.getD c none

def Sys.setchan (s : Sys) (c : Nat) (ch : Option Chan) : Sys := { s with chan := s.chan.set c ch }

def qopen (limit : Nat) : Queue := ⟨false, false, true, 0, limit, limit, false, []⟩

def Queue.qclose (q : Queue) : Queue :=
  { q with closed := true, flow := false, starve := false, noblock := false, blocks := [] }

def Queue.qreopen (q : Queue) : Queue :=
  { q with closed := false, starve := true, eof := 0, limit := q.inilim }

/-- "strncmp(a, b, KNAMELEN) == 0" -/
def sameName (a b : Str) : Bool := a.take KNAMELEN == b.take KNAMELEN

/-- "static int access[] = { 0400, 0200, 0600, 0100 };" -/
def access : List Nat := [0o400, 0o200, 0o600, 0o100]

/-- Whether `netown` lets `o` have a Netfile of this owner and mode. -/
def permitted (owner : Str) (mode : Nat) (o eve : Str) (omode : Int32) : Bool :=
  if owner ≠ [] then
    let mode :=
      if sameName o owner then mode
      else if sameName o eve then mode <<< 3
      else mode <<< 6
    let t := access.getD (omode &&& 3).toNatClampNeg 0
    t &&& mode == t
  else true

def Netfile.netown (p : Netfile) (o eve : Str) (omode : Int32) : Bool × Netfile :=
  if p.owner ≠ [] then (permitted p.owner p.mode o eve omode, p)
  else (true, { p with owner := o.take KNAMELEN, mode := 0o660 })

/-- `openmode`; nothing is `Ebadarg`. -/
def openmode (omode : Int32) : Option Int32 :=
  let omode := omode &&& ~~~(0x10 ||| 0x20 ||| 0x40)
  if omode > 3 then none else if omode = 3 then some 0 else some omode

/-- The Netfile that `openfile` takes when it looks for one. -/
def Sys.unused (s : Sys) : Option Nat :=
  s.f.findIdx? fun f => match f with
    | none => true
    | some f => f.inuse == 0

/-- "f = malloc(sizeof(Netfile));" -/
def Sys.malloc (s : Sys) : Netfile := ⟨0, 0, [], 0, 0, 0, 0, qopen s.limit⟩

/-- `openfile` without an id. -/
def Sys.openunused (s : Sys) (user : Str) (mem : Bool) : Except Err (Nat × Sys) :=
  match s.unused with
  | none => .error .Enodev
  | some id =>
    if s.file id = none ∧ mem = false then .error .exhausted
    else
      let f := (s.file id).getD s.malloc
      let f := { f with inuse := 1, iq := f.iq.qreopen }
      .ok (id, s.setfile id (f.netown user s.eve 0).2)

/-- `openfile` of an id. -/
def Sys.openfile (s : Sys) (id : Nat) : Except Err Sys :=
  match s.file id with
  | none => .error .Enodev
  | some f => .ok (s.setfile id { f with inuse := f.inuse + 1, iq := f.iq.qreopen })

/-- The last close. -/
def Netfile.closed (f : Netfile) : Netfile :=
  { f with prom := 0, scan := 0, owner := [], type := 0, bridge := 0, iq := f.iq.qclose }

/-- `netifclose`. -/
def Sys.netifclose (s : Sys) (c : Chan) : Option Sys :=
  if c.copen = false then some s
  else if NETTYPE c.path ≠ Ndataqid ∧ NETTYPE c.path ≠ Nctlqid then some s
  else
    (s.file (NETID c.path)).map fun (f : Netfile) =>
      let f : Netfile := { f with inuse := f.inuse - 1 }
      if f.inuse = 0 then
        { s.setfile (NETID c.path) f.closed with
          prom := if f.prom ≠ 0 then s.prom - 1 else s.prom
          scan := if f.scan ≠ 0 then s.scan - 1 else s.scan
          all := if f.type < 0 then s.all - 1 else s.all }
      else s.setfile (NETID c.path) f

/-- `cclose` of the last reference. -/
def Sys.cclose (s : Sys) (c : Nat) : Option Sys :=
  match s.at c with
  | none => none
  | some ch => (s.netifclose ch).map fun s => s.setchan c none

/-- The end of `netifopen`. -/
def Sys.opened (s : Sys) (c : Nat) (ch : Chan) (omode : Int32) : Option Err × Sys :=
  match openmode omode with
  | none => (some .Ebadarg, s)
  | some mode => (none, s.setchan c (some { ch with mode, copen := true }))

/-- `netifopen` from `netown` on. -/
def Sys.own (s : Sys) (c : Nat) (ch : Chan) (id : Nat) (user : Str) (omode : Int32) :
    Option (Option Err × Sys) :=
  match s.file id with
  | none => none
  | some f =>
    let r := f.netown user s.eve (omode &&& 7)
    let s := s.setfile id r.2
    if r.1 = false then (s.netifclose ch).map fun s => (some .Eperm, s)
    else some (s.opened c ch omode)

/-- `netifopen`: the error, if there is one, and the state that it leaves. -/
def Sys.netifopen (s : Sys) (c : Nat) (ch : Chan) (user : Str) (omode : Int32) (mem : Bool) :
    Option (Option Err × Sys) :=
  if ch.dir then
    if omode ≠ 0 then some (some .Eperm, s) else some (s.opened c ch omode)
  else if NETTYPE ch.path = Ndataqid ∨ NETTYPE ch.path = Nctlqid then
    match s.openfile (NETID ch.path) with
    | .error e => some (some e, s)
    | .ok s => s.own c ch (NETID ch.path) user omode
  else if NETTYPE ch.path = Ncloneqid then
    match s.openunused user mem with
    | .error e => some (some e, s)
    | .ok (id, s) =>
      let ch := { ch with path := NETQID id Nctlqid }
      (s.setchan c (some ch)).own c ch id user omode
  else if omode ≠ 0 then some (some .Ebadarg, s)
  else some (s.opened c ch omode)

def isblank (b : UInt8) : Bool := b == 32 || b == 9 || b == 10

/-- `matchtoken`: what follows the token, without the blanks before it. -/
def matchtoken (p token : Str) : Option Str :=
  if token.isPrefixOf p = false then none
  else
    match p.drop token.length with
    | [] => some []
    | b :: p => if isblank b then some (p.dropWhile isblank) else none

def digits (base : Nat) (digit : UInt8 → Option Nat) : Nat → Str → Nat
  | n, [] => n
  | n, b :: p =>
    match digit b with
    | none => n
    | some d => digits base digit (n * base + d) p

def decdigit (b : UInt8) : Option Nat := if 48 ≤ b ∧ b ≤ 57 then some (b.toNat - 48) else none

def octdigit (b : UInt8) : Option Nat := if 48 ≤ b ∧ b ≤ 55 then some (b.toNat - 48) else none

def hexdigit (b : UInt8) : Option Nat :=
  if 48 ≤ b ∧ b ≤ 57 then some (b.toNat - 48)
  else if 97 ≤ b ∧ b ≤ 102 then some (b.toNat - 87)
  else if 65 ≤ b ∧ b ≤ 70 then some (b.toNat - 55)
  else none

/-- The number at the start of a string, as `atoi` reads it without the sign. -/
def number : Str → Nat
  | 48 :: 120 :: p => digits 16 hexdigit 0 p
  | 48 :: 88 :: p => digits 16 hexdigit 0 p
  | 48 :: b :: p => digits 8 octdigit 0 (b :: p)
  | p => digits 10 decdigit 0 p

/-- `atoi`, into an `int`. -/
def atoi (p : Str) : Int :=
  let blank : UInt8 → Bool := fun b => b == 32 || b == 9
  match p.dropWhile blank with
  | 45 :: p => (-(number (p.dropWhile blank) : Int)).bmod (2 ^ 32)
  | 43 :: p => (number (p.dropWhile blank) : Int).bmod (2 ^ 32)
  | p => (number p : Int).bmod (2 ^ 32)

/-- `parseaddr`, as far as it fails. -/
def parseaddr : Str → Nat → Bool
  | _, 0 => true
  | _ :: _ :: 58 :: p, n + 1 => parseaddr p n
  | _ :: _ :: p, n + 1 => parseaddr p n
  | _, _ + 1 => false

def Sys.typeinuse (s : Sys) (type : Int) : Bool :=
  if type ≤ 0 then false
  else s.f.any fun f => match f with
    | none => false
    | some f => f.type == type

inductive Cmd
  | connect (p : Str)
  | promiscuous
  | scanbs (p : Str)
  | mtu (p : Str)
  | l2bridge
  | bridge
  | multi (p : Str)
  | other
deriving Repr, DecidableEq

/-- The chain of `matchtoken`. -/
def parse (buf : Str) : Cmd :=
  match matchtoken buf "connect".toUTF8.toList with
  | some p => .connect p
  | none =>
    if (matchtoken buf "promiscuous".toUTF8.toList).isSome then .promiscuous
    else
      match matchtoken buf "scanbs".toUTF8.toList with
      | some p => .scanbs p
      | none =>
        match matchtoken buf "mtu".toUTF8.toList with
        | some p => .mtu p
        | none =>
          if (matchtoken buf "l2bridge".toUTF8.toList).isSome then .l2bridge
          else if (matchtoken buf "bridge".toUTF8.toList).isSome then .bridge
          else
            match matchtoken buf "addmulti".toUTF8.toList with
            | some p => .multi p
            | none =>
              match matchtoken buf "remmulti".toUTF8.toList with
              | some p => .multi p
              | none => .other

/-- What becomes of a control write: an error, or the count that it returns. -/
abbrev Written := Except Err Int

def Sys.connect (s : Sys) (id : Nat) (f : Netfile) (p : Str) (n : Nat) : Written × Sys :=
  let f := { f with iq := f.iq.qclose }
  let type := atoi p
  if s.typeinuse type then (.error .Einuse, s.setfile id f)
  else
    (.ok n, { s.setfile id { f with type, iq := f.iq.qreopen } with
      all := if type < 0 then s.all + 1 else s.all })

def Sys.promiscuous (s : Sys) (id : Nat) (f : Netfile) : Sys :=
  if f.prom = 0 then { s.setfile id { f with prom := 1 } with prom := s.prom + 1 } else s

def Sys.scanbs (s : Sys) (id : Nat) (f : Netfile) (p : Str) : Sys :=
  if f.scan = 0 then
    let type := atoi p
    let type := if type < 5 then 5 else type
    { s.setfile id { f with scan := type } with scan := s.scan + 1 }
  else s

def Sys.setmtu (s : Sys) (user p : Str) (n : Nat) : Written × Sys :=
  if user ≠ s.eve then (.error .Eperm, s)
  else
    let mtu := atoi p
    if mtu ≠ 0 ∧ (mtu < s.minmtu ∨ mtu > s.maxmtu) then (.error .Ebadarg, s)
    else
      match s.hwmtu with
      | none => (.ok n, { s with mtu })
      | some hwmtu => (.ok n, { s with mtu := hwmtu mtu })

/-- `netifwrite`, once the bytes are a string of at most 63. -/
def Sys.control (s : Sys) (id : Nat) (f : Netfile) (user : Str) (cmd : Cmd) (n : Nat) : Written × Sys :=
  match cmd with
  | .connect p => s.connect id f p n
  | .promiscuous => (.ok n, s.promiscuous id f)
  | .scanbs p => (.ok n, s.scanbs id f p)
  | .mtu p => s.setmtu user p n
  | .l2bridge => (.ok n, s.setfile id { f with bridge := f.bridge ||| 2 })
  | .bridge => (.ok n, s.setfile id { f with bridge := f.bridge ||| 1 })
  | .multi p =>
    if parseaddr p s.alen = false then (.error .badaddress, s)
    else if s.multicast = false then (.error .nomulticast, s)
    else (.ok n, s)
  | .other => (.ok (-1), s)

/-- "memmove(buf, a, n); buf[n] = 0;" as a string. -/
def cstring (a : Str) : Str := (a.take 63).takeWhile fun b => b ≠ 0

def Sys.netifwrite (s : Sys) (ch : Chan) (user a : Str) : Option (Written × Sys) :=
  if NETTYPE ch.path ≠ Nctlqid then some (.error .Eperm, s)
  else (s.file (NETID ch.path)).map fun f => s.control (NETID ch.path) f user (parse (cstring a)) (min a.length 63)

inductive Op
  /-- A walk makes a Chan. -/
  | walk (path : Nat) (dir : Bool)
  | open (c : Nat) (user : Str) (omode : Int32) (mem : Bool)
  | write (c : Nat) (user a : Str)
  | close (c : Nat)
deriving Repr, DecidableEq

def act (s : Sys) : Op → Option Sys
  | .walk path dir => some { s with chan := s.chan ++ [some ⟨path, dir, false, 0⟩] }
  | .open c user omode mem => (s.at c).bind fun ch => (s.netifopen c ch user omode mem).map Prod.snd
  | .write c user a => (s.at c).bind fun ch => (s.netifwrite ch user a).map Prod.snd
  | .close c => s.cclose c

/-- The files that `netifgen` makes. -/
def Made (s : Sys) (path : Nat) (dir : Bool) : Prop :=
  (dir = true ∧ (path = 0 ∨ path = N2ndqid)) ∨
  (dir = false ∧ path ∈ [Ncloneqid, Naddrqid, Nstatqid, Nifstatqid, Nmtuqid]) ∨
  ∃ id, s.file id ≠ none ∧
    ((dir = true ∧ path = NETQID id N3rdqid) ∨
      ∃ t ∈ [Ndataqid, Nctlqid, Nstatqid, Ntypeqid, Nifstatqid], dir = false ∧ path = NETQID id t)

/-- Walks find files, a Chan is opened once, and written only when it is open. -/
def Allowed (s : Sys) : Op → Prop
  | .walk path dir => Made s path dir
  | .open c _ _ _ => ∃ ch, s.at c = some ch ∧ ch.copen = false
  | .write c _ _ => ∃ ch, s.at c = some ch ∧ ch.copen = true ∧ ch.dir = false
  | .close c => s.at c ≠ none

/-- `netifinit`: no Netfile yet. -/
structure Start (s : Sys) : Prop where
  f : ∀ f ∈ s.f, f = none
  prom : s.prom = 0
  scan : s.scan = 0
  all : s.all = 0
  chan : s.chan = []

/-- The states that runs reach. -/
def Reach : Sys → Prop := StepSystem.Reach Start fun s op t => Allowed s op ∧ act s op = some t

/-- The Chans that have the data or the ctl file of `id` open. -/
def Chan.opens (id : Nat) (c : Chan) : Bool :=
  c.copen && (NETTYPE c.path == Ndataqid || NETTYPE c.path == Nctlqid) && NETID c.path == id

def Sys.opens (s : Sys) (id : Nat) : Nat := s.chan.countP fun o => o.any (Chan.opens id)

/-- The Netfiles that `p` is true of. -/
def Sys.files (s : Sys) (p : Netfile → Bool) : Nat := s.f.countP fun o => o.any p

structure Accounts (s : Sys) : Prop where
  inuse : ∀ id f, s.file id = some f → f.inuse = s.opens id
  prom : s.prom = s.files fun f => f.prom != 0
  scan : s.scan = s.files fun f => f.scan != 0
  all : s.all = s.files fun f => f.type < 0
  types : ∀ i j f g, s.file i = some f → s.file j = some g → i ≠ j → 0 < f.type → f.type ≠ g.type
  owner : ∀ id f, s.file id = some f → f.inuse = 0 → f.owner = []

/-- A control write that is an error, or returns -1. -/
def Failed (r : Written) : Prop := ∀ n, r = .ok n → n < 0

/-- The write leaves the types and the queues. -/
def Kept (s t : Sys) : Prop :=
  ∀ id, (t.file id).map (fun f => (f.type, f.iq)) = (s.file id).map fun f => (f.type, f.iq)

/-- `user` may open a Netfile of this owner and mode, and the mode of the open is one. -/
def Granted (owner : Str) (mode : Nat) (user eve : Str) (omode : Int32) : Prop :=
  permitted owner mode user eve (omode &&& 7) = true ∧ openmode omode ≠ none

/-- No data, ctl or clone file is refused when it is there to open, and a Netfile connects to a
type that is free while its own is not negative. -/
def Regular (s : Sys) : Op → Prop
  | .open c user omode mem => ∀ ch, s.at c = some ch → ch.dir = false →
      (NETTYPE ch.path = Ndataqid ∨ NETTYPE ch.path = Nctlqid →
        ∀ f, s.file (NETID ch.path) = some f → Granted f.owner f.mode user s.eve omode) ∧
      (NETTYPE ch.path = Ncloneqid → ∀ id, s.unused = some id → (s.file id = none → mem = true) →
        Granted (user.take KNAMELEN) 0o660 user s.eve omode)
  | .write c _ a => ∀ ch f p, s.at c = some ch → NETTYPE ch.path = Nctlqid →
      s.file (NETID ch.path) = some f → parse (cstring a) = .connect p →
      s.typeinuse (atoi p) = false ∧ 0 ≤ f.type
  | .walk .. | .close .. => True

/-- The states that regular runs reach. -/
def ReachRegular : Sys → Prop :=
  StepSystem.Reach Start fun s op t => Allowed s op ∧ Regular s op ∧ act s op = some t

end Netif
