import NixKernel.ChainTable
import NixKernel.StepSystem

/-!
# Address resolution: `ip/arp.c`

An entry of the cache is on the hash chain of its address, and while it waits for the answer to a
solicitation on the chain of those to send again.  The oldest entry is used again for a new
address.

Each step holds the lock of the table once: `arpget` keeps it for an entry that waits, until
`arpresolve` or `arprelease`; `rxmitsols` lets it go while it sends.  Media addresses, the packets
that wait for one, and those to be dropped are left out.  A step without a result is a panic:
`rxmitsols` asserts that an entry has an interface.
-/

namespace ArpTable

open Function

def NHASH : Nat := 2 ^ 6
def NCACHE : Nat := 256
def ReTransTimer : UInt32 := 1000
def MAX_MULTICAST_SOLICIT : UInt8 := 3

abbrev Ip := Fin 16 → UInt8

def v4prefix : Fin 12 → UInt8 := fun i => if i.val < 10 then 0 else 0xff

def v4tov6 (ip : Fin 4 → UInt8) : Ip :=
  fun i => if h : i.val < 12 then v4prefix ⟨i.val, h⟩ else ip ⟨i.val - 12, by omega⟩

def isv4 (ip : Ip) : Bool := decide (∀ i : Fin 12, ip (i.castLE (by decide)) = v4prefix i)

def ipismulticast (ip : Ip) : Bool :=
  if isv4 ip then 0xe0 ≤ ip 12 && ip 12 < 0xf0 else ip 0 == 0xff

/-- "(s)[IPaddrlen-1]%NHASH" -/
def haship (s : Ip) : Fin NHASH := ⟨(s 15).toNat % NHASH, Nat.mod_lt _ (by decide)⟩

/-- An address of either version. -/
inductive Addr
  | V4 (ip : Fin 4 → UInt8)
  | V6 (ip : Ip)

def Addr.ip : Addr → Ip
  | .V4 ip => v4tov6 ip
  | .V6 ip => ip

def Addr.v6 : Addr → Bool
  | .V4 _ => false
  | .V6 _ => true

abbrev Entry := Fin NCACHE

inductive State
  | UNUSED | AOK | AWAIT
deriving Repr, DecidableEq

structure Arpent where
  ip : Ip
  type : Nat
  ctime : UInt32
  utime : UInt32
  state : State
  rtime : UInt32
  rxtsrem : UInt8
  ifc : Option Nat
  ifcid : UInt8

/-- An interface: its medium, and how often it has been bound. -/
structure Ipifc where
  m : Nat
  ifcid : UInt8

structure Arp where
  cache : Entry → Arpent
  hash : Fin NHASH → Option Entry
  /-- "a->hash" -/
  next : Entry → Option Entry
  rxmt : Option Entry
  nextrxt : Entry → Option Entry

/-- The table with the interfaces, and who is at work. -/
structure Sys extends Arp where
  ifc : Nat → Ipifc
  /-- The read locks of `rxmitproc`. -/
  rlocks : Nat → Nat
  /-- What `arpget` has returned with the lock. -/
  got : Option Entry
  /-- What `rxmitsols` sends for, and through which interface. -/
  sending : Option (Entry × Nat)

def fuel : Nat := NCACHE + 1

def Arp.set (s : Arp) (a : Entry) (e : Arpent) : Arp := { s with cache := update s.cache a e }

/-- "take out of current chain" -/
def Arp.unhash (s : Arp) (a : Entry) : Option Arp :=
  (ChainTable.unlink fuel a (s.hash (haship (s.cache a).ip)) s.next).map fun r =>
    { s with hash := update s.hash (haship (s.cache a).ip) r.1, next := r.2 }

/-- "take out of re-transmit chain" -/
def Arp.unrxmt (s : Arp) (a : Entry) : Option Arp :=
  (ChainTable.unlink fuel a s.rxmt s.nextrxt).map fun r => { s with rxmt := r.1, nextrxt := r.2 }

/-- "put to the end of re-transmit chain" -/
def Arp.rxmtend (s : Arp) (a : Entry) : Option Arp :=
  (ChainTable.toEnd fuel a s.rxmt s.nextrxt).map fun r => { s with rxmt := r.1, nextrxt := r.2 }

/-- "find oldest entry" -/
def Arp.oldest (s : Arp) : Entry :=
  (List.finRange NCACHE).foldl (fun a f => if (s.cache f).utime < (s.cache a).utime then f else a)
    ⟨0, by decide⟩

/-- "insert into new chain" -/
def Arp.link (s : Arp) (a : Entry) (ip : Ip) : Arp :=
  { s with hash := update s.hash (haship ip) (some a), next := update s.next a (s.hash (haship ip)) }

/-- The entry that `newarp6` makes. -/
def Arpent.renew (e : Arpent) (ip : Ip) (i : Nat) (ifc : Ipifc) (now : UInt32) : Arpent :=
  { e with
    ip
    utime := now
    ctime := 0
    type := ifc.m
    rtime := now + ReTransTimer
    rxtsrem := MAX_MULTICAST_SOLICIT
    ifc := some i
    ifcid := ifc.ifcid }

/-- `newarp6`. -/
def Arp.newarp6 (s : Arp) (ip : Ip) (i : Nat) (ifc : Ipifc) (addrxt : Bool) (now : UInt32) :
    Option (Entry × Arp) := do
  let a := s.oldest
  let s ← s.unhash a
  let s := (s.link a ip).set a ((s.cache a).renew ip i ifc now)
  let s ← if !ipismulticast ip && addrxt then s.rxmtend a else some s
  return (a, { s with nextrxt := update s.nextrxt a none })

/-- `cleanarpent`. -/
def Arp.cleanarpent (s : Arp) (a : Entry) : Option Arp := do
  let s := s.set a { s.cache a with utime := 0, ctime := 0, type := 0, state := .UNUSED }
  let s ← s.unhash a
  let s ← s.unrxmt a
  return { s.set a { s.cache a with ifc := none } with
    nextrxt := update s.nextrxt a none
    next := update s.next a none }

def Sys.put (s : Sys) (t : Arp) : Sys := { s with toArp := t }

/-- The entry on the chain of `ip` that `ok` accepts. -/
def Arp.find (s : Arp) (ip : Ip) (ok : Arpent → Bool) : Option (Option Entry) :=
  (LinkList.search s.next (fun a => decide ((s.cache a).ip = ip) && ok (s.cache a)) fuel none
    (s.hash (haship ip))).map Prod.snd

/-- `arpget` with an entry. -/
def Sys.hit (s : Sys) (a : Entry) (now : UInt32) : Option Sys :=
  let t := s.put (s.set a { s.cache a with utime := now })
  match (s.cache a).state with
  | .AWAIT => some { t with got := some a }
  | _ => if now - (s.cache a).ctime > 15 * 60 * 1000 then (t.cleanarpent a).map t.put else some t

/-- `arpget`. -/
def Sys.arpget (s : Sys) (ip : Addr) (i : Nat) (now : UInt32) : Option Sys :=
  match s.find ip.ip fun e => e.type == (s.ifc i).m with
  | none => none
  | some (some a) => s.hit a now
  | some none =>
    (s.newarp6 ip.ip i (s.ifc i) ip.v6 now).bind fun r =>
      (s.put (r.2.set r.1 { r.2.cache r.1 with state := .AWAIT })).hit r.1 now

/-- `arpresolve`, for what `arpget` has returned. -/
def Sys.arpresolve (s : Sys) (a : Entry) (type : Nat) (now : UInt32) : Option Sys :=
  (if isv4 (s.cache a).ip then some s.toArp else s.unrxmt a).map fun t =>
    { s.put (t.set a { t.cache a with type, state := .AOK, utime := now }) with got := none }

/-- `arpenter`; `r` is the interface of the route, if there is one. -/
def Sys.arpenter (s : Sys) (ip : Addr) (n : Nat) (refresh : Bool) (r : Option Nat) (now : UInt32) :
    Option Sys :=
  if n ≠ 6 then some s
  else
    match r with
    | none => some s
    | some i =>
      let type := (s.ifc i).m
      match s.find ip.ip fun e => e.type == type && (e.state == .AWAIT || e.state == .AOK) with
      | none => none
      | some (some a) =>
        let t := s.set a { s.cache a with state := .AOK }
        (if ip.v6 then t.unrxmt a else some t).map fun t =>
          s.put (t.set a { t.cache a with
            ifc := some i, ifcid := (s.ifc i).ifcid, utime := now, ctime := now })
      | some none =>
        if refresh then some s
        else
          (s.newarp6 ip.ip i (s.ifc i) false now).map fun r =>
            s.put (r.2.set r.1 { r.2.cache r.1 with state := .AOK, type, ctime := now })

/-- "flush" -/
def Sys.flush (s : Sys) : Sys :=
  s.put { s.toArp with
    cache := fun a => { s.cache a with ip := fun _ => 0, state := .UNUSED, utime := 0 }
    next := fun _ => none
    hash := fun _ => none
    rxmt := none }

/-- "del" -/
def Sys.del (s : Sys) (ip : Ip) : Option Sys :=
  match LinkList.search s.next (fun a => decide ((s.cache a).ip = ip)) fuel none (s.hash (haship ip)) with
  | none => none
  | some (_, none) => some s
  | some (l, some a) =>
    let r := LinkList.store l (s.next a) (s.hash (haship ip)) s.next
    let t := { s.toArp with hash := update s.hash (haship ip) r.1, next := r.2 }
    (t.unrxmt a).map fun t =>
      s.put { t.set a { t.cache a with ifc := none, ip := fun _ => 0 } with
        nextrxt := update t.nextrxt a none
        next := update t.next a none }

/-- Whether the first entry is due: "nrxt > 3*ReTransTimer/4" is not. -/
def Arpent.due (e : Arpent) (now : UInt32) : Bool := (e.rtime - now).toInt32 ≤ 3 * 1000 / 4

/-- `rxmitsols` up to the solicitation; `can` is what `canrlock` finds.  `cleanarpent` leaves the
entry without a next one, which ends the loop: a loop that goes on has no result here. -/
def Sys.rxmitsols (s : Sys) (can : Bool) (now : UInt32) : Option Sys :=
  match s.rxmt with
  | none => some s
  | some a =>
    if (s.cache a).due now = false then some s
    else
      match (s.cache a).ifc with
      | none => none
      | some i =>
        let tried := (s.cache a).rxtsrem ≠ 0 ∧ can = true
        let t := if tried then { s with rlocks := update s.rlocks i (s.rlocks i + 1) } else s
        if ¬tried ∨ (s.cache a).ifcid ≠ (s.ifc i).ifcid then
          (t.cleanarpent a).bind fun u => if u.nextrxt a = none then some (t.put u) else none
        else some { t with sending := some (a, i) }

/-- `rxmitsols` behind the solicitation. -/
def Sys.solicited (s : Sys) (a : Entry) (i : Nat) (now : UInt32) : Option Sys :=
  (s.rxmtend a).map fun t =>
    let t := { t.set a { t.cache a with rxtsrem := (t.cache a).rxtsrem - 1, rtime := now + ReTransTimer } with
      nextrxt := update t.nextrxt a none }
    { s.put t with rlocks := update s.rlocks i (s.rlocks i - 1), sending := none }

inductive Op
  | arpget (ip : Addr) (i : Nat) (now : UInt32)
  | arpresolve (type : Nat) (now : UInt32)
  | arprelease
  /-- `arpenter`, also for "add". -/
  | arpenter (ip : Addr) (n : Nat) (refresh : Bool) (r : Option Nat) (now : UInt32)
  | flush
  | del (ip : Ip)
  | rxmitsols (can : Bool) (now : UInt32)
  | solicited (now : UInt32)
  /-- An interface is bound again. -/
  | bind (i m : Nat)

def act (s : Sys) : Op → Option Sys
  | .arpget ip i now => s.arpget ip i now
  | .arpresolve type now => s.got.bind fun a => s.arpresolve a type now
  | .arprelease => some { s with got := none }
  | .arpenter ip n refresh r now => s.arpenter ip n refresh r now
  | .flush => some s.flush
  | .del ip => s.del ip
  | .rxmitsols can now => s.rxmitsols can now
  | .solicited now => s.sending.bind fun r => s.solicited r.1 r.2 now
  | .bind i m => some { s with ifc := update s.ifc i ⟨m, (s.ifc i).ifcid + 1⟩ }

/-- The lock is free but for those who hold it, there is one `rxmitproc`, and an interface is bound
while nobody reads it. -/
def Allowed (s : Sys) : Op → Prop
  | .arpget .. | .arpenter .. | .flush | .del .. => s.got = none
  | .arpresolve .. | .arprelease => s.got ≠ none
  | .rxmitsols .. => s.got = none ∧ s.sending = none
  | .solicited _ => s.got = none ∧ s.sending ≠ none
  | .bind i _ => s.rlocks i = 0

/-- `arpinit`. -/
structure Start (s : Sys) : Prop where
  state : ∀ a, (s.cache a).state = .UNUSED
  hash : ∀ b, s.hash b = none
  rxmt : s.rxmt = none
  rlocks : ∀ i, s.rlocks i = 0
  got : s.got = none
  sending : s.sending = none

/-- The states that runs reach. -/
def Reach : Sys → Prop := StepSystem.Reach Start fun s op t => Allowed s op ∧ act s op = some t

/-- An entry that `rxmitsols` solicits for. -/
def Arpent.waits (e : Arpent) : Bool := e.state == .AWAIT && !isv4 e.ip && !ipismulticast e.ip

/-- What holds of the table. -/
structure Table (s : Sys) : Prop where
  /-- Each hash chain has the entries in use that belong to it, each once. -/
  hash : ∀ b, ∃ l : List Entry, LinkList.Path s.next (s.hash b) l none ∧ l.Nodup ∧
    ∀ a, a ∈ l ↔ (s.cache a).state ≠ .UNUSED ∧ haship (s.cache a).ip = b
  /-- The chain to send again has the entries that wait, each once. -/
  rxmt : ∃ l : List Entry, LinkList.Path s.nextrxt s.rxmt l none ∧ l.Nodup ∧
    ∀ a, a ∈ l ↔ (s.cache a).waits = true
  ifc : ∀ a, (s.cache a).waits = true → (s.cache a).ifc ≠ none
  /-- `rxmitsols` has the interface locked while it sends, and no other. -/
  rlocks : ∀ i, s.rlocks i = if (s.sending.map Prod.snd) = some i then 1 else 0

/-- The entry to be used again does not wait, unless the new one does. -/
def Arp.Spare (s : Arp) (waits : Bool) : Prop := (s.cache s.oldest).waits = true → waits = true

/-- No entry that waits is used again for one that does not, or deleted, resolved or flushed while
`rxmitsols` sends for it; no interface that `rxmitsols` has locked has been bound again; no entry is
deleted; and no packet of version 6 is to an address of version 4. -/
def Regular (s : Sys) : Op → Prop
  | .arpget ip i _ => s.find ip.ip (fun e => e.type == (s.ifc i).m) = some none →
      (ip.v6 = true → isv4 ip.ip = true → ipismulticast ip.ip = true) ∧
      s.Spare (ip.v6 && !ipismulticast ip.ip)
  | .arpenter ip n refresh r _ => ∀ i, r = some i → n = 6 → refresh = false →
      s.find ip.ip (fun e => e.type == (s.ifc i).m && (e.state == .AWAIT || e.state == .AOK)) = some none →
      s.Spare false
  | .del ip => ∀ a, (s.cache a).state ≠ .UNUSED → (s.cache a).ip ≠ ip
  | .rxmitsols can now => ∀ a i, s.rxmt = some a → (s.cache a).due now = true → (s.cache a).ifc = some i →
      (s.cache a).rxtsrem ≠ 0 → can = true → (s.cache a).ifcid = (s.ifc i).ifcid
  | .solicited _ => ∀ a i, s.sending = some (a, i) → (s.cache a).waits = true
  | _ => True

/-- The states that regular runs reach. -/
def ReachRegular : Sys → Prop :=
  StepSystem.Reach Start fun s op t => Allowed s op ∧ Regular s op ∧ act s op = some t

end ArpTable
