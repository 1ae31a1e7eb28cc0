import NixKernel.ArpTable

/-!
# The packets that wait for an address: `ip/arp.c`

The packets that the table of `ArpTable` leaves out.  Those that wait for an entry hang on its hold
list; when the entry is given up they go to the drop list, which `rxmitsols` reports.  Both lists run
through a field of the packets, and have a pointer to their last packet.

`arpenter` takes a hold list off its entry and sends the packets without the lock, and `rxmitsols`
reports them so, one after the other: each packet is a step, between those of others.  For each
of the `N` blocks of the memory `puts` counts how often it has been put on a hold list, and `handled`
how often it has been returned, sent, freed or reported since; the program has no such counts.  A step
without a result is a panic.
-/

namespace ArpHold

open ArpTable Function

variable {N : Nat}

/-- The table with the packets. -/
structure Kern (N : Nat) extends Sys where
  /-- "bp->list" -/
  list : Fin N → Option (Fin N)
  hold : Entry → Option (Fin N)
  last : Entry → Option (Fin N)
  dropf : Option (Fin N)
  dropl : Option (Fin N)
  /-- "bp" in the processes that send in `arpenter`. -/
  out : Nat → Option (Fin N)
  /-- "xp" behind "dodrops", and the interface that `rxmitsols` has looked at. -/
  drops : Option (Fin N)
  dropifc : Option Nat
  puts : Fin N → Nat
  handled : Fin N → Nat

/-- The packets of a list, one after the other, are freed or handed back. -/
def settle (list : Fin N → Option (Fin N)) :
    Nat → Option (Fin N) → (Fin N → Nat) → Option (Fin N → Nat)
  | 0, _, _ => none
  | _ + 1, none, count => some count
  | fuel + 1, some bp, count => settle list fuel (list bp) (update count bp (count bp + 1))

def Kern.settle (k : Kern N) (p : Option (Fin N)) : Option (Kern N) :=
  (ArpHold.settle k.list (N + 1) p k.handled).map fun count => { k with handled := count }

/-- "if(arp->dropl == nil) arp->dropf = xp; else arp->dropl->list = xp;" -/
def Kern.drop (k : Kern N) (xp : Fin N) : Kern N :=
  match k.dropl with
  | none => { k with dropf := some xp }
  | some l => { k with list := update k.list l (some xp) }

/-- "dump waiting packets" -/
def Kern.dump (k : Kern N) (a : Entry) : Option (Kern N) :=
  let t := { k with hold := update k.hold a none }
  if isv4 (k.cache a).ip then t.settle (k.hold a)
  else
    match k.hold a with
    | none => some t
    | some xp =>
      let t := t.drop xp
      (LinkList.search t.list (fun _ => false) (N + 1) (some xp) (t.list xp)).map fun r =>
        { t with dropl := r.1 }

/-- The hold list is forgotten. -/
def Kern.clear (k : Kern N) (a : Entry) : Kern N :=
  { k with hold := update k.hold a none, last := update k.last a none }

/-- `arpget` puts a packet on the list of an entry that waits. -/
def Kern.queue (k : Kern N) (a : Entry) (bp : Fin N) : Option (Kern N) :=
  let linked : Option (Kern N) :=
    match k.hold a with
    | none => some { k with hold := update k.hold a (some bp) }
    | some _ => (k.last a).map fun l => { k with list := update k.list l (some bp) }
  linked.map fun t =>
    { t with
      last := update t.last a (some bp)
      list := update t.list bp none
      puts := update t.puts bp (t.puts bp + 1) }

/-- "dodrops" -/
def Kern.dodrops (k : Kern N) (ifc : Option Nat) : Kern N :=
  { k with drops := k.dropf, dropifc := ifc, dropf := none, dropl := none }

/-- `newarp6`. -/
def Kern.newarp6 (k : Kern N) (ip : Ip) (i : Nat) (addrxt : Bool) (now : UInt32) :
    Option (Entry × Kern N) :=
  (k.dump k.oldest).bind fun d =>
    (k.toArp.newarp6 ip i (k.ifc i) addrxt now).map fun r => (r.1, { d with toArp := r.2 })

/-- `arpget` with an entry. -/
def Kern.hit (k : Kern N) (a : Entry) (now : UInt32) (bp : Option (Fin N)) : Option (Kern N) :=
  (k.toSys.hit a now).bind fun s =>
    match (k.cache a).state with
    | .AWAIT =>
      match bp with
      | none => some { k with toSys := s }
      | some b => (k.queue a b).map fun t => { t with toSys := s }
    | _ =>
      let t := if now - (k.cache a).ctime > 15 * 60 * 1000 then k.clear a else k
      some { t with toSys := s }

/-- `arpget`. -/
def Kern.arpget (k : Kern N) (ip : Addr) (i : Nat) (now : UInt32) (bp : Option (Fin N)) :
    Option (Kern N) :=
  match k.find ip.ip fun e => e.type == (k.ifc i).m with
  | none => none
  | some (some a) => k.hit a now bp
  | some none =>
    (k.newarp6 ip.ip i ip.v6 now).bind fun r =>
      Kern.hit { r.2 with toArp := r.2.toArp.set r.1 { r.2.cache r.1 with state := .AWAIT } } r.1 now bp

/-- `arpresolve`, which hands back the hold list. -/
def Kern.arpresolve (k : Kern N) (a : Entry) (type : Nat) (now : UInt32) : Option (Kern N) :=
  (k.toSys.arpresolve a type now).bind fun s =>
    Kern.settle { k with toSys := s, hold := update k.hold a none } (k.hold a)

/-- `arpenter` up to the packets it sends, in process `p`. -/
def Kern.arpenter (k : Kern N) (p : Nat) (ip : Addr) (n : Nat) (refresh : Bool) (r : Option Nat)
    (now : UInt32) : Option (Kern N) :=
  if n ≠ 6 then some k
  else
    match r with
    | none => some k
    | some i =>
      let type := (k.ifc i).m
      match k.find ip.ip fun e => e.type == type && (e.state == .AWAIT || e.state == .AOK) with
      | none => none
      | some (some a) =>
        (k.toSys.arpenter ip n refresh r now).map fun s =>
          { k with toSys := s, hold := update k.hold a none, out := update k.out p (k.hold a) }
      | some none =>
        if refresh then some k
        else
          (k.newarp6 ip.ip i false now).map fun r =>
            { r.2 with toArp := r.2.toArp.set r.1 { r.2.cache r.1 with state := .AOK, type, ctime := now } }

/-- `arpenter` sends a packet; unless `ok`, "bwrite" raises an error, and `arpenter` is left. -/
def Kern.bwrite (k : Kern N) (p : Nat) (ok : Bool) : Option (Kern N) :=
  (k.out p).map fun bp =>
    { k with
      out := update k.out p (if ok then k.list bp else none)
      handled := update k.handled bp (k.handled bp + 1) }

/-- "flush" -/
def Kern.flush (k : Kern N) : Option (Kern N) :=
  ((List.finRange NCACHE).foldlM (fun count a => ArpHold.settle k.list (N + 1) (k.hold a) count) k.handled).map
    fun count =>
      { k with
        toSys := k.toSys.flush
        hold := fun _ => none
        dropf := none
        dropl := none
        handled := count }

/-- The entry that "del" finds. -/
def delFinds (s : Arp) (ip : Ip) : Option (Option Entry) :=
  (LinkList.search s.next (fun a => decide ((s.cache a).ip = ip)) fuel none (s.hash (haship ip))).map
    Prod.snd

/-- "del" -/
def Kern.del (k : Kern N) (ip : Ip) : Option (Kern N) :=
  match delFinds k.toArp ip with
  | none => none
  | some none => some k
  | some (some a) => (k.toSys.del ip).map fun s => { k.clear a with toSys := s }

/-- `rxmitsols` finds no entry due, and has no interface. -/
def idle (s : Arp) (now : UInt32) : Bool := s.rxmt.all fun a => !(s.cache a).due now

/-- `rxmitsols` up to the solicitation. -/
def Kern.rxmitsols (k : Kern N) (can : Bool) (now : UInt32) : Option (Kern N) :=
  match k.rxmt with
  | none => some (k.dodrops none)
  | some a =>
    if (k.cache a).due now = false then some (k.dodrops none)
    else
      match (k.cache a).ifc with
      | none => none
      | some i =>
        (k.toSys.rxmitsols can now).map fun s =>
          if ¬((k.cache a).rxtsrem ≠ 0 ∧ can = true) ∨ (k.cache a).ifcid ≠ (k.ifc i).ifcid then
            let t := { k with hold := update k.hold a none }
            let t := match k.hold a with
              | none => t
              | some xp => t.drop xp
            { (t.clear a).dodrops (some i) with toSys := s }
          else { k with toSys := s }

/-- `rxmitsols` behind the solicitation. -/
def Kern.solicited (k : Kern N) (a : Entry) (i : Nat) (now : UInt32) : Option (Kern N) :=
  (k.toSys.solicited a i now).map fun s => { k.dodrops (some i) with toSys := s }

/-- `icmphostunr` locks the interface and frees the packet. -/
def Kern.report (k : Kern N) : Option (Kern N) :=
  k.drops.bind fun xp =>
    k.dropifc.map fun _ =>
      { k with drops := k.list xp, handled := update k.handled xp (k.handled xp + 1) }

inductive Op (N : Nat)
  | arpget (ip : Addr) (i : Nat) (now : UInt32) (bp : Option (Fin N))
  | arpresolve (type : Nat) (now : UInt32)
  | arprelease
  | arpenter (p : Nat) (ip : Addr) (n : Nat) (refresh : Bool) (r : Option Nat) (now : UInt32)
  | bwrite (p : Nat) (ok : Bool)
  | flush
  | del (ip : Ip)
  | rxmitsols (can : Bool) (now : UInt32)
  | solicited (now : UInt32)
  | report
  | bind (i m : Nat)

/-- The step of the table. -/
def Op.table : Op N → Option ArpTable.Op
  | .arpget ip i now _ => some (.arpget ip i now)
  | .arpresolve type now => some (.arpresolve type now)
  | .arprelease => some .arprelease
  | .arpenter _ ip n refresh r now => some (.arpenter ip n refresh r now)
  | .bwrite .. | .report => none
  | .flush => some .flush
  | .del ip => some (.del ip)
  | .rxmitsols can now => some (.rxmitsols can now)
  | .solicited now => some (.solicited now)
  | .bind i m => some (.bind i m)

def act (k : Kern N) : Op N → Option (Kern N)
  | .arpget ip i now bp => k.arpget ip i now bp
  | .arpresolve type now => k.got.bind fun a => k.arpresolve a type now
  | .arprelease => some { k with got := none }
  | .arpenter p ip n refresh r now => k.arpenter p ip n refresh r now
  | .bwrite p ok => k.bwrite p ok
  | .flush => k.flush
  | .del ip => k.del ip
  | .rxmitsols can now => k.rxmitsols can now
  | .solicited now => k.sending.bind fun r => k.solicited r.1 r.2 now
  | .report => k.report
  | .bind i m => some { k with ifc := update k.ifc i ⟨m, (k.ifc i).ifcid + 1⟩ }

/-- What the table allows; a packet is put on a list by its owner, so that it is on none; and who has
packets to send or to report does that first. -/
def Allowed (k : Kern N) (op : Op N) : Prop :=
  (∀ t, op.table = some t → ArpTable.Allowed k.toSys t) ∧
  match op with
  | .arpget _ _ _ (some bp) => k.puts bp = k.handled bp
  | .arpenter p .. => k.out p = none
  | .rxmitsols .. | .solicited _ => k.drops = none
  | _ => True

/-- A table that is made, with no packets. -/
structure Start (k : Kern N) : Prop where
  table : ArpTable.Start k.toSys
  hold : ∀ a, k.hold a = none
  dropf : k.dropf = none
  dropl : k.dropl = none
  out : ∀ p, k.out p = none
  drops : k.drops = none
  fresh : ∀ b, k.puts b = k.handled b

/-- Where a packet can be. -/
inductive Place
  | hold (a : Entry) | drop | out (p : Nat) | report
deriving DecidableEq

def Kern.head (k : Kern N) : Place → Option (Fin N)
  | .hold a => k.hold a
  | .drop => k.dropf
  | .out p => k.out p
  | .report => k.drops

/-- **No packet is lost and none is handled twice**: the lists end and have no packet in common; a
packet on one of them has been put once more than it has been handled, and any other as often; and
the packets to be reported have an interface. -/
def Kept (k : Kern N) : Prop :=
  ∃ tab : Place → List (Fin N), ChainTable.Chains k.head k.list tab ∧
    (∀ w b, b ∈ tab w → k.puts b = k.handled b + 1) ∧
    (∀ b, (∀ w, b ∉ tab w) → k.puts b = k.handled b) ∧
    (k.drops ≠ none → k.dropifc ≠ none)

/-- "del" finds no entry with packets, "flush" no packets to be dropped; `rxmitsols` has none to drop
when no entry is due; and when a packet cannot be sent it is the last. -/
def Spares (k : Kern N) : Op N → Prop
  | .del ip => ∀ a, delFinds k.toArp ip = some (some a) → k.hold a = none
  | .flush => k.dropf = none
  | .rxmitsols _ now => idle k.toArp now = true → k.dropf = none
  | .bwrite p ok => ok = true ∨ ∀ bp, k.out p = some bp → k.list bp = none
  | _ => True

/-- The states that runs reach, -/
def Reach : Kern N → Prop := StepSystem.Reach Start fun k op t => Allowed k op ∧ act k op = some t

/-- and those reached when each step spares the packets. -/
def ReachSpared : Kern N → Prop :=
  StepSystem.Reach Start fun k op t => Allowed k op ∧ Spares k op ∧ act k op = some t

end ArpHold
