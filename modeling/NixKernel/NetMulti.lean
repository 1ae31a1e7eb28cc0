import NixKernel.BitTable
import NixKernel.Tally
import NixKernel.StepSystem

/-!
# Multicast addresses of an interface: `netmulti`, `netifclose`

An interface lists the addresses that its Netfiles have asked for, each with a count.  A Netfile
has a bit for each place of the list that it asked for, and counts its bits.  `netifclose` means to
give back what a Netfile asked for, but tests the bit of the first address each time.

Addresses are the `alen` bytes that are compared.  An address is never taken off the list.  `mhash`,
which finds the same addresses again, is left out, and what the Netfiles have besides.
-/

namespace NetMulti

open List Option

abbrev Str := List UInt8

structure Netaddr where
  addr : Str
  ref : Nat
deriving DecidableEq

structure Netfile where
  inuse : Nat
  /-- `uchar maddr[8]` -/
  maddr : Nat → BitVec 8
  nmaddr : Int

/-- What is read of a `Netif`.  The driver keeps the addresses of its calls in `filter`. -/
structure Nif where
  /-- "nif->multicast != nil" -/
  multicast : Bool
  maddr : List Netaddr
  nmaddr : Int
  filter : Finset Str

structure Sys where
  nif : Nif
  f : List (Option Netfile)

variable {nif nif' : Nif} {f f' : Netfile} {s t : Sys} {addr : Str} {i j id : Nat}

/-- "f->maddr[i/8] & (1<<(i%8))" -/
def Netfile.has (f : Netfile) (i : Nat) : Bool := f.maddr (i / 8) &&& 1#8 <<< (i % 8) != 0#8

/-- The place of an address in the list, or the list's length. -/
def Nif.place (nif : Nif) (addr : Str) : Nat := nif.maddr.findIdx (·.addr == addr)

/-- "nif->nmaddr++; nif->multicast(nif->arg, addr, 1);" -/
def Nif.tune (nif : Nif) (addr : Str) : Nif :=
  { nif with nmaddr := nif.nmaddr + 1, filter := insert addr nif.filter }

/-- "nif->nmaddr--; nif->multicast(nif->arg, addr, 0);" -/
def Nif.untune (nif : Nif) (addr : Str) : Nif :=
  { nif with nmaddr := nif.nmaddr - 1, filter := nif.filter.erase addr }

def Netfile.mark (f : Netfile) (i : Nat) : Netfile :=
  if i < 8 * 8 then
    { f with nmaddr := if f.has i = false then f.nmaddr + 1 else f.nmaddr
             maddr := BitTable.insert f.maddr (i / 8) (i % 8) }
  else f

def Netfile.unmark (f : Netfile) (i : Nat) : Netfile :=
  if i < 8 * 8 then
    { f with nmaddr := if f.has i = true then f.nmaddr - 1 else f.nmaddr
             maddr := BitTable.erase f.maddr (i / 8) (i % 8) }
  else f

/-- `netmulti`: the error, the interface and the Netfile. -/
def netmulti (nif : Nif) (f : Netfile) (addr : Str) (add : Bool) : Option String × Nif × Netfile :=
  if nif.multicast = false then (some "interface does not support multicast", nif, f)
  else
    let i := nif.place addr
    if add then
      match nif.maddr[i]? with
      | none => (none, ({ nif with maddr := nif.maddr ++ [⟨addr, 1⟩] } : Nif).tune addr, f.mark i)
      | some ap =>
        let ap : Netaddr := { ap with ref := ap.ref + 1 }
        let nif : Nif := { nif with maddr := nif.maddr.set i ap }
        (none, if ap.ref = 1 then nif.tune addr else nif, f.mark i)
    else
      match nif.maddr[i]? with
      | none => (none, nif, f)
      | some ap =>
        if ap.ref = 0 then (none, nif, f)
        else
          let ap : Netaddr := { ap with ref := ap.ref - 1 }
          let nif : Nif := { nif with maddr := nif.maddr.set i ap }
          (none, if ap.ref = 0 then nif.untune addr else nif, f.unmark i)

/-- The loop of `netifclose` over the addresses.  `t` stays 0. -/
def closeLoop (nif : Nif) (f : Netfile) : List Netaddr → Nif × Netfile
  | [] => (nif, f)
  | ap :: l =>
    if f.has 0 then
      let r := netmulti nif f ap.addr false
      closeLoop r.2.1 r.2.2 l
    else closeLoop nif f l

/-- The part of `netifclose` that is about addresses. -/
def netifclose (nif : Nif) (f : Netfile) : Nif × Netfile :=
  let f : Netfile := { f with inuse := f.inuse - 1 }
  if f.inuse = 0 ∧ f.nmaddr ≠ 0 then
    let r := closeLoop nif f nif.maddr
    (r.1, { r.2 with nmaddr := 0 })
  else (nif, f)

inductive Op
  | open (id : Nat)
  | addmulti (id : Nat) (addr : Str)
  | remmulti (id : Nat) (addr : Str)
  | close (id : Nat)
deriving DecidableEq

def Sys.file (s : Sys) (id : Nat) : Option Netfile := s.f.getD id none

/-- The Netfile if it is open. -/
def Sys.opened (s : Sys) (id : Nat) : Option Netfile := (s.file id).filter (0 < ·.inuse)

def Sys.multi (s : Sys) (id : Nat) (addr : Str) (add : Bool) : Option Sys :=
  (s.opened id).map fun f =>
    let r := netmulti s.nif f addr add
    ⟨r.2.1, s.f.set id (some r.2.2)⟩

/-- A Netfile is made when it is first opened. -/
def act (s : Sys) : Op → Option Sys
  | .open id =>
    if id < s.f.length then
      let f := (s.file id).getD ⟨0, fun _ => 0#8, 0⟩
      some { s with f := s.f.set id (some { f with inuse := f.inuse + 1 }) }
    else none
  | .addmulti id addr => s.multi id addr true
  | .remmulti id addr => s.multi id addr false
  | .close id =>
    (s.opened id).map fun f =>
      let r := netifclose s.nif f
      ⟨r.1, s.f.set id (some r.2)⟩

/-- `netifinit`. -/
structure Start (s : Sys) : Prop where
  f : ∀ f ∈ s.f, f = none
  maddr : s.nif.maddr = []
  nmaddr : s.nif.nmaddr = 0
  filter : s.nif.filter = ∅

/-- The bits of a Netfile that are set. -/
def Netfile.bits (f : Netfile) : Finset Nat := (Finset.range 64).filter (f.has ·)

/-- The address is one with a count. -/
def Nif.wants (nif : Nif) (addr : Str) : Prop := ∃ ap ∈ nif.maddr, ap.addr = addr ∧ 0 < ap.ref

/-- The open Netfiles that have a bit set. -/
def Sys.askers (s : Sys) (i : Nat) : Nat := s.f.countP fun o => o.any fun f => 0 < f.inuse && f.has i

structure Counts (s : Sys) : Prop where
  ref : ∀ i ap, s.nif.maddr[i]? = some ap → ap.ref = s.askers i
  bits : ∀ id f, s.file id = some f → f.nmaddr = f.bits.card
  nmaddr : s.nif.nmaddr = s.nif.maddr.countP fun ap => 0 < ap.ref
  filter : ∀ addr, addr ∈ s.nif.filter ↔ s.nif.wants addr

/-- A Netfile asks for an address that it has not asked for, gives back one that it has or that no
Netfile has, and has at its last close asked for the first address at most. -/
def Regular (s : Sys) : Op → Prop
  | .open _ => True
  | .addmulti id addr => ∀ f, s.file id = some f → f.has (s.nif.place addr) = false
  | .remmulti id addr => ∀ f, s.file id = some f →
      f.has (s.nif.place addr) = true ∨ ¬s.nif.wants addr
  | .close id => ∀ f, s.file id = some f → f.inuse = 1 → ∀ i ∈ f.bits, i = 0

def Reach : Sys → Prop := StepSystem.Reach Start fun s op t => act s op = some t

def ReachRegular : Sys → Prop := StepSystem.Reach Start fun s op t => Regular s op ∧ act s op = some t

theorem has_iff : f.has i = true ↔ BitTable.Mem f.maddr i := by
  rw [Netfile.has, bne_iff_ne, ne_eq, BitTable.and_bit _ (Nat.mod_lt i (by decide)), BitTable.Mem,
    Bool.not_eq_false]

theorem has_mark (hi : i < 64) : (f.mark i).has j = true ↔ f.has j = true ∨ j = i := by
  rw [Netfile.mark, if_pos hi, has_iff, BitTable.mem_insert (Nat.mod_lt i (by decide)), has_iff,
    Nat.div_add_mod']

theorem has_unmark (hi : i < 64) : (f.unmark i).has j = true ↔ f.has j = true ∧ j ≠ i := by
  rw [Netfile.unmark, if_pos hi, has_iff, BitTable.mem_erase (Nat.mod_lt i (by decide)), has_iff,
    Nat.div_add_mod']

theorem mem_bits : i ∈ f.bits ↔ i < 64 ∧ f.has i = true := by
  rw [Netfile.bits, Finset.mem_filter, Finset.mem_range]

theorem bits_mark (hi : i < 64) : (f.mark i).bits = insert i f.bits := by
  ext j
  rw [mem_bits, Finset.mem_insert, mem_bits, has_mark hi]
  constructor
  · rintro ⟨hj, h | h⟩
    · exact .inr ⟨hj, h⟩
    · exact .inl h
  · rintro (rfl | h)
    · exact ⟨hi, .inr rfl⟩
    · exact ⟨h.1, .inl h.2⟩

theorem bits_unmark (hi : i < 64) : (f.unmark i).bits = f.bits.erase i := by
  ext j
  rw [mem_bits, Finset.mem_erase, mem_bits, has_unmark hi]
  exact ⟨fun h => ⟨h.2.2, h.1, h.2.1⟩, fun h => ⟨h.2.1, h.2.2, h.1⟩⟩

theorem nmaddr_mark (hi : i < 64) (h : f.nmaddr = f.bits.card) :
    (f.mark i).nmaddr = (f.mark i).bits.card := by
  rw [bits_mark hi, Netfile.mark, if_pos hi]
  by_cases hhas : f.has i = true
  · rw [Finset.insert_eq_self.mpr (mem_bits.mpr ⟨hi, hhas⟩), ← h, hhas]
    rfl
  · rw [Finset.card_insert_of_notMem fun hmem => hhas (mem_bits.mp hmem).2]
    rw [Bool.not_eq_true] at hhas
    rw [hhas, Nat.cast_add, ← h]
    rfl

theorem nmaddr_unmark (hi : i < 64) (h : f.nmaddr = f.bits.card) :
    (f.unmark i).nmaddr = (f.unmark i).bits.card := by
  rw [bits_unmark hi, Netfile.unmark, if_pos hi]
  by_cases hhas : f.has i = true
  · have hcard := Finset.card_erase_add_one (mem_bits.mpr ⟨hi, hhas⟩)
    simp only [hhas, if_true]
    omega
  · rw [Finset.erase_eq_of_notMem fun hmem => hhas (mem_bits.mp hmem).2, ← h]
    simp only [if_neg hhas]

@[simp] theorem mark_inuse (f : Netfile) (i : Nat) : (f.mark i).inuse = f.inuse := by
  rw [Netfile.mark]
  split <;> rfl

@[simp] theorem unmark_inuse (f : Netfile) (i : Nat) : (f.unmark i).inuse = f.inuse := by
  rw [Netfile.unmark]
  split <;> rfl

/-- The count at a place; behind the list it is 0. -/
def Nif.ref (nif : Nif) (i : Nat) : Nat := (nif.maddr.getD i ⟨[], 0⟩).ref

/-- What the interface keeps of its own list. -/
structure Nif.Good (nif : Nif) : Prop where
  nodup : (nif.maddr.map Netaddr.addr).Nodup
  nmaddr : nif.nmaddr = nif.maddr.countP fun ap => 0 < ap.ref
  filter : ∀ addr, addr ∈ nif.filter ↔ nif.wants addr
  bare : nif.multicast = false → nif.maddr = []

theorem place_le (nif : Nif) (addr : Str) : nif.place addr ≤ nif.maddr.length := findIdx_le_length

variable {ap : Netaddr}

theorem place_some (h : nif.maddr[nif.place addr]? = some ap) : ap.addr = addr := by
  obtain ⟨hlt, rfl⟩ := List.getElem?_eq_some_iff.mp h
  exact eq_of_beq (findIdx_getElem (w := hlt))

theorem place_none (h : nif.maddr[nif.place addr]? = none) : addr ∉ nif.maddr.map Netaddr.addr := by
  intro hmem
  obtain ⟨ap, hap, rfl⟩ := mem_map.mp hmem
  have hlt : nif.place ap.addr < nif.maddr.length :=
    findIdx_lt_length_of_exists ⟨ap, hap, beq_self_eq_true _⟩
  rw [List.getElem?_eq_none_iff] at h
  omega

/-- An address of the list is found in its place. -/
theorem Nif.Good.place (h : nif.Good) (hi : nif.maddr[i]? = some ap) :
    nif.place ap.addr = i := by
  obtain ⟨hlt, rfl⟩ := List.getElem?_eq_some_iff.mp hi
  have hle : nif.place nif.maddr[i].addr < nif.maddr.length :=
    findIdx_lt_length_of_exists ⟨_, getElem_mem hlt, beq_self_eq_true _⟩
  have heq := place_some (List.getElem?_eq_getElem hle)
  refine (@List.Nodup.getElem_inj_iff _ _ h.nodup _ (by rwa [length_map]) _
    (by rwa [length_map])).mp ?_
  rw [getElem_map, getElem_map, heq]

theorem wants_iff (h : nif.Good) (hi : nif.maddr[i]? = some ap) :
    nif.wants ap.addr ↔ 0 < ap.ref := by
  refine ⟨fun ⟨aq, hmem, heq, hpos⟩ => ?_, fun hpos => ⟨ap, mem_of_getElem? hi, rfl, hpos⟩⟩
  obtain ⟨j, hj⟩ := mem_iff_getElem?.mp hmem
  have hplace := h.place hj
  rw [heq, h.place hi] at hplace
  rw [hplace, hj] at hi
  cases hi
  exact hpos

/-- Another count in a place: the number and the filter follow when it becomes or ceases to be 0. -/
theorem Nif.Good.put (h : nif.Good) {r : Nat} (hi : nif.maddr[i]? = some ap)
    (hmulti : nif'.multicast = nif.multicast) (hmaddr : nif'.maddr = nif.maddr.set i { ap with ref := r })
    (hnmaddr : nif'.nmaddr = nif.nmaddr - (decide (0 < ap.ref)).toNat + (decide (0 < r)).toNat)
    (hfilter : ∀ a, a ∈ nif'.filter ↔ (a ≠ ap.addr ∧ a ∈ nif.filter) ∨ (a = ap.addr ∧ 0 < r)) :
    nif'.Good := by
  obtain ⟨hlt, hap⟩ := List.getElem?_eq_some_iff.mp hi
  have haddr : nif'.maddr.map Netaddr.addr = nif.maddr.map Netaddr.addr := by
    rw [hmaddr, map_set]
    refine ext_getElem? fun j => ?_
    rw [List.getElem?_set, length_map]
    by_cases hij : i = j
    · rw [if_pos hij, if_pos hlt, ← hij, List.getElem?_map, hi]
      rfl
    · rw [if_neg hij]
  refine ⟨haddr ▸ h.nodup, ?_, fun a => ?_, fun hm => ?_⟩
  · have hcount := Tally.countP_set (d := ap) (fun ap : Netaddr => decide (0 < ap.ref)) hlt
      { ap with ref := r }
    rw [Tally.getD_lt hlt, hap] at hcount
    have hold := h.nmaddr
    dsimp only at hcount
    rw [hnmaddr, hmaddr]
    omega
  · rw [hfilter, h.filter]
    constructor
    · rintro (⟨hne, aq, hmem, heq, hpos⟩ | ⟨rfl, hpos⟩)
      · refine ⟨aq, ?_, heq, hpos⟩
        obtain ⟨j, hj⟩ := mem_iff_getElem?.mp hmem
        rw [hmaddr, mem_iff_getElem?]
        refine ⟨j, ?_⟩
        rw [List.getElem?_set_ne, hj]
        rintro rfl
        rw [hi] at hj
        cases hj
        exact hne heq.symm
      · exact ⟨{ ap with ref := r }, hmaddr ▸ mem_set hlt _, rfl, hpos⟩
    · rintro ⟨aq, hmem, rfl, hpos⟩
      obtain ⟨j, hj⟩ := mem_iff_getElem?.mp hmem
      rw [hmaddr, List.getElem?_set] at hj
      by_cases hij : i = j
      · rw [if_pos hij, if_pos (hij ▸ hlt)] at hj
        cases hj
        exact .inr ⟨rfl, hpos⟩
      · rw [if_neg hij] at hj
        refine .inl ⟨fun heq => hij ?_, aq, mem_of_getElem? hj, rfl, hpos⟩
        rw [← h.place hi, ← heq, h.place hj]
  · rw [hmaddr, h.bare (hmulti ▸ hm)]
    rfl

/-- The counts after one has been put. -/
theorem ref_put {r : Nat} (hi : i < nif.maddr.length)
    (hmaddr : nif'.maddr = nif.maddr.set i { ap with ref := r }) (j : Nat) :
    nif'.ref j = if j = i then r else nif.ref j := by
  rw [Nif.ref, hmaddr, Tally.getD_set hi, Nif.ref]
  split <;> rfl

/-- A new address. -/
theorem Nif.Good.append (h : nif.Good) (hon : nif.multicast = true)
    (hnew : addr ∉ nif.maddr.map Netaddr.addr) :
    (({ nif with maddr := nif.maddr ++ [⟨addr, 1⟩] } : Nif).tune addr).Good := by
  refine ⟨?_, ?_, fun a => ?_, fun hm => ?_⟩
  · change ((nif.maddr ++ [(⟨addr, 1⟩ : Netaddr)]).map Netaddr.addr).Nodup
    rw [map_append, map_singleton]
    exact h.nodup.append (nodup_singleton addr)
      (disjoint_singleton.mpr hnew)
  · change nif.nmaddr + 1 = _
    rw [h.nmaddr]
    change _ = (((nif.maddr ++ [(⟨addr, 1⟩ : Netaddr)]).countP fun ap => decide (0 < ap.ref) : Nat) : Int)
    rw [countP_append, Nat.cast_add]
    rfl
  · change a ∈ insert addr nif.filter ↔ ∃ ap ∈ nif.maddr ++ [(⟨addr, 1⟩ : Netaddr)], ap.addr = a ∧ 0 < ap.ref
    rw [Finset.mem_insert, h.filter]
    constructor
    · rintro (rfl | ⟨ap, hmem, heq, hpos⟩)
      · exact ⟨_, mem_append_right _ (mem_singleton_self _), rfl, Nat.one_pos⟩
      · exact ⟨ap, mem_append_left _ hmem, heq, hpos⟩
    · rintro ⟨ap, hmem, heq, hpos⟩
      rcases mem_append.mp hmem with hmem | hmem
      · exact .inr ⟨ap, hmem, heq, hpos⟩
      · rw [mem_singleton.mp hmem] at heq
        exact .inl heq.symm
  · exact absurd (hon.symm.trans hm) (by decide)

/-- The count at one place has become `r`. -/
structure Moved (nif : Nif) (i r : Nat) (nif' : Nif) : Prop where
  good : nif'.Good
  ref : ∀ j, nif'.ref j = if j = i then r else nif.ref j
  length : nif'.maddr.length = max nif.maddr.length (i + 1)

theorem ref_of_some (h : nif.maddr[i]? = some ap) : nif.ref i = ap.ref := by
  rw [Nif.ref, getD_eq_getElem?_getD, h, getD_some]

theorem ref_of_le (h : nif.maddr.length ≤ i) : nif.ref i = 0 := by
  rw [Nif.ref, getD_eq_default _ _ h]

/-- The filter has an address of the list when it has a count. -/
theorem mem_filter (h : nif.Good) (hi : nif.maddr[i]? = some ap) :
    ap.addr ∈ nif.filter ↔ 0 < ap.ref := by
  rw [h.filter, wants_iff h hi]

/-- A count that is 0 neither before nor after needs nothing more. -/
theorem Nif.Good.recount (h : nif.Good) {r : Nat} (hi : nif.maddr[i]? = some ap) (hold : 0 < ap.ref)
    (hnew : 0 < r) :
    ({ nif with maddr := nif.maddr.set i { ap with ref := r } } : Nif).Good := by
  refine h.put (r := r) hi rfl rfl ?_ fun a => ?_
  · change nif.nmaddr = _
    rw [decide_eq_true hold, decide_eq_true hnew]
    omega
  · by_cases ha : a = ap.addr
    · rw [ha]
      exact iff_of_true ((mem_filter h hi).mpr hold) (.inr ⟨rfl, hnew⟩)
    · exact ⟨fun hmem => .inl ⟨ha, hmem⟩, fun hor => (hor.resolve_right fun hand => ha hand.1).2⟩

/-- A first asker. -/
theorem Nif.Good.tune (h : nif.Good) (hi : nif.maddr[i]? = some ap) (hold : ap.ref = 0) :
    (({ nif with maddr := nif.maddr.set i { ap with ref := 1 } } : Nif).tune ap.addr).Good := by
  refine h.put (r := 1) hi rfl rfl ?_ fun a => ?_
  · change nif.nmaddr + 1 = _
    rw [hold]
    change nif.nmaddr + 1 = nif.nmaddr - 0 + 1
    rw [Int.sub_zero]
  · change a ∈ insert ap.addr nif.filter ↔ _
    rw [Finset.mem_insert]
    by_cases ha : a = ap.addr
    · exact iff_of_true (.inl ha) (.inr ⟨ha, Nat.one_pos⟩)
    · exact ⟨fun hor => .inl ⟨ha, hor.resolve_left ha⟩,
        fun hor => .inr (hor.resolve_right fun hand => ha hand.1).2⟩

/-- A last asker gone. -/
theorem Nif.Good.untune (h : nif.Good) (hi : nif.maddr[i]? = some ap) (hold : ap.ref = 1) :
    (({ nif with maddr := nif.maddr.set i { ap with ref := 0 } } : Nif).untune ap.addr).Good := by
  refine h.put (r := 0) hi rfl rfl ?_ fun a => ?_
  · change nif.nmaddr - 1 = _
    rw [hold]
    exact (Int.add_zero _).symm
  · change a ∈ nif.filter.erase ap.addr ↔ _
    rw [Finset.mem_erase]
    exact ⟨.inl, fun hor => hor.resolve_right fun hand => absurd hand.2 (Nat.lt_irrefl 0)⟩

/-- **Asking for an address** counts one more in its place and sets the Netfile's bit. -/
theorem netmulti_add (h : nif.Good) (hon : nif.multicast = true) (f : Netfile) (addr : Str) :
    ∃ nif', netmulti nif f addr true = (none, nif', f.mark (nif.place addr)) ∧
      Moved nif (nif.place addr) (nif.ref (nif.place addr) + 1) nif' := by
  have hoff : ¬nif.multicast = false := by rw [hon]; decide
  rw [netmulti, if_neg hoff]
  simp only [if_true]
  cases hi : nif.maddr[nif.place addr]? with
  | none =>
    have hle := List.getElem?_eq_none_iff.mp hi
    have heq : nif.place addr = nif.maddr.length := Nat.le_antisymm (place_le nif addr) hle
    refine ⟨_, rfl, h.append hon (place_none hi), fun j => ?_, ?_⟩
    · rw [ref_of_le hle, heq]
      change ((nif.maddr ++ [(⟨addr, 1⟩ : Netaddr)]).getD j ⟨[], 0⟩).ref = _
      rw [Tally.getD_concat]
      split <;> rfl
    · change (nif.maddr ++ [(⟨addr, 1⟩ : Netaddr)]).length = _
      rw [length_append, length_singleton]
      omega
  | some ap =>
    have hlt : nif.place addr < nif.maddr.length := (List.getElem?_eq_some_iff.mp hi).1
    have haddr := place_some hi
    rw [ref_of_some hi]
    dsimp only
    by_cases hzero : ap.ref = 0
    · rw [if_pos (by rw [hzero]), hzero, ← haddr]
      rw [← haddr] at hi hlt
      exact ⟨_, rfl, h.tune hi hzero, ref_put hlt rfl, by simp [Nif.tune]; omega⟩
    · rw [if_neg (by omega)]
      exact ⟨_, rfl, h.recount hi (Nat.pos_of_ne_zero hzero) (Nat.succ_pos _), ref_put hlt rfl,
        by simp; omega⟩

/-- **Giving an address back** counts one less in its place and clears the bit. -/
theorem netmulti_remove (h : nif.Good) (f : Netfile) (addr : Str) (hpos : 0 < nif.ref (nif.place addr)) :
    ∃ nif', netmulti nif f addr false = (none, nif', f.unmark (nif.place addr)) ∧
      Moved nif (nif.place addr) (nif.ref (nif.place addr) - 1) nif' := by
  have hlt : nif.place addr < nif.maddr.length := Nat.lt_of_not_le fun hle => by
    rw [ref_of_le hle] at hpos
    exact Nat.lt_irrefl 0 hpos
  have hoff : ¬nif.multicast = false := fun hoff => by
    rw [h.bare hoff] at hlt
    exact Nat.not_lt_zero _ hlt
  have hi := List.getElem?_eq_getElem hlt
  generalize nif.maddr[nif.place addr] = ap at hi
  have haddr := place_some hi
  rw [ref_of_some hi] at hpos ⊢
  rw [netmulti, if_neg hoff]
  simp only [Bool.false_eq_true, if_false, hi, Nat.ne_of_gt hpos]
  by_cases hone : ap.ref = 1
  · rw [if_pos (by rw [hone]), hone, ← haddr]
    rw [← haddr] at hi hlt
    exact ⟨_, rfl, h.untune hi hone, ref_put hlt rfl, by simp [Nif.untune]; omega⟩
  · rw [if_neg (by omega)]
    exact ⟨_, rfl, h.recount hi hpos (by omega), ref_put hlt rfl, by simp; omega⟩

/-- An address without a count is not given back. -/
theorem netmulti_none (f : Netfile) (addr : Str) (hzero : nif.ref (nif.place addr) = 0) :
    (netmulti nif f addr false).2 = (nif, f) := by
  rw [netmulti]
  split
  · rfl
  · simp only [Bool.false_eq_true, if_false]
    cases hi : nif.maddr[nif.place addr]? with
    | none => rfl
    | some ap =>
      rw [ref_of_some hi] at hzero
      simp only [hzero, if_true]

/-- What a Netfile keeps: its count, bits within the list, none when it is closed. -/
structure Netfile.Good (n : Nat) (f : Netfile) : Prop where
  nmaddr : f.nmaddr = f.bits.card
  lt : ∀ i, f.has i = true → i < n
  shut : f.inuse = 0 → ∀ i, f.has i = false

/-- The Netfiles that have a bit set, open or not. -/
def Sys.holders (s : Sys) (i : Nat) : Nat := s.f.countP fun o => o.any (·.has i)

structure Inv (s : Sys) : Prop where
  nif : s.nif.Good
  file : ∀ id f, s.file id = some f → f.Good s.nif.maddr.length
  ref : ∀ i, s.nif.ref i = s.holders i

theorem file_lt (h : s.file id = some f) : id < s.f.length :=
  Tally.lt_of_getD_ne fun heq => nomatch heq.symm.trans h

theorem opened_some (h : s.opened id = some f) : s.file id = some f ∧ 0 < f.inuse := by
  obtain ⟨hf, hpos⟩ := filter_eq_some_iff.mp h
  exact ⟨hf, of_decide_eq_true hpos⟩

/-- A Netfile replaced changes the holders by its own bit. -/
theorem holders_set (h : id < s.f.length) (ht : t.f = s.f.set id (some f')) (i : Nat) :
    t.holders i + ((s.file id).any (·.has i)).toNat = s.holders i + (f'.has i).toNat := by
  rw [Sys.holders, ht]
  exact Tally.countP_set (d := none) (fun o : Option Netfile => o.any (·.has i)) h (some f')

theorem Netfile.Good.in_bits {n : Nat} (h : f.Good n) (hn : n ≤ 64) (hi : f.has i = true) : i ∈ f.bits :=
  mem_bits.mpr ⟨Nat.lt_of_lt_of_le (h.lt i hi) hn, hi⟩

/-- Where a Netfile has a bit set there is a count. -/
theorem Inv.pos (h : Inv s) (hf : s.file id = some f) (hi : f.has i = true) : 0 < s.nif.ref i := by
  rw [h.ref]
  have hlt := file_lt hf
  refine countP_pos_iff.mpr ⟨some f, ?_, hi⟩
  rw [Sys.file, Tally.getD_lt hlt] at hf
  exact hf ▸ getElem_mem hlt

/-- **A step keeps the invariant** if it replaces one Netfile and moves the counts by its bits. -/
theorem Inv.replace (h : Inv s) (hid : id < s.f.length) (ht : t.f = s.f.set id (some f'))
    (hnif : t.nif.Good) (hlen : s.nif.maddr.length ≤ t.nif.maddr.length) (hf' : f'.Good t.nif.maddr.length)
    (href : ∀ i, t.nif.ref i + ((s.file id).any (·.has i)).toNat = s.nif.ref i + (f'.has i).toNat) :
    Inv t := by
  refine ⟨hnif, fun j g hg => ?_, fun i => ?_⟩
  · rw [Sys.file, ht, Tally.getD_set hid] at hg
    by_cases hj : j = id
    · rw [if_pos hj] at hg
      cases hg
      exact hf'
    · rw [if_neg hj] at hg
      have hgood := h.file j g hg
      exact ⟨hgood.nmaddr, fun i hi => Nat.lt_of_lt_of_le (hgood.lt i hi) hlen, hgood.shut⟩
  · have hset := holders_set hid ht i
    have hi := href i
    have hs := h.ref i
    omega

theorem add_inv (h : Inv s) (hf : s.opened id = some f) (hreg : f.has (s.nif.place addr) = false)
    (ht : s.multi id addr true = some t) (hlen : t.nif.maddr.length ≤ 64) : Inv t := by
  obtain ⟨hfile, hopen⟩ := opened_some hf
  have hgood := h.file id f hfile
  rw [Sys.multi, hf, map_some] at ht
  by_cases hon : s.nif.multicast = true
  · obtain ⟨nif', hrun, hmoved⟩ := netmulti_add h.nif hon f addr
    rw [hrun] at ht
    cases ht
    change nif'.maddr.length ≤ 64 at hlen
    rw [hmoved.length] at hlen
    have hi : s.nif.place addr < 64 := by omega
    refine h.replace (file_lt hfile) rfl hmoved.good ?_
      ⟨nmaddr_mark hi hgood.nmaddr, fun j hj => ?_, fun hin => ?_⟩ fun j => ?_
    · change _ ≤ nif'.maddr.length
      rw [hmoved.length]
      exact Nat.le_max_left _ _
    · change j < nif'.maddr.length
      rw [hmoved.length]
      rcases (has_mark hi).mp hj with hj | rfl
      · have hlt := hgood.lt j hj
        omega
      · omega
    · rw [mark_inuse] at hin
      omega
    · change nif'.ref j + _ = _
      rw [hmoved.ref, hfile, any_some]
      by_cases hj : j = s.nif.place addr
      · rw [if_pos hj, hj, hreg, (has_mark hi).mpr (.inr rfl)]
        rfl
      · have heq : (f.mark (s.nif.place addr)).has j = f.has j := by
          rw [Bool.eq_iff_iff, has_mark hi]
          exact or_iff_left hj
        rw [if_neg hj, heq]
  · rw [Bool.not_eq_true] at hon
    rw [netmulti, if_pos hon] at ht
    cases ht
    exact h.replace (file_lt hfile) rfl h.nif (Nat.le_refl _) hgood fun i => by rw [hfile, any_some]

/-- A call that gives nothing back. -/
theorem same_inv (h : Inv s) (hf : s.file id = some f) : Inv ⟨s.nif, s.f.set id (some f)⟩ :=
  h.replace (file_lt hf) rfl h.nif (Nat.le_refl _) (h.file id f hf) fun i => by rw [hf, any_some]

/-- A bit given back, by a Netfile that then has `g`. -/
theorem give_inv (h : Inv s) (hf : s.file id = some f) (hlen : s.nif.maddr.length ≤ 64)
    (hhas : f.has i = true) {nif' : Nif} (hmoved : Moved s.nif i (s.nif.ref i - 1) nif') {g : Netfile}
    (hg : ∀ j, g.has j = (f.unmark i).has j) (hn : g.nmaddr = g.bits.card)
    (hshut : g.inuse = 0 → ∀ j, g.has j = false) : Inv ⟨nif', s.f.set id (some g)⟩ := by
  have hgood := h.file id f hf
  have hi : i < 64 := Nat.lt_of_lt_of_le (hgood.lt i hhas) hlen
  have hlen' : nif'.maddr.length = s.nif.maddr.length := by
    rw [hmoved.length]
    exact Nat.max_eq_left (hgood.lt i hhas)
  refine h.replace (file_lt hf) rfl hmoved.good (Nat.le_of_eq hlen'.symm) ⟨hn, fun j hj => ?_, hshut⟩
    fun j => ?_
  · change j < nif'.maddr.length
    rw [hg] at hj
    rw [hlen']
    exact hgood.lt j ((has_unmark hi).mp hj).1
  · change nif'.ref j + _ = _
    rw [hmoved.ref, hf, any_some, hg]
    by_cases hj : j = i
    · have hpos := h.pos hf hhas
      have hoff : (f.unmark i).has j = false := by
        rw [← Bool.not_eq_true, has_unmark hi]
        exact fun hand => hand.2 hj
      rw [if_pos hj, hoff, hj, hhas]
      change s.nif.ref i - 1 + 1 = s.nif.ref i + 0
      omega
    · have heq : (f.unmark i).has j = f.has j := by
        rw [Bool.eq_iff_iff, has_unmark hi]
        exact and_iff_left hj
      rw [if_neg hj, heq]

theorem remove_inv (h : Inv s) (hf : s.opened id = some f)
    (hreg : f.has (s.nif.place addr) = true ∨ ¬s.nif.wants addr)
    (ht : s.multi id addr false = some t) (hlen : s.nif.maddr.length ≤ 64) : Inv t := by
  obtain ⟨hfile, hopen⟩ := opened_some hf
  have hgood := h.file id f hfile
  rw [Sys.multi, hf, map_some] at ht
  rcases Nat.eq_zero_or_pos (s.nif.ref (s.nif.place addr)) with hzero | hpos
  · dsimp only at ht
    rw [netmulti_none f addr hzero] at ht
    cases ht
    exact same_inv h hfile
  · have hhas : f.has (s.nif.place addr) = true := by
      refine hreg.resolve_right fun hno => hno ?_
      have hlt : s.nif.place addr < s.nif.maddr.length := Nat.lt_of_not_le fun hle => by
        rw [ref_of_le hle] at hpos
        exact Nat.lt_irrefl 0 hpos
      have hi := List.getElem?_eq_getElem hlt
      rw [ref_of_some hi] at hpos
      exact ⟨_, getElem_mem hlt, place_some hi, hpos⟩
    obtain ⟨nif', hrun, hmoved⟩ := netmulti_remove h.nif f addr hpos
    rw [hrun] at ht
    cases ht
    have hi : s.nif.place addr < 64 := Nat.lt_of_lt_of_le (hgood.lt _ hhas) hlen
    refine give_inv h hfile hlen hhas hmoved (fun _ => rfl) (nmaddr_unmark hi hgood.nmaddr) fun hin => ?_
    rw [unmark_inuse] at hin
    omega

/-- Without the first bit the loop of `netifclose` does nothing. -/
theorem closeLoop_clear (h : f.has 0 = false) (l : List Netaddr) : closeLoop nif f l = (nif, f) := by
  induction l with
  | nil => rfl
  | cons ap l ih => rw [closeLoop, h, if_neg Bool.false_ne_true, ih]

theorem close_inv (h : Inv s) (hf : s.opened id = some f) (hreg : f.inuse = 1 → ∀ i ∈ f.bits, i = 0)
    (hlen : s.nif.maddr.length ≤ 64) :
    Inv ⟨(netifclose s.nif f).1, s.f.set id (some (netifclose s.nif f).2)⟩ := by
  obtain ⟨hfile, hopen⟩ := opened_some hf
  have hgood := h.file id f hfile
  have hfirst : f.inuse - 1 = 0 → ∀ i, f.has i = true → i = 0 := fun hin i hi =>
    hreg (by omega) i (hgood.in_bits hlen hi)
  let f₁ : Netfile := { f with inuse := f.inuse - 1 }
  rw [netifclose]
  by_cases hlast : f₁.inuse = 0 ∧ f₁.nmaddr ≠ 0
  · rw [if_pos hlast]
    obtain ⟨i, hi⟩ : f.bits.Nonempty := Finset.card_pos.mp (by
      have hne : f.nmaddr ≠ 0 := hlast.2
      have hcard := hgood.nmaddr
      omega)
    have hhas : f.has 0 = true := by
      have hi' := (mem_bits.mp hi).2
      rwa [hfirst hlast.1 i hi'] at hi'
    have hlt := hgood.lt 0 hhas
    cases hl : s.nif.maddr with
    | nil =>
      rw [hl] at hlt
      exact absurd hlt (Nat.lt_irrefl 0)
    | cons ap l =>
      have hplace : s.nif.place ap.addr = 0 := h.nif.place (by rw [hl]; rfl)
      have hpos := h.pos hfile hhas
      obtain ⟨nif', hrun, hmoved⟩ := netmulti_remove h.nif f₁ ap.addr (hplace.symm ▸ hpos)
      rw [hplace] at hrun hmoved
      have hoff : ∀ j, (f₁.unmark 0).has j = false := fun j => by
        rw [← Bool.not_eq_true, has_unmark (by decide)]
        exact fun hand => hand.2 (hfirst hlast.1 j hand.1)
      have hloop : closeLoop s.nif f₁ (ap :: l) = (nif', f₁.unmark 0) := by
        have hhas₁ : f₁.has 0 = true := hhas
        rw [closeLoop, if_pos hhas₁, hrun]
        exact closeLoop_clear (hoff 0) l
      dsimp only
      rw [hloop]
      refine give_inv h hfile hlen hhas hmoved (fun j => ?_) ?_ fun _ => hoff
      · rw [Bool.eq_iff_iff, has_unmark (i := 0) (by decide)]
        exact has_unmark (f := f₁) (i := 0) (by decide)
      · have hempty : (f₁.unmark 0).bits = ∅ := Finset.eq_empty_of_forall_notMem fun j hj => by
          have hj' := (mem_bits.mp hj).2
          rw [hoff j] at hj'
          exact Bool.false_ne_true hj'
        exact (congrArg (fun b : Finset Nat => (b.card : Int)) hempty).symm
  · rw [if_neg hlast]
    refine h.replace (file_lt hfile) rfl h.nif (Nat.le_refl _) ⟨hgood.nmaddr, hgood.lt, fun hin i => ?_⟩
      fun i => by rw [hfile]; rfl
    rw [← Bool.not_eq_true]
    intro hi
    refine hlast ⟨hin, fun hzero => ?_⟩
    have hcard : 0 < f.bits.card := Finset.card_pos.mpr ⟨i, hgood.in_bits hlen hi⟩
    have hn := hgood.nmaddr
    change f.nmaddr = 0 at hzero
    omega

theorem open_inv (h : Inv s) (hid : id < s.f.length) :
    Inv ⟨s.nif, s.f.set id (some { ((s.file id).getD ⟨0, fun _ => 0#8, 0⟩) with
      inuse := ((s.file id).getD ⟨0, fun _ => 0#8, 0⟩).inuse + 1 })⟩ := by
  cases hf : s.file id with
  | none =>
    have hoff : ∀ i, (⟨1, fun _ => 0#8, 0⟩ : Netfile).has i = false := fun i => by
      rw [← Bool.not_eq_true, has_iff, BitTable.Mem, BitVec.getLsbD_zero]
      exact Bool.false_ne_true
    refine h.replace hid rfl h.nif (Nat.le_refl _) ⟨?_, fun i hi => ?_, fun hin => by cases hin⟩ fun i => ?_
    · have hempty : (⟨1, fun _ => 0#8, 0⟩ : Netfile).bits = ∅ :=
        Finset.eq_empty_of_forall_notMem fun j hj => by
        have hj' := (mem_bits.mp hj).2
        rw [hoff j] at hj'
        exact Bool.false_ne_true hj'
      exact (congrArg (fun b : Finset Nat => (b.card : Int)) hempty).symm
    · exact absurd ((hoff i).symm.trans hi) (by decide)
    · rw [hf]
      exact congrArg (fun b : Bool => s.nif.ref i + b.toNat) (hoff i).symm
  | some f =>
    have hgood := h.file id f hf
    exact h.replace hid rfl h.nif (Nat.le_refl _) ⟨hgood.nmaddr, hgood.lt, fun hin => by cases hin⟩
      fun i => by rw [hf]; rfl

/-- The list grows. -/
theorem netmulti_length (nif : Nif) (f : Netfile) (addr : Str) (add : Bool) :
    nif.maddr.length ≤ (netmulti nif f addr add).2.1.maddr.length := by
  rw [netmulti]
  split
  · exact Nat.le_refl _
  · cases add <;> dsimp only <;> cases nif.maddr[nif.place addr]? <;>
      dsimp only [Bool.false_eq_true, if_false, if_true]
    all_goals (split_ifs <;> simp [Nif.tune, Nif.untune])

theorem closeLoop_length (l : List Netaddr) :
    nif.maddr.length ≤ (closeLoop nif f l).1.maddr.length := by
  induction l generalizing nif f with
  | nil => exact Nat.le_refl _
  | cons ap l ih =>
    rw [closeLoop]
    split
    · exact Nat.le_trans (netmulti_length nif f ap.addr false) ih
    · exact ih

theorem act_length {op : Op} (h : act s op = some t) : s.nif.maddr.length ≤ t.nif.maddr.length := by
  cases op with
  | «open» id =>
    obtain ⟨_, h⟩ := ite_none_right_eq_some.mp h
    cases h
    exact Nat.le_refl _
  | addmulti id addr =>
    obtain ⟨f, _, rfl⟩ := map_eq_some_iff.mp h
    exact netmulti_length s.nif f addr true
  | remmulti id addr =>
    obtain ⟨f, _, rfl⟩ := map_eq_some_iff.mp h
    exact netmulti_length s.nif f addr false
  | close id =>
    obtain ⟨f, _, rfl⟩ := map_eq_some_iff.mp h
    dsimp only
    rw [netifclose]
    split
    · exact closeLoop_length _
    · exact Nat.le_refl _

theorem act_inv {op : Op} (h : Inv s) (hreg : Regular s op) (hrun : act s op = some t)
    (hlen : t.nif.maddr.length ≤ 64) : Inv t := by
  have hlen' := Nat.le_trans (act_length hrun) hlen
  cases op with
  | «open» id =>
    obtain ⟨hid, heq⟩ := ite_none_right_eq_some.mp hrun
    cases heq
    exact open_inv h hid
  | addmulti id addr =>
    obtain ⟨f, hf, _⟩ := map_eq_some_iff.mp hrun
    exact add_inv h hf (hreg f (opened_some hf).1) hrun hlen
  | remmulti id addr =>
    obtain ⟨f, hf, _⟩ := map_eq_some_iff.mp hrun
    exact remove_inv h hf (hreg f (opened_some hf).1) hrun hlen'
  | close id =>
    obtain ⟨f, hf, rfl⟩ := map_eq_some_iff.mp hrun
    exact close_inv h hf (hreg f (opened_some hf).1) hlen'

theorem start_inv (h : Start s) : Inv s := by
  have hfile : ∀ id, s.file id = none := fun id => by
    rw [Sys.file, getD_eq_getElem?_getD]
    cases hf : s.f[id]? with
    | none => rfl
    | some o => exact h.f o (mem_of_getElem? hf)
  refine ⟨⟨?_, ?_, fun addr => ?_, fun _ => h.maddr⟩, fun id f hf => ?_, fun i => ?_⟩
  · rw [h.maddr]
    exact nodup_nil
  · rw [h.maddr, h.nmaddr]
    rfl
  · rw [h.filter, Nif.wants, h.maddr]
    simp
  · rw [hfile id] at hf
    cases hf
  · rw [ref_of_le (by rw [h.maddr]; exact Nat.zero_le i), Sys.holders]
    refine (countP_eq_zero.mpr fun o ho => ?_).symm
    rw [h.f o ho]
    exact Bool.false_ne_true

/-- The invariant says what the counts are of. -/
theorem Inv.counts (h : Inv s) : Counts s := by
  refine ⟨fun i ap hi => ?_, fun id f hf => (h.file id f hf).nmaddr, h.nif.nmaddr, h.nif.filter⟩
  rw [← ref_of_some hi, h.ref, Sys.holders, Sys.askers]
  refine countP_congr fun o ho => ?_
  cases o with
  | none => rfl
  | some f =>
    obtain ⟨id, hid⟩ := mem_iff_getElem?.mp ho
    have hf : s.file id = some f := by rw [Sys.file, getD_eq_getElem?_getD, hid]; rfl
    simp only [any_some, Bool.and_eq_true, decide_eq_true_eq]
    refine ⟨fun hi => ⟨Nat.pos_of_ne_zero fun hzero => ?_, hi⟩, And.right⟩
    rw [(h.file id f hf).shut hzero i] at hi
    cases hi

/-- **The counts are right in a run** in which Netfiles ask and give back once, and have asked for
no address but the first when they close. -/
theorem counts_ok (hr : ReachRegular s) (hlen : s.nif.maddr.length ≤ 64) : Counts s := by
  refine Inv.counts (StepSystem.Reach.invariant (fun s => s.nif.maddr.length ≤ 64 → Inv s)
    (fun s hs _ => start_inv hs) (fun s op t hs hstep hlen => ?_) hr hlen)
  exact act_inv (hs (Nat.le_trans (act_length hstep.2) hlen)) hstep.1 hstep.2 hlen

/-- An interface of two Netfiles. -/
def idle : Sys := ⟨⟨true, [], 0, ∅⟩, [none, none]⟩

theorem idle_start : Start idle := ⟨by decide, rfl, rfl, rfl⟩

instance : Decidable (nif.wants addr) :=
  inferInstanceAs (Decidable (∃ ap ∈ nif.maddr, ap.addr = addr ∧ 0 < ap.ref))

instance (s : Sys) : (op : Op) → Decidable (Regular s op)
  | .open _ => isTrue trivial
  | .addmulti id addr => inferInstanceAs (Decidable (∀ f ∈ s.file id, f.has (s.nif.place addr) = false))
  | .remmulti id addr => inferInstanceAs (Decidable (∀ f ∈ s.file id,
      f.has (s.nif.place addr) = true ∨ ¬s.nif.wants addr))
  | .close id => inferInstanceAs (Decidable (∀ f ∈ s.file id, f.inuse = 1 → ∀ i ∈ f.bits, i = 0))

/-- Both Netfiles ask for the first address and one for another, which it gives back and closes. -/
theorem counts_ok_shared : ∃ s, s.nif.maddr.length = 2 ∧ s.nif.ref 0 = 1 ∧ s.nif.ref 1 = 0 ∧ Counts s := by
  have hrun : (StepSystem.exec (fun s op => if Regular s op then act s op else none) idle
      [.open 0, .open 1, .addmulti 0 [1], .addmulti 1 [1], .addmulti 1 [2], .remmulti 0 [3], .remmulti 1 [2],
        .close 1]).any (fun s => s.nif.maddr.length == 2 && s.nif.ref 0 == 1 && s.nif.ref 1 == 0) = true := by
    decide +kernel
  obtain ⟨s, hr, htest⟩ := StepSystem.Reach.exists_of_exec
    (StepSystem.Reach.start idle_start : ReachRegular idle)
    (fun s op t _ h => Option.ite_none_right_eq_some.mp h) hrun
  simp only [Bool.and_eq_true, beq_iff_eq] at htest
  exact ⟨s, htest.1.1, htest.1.2, htest.2, counts_ok hr (by omega)⟩

/-- A Netfile that closes with two addresses gives back the first alone. -/
theorem close_leaks : ∃ s, Reach s ∧ s.nif.maddr.length ≤ 64 ∧ ¬Counts s := by
  have hrun : (StepSystem.exec act idle [.open 0, .addmulti 0 [1], .addmulti 0 [2], .close 0]).any
      (fun s => s.nif.maddr.length == 2 && s.nif.ref 1 == 1 && s.askers 1 == 0) = true := by
    decide +kernel
  obtain ⟨s, hr, htest⟩ := StepSystem.Reach.exists_of_exec (StepSystem.Reach.start idle_start : Reach idle)
    (fun s op t _ h => h) hrun
  simp only [Bool.and_eq_true, beq_iff_eq] at htest
  refine ⟨s, hr, by omega, fun h => ?_⟩
  have hi := List.getElem?_eq_getElem (l := s.nif.maddr) (i := 1) (by omega)
  have href := h.ref 1 _ hi
  rw [← ref_of_some hi] at href
  omega

end NetMulti
