import NixKernel.ExecHeader

/-!
# SCSI commands for disks that have none: `sdfakescsi` and `sdfakescsirw`

`sdfakescsi` answers what it can and passes the reads and writes on.  Of these `sdfakescsirw` takes the
address and the count of blocks, which stand in the command with the first byte first, in four formats.
An address of more than 48 bits is refused: no ATA command has room for it.

A byte that is shifted is an `uint`, the count an `int`, and the number of bytes is compared in 32 bits.
-/

namespace SdScsi

open Exec

def sdok : Int := 0
def sdcheck : Int := 0x02
def sdnostatus : Int := -1

def sdnosense : UInt32 := 0x00000001
def sdvalidsense : UInt32 := 0x00010000

inductive Rw
  | sdread
  | sdwrite
  deriving DecidableEq, Repr

/-- The fields of a unit that a command looks at. -/
structure SDunit where
  inquiry : Nat → UInt8
  sense : Nat → UInt8
  sectors : UInt64
  secsize : UInt32

def sizeofInquiry : UInt64 := 255
def sizeofSense : UInt64 := 18

/-- A request.  `data` is nil or the bytes that it points to; `dlen` is not negative. -/
structure SDreq where
  unit : SDunit
  cmd : Vector UInt8 32
  data : Option (Nat → UInt8)
  dlen : UInt32
  flags : UInt32
  status : Int
  rlen : UInt64
  sense : Nat → UInt8
  dlen_lt : dlen.toNat < 2 ^ 31

/-- `memmove(f, g, n)`. -/
def memmove (f g : Nat → UInt8) (n : Nat) : Nat → UInt8 := fun i => if i < n then g i else f i

/-- Bytes stored from the start of `f`. -/
def store (f : Nat → UInt8) (l : List UInt8) : Nat → UInt8 := fun i => l.getD i (f i)

def SDreq.setSense (r : SDreq) (l : List (Nat × UInt8)) : SDreq :=
  { r with unit := { r.unit with sense := l.foldl (fun s p => Function.update s p.1 p.2) r.unit.sense } }

def sdsetsense (r : SDreq) (status : Int) (key asc ascq : UInt8) : Int × SDreq :=
  let r := r.setSense [(0, 0x80 ||| 0x70), (2, key), (12, asc), (13, ascq)]
  let r := { r with status }
  if status = sdcheck ∧ r.flags &&& sdnosense = 0 then
    let r := { r with sense := memmove r.sense r.unit.sense 18 }
    let r := r.setSense [(2, 0), (12, 0), (13, 0)]
    (sdok, { r with flags := r.flags ||| sdvalidsense })
  else (status, r)

/-- What request sense and inquiry do: as much of `f` as is asked for, if there is room. -/
def SDreq.reply (r : SDreq) (f : Nat → UInt8) (size : UInt64) : SDreq :=
  let len : UInt64 := if r.cmd[4].toUInt64 < size then r.cmd[4].toUInt64 else size
  match r.data with
  | none => r
  | some data =>
    if r.dlen.toUInt64 ≥ len then { r with data := some (memmove data f len.toNat), rlen := len } else r

/-- The bytes of a number, `n` of them. -/
def bytes (x : UInt64) (n : Nat) : List UInt8 :=
  (List.range n).map fun i => (x >>> (8 * (n - 1 - i)).toUInt64).toUInt8

/-- What read capacity and its long form do, with `n` bytes for the last sector. -/
def SDreq.capacity (r : SDreq) (last : UInt64) (n : Nat) : Int × SDreq :=
  if r.cmd[1] &&& 0x01 ≠ 0 ∨ r.cmd[2] ≠ 0 ∨ r.cmd[3] ≠ 0 then sdsetsense r sdcheck 0x05 0x24 0
  else
    match r.data with
    | none => sdsetsense r sdcheck 0x05 0x20 1
    | some data =>
      if r.dlen < 8 then sdsetsense r sdcheck 0x05 0x20 1
      else
        let reply := bytes last n ++ bytes r.unit.secsize.toUInt64 4
        sdsetsense { r with data := some (store data reply), rlen := reply.length.toUInt64 } sdok 0 0 0

/-- `sdfakescsi`. -/
def sdfakescsi (r : SDreq) : Int × SDreq :=
  let r := { r with rlen := 0 }
  let sectors := r.unit.sectors
  if r.cmd[1] >>> (5 : UInt8) ≠ 0 ∧ r.cmd[0] ≠ 0x12 then sdsetsense r sdcheck 0x05 0x25 0
  else
    match (r.cmd[0] : UInt8) with
    | 0x00 => sdsetsense r sdok 0 0 0 -- test unit ready
    | 0x03 => sdsetsense (r.reply r.unit.sense sizeofSense) sdok 0 0 0 -- request sense
    | 0x12 => sdsetsense (r.reply r.unit.inquiry sizeofInquiry) sdok 0 0 0 -- inquiry
    | 0x1b => sdsetsense r sdok 0 0 0 -- start/stop unit
    | 0x25 =>
      r.capacity
        (if sectors ≥ 0xffffffff then 0xffffffff else if sectors > 0 then sectors - 1 else sectors) 4
    | 0x9e => r.capacity (if sectors > 0 then sectors - 1 else sectors) 8
    | 0x08 | 0x0a | 0x28 | 0x2a | 0xa8 | 0xaa | 0x88 | 0x8a => (sdnostatus, r)
    | _ => sdsetsense r sdcheck 0x05 0x20 0

/-- `*llba`, `*nsec` and `*rwp`. -/
structure Yield where
  lba : UInt64
  count : Int32
  rw : Rw
  deriving DecidableEq

/-- The address and the count in the command.  A command of 16 bytes whose address has more than 48 bits
is refused with sense, any other command that is not one of the eight is bad. -/
inductive Decoded
  | block (lba : UInt64) (count : Int32)
  | refused
  | bad

def decode (cmd : Vector UInt8 32) : Decoded :=
  match (cmd[0] : UInt8) with
  | 0x08 | 0x0a => .block (be 0 (cmd[1] &&& 0xf) cmd[2] cmd[3]).toUInt64 cmd[4].toUInt32.toInt32
  | 0x28 | 0x2a => .block (be cmd[2] cmd[3] cmd[4] cmd[5]).toUInt64 (be 0 0 cmd[7] cmd[8]).toInt32
  | 0xa8 | 0xaa =>
    .block (be cmd[2] cmd[3] cmd[4] cmd[5]).toUInt64 (be cmd[6] cmd[7] cmd[8] cmd[9]).toInt32
  | 0x88 | 0x8a =>
    -- ata commands only go to 48-bit lba
    if cmd[2] ≠ 0 ∨ cmd[3] ≠ 0 then .refused
    else .block
      (cmd[4].toUInt64 <<< 40 ||| cmd[5].toUInt64 <<< 32 ||| (be cmd[6] cmd[7] cmd[8] cmd[9]).toUInt64)
      (be cmd[10] cmd[11] cmd[12] cmd[13]).toInt32
  | _ => .bad

/-- `sdfakescsirw`: the status, the request, and what it yields. -/
def sdfakescsirw (r : SDreq) : Int × SDreq × Option Yield :=
  let rw := if r.cmd[0] &&& 0xf = 0xa then Rw.sdwrite else .sdread
  match decode r.cmd with
  | .refused =>
    let s := sdsetsense r sdcheck 3 0xc 2
    (s.1, s.2, none)
  | .bad =>
    let s := sdsetsense r sdcheck 0x05 0x20 0
    (sdcheck, { s.2 with status := s.1 }, none)
  | .block lba count =>
    if r.data.isNone then (sdok, r, none)
    else
      let count :=
        if r.dlen < count.toUInt32 * r.unit.secsize then (r.dlen / r.unit.secsize).toInt32 else count
      (sdnostatus, r, some ⟨lba, count, rw⟩)

/-- The commands that are passed on, by their length. -/
inductive Format
  | six
  | ten
  | twelve
  | sixteen
  deriving DecidableEq, Repr

def format (op : UInt8) : Option Format :=
  if op = 0x08 ∨ op = 0x0a then some .six
  else if op = 0x28 ∨ op = 0x2a then some .ten
  else if op = 0xa8 ∨ op = 0xaa then some .twelve
  else if op = 0x88 ∨ op = 0x8a then some .sixteen
  else none

/-- Where the address stands, the number of the unit in its place being 0. -/
def Format.address (cmd : Vector UInt8 32) : Format → List UInt8
  | .six => [cmd[1], cmd[2], cmd[3]]
  | .ten | .twelve => [cmd[2], cmd[3], cmd[4], cmd[5]]
  | .sixteen => [cmd[2], cmd[3], cmd[4], cmd[5], cmd[6], cmd[7], cmd[8], cmd[9]]

/-- Where the count of blocks stands. -/
def Format.count (cmd : Vector UInt8 32) : Format → List UInt8
  | .six => [cmd[4]]
  | .ten => [cmd[7], cmd[8]]
  | .twelve => [cmd[6], cmd[7], cmd[8], cmd[9]]
  | .sixteen => [cmd[10], cmd[11], cmd[12], cmd[13]]

/-- The address has more than 48 bits. -/
def Format.Long (cmd : Vector UInt8 32) (f : Format) : Prop := f = .sixteen ∧ (cmd[2] ≠ 0 ∨ cmd[3] ≠ 0)

/-- A short address has 20 bits.  The number of bytes is more than the data also in its low 32 bits, or it
has no more bits than these and the count is no negative `int`. -/
structure Plain (r : SDreq) (f : Format) : Prop where
  short : f = .six → r.cmd[1].toNat < 16
  size : r.dlen.toNat < bigendian (f.count r.cmd) * r.unit.secsize.toNat % 2 ^ 32 ∨
    bigendian (f.count r.cmd) < 2 ^ 31 ∧ bigendian (f.count r.cmd) * r.unit.secsize.toNat < 2 ^ 32

theorem sdsetsense_status (r : SDreq) (status : Int) (key asc ascq : UInt8) (h : status ≠ sdnostatus) :
    (sdsetsense r status key asc ascq).1 ≠ sdnostatus := by
  rw [sdsetsense]
  dsimp only
  split
  · exact (by decide : sdok ≠ sdnostatus)
  · exact h

theorem capacity_status (r : SDreq) (last : UInt64) (n : Nat) : (r.capacity last n).1 ≠ sdnostatus := by
  rw [SDreq.capacity]
  split
  · exact sdsetsense_status _ _ _ _ _ (by decide)
  · split
    · exact sdsetsense_status _ _ _ _ _ (by decide)
    · split <;> exact sdsetsense_status _ _ _ _ _ (by decide)

/-- The number of the unit. -/
theorem lun_iff (x : UInt8) : x >>> (5 : UInt8) ≠ 0 ↔ ¬x.toNat < 32 := by
  have hshift : (x >>> (5 : UInt8)).toNat = x.toNat / 32 := by
    rw [UInt8.toNat_shiftRight]
    change x.toNat >>> 5 = _
    rw [Nat.shiftRight_eq_div_pow]
  have hzero : x >>> (5 : UInt8) = 0 ↔ x.toNat / 32 = 0 := by
    rw [← hshift, ← UInt8.toNat_inj]
    exact Iff.rfl
  rw [ne_eq, hzero]
  omega

/-- **What is passed on**: the reads and writes for unit 0. -/
theorem passed_iff (r : SDreq) :
    (sdfakescsi r).1 = sdnostatus ↔ r.cmd[1].toNat < 32 ∧ (format r.cmd[0]).isSome := by
  have hsense : ∀ {r : SDreq} {status : Int} {key asc ascq : UInt8}, status ≠ sdnostatus →
      ((sdsetsense r status key asc ascq).1 = sdnostatus ↔ False) := fun h =>
    iff_false_intro (sdsetsense_status _ _ _ _ _ h)
  have hok : sdok ≠ sdnostatus := by decide
  have hcheck : sdcheck ≠ sdnostatus := by decide
  rw [sdfakescsi]
  dsimp only
  by_cases hlun : r.cmd[1].toNat < 32
  · rw [if_neg fun h => (lun_iff _).mp h.1 hlun]
    generalize r.cmd[0] = op
    split
    all_goals first
      | exact iff_of_true rfl ⟨hlun, rfl⟩
      | rw [hsense hcheck]
      | exact iff_of_false (capacity_status _ _ _) fun h => absurd h.2 (by decide)
      | rw [hsense hok]; exact iff_of_false id fun h => absurd h.2 (by decide)
    -- none of the commands that are known
    refine iff_of_false id fun h => ?_
    have hformat := h.2
    simp_all [format]
  · refine iff_of_false (fun h => ?_) fun h => hlun h.1
    by_cases hop : r.cmd[0] = 0x12
    · rw [if_neg fun h => h.2 hop, hop] at h
      exact sdsetsense_status _ _ _ _ _ hok h
    · rw [if_pos ⟨(lun_iff _).mpr hlun, hop⟩] at h
      exact sdsetsense_status _ _ _ _ _ hcheck h

variable {r : SDreq} {f : Format} {cmd : Vector UInt8 32}

/-- The four bytes of a word. -/
theorem bigendian_be (a b c d : UInt8) : (be a b c d).toNat = bigendian [a, b, c, d] := by
  rw [toNat_be]
  simp only [bigendian, List.foldl_cons, List.foldl_nil]
  omega

/-- A byte 0 in front changes nothing. -/
theorem bigendian_zero (l : List UInt8) : bigendian (0 :: l) = bigendian l := rfl

theorem toInt_toInt32 {x : UInt32} (h : x.toNat < 2 ^ 31) : x.toInt32.toInt = x.toNat := by
  have hlow : (x.toNat : Int) = x.toInt32.toInt % 2 ^ 32 := toNat_toUInt32 x.toInt32
  have hbounds := toInt_bounds x.toInt32
  omega

/-- The count is reduced to what there is room for. -/
theorem count_spec {x dlen secsize : UInt32}
    (hsize : dlen.toNat < x.toNat * secsize.toNat % 2 ^ 32 ∨
      x.toNat < 2 ^ 31 ∧ x.toNat * secsize.toNat < 2 ^ 32) (hdlen : dlen.toNat < 2 ^ 31) :
    let c := if dlen < x.toInt32.toUInt32 * secsize then (dlen / secsize).toInt32 else x.toInt32
    c.toInt = (if x.toNat * secsize.toNat ≤ dlen.toNat then x.toNat else dlen.toNat / secsize.toNat : Nat) ∧
      0 ≤ c.toInt ∧ c.toInt * secsize.toNat ≤ dlen.toNat := by
  have hlt : dlen < x.toInt32.toUInt32 * secsize ↔ dlen.toNat < x.toNat * secsize.toNat % 2 ^ 32 := by
    rw [UInt32.lt_iff_toNat_lt, UInt32.toNat_mul]
    exact Iff.rfl
  intro c
  by_cases hroom : dlen.toNat < x.toNat * secsize.toNat % 2 ^ 32
  · have hc : c = (dlen / secsize).toInt32 := if_pos (hlt.mpr hroom)
    have hdiv : c.toInt = (dlen.toNat / secsize.toNat : Nat) := by
      have hle : dlen.toNat / secsize.toNat ≤ dlen.toNat := Nat.div_le_self _ _
      rw [hc, toInt_toInt32 (by rw [UInt32.toNat_div]; omega), UInt32.toNat_div]
    have hmul := Nat.div_mul_le_self dlen.toNat secsize.toNat
    have hmod := Nat.mod_le (x.toNat * secsize.toNat) (2 ^ 32)
    rw [hdiv, if_neg (by omega)]
    exact ⟨rfl, Int.natCast_nonneg _, by exact_mod_cast hmul⟩
  · obtain ⟨hcount, hbytes⟩ := hsize.resolve_left hroom
    have hc : c = x.toInt32 := if_neg fun h => hroom (hlt.mp h)
    have hfits : x.toNat * secsize.toNat ≤ dlen.toNat := by
      rw [Nat.mod_eq_of_lt hbytes] at hroom
      exact Nat.le_of_not_lt hroom
    rw [hc, toInt_toInt32 hcount, if_pos hfits]
    exact ⟨rfl, Int.natCast_nonneg _, by exact_mod_cast hfits⟩

/-- The six bytes of an address of 48 bits. -/
theorem toNat_long {a b : UInt8} {w : UInt64} (hw : w.toNat < 2 ^ 32) :
    (a.toUInt64 <<< 40 ||| b.toUInt64 <<< 32 ||| w).toNat =
      a.toNat * 2 ^ 40 + b.toNat * 2 ^ 32 + w.toNat := by
  have ha := a.toNat_lt
  have hb := b.toNat_lt
  have h40 : (a.toUInt64 <<< 40).toNat = a.toNat <<< 40 := by
    rw [UInt64.toNat_shiftLeft, UInt8.toNat_toUInt64]
    change a.toNat <<< 40 % 2 ^ 64 = _
    exact Nat.mod_eq_of_lt (by rw [Nat.shiftLeft_eq]; omega)
  have h32 : (b.toUInt64 <<< 32).toNat = b.toNat <<< 32 := by
    rw [UInt64.toNat_shiftLeft, UInt8.toNat_toUInt64]
    change b.toNat <<< 32 % 2 ^ 64 = _
    exact Nat.mod_eq_of_lt (by rw [Nat.shiftLeft_eq]; omega)
  have hbw : b.toNat <<< 32 + w.toNat = b.toNat <<< 32 ||| w.toNat := Nat.shiftLeft_add_eq_or_of_lt hw _
  have hlow : b.toNat <<< 32 + w.toNat < 2 ^ 40 := by
    rw [Nat.shiftLeft_eq]
    omega
  have habw := Nat.shiftLeft_add_eq_or_of_lt hlow a.toNat
  rw [UInt64.toNat_or, UInt64.toNat_or, h40, h32, Nat.or_assoc, ← hbw, ← habw]
  simp only [Nat.shiftLeft_eq]
  omega

/-- **What is decoded**: the address and the count that stand in the command. -/
theorem decode_block (hf : format r.cmd[0] = some f) (hlong : ¬f.Long r.cmd)
    (hshort : f = .six → r.cmd[1].toNat < 16) :
    ∃ (lba : UInt64) (count : UInt32), decode r.cmd = .block lba count.toInt32 ∧
      lba.toNat = bigendian (f.address r.cmd) ∧ count.toNat = bigendian (f.count r.cmd) := by
  unfold format at hf
  split_ifs at hf with h6 h10 h12 h16
  · cases hf
    have hdec : decode r.cmd =
        .block (be 0 (r.cmd[1] &&& 0xf) r.cmd[2] r.cmd[3]).toUInt64 r.cmd[4].toUInt32.toInt32 := by
      rcases h6 with h | h <;> simp only [decode, h]
    have hnibble : r.cmd[1] &&& (0xf : UInt8) = r.cmd[1] := by
      rw [← UInt8.toNat_inj, UInt8.toNat_and]
      change r.cmd[1].toNat &&& 2 ^ 4 - 1 = _
      rw [Nat.and_two_pow_sub_one_eq_mod]
      exact Nat.mod_eq_of_lt (hshort rfl)
    refine ⟨_, _, hdec, ?_, ?_⟩
    · rw [hnibble, UInt32.toNat_toUInt64, bigendian_be]
      exact bigendian_zero _
    · rw [UInt8.toNat_toUInt32]
      exact (Nat.zero_add _).symm
  · cases hf
    have hdec : decode r.cmd =
        .block (be r.cmd[2] r.cmd[3] r.cmd[4] r.cmd[5]).toUInt64 (be 0 0 r.cmd[7] r.cmd[8]).toInt32 := by
      rcases h10 with h | h <;> simp only [decode, h]
    refine ⟨_, _, hdec, ?_, ?_⟩
    · rw [UInt32.toNat_toUInt64]
      exact bigendian_be _ _ _ _
    · rw [bigendian_be, bigendian_zero, bigendian_zero]
      rfl
  · cases hf
    have hdec : decode r.cmd = .block (be r.cmd[2] r.cmd[3] r.cmd[4] r.cmd[5]).toUInt64
        (be r.cmd[6] r.cmd[7] r.cmd[8] r.cmd[9]).toInt32 := by
      rcases h12 with h | h <;> simp only [decode, h]
    refine ⟨_, _, hdec, ?_, bigendian_be _ _ _ _⟩
    rw [UInt32.toNat_toUInt64]
    exact bigendian_be _ _ _ _
  · cases hf
    have hzero : r.cmd[2] = 0 ∧ r.cmd[3] = 0 := by
      rw [Format.Long, not_and, not_or, not_not, not_not] at hlong
      exact hlong rfl
    have hdec : decode r.cmd = .block
        (r.cmd[4].toUInt64 <<< 40 ||| r.cmd[5].toUInt64 <<< 32 |||
          (be r.cmd[6] r.cmd[7] r.cmd[8] r.cmd[9]).toUInt64)
        (be r.cmd[10] r.cmd[11] r.cmd[12] r.cmd[13]).toInt32 := by
      have hnot : ¬(r.cmd[2] ≠ 0 ∨ r.cmd[3] ≠ 0) := fun h => h.elim (· hzero.1) (· hzero.2)
      rcases h16 with h | h <;> simp only [decode, h, if_neg hnot]
    refine ⟨_, _, hdec, ?_, bigendian_be _ _ _ _⟩
    rw [toNat_long (by rw [UInt32.toNat_toUInt64]; exact UInt32.toNat_lt _), UInt32.toNat_toUInt64, toNat_be]
    change _ = bigendian [r.cmd[2], r.cmd[3], r.cmd[4], r.cmd[5], r.cmd[6], r.cmd[7], r.cmd[8], r.cmd[9]]
    rw [hzero.1, hzero.2, bigendian_zero, bigendian_zero]
    simp only [bigendian, List.foldl_cons, List.foldl_nil]
    omega

/-- What a read or a write is to yield. -/
structure Right (r : SDreq) (f : Format) (y : Yield) : Prop where
  lba : y.lba.toNat = bigendian (f.address r.cmd)
  count : y.count.toInt = (if bigendian (f.count r.cmd) * r.unit.secsize.toNat ≤ r.dlen.toNat
    then bigendian (f.count r.cmd) else r.dlen.toNat / r.unit.secsize.toNat : Nat)
  room : 0 ≤ y.count.toInt ∧ y.count.toInt * r.unit.secsize.toNat ≤ r.dlen.toNat

/-- **The address and the count of every command that is passed on** are those that stand in it, the
count reduced to the data.  An address of more than 48 bits is refused. -/
theorem sdfakescsirw_yields (r : SDreq) (hpass : (sdfakescsi r).1 = sdnostatus) (hdata : r.data.isSome) :
    ∃ f, format r.cmd[0] = some f ∧
      (f.Long r.cmd → sdfakescsirw r =
        ((sdsetsense r sdcheck 3 0xc 2).1, (sdsetsense r sdcheck 3 0xc 2).2, none)) ∧
      (¬f.Long r.cmd → Plain r f → ∃ y, sdfakescsirw r = (sdnostatus, r, some y) ∧ Right r f y) := by
  obtain ⟨-, hsome⟩ := (passed_iff r).mp hpass
  obtain ⟨f, hf⟩ := Option.isSome_iff_exists.mp hsome
  refine ⟨f, hf, fun hlong => ?_, fun hlong hplain => ?_⟩
  · obtain ⟨rfl, hbytes⟩ := hlong
    have hdec : decode r.cmd = .refused := by
      have hop : r.cmd[0] = 0x88 ∨ r.cmd[0] = 0x8a := by
        by_contra hno
        unfold format at hf
        rw [if_neg hno] at hf
        split_ifs at hf <;> cases hf
      rcases hop with h | h <;> simp only [decode, h, if_pos hbytes]
    rw [sdfakescsirw, hdec]
  · obtain ⟨lba, count, hdec, hlba, hcount⟩ := decode_block hf hlong hplain.short
    have hsize := hplain.size
    rw [← hcount] at hsize
    obtain ⟨hval, hpos, hroom⟩ := count_spec hsize r.dlen_lt
    rw [hcount] at hval
    have hnone : r.data.isNone = false := by rw [Option.isNone_eq_false_iff]; exact hdata
    rw [sdfakescsirw, hdec]
    dsimp only
    rw [hnone, if_neg Bool.false_ne_true]
    exact ⟨_, rfl, hlba, hval, hpos, hroom⟩

/-- A request with this command and 4096 bytes of data, for a disk with sectors of 512. -/
def request (cmd : Vector UInt8 32) : SDreq :=
  ⟨⟨fun _ => 0, fun _ => 0, 2 ^ 40, 512⟩, cmd, some fun _ => 0, 4096, 0, 0, 0, fun _ => 0, by decide⟩

/-- The read of 16 blocks from block 0x81020304. -/
def read10 : Vector UInt8 32 :=
  ⟨#[0x28, 0, 0x81, 2, 3, 4, 0, 0, 16, 0, 0, 0, 0, 0, 0, 0, 0, 0, 0, 0, 0, 0, 0, 0, 0, 0, 0, 0, 0, 0, 0, 0], rfl⟩

theorem read10_yields :
    ∃ y, sdfakescsirw (request read10) = (sdnostatus, request read10, some y) ∧
      Right (request read10) .ten y := by
  obtain ⟨f, hf, -, hyield⟩ :=
    sdfakescsirw_yields (request read10) ((passed_iff _).mpr ⟨by decide, by decide⟩) rfl
  cases hf
  exact hyield (fun h => nomatch h.1) ⟨nofun, .inl (by decide)⟩

/-- The read of one block whose address has 49 bits. -/
def read16 : Vector UInt8 32 :=
  ⟨#[0x88, 0, 0, 1, 0, 0, 0, 0, 0, 0, 0, 0, 0, 1, 0, 0, 0, 0, 0, 0, 0, 0, 0, 0, 0, 0, 0, 0, 0, 0, 0, 0], rfl⟩

/-- **It is passed on and yields nothing.** -/
theorem read16_refused : (sdfakescsi (request read16)).1 = sdnostatus ∧ (request read16).data.isSome ∧
    (sdfakescsirw (request read16)).2.2 = none :=
  ⟨(passed_iff _).mpr ⟨by decide, by decide⟩, rfl, by decide +kernel⟩

end SdScsi
