import NixKernel.CString

/-!
# Reading the files of the console device

`consread` gets the offset as a `vlong`, keeps it as a `long` and hands it on as `ulong`, `long` or `int`.  The copying
itself is `memmove(buf, src+pos, n)`; which bytes that takes is what the model says.  What the files that are printed
on each read consist of (`time`, `sysstat`, `swap`, `debug`, `drivers`) is given as text.
-/

namespace ConsRead

open CString

/-- What is stored into a `long` or an `int`. -/
def toLong (x : Int) : Int := (x + 2147483648) % 4294967296 - 2147483648

/-- What is stored into a `ulong`. -/
def toUlong (x : Int) : Int := x % 4294967296

def numsize : Nat := 12

/-- A string whose length fits into a `long`. -/
structure Text where
  str : Str
  short : str.length < 2147483648

/-- `"2000"`. -/
def osversion : Text := ⟨⟨[0x32, 0x30, 0x30, 0x30], by decide⟩, by decide⟩

/-- The log of what was printed. -/
structure Kmesg where
  buf : List UInt8
  size : buf.length = 16384
  n : Nat
  le : n ≤ 16384

/-- What the files show.  `tmp` is what the arrays on the stack hold at entry, those of `readnum` and `consread`. -/
structure Cons where
  pgrpid : UInt32
  pid : UInt32
  parentpid : UInt32
  machno : UInt32
  ticks : UInt32
  time : List UInt32
  times : time.length = 6
  eve : Text
  hostdomain : Text
  user : Text
  sysname : Option Text
  timestr : Text
  sysstat : Text
  swap : Text
  debug : Text
  drivers : Text
  kmesg : Kmesg
  tmp : List UInt8 × List UInt8
  tmpsize : tmp.1.length = 64 ∧ tmp.2.length = 512

inductive File
  | qcputime
  | qkmesg
  | qpgrpid
  | qpid
  | qppid
  | qtime
  | qhostowner
  | qhostdomain
  | quser
  | qmach
  | qsysstat
  | qswap
  | qsysname
  | qosversion
  | qdebug
  | qdrivers
  deriving DecidableEq, Repr

/-- `memmove(buf, src+pos, n)`. -/
structure Move where
  src : List UInt8
  pos : Int
  n : Int
  deriving DecidableEq, Repr

/-- Write bytes into an array. -/
def fill (mem : List UInt8) (p : Nat) (bytes : List UInt8) : List UInt8 :=
  mem.take p ++ bytes ++ mem.drop (p + bytes.length)

/-- What `"%*lud"` prints. -/
def lud (width : Nat) (val : UInt32) : List UInt8 :=
  List.leftpad width 0x20 ((Nat.toDigits 10 val.toNat).map Char.toUInt8)

/-- `readnum` into the array `tmp`; `off` and `n` are `ulong`. -/
def readnum (tmp : List UInt8) (off n : Int) (val : UInt32) (size : Nat) : Option Move :=
  let tmp := fill (fill tmp 0 (lud (size - 1) val ++ [0])) (size - 1) [0x20]
  if size ≤ off then none
  else some ⟨tmp, off, if size < toUlong (off + n) then size - off else n⟩

/-- `readstr`; `offset` and `n` are `long`. -/
def readstr (offset n : Int) (str : Text) : Option Move :=
  if str.str.length ≤ offset then none
  else some ⟨str.str.bytes ++ [0], offset, if str.str.length < toLong (offset + n) then str.str.length - offset else n⟩

/-- The bytes that are copied. -/
def Move.bytes (m : Move) : List UInt8 := (m.src.drop m.pos.toNat).take m.n.toNat

/-- Format the times from the `i`th on into `tmp`, as far as they begin before `lim`.  `num` is the array of
`readnum`. -/
def formatTimes (num : List UInt8) (lim : Int) : Nat → List UInt32 → List UInt8 → List UInt8
  | _, [], tmp => tmp
  | i, l :: time, tmp =>
    if numsize * i < lim then
      formatTimes num lim (i + 1) time (fill tmp (numsize * i) ((readnum num 0 numsize l numsize).elim [] Move.bytes))
    else tmp

/-- `up->time` in milliseconds; `TReal` is the third, and counts from the start of the process. -/
def Cons.ms (s : Cons) : List UInt32 := s.time.mapIdx fun i l => if i = 2 then s.ticks - l else l

def Cons.cputime (s : Cons) (k n : Int) : Option Move :=
  if 6 * numsize ≤ k then none
  else
    let n := if 6 * numsize < toLong (k + n) then 6 * numsize - k else n
    some ⟨formatTimes s.tmp.1 (toLong (k + n)) 0 s.ms s.tmp.2, k, n⟩

def Cons.readkmesg (s : Cons) (off n : Int) : Option Move :=
  if s.kmesg.n ≤ off then none
  else some ⟨s.kmesg.buf, off, if s.kmesg.n < off + n then s.kmesg.n - off else n⟩

/-- `consread` for a count above 0. -/
def consread (s : Cons) (q : File) (n off : Int) : Option Move :=
  let offset := toLong off
  match q with
  | .qcputime => s.cputime offset n
  | .qkmesg => s.readkmesg off n
  | .qpgrpid => readnum s.tmp.1 (toUlong offset) n s.pgrpid numsize
  | .qpid => readnum s.tmp.1 (toUlong offset) n s.pid numsize
  | .qppid => readnum s.tmp.1 (toUlong offset) n s.parentpid numsize
  | .qtime => readstr (toLong (toUlong offset)) n s.timestr
  | .qhostowner => readstr offset n s.eve
  | .qhostdomain => readstr offset n s.hostdomain
  | .quser => readstr offset n s.user
  | .qmach => readnum s.tmp.1 (toUlong offset) n s.machno numsize
  | .qsysstat => readstr offset n s.sysstat
  | .qswap => readstr offset n s.swap
  | .qsysname => s.sysname.bind fun str => readstr offset n str
  | .qosversion => readstr offset n osversion
  | .qdebug => readstr offset n s.debug
  | .qdrivers => readstr (toLong off) n s.drivers

/-- A number in a file. -/
def number (val : UInt32) : List UInt8 := lud (numsize - 1) val ++ [0x20]

def contents (s : Cons) : File → List UInt8
  | .qcputime => s.ms.flatMap number
  | .qkmesg => s.kmesg.buf.take s.kmesg.n
  | .qpgrpid => number s.pgrpid
  | .qpid => number s.pid
  | .qppid => number s.parentpid
  | .qtime => s.timestr.str.bytes
  | .qhostowner => s.eve.str.bytes
  | .qhostdomain => s.hostdomain.str.bytes
  | .quser => s.user.str.bytes
  | .qmach => number s.machno
  | .qsysstat => s.sysstat.str.bytes
  | .qswap => s.swap.str.bytes
  | .qsysname => s.sysname.elim [] fun str => str.str.bytes
  | .qosversion => osversion.str.bytes
  | .qdebug => s.debug.str.bytes
  | .qdrivers => s.drivers.str.bytes

/-- The bytes of `[off, off+n)` that a file has. -/
def cut (file : List UInt8) (off n : Int) : List UInt8 := (file.take (off + n).toNat).drop off.toNat

/-- What is copied lies in the source buffer. -/
def Move.Inside (m : Move) : Prop := 0 ≤ m.pos ∧ 0 ≤ m.n ∧ m.pos + m.n ≤ m.src.length

/-- **A bounded read.** -/
def Bounded (m : Option Move) (file : List UInt8) (off n : Int) : Prop :=
  (∀ a, m = some a → a.Inside) ∧ m.elim [] Move.bytes = cut file off n

/-- A number file, whose offset becomes a `ulong`. -/
def NumOk (off n : Int) : Prop :=
  (0 ≤ off ∧ off < numsize) ∨ (numsize ≤ toUlong off ∧ (numsize ≤ off ∨ off + n ≤ 0))

/-- A file of `size` bytes whose offset becomes a `long`. -/
def StrOk (size : Nat) (off n : Int) : Prop :=
  0 ≤ toLong off ∧ (toLong off < size → off = toLong off ∧ off + n < 2147483648)

/-- **The condition**, for each file. -/
def Ok (s : Cons) (off n : Int) : File → Prop
  | .qpgrpid | .qpid | .qppid | .qmach => NumOk off n
  | .qkmesg => 0 ≤ off
  | .qsysname => ∀ str ∈ s.sysname, StrOk str.str.length off n
  | q => StrOk (contents s q).length off n

end ConsRead
