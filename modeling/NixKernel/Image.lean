import NixKernel.ChainTable
import NixKernel.DoubleList
import NixKernel.StepSystem

/-!
# The image cache: `port/image.c`

An Image stands for the text of a file while segments or cached pages refer to it.  `attachimage`
finds it in the hash table by the qid of the file, or takes one that is not used from the end of
the LRU list; `putimage` drops a reference, and takes the Image out of the table with the last one.

A step is what is done under a lock, or a change of a reference count.  `imagealloc` and the Images
are locked by the processes whose program counters say so.  The pages that `imagereclaim` drops for
a process that waits are dropped by another process here, with the same effect.  An Image is given
by its index, and so are segments, pages and processes.  Channels have no counts, the statistics are
left out, and the Image of `cache.c`, which has no text, is not one of these.
-/

namespace Image

open LinkList Function

abbrev Addr := Nat

def IHASHSIZE : Nat := 67

/-- "sys->nimage = 200;" -/
def nimage : Nat := 200

structure Qid where
  path : UInt64
  vers : UInt32
  type : UInt8
deriving Repr, DecidableEq

def eqqid (a b : Qid) : Bool := a.path == b.path && a.vers == b.vers

/-- "mkqid(&i->qid, ~0, ~0, QTFILE);" -/
def noqid : Qid := ⟨0xffffffffffffffff, 0xffffffff, 0⟩

/-- What there is of a channel: `dc` is `c->dev->dc`. -/
structure Chan where
  qid : Qid
  mqid : Qid
  mchan : Option Nat
  dc : Nat
deriving Repr, DecidableEq

/-- An Image, without its links. -/
structure Img where
  ref : Nat
  c : Option Chan
  qid : Qid
  mqid : Qid
  mchan : Option Nat
  dc : Nat
  s : Option Nat
  color : Int
deriving Repr, DecidableEq

/-- A segment with an Image. -/
structure Segment where
  ref : Nat
  image : Addr
  color : Int
deriving Repr, DecidableEq

/-- Where a process is. -/
inductive Pc
  | idle
  /-- `attachimage`: the table is locked and the chain searched up to `f`. -/
  | search (c : Chan) (color : Int) (f : Option Addr)
  /-- No Image is free. -/
  | wait (c : Chan) (color : Int)
  /-- The table is locked again. -/
  | retry (c : Chan) (color : Int)
  /-- "found:", and the table is unlocked; the Image is locked. -/
  | found (i : Addr) (color : Int)
  /-- `putimage`, with a reference. -/
  | put (i : Addr)
  /-- It was the last. -/
  | zero (i : Addr)
  /-- The qid is gone, and the chain to search is known. -/
  | marked (i : Addr) (b : Nat)
deriving Repr, DecidableEq

structure Sys where
  image : Addr → Img
  next : Addr → Option Addr
  prev : Addr → Option Addr
  mru : Option Addr
  lru : Option Addr
  hash : Addr → Option Addr
  table : Nat → Option Addr
  seg : List Segment
  /-- `p->image` -/
  page : List (Option Addr)
  pc : List Pc

def Sys.at (s : Sys) (p : Nat) : Pc := s.pc.getD p .idle

def Sys.goto (s : Sys) (p : Nat) (pc : Pc) : Sys := { s with pc := s.pc.set p pc }

def Sys.set (s : Sys) (i : Addr) (f : Img → Img) : Sys := { s with image := update s.image i (f (s.image i)) }

def ihash (path : UInt64) : Nat := path.toNat % IHASHSIZE

/-- Whether `imagealloc` is locked there. -/
def Pc.table : Pc → Bool
  | search .. => true
  | retry .. => true
  | _ => false

/-- The Image that is locked there. -/
def Pc.locks : Pc → Option Addr
  | found i _ => some i
  | _ => none

/-- The Image that `putimage` has dropped the last reference of. -/
def Pc.drops : Pc → Option Addr
  | zero i => some i
  | marked i _ => some i
  | _ => none

/-- The one that it has taken the qid of. -/
def Pc.marks : Pc → Option Addr
  | marked i _ => some i
  | _ => none

/-- The one that it has a reference of. -/
def Pc.puts : Pc → Option Addr
  | put i => some i
  | _ => none

def Sys.tablefree (s : Sys) : Bool := s.pc.all fun pc => !pc.table
def Sys.imagefree (s : Sys) (i : Addr) : Bool := s.pc.all fun pc => pc.locks != some i
def Sys.dropped (s : Sys) (i : Addr) : Bool := s.pc.any fun pc => pc.drops == some i
def Sys.given (s : Sys) (i : Addr) : Bool := s.pc.any fun pc => pc.marks == some i

def imageunused (s : Sys) (i : Addr) : Sys :=
  let (mru, next) := store (s.prev i) (s.next i) s.mru s.next
  let (lru, prev) := store (s.next i) (s.prev i) s.lru s.prev
  { s with mru, lru, next := update next i none, prev := update prev i none }

/-- `imageused`; without another Image "i->next->prev" faults. -/
def imageused (s : Sys) (i : Addr) : Option Sys :=
  let s := imageunused s i
  s.mru.map fun m =>
    { s with
      next := update s.next i (some m)
      prev := update s.prev m (some i)
      mru := some i
      lru := if s.lru = none then some i else s.lru }

def lruimage (s : Sys) : Option Addr :=
  (search s.prev (fun i => (s.image i).c.isNone) (nimage + 1) none s.lru).bind Prod.snd

/-- The state that `initimage` leaves, with some pages and processes. -/
def initimage (npage nproc : Nat) : Sys where
  image _ := ⟨0, none, ⟨0, 0, 0⟩, ⟨0, 0, 0⟩, none, 0, none, 0⟩
  next i := if i + 1 < nimage then some (i + 1) else none
  prev i := if i = 0 then none else some (i - 1)
  mru := some 0
  lru := some (nimage - 1)
  hash _ := none
  table _ := none
  seg := []
  page := List.replicate npage none
  pc := List.replicate nproc .idle

/-- "lock(&imagealloc);", and the head of the chain. -/
def attachimage (s : Sys) (p : Nat) (c : Chan) (color : Int) : Option Sys :=
  if s.at p = .idle ∧ p < s.pc.length ∧ s.tablefree then
    some (s.goto p (.search c color (s.table (ihash c.qid.path))))
  else none

/-- What is compared under the lock of the Image. -/
def Img.stands (i : Img) (c : Chan) : Bool :=
  eqqid c.qid i.qid && eqqid c.mqid i.mqid && c.mchan == i.mchan && c.dc == i.dc

/-- One Image of the chain. -/
def visit (s : Sys) (p : Nat) : Option Sys :=
  match s.at p with
  | .search c color (some i) =>
    if c.qid.path ≠ (s.image i).qid.path then some (s.goto p (.search c color (s.hash i)))
    else if s.imagefree i = false then none
    else if (s.image i).stands c then (imageused s i).map fun s => s.goto p (.found i color)
    else some (s.goto p (.search c color (s.hash i)))
  | _ => none

/-- The Image, which was free, stands for the file now. -/
def Img.become (i : Img) (c : Chan) (color : Int) : Img :=
  { i with c := some c, dc := c.dc, qid := c.qid, mqid := c.mqid, mchan := c.mchan, color }

/-- "l = &ihash(c->qid.path); i->hash = *l; *l = i;" -/
def chain (s : Sys) (i : Addr) (b : Nat) : Sys :=
  { s with hash := update s.hash i (s.table b), table := update s.table b (some i) }

/-- The file is not in the table: an Image is taken, or there is none. -/
def takeimage (s : Sys) (p : Nat) (c : Chan) (color : Int) : Option Sys :=
  match lruimage s with
  | none => some (s.goto p (.wait c color))
  | some i =>
    if s.imagefree i = false then none
    else
      (imageused (chain (s.set i fun img => img.become c color) i (ihash c.qid.path)) i).map fun s =>
        s.goto p (.found i color)

def choose (s : Sys) (p : Nat) : Option Sys :=
  match s.at p with
  | .search c color none => takeimage s p c color
  | .retry c color => takeimage s p c color
  | _ => none

/-- "lock(&imagealloc);" behind "sched();" -/
def relock (s : Sys) (p : Nat) : Option Sys :=
  match s.at p with
  | .wait c color => if s.tablefree then some (s.goto p (.retry c color)) else none
  | _ => none

/-- The segment, until the caller unlocks the Image; without `ok` there is an error in `newseg`. -/
def textseg (s : Sys) (p : Nat) (ok : Bool) : Option Sys :=
  match s.at p with
  | .found i color =>
    match (s.image i).s with
    | none =>
      if ok then
        let s := s.set i fun img => { img with s := some s.seg.length, ref := img.ref + 1 }
        let s := { s with seg := s.seg ++ [Segment.mk 1 i color] }
        some (s.goto p .idle)
      else some (s.goto p .idle)
    | some k =>
      (s.seg[k]?).map fun g =>
        let s := { s with seg := s.seg.set k { g with ref := g.ref + 1 } }
        s.goto p .idle
  | _ => none

/-- "decref(i)"; without a reference it is a panic. -/
def decref (s : Sys) (p : Nat) : Option Sys :=
  match s.at p with
  | .put i =>
    if (s.image i).ref = 0 then none
    else
      let s := s.set i fun img => { img with ref := img.ref - 1 }
      some (s.goto p (if (s.image i).ref = 0 then .zero i else .idle))
  | _ => none

/-- "lock(i);" to "unlock(i);" -/
def mark (s : Sys) (p : Nat) : Option Sys :=
  match s.at p with
  | .zero i =>
    if s.imagefree i = false then none
    else
      let b := ihash (s.image i).qid.path
      some ((s.set i fun img => { img with qid := noqid }).goto p (.marked i b))
  | _ => none

/-- "lock(&imagealloc);" to "unlock(&imagealloc);" -/
def unchain (s : Sys) (p : Nat) : Option Sys :=
  match s.at p with
  | .marked i b =>
    if s.tablefree = false then none
    else
      (ChainTable.unlink (nimage + 1) i (s.table b) s.hash).map fun r =>
        let s := { s with table := update s.table b r.1, hash := r.2 }
        (s.set i fun img => { img with c := none }).goto p .idle
  | _ => none

/-- `putseg`, up to `putimage`. -/
def putseg (s : Sys) (p k : Nat) : Option Sys :=
  match s.seg[k]? with
  | none => none
  | some g =>
    if s.at p ≠ .idle ∨ s.pc.length ≤ p ∨ g.ref = 0 ∨ s.imagefree g.image = false then none
    else
      let n := g.ref - 1
      let s := { s with seg := s.seg.set k { g with ref := n } }
      let s := if (s.image g.image).s = some k ∧ n = 0 then s.set g.image fun img => { img with s := none } else s
      some (if n = 0 then s.goto p (.put g.image) else s)

/-- Another segment with the Image of one that there is: `dupseg`, `txt2data` and `data2txt`, and the
data segment in `sysexec`. -/
def dupimage (s : Sys) (k : Nat) : Option Sys :=
  match s.seg[k]? with
  | none => none
  | some g =>
    if g.ref = 0 then none
    else
      let s := s.set g.image fun img => { img with ref := img.ref + 1 }
      some { s with seg := s.seg ++ [Segment.mk 1 g.image g.color] }

/-- "incref(s);" -/
def sameseg (s : Sys) (k : Nat) : Option Sys :=
  match s.seg[k]? with
  | none => none
  | some g => if g.ref = 0 then none else some { s with seg := s.seg.set k { g with ref := g.ref + 1 } }

/-- `cachepage`, for a segment that the caller has; a page that is cached is a panic. -/
def cachepage (s : Sys) (pg k : Nat) : Option Sys :=
  match s.seg[k]? with
  | none => none
  | some g =>
    if g.ref = 0 ∨ s.page[pg]? ≠ some none then none
    else
      let s := s.set g.image fun img => { img with ref := img.ref + 1 }
      some { s with page := s.page.set pg (some g.image) }

/-- `uncachepage`, up to `putimage`. -/
def uncachepage (s : Sys) (p pg : Nat) : Option Sys :=
  match s.page[pg]? with
  | some (some i) =>
    if s.at p = .idle ∧ p < s.pc.length then
      let s := { s with page := s.page.set pg none }
      some (s.goto p (.put i))
    else none
  | _ => none

inductive Op
  | attachimage (p : Nat) (c : Chan) (color : Int)
  | visit (p : Nat)
  | choose (p : Nat)
  | relock (p : Nat)
  | textseg (p : Nat) (ok : Bool)
  | decref (p : Nat)
  | mark (p : Nat)
  | unchain (p : Nat)
  | putseg (p k : Nat)
  | dupimage (k : Nat)
  | sameseg (k : Nat)
  | cachepage (pg k : Nat)
  | uncachepage (p pg : Nat)
deriving Repr, DecidableEq

/-- One step; nothing when it is not possible. -/
def act (s : Sys) : Op → Option Sys
  | .attachimage p c color => attachimage s p c color
  | .visit p => visit s p
  | .choose p => choose s p
  | .relock p => relock s p
  | .textseg p ok => textseg s p ok
  | .decref p => decref s p
  | .mark p => mark s p
  | .unchain p => unchain s p
  | .putseg p k => putseg s p k
  | .dupimage k => dupimage s k
  | .sameseg k => sameseg s k
  | .cachepage pg k => cachepage s pg k
  | .uncachepage p pg => uncachepage s p pg

def Init (s : Sys) : Prop := ∃ npage nproc, s = initimage npage nproc

/-- Every step that is possible. -/
def Step (s : Sys) (op : Op) (t : Sys) : Prop := act s op = some t

/-- An Image is on the chain `b` of the table. -/
def Sys.Chained (s : Sys) (b : Nat) (i : Addr) : Prop := ∃ l, Path s.hash (s.table b) l none ∧ i ∈ l

/-- Two Images of the same file. -/
def Img.same (i k : Img) : Prop :=
  eqqid i.qid k.qid = true ∧ eqqid i.mqid k.mqid = true ∧ i.mchan = k.mchan ∧ i.dc = k.dc

/-- What the cache promises.  An Image that `putimage` has taken the qid of stands for no file. -/
structure Sound (s : Sys) : Prop where
  used : ∀ i, 0 < (s.image i).ref → (s.image i).c ≠ none ∧ s.Chained (ihash (s.image i).qid.path) i
  distinct : ∀ i k a b, s.Chained a i → s.Chained b k → s.given i = false → s.given k = false →
    (s.image i).same (s.image k) → i = k
  choice : ∀ i, lruimage s = some i → (s.image i).ref = 0 ∧ (∀ b, ¬s.Chained b i) ∧ s.imagefree i = true ∧
    s.dropped i = false
  lru : ∃ l, Dll s.next s.prev s.mru s.lru l ∧ l.Perm (List.range nimage)

/-- The steps that keep it.  A lookup does not match an Image without its qid.  A found Image gets a
segment only while no process has dropped its last reference.  And who has waited for an Image takes
it only when the file has not been attached meanwhile. -/
def Proper (s : Sys) : Op → Prop
  | .visit p => ∀ c color i, s.at p = .search c color (some i) → (s.image i).stands c = true → s.given i = false
  | .textseg p ok => ∀ i color, s.at p = .found i color → (s.image i).s = none → ok = true → s.dropped i = false
  | .choose p => ∀ c color i, s.at p = .retry c color → lruimage s = some i →
      ∀ b k, s.Chained b k → s.given k = false → (s.image k).stands c = false
  | _ => True

end Image
