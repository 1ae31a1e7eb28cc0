import NixKernel.StepSystem

/-!
# The mount cache: `port/cache.c`

A `Mntcache` keeps pieces of a file in extents, sorted by `start`.  The bytes of an extent are in a
page of the image `fscache`, under the number `bid` that the page got when it was cached; a page
that has been taken for something else is noticed by its `daddr`, and its extent is dropped when
it is next read.  `cread` copies what extents have of a piece, `cupdate` fills a gap with what has
been read from the server, and `cwrite` puts what has been written over what is there.

Pages are numbered; which ones `auxpage` gives is part of each call.  A page that has been taken by
`auxpage`, `newpage` or `pagereclaim` is out of the hash chain; `freepages` of the pager leaves it there.  Offsets are below
`maxcache`, and lengths are those of an `int`, so that the sums of the code are those of numbers.
The locks are left out, and so are errors in copying to and from a process.
-/

namespace Mntcache

open Function (update)

abbrev Addr := Nat

def MAXCACHE : Nat := 1024 * 1024
def maxcache : Nat := MAXCACHE
def BIGPGSHIFT : Nat := 21
def BIGPGSZ : Nat := 2 ^ BIGPGSHIFT

structure Extent where
  bid : Nat
  start : Nat
  len : Nat
  cache : Addr
deriving Repr, DecidableEq

structure Qid where
  path : Nat
  vers : UInt32
  type : Nat
deriving Repr, DecidableEq

/-- What `cache.c` looks at of a page. -/
structure Page where
  daddr : Nat
  data : Nat → UInt8

/-- A Chan, its `Mntcache`, and the file on the server.  `fscache` are the pages of that image, in
the order of their hash chains; `pgno` is `cache.pgno`, an `int` as 32 bits. -/
structure Sys where
  qid : Qid
  devno : Nat
  dev : Nat
  mcqid : Qid
  mcdevno : Nat
  mcdev : Nat
  list : List Extent
  page : Addr → Page
  fscache : List Addr
  pgno : Nat
  file : Nat → UInt8

/-- `memmove` to `data + o`. -/
def memmove (data : Nat → UInt8) (o : Nat) (buf : List UInt8) (i : Nat) : UInt8 :=
  if o ≤ i then buf.getD (i - o) (data i) else data i

/-- The `n` bytes from `o`. -/
def bytes (data : Nat → UInt8) (o n : Nat) : List UInt8 := (List.range n).map fun i => data (o + i)

/-- `lookpage` in `fscache`. -/
def Sys.lookpage (s : Sys) (daddr : Nat) : Option Addr :=
  s.fscache.find? fun p => (s.page p).daddr = daddr

def Sys.cpage (s : Sys) (e : Extent) : Option Addr :=
  if (s.page e.cache).daddr ≠ e.bid then none else s.lookpage e.bid

/-- `uncachepage`; the `daddr` is then `~0`. -/
def Sys.uncachepage (s : Sys) (p : Addr) : Sys :=
  if p ∈ s.fscache then
    { s with
      fscache := s.fscache.filter (· ≠ p)
      page := update s.page p { s.page p with daddr := 2 ^ 32 - 1 } }
  else s

/-- The number after `pgno`. -/
def nextpgno (pgno : Nat) : Nat :=
  let pgno := (pgno + BIGPGSZ) % 2 ^ 32
  -- "wrap the counter; low bits are unused by pghash but checked by lookpage"
  if pgno / BIGPGSZ = 0 then
    if pgno = BIGPGSZ - 1 then 0 else pgno + 1
  else pgno

/-- `auxpage` has given the page `p`: what `cchain` does with it. -/
def Sys.cachepage (s : Sys) (p : Addr) (buf : List UInt8) : Sys :=
  let s := s.uncachepage p
  { s with
    page := update s.page p ⟨s.pgno, memmove (s.page p).data 0 buf⟩
    fscache := p :: s.fscache
    pgno := nextpgno s.pgno }

/-- `cchain`.  The pages are those that `auxpage` gives before there is no page, or no extent; what
has not been taken of them is returned. -/
def Sys.cchain (s : Sys) : List Addr → List UInt8 → Nat → List Extent × Sys × List Addr
  | pages, [], _ => ([], s, pages)
  | [], _, _ => ([], s, [])
  | p :: pages, b :: buf, offset =>
    let l := min (b :: buf).length BIGPGSZ
    let (chain, t, rest) :=
      (s.cachepage p ((b :: buf).take l)).cchain pages ((b :: buf).drop l) (offset + l)
    (⟨s.pgno, offset, l, p⟩ :: chain, t, rest)

def Sys.cpgmove (s : Sys) (e : Extent) (buf : List UInt8) (boff : Nat) : Option Sys :=
  (s.cpage e).map fun p =>
    { s with page := update s.page p { s.page p with data := memmove (s.page p).data boff buf } }

def Sys.cdev (s : Sys) : Prop :=
  s.mcqid.path = s.qid.path ∧ s.mcqid.type = s.qid.type ∧ s.mcdevno = s.devno ∧ s.mcdev = s.dev ∧
    s.mcqid.vers = s.qid.vers

instance (s : Sys) : Decidable s.cdev := by unfold Sys.cdev; infer_instance

/-- The loop of `cread`, from the extent that has `offset`: the bytes, and the extents that are
left. -/
def Sys.creadloop (s : Sys) : List Extent → Nat → Nat → List UInt8 × List Extent
  | [], _, _ => ([], [])
  | e :: l, offset, len =>
    if len = 0 then ([], e :: l)
    else
      match s.cpage e with
      | none => ([], l)
      | some p =>
        let o := offset - e.start
        let n := min len (e.len - o)
        let buf := bytes (s.page p).data o n
        match l with
        | [] => (buf, [e])
        | f :: l =>
          if f.start ≠ offset + n then (buf, e :: f :: l)
          else
            let (more, left) := s.creadloop (f :: l) (offset + n) (len - n)
            (buf ++ more, e :: left)

def Sys.cread (s : Sys) (off len : Nat) : List UInt8 × Sys :=
  if off + len > maxcache then ([], s)
  else if ¬ s.cdev then ([], s)
  else
    let (before, l) := s.list.span fun e => ¬ (off ≥ e.start ∧ off < e.start + e.len)
    let (buf, left) := s.creadloop l off len
    (buf, { s with list := before ++ left })

/-- The extents of `cchain` go between two pieces of the list. -/
def Sys.link (s : Sys) (before after : List Extent) (buf : List UInt8) (offset : Nat)
    (pages : List Addr) : Sys × List Addr :=
  let (chain, t, rest) := s.cchain pages buf offset
  ({ t with list := before ++ chain ++ after }, rest)

/-- "trim if there is a successor" -/
def trim (buf : List UInt8) (offset : Nat) : List Extent → List UInt8
  | [] => buf
  | f :: _ => if offset + buf.length > f.start then buf.take (f.start - offset) else buf

def Sys.cupdate (s : Sys) (buf : List UInt8) (off : Nat) (pages : List Addr) : Sys × List Addr :=
  if off > maxcache ∨ buf = [] then (s, pages)
  else if ¬ s.cdev then (s, pages)
  else
    let (before, after) := s.list.span fun f => ¬ f.start > off
    let buf := trim buf off after
    match before.getLast? with
    | none => s.link [] after buf off pages
    | some p =>
      -- trim to the predecessor
      let ee := p.start + p.len
      let o := ee - off
      if off < ee ∧ buf.length ≤ o then (s, pages)
      else
        let buf := buf.drop o
        let offset := off + o
        if offset = ee ∧ p.len < BIGPGSZ then
          let o := min buf.length (BIGPGSZ - p.len)
          match s.cpgmove p (buf.take o) p.len with
          | some t =>
            t.link (before.dropLast ++ [{ p with len := p.len + o }]) after (buf.drop o)
              (offset + o) pages
          | none => s.link before after buf offset pages
        else s.link before after buf offset pages

/-- The overlap is freed, and what has not been packed is linked in. -/
def Sys.replace (s : Sys) (before after : List Extent) (buf : List UInt8) (offset : Nat)
    (pages : List Addr) : Sys × List Addr :=
  s.link before (after.dropWhile fun f => f.start < offset + buf.length) buf offset pages

/-- `cwrite` behind its checks. -/
def Sys.overwrite (s : Sys) (buf : List UInt8) (off : Nat) (pages : List Addr) : Sys × List Addr :=
  let (before, after) := s.list.span fun f => ¬ f.start ≥ off
  match before.getLast? with
  | none => s.replace [] after buf off pages
  | some p =>
    let ee := p.start + p.len
    let eo := off - p.start
    if off ≤ ee ∧ eo < BIGPGSZ then
      let o := min buf.length (BIGPGSZ - eo)
      match s.cpgmove p (buf.take o) eo with
      | some t =>
        t.replace (before.dropLast ++ [{ p with len := max p.len (eo + o) }]) after (buf.drop o)
          (off + o) pages
      | none => s.replace before after buf off pages
    else s.replace before after buf off pages

def Sys.cwrite (s : Sys) (buf : List UInt8) (off : Nat) (pages : List Addr) : Sys × List Addr :=
  if off > maxcache ∨ buf = [] then (s, pages)
  else if ¬ s.cdev then (s, pages)
  else
    Sys.overwrite { s with
      mcqid := { s.mcqid with vers := s.mcqid.vers + 1 }
      qid := { s.qid with vers := s.qid.vers + 1 } } buf off pages

inductive Op
  /-- `cread`. -/
  | read (off len : Nat)
  /-- `cupdate` with what the server has there. -/
  | update (off len : Nat) (pages : List Addr)
  /-- The server writes; `cwrite` follows. -/
  | write (off : Nat) (buf : List UInt8) (pages : List Addr)
  /-- A cached page is taken. -/
  | evict (p : Addr)
  /-- A page that is not cached here is used for something else. -/
  | use (p : Addr) (page : Page)
  /-- `freepages` gives a cached page back, with `pgfree` only, and it is used for something else. -/
  | release (p : Addr) (page : Page)

/-- The pages of a step are those that it takes. -/
def taken (r : Sys × List Addr) : Option Sys := if r.2 = [] then some r.1 else none

def act (s : Sys) : Op → Option Sys
  | .read off len => some (s.cread off len).2
  | .update off len pages =>
    if len < 2 ^ 31 then taken (s.cupdate (bytes s.file off len) off pages) else none
  | .write off buf pages =>
    if buf.length < 2 ^ 31 then
      taken (Sys.cwrite { s with file := memmove s.file off buf } buf off pages)
    else none
  | .evict p => if p ∈ s.fscache then some (s.uncachepage p) else none
  | .use p page => if p ∈ s.fscache then none else some { s with page := update s.page p page }
  | .release p page => if p ∈ s.fscache then some { s with page := update s.page p page } else none

/-- The Chan has just been opened, and nothing of its file is cached. -/
structure Start (s : Sys) : Prop where
  cdev : s.cdev
  list : s.list = []
  pgno : s.pgno < 2 ^ 32

/-- The pages that a step takes. -/
def Op.pages : Op → List Addr
  | .update _ _ pages => pages
  | .write _ _ pages => pages
  | _ => []

/-- A number that neither a page of `fscache` nor an extent has. -/
def Sys.Unused (s : Sys) (pgno : Nat) : Prop :=
  (∀ p ∈ s.fscache, (s.page p).daddr ≠ pgno) ∧ ∀ e ∈ s.list, e.bid ≠ pgno

/-- Whether the pager releases a page. -/
def Op.releases : Op → Bool
  | .release _ _ => true
  | _ => false

/-- The numbers that come next are not in use, one for each page that the step takes, and no cached page is
released. -/
def Clear (s : Sys) (op : Op) : Prop :=
  op.releases = false ∧ ∀ k < op.pages.length, s.Unused (nextpgno^[k] s.pgno)

/-- What the cache promises: the bytes that `cread` returns are those of the file, the list is
sorted, and extents that have their pages do not overlap. -/
structure Coherent (s : Sys) : Prop where
  cread : ∀ off len, (s.cread off len).1 = bytes s.file off (s.cread off len).1.length
  sorted : s.list.Pairwise fun a b => a.start < b.start
  apart : s.list.Pairwise fun a b => (s.cpage a).isSome → (s.cpage b).isSome →
    a.start + a.len ≤ b.start

end Mntcache
