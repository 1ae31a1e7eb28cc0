import NixKernel.DoubleList
import NixKernel.StepSystem

/-!
# Pages: the free lists and the image hash

The page allocator of `page.c`.  A page whose last reference goes is put on the free list of
its size: at the tail when it caches a piece of an image, so that it may be found again, at the
head when it does not; with many free pages it is given back to `physfree` instead.  The pages
that cache something hang in hash chains by `daddr`, whether they are free or not.

`newpage` takes a page off the free list, or a new one from `physalloc`; when there is neither,
it runs the pager of `pager.c`, which drops pages of texts and gives free pages back.  What
`malloc` and `physalloc` return is given with each call.  The links of the free lists are the
fields of the pages; a hash chain is the list of the pages in it.  `none` is a panic.
-/

namespace Pages

open LinkList
open Function (update)

abbrev Addr := Nat

def Nminfree : Nat := 3
def Nfreepgs : Nat := 512
def NOCOLOR : Int := -1
def PGSHIFT : Nat := 12
def PGHSIZE : Nat := 512
def MiB : Nat := 2 ^ 20

/-- A page, without its links. -/
structure Page where
  ref : Nat
  pgszi : Nat
  color : Int
  daddr : UInt32
  image : Option Nat
deriving Repr, DecidableEq

/-- `Pgsza`. -/
structure Pgsza where
  head : Option Addr
  tail : Option Addr
  freecount : Nat
  npages : Nat
deriving Repr, DecidableEq

/-- `Pgalloc`, and the pages at their addresses.  `live` are the pages that have been got from
`malloc` and not been released. -/
structure Pga where
  live : Addr → Bool
  page : Addr → Page
  next : Addr → Option Addr
  prev : Addr → Option Addr
  pgsza : Nat → Pgsza
  hash : Nat → List Addr

/-- The chain of a `daddr`. -/
def pghash (daddr : UInt32) : Nat := daddr.toNat / 2 ^ PGSHIFT % PGHSIZE

def Pga.set (s : Pga) (p : Addr) (f : Page → Page) : Pga :=
  { s with page := update s.page p (f (s.page p)) }

/-- `getpgszi`: the sizes are given by their logarithms, `m->pgszlg2`. -/
def getpgszi (lg2 : List Nat) (size : Nat) : Option Nat := lg2.findIdx? fun lg => size = 2 ^ lg

def pageunchain (s : Pga) (p : Addr) : Pga :=
  let pa := s.pgsza (s.page p).pgszi
  let (head, next) := store (s.prev p) (s.next p) pa.head s.next
  let (tail, prev) := store (s.next p) (s.prev p) pa.tail s.prev
  { s with
    next := update next p none
    prev := update prev p none
    pgsza := update s.pgsza (s.page p).pgszi ⟨head, tail, pa.freecount - 1, pa.npages⟩ }

def pagechaintail (s : Pga) (p : Addr) : Pga :=
  let pa := s.pgsza (s.page p).pgszi
  let (head, next) := store pa.tail (some p) pa.head s.next
  { s with
    next := update next p none
    prev := update s.prev p pa.tail
    pgsza := update s.pgsza (s.page p).pgszi ⟨head, some p, pa.freecount + 1, pa.npages⟩ }

def pagechainhead (s : Pga) (p : Addr) : Pga :=
  let pa := s.pgsza (s.page p).pgszi
  let (tail, prev) := store pa.head (some p) pa.tail s.prev
  { s with
    next := update s.next p pa.head
    prev := update prev p none
    pgsza := update s.pgsza (s.page p).pgszi ⟨some p, tail, pa.freecount + 1, pa.npages⟩ }

def uncachepage (s : Pga) (p : Addr) : Option Pga :=
  let b := pghash (s.page p).daddr
  if (s.page p).image = none then some s
  else if p ∈ s.hash b then
    some { s.set p fun pg => { pg with image := none, daddr := 0xffffffff } with
      hash := update s.hash b ((s.hash b).erase p) }
  else none

def cachepage (s : Pga) (p : Addr) (i : Nat) : Option Pga :=
  let b := pghash (s.page p).daddr
  if (s.page p).image ≠ none then none
  else
    some { s.set p fun pg => { pg with image := some i } with
      hash := update s.hash b (p :: s.hash b) }

/-- The second half of `lookpage`, when the chain had `f`. -/
def retake (s : Pga) (f : Addr) (i : Nat) (daddr : UInt32) : Pga × Option Addr :=
  if (s.page f).image ≠ some i ∨ (s.page f).daddr ≠ daddr then (s, none)
  else
    let t := s.set f fun pg => { pg with ref := pg.ref + 1 }
    if (t.page f).ref = 1 then (pageunchain t f, some f) else (t, some f)

def lookpage (s : Pga) (i : Nat) (daddr : UInt32) : Pga × Option Addr :=
  match (s.hash (pghash daddr)).find? fun f => (s.page f).image = some i ∧ (s.page f).daddr = daddr with
  | none => (s, none)
  | some f => retake s f i daddr

/-- `pgalloc`, with the page of `malloc` and the colour of `physalloc`, if there is memory. -/
def pgalloc (s : Pga) (si : Nat) : Option (Addr × Int) → Pga × Option Addr
  | none => (s, none)
  | some (p, color) =>
    let pa := s.pgsza si
    ({ s with
        live := update s.live p true
        page := update s.page p ⟨1, si, color, 0, none⟩
        next := update s.next p none
        prev := update s.prev p none
        pgsza := update s.pgsza si { pa with npages := pa.npages + 1 } }, some p)

def pgfree (s : Pga) (p : Addr) : Pga :=
  let pa := s.pgsza (s.page p).pgszi
  { s with
    live := update s.live p false
    pgsza := update s.pgsza (s.page p).pgszi { pa with npages := pa.npages - 1 } }

def putpage (s : Pga) (p : Addr) : Option Pga :=
  if (s.page p).ref = 0 then none
  else
    let t := s.set p fun pg => { pg with ref := pg.ref - 1 }
    if (t.page p).ref > 0 then some t
    else if (t.page p).image ≠ none then some (pagechaintail t p)
    else if (t.pgsza (t.page p).pgszi).freecount > Nfreepgs then some (pgfree t p)
    else some (pagechainhead t p)

/-- `findpg`, from a page of a list of `fuel` pages. -/
def findpg (s : Pga) (color : Int) : Nat → Option Addr → Option Addr
  | 0, _ => none
  | _ + 1, none => none
  | fuel + 1, some p =>
    if color = NOCOLOR ∨ (s.page p).color = color then some p
    else findpg s color fuel (s.next p)

/-- "try to reuse a free one" -/
def reuse (s : Pga) (si : Nat) (color : Int) : Option (Pga × Option Addr) :=
  match findpg s color (s.pgsza si).freecount (s.pgsza si).head with
  | none => some (s, none)
  | some p =>
    let s := pageunchain s p
    if (s.page p).ref ≠ 0 then none
    else
      (uncachepage s p).map fun s =>
        (s.set p fun pg => { pg with ref := pg.ref + 1, daddr := 0xffffffff }, some p)

def auxpage (s : Pga) (si : Nat) : Option (Pga × Option Addr) :=
  if (s.pgsza si).freecount < Nminfree then some (s, none)
  else
    match (s.pgsza si).head with
    | none => none
    | some p =>
      let s := pageunchain s p
      if (s.page p).ref ≠ 0 then none
      else
        (uncachepage (s.set p fun pg => { pg with ref := pg.ref + 1 }) p).map fun s => (s, some p)

/-- The pages of one size in `pagereclaim`, from a page of a list of `fuel` pages; `busy` are
those whose lock is not to be had. -/
def reclaim (busy : List Addr) (lg n sz : Nat) (s : Pga) : Nat → Option Addr → Option (Pga × Nat × Nat)
  | 0, _ => some (s, n, sz)
  | _ + 1, none => some (s, n, sz)
  | fuel + 1, some p =>
    if (s.page p).image ≠ none ∧ (s.page p).ref = 0 ∧ p ∉ busy then
      match uncachepage s p with
      | none => none
      | some s =>
        if sz + 2 ^ lg ≥ 20 * MiB ∧ n + 1 > 5 then some (s, n + 1, sz + 2 ^ lg)
        else reclaim busy lg (n + 1) (sz + 2 ^ lg) s fuel (s.prev p)
    else if sz ≥ 20 * MiB ∧ n > 5 then some (s, n, sz)
    else reclaim busy lg n sz s fuel (s.prev p)

def pagereclaimFrom (busy : List Addr) (si n sz : Nat) (s : Pga) : List Nat → Option (Pga × Nat)
  | [] => some (s, sz)
  | lg :: lg2 =>
    match reclaim busy lg n sz s (s.pgsza si).freecount (s.pgsza si).tail with
    | none => none
    | some (s, n, sz) => pagereclaimFrom busy (si + 1) n sz s lg2

def pagereclaim (lg2 : List Nat) (busy : List Addr) (s : Pga) : Option (Pga × Nat) :=
  pagereclaimFrom busy 0 0 0 s lg2

/-- The body of `freepages` for one size: the head of the list is given back. -/
def freehead (s : Pga) (si : Nat) : Option Pga :=
  match (s.pgsza si).head with
  | none => some s
  | some p =>
    let s := pageunchain s p
    if (s.page p).ref ≠ 0 then none else some (pgfree s p)

/-- `freepages` for the sizes `si`, …, `si + n - 1`. -/
def freepages (once : Bool) (si : Nat) : Nat → Pga → Option Pga
  | 0, s => some s
  | n + 1, s =>
    if (s.pgsza si).freecount > 0 then
      match freehead s si with
      | none => none
      | some s => if once then some s else freepages once (si + 1) n s
    else freepages once (si + 1) n s

/-- `tryalloc`: the page that is had goes to the free list. -/
def tryalloc (s : Pga) (si : Nat) (mem : Option (Addr × Int)) : Option (Pga × Bool) :=
  match pgalloc s si mem with
  | (s, none) => some (s, false)
  | (s, some p) => (putpage s p).map fun s => (s, true)

/-- What `kickpager` meets: the pages of texts that `pageouttext` drops, and memory. -/
structure Kick where
  text : List Addr
  mem₁ : Option (Addr × Int)
  mem₂ : Option (Addr × Int)
  mem₃ : Option (Addr × Int)
deriving Repr, DecidableEq

/-- `kickpager` behind the part about texts. -/
def kickfree (lg2 : List Nat) (si : Nat) (color : Int) (k : Kick) (s : Pga) : Option Pga := do
  let s ← freepages true (si + 1) (lg2.length - (si + 1)) s
  let (s, ok) ← tryalloc s si k.mem₂
  if ok then some s
  else
    let s ← freepages false 0 lg2.length s
    let (s, ok) ← tryalloc s si k.mem₃
    if ok ∨ color ≠ NOCOLOR then some s else none

def kickpager (lg2 : List Nat) (si : Nat) (color : Int) (k : Kick) (s : Pga) : Option Pga := do
  if 2 ^ lg2.getD si 0 ≤ 2 * MiB then
    let s ← k.text.foldlM putpage s
    let (s, ok) ← tryalloc s si k.mem₁
    if ok then some s else kickfree lg2 si color k s
  else kickfree lg2 si color k s

/-- How `newpage` ends: with a page, with nil because the segment was released, or not within
the turns given. -/
inductive Result
  | page (p : Addr)
  | dontalloc
  | again
deriving Repr, DecidableEq

/-- The loop of `newpage` from turn `i` on; `seg` says that there is a segment to release. -/
def newpageFrom (lg2 : List Nat) (si : Nat) (seg : Bool) (i : Nat) (color : Int) (s : Pga) :
    List (Option (Addr × Int) × Kick) → Option (Pga × Result)
  | [] => some (s, .again)
  | (mem, k) :: turns => do
      let color := if i > 3 then NOCOLOR else color
      match ← reuse s si color with
      | (s, some p) => some (s, .page p)
      | (s, none) =>
        match pgalloc s si mem with
        | (s, some p) => some (s.set p fun pg => { pg with daddr := 0xffffffff }, .page p)
        | (s, none) =>
          let s ← kickpager lg2 si color k s
          if seg then some (s, .dontalloc) else newpageFrom lg2 si seg (i + 1) color s turns

/-- `newpage`; a size that there is not is a panic. -/
def newpage (lg2 : List Nat) (s : Pga) (seg : Bool) (size : Nat) (color : Int)
    (turns : List (Option (Addr × Int) × Kick)) : Option (Pga × Result) :=
  match getpgszi lg2 size with
  | none => none
  | some si => newpageFrom lg2 si seg 0 color s turns

/-- What happens under the locks: the calls, and the pieces of `newpage`.  `setdaddr` is what
the callers do before `cachepage`, `chain` what drops a reference and calls `pagechainhead`. -/
inductive Op
  | reuse (si : Nat) (color : Int)
  | pgalloc (si : Nat) (mem : Option (Addr × Int))
  | freehead (si : Nat)
  | putpage (p : Addr)
  | auxpage (si : Nat)
  | lookpage (i : Nat) (daddr : UInt32)
  | retake (f : Addr) (i : Nat) (daddr : UInt32)
  | cachepage (p : Addr) (i : Nat)
  | uncachepage (p : Addr)
  | setdaddr (p : Addr) (daddr : UInt32)
  | chain (p : Addr)
  | pagereclaim (busy : List Addr)
deriving Repr, DecidableEq

def act (lg2 : List Nat) (s : Pga) : Op → Option Pga
  | .reuse si color => (reuse s si color).map Prod.fst
  | .pgalloc si mem => some (pgalloc s si mem).1
  | .freehead si => freehead s si
  | .putpage p => putpage s p
  | .auxpage si => (auxpage s si).map Prod.fst
  | .lookpage i daddr => some (lookpage s i daddr).1
  | .retake f i daddr => some (retake s f i daddr).1
  | .cachepage p i => cachepage s p i
  | .uncachepage p => uncachepage s p
  | .setdaddr p daddr => some (s.set p fun pg => { pg with daddr })
  | .chain p => some (pagechainhead (s.set p fun pg => { pg with ref := 0 }) p)
  | .pagereclaim busy => (pagereclaim lg2 busy s).map Prod.fst

/-- What callers keep to: they name pages that there are, `malloc` returns memory that is not
in use, `daddr` is set while the page caches nothing, and `pagechainhead` gets a page that
has a reference. -/
def Proper (s : Pga) : Op → Prop
  | .pgalloc _ mem => ∀ p color, mem = some (p, color) → s.live p = false
  | .putpage p => s.live p = true
  | .retake f _ _ => s.live f = true
  | .cachepage p _ => s.live p = true
  | .setdaddr p _ => s.live p = true ∧ (s.page p).image = none
  | .chain p => s.live p = true ∧ (s.page p).ref ≠ 0
  | _ => True

/-- The page that `freepages` gives back caches nothing. -/
def Quiet (s : Pga) : Op → Prop
  | .freehead si => ∀ p, (s.pgsza si).head = some p → (s.page p).image = none
  | _ => True

/-- No pages. -/
def Start (s : Pga) : Prop :=
  (∀ p, s.live p = false) ∧ (∀ si, s.pgsza si = ⟨none, none, 0, 0⟩) ∧ ∀ b, s.hash b = []

/-- The states that runs reach in which no cached page is given back. -/
def Reach (lg2 : List Nat) : Pga → Prop :=
  StepSystem.Reach Start fun s op t => Proper s op ∧ Quiet s op ∧ act lg2 s op = some t

end Pages
