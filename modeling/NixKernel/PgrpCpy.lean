import NixKernel.ChainTable
import NixKernel.MountTable
import NixKernel.SortedChain

/-!
# Copying a name space: `pgrpcpy`

The mount table is here what it is in memory: heads in hash chains, linked through `hash`, each with its union, linked
through `next`.  `pgrpcpy` makes new ones at new addresses and threads the old mounts on one more chain, through
`order`, sorted by `mountid`; the copies get their ids in that order.

`smalloc` waits for memory, and a note interrupts the wait: `mem` says how many calls succeed before that happens.
`pgrpcpy` does not return then.
-/

namespace PgrpCpy

open LinkList Function
open MountTable (smalloc mnthash)

abbrev Addr := Nat

/-- The groups, by address, and all `Mhead`s and `Mount`s.  Those below `nmhead` and `nmount` are allocated.  `ref` is
of the channels, and `ids` is the counter `mountid`. -/
structure Heap where
  mnthash : Addr → Nat → Option Addr
  nmhead : Addr
  «from» : Addr → Addr
  mount : Addr → Option Addr
  hash : Addr → Option Addr
  nmount : Addr
  mountid : Addr → Nat
  next : Addr → Option Addr
  head : Addr → Addr
  copy : Addr → Option Addr
  order : Addr → Option Addr
  «to» : Addr → Addr
  mflag : Addr → Nat
  spec : Addr → Option String
  ref : Addr → Nat
  ids : Nat

def Heap.incref (s : Heap) (c : Addr) : Heap := { s with ref := update s.ref c (s.ref c + 1) }

/-- The new head is at `s.nmhead`. -/
def Heap.newmhead (s : Heap) («from» : Addr) : Heap :=
  { s with
    nmhead := s.nmhead + 1
    «from» := update s.from s.nmhead «from»
    mount := update s.mount s.nmhead none
    hash := update s.hash s.nmhead none }.incref «from»

/-- The new mount is at `s.nmount`. -/
def Heap.newmount (s : Heap) (mh «to» : Addr) (flag : Nat) (spec : Option String) : Heap :=
  { s with
    nmount := s.nmount + 1
    mountid := update s.mountid s.nmount (s.ids + 1)
    next := update s.next s.nmount none
    head := update s.head s.nmount mh
    copy := update s.copy s.nmount none
    order := update s.order s.nmount none
    «to» := update s.to s.nmount «to»
    mflag := update s.mflag s.nmount flag
    spec := update s.spec s.nmount spec
    ids := s.ids + 1 }.incref «to»

/-- The heap after the call, and the memory that is left unless the call was interrupted. -/
def newmhead (mem : Option Nat) (s : Heap) («from» : Addr) : Heap × Option (Option Nat) :=
  match smalloc mem with
  | none => (s, none)
  | some mem => (s.newmhead «from», some mem)

/-- `spec` is copied by `kstrdup`, which calls `smalloc` too; the channel has its reference by then. -/
def newmount (mem : Option Nat) (s : Heap) (mh «to» : Addr) (flag : Nat) (spec : Option String) :
    Heap × Option (Option Nat) :=
  match smalloc mem with
  | none => (s, none)
  | some mem =>
    if spec.isNone then (s.newmount mh «to» flag none, some mem)
    else
      match smalloc mem with
      | none => (s.newmount mh «to» flag none, none)
      | some mem => (s.newmount mh «to» flag spec, some mem)

/-- What a call has returned that was not interrupted. -/
def returned (r : Heap × Option (Option Nat)) : Option (Option Nat × Heap) := r.2.map fun mem => (mem, r.1)

/-- `*l = mh`, for `l` the link of `prev` or the head of chain `i`. -/
def Heap.chain (s : Heap) (g i : Nat) (prev : Option Addr) (mh : Addr) : Heap :=
  let r := store prev (some mh) (s.mnthash g i) s.hash
  { s with mnthash := update s.mnthash g (update (s.mnthash g) i r.1), hash := r.2 }

/-- `*link = n`, for `link` the link of `prev` or the union of `mh`. -/
def Heap.linkMount (s : Heap) (mh : Addr) (prev : Option Addr) (n : Addr) : Heap :=
  let r := store prev (some n) (s.mount mh) s.next
  { s with mount := update s.mount mh r.1, next := r.2 }

/-- `mount->copy = n`. -/
def Heap.setCopy (s : Heap) (mount n : Addr) : Heap := { s with copy := update s.copy mount (some n) }

def pgrpinsert (s : Heap) (order : Option Addr) (mount : Addr) : Option (Heap × Option Addr) :=
  (SortedChain.insert (s.nmount + 1) s.mountid mount order s.order).map fun r => ({ s with order := r.2 }, r.1)

/-- The loop over a union, for the new head `mh`. -/
def copyMounts : Nat → Option Nat → Heap → Addr → Option Addr → Option Addr → Option Addr →
    Option (Option Nat × Heap × Option Addr)
  | 0, _, _, _, _, _, _ => none
  | _ + 1, mem, s, _, _, none, order => some (mem, s, order)
  | fuel + 1, mem, s, mh, link, some mount, order =>
    (returned (newmount mem s mh (s.to mount) (s.mflag mount) (s.spec mount))).bind fun r =>
      (pgrpinsert (r.2.setCopy mount s.nmount) order mount).bind fun u =>
        let t := u.1.linkMount mh link s.nmount
        copyMounts fuel r.1 t mh (some s.nmount) (t.next mount) u.2

/-- The loop over chain `i`, for the group `to`. -/
def copyHeads : Nat → Option Nat → Heap → Addr → Nat → Option Addr → Option Addr → Option Addr →
    Option (Option Nat × Heap × Option Addr)
  | 0, _, _, _, _, _, _, _ => none
  | _ + 1, mem, s, _, _, _, none, order => some (mem, s, order)
  | fuel + 1, mem, s, «to», i, l, some f, order =>
    (returned (newmhead mem s (s.from f))).bind fun r =>
      let t := r.2.chain «to» i l s.nmhead
      (copyMounts (t.nmount + 1) r.1 t s.nmhead none (t.mount f) order).bind fun u =>
        copyHeads fuel u.1 u.2.1 «to» i (some s.nmhead) (u.2.1.hash f) u.2.2

/-- The loop over the chains. -/
def copyChains : List Nat → Option Nat → Heap → Addr → Addr → Option Addr → Option (Option Nat × Heap × Option Addr)
  | [], mem, s, _, _, order => some (mem, s, order)
  | i :: is, mem, s, «to», «from», order =>
    (copyHeads (s.nmhead + 1) mem s «to» i none (s.mnthash «from» i) order).bind fun u =>
      copyChains is u.1 u.2.1 «to» «from» u.2.2

/-- "Allocate mount ids in the same sequence as the parent group". -/
def renumber : Nat → Heap → Option Addr → Option Heap
  | 0, _, _ => none
  | _ + 1, s, none => some s
  | fuel + 1, s, some mount =>
    (s.copy mount).bind fun n =>
      let t : Heap := { s with mountid := update s.mountid n (s.ids + 1), ids := s.ids + 1 }
      renumber fuel t (t.order mount)

def pgrpcpy (mem : Option Nat) (s : Heap) («to» «from» : Addr) : Option Heap :=
  (copyChains (List.range mnthash) mem s «to» «from» none).bind fun u => renumber (u.2.1.nmount + 1) u.2.1 u.2.2

/-- **A mount table in memory**: the heads of each chain and the mounts of each head. -/
structure Group (s : Heap) (g : Addr) (heads : Nat → List Addr) (mounts : Addr → List Addr) : Prop where
  chains : ChainTable.Chains (s.mnthash g) s.hash heads
  unions : ∀ i, ∀ f ∈ heads i, Path s.next (s.mount f) (mounts f) none
  disjoint : ∀ i f j f' m, f ∈ heads i → f' ∈ heads j → m ∈ mounts f → m ∈ mounts f' → f = f'
  bound : ∀ i, ∀ f ∈ heads i, i < mnthash ∧ f < s.nmhead ∧ ∀ m ∈ mounts f, m < s.nmount ∧ s.mountid m ≤ s.ids
  distinct : ∀ i f j f' m m', f ∈ heads i → f' ∈ heads j → m ∈ mounts f → m' ∈ mounts f' →
    s.mountid m = s.mountid m' → m = m'

/-- The mount `m` is in the group. -/
def In (heads : Nat → List Addr) (mounts : Addr → List Addr) (m : Addr) : Prop := ∃ i, ∃ f ∈ heads i, m ∈ mounts f

/-- Nothing that was there has changed, but for the counts of references and what `pgrpcpy` keeps in `copy` and
`order`. -/
structure Kept (s t : Heap) («to» : Addr) : Prop where
  group : ∀ g, g ≠ «to» → t.mnthash g = s.mnthash g
  mhead : ∀ a < s.nmhead, t.from a = s.from a ∧ t.mount a = s.mount a ∧ t.hash a = s.hash a
  mount : ∀ m < s.nmount, t.mountid m = s.mountid m ∧ t.next m = s.next m ∧ t.head m = s.head m ∧ t.to m = s.to m ∧
    t.mflag m = s.mflag m ∧ t.spec m = s.spec m

/-- **The group `heads'` is a copy** of the group `heads`: `newHead` and `newMount` say where the copies are. -/
structure Copied (s t : Heap) (heads heads' : Nat → List Addr) (mounts mounts' : Addr → List Addr)
    (newHead newMount : Addr → Addr) : Prop where
  chain : ∀ i, heads' i = (heads i).map newHead
  head : ∀ i, ∀ f ∈ heads i, t.from (newHead f) = s.from f ∧ mounts' (newHead f) = (mounts f).map newMount
  mount : ∀ i, ∀ f ∈ heads i, ∀ m ∈ mounts f, t.head (newMount m) = newHead f ∧ t.to (newMount m) = s.to m ∧
    t.mflag (newMount m) = s.mflag m ∧ t.spec (newMount m) = s.spec m
  order : ∀ m m', In heads mounts m → In heads mounts m' →
    (t.mountid (newMount m) < t.mountid (newMount m') ↔ s.mountid m < s.mountid m')

end PgrpCpy
