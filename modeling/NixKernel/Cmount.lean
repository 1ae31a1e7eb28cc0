import NixKernel.PgrpCpy

/-!
# `cmount` in memory, and where it can fail

The heads and mounts are those of `pgrpcpy`, with the locks that `cmount` takes: `ns` of the group and `lock` of each
head.  `cmount` may raise an error before it takes a lock; after that only a wait for memory may be interrupted, and a
`waserror` stands for the lock of the head alone.
-/

namespace Cmount

open LinkList Function
open PgrpCpy (Addr Heap newmhead newmount)
open MountTable (Chan Err qtdir morder mrepl mafter mcreate bucket)

/-- The mount table with its locks.  `ns` is held when set, and so is the lock of a head. -/
structure State where
  heap : Heap
  ns : Bool
  lock : Addr → Bool

/-- Copy a union when binding it onto a directory: the loop over `um`, for the pointer behind `h`. -/
def copyUnion : Nat → Option Nat → Heap → Addr → Nat → Addr → Option Addr → Option (Heap × Option (Option Nat))
  | 0, _, _, _, _, _, _ => none
  | _ + 1, mem, s, _, _, _, none => some (s, some mem)
  | fuel + 1, mem, s, mhead, flg, h, some um =>
    match newmount mem s mhead (s.to um) flg (s.spec um) with
    | (t, none) => some (t, none)
    | (t, some mem) =>
      let t : Heap := { t with next := update t.next h (some s.nmount) }
      copyUnion fuel mem t mhead flg s.nmount (t.next um)

/-- `mountfree`; what `cclose` does with the last reference is left out. -/
def mountfree : Nat → Heap → Option Addr → Option Heap
  | 0, _, _ => none
  | _ + 1, s, none => some s
  | fuel + 1, s, some mount =>
    mountfree fuel
      { s with
        ref := update s.ref (s.to mount) (s.ref (s.to mount) - 1)
        mountid := update s.mountid mount 0 } (s.next mount)

/-- `for(; f->next; f = f->next)`. -/
def last : Nat → Heap → Addr → Option Addr
  | 0, _, _ => none
  | fuel + 1, s, f =>
    match s.next f with
    | none => some f
    | some f' => last fuel s f'

/-- The new mounts go behind the union that is there, or in front of it. -/
def put (s : Heap) (mhead nm order : Nat) : Option Heap :=
  match s.mount mhead with
  | some f =>
    if order = mafter then (last (s.nmount + 1) s f).map fun f => { s with next := update s.next f (some nm) }
    else (last (s.nmount + 1) s nm).map fun f' =>
      { s with next := update s.next f' (some f), mount := update s.mount mhead (some nm) }
  | none =>
    (last (s.nmount + 1) s nm).map fun f =>
      { s with next := update s.next f none, mount := update s.mount mhead (some nm) }

/-- What `cmount` does when all new mounts are there. -/
def relink (s : Heap) (mhead nm flag : Nat) : Option Heap :=
  let order := flag &&& morder
  (if s.mount mhead ≠ none ∧ order = mrepl then
    (mountfree (s.nmount + 1) s (s.mount mhead)).map fun s => { s with mount := update s.mount mhead none }
  else some s).bind fun s =>
    let s : Heap := if flag &&& mcreate ≠ 0 then { s with mflag := update s.mflag nm (s.mflag nm ||| mcreate) } else s
    put s mhead nm order

/-- The second half of `cmount`.  An error goes through the `waserror`. -/
def mountAt (chan : Addr → Chan) (mem : Option Nat) (s : State) (mhead new : Addr) (flag : Nat) (spec : Option String) :
    Option (State × Except Err Nat) :=
  let order := flag &&& morder
  let lock := update s.lock mhead true
  let unlocked := update lock mhead false
  match newmount mem s.heap mhead new flag spec with
  | (t, none) => some (⟨t, false, unlocked⟩, .error .Eintr)
  | (t, some mem) =>
    let flg := if order = mrepl then mafter else order
    let um := ((chan new).umh.bind t.mount).bind t.next
    (copyUnion (t.nmount + 1) mem t mhead flg s.heap.nmount um).bind fun r =>
      match r with
      | (u, none) => some (⟨u, false, unlocked⟩, .error .Eintr)
      | (u, some _) =>
        (relink u mhead s.heap.nmount flag).map fun v =>
          (⟨v, false, unlocked⟩, .ok (v.mountid s.heap.nmount))

/-- Not allowed. -/
def Refused (chan : Addr → Chan) (s : Heap) (new old : Addr) (flag : Nat) : Prop :=
  ((chan old).type ^^^ (chan new).type) &&& qtdir ≠ 0 ∨
    ((chan old).type &&& qtdir = 0 ∧ flag &&& morder ≠ mrepl) ∨
    (flag &&& mcreate ≠ 0 ∧ ∃ m ∈ (chan new).umh.bind s.mount, s.next m ≠ none ∨ s.mflag m &&& mcreate = 0)

instance {chan : Addr → Chan} {s : Heap} {new old : Addr} {flag : Nat} : Decidable (Refused chan s new old flag) :=
  inferInstanceAs (Decidable (_ ∨ _ ∨ _))

/-- `eqchan(mhead->from, old, 1)`. -/
def isHead (chan : Addr → Chan) (s : Heap) (old : Addr) (mhead : Addr) : Bool :=
  decide ((chan (s.from mhead)).ident = (chan old).ident)

/-- Nothing mounted here yet: a head is made and added to the hash table, behind `l`. -/
def mountNew (chan : Addr → Chan) (mem : Option Nat) (s : State) (pg : Addr) (l : Option Addr) (new old : Addr)
    (flag : Nat) (spec : Option String) : Option (State × Except Err Nat) :=
  match newmhead mem s.heap old with
  | (t, none) => some ({ s with heap := t, ns := true }, .error .Eintr)
  | (t, some mem) =>
    let mhead := s.heap.nmhead
    let t := t.chain pg (bucket (chan old).ident) l mhead
    if flag &&& morder ≠ mrepl then
      match newmount mem t mhead old 0 none with
      | (u, none) => some ({ s with heap := u, ns := true }, .error .Eintr)
      | (u, some mem) =>
        let u : Heap := { u with mount := update u.mount mhead (some t.nmount) }
        mountAt chan mem { s with heap := u } mhead new flag spec
    else mountAt chan mem { s with heap := t } mhead new flag spec

/-- `cmount`, with no lock held by another.  Nothing when links do not end. -/
def cmount (chan : Addr → Chan) (mem : Option Nat) (s : State) (pg new old : Addr) (flag : Nat) (spec : Option String) :
    Option (State × Except Err Nat) :=
  if Refused chan s.heap new old flag then some (s, .error .Emount)
  else
    (search s.heap.hash (isHead chan s.heap old) (s.heap.nmhead + 1) none
        (s.heap.mnthash pg (bucket (chan old).ident))).bind fun r =>
      match r.2 with
      | some mhead => mountAt chan mem s mhead new flag spec
      | none => mountNew chan mem s pg r.1 new old flag spec

/-- **Nothing has changed** in the table, no channel has got or lost a reference, and no lock is held. -/
structure Unchanged (s t : State) : Prop where
  table : t.heap.mnthash = s.heap.mnthash
  mhead : ∀ a < s.heap.nmhead, t.heap.from a = s.heap.from a ∧ t.heap.mount a = s.heap.mount a ∧
    t.heap.hash a = s.heap.hash a
  mount : ∀ m < s.heap.nmount, t.heap.mountid m = s.heap.mountid m ∧ t.heap.next m = s.heap.next m ∧
    t.heap.head m = s.heap.head m ∧ t.heap.to m = s.heap.to m ∧ t.heap.mflag m = s.heap.mflag m ∧
    t.heap.spec m = s.heap.spec m
  ref : t.heap.ref = s.heap.ref
  ns : t.ns = false
  lock : t.lock = fun _ => false

/-- The calls of `smalloc` in a `newmount`. -/
def cost (spec : Option String) : Nat := if spec.isNone then 1 else 2

/-- The calls of `smalloc` in the second half of `cmount`; `us` is the union that `new` heads. -/
def costAt (s : Heap) (us : List Addr) (spec : Option String) : Nat :=
  cost spec + (us.tail.map fun m => cost (s.spec m)).sum

/-- The calls of `smalloc` for a head that is not there. -/
def costHead (flag : Nat) : Nat := if flag &&& morder ≠ mrepl then 2 else 1

/-- The mount point is in the table. -/
def Found (chan : Addr → Chan) (s : Heap) (heads : Nat → List Addr) (old : Addr) : Prop :=
  ∃ f ∈ heads (bucket (chan old).ident), isHead chan s old f = true

instance {chan : Addr → Chan} {s : Heap} {heads : Nat → List Addr} {old : Addr} : Decidable (Found chan s heads old) :=
  inferInstanceAs (Decidable (∃ f ∈ heads (bucket (chan old).ident), isHead chan s old f = true))

/-- No wait in the call is interrupted. -/
def Enough (chan : Addr → Chan) (s : Heap) (heads : Nat → List Addr) (us : List Addr) (mem : Option Nat) (old : Addr)
    (flag : Nat) (spec : Option String) : Prop :=
  ∀ n, mem = some n → (if Found chan s heads old then 0 else costHead flag) + costAt s us spec ≤ n

end Cmount
