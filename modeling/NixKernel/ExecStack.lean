import NixKernel.ByteMem
import NixKernel.CString
import NixKernel.ExecHeader
import NixKernel.UserAddr

/-!
# The stack of a new image: `sysexec`

`sysexec` makes the new stack at `TSTKTOP`: under the `Tos` the argument strings, pushed downwards,
and under these the vector, whose pointers are found by walking up from the last string.  At the end
the segment is moved to `USTKTOP`.  The first argument of a script gives way to the script's name, the
words of its first line and its file.

The length of a string is that of `vmemchr` in an `int`: a string of 2^31-1 bytes or more has another
length.  `validaddr` is taken to return, the memory of the old image to be apart from the new stack.
The `Tos` and `tokenize` are those of the library.
-/

namespace ExecStack

open List Option
open ByteMem (Holds write bytes64 word64)
open CString (Str)

def TSTKTOP : Nat := Exec.TSTKTOP.toNat
def USTKTOP : Nat := Exec.USTKTOP.toNat
def USTKSIZE : Nat := Exec.USTKSIZE.toNat

/-- The bytes of a string in memory. -/
def cbytes (s : Str) : List UInt8 := s.bytes ++ [0]

/-- The last bytes of a script's name, the words after the first of its first line, and its file,
whose name `validnamedup` has taken. -/
structure Script where
  elem : Str
  words : List Str
  file : Str
  elem_lt : elem.length < 128
  words_le : (words.map fun s => s.length + 1).sum ≤ 32
  file_lt : file.length < 2 ^ 16

/-- `progarg`. -/
def progarg : Option Script → List Str
  | none => []
  | some x => x.elem :: (x.words ++ [x.file])

/-- An argument in the memory of the old image. -/
structure Arg (user : Nat → UInt8) where
  addr : Nat
  str : Str
  held : Holds user addr (cbytes str)
  low : addr + str.length < 2 ^ 47

/-- What stands beside the arguments: the size of the `Tos`, and `m->pgsz` of the stack. -/
structure Params where
  sizeofTos : Nat
  pgsz : Nat
  tos_le : sizeofTos ≤ 4096
  pgsz_lt : pgsz < 2 ^ 32

/-- The new stack: its pointer, the memory, and how many strings it has. -/
structure St where
  stack : Nat
  mem : Nat → UInt8
  argc : Nat

inductive Outcome
  | error
  /-- "memmove(p, a, n);" with a negative `n`. -/
  | wild
  | done (argv argc : Nat) (mem : Nat → UInt8)

/-- An `int`. -/
def int (x : Int) : Int := x.bmod (2 ^ 32)

/-- A string of `progarg`. -/
def St.push (st : St) (s : Str) : St :=
  let stack := st.stack - (s.length + 1)
  ⟨stack, write st.mem stack (cbytes s), st.argc + 1⟩

/-- "n = ((char*)vmemchr(a, 0, 0x7fffffff) - a) + 1;" -/
def taken (user : Nat → UInt8) (a : Nat) : Option Int :=
  (UserAddr.vmemchr user a 0 0x7fffffff).map fun r => int ((r.2.getD 0 : Int) - a + 1)

/-- "memmove(p, a, n); p[n-1] = 0;" of `n` bytes. -/
def copy (user mem : Nat → UInt8) (p a n : Nat) : Nat → UInt8 :=
  write (write mem p ((List.range n).map fun i => user (a + i))) (p + n - 1) [0]

/-- The loop over the arguments that are copied. -/
def copyargs (user : Nat → UInt8) : List Nat → St → Option (Outcome ⊕ St)
  | [], st => some (.inr st)
  | a :: l, st =>
    (taken user a).bind fun n =>
      let stack := (st.stack : Int) - n
      if stack < TSTKTOP - USTKSIZE then some (.inl .error)
      else if n < 0 then some (.inl .wild)
      else copyargs user l ⟨stack.toNat, copy user st.mem stack.toNat a n.toNat, st.argc + 1⟩

abbrev Mem := Nat → UInt8

def Mem.strlenLoop (mem : Mem) (p n : Nat) : Option Nat :=
  if mem (p + n) = 0 then some n else mem |>.strlenLoop p (n + 1)
partial_fixpoint

export Mem (strlenLoop)

def strlen (mem : Nat → UInt8) (p : Nat) : Option Nat := strlenLoop mem p 0

/-- The loop that pushes the pointers. -/
def vector : Nat → Nat → Nat → (Nat → UInt8) → Option (Nat × (Nat → UInt8))
  | 0, argv, _, mem => some (argv, mem)
  | argc + 1, argv, p, mem =>
    let argv := argv - 8
    let mem := write mem argv (bytes64 (p - (TSTKTOP - USTKTOP)))
    (strlen mem p).bind fun n => vector argc argv (p + n + 1) mem

/-- What comes after the strings, from the check of `argc` on. -/
def St.pushvector (x : Params) (st : St) : Option Outcome :=
  if st.argc < 1 then some .error
  else
    let stack := st.stack / 8 * 8
    if (stack : Int) - (st.argc + 1) * 8 - x.pgsz < TSTKTOP - USTKSIZE then some .error
    else
      (vector st.argc (stack - 8) st.stack (write st.mem (stack - 8) (bytes64 0))).map fun r =>
        .done r.1 st.argc r.2

/-- `sysexec` from the strings of `progarg` to the commit. -/
def sysexec (x : Params) (user mem : Nat → UInt8) (script : Option Script) (argv : List Nat) :
    Option Outcome :=
  let st := (progarg script).foldl St.push ⟨TSTKTOP - x.sizeofTos, mem, 0⟩
  -- argv[0] will be thrown away if this is a shell script
  (copyargs user (if st.argc > 0 then argv.drop 1 else argv) st).bind fun r => r.elim some (St.pushvector x)

/-- The arguments that are copied. -/
def copied {user : Nat → UInt8} (script : Option Script) (args : List (Arg user)) : List (Arg user) :=
  if script.isSome then args.drop 1 else args

/-- The strings that the new image has as arguments. -/
def passed {user : Nat → UInt8} (script : Option Script) (args : List (Arg user)) : List Str :=
  progarg script ++ (copied script args).map Arg.str

/-- The bytes that strings have in memory. -/
def bytes (l : List Str) : Nat := (l.map fun s => s.length + 1).sum

/-- There is an argument, and room for the strings, the vector, and a page. -/
def Fits (x : Params) (l : List Str) : Prop :=
  1 ≤ l.length ∧
    TSTKTOP - USTKSIZE + x.pgsz + (l.length + 1) * 8 ≤ (TSTKTOP - x.sizeofTos - bytes l) / 8 * 8

/-- The memory when the segment has been moved. -/
def moved (mem : Nat → UInt8) : Nat → UInt8 := fun x => mem (x + (TSTKTOP - USTKTOP))

/-- A vector of pointers to the strings and a nil, in the stack segment, nothing over anything else. -/
structure Laid (x : Params) (mem : Nat → UInt8) (argv : Nat) (l : List Str) : Prop where
  pointer : ∀ i s, l[i]? = some s → Holds mem (word64 mem (argv + 8 * i)) (cbytes s)
  nil : word64 mem (argv + 8 * l.length) = 0
  inside : USTKTOP - USTKSIZE ≤ argv ∧ ∀ i s, l[i]? = some s →
    argv + 8 * (l.length + 1) ≤ word64 mem (argv + 8 * i) ∧
      word64 mem (argv + 8 * i) + (cbytes s).length ≤ USTKTOP - x.sizeofTos
  apart : ∀ i j s, i < j → l[j]? = some s →
    word64 mem (argv + 8 * j) + (cbytes s).length ≤ word64 mem (argv + 8 * i)

/-- Arguments that fit are passed, and others refused. -/
def Passes (x : Params) (user mem : Nat → UInt8) (script : Option Script) (args : List (Arg user)) : Prop :=
  (Fits x (passed script args) → ∃ argv mem', sysexec x user mem script (args.map Arg.addr) =
      some (.done argv (passed script args).length mem') ∧
    Laid x (moved mem') (argv - (TSTKTOP - USTKTOP)) (passed script args)) ∧
  (¬Fits x (passed script args) → sysexec x user mem script (args.map Arg.addr) = some .error)

/-- The lengths that are taken are refused: one goes below the stack, or the vector has no room. -/
def Refused (x : Params) : Nat → Nat → List Int → Prop
  | stack, argc, [] =>
    argc < 1 ∨ ((stack / 8 * 8 : Nat) : Int) - (argc + 1) * 8 - x.pgsz < TSTKTOP - USTKSIZE
  | stack, argc, n :: l =>
    (stack : Int) - n < TSTKTOP - USTKSIZE ∨ (0 ≤ n ∧ Refused x ((stack : Int) - n).toNat (argc + 1) l)

variable {x : Params} {user mem mem' : Nat → UInt8} {st st' : St} {s : Str} {l r : List Str}
  {top p q k n argv : Nat}

theorem tstktop_eq : TSTKTOP = 0x7fffffe00000 := rfl

theorem ustktop_eq : USTKTOP = 0x7ffffee00000 := rfl

theorem ustksize_eq : USTKSIZE = 0x1000000 := rfl

/-- The strings as they lie in memory, the last one that was pushed first. -/
def flat (r : List Str) : List UInt8 := r.flatMap cbytes

@[simp] theorem length_cbytes (s : Str) : (cbytes s).length = s.length + 1 := by
  rw [cbytes, length_append, length_singleton]
  rfl

@[simp] theorem bytes_cons (s : Str) (l : List Str) : bytes (s :: l) = s.length + 1 + bytes l := rfl

@[simp] theorem bytes_append (l r : List Str) : bytes (l ++ r) = bytes l + bytes r := by
  rw [bytes, map_append, sum_append]
  rfl

theorem bytes_reverse (l : List Str) : bytes l.reverse = bytes l := by
  rw [bytes, map_reverse, sum_reverse]
  rfl

theorem length_flat (r : List Str) : (flat r).length = bytes r := by
  induction r with
  | nil => rfl
  | cons s r ih => rw [flat, flatMap_cons, length_append, length_cbytes, bytes_cons, ← ih, flat]

/-- The first zero byte is that at the end. -/
theorem zero_iff (h : Holds mem p (cbytes s)) (hq : q ≤ s.length) : mem (p + q) = 0 ↔ q = s.length := by
  rw [h q (by rw [length_cbytes]; omega), cbytes]
  constructor
  · intro hzero
    by_contra hne
    have hlt : q < s.bytes.length := Nat.lt_of_le_of_ne hq hne
    rw [List.getD_append _ _ _ _ hlt] at hzero
    exact s.get_ne hlt hzero
  · rintro rfl
    have hlen : s.length = s.bytes.length := rfl
    rw [getD_append_right _ _ _ _ (Nat.le_of_eq hlen.symm), hlen, Nat.sub_self]
    rfl

/-- `strlen` of a string. -/
theorem strlen_eq (h : Holds mem p (cbytes s)) : strlen mem p = some s.length := by
  have hloop : ∀ m n, n + m = s.length → strlenLoop mem p n = some s.length := by
    intro m
    induction m with
    | zero =>
      intro n hn
      rw [Nat.add_zero] at hn
      rw [strlenLoop, hn, if_pos ((zero_iff h (Nat.le_refl _)).mpr rfl)]
    | succ m ih =>
      intro n hn
      rw [strlenLoop, if_neg fun hzero => by have heq := (zero_iff h (by omega)).mp hzero; omega]
      exact ih (n + 1) (by omega)
  exact hloop s.length 0 (Nat.zero_add _)

/-- What has been pushed. -/
structure Pushed (top : Nat) (st : St) (l : List Str) : Prop where
  stack : st.stack + bytes l = top
  argc : st.argc = l.length
  holds : Holds st.mem st.stack (flat l.reverse)

theorem Pushed.write (h : Pushed top st l) (s : Str) (hroom : s.length + 1 ≤ st.stack) :
    Pushed top ⟨st.stack - (s.length + 1), write st.mem (st.stack - (s.length + 1)) (cbytes s), st.argc + 1⟩
      (l ++ [s]) := by
  have hstack := h.stack
  refine ⟨?_, ?_, ?_⟩
  · rw [bytes_append, bytes_cons]
    change _ + (_ + (_ + 0)) = _
    dsimp only
    omega
  · rw [length_append, length_singleton, ← h.argc]
  · rw [reverse_append, reverse_singleton, singleton_append, flat, flatMap_cons]
    refine ByteMem.holds_append.mpr ⟨ByteMem.holds_write _ _ _, ?_⟩
    rw [length_cbytes]
    dsimp only
    rw [Nat.sub_add_cancel hroom]
    exact h.holds.congr fun y hle _ => ByteMem.write_outside _ (.inr (by rw [length_cbytes]; omega))

/-- The strings of `progarg`. -/
theorem Pushed.foldl (h : Pushed top st l) (hroom : bytes r ≤ st.stack) :
    Pushed top (r.foldl St.push st) (l ++ r) := by
  induction r generalizing st l with
  | nil => rwa [append_nil]
  | cons s r ih =>
    rw [bytes_cons] at hroom
    have hpush : Pushed top (st.push s) (l ++ [s]) := h.write s (by omega)
    have hrest : bytes r ≤ (st.push s).stack := by
      change bytes r ≤ st.stack - (s.length + 1)
      omega
    have hall := ih hpush hrest
    rwa [append_assoc] at hall

/-- What `progarg` has is short. -/
theorem bytes_progarg (script : Option Script) : bytes (progarg script) ≤ 2 ^ 17 := by
  cases script with
  | none => exact Nat.zero_le _
  | some c =>
    have helem := c.elem_lt
    have hwords := c.words_le
    have hfile := c.file_lt
    rw [progarg, bytes_cons, bytes_append, bytes_cons]
    change _ + (bytes c.words + (_ + 0)) ≤ _
    change bytes c.words ≤ 32 at hwords
    omega

theorem taken_some {a : Nat} (ha : a < 2 ^ 47) : ∃ n, taken user a = some n := by
  obtain ⟨calls, t, hrun, _⟩ := UserAddr.vmemchr_spec user 0 a 0x7fffffff (by decide) (by decide) (by omega)
  rw [taken]
  exact ⟨_, by rw [show ((0x7fffffff : Nat) : Int) = 0x7fffffff from rfl] at hrun; rw [hrun]; rfl⟩

/-- **A string that is not too long** is taken with its length. -/
theorem taken_short (a : Arg user) (hshort : a.str.length < 0x7fffffff) :
    taken user a.addr = some ((a.str.length + 1 : Nat) : Int) := by
  have hlow := a.low
  obtain ⟨calls, t, hrun, hends⟩ :=
    UserAddr.vmemchr_spec user 0 a.addr 0x7fffffff (by decide) (by decide) (by omega)
  have hend : user (a.addr + a.str.length) = 0 := (zero_iff a.held (Nat.le_refl _)).mpr rfl
  have ht : t = some (a.addr + a.str.length) := by
    rcases hends with ⟨hfirst, -, -⟩ | ⟨-, hnone, -⟩
    · cases t with
      | none => exact absurd hend (hfirst _ (by omega) (by omega))
      | some t =>
        obtain ⟨hle, hlt, hmem, hbefore⟩ := hfirst
        rw [some.injEq]
        by_contra hne
        rcases Nat.lt_or_gt_of_ne hne with hlt' | hgt
        · rw [← Nat.add_sub_cancel' hle, zero_iff a.held (by omega)] at hmem
          omega
        · exact hbefore _ (by omega) hgt hend
    · exact absurd hend (hnone _ (by omega) (by omega))
  have hn : ((0x7fffffff : Nat) : Int) = 0x7fffffff := rfl
  rw [hn] at hrun
  rw [taken, hrun, ht, map_some, getD_some, int]
  have hval : ((a.addr + a.str.length : Nat) : Int) - a.addr + 1 = (a.str.length + 1 : Nat) := by omega
  rw [hval, Int.bmod_eq_of_le (by omega) (by omega)]

/-- The copy of a string is the string. -/
theorem copy_eq (a : Arg user) (mem : Nat → UInt8) (p : Nat) :
    copy user mem p a.addr (a.str.length + 1) = write mem p (cbytes a.str) := by
  have hlist : ((List.range (a.str.length + 1)).map fun i => user (a.addr + i)) = cbytes a.str := by
    refine ext_getElem (by rw [length_map, length_range, length_cbytes]) fun i hi _ => ?_
    rw [length_map, length_range] at hi
    rw [getElem_map, getElem_range, a.held i (by rwa [length_cbytes]), getD_eq_getElem]
  rw [copy, hlist]
  funext y
  by_cases hy : y = p + a.str.length
  · have hheld := ByteMem.holds_write mem p (cbytes a.str)
    rw [hy, (zero_iff hheld (Nat.le_refl _)).mpr rfl, write, if_pos (by rw [length_singleton]; omega)]
    have hzero : p + a.str.length - (p + (a.str.length + 1) - 1) = 0 := by omega
    rw [hzero]
    rfl
  · exact ByteMem.write_outside _ (by rw [length_singleton]; omega)

/-- **Arguments that are not too long** are pushed if there is room for them all, else refused. -/
theorem copyargs_short (args : List (Arg user)) (hshort : ∀ a ∈ args, a.str.length < 0x7fffffff)
    (h : Pushed top st l) (hge : TSTKTOP - USTKSIZE ≤ st.stack) :
    (bytes (args.map Arg.str) ≤ st.stack - (TSTKTOP - USTKSIZE) →
      ∃ st', copyargs user (args.map Arg.addr) st = some (.inr st') ∧
        Pushed top st' (l ++ args.map Arg.str)) ∧
    (¬bytes (args.map Arg.str) ≤ st.stack - (TSTKTOP - USTKSIZE) →
      copyargs user (args.map Arg.addr) st = some (.inl .error)) := by
  rw [tstktop_eq, ustksize_eq] at hge ⊢
  induction args generalizing st l with
  | nil =>
    refine ⟨fun _ => ⟨st, rfl, ?_⟩, fun hno => absurd (Nat.zero_le _) hno⟩
    rwa [map_nil, append_nil]
  | cons a args ih =>
    have htaken := taken_short a (hshort a mem_cons_self)
    rw [map_cons, map_cons, bytes_cons, copyargs, htaken, bind_some, tstktop_eq, ustksize_eq]
    dsimp only
    by_cases hlow : (st.stack : Int) - (a.str.length + 1 : Nat) < (0x7fffffe00000 : Nat) - (0x1000000 : Nat)
    · rw [if_pos hlow]
      exact ⟨fun hfit => by omega, fun _ => rfl⟩
    · have hnat : ((st.stack : Int) - (a.str.length + 1 : Nat)).toNat =
          st.stack - (a.str.length + 1) := by omega
      rw [if_neg hlow, if_neg (by omega), hnat, Int.toNat_natCast, copy_eq]
      have hpush := h.write a.str (by omega)
      obtain ⟨hfits, hrefused⟩ :=
        ih (fun b hb => hshort b (mem_cons_of_mem a hb)) hpush (by dsimp only; omega)
      dsimp only at hfits hrefused
      refine ⟨fun hfit => ?_, fun hno => hrefused (by omega)⟩
      obtain ⟨st', hrun, hst'⟩ := hfits (by omega)
      rw [append_assoc] at hst'
      exact ⟨st', hrun, hst'⟩

/-- Where the string in a place lies. -/
def place (p : Nat) (r : List Str) (k : Nat) : Nat := p + bytes (r.take k)

theorem bytes_take_le (r : List Str) (k : Nat) : bytes (r.take k) ≤ bytes r := by
  have hsplit := bytes_append (r.take k) (r.drop k)
  rw [take_append_drop] at hsplit
  omega

theorem place_succ (h : r[k]? = some s) : place p r (k + 1) = place p r k + (s.length + 1) := by
  have hone : bytes (some s).toList = s.length + 1 := rfl
  rw [place, take_add_one, h, bytes_append, place, hone, Nat.add_assoc]

/-- **The walk** from the last string up: a pointer for each, downwards. -/
theorem vector_spec (h : Holds mem p (flat r)) (hle : argv ≤ p) (hroom : 8 * r.length ≤ argv) :
    ∃ mem', vector r.length argv p mem = some (argv - 8 * r.length, mem') ∧
      (∀ y, argv ≤ y → mem' y = mem y) ∧
      ∀ k < r.length, Holds mem' (argv - 8 * (k + 1)) (bytes64 (place p r k - (TSTKTOP - USTKTOP))) := by
  induction r generalizing argv p mem with
  | nil => exact ⟨mem, rfl, fun _ _ => rfl, fun k hk => absurd hk (Nat.not_lt_zero k)⟩
  | cons s r ih =>
    rw [length_cons] at hroom ⊢
    have hkeep : Holds (write mem (argv - 8) (bytes64 (p - (TSTKTOP - USTKTOP)))) p (flat (s :: r)) :=
      h.congr fun y hy _ => ByteMem.write_outside _ (.inr (by rw [ByteMem.length_bytes64]; omega))
    rw [flat, flatMap_cons] at hkeep
    obtain ⟨hfirst, hrest⟩ := ByteMem.holds_append.mp hkeep
    rw [length_cbytes] at hrest
    have hbelow : argv - 8 ≤ p + (s.length + 1) := by omega
    have hleft : 8 * r.length ≤ argv - 8 := by omega
    obtain ⟨mem', hrun, hsame, hslots⟩ := ih hrest hbelow hleft
    refine ⟨mem', ?_, fun y hy => ?_, fun k hk => ?_⟩
    · rw [vector, strlen_eq hfirst, bind_some, Nat.add_assoc, hrun]
      congr 2
      omega
    · rw [hsame y (by omega), ByteMem.write_outside _ (.inr (by rw [ByteMem.length_bytes64]; omega))]
    · cases k with
      | zero =>
        have hslot := ByteMem.holds_write mem (argv - 8) (bytes64 (p - (TSTKTOP - USTKTOP)))
        exact hslot.congr fun y hy _ => hsame y hy
      | succ k =>
        have hslot := hslots k (by omega)
        have hat : place (p + (s.length + 1)) r k = place p (s :: r) (k + 1) := by
          rw [place, place, take_succ_cons, bytes_cons]
          omega
        rwa [hat, Nat.sub_sub, show 8 + 8 * (k + 1) = 8 * (k + 1 + 1) by omega] at hslot

/-- A string of those in memory. -/
theorem holds_place (h : Holds mem p (flat r)) (hk : r[k]? = some s) :
    Holds mem (place p r k) (cbytes s) := by
  obtain ⟨hlt, hget⟩ := List.getElem?_eq_some_iff.mp hk
  have hsplit : r = r.take k ++ s :: r.drop (k + 1) := by
    rw [← hget, getElem_cons_drop, take_append_drop]
  have hflat : flat r = flat (r.take k) ++ (cbytes s ++ flat (r.drop (k + 1))) := by
    conv_lhs => rw [hsplit]
    rw [flat, flatMap_append, flatMap_cons]
    rfl
  rw [hflat] at h
  have hrest := (ByteMem.holds_append.mp h).2
  rw [length_flat] at hrest
  exact (ByteMem.holds_append.mp hrest).1

theorem holds_moved {b : List UInt8} (hp : TSTKTOP - USTKTOP ≤ p) (h : Holds mem p b) :
    Holds (moved mem) (p - (TSTKTOP - USTKTOP)) b := fun j hj => by
  have heq : p - (TSTKTOP - USTKTOP) + j + (TSTKTOP - USTKTOP) = p + j := by omega
  rw [moved, heq]
  exact h j hj

theorem place_le (r : List Str) (p : Nat) {j k : Nat} (hjk : j ≤ k) : place p r j ≤ place p r k := by
  have hsplit := bytes_append (r.take j) ((r.take k).drop j)
  have htake : (r.take k).take j = r.take j := by rw [take_take, Nat.min_eq_left hjk]
  rw [← htake, take_append_drop, htake] at hsplit
  rw [place, place]
  omega

/-- **What the strings and the vector make**, when there is room. -/
theorem laid_of_pushed (hst : Pushed (TSTKTOP - x.sizeofTos) st l) (hfit : Fits x l) :
    ∃ argv mem', st.pushvector x = some (.done argv l.length mem') ∧
      Laid x (moved mem') (argv - (TSTKTOP - USTKTOP)) l := by
  obtain ⟨hone, hfit⟩ := hfit
  have hstack := hst.stack
  have hargc := hst.argc
  have htos := x.tos_le
  have hle : st.stack / 8 * 8 ≤ st.stack := Nat.div_mul_le_self _ _
  have hbase : TSTKTOP - x.sizeofTos - bytes l = st.stack := by omega
  rw [hbase] at hfit
  rw [tstktop_eq, ustksize_eq] at hfit
  rw [tstktop_eq] at hstack
  generalize hA : st.stack / 8 * 8 = A at hle hfit
  -- the strings, after the nil has been pushed
  have hnil : Holds (write st.mem (A - 8) (bytes64 0)) st.stack (flat l.reverse) :=
    hst.holds.congr fun y hy _ => ByteMem.write_outside _ (.inr (by rw [ByteMem.length_bytes64]; omega))
  have hlen : l.reverse.length = l.length := length_reverse
  have hbelow : A - 8 ≤ st.stack := by omega
  have hleft : 8 * l.reverse.length ≤ A - 8 := by omega
  obtain ⟨mem', hrun, hsame, hslots⟩ := vector_spec hnil hbelow hleft
  rw [hlen] at hrun hslots
  have hstrings : Holds mem' st.stack (flat l.reverse) := hnil.congr fun y hy _ => hsame y (by omega)
  have hrev : ∀ i s, l[i]? = some s → i < l.length ∧ l.reverse[l.length - 1 - i]? = some s := fun i s hi => by
    obtain ⟨hlt, _⟩ := List.getElem?_eq_some_iff.mp hi
    rw [List.getElem?_reverse (by omega), show l.length - 1 - (l.length - 1 - i) = i by omega]
    exact ⟨hlt, hi⟩
  have hdiff : TSTKTOP - USTKTOP = 0x1000000 := rfl
  have hplace : ∀ k, st.stack ≤ place st.stack l.reverse k ∧
      place st.stack l.reverse k ≤ 0x7fffffe00000 - x.sizeofTos := fun k => by
    have htake := bytes_take_le l.reverse k
    rw [bytes_reverse] at htake
    rw [place]
    omega
  -- the pointer in a place
  have hword : ∀ i < l.length, word64 (moved mem') (A - 8 - 8 * l.length - (TSTKTOP - USTKTOP) + 8 * i) =
      place st.stack l.reverse (l.length - 1 - i) - (TSTKTOP - USTKTOP) := fun i hi => by
    have hslot := holds_moved (by rw [hdiff]; omega) (hslots (l.length - 1 - i) (by omega))
    have haddr : A - 8 - 8 * (l.length - 1 - i + 1) - (TSTKTOP - USTKTOP) =
        A - 8 - 8 * l.length - (TSTKTOP - USTKTOP) + 8 * i := by
      rw [hdiff]
      omega
    rw [haddr] at hslot
    have hbound := hplace (l.length - 1 - i)
    exact ByteMem.word64_eq hslot (by omega)
  refine ⟨A - 8 - 8 * l.length, mem', ?_,
    ⟨fun i s hi => ?_, ?_, ⟨?_, fun i s hi => ?_⟩, fun i j s hij hj => ?_⟩⟩
  · rw [St.pushvector, if_neg (by omega), hA]
    dsimp only
    rw [if_neg (by rw [tstktop_eq, ustksize_eq]; omega), hargc, hrun]
    rfl
  · obtain ⟨hlt, hk⟩ := hrev i s hi
    rw [hword i hlt]
    have hbound := hplace (l.length - 1 - i)
    exact holds_moved (by rw [hdiff]; omega) (holds_place hstrings hk)
  · have hzero : Holds mem' (A - 8) (bytes64 0) :=
      (ByteMem.holds_write st.mem (A - 8) (bytes64 0)).congr fun y hy _ => hsame y hy
    have hslot := holds_moved (by rw [hdiff]; omega) hzero
    have haddr : A - 8 - (TSTKTOP - USTKTOP) =
        A - 8 - 8 * l.length - (TSTKTOP - USTKTOP) + 8 * l.length := by
      rw [hdiff]
      omega
    rw [haddr] at hslot
    exact ByteMem.word64_eq hslot (by decide)
  · rw [hdiff, ustktop_eq, ustksize_eq]
    omega
  · obtain ⟨hlt, hk⟩ := hrev i s hi
    have hbound := hplace (l.length - 1 - i)
    have hnext := hplace (l.length - 1 - i + 1)
    rw [place_succ hk] at hnext
    rw [hword i hlt, length_cbytes, hdiff, ustktop_eq]
    omega
  · obtain ⟨hlt, hk⟩ := hrev j s hj
    have hbound := hplace (l.length - 1 - j)
    have hnext := place_le l.reverse st.stack (show l.length - 1 - j + 1 ≤ l.length - 1 - i by omega)
    rw [place_succ hk] at hnext
    rw [hword j hlt, hword i (by omega), length_cbytes, hdiff]
    omega

/-- Without room the vector is refused. -/
theorem pushvector_error : st.pushvector x = some .error ↔ Refused x st.stack st.argc [] := by
  rw [St.pushvector, Refused]
  by_cases hone : st.argc < 1
  · rw [if_pos hone]
    exact iff_of_true rfl (.inl hone)
  · rw [if_neg hone]
    dsimp only
    split
    · rename_i hroom
      exact iff_of_true rfl (.inr hroom)
    · rename_i hroom
      refine iff_of_false (fun h => ?_) (fun h => h.elim hone hroom)
      obtain ⟨r, _, heq⟩ := map_eq_some_iff.mp h
      cases heq

/-- **The lengths decide** whether the arguments are refused. -/
theorem refused_iff (argv : List Nat) (hlow : ∀ a ∈ argv, a < 2 ^ 47) :
    ((copyargs user argv st).bind fun r => r.elim some (St.pushvector x)) = some .error ↔
      Refused x st.stack st.argc (argv.map fun a => (taken user a).getD 0) := by
  induction argv generalizing st with
  | nil => exact pushvector_error
  | cons a argv ih =>
    obtain ⟨n, hn⟩ := @taken_some user a (hlow a mem_cons_self)
    have hrest := fun st => @ih st fun b hb => hlow b (mem_cons_of_mem a hb)
    rw [copyargs, hn, bind_some, map_cons, hn, getD_some, Refused]
    dsimp only
    by_cases hbelow : (st.stack : Int) - n < TSTKTOP - USTKSIZE
    · rw [if_pos hbelow]
      exact iff_of_true rfl (.inl hbelow)
    · rw [if_neg hbelow]
      by_cases hneg : n < 0
      · rw [if_pos hneg]
        refine iff_of_false (fun h => ?_) fun h => h.elim hbelow fun hand => by omega
        cases h
      · rw [if_neg hneg, hrest]
        exact ⟨fun h => .inr ⟨by omega, h⟩, fun h => (h.resolve_left hbelow).2⟩

/-- The state after the strings of `progarg`. -/
def begun (x : Params) (mem : Nat → UInt8) (script : Option Script) : St :=
  (progarg script).foldl St.push ⟨TSTKTOP - x.sizeofTos, mem, 0⟩

theorem begun_pushed (x : Params) (mem : Nat → UInt8) (script : Option Script) :
    Pushed (TSTKTOP - x.sizeofTos) (begun x mem script) (progarg script) ∧
      TSTKTOP - USTKSIZE ≤ (begun x mem script).stack := by
  have hbytes := bytes_progarg script
  have htos := x.tos_le
  have hstart : Pushed (TSTKTOP - x.sizeofTos) ⟨TSTKTOP - x.sizeofTos, mem, 0⟩ [] :=
    ⟨rfl, rfl, fun j hj => absurd hj (Nat.not_lt_zero j)⟩
  have hroom : bytes (progarg script) ≤ TSTKTOP - x.sizeofTos := by
    rw [tstktop_eq]
    omega
  have hpushed := hstart.foldl hroom
  refine ⟨hpushed, ?_⟩
  have hstack := hpushed.stack
  rw [tstktop_eq] at hstack
  rw [tstktop_eq, ustksize_eq]
  change _ ≤ ((progarg script).foldl St.push _).stack
  rw [nil_append] at hstack
  rw [tstktop_eq]
  omega

theorem sysexec_eq (x : Params) (user mem : Nat → UInt8) (script : Option Script) (args : List (Arg user)) :
    sysexec x user mem script (args.map Arg.addr) =
      (copyargs user ((copied script args).map Arg.addr) (begun x mem script)).bind
        fun r => r.elim some (St.pushvector x) := by
  have hargc := (begun_pushed x mem script).1.argc
  have hlist : (if (begun x mem script).argc > 0 then (args.map Arg.addr).drop 1 else args.map Arg.addr) =
      (copied script args).map Arg.addr := by
    rw [hargc, copied]
    cases script with
    | none => rfl
    | some c => exact List.map_drop.symm
  rw [← hlist]
  rfl

/-- Strings beyond the stack do not fit. -/
theorem not_fits (h : USTKSIZE - x.sizeofTos < bytes l) : ¬Fits x l := by
  rintro ⟨hone, hfit⟩
  have htos := x.tos_le
  rw [ustksize_eq] at h
  rw [tstktop_eq, ustksize_eq] at hfit
  omega

/-- **Arguments are passed**, or refused when they do not fit, just when no string is too long for an
`int`, or the lengths that are taken for them do not fit either. -/
theorem passes_iff (x : Params) (user mem : Nat → UInt8) (script : Option Script) (args : List (Arg user)) :
    Passes x user mem script args ↔
      (∀ a ∈ copied script args, a.str.length < 0x7fffffff) ∨
        Refused x (TSTKTOP - x.sizeofTos - bytes (progarg script)) (progarg script).length
          ((copied script args).map fun a => (taken user a.addr).getD 0) := by
  obtain ⟨hpushed, hge⟩ := begun_pushed x mem script
  have hstack := hpushed.stack
  have htos := x.tos_le
  have haddrs : ∀ a ∈ (copied script args).map Arg.addr, a < 2 ^ 47 := fun a ha => by
    obtain ⟨arg, _, rfl⟩ := List.mem_map.mp ha
    have hlow := arg.low
    omega
  have hrefused := @refused_iff x user (begun x mem script) _ haddrs
  have hbase : TSTKTOP - x.sizeofTos - bytes (progarg script) = (begun x mem script).stack := by omega
  rw [← sysexec_eq, hpushed.argc, List.map_map] at hrefused
  rw [hbase]
  by_cases hshort : ∀ a ∈ copied script args, a.str.length < 0x7fffffff
  · refine iff_of_true ?_ (.inl hshort)
    obtain ⟨hroom, hnone⟩ := copyargs_short (copied script args) hshort hpushed hge
    rw [Passes, sysexec_eq]
    by_cases hle : bytes ((copied script args).map Arg.str) ≤
        (begun x mem script).stack - (TSTKTOP - USTKSIZE)
    · obtain ⟨st', hrun, hst'⟩ := hroom hle
      rw [hrun, bind_some]
      refine ⟨fun hfit => laid_of_pushed hst' hfit, fun hfit => pushvector_error.mpr ?_⟩
      have hargc := hst'.argc
      have hstack' := hst'.stack
      rw [Fits, not_and_or] at hfit
      rw [Refused]
      rw [tstktop_eq, ustksize_eq] at *
      change st'.argc = (passed script args).length at hargc
      change st'.stack + bytes (passed script args) = _ at hstack'
      have hbase' : 0x7fffffe00000 - x.sizeofTos - bytes (passed script args) = st'.stack := by omega
      rw [hbase'] at hfit
      omega
    · rw [hnone hle]
      refine ⟨fun hfit => absurd hfit (not_fits ?_), fun _ => rfl⟩
      rw [passed, bytes_append]
      rw [tstktop_eq, ustksize_eq] at *
      omega
  · have hnot : ¬Fits x (passed script args) := by
      simp only [not_forall, not_lt] at hshort
      obtain ⟨a, ha, hlong⟩ := hshort
      refine not_fits ?_
      have hmem : a.str.length + 1 ∈ ((copied script args).map Arg.str).map fun s => s.length + 1 :=
        List.mem_map.mpr ⟨a.str, List.mem_map.mpr ⟨a, ha, rfl⟩, rfl⟩
      have hle := le_sum_of_mem hmem
      rw [passed, bytes_append, bytes, ustksize_eq]
      change _ < _ + ((copied script args).map Arg.str |>.map fun s => s.length + 1).sum
      omega
    rw [or_iff_right hshort]
    constructor
    · exact fun h => hrefused.mp (h.2 hnot)
    · exact fun h => ⟨fun hfit => absurd hfit hnot, fun _ => hrefused.mpr h⟩

/-- A string of `n` ones. -/
def ones (n : Nat) : Str where
  bytes := List.replicate n 1
  noNul h := absurd (eq_of_mem_replicate h) (by decide)

theorem ones_length (n : Nat) : (ones n).length = n := length_replicate

/-- Memory with ones up to an address. -/
def onesTo (e : Nat) : Nat → UInt8 := fun y => if y < e then 1 else 0

/-- The string from an address up to there. -/
def onesArg (a n : Nat) (h : a + n < 2 ^ 47) : Arg (onesTo (a + n)) where
  addr := a
  str := ones n
  low := by rwa [ones_length]
  held := fun j hj => by
    rw [length_cbytes, ones_length] at hj
    rw [onesTo, cbytes, ones]
    by_cases hlt : j < n
    · rw [if_pos (by omega), List.getD_append _ _ _ _ (by rwa [length_replicate]), getD_replicate _ hlt]
    · have hend : j = (List.replicate n (1 : UInt8)).length := by
        rw [length_replicate]
        omega
      rw [if_neg (by omega), getD_append_right _ _ _ _ (Nat.le_of_eq hend.symm), ← hend, Nat.sub_self]
      rfl

/-- 2 GiB of ones, from where an `int` makes 4095 of minus their address. -/
def longArg : Arg (onesTo (0x2fffff002 + 2 ^ 31)) := onesArg 0x2fffff002 (2 ^ 31) (by decide)

theorem taken_long : taken (onesTo (0x2fffff002 + 2 ^ 31)) 0x2fffff002 = some 4095 := by
  obtain ⟨calls, t, hrun, hends⟩ :=
    UserAddr.vmemchr_spec (onesTo (0x2fffff002 + 2 ^ 31)) 0 0x2fffff002 0x7fffffff
      (by decide) (by decide) (by decide)
  have hones : ∀ y, y < 0x2fffff002 + 0x7fffffff → onesTo (0x2fffff002 + 2 ^ 31) y ≠ 0 := fun y hy => by
    rw [onesTo, if_pos (by omega)]
    decide
  have ht : t = none := by
    rcases hends with ⟨hfirst, -, -⟩ | ⟨hover, -, -⟩
    · cases t with
      | none => rfl
      | some t => exact absurd hfirst.2.2.1 (hones t hfirst.2.1)
    · exact absurd hover.2 (by decide)
  have hn : ((0x7fffffff : Nat) : Int) = 0x7fffffff := rfl
  rw [hn] at hrun
  rw [taken, hrun, ht, map_some, getD_none]
  decide

theorem longArg_not_fits (x : Params) : ¬Fits x (passed none [longArg]) := by
  have hlen : longArg.str.length = 2 ^ 31 := ones_length _
  refine not_fits ?_
  have hlist : passed none [longArg] = [longArg.str] := rfl
  rw [hlist, bytes_cons, hlen, ustksize_eq]
  omega

/-- **The long string is taken for one of 4095 bytes**, and not refused. -/
theorem longArg_passes_cut :
    ¬Passes ⟨72, 0x200000, by decide, by decide⟩ (onesTo (0x2fffff002 + 2 ^ 31)) (fun _ => 0) none
      [longArg] := by
  intro h
  have herror := h.2 (longArg_not_fits _)
  have hlist : (copied none [longArg]).map Arg.addr = [0x2fffff002] := rfl
  rw [sysexec_eq, hlist, refused_iff _ fun a ha => by rw [List.mem_singleton.mp ha]; decide] at herror
  rw [map_singleton, taken_long, getD_some, Refused, Refused] at herror
  have hstack : (begun ⟨72, 0x200000, by decide, by decide⟩ (fun _ => 0) none).stack =
      0x7fffffe00000 - 72 := rfl
  have hargc : (begun ⟨72, 0x200000, by decide, by decide⟩ (fun _ => 0) none).argc = 0 := rfl
  rw [hstack, hargc, tstktop_eq, ustksize_eq] at herror
  dsimp only at herror
  omega

end ExecStack
