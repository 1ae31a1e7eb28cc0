import Mathlib

/-!
# Reassembly queues

`ip6reassemble` is a copy of `ip4reassemble`, and this file holds what they have in common:
the table of reassembly queues, the search for the queue of a fragment, the place of a
fragment in its queue with the treatment of overlaps, and the test for a complete packet.
What a block is, how its headers are moved up (`up`) and where it says that more fragments
follow (`more`) are parameters.
-/

namespace Reassembly

open List

/-- A block on a reassembly queue with its `struct Ipfrag`. -/
structure Frag (β : Type) where
  foff : Nat
  flen : Nat
  blk : β
  deriving DecidableEq, Repr

variable {β κ π : Type}

/-- "Take completely covered segments out"; one that is covered in part has its headers
moved up.  `foff` is a `ushort`. -/
def trimAfter (up : Nat → β → β) (fend : Nat) : List (Frag β) → List (Frag β)
  | [] => []
  | b :: t =>
    let ovlap := fend - b.foff
    if fend ≤ b.foff then b :: t
    else if ovlap < b.flen then
      ⟨(b.foff + ovlap) % 2 ^ 16, b.flen - ovlap, up ovlap b.blk⟩ :: t
    else trimAfter up fend t

/-- "find the new fragment's position in the queue", check the overlap with the previous
one and link it; `none` when the previous one covers it and it is freed. -/
def link (up : Nat → β → β) (blist : List (Frag β)) (bp : Frag β) : Option (List (Frag β)) :=
  let before := blist.takeWhile fun bl => bl.foff < bp.foff
  let after := blist.dropWhile fun bl => bl.foff < bp.foff
  let rest := bp :: trimAfter up (bp.foff + bp.flen) after
  match before.getLast? with
  | none => some rest
  | some prev =>
    let ovlap := prev.foff + prev.flen - bp.foff
    if ovlap = 0 then some (before ++ rest)
    else if bp.flen ≤ ovlap then none
    else some (before.dropLast ++ { prev with flen := prev.flen - ovlap } :: rest)

/-- "look for a complete packet.  if we get to a fragment without IP_MF set, we're done". -/
def complete (more : β → Bool) (pktposn : Nat) : List (Frag β) → Bool
  | [] => false
  | bl :: t =>
    if bl.foff ≠ pktposn then false
    else if more bl.blk then complete more (pktposn + bl.flen) t
    else true

/-- A `struct Fragment4` or `Fragment6` in use. -/
structure FragQueue (κ β : Type) where
  key : κ
  age : Nat
  blist : List (Frag β)

/-- The queues in use; of the `size` there are, the others are on the free list. -/
structure Table (κ β : Type) where
  size : Nat
  flist : List (FragQueue κ β)

/-- "find a reassembly queue for this fragment": what is kept in front of it, the queue,
and what is behind it.  Queues on the way that have timed out are freed. -/
def find [DecidableEq κ] (now : Nat) (key : κ) :
    List (FragQueue κ β) → List (FragQueue κ β) × Option (FragQueue κ β) × List (FragQueue κ β)
  | [] => ([], none, [])
  | f :: t =>
    if f.key = key then ([], some f, t)
    else
      let (pre, r, post) := find now key t
      if f.age < now then (pre, r, post) else (f :: pre, r, post)

/-- What becomes of a fragment: it is returned as it is, kept (nil is returned), or it
completes a packet. -/
inductive Outcome (β : Type)
  | passed
  | held
  | done (blist : List (Frag β))

/-- The common body of `ip4reassemble` and `ip6reassemble`.  `single` says that this is not
a fragmented packet.  When no queue is free the last one in use is. -/
def enter [DecidableEq κ] (up : Nat → β → β) (more : β → Bool) (tab : Table κ β) (now : Nat)
    (key : κ) (single : Bool) (bp : Frag β) : Table κ β × Outcome β :=
  let (pre, f, post) := find now key tab.flist
  if single then ({ tab with flist := pre ++ post }, .passed)
  else
    match f with
    | none =>
      let flist := pre ++ post
      let used := if tab.size ≤ flist.length then flist.dropLast else flist
      ({ tab with flist := ⟨key, now + 30000, [bp]⟩ :: used }, .held)
    | some f =>
      match link up f.blist bp with
      | none => ({ tab with flist := pre ++ f :: post }, .held)
      | some blist =>
        if complete more 0 blist then ({ tab with flist := pre ++ post }, .done blist)
        else ({ tab with flist := pre ++ { f with blist } :: post }, .held)

/-- The fragments cover the bytes from `a` to `n`, in order and without overlap. -/
def Tiles (a : Nat) : List (Frag β) → Nat → Prop
  | [], n => a = n
  | b :: t, n => b.foff = a ∧ 0 < b.flen ∧ Tiles (a + b.flen) t n

variable {a b n : Nat} {L R : List (Frag β)} {p : Frag β} {S : Nat → Bool}

theorem Tiles.le (h : Tiles a L n) : a ≤ n := by
  induction L generalizing a with
  | nil => exact Nat.le_of_eq h
  | cons c t ih =>
    obtain ⟨_, _, ht⟩ := h
    have hle := ih ht
    omega

/-- A tiling that ends where it starts is empty. -/
theorem Tiles.eq_nil (h : Tiles a L a) : L = [] := by
  cases L with
  | nil => rfl
  | cons c t =>
    obtain ⟨_, hpos, ht⟩ := h
    have hle := ht.le
    omega

theorem tiles_append : Tiles a (L ++ R) n ↔ ∃ m, Tiles a L m ∧ Tiles m R n := by
  induction L generalizing a with
  | nil => simp [Tiles]
  | cons c t ih =>
    simp only [cons_append, Tiles, ih]
    constructor
    · rintro ⟨hoff, hpos, m, ht, hr⟩
      exact ⟨m, ⟨hoff, hpos, ht⟩, hr⟩
    · rintro ⟨m, ⟨hoff, hpos, ht⟩, hr⟩
      exact ⟨hoff, hpos, m, ht, hr⟩

theorem Tiles.mem (h : Tiles a L n) (hp : p ∈ L) : a ≤ p.foff ∧ p.foff + p.flen ≤ n ∧ 0 < p.flen := by
  induction L generalizing a with
  | nil => cases hp
  | cons c t ih =>
    obtain ⟨hoff, hpos, ht⟩ := h
    have hle := ht.le
    rcases mem_cons.mp hp with rfl | hp
    · omega
    · have hmem := ih ht hp
      omega

theorem Tiles.sorted (h : Tiles a L n) : L.Pairwise fun c d => c.foff < d.foff := by
  induction L generalizing a with
  | nil => exact List.Pairwise.nil
  | cons c t ih =>
    obtain ⟨hoff, hpos, ht⟩ := h
    refine pairwise_cons.mpr ⟨?_, ih ht⟩
    intro d hd
    have hmem := ht.mem hd
    omega

theorem trimAfter_of_le (up : Nat → β → β) {fend : Nat} (h : ∀ c ∈ L, fend ≤ c.foff) :
    trimAfter up fend L = L := by
  cases L with
  | nil => rfl
  | cons c t =>
    have hc := h c mem_cons_self
    simp [trimAfter, hc]

theorem span_append {f : Frag β → Bool} (hL : ∀ c ∈ L, f c = true)
    (hR : ∀ c ∈ R, f c = false) : (L ++ R).takeWhile f = L ∧ (L ++ R).dropWhile f = R := by
  induction L with
  | nil =>
    cases R with
    | nil => simp
    | cons c t =>
      have hc := hR c mem_cons_self
      simp [hc]
  | cons c t ih =>
    have hc := hL c mem_cons_self
    have ht := ih (fun d hd => hL d (mem_cons_of_mem _ hd))
    simp [hc, ht]

/-- A fragment goes to its place; one that is there already is replaced by itself. -/
theorem link_filter (up : Nat → β → β) (hL : Tiles a L n) (hp : p ∈ L) :
    link up (L.filter fun c => S c.foff) p =
      some (L.filter fun c => S c.foff || c.foff == p.foff) := by
  obtain ⟨A, B, rfl⟩ := append_of_mem hp
  obtain ⟨m, hA, hpos, hlen, hB⟩ := tiles_append.mp hL
  have hbefore : ∀ c ∈ A, c.foff + c.flen ≤ p.foff ∧ 0 < c.flen := by
    intro c hc
    have hmem := hA.mem hc
    omega
  have hafter : ∀ c ∈ B, p.foff + p.flen ≤ c.foff := by
    intro c hc
    have hmem := hB.mem hc
    omega
  -- the new filter keeps what was there, and the fragment
  have hAf : (A.filter fun c => S c.foff || c.foff == p.foff) = A.filter fun c => S c.foff := by
    apply filter_congr
    intro c hc
    have hne : c.foff ≠ p.foff := by
      have hlt := hbefore c hc
      omega
    simp [hne]
  have hBf : (B.filter fun c => S c.foff || c.foff == p.foff) = B.filter fun c => S c.foff := by
    apply filter_congr
    intro c hc
    have hne : c.foff ≠ p.foff := by
      have hlt := hafter c hc
      omega
    simp [hne]
  have hnew : ((A ++ p :: B).filter fun c => S c.foff || c.foff == p.foff) =
      (A.filter fun c => S c.foff) ++ p :: B.filter fun c => S c.foff := by
    rw [filter_append, filter_cons, hAf, hBf]
    simp
  rw [hnew]
  have htrim : trimAfter up (p.foff + p.flen) ((p :: B).filter fun c => S c.foff) =
      B.filter fun c => S c.foff := by
    have hB' : trimAfter up (p.foff + p.flen) (B.filter fun c => S c.foff) =
        B.filter fun c => S c.foff :=
      trimAfter_of_le up (fun c hc => hafter c (mem_of_mem_filter hc))
    rw [filter_cons]
    split
    · have hnot : ¬ p.foff + p.flen ≤ p.foff := by omega
      simp [trimAfter, hnot, hB']
    · exact hB'
  have hsplit := span_append (f := fun bl => decide (bl.foff < p.foff))
    (L := A.filter fun c => S c.foff) (R := (p :: B).filter fun c => S c.foff) ?_ ?_
  · rw [filter_append, link]
    simp only [hsplit.1, hsplit.2, htrim]
    cases hlast : (A.filter fun c => S c.foff).getLast? with
    | none =>
      rw [List.getLast?_eq_none_iff.mp hlast]
      rfl
    | some prev =>
      have hprev := hbefore prev (mem_of_mem_filter (mem_of_getLast? hlast))
      have hzero : prev.foff + prev.flen - p.foff = 0 := by omega
      simp [hzero]
  · intro c hc
    have hlt := hbefore c (mem_of_mem_filter hc)
    simp only [decide_eq_true_eq]
    omega
  · intro c hc
    simp only [decide_eq_false_iff_not, Nat.not_lt]
    rcases mem_cons.mp (mem_of_mem_filter hc) with rfl | hcB
    · exact Nat.le_refl _
    · have hle := hafter c hcB
      omega

/-- A queue with some of the fragments is complete when it has them all. -/
theorem complete_filter {more : β → Bool} (hL : Tiles a L n) (hne : L ≠ [])
    (hmore : ∀ c ∈ L, more c.blk = decide (c.foff + c.flen < n)) :
    complete more a (L.filter fun c => S c.foff) = true ↔ ∀ c ∈ L, S c.foff = true := by
  induction L generalizing a with
  | nil => exact (hne rfl).elim
  | cons c t ih =>
    obtain ⟨hoff, hpos, ht⟩ := hL
    have hmc := hmore c mem_cons_self
    have hmt : ∀ d ∈ t, more d.blk = decide (d.foff + d.flen < n) :=
      fun d hd => hmore d (mem_cons_of_mem _ hd)
    rw [filter_cons, forall_mem_cons]
    by_cases hc : S c.foff = true
    · rw [if_pos hc]
      simp only [complete, hoff, ne_eq, not_true_eq_false, if_false]
      by_cases hend : a + c.flen = n
      · -- the last fragment
        have hnil : t = [] := by
          rw [hend] at ht
          exact ht.eq_nil
        have hlast : more c.blk = false := by
          rw [hmc]
          simp only [decide_eq_false_iff_not]
          omega
        subst hnil
        simp [hlast, ← hoff, hc]
      · have hle := ht.le
        have hmid : more c.blk = true := by
          rw [hmc]
          simp only [decide_eq_true_eq]
          omega
        have hnil : t ≠ [] := by
          rintro rfl
          exact hend ht
        rw [if_pos hmid, ih ht hnil hmt]
        simp [← hoff, hc]
    · -- the queue starts behind the fragment that is missing
      have hfalse : complete more a (t.filter fun c => S c.foff) = false := by
        cases hf : t.filter fun c => S c.foff with
        | nil => rfl
        | cons d u =>
          have hd : d ∈ t := mem_of_mem_filter (hf ▸ mem_cons_self)
          have hge := ht.mem hd
          have hneq : d.foff ≠ a := by omega
          simp [complete, hneq]
      rw [if_neg hc, hfalse]
      simp [hc]

section Table

variable [DecidableEq κ] {tab : Table κ β} {key : κ} {l : List (FragQueue κ β)}

/-- There is no queue for `key`. -/
def Absent (tab : Table κ β) (key : κ) : Prop := ∀ f ∈ tab.flist, f.key ≠ key

/-- The queue for `key` holds `blist`. -/
def Holding (tab : Table κ β) (key : κ) (blist : List (Frag β)) : Prop :=
  ∃ pre f post, tab.flist = pre ++ f :: post ∧ (∀ g ∈ pre ++ post, g.key ≠ key) ∧ f.key = key ∧
    f.blist = blist

theorem find_absent (now : Nat) (h : ∀ f ∈ l, f.key ≠ key) :
    ∃ pre, find now key l = (pre, none, []) ∧ ∀ g ∈ pre, g.key ≠ key := by
  induction l with
  | nil => exact ⟨[], rfl, by simp⟩
  | cons f t ih =>
    obtain ⟨pre, hfind, hpre⟩ := ih (fun g hg => h g (mem_cons_of_mem _ hg))
    have hf := h f mem_cons_self
    by_cases hage : f.age < now
    · exact ⟨pre, by simp [find, hf, hfind, hage], hpre⟩
    · refine ⟨f :: pre, by simp [find, hf, hfind, hage], ?_⟩
      exact forall_mem_cons.mpr ⟨hf, hpre⟩

theorem find_holding (now : Nat) {pre : List (FragQueue κ β)} {f : FragQueue κ β}
    (post : List (FragQueue κ β)) (hpre : ∀ g ∈ pre, g.key ≠ key) (hf : f.key = key) :
    ∃ pre', find now key (pre ++ f :: post) = (pre', some f, post) ∧ ∀ g ∈ pre', g.key ≠ key := by
  induction pre with
  | nil => exact ⟨[], by simp [find, hf], by simp⟩
  | cons g t ih =>
    obtain ⟨pre', hfind, hkeys⟩ := ih (fun d hd => hpre d (mem_cons_of_mem _ hd))
    have hg := hpre g mem_cons_self
    by_cases hage : g.age < now
    · exact ⟨pre', by simp [find, hg, hfind, hage], hkeys⟩
    · refine ⟨g :: pre', by simp [find, hg, hfind, hage], ?_⟩
      exact forall_mem_cons.mpr ⟨hg, hkeys⟩

/-- The first fragment to arrive gets a queue. -/
theorem enter_absent (up : Nat → β → β) (more : β → Bool) (now : Nat) (h : Absent tab key)
    (bp : Frag β) :
    ∃ tab', enter up more tab now key false bp = (tab', .held) ∧ Holding tab' key [bp] := by
  obtain ⟨pre, hfind, hpre⟩ := find_absent now h
  refine ⟨_, by simp only [enter, hfind]; rfl, [], _, _, rfl, ?_, rfl, rfl⟩
  intro g hg
  apply hpre
  rw [nil_append, append_nil] at hg
  split at hg
  · exact dropLast_subset pre hg
  · exact hg

/-- A further fragment goes on the queue; the packet is complete when all have arrived. -/
theorem enter_holding (up : Nat → β → β) (more : β → Bool) (now : Nat)
    (hL : Tiles 0 L n) (hmore : ∀ c ∈ L, more c.blk = decide (c.foff + c.flen < n))
    (h : Holding tab key (L.filter fun c => S c.foff)) (hp : p ∈ L) :
    ∃ tab', if ∀ c ∈ L, (S c.foff || c.foff == p.foff) = true then
        enter up more tab now key false p = (tab', .done L) ∧ Absent tab' key
      else enter up more tab now key false p = (tab', .held) ∧
        Holding tab' key (L.filter fun c => S c.foff || c.foff == p.foff) := by
  obtain ⟨pre, f, post, hlist, hkeys, hkey, hblist⟩ := h
  obtain ⟨hpre, hpost⟩ := forall_mem_append.mp hkeys
  obtain ⟨pre', hfind, hpre'⟩ := find_holding now post hpre hkey
  have hkeys' := forall_mem_append.mpr ⟨hpre', hpost⟩
  have hlink := link_filter (S := S) up hL hp
  have hne : L ≠ [] := ne_nil_of_mem hp
  have hdone := complete_filter (S := fun i => S i || i == p.foff) hL hne hmore
  split
  · next hall =>
      have hfull : (L.filter fun c => S c.foff || c.foff == p.foff) = L :=
        filter_eq_self.mpr hall
      have hcomplete := hdone.mpr hall
      rw [hfull] at hcomplete hlink
      refine ⟨{ tab with flist := pre' ++ post }, ?_, hkeys'⟩
      simp only [enter, hlist, hfind, hblist, hlink, hcomplete]
      rfl
  · next hall =>
      have hpart : complete more 0 (L.filter fun c => S c.foff || c.foff == p.foff) = false :=
        Bool.eq_false_iff.mpr (fun htrue => hall (hdone.mp htrue))
      refine ⟨{ tab with flist := pre' ++ { f with
        blist := L.filter fun c => S c.foff || c.foff == p.foff } :: post }, ?_, ?_⟩
      · simp only [enter, hlist, hfind, hblist, hlink, hpart]
        rfl
      · exact ⟨pre', _, post, rfl, hkeys', hkey, rfl⟩

/-- What is read from a packet that arrives: the key of its queue, whether it is not a
fragment, and where it belongs. -/
structure View (κ β : Type) where
  key : κ
  single : Bool
  frag : Frag β

/-- Packets that arrive one after the other, each with the time. -/
def feed (up : Nat → β → β) (more : β → Bool) (view : π → View κ β) :
    Table κ β → List (Nat × π) → Table κ β × List (Outcome β)
  | tab, [] => (tab, [])
  | tab, (now, p) :: t =>
    let (tab, o) := enter up more tab now (view p).key (view p).single (view p).frag
    let (tab, os) := feed up more view tab t
    (tab, o :: os)

variable {up : Nat → β → β} {more : β → Bool} {view : π → View κ β} {ps : List π}
  {xs : List (Nat × π)}

theorem feed_append (ys : List (Nat × π)) (tab : Table κ β) :
    feed up more view tab (xs ++ ys) =
      ((feed up more view (feed up more view tab xs).1 ys).1,
        (feed up more view tab xs).2 ++ (feed up more view (feed up more view tab xs).1 ys).2) := by
  induction xs generalizing tab with
  | nil => rfl
  | cons x t ih =>
    obtain ⟨now, p⟩ := x
    simp only [cons_append, feed, ih]

theorem length_feed (xs : List (Nat × π)) (tab : Table κ β) :
    (feed up more view tab xs).2.length = xs.length := by
  induction xs generalizing tab with
  | nil => rfl
  | cons x t ih =>
    obtain ⟨now, p⟩ := x
    simp only [feed, length_cons, ih]

/-- All packets have arrived. -/
def Seen (ps : List π) (xs : List (Nat × π)) : Prop := ∀ p ∈ ps, ∃ x ∈ xs, x.2 = p

/-- The packets are the fragments of one packet of `n` bytes, at least two of them. -/
structure Cuts (more : β → Bool) (view : π → View κ β) (key : κ) (n : Nat) (ps : List π) :
    Prop where
  tiles : Tiles 0 (ps.map fun p => (view p).frag) n
  more : ∀ p ∈ ps, more (view p).frag.blk = decide ((view p).frag.foff + (view p).frag.flen < n)
  key : ∀ p ∈ ps, (view p).key = key
  single : ∀ p ∈ ps, (view p).single = false
  two : 2 ≤ ps.length

/-- The offsets that have arrived. -/
def seen (view : π → View κ β) (xs : List (Nat × π)) (i : Nat) : Bool :=
  xs.any fun x => (view x.2).frag.foff == i

omit [DecidableEq κ] in
theorem Cuts.inj (h : Cuts more view key n ps) {p q : π} (hp : p ∈ ps) (hq : q ∈ ps)
    (heq : (view p).frag.foff = (view q).frag.foff) : p = q := by
  have htiles := h.tiles
  clear h
  generalize 0 = a at htiles
  induction ps generalizing a with
  | nil => cases hp
  | cons c t ih =>
    simp only [map_cons, Tiles] at htiles
    obtain ⟨hoff, hpos, ht⟩ := htiles
    rcases mem_cons.mp hp with rfl | hpt
    · rcases mem_cons.mp hq with rfl | hqt
      · rfl
      · have hmem := ht.mem (mem_map_of_mem hqt)
        omega
    · rcases mem_cons.mp hq with rfl | hqt
      · have hmem := ht.mem (mem_map_of_mem hpt)
        omega
      · exact ih hpt hqt _ ht

omit [DecidableEq κ] in
theorem Cuts.seen_iff (h : Cuts more view key n ps) (hxs : ∀ x ∈ xs, x.2 ∈ ps) :
    (∀ c ∈ ps.map (fun p => (view p).frag), seen view xs c.foff = true) ↔ Seen ps xs := by
  simp only [forall_mem_map, seen, any_eq_true, beq_iff_eq]
  constructor
  · intro hall p hp
    obtain ⟨x, hx, heq⟩ := hall p hp
    exact ⟨x, hx, h.inj (hxs x hx) hp heq⟩
  · intro hall p hp
    obtain ⟨x, hx, rfl⟩ := hall p hp
    exact ⟨x, hx, rfl⟩

omit [DecidableEq κ] in
/-- One arrival is not all of them. -/
theorem Cuts.not_seen_one (h : Cuts more view key n ps) (x : Nat × π) : ¬ Seen ps [x] := by
  intro hall
  have htwo := h.two
  have htiles := h.tiles
  match ps, htwo with
  | p :: q :: t, _ =>
    have hp : x.2 = p := by simpa [Seen] using hall p (by simp)
    have hq : x.2 = q := by simpa [Seen] using hall q (by simp)
    obtain ⟨hoff, hpos, hoff', _⟩ := htiles
    rw [← hp] at hoff hpos hoff'
    rw [← hq] at hoff'
    omega

omit [DecidableEq κ] in
theorem seen_append_one (x : Nat × π) (i : Nat) :
    seen view (xs ++ [x]) i = (seen view xs i || i == (view x.2).frag.foff) := by
  simp [seen, Bool.beq_comm]

/-- While fragments are missing, every arrival is kept and the queue holds those seen. -/
theorem Cuts.feed_held (up : Nat → β → β) (h : Cuts more view key n ps) (habs : Absent tab key)
    (hxs : ∀ x ∈ xs, x.2 ∈ ps) (hmiss : ¬ Seen ps xs) :
    (feed up more view tab xs).2 = List.replicate xs.length .held ∧
    (xs ≠ [] → Holding (feed up more view tab xs).1 key
      ((ps.map fun p => (view p).frag).filter fun c => seen view xs c.foff)) := by
  induction xs using List.reverseRecOn with
  | nil => simp [feed]
  | append_singleton xs x ih =>
    have hxps : x.2 ∈ ps := hxs x (by simp)
    have hxs' : ∀ y ∈ xs, y.2 ∈ ps := fun y hy => hxs y (by simp [hy])
    have hmiss' : ¬ Seen ps xs := by
      intro hall
      apply hmiss
      intro p hp
      obtain ⟨y, hy, heq⟩ := hall p hp
      exact ⟨y, by simp [hy], heq⟩
    obtain ⟨hout, hhold⟩ := ih hxs' hmiss'
    have hkey := h.key x.2 hxps
    have hsingle := h.single x.2 hxps
    have hmem : (view x.2).frag ∈ ps.map fun p => (view p).frag := mem_map_of_mem hxps
    -- what the last arrival does
    have hlast : ∃ tab', enter up more (feed up more view tab xs).1 x.1 key false (view x.2).frag =
        (tab', .held) ∧ Holding tab' key ((ps.map fun p => (view p).frag).filter fun c =>
          seen view (xs ++ [x]) c.foff) := by
      simp only [seen_append_one]
      cases hnil : xs with
      | nil =>
        obtain ⟨tab', henter, hh⟩ := enter_absent up more x.1 habs (view x.2).frag
        have hone := link_filter (S := fun _ => false) up h.tiles hmem
        have hnone : ((ps.map fun p => (view p).frag).filter fun _ => false) = [] := by simp
        simp only [hnone, link, takeWhile_nil, dropWhile_nil, List.getLast?_nil,
          trimAfter, Option.some.injEq, Bool.false_or] at hone
        refine ⟨tab', henter, ?_⟩
        simp only [seen, any_nil, Bool.false_or]
        rw [← hone]
        exact hh
      | cons y t =>
        have hh := hhold (by simp [hnil])
        rw [← hnil]
        obtain ⟨tab', hcase⟩ := enter_holding up more x.1 h.tiles
          (by simpa using h.more) hh hmem
        have hnot : ¬ ∀ c ∈ ps.map (fun p => (view p).frag),
            (seen view xs c.foff || c.foff == (view x.2).frag.foff) = true := by
          simp only [← seen_append_one]
          exact fun hall => hmiss ((h.seen_iff hxs).mp hall)
        rw [if_neg hnot] at hcase
        exact ⟨tab', hcase⟩
    obtain ⟨tab', henter, hh⟩ := hlast
    have hfeed : feed up more view (feed up more view tab xs).1 [x] = (tab', [.held]) := by
      obtain ⟨now, p⟩ := x
      simp only [feed, hkey, hsingle, henter]
    rw [feed_append, hfeed]
    refine ⟨?_, fun _ => hh⟩
    simp only [hout, length_append, length_singleton, replicate_succ']

/-- **Reassembly.**  The arrival that makes the fragments complete yields them all, in
order; before it nothing is returned, and after it the queue is gone. -/
theorem Cuts.feed_done (up : Nat → β → β) (h : Cuts more view key n ps) (habs : Absent tab key)
    (x : Nat × π) (hxs : ∀ y ∈ xs ++ [x], y.2 ∈ ps) (hmiss : ¬ Seen ps xs)
    (hall : Seen ps (xs ++ [x])) :
    (feed up more view tab (xs ++ [x])).2 =
      List.replicate xs.length .held ++ [.done (ps.map fun p => (view p).frag)] ∧
    Absent (feed up more view tab (xs ++ [x])).1 key := by
  have hxps : x.2 ∈ ps := hxs x (by simp)
  have hxs' : ∀ y ∈ xs, y.2 ∈ ps := fun y hy => hxs y (by simp [hy])
  obtain ⟨hout, hhold⟩ := h.feed_held up habs hxs' hmiss
  have hne : xs ≠ [] := by
    rintro rfl
    exact h.not_seen_one x hall
  have hkey := h.key x.2 hxps
  have hsingle := h.single x.2 hxps
  have hmem : (view x.2).frag ∈ ps.map fun p => (view p).frag := mem_map_of_mem hxps
  obtain ⟨tab', hcase⟩ := enter_holding up more x.1 h.tiles (by simpa using h.more) (hhold hne) hmem
  have hseen : ∀ c ∈ ps.map (fun p => (view p).frag),
      (seen view xs c.foff || c.foff == (view x.2).frag.foff) = true := by
    simp only [← seen_append_one]
    exact (h.seen_iff hxs).mpr hall
  rw [if_pos hseen] at hcase
  have hfeed : feed up more view (feed up more view tab xs).1 [x] =
      (tab', [.done (ps.map fun p => (view p).frag)]) := by
    obtain ⟨now, p⟩ := x
    simp only [feed, hkey, hsingle, hcase.1]
  rw [feed_append, hfeed, hout]
  exact ⟨rfl, hcase.2⟩

/-- Each fragment once, in any order. -/
theorem Cuts.feed_perm (up : Nat → β → β) (h : Cuts more view key n ps) (habs : Absent tab key)
    (hperm : (xs.map Prod.snd).Perm ps) :
    (feed up more view tab xs).2 =
      List.replicate (xs.length - 1) .held ++ [.done (ps.map fun p => (view p).frag)] := by
  have hnodup : (xs.map Prod.snd).Nodup := by
    have hsorted := pairwise_map.mp h.tiles.sorted
    have hps : ps.Nodup := hsorted.imp (fun hlt heq => by rw [heq] at hlt; omega)
    exact hperm.nodup_iff.mpr hps
  have htwo := h.two
  induction xs using List.reverseRecOn with
  | nil =>
    have hlen := hperm.length_eq
    simp only [map_nil, length_nil] at hlen
    omega
  | append_singleton xs x _ =>
    have hxs : ∀ y ∈ xs ++ [x], y.2 ∈ ps :=
      fun y hy => hperm.mem_iff.mp (mem_map_of_mem hy)
    have hall : Seen ps (xs ++ [x]) :=
      fun p hp => mem_map.mp (hperm.mem_iff.mpr hp)
    have hmiss : ¬ Seen ps xs := by
      intro hseen
      obtain ⟨y, hy, heq⟩ := hseen x.2 (hxs x (by simp))
      rw [map_append, nodup_append] at hnodup
      exact hnodup.2.2 y.2 (mem_map_of_mem hy) x.2 (by simp) heq
    rw [(h.feed_done up habs x hxs hmiss hall).1]
    simp

/-- A fragment behind all others goes to the end of the queue; it is kept as it is, and the
others keep their offsets. -/
theorem link_above (up : Nat → β → β) (habove : ∀ c ∈ L, c.foff < p.foff) {blist : List (Frag β)}
    (hlink : link up L p = some blist) :
    ∃ pre, blist = pre ++ [p] ∧ ∀ c ∈ pre, c.foff < p.foff := by
  have hsplit := span_append (f := fun bl => decide (bl.foff < p.foff)) (L := L) (R := [])
    (by simpa using habove) (by simp)
  rw [append_nil] at hsplit
  simp only [link, hsplit.1, hsplit.2, trimAfter] at hlink
  split at hlink
  · next hnone =>
      rw [List.getLast?_eq_none_iff.mp hnone] at habove
      cases hlink
      exact ⟨[], rfl, habove⟩
  · next prev hprev =>
      split at hlink
      · cases hlink
        exact ⟨L, rfl, habove⟩
      · split at hlink
        · cases hlink
        · cases hlink
          refine ⟨L.dropLast ++ [{ prev with flen := _ }], by simp; rfl, ?_⟩
          intro c hc
          rcases mem_append.mp hc with hc | hc
          · exact habove c (dropLast_subset L hc)
          · rw [mem_singleton.mp hc]
            exact habove prev (mem_of_getLast? hprev)

/-- Every fragment on the queue for `key` has an offset below `bound`. -/
def Below (tab : Table κ β) (key : κ) (bound : Nat) : Prop :=
  Absent tab key ∨ ∃ blist, Holding tab key blist ∧ ∀ c ∈ blist, c.foff < bound

/-- A fragment behind all others, if it completes the packet, is the last one in it. -/
theorem enter_above (up : Nat → β → β) (more : β → Bool) (now : Nat)
    (h : Below tab key p.foff) :
    ∃ tab' o, enter up more tab now key false p = (tab', o) ∧ Below tab' key (p.foff + 1) ∧
      (o = .held ∨ ∃ pre, o = .done (pre ++ [p]) ∧ complete more 0 (pre ++ [p]) = true) := by
  rcases h with habs | ⟨blist, ⟨pre, f, post, hlist, hkeys, hkey, rfl⟩, habove⟩
  · obtain ⟨tab', henter, hhold⟩ := enter_absent up more now habs p
    refine ⟨tab', .held, henter, Or.inr ⟨[p], hhold, ?_⟩, Or.inl rfl⟩
    simp
  · obtain ⟨hpre, hpost⟩ := forall_mem_append.mp hkeys
    obtain ⟨pre', hfind, hpre'⟩ := find_holding now post hpre hkey
    have hkeys' := forall_mem_append.mpr ⟨hpre', hpost⟩
    simp only [enter, hlist, hfind]
    cases hlink : link up f.blist p with
    | none =>
      refine ⟨_, _, rfl, Or.inr ⟨f.blist, ⟨pre', f, post, rfl, hkeys', hkey, rfl⟩, ?_⟩, Or.inl rfl⟩
      intro c hc
      have hlt := habove c hc
      omega
    | some blist =>
      obtain ⟨front, rfl, hfront⟩ := link_above up habove hlink
      by_cases hdone : complete more 0 (front ++ [p]) = true
      · refine ⟨{ tab with flist := pre' ++ post }, .done (front ++ [p]), ?_, Or.inl hkeys',
          Or.inr ⟨front, rfl, hdone⟩⟩
        simp [hdone]
      · refine ⟨{ tab with flist := pre' ++ { f with blist := front ++ [p] } :: post }, .held, ?_,
          Or.inr ⟨front ++ [p], ⟨pre', _, post, rfl, hkeys', hkey, rfl⟩, ?_⟩, Or.inl rfl⟩
        · simp [hdone]
        · intro c hc
          rcases mem_append.mp hc with hc | hc
          · have hlt := hfront c hc
            omega
          · rw [mem_singleton.mp hc]
            omega

/-- Arrivals in the order of their offsets stay in order. -/
theorem feed_below (hxs : ∀ x ∈ xs, (view x.2).key = key ∧ (view x.2).single = false)
    (hsorted : xs.Pairwise fun x y => (view x.2).frag.foff < (view y.2).frag.foff)
    (hbound : ∀ x ∈ xs, (view x.2).frag.foff < b) (habs : Absent tab key) :
    Below (feed up more view tab xs).1 key b := by
  induction xs using List.reverseRecOn generalizing b with
  | nil => exact Or.inl habs
  | append_singleton xs x ih =>
    obtain ⟨hxs', hx⟩ := forall_mem_append.mp hxs
    obtain ⟨hkey, hsingle⟩ := hx x mem_cons_self
    have hlt := hbound x (by simp)
    obtain ⟨hsorted', _, hlast⟩ := pairwise_append.mp hsorted
    have hbelow := ih hxs' hsorted' (fun y hy => hlast y hy x mem_cons_self)
    obtain ⟨tab', o, henter, hnext, _⟩ := enter_above up more x.1 hbelow
    rw [feed_append]
    obtain ⟨now, p⟩ := x
    simp only [feed, hkey, hsingle, henter]
    rcases hnext with habs' | ⟨blist, hhold, hall⟩
    · exact Or.inl habs'
    · refine Or.inr ⟨blist, hhold, ?_⟩
      intro c hc
      have hc' := hall c hc
      simp only at hlt hc'
      omega

theorem link_gap (up : Nat → β → β) (hgap : ∀ c ∈ L, c.foff + c.flen < p.foff) :
    link up L p = some (L ++ [p]) := by
  have hsplit := span_append (f := fun bl => decide (bl.foff < p.foff)) (L := L) (R := []) ?_ (by simp)
  · rw [append_nil] at hsplit
    simp only [link, hsplit.1, hsplit.2, trimAfter]
    cases hlast : L.getLast? with
    | none =>
      rw [List.getLast?_eq_none_iff.mp hlast]
      rfl
    | some prev =>
      have hprev := hgap prev (mem_of_getLast? hlast)
      have hzero : prev.foff + prev.flen - p.foff = 0 := by omega
      simp [hzero]
  · intro c hc
    have hlt := hgap c hc
    simp only [decide_eq_true_eq]
    omega

theorem complete_gap {more : β → Bool} (hgaps : L.Pairwise fun c d => c.foff + c.flen < d.foff)
    (hmore : ∀ c ∈ L, c.foff = 0 → more c.blk = true) : complete more 0 L = false := by
  cases L with
  | nil => rfl
  | cons c t =>
    by_cases hzero : c.foff = 0
    · have hc := hmore c mem_cons_self hzero
      cases t with
      | nil => simp [complete, hzero, hc]
      | cons d u =>
        have hcd := (pairwise_cons.mp hgaps).1 d mem_cons_self
        have hne : d.foff ≠ c.flen := by omega
        simp [complete, hzero, hc, hne]
    · simp [complete, hzero]

/-- With a gap behind every fragment but the last, nothing overlaps and nothing is
complete. -/
theorem feed_gaps (hxs : ∀ x ∈ xs, (view x.2).key = key ∧ (view x.2).single = false ∧
      ((view x.2).frag.foff = 0 → more (view x.2).frag.blk = true))
    (hgaps : xs.Pairwise fun x y =>
      (view x.2).frag.foff + (view x.2).frag.flen < (view y.2).frag.foff)
    (habs : Absent tab key) :
    (feed up more view tab xs).2 = List.replicate xs.length .held ∧
    (xs ≠ [] → Holding (feed up more view tab xs).1 key (xs.map fun x => (view x.2).frag)) := by
  induction xs using List.reverseRecOn with
  | nil => simp [feed]
  | append_singleton xs x ih =>
    obtain ⟨hxs', hx⟩ := forall_mem_append.mp hxs
    obtain ⟨hkey, hsingle, _⟩ := hx x mem_cons_self
    obtain ⟨hgaps', _, hlast⟩ := pairwise_append.mp hgaps
    obtain ⟨hout, hhold⟩ := ih hxs' hgaps'
    have hmap : (xs ++ [x]).map (fun x => (view x.2).frag) =
        xs.map (fun x => (view x.2).frag) ++ [(view x.2).frag] := by simp
    have hlink : link up (xs.map fun x => (view x.2).frag) (view x.2).frag =
        some ((xs ++ [x]).map fun x => (view x.2).frag) := by
      rw [hmap]
      apply link_gap
      simp only [forall_mem_map]
      exact fun y hy => hlast y hy x mem_cons_self
    have hnot : complete more 0 ((xs ++ [x]).map fun x => (view x.2).frag) = false := by
      apply complete_gap (pairwise_map.mpr hgaps)
      simp only [forall_mem_map]
      exact fun y hy => (hxs y hy).2.2
    have henter : ∃ tab', enter up more (feed up more view tab xs).1 x.1 key false (view x.2).frag =
        (tab', .held) ∧ Holding tab' key ((xs ++ [x]).map fun x => (view x.2).frag) := by
      cases hnil : xs with
      | nil => exact enter_absent up more x.1 habs (view x.2).frag
      | cons y t =>
        obtain ⟨pre, f, post, hlist, hkeys, hfkey, hblist⟩ := hhold (by simp [hnil])
        obtain ⟨hpre, hpost⟩ := forall_mem_append.mp hkeys
        obtain ⟨pre', hfind, hpre'⟩ := find_holding x.1 post hpre hfkey
        have hkeys' := forall_mem_append.mpr ⟨hpre', hpost⟩
        rw [← hnil]
        refine ⟨{ (feed up more view tab xs).1 with flist := pre' ++ { f with
          blist := (xs ++ [x]).map fun x => (view x.2).frag } :: post }, ?_, ?_⟩
        · simp only [enter, hlist, hfind, hblist, hlink, hnot]
          rfl
        · exact ⟨pre', _, post, rfl, hkeys', hfkey, rfl⟩
    obtain ⟨tab', hrun, hhold'⟩ := henter
    have hfeed : feed up more view (feed up more view tab xs).1 [x] = (tab', [.held]) := by
      obtain ⟨now, p⟩ := x
      simp only [feed, hkey, hsingle, hrun]
    rw [feed_append, hfeed]
    refine ⟨?_, fun _ => hhold'⟩
    simp only [hout, length_append, length_singleton, replicate_succ']

end Table

end Reassembly
