import NixKernel.Pullup
import NixKernel.QioStep

/-!
# Reading 9P replies off a stream

The transport of a mount is a stream: `bread` returns the next bytes of it as a list of
blocks, cut where it likes.  `mntrpcread` reads until the queue `mnt->q` holds a whole
message, pulls its header up into the first block, decodes it and takes its blocks off
the queue; the block the message ends in is split and the rest put back.

The block lists the transport has still to return are given by their first blocks, in
order; after the last one `bread` returns nil.  `convM2S` is in libc and is a parameter.
-/

namespace Mnt

open Qio HeapChain StepSystem Custody List Option
open Function (update update_self update_of_ne)

/-- `GBIT32`: four bytes, the least significant first, as the `int` they are assigned
to. -/
def gbit32 (p : List UInt8) : Int :=
  ((p.getD 3 0).toBitVec ++ (p.getD 2 0).toBitVec ++ (p.getD 1 0).toBitVec ++
    (p.getD 0 0).toBitVec).toInt

/-- The message type of a read reply. -/
def rread : UInt8 := 117

/-- The input side of a mount: the queue `mnt->q` and what `bread` will return. -/
structure Input where
  st : Qs
  wire : List Addr

/-- `doread`: false for -1. -/
def doread (s : Qs) (wire : List Addr) (len : Int) : Option (Input × Bool) :=
  match wire with
  | [] => some (⟨s, []⟩, !(s.q.dlen < len))
  | b :: wire' =>
    if s.q.dlen < len then do
      let n ← blocklen s.heap (some b)
      if n = 0 then
        let h ← freeblist s.heap (some b)
        return (⟨{ s with heap := h }, wire'⟩, false)
      else
        let s ← Qio.qaddlist s b
        doread s wire' len
    else some (⟨s, wire⟩, true)

/-- `*l = b`, for `l` the link of the block `last` or, before the first one, `r->b`. -/
def rpcLink (h : Heap) (last : Option Addr) (a : Addr) : Option Heap :=
  match last with
  | none => some h
  | some z => do
      let zb ← h z
      return update h z (some { zb with next := some a })

/-- "split block and put unused bit back": the block `a` keeps its first `n` bytes. -/
def rpcSplit (al : Allocator) (s : Qs) (a : Addr) (n : Nat) : Option Qs := do
  let b ← s.heap a
  let (na, h) ← allocb al s.heap (b.val.blen - n)
  let nb ← h na
  let h := update h na (some { nb with val := nb.val.fill (b.val.data.drop n) })
  Qio.qputback { s with heap := update h a (some { b with val := b.val.cut n }) } na

abbrev Alloc := Allocator

/-- `b = qremove(q)`, and the rest of the header off its front: the block and its buffer. -/
def rpcTake (s : Qs) (hlen : Int) : Option (Qs × Addr × Buf) := do
  let (s, p) ← Qio.qremove s
  let a ← p
  let b ← s.heap a
  let val := if 0 < hlen then b.val.pull hlen.toNat else b.val
  return ({ s with heap := update s.heap a (some { b with val }) }, a, val)

/-- "hang the data off of the fcall struct": the loop at the end of `mntrpcread`, with the
blocks from `first` to `last` in `r->b`.  Where `len` were negative `b->wp` would fall
before `b->rp`, and nothing is defined. -/
def Alloc.rpcData (al : Alloc) (s : Qs) (first last : Option Addr) (hlen len : Int) :
    Option (Qs × Option Addr) := do
  let (s, a, val) ← rpcTake s hlen
  let len := if 0 < hlen then len - hlen else len
  let first := first.or (some a)
  if val.blen ≤ len then
    let h ← rpcLink s.heap last a
    if 0 < len - val.blen then
      al |>.rpcData { s with heap := h } first (some a) 0 (len - val.blen)
    else return ({ s with heap := h }, first)
  else if len < 0 then none
  else
    let s ← rpcSplit al s a len.toNat
    let h ← rpcLink s.heap last a
    return ({ s with heap := h }, first)
partial_fixpoint

export Alloc (rpcData)

/-- What a call of `mntrpcread` leaves: the input, `r->reply` (`none` for -1) and `r->b`. -/
structure Rpc (F : Type) where
  input : Input
  reply : Option F
  b : Option Addr

/-- Where `mntrpcread` is before it looks at the type: it returns -1, or goes on with the first block and the
`len` it has read. -/
inductive Head
  | quit (m : Input)
  | parse (m : Input) (nb : Addr) (len : Int)

/-- `mntrpcread` up to the second `doread`: "read in the rest of the message, avoid ridiculous (for now) message
sizes". -/
def mntrpcHead (al : Allocator) (msize : Int) (m : Input) : Option Head := do
  -- read at least length, type, and tag and pullup to a single block
  let (m, ok) ← doread m.st m.wire 7
  if ok = false then return .quit m
  else
    let (st, nb) ← pullupqueue al m.st 7
    let nb ← nb
    let blk ← st.heap nb
    let len := gbit32 blk.val.data
    if msize < len then do
      let r ← Qio.qdiscard st st.q.dlen.toNat
      return .quit ⟨r.st, m.wire⟩
    else
      let (m, ok) ← doread st m.wire len
      if ok = false then return .quit m
      else return .parse m nb len

variable {F : Type}

/-- The rest of it: "pullup the header (i.e. everything except data)", `convM2S`, and the message comes off the
queue. -/
def mntrpcTail (al : Allocator) (convM2S : List UInt8 → Int → Option F) : Head → Option (Rpc F)
  | .quit m => some ⟨m, none, none⟩
  | .parse m nb len => do
      let blk ← m.st.heap nb
      let hlen := if blk.val.data.getD 4 0 = rread then 11 else len
      let (st, nb) ← pullupqueue al m.st hlen
      let nb ← nb
      let blk ← st.heap nb
      match convM2S blk.val.data len with
      | none =>
        -- bad message, dump it
        let r ← Qio.qdiscard st len.toNat
        return ⟨⟨r.st, m.wire⟩, none, none⟩
      | some reply =>
        let (st, b) ← rpcData al st none none hlen len
        return ⟨⟨st, m.wire⟩, some reply, b⟩

/-- `mntrpcread`. -/
def mntrpcread (al : Allocator) (convM2S : List UInt8 → Int → Option F) (msize : Int)
    (m : Input) : Option (Rpc F) := do
  let head ← mntrpcHead al msize m
  mntrpcTail al convM2S head

/-- The loop comes to a block that it has to split, and the kernel panics for want of another. -/
inductive DataPanics (al : Allocator) : Qs → Option Addr → Int → Int → Prop
  | split {s s' : Qs} {a : Addr} {val : Buf} {last : Option Addr} {hlen len : Int}
      (htake : rpcTake s hlen = some (s', a, val)) (hend : len - hlen < val.blen)
      (hmem : al.pick s'.heap (val.blen - (len - hlen).toNat) = none) : DataPanics al s last hlen len
  | next {s s' : Qs} {a : Addr} {val : Buf} {last : Option Addr} {hlen len : Int} {h : Heap}
      (htake : rpcTake s hlen = some (s', a, val)) (hlink : rpcLink s'.heap last a = some h)
      (hnext : DataPanics al { s' with heap := h } (some a) 0 (len - hlen - val.blen)) :
      DataPanics al s last hlen len

/-- The kernel panics for want of a block once the size is known: the header does not fit into its first block, or
the last block has to be split. -/
def Head.Panics (al : Allocator) : Head → Prop
  | .quit _ => False
  | .parse m nb len => ∃ blk, m.st.heap nb = some blk ∧
      let hlen := if blk.val.data.getD 4 0 = rread then 11 else len
      m.st.Panics al hlen ∨ ∃ st b, pullupqueue al m.st hlen = some (st, some b) ∧ DataPanics al st none hlen len

/-- The kernel panics for want of a block where the size is pulled up. -/
def Input.HeadPanics (al : Allocator) (m : Input) : Prop :=
  ∃ m₁, doread m.st m.wire 7 = some (m₁, true) ∧ m₁.st.Panics al 7

/-- The kernel panics for want of a block in a call of `mntrpcread`. -/
def Input.Panics (al : Allocator) (msize : Int) (m : Input) : Prop :=
  m.HeadPanics al ∨ ∃ head, mntrpcHead al msize m = some head ∧ head.Panics al

/-- `mntversion` refuses any other size: "nonsense value of msize in fversion". -/
def MsizeOk (msize : Int) : Prop := 256 ≤ msize ∧ msize ≤ 1024 * 1024

/-- The block lists still to come, with their contents.  `bread` is asked for `msize` bytes. -/
def Wire (msize : Int) (h : Heap) (wire : List Addr) (ws : List Cells) : Prop :=
  List.Forall₂ (fun a r => Chain h (some a) r ∧ sumBlen r ≤ msize) wire ws

/-- The queue holds `l` and the transport will return `ws`; no block is in both. -/
structure Stands (msize : Int) (m : Input) (l : Cells) (ws : List Cells) : Prop where
  sensible : MsizeOk msize
  feeds : Feeds m.st l
  small : sumBlen l ≤ 2 * 1024 * 1024
  wire : Wire msize m.st.heap m.wire ws
  nodup : (addrs ws.flatten).Nodup
  disj : (addrs l).Disjoint (addrs ws.flatten)

/-- What the transport delivers before it ends. -/
def delivered (ws : List Cells) : Cells := (ws.takeWhile fun r => sumBlen r ≠ 0).flatten

variable {m : Input} {l k : Cells} {ws : List Cells} {h h' : Heap} {wire : List Addr} {msize : Int}

theorem Wire.live (hw : Wire msize h wire ws) : ∀ x ∈ addrs ws.flatten, h x ≠ none := by
  induction hw with
  | nil => simp
  | cons hc _ ih =>
    intro x hx
    simp only [flatten_cons, addrs_append, mem_append] at hx
    rcases hx with hx | hx
    · exact live_of_chain hc.1 x hx
    · exact ih x hx

theorem Wire.frame (hw : Wire msize h wire ws) (heq : ∀ x ∈ addrs ws.flatten, h' x = h x) :
    Wire msize h' wire ws := by
  induction hw with
  | nil => exact List.Forall₂.nil
  | cons hc _ ih =>
    simp only [flatten_cons, addrs_append, mem_append] at heq
    refine List.Forall₂.cons ⟨hc.1.frame (fun x hx => heq x (Or.inl hx)), hc.2⟩ ?_
    exact ih (fun x hx => heq x (Or.inr hx))

/-- The count is exact: the queue never holds more than an `int` can count. -/
theorem Stands.dlen (hm : Stands msize m l ws) : m.st.q.dlen = sumBlen l := by
  have hsmall := hm.small
  rw [hm.feeds.dlen, int32_eq (by omega) (by omega)]

/-- What is done with the blocks of the queue leaves alone those still to come. -/
theorem Stands.settles {q : Queue} {l' : Cells} {K : Set Addr} (hm : Stands msize m l ws)
    (hs : Settles m.st.heap h' (cells l) (cells l' ∪ K)) (hf : Feeds ⟨h', q⟩ l')
    (hle : sumBlen l' ≤ sumBlen l) : Stands msize ⟨⟨h', q⟩, m.wire⟩ l' ws := by
  have hlive := hm.wire.live
  have hapart : ∀ x ∈ {x | x ∈ addrs ws.flatten}, x ∉ cells l := fun x hx hxl => hm.disj hxl hx
  have hnew := hs.disjoint hlive hapart
  refine ⟨hm.sensible, hf, hle.trans hm.small, hm.wire.frame ?_, hm.nodup, ?_⟩
  · intro x hx
    exact hs.off x (hapart x hx) (hnew x hx)
  · intro x hxl hx
    exact hnew x hx (Or.inl hxl)

theorem delivered_cons {r : Cells} (hr : sumBlen r ≠ 0) : delivered (r :: ws) = r ++ delivered ws := by
  rw [delivered, takeWhile_cons_of_pos (p := fun r => sumBlen r ≠ 0) (decide_eq_true hr), flatten_cons, delivered]

theorem delivered_end {r : Cells} (hr : sumBlen r = 0) : delivered (r :: ws) = [] := by
  rw [delivered, takeWhile_cons_of_neg (p := fun r => sumBlen r ≠ 0) (by rw [hr]; decide), flatten_nil]

theorem delivered_all (hws : ∀ r ∈ ws, sumBlen r ≠ 0) : delivered ws = ws.flatten := by
  rw [delivered, takeWhile_eq_self_iff.mpr fun r hr => decide_eq_true (hws r hr)]

variable {s : Qs}

/-- **What `doread` does.**  It succeeds if the queue and the transport have as many bytes, taking the first of the
lists. -/
theorem doread_spec {len : Int} (hlen : len ≤ 1024 * 1024) (hm : Stands msize ⟨s, wire⟩ l ws) :
    ∃ m' ok l' ws₁ ws₂, doread s wire len = some (m', ok) ∧ Stands msize m' l' ws₂ ∧ ws = ws₁ ++ ws₂ ∧
      (ok = true ↔ len ≤ sumBlen (l ++ delivered ws)) ∧
      (ok = true → len ≤ sumBlen l' ∧ l' = l ++ ws₁.flatten ∧
        delivered ws = ws₁.flatten ++ delivered ws₂) := by
  have hd : s.q.dlen = sumBlen l := hm.dlen
  induction wire generalizing s l ws with
  | nil =>
    have hnil : ws = [] := by
      have hw := hm.wire
      cases hw
      rfl
    subst hnil
    have hnone : delivered [] = [] := rfl
    rw [hnone, append_nil, doread, hd]
    by_cases hlt : (sumBlen l : Int) < len
    · rw [decide_eq_true hlt]
      exact ⟨_, _, l, [], [], rfl, hm, rfl, iff_of_false Bool.false_ne_true (by omega), by simp⟩
    · rw [decide_eq_false hlt]
      exact ⟨_, _, l, [], [], rfl, hm, rfl, iff_of_true rfl (by omega), fun _ => ⟨by omega, by simp, rfl⟩⟩
  | cons b wire ih =>
    have hw := hm.wire
    cases hw with
    | @cons _ r _ ws hc hrest =>
      have hsplit := hm.disj
      have hnodup := hm.nodup
      rw [flatten_cons, addrs_append, nodup_append] at hnodup
      rw [flatten_cons, addrs_append, disjoint_append_right] at hsplit
      have hlive := Wire.live hrest
      rw [doread, hd]
      by_cases hlt : (sumBlen l : Int) < len
      · rw [if_pos hlt, blocklen_spec hc.1, Option.bind_eq_bind, Option.bind_some]
        by_cases hzero : sumBlen r = 0
        · -- an empty list ends the reading
          obtain ⟨h₁, hfree, -, hkeep⟩ := freeblist_spec hc.1
          rw [if_pos hzero, hfree, delivered_end hzero, append_nil]
          refine ⟨_, _, l, [r], ws, rfl,
            ⟨hm.sensible, ⟨?_, hm.feeds.dlen, hm.feeds.last⟩, hm.small, ?_, hnodup.2.1, hsplit.2⟩, rfl, ?_, by simp⟩
          · exact hm.feeds.chain.frame fun x hx => hkeep x (hsplit.1 hx)
          · exact Wire.frame hrest fun x hx => hkeep x fun hxr => hnodup.2.2 x hxr x hx rfl
          · exact iff_of_false Bool.false_ne_true (by omega)
        · rw [if_neg hzero, delivered_cons hzero, ← append_assoc]
          obtain ⟨s', hadd, hf, hs⟩ := hm.feeds.qaddlist hc.1 hsplit.1
          have hapart : ∀ x ∈ {x | x ∈ addrs ws.flatten}, x ∉ cells l ∪ cells r := by
            rintro x hx (hxl | hxr)
            · exact hsplit.2 hxl hx
            · exact hnodup.2.2 x hxr x hx rfl
          have hoff := hs.disjoint hlive hapart
          have hsmall : sumBlen (l ++ r) ≤ 2 * 1024 * 1024 := by
            have hr := hc.2
            have hmsize := hm.sensible.2
            rw [sumBlen_append]
            omega
          have hnew : Stands msize ⟨s', wire⟩ (l ++ r) ws :=
            ⟨hm.sensible, hf, hsmall, Wire.frame hrest fun x hx => hs.off x (hapart x hx) (hoff x hx), hnodup.2.1,
              fun x hxl hx => hoff x hx hxl⟩
          obtain ⟨m', ok, l', ws₁, ws₂, hrun, hm', hws, hok, hdone⟩ := ih hnew hnew.dlen
          refine ⟨m', ok, l', r :: ws₁, ws₂, ?_, hm', by rw [hws, cons_append], hok, fun htrue => ?_⟩
          · change ((Qio.qaddlist s b).bind fun s => doread s wire len) = _
            rw [hadd, Option.bind_some, hrun]
          · obtain ⟨hle, hl', hdel⟩ := hdone htrue
            rw [hdel, hl', flatten_cons]
            exact ⟨hl' ▸ hle, by simp only [append_assoc], by simp only [append_assoc]⟩
      · rw [if_neg hlt]
        refine ⟨_, true, l, [], r :: ws, rfl, hm, rfl, iff_of_true rfl ?_, fun _ => ⟨by omega, by simp⟩⟩
        rw [sumBlen_append]
        omega

variable {first : Option Addr} {a : Addr} {w : Buf}

/-- A block without successor is linked behind the others. -/
theorem rpcLink_spec (hk : Chain h first k) (ha : h a = some ⟨none, w⟩) (hnot : a ∉ addrs k) :
    ∃ h', rpcLink h (addrs k).getLast? a = some h' ∧
      Chain h' (first.or (some a)) (k ++ [(a, w)]) ∧
      (∀ x ∉ addrs k, h' x = h x) ∧
      Settles h h' (cells k ∪ {a}) (cells (k ++ [(a, w)])) := by
  have hone : Chain h (some a) [(a, w)] := chain_cons.mpr ⟨rfl, none, ha, chain_nil.mpr rfl⟩
  have hcells : cells k ∪ {a} = cells (k ++ [(a, w)]) := by
    ext x
    simp [or_comm]
  rw [hcells]
  rcases eq_nil_or_concat k with rfl | ⟨k', c, rfl⟩
  · have hnil := chain_nil.mp hk
    subst hnil
    exact ⟨h, rfl, hone, fun _ _ => rfl, Settles.refl (live_of_chain hone)⟩
  · obtain ⟨z, v⟩ := c
    simp only [concat_eq_append] at *
    obtain ⟨n, hz⟩ := Seg.lookup hk (a := z) (v := v) (by simp)
    have hza : z ∉ addrs [(a, w)] := by
      simp only [addrs_append, addrs_cons, addrs_nil, mem_append, mem_singleton, not_or] at hnot ⊢
      exact fun heq => hnot.2 heq.symm
    have hchain := hk.link_last hone hza
    have hfirst : first.or (some a) = first := by
      cases first with
      | none => exact absurd hk.eq_nil (by simp)
      | some b => rfl
    refine ⟨update h z (some ⟨some a, v⟩), by simp [rpcLink, hz], ?_, ?_, ?_⟩
    · rw [hfirst]
      simpa using hchain
    · intro x hx
      refine update_of_ne ?_ _ _
      rintro rfl
      exact hx (by simp)
    · refine Settles.change (live_of_chain (by simpa using hchain)) ?_
      intro x hx
      refine update_of_ne ?_ _ _
      rintro rfl
      exact hx (by simp)

/-- The first block is taken off, with the header off its front. -/
theorem rpcTake_spec {v : Buf} {t : Cells} (hf : Feeds s ((a, v) :: t)) (hlen : Nat) :
    ∃ s', rpcTake s hlen = some (s', a, v.pull hlen) ∧ s'.heap a = some ⟨none, v.pull hlen⟩ ∧ Feeds s' t ∧
      Settles s.heap s'.heap (cells ((a, v) :: t)) ({a} ∪ cells t) := by
  have hnot := hf.chain.head_not_mem
  obtain ⟨s', hrun, hf', ha, hs⟩ := hf.qremove
  have hval : (if 0 < (hlen : Int) then v.pull hlen else v) = v.pull hlen := by
    split
    · rfl
    · next hzero =>
        have h0 : hlen = 0 := by omega
        simp [h0, Buf.pull]
  refine ⟨{ s' with heap := update s'.heap a (some ⟨none, v.pull hlen⟩) }, ?_, by simp,
    ⟨hf'.chain.update_ne hnot, hf'.dlen, hf'.last⟩, hs.trans ?_⟩
  · simp only [rpcTake, hrun, bind_eq_bind, bind_some, ha, Int.toNat_natCast, hval]
    rfl
  · refine Settles.change ?_ ?_
    · rintro x (rfl | hx)
      · simp
      · have hxa : x ≠ a := fun heq => hnot (heq ▸ hx)
        exact (update_of_ne hxa _ _).trans_ne (hs.live x (Or.inr hx))
    · intro x hx
      exact update_of_ne (fun heq => hx (Or.inl heq)) _ _

variable {n : Nat}

/-- The split: the front of the block stays and the rest is put back in a fresh one. -/
theorem rpcSplit_spec (al : Allocator) {t : Cells} (hf : Feeds s t) (ha : s.heap a = some ⟨none, w⟩)
    (hnot : a ∉ addrs t) :
    (rpcSplit al s a n = none ∧ al.pick s.heap (w.blen - n) = none) ∨
    ∃ s' na u, rpcSplit al s a n = some s' ∧ Feeds s' ((na, u) :: t) ∧
      u.data = w.data.drop n ∧ s'.heap a = some ⟨none, w.cut n⟩ ∧ a ≠ na ∧
      Settles s.heap s'.heap ({a} ∪ cells t) ({a} ∪ cells ((na, u) :: t)) := by
  cases hal : allocb al s.heap (w.blen - n) with
  | none =>
    left
    exact ⟨by simp [rpcSplit, ha, hal], by simpa [allocb, iallocb] using hal⟩
  | some p =>
    right
    obtain ⟨na, h₁⟩ := p
    obtain ⟨hfree, hd, rfl⟩ := iallocb_spec hal
    have hne : a ≠ na := by
      rintro rfl
      rw [ha] at hfree
      cases hfree
    have hnt : na ∉ addrs t := hf.chain.not_mem_of_free hfree
    let u : Buf := Buf.fill ⟨hd, [], w.blen - n⟩ (w.data.drop n)
    let h₂ := update (update s.heap na (some ⟨none, u⟩)) a
      (some ⟨none, w.cut n⟩)
    have hna : h₂ na = some ⟨none, u⟩ := by
      simp only [h₂]
      rw [update_of_ne hne.symm, update_self]
    have hf₂ : Feeds { s with heap := h₂ } t :=
      ⟨(hf.chain.update_ne hnt).update_ne hnot, hf.dlen, hf.last⟩
    obtain ⟨s', hput, hf', hoff, hs⟩ := hf₂.qputback hna hnt
    have hrun : rpcSplit al s a n = some s' := by
      simpa [rpcSplit, ha, hal] using hput
    have haa : s'.heap a = some ⟨none, w.cut n⟩ := by
      rw [hoff a hne]
      simp [h₂]
    refine ⟨s', na, u, hrun, hf', rfl, haa, hne, ⟨?_, ?_, ?_, ?_⟩⟩
    · rintro x (rfl | hx)
      · simp [haa]
      · exact live_of_chain hf'.chain x hx
    · intro x hx hx'
      simp only [Set.mem_union, Set.mem_singleton_iff, mem_cells, addrs_cons, mem_cons, not_or] at hx hx'
      tauto
    · intro x hx hx'
      simp only [Set.mem_union, Set.mem_singleton_iff, mem_cells, addrs_cons, mem_cons, not_or] at hx hx'
      have hxn : x = na := by tauto
      rw [hxn]
      exact hfree
    · intro x hx hx'
      simp only [Set.mem_union, Set.mem_singleton_iff, mem_cells, addrs_cons, mem_cons, not_or] at hx hx'
      rw [hoff x hx'.2.1]
      simp only [h₂]
      rw [update_of_ne hx.1, update_of_ne hx'.2.1]

/-- One turn of the loop, for lengths in range. -/
theorem rpcData_turn (al : Allocator) {s s₁ : Qs} (first last : Option Addr) {hlen len : Nat} (hle : hlen ≤ len)
    (htake : rpcTake s hlen = some (s₁, a, w)) :
    rpcData al s first last hlen len =
      if w.blen ≤ len - hlen then
        (rpcLink s₁.heap last a).bind fun h =>
          if 0 < len - hlen - w.blen then
            rpcData al { s₁ with heap := h } (first.or (some a)) (some a) (0 : Nat) (len - hlen - w.blen : Nat)
          else some ({ s₁ with heap := h }, first.or (some a))
      else
        (rpcSplit al s₁ a (len - hlen)).bind fun s =>
          (rpcLink s.heap last a).bind fun h => some ({ s with heap := h }, first.or (some a)) := by
  have hlen' : (if 0 < (hlen : Int) then (len : Int) - hlen else len) = (len - hlen : Nat) := by
    split <;> omega
  rw [rpcData]
  simp only [htake, bind_eq_bind, bind_some, hlen', Int.toNat_natCast]
  by_cases hw : w.blen ≤ len - hlen
  · have hcast : (w.blen : Int) ≤ (len - hlen : Nat) := by omega
    have hsub : ((len - hlen : Nat) : Int) - w.blen = (len - hlen - w.blen : Nat) := by omega
    simp only [hw, hcast, if_true, hsub, Int.natCast_pos]
    rfl
  · have hcast : ¬ (w.blen : Int) ≤ (len - hlen : Nat) := by omega
    have hneg : ¬ ((len - hlen : Nat) : Int) < 0 := by omega
    simp only [hw, hcast, hneg, if_false]
    rfl

/-- A window of two lists that covers the end of the first. -/
theorem window_past {x y : List UInt8} {i n : Nat} (hi : i ≤ x.length) (hn : x.length ≤ n) :
    ((x ++ y).take n).drop i = x.drop i ++ y.take (n - x.length) := by
  rw [take_append, take_of_length_le hn, drop_append_of_le_length hi]

/-- A window of two lists that ends in the first. -/
theorem window_within {x y : List UInt8} {i n : Nat} (hn : n ≤ x.length) :
    ((x ++ y).take n).drop i = (x.drop i).take (n - i) := by
  rw [take_append_of_le_length hn, drop_take]

/-- Taking the first block off leaves alone the blocks already in `r->b`. -/
theorem rpcTake_beside {v : Buf} {t : Cells} (hf : Feeds s ((a, v) :: t)) (hk : Chain s.heap first k)
    (hdisj : (addrs k).Disjoint (addrs ((a, v) :: t))) (hlen : Nat) :
    ∃ s', rpcTake s hlen = some (s', a, v.pull hlen) ∧ s'.heap a = some ⟨none, v.pull hlen⟩ ∧ Feeds s' t ∧
      Chain s'.heap first k ∧
      Settles s.heap s'.heap (cells ((a, v) :: t) ∪ cells k) ({a} ∪ cells t ∪ cells k) := by
  obtain ⟨s', htake, ha, hf', hs⟩ := rpcTake_spec hf hlen
  have hlive := live_of_chain hk
  have hapart : ∀ x ∈ cells k, x ∉ cells ((a, v) :: t) := fun x hx hxl => hdisj hx hxl
  refine ⟨s', htake, ha, hf', ?_, hs.frame hlive hapart⟩
  apply hk.frame
  intro x hx
  exact hs.off x (hapart x hx) (hs.disjoint hlive hapart x hx)

theorem disjoint_append_last {t : Cells} (hdisj : (addrs k).Disjoint (addrs t))
    (hat : a ∉ addrs t) :
    List.Disjoint (addrs (k ++ [(a, w)])) (addrs t) := by
  intro x hx hxt
  simp only [addrs_append, addrs_cons, addrs_nil, mem_append, mem_singleton] at hx
  rcases hx with hx | rfl
  · exact hdisj hx hxt
  · exact hat hxt

/-- A block taken off the queue is hung behind those in `r->b`. -/
theorem rpcAppend_spec {t : Cells} (hf : Feeds s t) (hk : Chain s.heap first k)
    (ha : s.heap a = some ⟨none, w⟩) (hat : a ∉ addrs t) (hak : a ∉ addrs k)
    (hdisj : (addrs k).Disjoint (addrs t)) :
    ∃ h', rpcLink s.heap (addrs k).getLast? a = some h' ∧ Feeds { s with heap := h' } t ∧
      Chain h' (first.or (some a)) (k ++ [(a, w)]) ∧
      Settles s.heap h' ({a} ∪ cells t ∪ cells k) (cells t ∪ cells (k ++ [(a, w)])) := by
  obtain ⟨h', hlink, hchain, hoff, hs⟩ := rpcLink_spec hk ha hak
  have hapart : ∀ x ∈ cells t, x ∉ cells k ∪ {a} := by
    rintro x hx (hxk | rfl)
    · exact hdisj hxk hx
    · exact hat hx
  have hframe := hs.frame (live_of_chain hf.chain) hapart
  refine ⟨h', hlink, ⟨hf.chain.frame ?_, hf.dlen, hf.last⟩, hchain, hframe.congr ?_ ?_⟩
  · intro x hx
    exact hoff x (fun hxk => hdisj hxk hx)
  · intro x
    simp only [Set.mem_union]
    tauto
  · intro x
    simp only [Set.mem_union]
    tauto

/-- The block the message ends in is split beside the blocks in `r->b`. -/
theorem rpcSplit_beside (al : Allocator) {t : Cells} (hf : Feeds s t) (hk : Chain s.heap first k)
    (ha : s.heap a = some ⟨none, w⟩) (hat : a ∉ addrs t) (hak : a ∉ addrs k)
    (hdisj : (addrs k).Disjoint (addrs t)) :
    (rpcSplit al s a n = none ∧ al.pick s.heap (w.blen - n) = none) ∨
    ∃ s' h' na u, rpcSplit al s a n = some s' ∧
      rpcLink s'.heap (addrs k).getLast? a = some h' ∧
      Feeds { s' with heap := h' } ((na, u) :: t) ∧ u.data = w.data.drop n ∧
      Chain h' (first.or (some a)) (k ++ [(a, w.cut n)]) ∧
      List.Disjoint (addrs (k ++ [(a, w.cut n)])) (addrs ((na, u) :: t)) ∧
      Settles s.heap h' ({a} ∪ cells t ∪ cells k)
        (cells ((na, u) :: t) ∪ cells (k ++ [(a, w.cut n)])) := by
  rcases rpcSplit_spec al (n := n) hf ha hat with hnone | ⟨s', na, u, hrun, hf', hu, ha', hne, hs⟩
  · exact Or.inl hnone
  · right
    have hlive := live_of_chain hk
    have hapart : ∀ x ∈ cells k, x ∉ ({a} : Set Addr) ∪ cells t := by
      rintro x hx (rfl | hxt)
      · exact hak hx
      · exact hdisj hx hxt
    have hnew := hs.disjoint hlive hapart
    have hk' : Chain s'.heap first k := by
      apply hk.frame
      intro x hx
      exact hs.off x (hapart x hx) (hnew x hx)
    have hat' : a ∉ addrs ((na, u) :: t) := by simp [hne, hat]
    have hdisj' : (addrs k).Disjoint (addrs ((na, u) :: t)) :=
      fun x hx hxt => hnew x hx (Or.inr hxt)
    obtain ⟨h', hlink, hf'', hchain, hs'⟩ := rpcAppend_spec hf' hk' ha' hat' hak hdisj'
    exact ⟨s', h', na, u, hrun, hlink, hf'', hu, hchain, disjoint_append_last hdisj' hat',
      (hs.frame hlive hapart).trans hs'⟩

/-- The loop takes `len` bytes off the queue, drops the first `hlen` of them and hangs the
rest off `r->b`. -/
theorem rpcData_spec (al : Allocator) {hlen len : Nat} (hf : Feeds s l) (hk : Chain s.heap first k)
    (hdisj : (addrs k).Disjoint (addrs l)) (hne : l ≠ [])
    (hhead : ∀ c ∈ l.head?, hlen ≤ c.2.data.length) (hle : hlen ≤ len) (htot : len ≤ sumBlen l) :
    (rpcData al s first (addrs k).getLast? hlen len = none ∧
      DataPanics al s (addrs k).getLast? hlen len) ∨
    ∃ s' first' l' k', rpcData al s first (addrs k).getLast? hlen len = some (s', first') ∧
      Feeds s' l' ∧ Chain s'.heap first' k' ∧
      flat k' = flat k ++ ((flat l).take len).drop hlen ∧ flat l' = (flat l).drop len ∧
      (addrs k').Disjoint (addrs l') ∧
      Settles s.heap s'.heap (cells l ∪ cells k) (cells l' ∪ cells k') := by
  induction l generalizing s k first hlen len with
  | nil => exact (hne rfl).elim
  | cons c t ih =>
    obtain ⟨a, v⟩ := c
    have hhv : hlen ≤ v.data.length := hhead (a, v) rfl
    have hat := hf.chain.head_not_mem
    have hak : a ∉ addrs k := fun hmem => hdisj hmem (by simp)
    have hkt : (addrs k).Disjoint (addrs t) :=
      fun x hx hxt => hdisj hx (mem_cons_of_mem _ hxt)
    obtain ⟨s', htake, ha₁, hf₁, hk₁, hs₁⟩ := rpcTake_beside hf hk hdisj hlen
    have hturn := rpcData_turn al first (addrs k).getLast? hle htake
    have hblen : (v.pull hlen).blen = v.data.length - hlen := by simp [Buf.blen]
    have htot' : len ≤ v.data.length + sumBlen t := by simpa [Buf.blen] using htot
    simp only [hblen] at hturn
    by_cases hw : v.data.length ≤ len
    · -- the whole block belongs to the message
      have hle₁ : v.data.length - hlen ≤ len - hlen := by omega
      have hrest : len - hlen - (v.data.length - hlen) = len - v.data.length := by omega
      obtain ⟨h', hlink, hft, hchain, hs₂⟩ := rpcAppend_spec hf₁ hk₁ ha₁ hat hak hkt
      rw [if_pos hle₁, hlink, bind_some, hrest] at hturn
      by_cases hmore : 0 < len - v.data.length
      · have hlast : (addrs (k ++ [(a, v.pull hlen)])).getLast? = some a := by simp
        rw [if_pos hmore] at hturn
        have hnil : t ≠ [] := by
          rintro rfl
          simp only [sumBlen_nil] at htot'
          omega
        have hih := ih hft hchain (disjoint_append_last hkt hat) hnil (by simp) (Nat.zero_le (len - v.data.length))
          (by omega)
        rw [hlast, ← hturn] at hih
        rcases hih with ⟨hnone, hpanic⟩ | ⟨s₆, first', l', k', hrun, hf', hk', hflatk, hflatl, hdisj', hs₃⟩
        · have hleft : (len : Int) - hlen - (v.pull hlen).blen = (len - v.data.length : Nat) := by omega
          exact Or.inl ⟨hnone, .next htake hlink (by rw [hleft]; exact hpanic)⟩
        · right
          refine ⟨s₆, first', l', k', hrun, hf', hk', ?_, ?_, hdisj', (hs₁.trans hs₂).trans hs₃⟩
          · rw [hflatk, flat_cons, window_past hhv hw]
            simp
          · rw [hflatl, flat_cons, drop_append, drop_of_length_le hw]
            rfl
      · rw [if_neg hmore] at hturn
        right
        have hend : len = v.data.length := by omega
        refine ⟨_, _, t, _, hturn, hft, hchain, ?_, ?_, disjoint_append_last hkt hat, hs₁.trans hs₂⟩
        · rw [flat_cons, window_past hhv hw]
          simp [hend]
        · simp [hend]
    · -- the message ends in this block
      have hlt : ¬ v.data.length - hlen ≤ len - hlen := by omega
      rw [if_neg hlt] at hturn
      rcases rpcSplit_beside al (n := len - hlen) hf₁ hk₁ ha₁ hat hak hkt with
        ⟨hnone, hmem⟩ | ⟨s₂, h', na, u, hsplit, hlink, hf₂, hu, hchain, hdisj', hs₂⟩
      · have hn : ((len : Int) - hlen).toNat = len - hlen := by omega
        rw [hnone] at hturn
        exact Or.inl ⟨hturn, .split htake (by omega) (by rw [hn]; exact hmem)⟩
      · right
        rw [hsplit, bind_some, hlink, bind_some] at hturn
        have hn : hlen + (len - hlen) = len := by omega
        have hin : len ≤ v.data.length := by omega
        refine ⟨_, _, _, _, hturn, hf₂, hchain, ?_, ?_, hdisj', hs₁.trans hs₂⟩
        · rw [flat_cons, window_within hin]
          simp [Buf.cut]
        · rw [flat_cons, flat_cons, drop_append_of_le_length hin, hu, Buf.data_pull, drop_drop, hn]

/-- What `mntrpcread` relies on of `convM2S`.  It looks at the `n` bytes it is given, and of
a read reply at no more than the header, whose length it checks. -/
structure Decodes (convM2S : List UInt8 → Int → Option F) : Prop where
  whole : ∀ p p' (n : Nat), p.take n = p'.take n → convM2S p n = convM2S p' n
  data : ∀ p p' (n : Nat), p.take 11 = p'.take 11 → p.getD 4 0 = rread →
    convM2S p n = convM2S p' n
  header : ∀ p (n : Nat), p.getD 4 0 = rread → convM2S p n ≠ none → 11 ≤ n

/-- A well-formed reply: its size field is its length, between 7 and `msize`, and `convM2S`
accepts it. -/
structure WellFormed (convM2S : List UInt8 → Int → Option F) (msize : Int) (msg : List UInt8) :
    Prop where
  size : gbit32 msg = msg.length
  least : 7 ≤ msg.length
  most : msg.length ≤ msize
  accepted : convM2S msg msg.length ≠ none

/-- The header of a message: of a read reply all but its data, else all of it. -/
def hdrlen (msg : List UInt8) : Nat := if msg.getD 4 0 = rread then 11 else msg.length

/-- The data bytes of a read reply. -/
def dataOf (msg : List UInt8) : List UInt8 := msg.drop (hdrlen msg)

theorem hdrlen_le {convM2S : List UInt8 → Int → Option F} {msize : Int} {msg : List UInt8}
    (hd : Decodes convM2S) (hwf : WellFormed convM2S msize msg) : hdrlen msg ≤ msg.length := by
  unfold hdrlen
  split
  · next hr => exact hd.header msg _ hr hwf.accepted
  · exact Nat.le_refl _

theorem take_of_append {x y z w : List UInt8} (heq : x ++ y = z ++ w) (hx : n ≤ x.length)
    (hz : n ≤ z.length) : x.take n = z.take n := by
  have htake := congrArg (List.take n) heq
  rwa [take_append_of_le_length hx, take_append_of_le_length hz] at htake

theorem getD_of_take {p p' : List UInt8} {i n : Nat} (heq : p.take n = p'.take n) (hi : i < n) :
    p.getD i 0 = p'.getD i 0 := by
  have hget := congrArg (fun q => q.getD i 0) heq
  simpa [getD_eq_getElem?_getD, List.getElem?_take, hi] using hget

theorem gbit32_of_take {p p' : List UInt8} (heq : p.take n = p'.take n) (hn : 4 ≤ n) :
    gbit32 p = gbit32 p' := by
  unfold gbit32
  rw [getD_of_take heq (by omega : 0 < n), getD_of_take heq (by omega : 1 < n),
    getD_of_take heq (by omega : 2 < n), getD_of_take heq (by omega : 3 < n)]

/-- `convM2S` decodes the message from its header. -/
theorem Decodes.of_header {convM2S : List UInt8 → Int → Option F} {msg p : List UInt8}
    (hd : Decodes convM2S) (htake : p.take (hdrlen msg) = msg.take (hdrlen msg)) :
    convM2S p msg.length = convM2S msg msg.length := by
  unfold hdrlen at htake
  split at htake
  · next hr =>
      have hget := getD_of_take htake (by omega : 4 < 11)
      exact hd.data p msg _ htake (hget.trans hr)
  · exact hd.whole p msg _ htake

/-- Pulling up a header keeps the stream. -/
theorem Stands.pullupqueue (al : Allocator) (hm : Stands msize m l ws) (hpos : 0 < n) (hle : n ≤ sumBlen l) :
    (Qio.pullupqueue al m.st n = none ∧ m.st.Panics al n) ∨
    ∃ s' b w t, Qio.pullupqueue al m.st n = some (s', some b) ∧ Stands msize ⟨s', m.wire⟩ ((b, w) :: t) ws ∧
      n ≤ w.data.length ∧ flat ((b, w) :: t) = flat l := by
  have hne : l ≠ [] := by
    rintro rfl
    simp only [sumBlen_nil] at hle
    omega
  rcases hm.feeds.pullupqueue al hne hle with hnone | ⟨s', b, w, t, hrun, hf, hw, hflat, hs⟩
  · exact Or.inl hnone
  · have hs' : Settles m.st.heap s'.heap (cells l) (cells ((b, w) :: t) ∪ ∅) := by
      rwa [Set.union_empty]
    have hsame : sumBlen ((b, w) :: t) ≤ sumBlen l := by
      rw [← length_flat, hflat, length_flat]
    exact Or.inr ⟨s', b, w, t, hrun, hm.settles hs' hf hsame, hw, hflat⟩

/-- **What the call does up to the switch.**  The queue and the transport have the bytes `p`, at least seven of
them. -/
theorem head_spec (al : Allocator) {p : List UInt8} (hm : Stands msize m l ws) (hp : flat (l ++ delivered ws) = p)
    (hseven : 7 ≤ p.length) :
    (mntrpcHead al msize m = none ∧ m.HeadPanics al) ∨
    ∃ head, mntrpcHead al msize m = some head ∧
      ((∃ m' b w t ws₁ ws₂, head = .parse m' b (gbit32 p) ∧ ws = ws₁ ++ ws₂ ∧
          Stands msize m' ((b, w) :: t) ws₂ ∧ 7 ≤ w.data.length ∧ gbit32 p ≤ sumBlen ((b, w) :: t) ∧
          flat ((b, w) :: t) = flat (l ++ ws₁.flatten) ∧ ¬(msize < gbit32 p ∨ p.length < gbit32 p)) ∨
        ∃ m' l' ws', head = .quit m' ∧ Stands msize m' l' ws' ∧ (msize < gbit32 p ∨ p.length < gbit32 p)) := by
  have hlen : sumBlen (l ++ delivered ws) = p.length := by rw [← hp, length_flat]
  obtain ⟨m₁, ok, l₁, ws₁, ws₂, hread, hm₁, hws, hok, hrest⟩ := doread_spec (by decide : (7 : Int) ≤ 1024 * 1024) hm
  have htrue : ok = true := hok.mpr (by omega)
  subst htrue
  obtain ⟨hle, hl₁, hdel⟩ := hrest rfl
  have hcast : ((7 : Nat) : Int) = 7 := rfl
  rcases hm₁.pullupqueue al (n := 7) (by omega) (by omega) with
    ⟨hnone, hpanic⟩ | ⟨s₂, b, w, t, hpull, hm₂, hw, hflat⟩
  · left
    rw [hcast] at hnone hpanic
    refine ⟨?_, m₁, hread, hpanic⟩
    simp only [mntrpcHead, hread, hnone, bind_eq_bind, bind_some, Bool.true_eq_false, if_false, bind_none]
  · right
    rw [hcast] at hpull
    obtain ⟨_, n, hb, _⟩ := chain_cons.mp hm₂.feeds.chain
    simp only at hb
    have hstream : flat ((b, w) :: t ++ delivered ws₂) = p := by
      rw [← hp, hdel, ← append_assoc, ← hl₁, flat_append, flat_append, hflat]
    have htake : w.data.take 7 = p.take 7 := by
      rw [← hstream, flat_append, flat_cons, append_assoc, take_append_of_le_length hw]
    have hsize : gbit32 w.data = gbit32 p := gbit32_of_take htake (by decide)
    have hhead : mntrpcHead al msize m =
        if msize < gbit32 p then (Qio.qdiscard s₂ s₂.q.dlen.toNat).bind fun r => some (.quit ⟨r.st, m₁.wire⟩)
        else (doread s₂ m₁.wire (gbit32 p)).bind fun a =>
          if a.2 = false then some (.quit a.1) else some (.parse a.1 b (gbit32 p)) := by
      simp only [mntrpcHead, hread, hpull, hb, hsize, bind_eq_bind, bind_some, Bool.true_eq_false, if_false]
      rfl
    rw [hhead]
    by_cases hbig : msize < gbit32 p
    · obtain ⟨r, hdiscard, hfeeds, hs⟩ := hm₂.feeds.qdiscard s₂.q.dlen.toNat
      have hs' : Settles s₂.heap r.st.heap (cells ((b, w) :: t))
          (cells (discardCells s₂.q.dlen.toNat ((b, w) :: t)) ∪ ∅) := by
        rwa [Set.union_empty]
      have hless : sumBlen (discardCells s₂.q.dlen.toNat ((b, w) :: t)) ≤ sumBlen ((b, w) :: t) := by
        rw [← length_flat, flat_discardCells, length_drop, length_flat]
        omega
      rw [if_pos hbig, hdiscard]
      exact ⟨_, rfl, Or.inr ⟨_, _, ws₂, rfl, hm₂.settles hs' hfeeds hless, Or.inl hbig⟩⟩
    · have hmsize := hm.sensible.2
      obtain ⟨m₃, ok, l₃, ws₃, ws₄, hread₃, hm₃, hws', hok₃, hrest₃⟩ :=
        doread_spec (show gbit32 p ≤ 1024 * 1024 by omega) hm₂
      rw [← length_flat, hstream] at hok₃
      rw [if_neg hbig, hread₃]
      cases ok with
      | false =>
        have hnot : ¬ gbit32 p ≤ p.length := fun h => Bool.false_ne_true (hok₃.mpr h)
        exact ⟨_, rfl, Or.inr ⟨m₃, l₃, ws₄, rfl, hm₃, Or.inr (by omega)⟩⟩
      | true =>
        have hfits := hok₃.mp rfl
        obtain ⟨hle₃, rfl, -⟩ := hrest₃ rfl
        refine ⟨_, rfl, Or.inl ⟨m₃, b, w, t ++ ws₃.flatten, ws₁ ++ ws₃, ws₄, rfl, ?_, hm₃, hw, hle₃, ?_, by omega⟩⟩
        · rw [hws, hws', append_assoc]
        · rw [← cons_append, flat_append, hflat, hl₁, flatten_append, ← append_assoc, flat_append (l ++ _)]

/-- **Once the message is in the queue** its header is pulled up and decoded, its data is left in `r->b` and the rest
in the queue. -/
theorem tail_spec (al : Allocator) {convM2S : List UInt8 → Int → Option F} {msg rest : List UInt8} {b : Addr}
    {t : Cells} (hd : Decodes convM2S) (hwf : WellFormed convM2S msize msg) (hm : Stands msize m ((b, w) :: t) ws)
    (hw : 7 ≤ w.data.length) (hstream : flat ((b, w) :: t) = msg ++ rest) :
    (mntrpcTail al convM2S (.parse m b msg.length) = none ∧ (Head.parse m b msg.length).Panics al) ∨
    ∃ r l' k, mntrpcTail al convM2S (.parse m b msg.length) = some r ∧ r.reply = convM2S msg msg.length ∧
      Stands msize r.input l' ws ∧ Chain r.input.st.heap r.b k ∧ flat k = dataOf msg ∧
      (addrs k).Disjoint (addrs l') ∧ flat l' = rest := by
  have hhdr := hdrlen_le hd hwf
  have hleast := hwf.least
  have hle : msg.length ≤ sumBlen ((b, w) :: t) := by
    rw [← length_flat, hstream, length_append]
    omega
  -- the type byte is in the first block
  obtain ⟨hfirst, n, hb, _⟩ := chain_cons.mp hm.feeds.chain
  have htype : w.data.getD 4 0 = msg.getD 4 0 := by
    have htake : w.data.take 7 = msg.take 7 := by
      rw [flat_cons] at hstream
      exact take_of_append hstream hw hleast
    exact getD_of_take htake (by omega)
  have hhlen : (if w.data.getD 4 0 = rread then (11 : Int) else msg.length) = (hdrlen msg : Nat) := by
    unfold hdrlen
    rw [htype]
    split <;> rfl
  have hpos : 0 < hdrlen msg := by
    unfold hdrlen
    split <;> omega
  have hstep : mntrpcTail al convM2S (.parse m b msg.length) =
      (Qio.pullupqueue al m.st (hdrlen msg)).bind fun p => p.2.bind fun nb =>
        (p.1.heap nb).bind fun blk => match convM2S blk.val.data msg.length with
          | none => (Qio.qdiscard p.1 msg.length).bind fun r =>
            some ⟨⟨r.st, m.wire⟩, none, none⟩
          | some reply =>
            (rpcData al p.1 none none (hdrlen msg) msg.length).bind fun q =>
              some ⟨⟨q.1, m.wire⟩, some reply, q.2⟩ := by
    simp only [mntrpcTail, bind_eq_bind, bind_some, hb, hhlen, Int.toNat_natCast]
    rfl
  rcases hm.pullupqueue al hpos (by omega) with
    ⟨hnone, hpanic⟩ | ⟨s₂, b₂, w₂, t₂, hpull, hm₂, hw₂, hflat₂⟩
  · left
    refine ⟨by rw [hstep, hnone]; rfl, _, hb, Or.inl ?_⟩
    simp only [hhlen]
    exact hpanic
  · obtain ⟨_, n₂, hb₂, _⟩ := chain_cons.mp hm₂.feeds.chain
    simp only at hb₂
    rw [hstream] at hflat₂
    have htake : w₂.data.take (hdrlen msg) = msg.take (hdrlen msg) := by
      rw [flat_cons] at hflat₂
      exact take_of_append hflat₂ hw₂ hhdr
    have hconv := hd.of_header htake
    obtain ⟨reply, hreply⟩ := ne_none_iff_exists'.mp hwf.accepted
    have hlen₂ : msg.length ≤ sumBlen ((b₂, w₂) :: t₂) := by
      rw [← length_flat, hflat₂, length_append]
      omega
    have hnil : Chain s₂.heap none ([] : Cells) := chain_nil.mpr rfl
    have hhead : ∀ c ∈ ((b₂, w₂) :: t₂).head?, hdrlen msg ≤ c.2.data.length := by
      intro c hc
      cases hc
      exact hw₂
    rcases rpcData_spec al hm₂.feeds hnil (by simp) (by simp) hhead hhdr hlen₂ with
      ⟨hnone, hpanic⟩ | ⟨s₃, first, l', k, hrun, hf₃, hk, hflatk, hflatl, hdisj, hs₃⟩
    · left
      simp only [addrs_nil, List.getLast?_nil] at hnone hpanic
      refine ⟨?_, _, hb, Or.inr ⟨s₂, b₂, ?_, ?_⟩⟩
      · rw [hstep, hpull]
        simp [hb₂, hconv, hreply, hnone]
      · simp only [hhlen]
        exact hpull
      · simp only [hhlen]
        exact hpanic
    · right
      simp only [addrs_nil, List.getLast?_nil] at hrun
      rw [hflat₂, drop_left] at hflatl
      have hs₃' : Settles s₂.heap s₃.heap (cells ((b₂, w₂) :: t₂)) (cells l' ∪ cells k) := by
        simpa using hs₃
      have hless : sumBlen l' ≤ sumBlen ((b₂, w₂) :: t₂) := by
        rw [← length_flat, ← length_flat, hflat₂, hflatl, length_append]
        omega
      refine ⟨⟨⟨s₃, m.wire⟩, some reply, first⟩, l', k, ?_, hreply.symm, hm₂.settles hs₃' hf₃ hless, hk, ?_, hdisj,
        hflatl⟩
      · rw [hstep, hpull]
        simp [hb₂, hconv, hreply, hrun]
      · rw [hflatk, hflat₂, take_left]
        rfl

/-- **One call.**  When the stream goes on with a well-formed message, `mntrpcread` decodes
its header, leaves its data in `r->b` and the rest of what was read in the queue. -/
theorem mntrpcread_spec (al : Allocator) {convM2S : List UInt8 → Int → Option F} {msg rest : List UInt8}
    (hd : Decodes convM2S) (hwf : WellFormed convM2S msize msg) (hm : Stands msize m l ws)
    (hws : ∀ r ∈ ws, sumBlen r ≠ 0) (hstream : flat (l ++ ws.flatten) = msg ++ rest) :
    (mntrpcread al convM2S msize m = none ∧ m.Panics al msize) ∨
    ∃ r l' k ws₁ ws₂, mntrpcread al convM2S msize m = some r ∧ ws = ws₁ ++ ws₂ ∧
      r.reply = convM2S msg msg.length ∧ Stands msize r.input l' ws₂ ∧
      Chain r.input.st.heap r.b k ∧ flat k = dataOf msg ∧ (addrs k).Disjoint (addrs l') ∧
      flat (l ++ ws₁.flatten) = msg ++ flat l' := by
  have hleast := hwf.least
  have hmost := hwf.most
  have hlength := @length_append _ msg rest
  have hsize : gbit32 (msg ++ rest) = msg.length := by
    have htake : (msg ++ rest).take 7 = msg.take 7 := take_append_of_le_length hleast
    rw [gbit32_of_take htake (by decide), hwf.size]
  rw [← delivered_all hws] at hstream
  rcases head_spec al hm hstream (by omega) with ⟨hnone, hpanic⟩ | ⟨head, hhead, hcase⟩
  · exact Or.inl ⟨by rw [mntrpcread, hnone]; rfl, Or.inl hpanic⟩
  · have hread : mntrpcread al convM2S msize m = mntrpcTail al convM2S head := by
      rw [mntrpcread, hhead]
      rfl
    rw [hread]
    rcases hcase with ⟨m', b, w, t, ws₁, ws₂, rfl, hsplit, hm', hw, hle, hflat, -⟩ | ⟨-, -, -, -, -, hbig⟩
    · rw [hsize] at hle ⊢
      -- the queue holds the message
      have hgot : ∃ more, flat ((b, w) :: t) = msg ++ more := by
        have hprefix : flat ((b, w) :: t) <+: msg ++ rest := by
          rw [← hstream, delivered_all hws, hsplit, flatten_append, ← append_assoc, flat_append, ← hflat]
          exact prefix_append _ _
        have hlong : msg.length ≤ (flat ((b, w) :: t)).length := by
          rw [length_flat]
          omega
        obtain ⟨more, hmore⟩ := prefix_of_prefix_length_le (prefix_append msg rest) hprefix hlong
        exact ⟨more, hmore.symm⟩
      obtain ⟨more, hmore⟩ := hgot
      rcases tail_spec al hd hwf hm' hw hmore with
        ⟨hnone, hpanic⟩ | ⟨r, l', k, hrun, hreply, hm₂, hk, hdata, hdisj, hl'⟩
      · rw [hsize] at hhead
        exact Or.inl ⟨hnone, Or.inr ⟨_, hhead, hpanic⟩⟩
      · exact Or.inr ⟨r, l', k, ws₁, ws₂, hrun, hsplit, hreply, hm₂, hk, hdata, hdisj, by rw [← hflat, hmore, hl']⟩
    · omega

/-- A run: the input side, what each call has left in `r->reply` and in the blocks of
`r->b`, and all bytes `bread` has returned. -/
structure Session (F : Type) where
  input : Input
  got : List (Option F × List UInt8)
  read : List UInt8

/-- A call of `mntrpcread`, or any other use of the block heap. -/
inductive Act
  | call
  | env (heap : Heap)

/-- The mount has just been made and the transport will deliver `stream`, cut into block
lists of at least one byte each, and at most as many as `bread` is asked for. -/
def Session.Start (msize : Int) (stream : List UInt8) (t : Session F) : Prop :=
  MsizeOk msize ∧ t.got = [] ∧ t.read = [] ∧ (∃ limit, t.input.st.q = qopen limit {} false) ∧
    ∃ ws, Wire msize t.input.st.heap t.input.wire ws ∧ (addrs ws.flatten).Nodup ∧
      (∀ r ∈ ws, sumBlen r ≠ 0) ∧ flat ws.flatten = stream

/-- A step.  Others leave alone the blocks of the queue and those still to be delivered. -/
def Session.Step (al : Allocator) (convM2S : List UInt8 → Int → Option F) (msize : Int)
    (t : Session F) : Act → Session F → Prop
  | .call, t' => ∃ r bytes ws₁ ws₂, mntrpcread al convM2S msize t.input = some r ∧
      blockbytes r.input.st.heap r.b = some bytes ∧
      Wire msize t.input.st.heap t.input.wire (ws₁ ++ ws₂) ∧ ws₂.length = r.input.wire.length ∧
      t' = ⟨r.input, t.got ++ [(r.reply, bytes)], t.read ++ flat ws₁.flatten⟩
  | .env heap, t' =>
    (∀ l, Chain t.input.st.heap t.input.st.q.bfirst l → ∀ x ∈ addrs l,
      heap x = t.input.st.heap x) ∧
    (∀ ws, Wire msize t.input.st.heap t.input.wire ws → ∀ x ∈ addrs ws.flatten,
      heap x = t.input.st.heap x) ∧
    t' = { t with input := { t.input with st := { t.input.st with heap } } }

/-- The replies so far are those of the first messages, and the queue holds what was read
beyond them. -/
def Session.Framed (convM2S : List UInt8 → Int → Option F) (msize : Int) (msgs : List (List UInt8))
    (rest : List UInt8) (t : Session F) : Prop :=
  t.got = (msgs.take t.got.length).map (fun msg => (convM2S msg msg.length, dataOf msg)) ∧
    ∃ l ws, Stands msize t.input l ws ∧ (∀ r ∈ ws, sumBlen r ≠ 0) ∧ t.read = (msgs.take t.got.length).flatten ++ flat l ∧
      t.read ++ flat ws.flatten = msgs.flatten ++ rest

theorem Wire.unique {ws' : List Cells} (hw : Wire msize h wire ws) (hw' : Wire msize h wire ws') : ws = ws' := by
  induction hw generalizing ws' with
  | nil =>
    cases hw'
    rfl
  | cons hc _ ih =>
    cases hw' with
    | cons hc' hrest =>
      rw [hc.1.unique hc'.1, ih hrest]

theorem Wire.length_eq (hw : Wire msize h wire ws) : wire.length = ws.length := List.Forall₂.length_eq hw

section Run

variable {al : Allocator} {convM2S : List UInt8 → Int → Option F} {msize : Int}
  {msgs : List (List UInt8)} {rest : List UInt8} {t t' : Session F}

theorem Session.Start.framed (hs : t.Start msize (msgs.flatten ++ rest)) :
    t.Framed convM2S msize msgs rest := by
  obtain ⟨hsense, hgot, hread, ⟨limit, hq⟩, ws, hw, hnodup, hfull, hflat⟩ := hs
  have hrep : Rep t.input.st [] := Rep.empty (by rw [hq]; rfl) (by rw [hq]; rfl) (by rw [hq]; rfl)
  refine ⟨by simp [hgot], [], ws, ⟨hsense, hrep.feeds, by simp, hw, hnodup, by simp⟩, hfull, ?_, ?_⟩
  · simp [hgot, hread]
  · simp [hread, hflat]

/-- The next message is at the front of what is queued and still to come. -/
theorem Session.Framed.next {l : Cells} {ws : List Cells} (hlt : t.got.length < msgs.length)
    (hread : t.read = (msgs.take t.got.length).flatten ++ flat l)
    (hstream : t.read ++ flat ws.flatten = msgs.flatten ++ rest) :
    flat (l ++ ws.flatten) =
      msgs.get ⟨t.got.length, hlt⟩ ++ ((msgs.drop (t.got.length + 1)).flatten ++ rest) := by
  have hsplit : msgs.flatten = (msgs.take t.got.length).flatten ++
      (msgs.get ⟨t.got.length, hlt⟩ ++ (msgs.drop (t.got.length + 1)).flatten) := by
    rw [← flatten_cons, get_eq_getElem, getElem_cons_drop, ← flatten_append, take_append_drop]
  rw [hread, hsplit, append_assoc, append_assoc, append_assoc] at hstream
  have hcancel := append_cancel_left hstream
  rw [flat_append, hcancel]

theorem Session.Framed.step (hd : Decodes convM2S)
    (hmsgs : ∀ msg ∈ msgs, WellFormed convM2S msize msg) {act : Act}
    (hf : t.got.length ≤ msgs.length → t.Framed convM2S msize msgs rest)
    (hs : t.Step al convM2S msize act t') (hle : t'.got.length ≤ msgs.length) :
    t'.Framed convM2S msize msgs rest := by
  cases act with
  | env heap =>
    obtain ⟨hq, hw, rfl⟩ := hs
    obtain ⟨hgot, l, ws, hm, hfull, hread, hstream⟩ := hf hle
    refine ⟨hgot, l, ws, ⟨hm.sensible, ⟨?_, hm.feeds.dlen, hm.feeds.last⟩, hm.small, ?_, hm.nodup, hm.disj⟩, hfull,
      hread, hstream⟩
    · exact hm.feeds.chain.frame (hq l hm.feeds.chain)
    · exact hm.wire.frame (hw ws hm.wire)
  | call =>
    obtain ⟨r, bytes, ws₁, ws₂, hrun, hbytes, hws, hlen, rfl⟩ := hs
    simp only [length_append, length_singleton] at hle
    have hlt : t.got.length < msgs.length := by omega
    obtain ⟨hgot, l, ws, hm, hfull, hread, hstream⟩ := hf (by omega)
    have hnext := Session.Framed.next hlt hread hstream
    have hwf := hmsgs _ (get_mem msgs ⟨t.got.length, hlt⟩)
    rcases mntrpcread_spec al hd hwf hm hfull hnext with
      ⟨hnone, _⟩ | ⟨r', l', k, ws₁', ws₂', hrun', hws', hreply, hm', hk, hdata, _, htaken⟩
    · rw [hnone] at hrun
      cases hrun
    · cases hrun.symm.trans hrun'
      rw [blockbytes_spec hk] at hbytes
      cases hbytes
      -- the lists read are those no longer to come
      have hsame : ws₁ ++ ws₂ = ws₁' ++ ws₂' := (hws.unique hm.wire).trans hws'
      have hlen' : ws₂.length = ws₂'.length := hlen.trans hm'.wire.length_eq
      obtain ⟨rfl, rfl⟩ := append_inj' hsame hlen'
      have htake : msgs.take (t.got.length + 1) =
          msgs.take t.got.length ++ [msgs.get ⟨t.got.length, hlt⟩] := by
        rw [take_succ_eq_append_getElem hlt]
        rfl
      rw [flat_append] at htaken
      refine ⟨?_, l', ws₂, hm', fun r hr => hfull r (by rw [hws']; exact mem_append_right _ hr), ?_, ?_⟩
      · simp only [length_append, length_singleton, htake, map_append,
          map_cons, map_nil, ← hgot, hreply, hdata]
      · simp only [length_append, length_singleton, htake, flatten_append,
          flatten_cons, flatten_nil, append_nil, append_assoc]
        rw [hread, append_assoc, htaken]
      · simp only [append_assoc]
        rw [← hstream, hws', flatten_append, flat_append]

/-- **Framing.**  The transport delivers a stream of well-formed replies, cut into blocks
in any way.  After any calls of `mntrpcread`, as many as there are messages at most: the
calls have decoded the first messages, one each and in order, with the data of the read
replies in `r->b`; the blocks on `mnt->q` hold exactly what was read beyond them, and
`qlen` counts it.  A further call, with a message still to come, succeeds, unless the kernel panics
in it for want of a block; its `r->b` shares no block with the queue. -/
theorem replies_in_order (al : Allocator) (convM2S : List UInt8 → Int → Option F) (msize : Int)
    (msgs : List (List UInt8)) (rest : List UInt8) (hd : Decodes convM2S)
    (hmsgs : ∀ msg ∈ msgs, WellFormed convM2S msize msg) (t : Session F)
    (hr : Reach (Session.Start msize (msgs.flatten ++ rest)) (Session.Step al convM2S msize) t)
    (hle : t.got.length ≤ msgs.length) :
    t.got = (msgs.take t.got.length).map (fun msg => (convM2S msg msg.length, dataOf msg)) ∧
    t.read <+: msgs.flatten ++ rest ∧
    (∃ l, Chain t.input.st.heap t.input.st.q.bfirst l ∧
      t.read = (msgs.take t.got.length).flatten ++ flat l ∧
      t.input.st.q.dlen = (flat l).length) ∧
    (t.got.length < msgs.length →
      (mntrpcread al convM2S msize t.input = none ∧ t.input.Panics al msize) ∨
      ∃ r l k, mntrpcread al convM2S msize t.input = some r ∧ r.reply ≠ none ∧
        Chain r.input.st.heap r.input.st.q.bfirst l ∧ Chain r.input.st.heap r.b k ∧
        (addrs k).Disjoint (addrs l)) := by
  have hinv := hr.invariant (fun t => t.got.length ≤ msgs.length → t.Framed convM2S msize msgs rest)
    (fun _ hs _ => hs.framed) (fun _ _ _ hf hs => Session.Framed.step hd hmsgs hf hs)
  obtain ⟨hgot, l, ws, hm, hfull, hread, hstream⟩ := hinv hle
  refine ⟨hgot, ⟨_, hstream⟩, ⟨l, hm.feeds.chain, hread, ?_⟩, ?_⟩
  · rw [hm.dlen, length_flat]
  · intro hlt
    have hnext := Session.Framed.next hlt hread hstream
    have hwf := hmsgs _ (List.get_mem msgs ⟨t.got.length, hlt⟩)
    rcases mntrpcread_spec al hd hwf hm hfull hnext with
      hpanic | ⟨r, l', k, _, _, hrun, _, hreply, hm', hk, _, hdisj, _⟩
    · exact Or.inl hpanic
    · right
      refine ⟨r, l', k, hrun, ?_, hm'.feeds.chain, hk, hdisj⟩
      rw [hreply]
      exact hwf.accepted

end Run

/-- The transport delivers these bytes in one block. -/
def oneInput (bytes : List UInt8) : Input :=
  ⟨⟨fun a => if a = 1 then some ⟨none, ⟨0, bytes, 0⟩⟩ else none, qopen 64 {} false⟩, [1]⟩

theorem oneInput_stands {bytes : List UInt8} (hle : bytes.length ≤ 8192) :
    Stands 8192 (oneInput bytes) [] [[(1, ⟨0, bytes, 0⟩)]] := by
  have hc : Chain (oneInput bytes).st.heap (some 1) [(1, ⟨0, bytes, 0⟩)] :=
    chain_cons.mpr ⟨rfl, none, rfl, chain_nil.mpr rfl⟩
  have hsum : (sumBlen [(1, (⟨0, bytes, 0⟩ : Buf))] : Int) ≤ 8192 := by
    simp only [sumBlen_cons, sumBlen_nil, Buf.blen]
    omega
  exact ⟨⟨by decide, by decide⟩, ⟨chain_nil.mpr rfl, int32_zero.symm, by simp⟩, by simp,
    List.Forall₂.cons ⟨hc, hsum⟩ List.Forall₂.nil, by simp, by simp⟩

theorem oneInput_bytes {bytes : List UInt8} (hseven : 7 ≤ bytes.length) :
    flat ([] ++ delivered [[(1, ⟨0, bytes, 0⟩)]]) = bytes := by
  have hfull : ∀ r ∈ [[(1, (⟨0, bytes, 0⟩ : Buf))]], sumBlen r ≠ 0 := by
    simp only [mem_singleton, forall_eq, sumBlen_cons, sumBlen_nil, Buf.blen]
    omega
  rw [delivered_all hfull]
  simp

/-- No block has to be allocated for a header that is in the first block. -/
theorem Stands.not_panics {al : Allocator} {v : Buf} {t : Cells} (hm : Stands msize m ((a, v) :: t) ws)
    (hle : n ≤ v.blen) : ¬ m.st.Panics al n := by
  rintro ⟨a', b, hfirst, ha, hroom, -⟩
  obtain ⟨hfirst', _, ha', _⟩ := chain_cons.mp hm.feeds.chain
  cases hfirst'.symm.trans hfirst
  cases ha'.symm.trans ha
  simp only at hroom
  omega

theorem oneInput_fits {al : Allocator} {bytes : List UInt8} (hseven : 7 ≤ bytes.length)
    (hle : bytes.length ≤ 8192) : ¬ (oneInput bytes).HeadPanics al := by
  rintro ⟨m₁, hread, hpanic⟩
  obtain ⟨m', ok, l, ws₁, ws₂, hread', hm, hws, -, hdone⟩ :=
    doread_spec (by decide : (7 : Int) ≤ 1024 * 1024) (oneInput_stands hle)
  cases hread.symm.trans hread'
  obtain ⟨hlong, hl, -⟩ := hdone rfl
  cases ws₁ with
  | nil =>
    rw [hl] at hlong
    simp at hlong
  | cons r ws₁ =>
    rw [cons_append] at hws
    obtain ⟨rfl, hnil⟩ := List.cons.inj hws
    obtain ⟨rfl, -⟩ := append_eq_nil_iff.mp hnil.symm
    rw [hl] at hm
    exact Stands.not_panics (n := 7) hm hseven hpanic

/-- The buffer of one block with an `Rclunk` message, tag 1. -/
def rclunk : Buf := ⟨0, [7, 0, 0, 0, 121, 1, 0], 0⟩

/-- The transport delivers that block and nothing else. -/
def oneReply : Session UInt8 := ⟨oneInput rclunk.data, [], []⟩

/-- `convM2S` on messages of this type and size. -/
def convClunk (p : List UInt8) (n : Int) : Option UInt8 :=
  if n = 7 ∧ p.getD 4 0 = 121 then some 121 else none

theorem decodes_convClunk : Decodes convClunk := by
  refine ⟨?_, ?_, ?_⟩
  · intro p p' n htake
    by_cases hn : n = 7
    · subst hn
      unfold convClunk
      rw [getD_of_take htake (by omega : 4 < 7)]
    · have hn' : ¬ (n : Int) = 7 := by omega
      simp [convClunk, hn']
  · intro p p' n htake _
    unfold convClunk
    rw [getD_of_take htake (by omega : 4 < 11)]
  · intro p n hr hne
    have hnot : ¬ ((n : Int) = 7 ∧ p.getD 4 0 = 121) := by
      rw [hr]
      exact fun h => absurd h.2 (by decide)
    exact (hne (if_neg hnot)).elim

theorem rclunk_wellFormed : WellFormed convClunk 8192 rclunk.data :=
  ⟨by decide, by decide, by decide, by decide⟩

theorem oneReply_stands : Stands 8192 oneReply.input [] [[(1, rclunk)]] := oneInput_stands (by decide)

theorem oneReply_start : oneReply.Start 8192 (List.flatten [rclunk.data] ++ []) :=
  ⟨oneReply_stands.sensible, rfl, rfl, ⟨64, rfl⟩, _, oneReply_stands.wire, oneReply_stands.nodup, by decide, rfl⟩

theorem oneReply_returns : mntrpcread oneBlock convClunk 8192 oneReply.input ≠ none := by
  rcases head_spec oneBlock oneReply_stands (oneInput_bytes (by decide)) (by decide) with
    ⟨-, hpanic⟩ | ⟨head, hhead, ⟨m', b, w, t, ws₁, ws₂, rfl, hws, hm, hw, -, hflat, -⟩ | ⟨-, -, -, -, -, hbig⟩⟩
  · exact (oneInput_fits (by decide) (by decide) hpanic).elim
  · have hsize : gbit32 rclunk.data = 7 := by decide
    have hdata : w.data = rclunk.data := by
      have hall : w.data ++ (flat t ++ flat ws₂.flatten) = rclunk.data := by
        have hflatten := congrArg (fun ws => flat (flatten ws)) hws
        rw [flat_cons, nil_append] at hflat
        rw [← append_assoc, hflat]
        simpa using hflatten.symm
      exact IsPrefix.eq_of_length_le ⟨_, hall⟩ hw
    obtain ⟨hfirst, n, hb, -⟩ := chain_cons.mp hm.feeds.chain
    have hfits : (7 : Int) ≤ w.blen := by
      rw [Buf.blen, hdata]
      decide
    have hpull : Qio.pullupqueue oneBlock m'.st 7 = some (m'.st, some b) := by
      simp only [Qio.pullupqueue, hfirst, hb, bind_eq_bind, bind_some]
      exact if_pos hfits
    obtain ⟨s', htake, -, -, -⟩ := rpcTake_spec hm.feeds 7
    have hturn := rpcData_turn oneBlock none none (Nat.le_refl 7) htake
    have hconv : convClunk w.data 7 = some 121 := by
      rw [hdata]
      decide
    have htype : w.data.getD 4 0 ≠ rread := by
      rw [hdata]
      decide
    have hempty : (w.pull 7).blen = 0 := by
      rw [Buf.blen, Buf.data_pull, hdata]
      decide
    change _ = some (Head.parse m' b (gbit32 rclunk.data)) at hhead
    rw [hsize] at hhead
    have hseven : ((7 : Nat) : Int) = 7 := rfl
    rw [hseven] at hturn
    rw [mntrpcread, hhead]
    simp only [mntrpcTail, bind_eq_bind, bind_some, hb, if_neg htype, hpull, hconv, hturn, hempty, rpcLink]
    exact some_ne_none _
  · revert hbig
    decide

/-- After one call. -/
theorem replies_in_order_clunk : ∃ t : Session UInt8, t.got = [(some 121, [])] ∧
    t.read = rclunk.data ∧ t.input.st.q.dlen = 0 := by
  have hnext : flat (([] : Cells) ++ List.flatten [[(1, rclunk)]]) = rclunk.data ++ [] := by decide
  rcases mntrpcread_spec oneBlock decodes_convClunk rclunk_wellFormed oneReply_stands (by decide) hnext with
    ⟨hnone, _⟩ | ⟨r, l, k, ws₁, ws₂, hrun, hws, hreply, hm, hk, hdata, _, htaken⟩
  · exact (oneReply_returns hnone).elim
  · have hwire : Wire 8192 oneReply.input.st.heap oneReply.input.wire (ws₁ ++ ws₂) :=
      hws ▸ oneReply_stands.wire
    have hstep : oneReply.Step oneBlock convClunk 8192 .call
        ⟨r.input, [(r.reply, flat k)], flat ws₁.flatten⟩ :=
      ⟨r, flat k, ws₁, ws₂, hrun, blockbytes_spec hk, hwire, hm.wire.length_eq.symm, rfl⟩
    have hreach := (Reach.start oneReply_start).next hstep
    have hmsgs : ∀ msg ∈ [rclunk.data], WellFormed convClunk 8192 msg := by
      intro msg hmem
      rw [List.mem_singleton.mp hmem]
      exact rclunk_wellFormed
    obtain ⟨hgot, hprefix, ⟨l', _, hread, hlen⟩, _⟩ := replies_in_order oneBlock convClunk 8192
      [rclunk.data] [] decodes_convClunk hmsgs _ hreach (by simp)
    have hmsg : (List.take 1 [rclunk.data]).flatten = rclunk.data := by decide
    simp only [length_singleton, hmsg] at hread
    have hempty : flat l' = [] := by
      have hle := hprefix.length_le
      rw [hread] at hle
      simp only [length_append, flatten_cons, flatten_nil, append_nil] at hle
      exact eq_nil_of_length_eq_zero (by omega)
    rw [hempty, append_nil] at hread
    rw [hempty] at hlen
    exact ⟨_, hgot, hread, hlen⟩

end Mnt
