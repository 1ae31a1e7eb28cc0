import NixKernel.QioCustody
import NixKernel.QioStep

/-!
# Pulling a header up into the first block

`pullupblock` makes sure that the first block of a list has `n` bytes, by moving bytes
up from the blocks behind it, or into a new block in front of it when the first one has
no room.  `pullupqueue` does so with the list of a queue and finds its last block again.

Neither touches `q->len`, the count of allocated space, although blocks come and go.  So a queue
that is read through `pullupqueue` is described without that count: `Feeds s l` is `Rep s l` less
its field `len`.
-/

namespace Qio

open HeapChain Custody List Option
open Function (update update_of_ne)

/-- `memmove(b->wp, p, n); b->wp += n`.  A copy past `b->lim` is not defined. -/
def Buf.append? (b : Buf) (bytes : List UInt8) : Option Buf :=
  if bytes.length ≤ b.room then some (b.fill bytes) else none

/-- "copy bytes from the trailing blocks into the first": the loop of `pullupblock`, `n`
bytes to go. -/
def Heap.pullupLoop (h : Heap) (bp : Addr) (n : Nat) : Option (Heap × Option Addr) := do
  let b ← h bp
  match b.next with
  | none =>
    let h ← freeb h bp
    return (h, none)
  | some nbp =>
    let nb ← h nbp
    let i := nb.val.blen
    if n < i then
      let val ← b.val.append? (nb.val.data.take n)
      let h := update h bp (some { b with val })
      return (update h nbp (some { nb with val := nb.val.pull n }), some bp)
    else
      let val ← b.val.append? nb.val.data
      let h := update h bp (some ⟨nb.next, val⟩)
      let h ← freeb (update h nbp (some { nb with next := none })) nbp
      if n - i = 0 then return (h, some bp)
      else h |>.pullupLoop bp (n - i)
partial_fixpoint

export Heap (pullupLoop)

/-- "if not enough room in the first block, add another to the front of the list". -/
def pullupRoom (al : Allocator) (h : Heap) (bp : Addr) (b : Buf) (n : Nat) :
    Option (Heap × Addr) :=
  if b.blen + b.room < n then do
    let (nbp, h) ← allocb al h n
    let nb ← h nbp
    return (update h nbp (some { nb with next := some bp }), nbp)
  else some (h, bp)

/-- `pullupblock`: nil when there are fewer than `n` bytes. -/
def pullupblock (al : Allocator) (h : Heap) (bp : Addr) (n : Int) :
    Option (Heap × Option Addr) := do
  let b ← h bp
  if n ≤ b.val.blen then return (h, some bp)
  else
    let (h, bp) ← pullupRoom al h bp b.val n.toNat
    let b ← h bp
    pullupLoop h bp (n.toNat - b.val.blen)

/-- `pullupqueue`. -/
def pullupqueue (al : Allocator) (s : Qs) (n : Int) : Option (Qs × Option Addr) := do
  let bfirst ← s.q.bfirst
  let b ← s.heap bfirst
  if n ≤ b.val.blen then return (s, some bfirst)
  else
    let (h, p) ← pullupblock al s.heap bfirst n
    match p with
    | none => return (⟨h, { s.q with bfirst := none, blast := none }⟩, none)
    | some a =>
      let last ← lastblock h a
      return (⟨h, { s.q with bfirst := some a, blast := some last }⟩, some a)

/-- The queue of `s` holds the blocks `l`; nothing is said of `q->len`. -/
structure Feeds (s : Qs) (l : Cells) : Prop where
  chain : Chain s.heap s.q.bfirst l
  dlen : s.q.dlen = int32 (sumBlen l)
  last : ∀ a, (addrs l).getLast? = some a → s.q.blast = some a

/-- The same queue with another `len`. -/
def Qs.relen (s : Qs) (n : Int) : Qs := { s with q := { s.q with len := n } }

variable {s s' : Qs} {l r t : Cells} {a : Addr} {v : Buf} {h h' : Heap}

theorem Rep.feeds (hr : Rep s l) : Feeds s l := ⟨hr.chain, hr.dlen, hr.last⟩

theorem Feeds.rep (hf : Feeds s l) : ∃ n, Rep (s.relen n) l := by
  obtain ⟨n, hn⟩ : ∃ n, n = int32 (sumBalloc l) := ⟨_, rfl⟩
  exact ⟨n, hf.chain, hn, hf.dlen, hf.last⟩

theorem Rep.feeds_relen (hr : Rep s l) (n : Int) : Feeds (s.relen n) l :=
  ⟨hr.chain, hr.dlen, hr.last⟩

theorem qremove_relen {n : Int} {b : Option Addr} (hrun : qremove (s.relen n) = some (s', b)) :
    ∃ m, qremove s = some (s'.relen m, b) := by
  obtain ⟨heap, ⟨bfirst, blast, len, dlen, limit, inilim, state, noblock, eof, kick, bypass, err⟩⟩ := s
  cases bfirst with
  | none =>
    cases hrun
    exact ⟨len, rfl⟩
  | some a =>
    simp only [Qio.qremove, Qs.relen, bind_eq_bind, bind_eq_some_iff, Option.pure_def] at hrun
    obtain ⟨blk, hblk, heq⟩ := hrun
    cases heq
    exact ⟨int32 (len - blk.val.balloc), by simp [Qio.qremove, hblk, Qs.relen]⟩

theorem linkTail_relen {n : Int} (hrun : linkTail (s.relen n) a = some s') :
    linkTail s a = some (s'.relen s.q.len) := by
  obtain ⟨heap, ⟨bfirst, blast, len, dlen, limit, inilim, state, noblock, eof, kick, bypass, err⟩⟩ := s
  cases bfirst with
  | none =>
    cases hrun
    rfl
  | some b =>
    simp only [linkTail, Qs.relen, bind_eq_bind, bind_eq_some_iff, Option.pure_def] at hrun
    obtain ⟨z, hz, blk, hblk, heq⟩ := hrun
    cases heq
    simp [linkTail, hz, hblk, Qs.relen]

theorem qaddlist_relen {n : Int} (hrun : qaddlist (s.relen n) a = some s') :
    ∃ m, qaddlist s a = some (s'.relen m) := by
  simp only [qaddlist, bind_eq_bind, bind_eq_some_iff, Option.pure_def] at hrun
  obtain ⟨s₁, hlink, len, hlen, dlen, hdlen, z, hz, heq⟩ := hrun
  cases heq
  have hlink' := linkTail_relen hlink
  refine ⟨int32 (s.q.len + len), ?_⟩
  simp only [qaddlist, hlink', Qs.relen, bind_eq_bind, bind_some, hlen, hdlen, hz]
  rfl

theorem qputback_relen {n : Int} (hrun : qputback (s.relen n) a = some s') :
    ∃ m, qputback s a = some (s'.relen m) := by
  simp only [qputback, Qs.relen, bind_eq_bind, bind_eq_some_iff, Option.pure_def] at hrun
  obtain ⟨blk, hblk, heq⟩ := hrun
  cases heq
  exact ⟨int32 (s.q.len + blk.val.balloc), by simp [qputback, hblk, Qs.relen]⟩

/-- The first block comes off. -/
theorem Feeds.qremove (hf : Feeds s ((a, v) :: t)) :
    ∃ s', Qio.qremove s = some (s', some a) ∧ Feeds s' t ∧ s'.heap a = some ⟨none, v⟩ ∧
      Settles s.heap s'.heap (cells ((a, v) :: t)) ({a} ∪ cells t) := by
  obtain ⟨_, hr⟩ := hf.rep
  obtain ⟨s₁, hrun, hm, ha⟩ := qremove_spec hr
  have hs := settles_qremove hr hrun
  obtain ⟨m, hrun'⟩ := qremove_relen hrun
  exact ⟨_, hrun', hm.rep.feeds_relen m, ha, hs⟩

/-- A list is added behind the queue's own. -/
theorem Feeds.qaddlist (hf : Feeds s l) (hc : Chain s.heap (some a) r)
    (hdisj : (addrs l).Disjoint (addrs r)) :
    ∃ s', Qio.qaddlist s a = some s' ∧ Feeds s' (l ++ r) ∧
      Settles s.heap s'.heap (cells l ∪ cells r) (cells (l ++ r)) := by
  obtain ⟨_, hr⟩ := hf.rep
  obtain ⟨s₁, hrun, hm⟩ := qaddlist_spec hr hc hdisj
  have hs := settles_qaddlist hr hc hdisj hrun
  obtain ⟨m, hrun'⟩ := qaddlist_relen hrun
  exact ⟨_, hrun', hm.rep.feeds_relen m, hs⟩

/-- A block goes back to the front. -/
theorem Feeds.qputback {n : Option Addr} (hf : Feeds s l) (ha : s.heap a = some ⟨n, v⟩)
    (hnot : a ∉ addrs l) :
    ∃ s', Qio.qputback s a = some s' ∧ Feeds s' ((a, v) :: l) ∧
      (∀ x ≠ a, s'.heap x = s.heap x) ∧
      Settles s.heap s'.heap (cells l ∪ {a}) (cells ((a, v) :: l)) := by
  obtain ⟨_, hr⟩ := hf.rep
  obtain ⟨s₁, hrun, hm⟩ := qputback_spec hr ha hnot
  have hs := settles_qputback hr ha hnot hrun
  obtain ⟨m, hrun'⟩ := qputback_relen hrun
  refine ⟨_, hrun', hm.rep.feeds_relen m, ?_, hs⟩
  intro x hx
  exact hm.off x (by simpa using hx)

/-- `qdiscard` does not look at the count of allocated space until it is done. -/
theorem qdiscardLoop_relen {len sofar : Nat} {gone : List UInt8} {n : Int} {r : Qs × Nat × List UInt8}
    (hrun : qdiscardLoop (s.relen n) len sofar gone = some r) :
    ∃ m, qdiscardLoop s len sofar gone = some (r.1.relen m, r.2) := by
  refine Qs.qdiscardLoop.partial_correctness len
    (fun sr sofar gone r => ∀ s n, sr = Qs.relen s n → ∃ m, qdiscardLoop s len sofar gone = some (r.1.relen m, r.2))
    ?_ _ _ _ _ hrun s n rfl
  rintro loop ih _ sofar gone r hbody s n rfl
  rw [qdiscardLoop]
  split at hbody
  · next hlt =>
    rw [if_pos hlt]
    have hbfirst : (s.relen n).q.bfirst = s.q.bfirst := rfl
    rw [hbfirst] at hbody
    cases hfirst : s.q.bfirst with
    | none =>
      rw [hfirst] at hbody
      cases hbody
      exact ⟨s.q.len, rfl⟩
    | some a =>
      rw [hfirst] at hbody
      obtain ⟨b, hb, hbody⟩ := Option.bind_eq_some_iff.mp hbody
      change s.heap a = some b at hb
      simp only [hb, Option.bind_eq_bind, Option.bind_some]
      split at hbody
      · next hle =>
        obtain ⟨⟨s₁, p⟩, hrem, hbody⟩ := Option.bind_eq_some_iff.mp hbody
        obtain ⟨h, hfree, hbody⟩ := Option.bind_eq_some_iff.mp hbody
        obtain ⟨m, hrem'⟩ := qremove_relen hrem
        have hfree' : freeb (s₁.relen m).heap a = some h := hfree
        rw [if_pos hle, hrem', Option.bind_some, hfree', Option.bind_some]
        exact ih _ _ _ _ hbody ⟨h, (s₁.relen m).q⟩ s₁.q.len rfl
      · next hnot =>
        rw [if_neg hnot]
        exact ih _ _ _ _ hbody _ n rfl
  · next hge =>
    rw [if_neg hge]
    cases hbody
    exact ⟨s.q.len, rfl⟩

theorem Feeds.restart (hf : Feeds s l) : Feeds { s with q := (Qio.restart s.q).1 } l := by
  rw [Qio.restart]
  split
  · exact ⟨hf.chain, hf.dlen, hf.last⟩
  · exact hf

/-- Throwing bytes away. -/
theorem Feeds.qdiscard (hf : Feeds s l) (len : Nat) :
    ∃ r, Qio.qdiscard s len = some r ∧ Feeds r.st (discardCells len l) ∧
      Settles s.heap r.st.heap (cells l) (cells (discardCells len l)) := by
  obtain ⟨_, hr⟩ := hf.rep
  obtain ⟨s', hrun, hm⟩ := qdiscardLoop_spec hr len 0 [] (Nat.zero_le _)
  have hs := settles_qdiscardLoop hr (Nat.zero_le _) hrun
  obtain ⟨m, hrun'⟩ := qdiscardLoop_relen hrun
  rw [Nat.sub_zero] at hm hs
  have hdone : Qio.qdiscard s len = some ⟨{ s'.relen m with q := (Qio.restart (s'.relen m).q).1 },
      (0 + min (len - 0) (flat l).length, [] ++ (flat l).take (len - 0)), false, (Qio.restart (s'.relen m).q).2⟩ := by
    rw [Qio.qdiscard, hrun']
    rfl
  exact ⟨_, hdone, (hm.rep.feeds_relen m).restart, hs⟩

/-- The blocks that the loop of `pullupblock` empties and frees, `n` bytes to go. -/
def emptied : Nat → Cells → Cells
  | _, [] => []
  | n, (a, v) :: t =>
    if n < v.blen then [] else (a, v) :: if n - v.blen = 0 then [] else emptied (n - v.blen) t

/-- Pulling `n` bytes up keeps the space of the list: its first block holds them already, or has
room for them and no block with space is emptied, or the block in front of it has the space of
those it empties. -/
def Balances (al : Allocator) (h : Heap) (n : Int) : Cells → Prop
  | [] => False
  | (a, v) :: t =>
    n ≤ v.blen ∨
    (¬n ≤ v.blen ∧ ¬(v.blen + v.room : Int) < n ∧ sumBalloc (emptied (n.toNat - v.blen) t) = 0) ∨
    (¬n ≤ v.blen ∧ (v.blen + v.room : Int) < n ∧ ∀ b hd, al.pick h n.toNat = some (b, hd) →
      sumBalloc (emptied n.toNat ((a, v) :: t)) = hd + n.toNat)

theorem Buf.append?_eq {b : Buf} {bytes : List UInt8} (hroom : bytes.length ≤ b.room) :
    b.append? bytes = some (b.fill bytes) := by
  simp [Buf.append?, hroom]

/-- Bytes that fit are copied into space that was there. -/
theorem Buf.balloc_fill {b : Buf} {bytes : List UInt8} (hroom : bytes.length ≤ b.room) :
    (b.fill bytes).balloc = b.balloc := by
  simp only [Buf.balloc, Buf.fill, length_append]
  omega

variable {n : Nat}

/-- A block allocated, with the space the allocator gave it. -/
theorem allocb_pick {al : Allocator} (hal : allocb al h n = some (a, h')) :
    h a = none ∧ ∃ hd, al.pick h n = some (a, hd) ∧
      h' = update h a (some ⟨none, ⟨hd, [], n⟩⟩) := by
  obtain ⟨⟨b, hd⟩, hpick, heq⟩ := Option.map_eq_some_iff.mp hal
  cases heq
  exact ⟨al.fresh hpick, hd, hpick, rfl⟩

/-- Moving bytes of the second block to the end of the first. -/
theorem pullupLoop_part {nbp : Addr} {nv : Buf} (hc : Chain h (some a) ((a, v) :: (nbp, nv) :: t))
    (hroom : n ≤ v.room) (hlt : n < nv.blen) :
    ∃ h', pullupLoop h a n = some (h', some a) ∧
      Chain h' (some a) ((a, v.fill (nv.data.take n)) :: (nbp, nv.pull n) :: t) ∧
      Settles h h' (cells ((a, v) :: (nbp, nv) :: t))
        (cells ((a, v.fill (nv.data.take n)) :: (nbp, nv.pull n) :: t)) := by
  have hnodup := hc.nodup
  simp only [addrs_cons, nodup_cons, mem_cons, not_or] at hnodup
  obtain ⟨⟨hne, hat⟩, hnt, _⟩ := hnodup
  obtain ⟨_, n₁, ha, htail⟩ := chain_cons.mp hc
  obtain ⟨rfl, m, hn, hrest⟩ := chain_cons.mp htail
  have happ : v.append? (nv.data.take n) = some (v.fill (nv.data.take n)) :=
    Buf.append?_eq (by simp; omega)
  have hchain : Chain (update (update h a (some ⟨some nbp, v.fill (nv.data.take n)⟩))
      nbp (some ⟨m, nv.pull n⟩)) (some a) ((a, v.fill (nv.data.take n)) :: (nbp, nv.pull n) :: t) := by
    refine chain_cons.mpr ⟨rfl, some nbp, ?_, ?_⟩
    · rw [update_of_ne hne]
      simp
    · exact (hrest.update_ne hat).cons_update hnt
  refine ⟨_, ?_, hchain, ?_⟩
  · rw [pullupLoop]
    simp [ha, hn, hlt, happ]
  · have hsame : cells ((a, v) :: (nbp, nv) :: t) =
        cells ((a, v.fill (nv.data.take n)) :: (nbp, nv.pull n) :: t) := rfl
    rw [hsame]
    refine Settles.change (live_of_chain hchain) ?_
    intro x hx
    simp only [mem_cells, addrs_cons, mem_cons, not_or] at hx
    rw [update_of_ne hx.2.1, update_of_ne hx.1]

/-- Emptying the second block into the first one, and freeing it. -/
theorem pullupLoop_whole {nbp : Addr} {nv : Buf} (hc : Chain h (some a) ((a, v) :: (nbp, nv) :: t))
    (hroom : n ≤ v.room) (hle : nv.blen ≤ n) :
    ∃ h', pullupLoop h a n =
        (if n - nv.blen = 0 then some (h', some a) else pullupLoop h' a (n - nv.blen)) ∧
      Chain h' (some a) ((a, v.fill nv.data) :: t) ∧
      Settles h h' (cells ((a, v) :: (nbp, nv) :: t)) (cells ((a, v.fill nv.data) :: t)) := by
  have hnodup := hc.nodup
  simp only [addrs_cons, nodup_cons, mem_cons, not_or] at hnodup
  obtain ⟨⟨hne, hat⟩, hnt, _⟩ := hnodup
  obtain ⟨_, n₁, ha, htail⟩ := chain_cons.mp hc
  obtain ⟨rfl, m, hn, hrest⟩ := chain_cons.mp htail
  have happ : v.append? nv.data = some (v.fill nv.data) :=
    Buf.append?_eq (by simp only [Buf.blen] at hle; omega)
  have hchain : Chain (update (update h a (some ⟨m, v.fill nv.data⟩)) nbp none)
      (some a) ((a, v.fill nv.data) :: t) := by
    refine chain_cons.mpr ⟨rfl, m, ?_, ?_⟩
    · rw [update_of_ne hne]
      simp
    · exact (hrest.update_ne hat).update_ne hnt
  refine ⟨_, ?_, hchain, ⟨live_of_chain hchain, ?_, ?_, ?_⟩⟩
  · have hnot : ¬ n < nv.blen := by omega
    rw [pullupLoop]
    simp [ha, hn, hnot, happ, freeb]
  · intro x hx hx'
    simp only [mem_cells, addrs_cons, mem_cons, not_or] at hx hx'
    have hxn : x = nbp := by tauto
    simp [hxn]
  · intro x hx hx'
    simp only [mem_cells, addrs_cons, mem_cons, not_or] at hx hx'
    tauto
  · intro x hx _
    simp only [mem_cells, addrs_cons, mem_cons, not_or] at hx
    rw [update_of_ne hx.2.1, update_of_ne hx.1]

/-- The loop moves `n` bytes up, if there are as many. -/
theorem pullupLoop_spec (hc : Chain h (some a) ((a, v) :: t)) (hpos : 0 < n) (hroom : n ≤ v.room)
    (hle : n ≤ sumBlen t) :
    ∃ h' w t', pullupLoop h a n = some (h', some a) ∧ Chain h' (some a) ((a, w) :: t') ∧
      w.data = v.data ++ (flat t).take n ∧ flat t' = (flat t).drop n ∧
      sumBalloc ((a, w) :: t') + sumBalloc (emptied n t) = sumBalloc ((a, v) :: t) ∧
      Settles h h' (cells ((a, v) :: t)) (cells ((a, w) :: t')) := by
  induction t generalizing h v n with
  | nil =>
    simp only [sumBlen_nil] at hle
    omega
  | cons c t ih =>
    obtain ⟨nbp, nv⟩ := c
    by_cases hlt : n < nv.blen
    · obtain ⟨h', hrun, hchain, hs⟩ := pullupLoop_part hc hroom hlt
      have hlen : n - nv.data.length = 0 := by
        simp only [Buf.blen] at hlt
        omega
      refine ⟨h', _, _, hrun, hchain, ?_, ?_, ?_, hs⟩
      · simp [Buf.fill, take_append, hlen]
      · simp [drop_append, hlen]
      · have hfill := @Buf.balloc_fill v (nv.data.take n) (by simp; omega)
        rw [emptied, if_pos hlt]
        simp only [sumBalloc_cons, sumBalloc_nil, hfill, Buf.balloc_pull, Nat.add_zero]
    · have hge : nv.blen ≤ n := by omega
      obtain ⟨h₁, hrun, hchain, hs⟩ := pullupLoop_whole hc hroom hge
      have htake : nv.data.take n = nv.data := take_of_length_le hge
      have hdrop : nv.data.drop n = [] := drop_of_length_le hge
      have hfill := @Buf.balloc_fill v nv.data
        (by simp only [Buf.blen] at hge; omega)
      by_cases hzero : n - nv.blen = 0
      · rw [if_pos hzero] at hrun
        have hspace : sumBalloc ((a, v.fill nv.data) :: t) + sumBalloc (emptied n ((nbp, nv) :: t)) =
            sumBalloc ((a, v) :: (nbp, nv) :: t) := by
          rw [emptied, if_neg hlt, if_pos hzero]
          simp only [sumBalloc_cons, sumBalloc_nil, hfill]
          omega
        simp only [Buf.blen] at hzero
        refine ⟨h₁, _, t, hrun, hchain, ?_, ?_, hspace, hs⟩
        · simp [Buf.fill, take_append, htake, hzero]
        · simp [drop_append, hdrop, hzero]
      · rw [if_neg hzero] at hrun
        rw [sumBlen_cons] at hle
        have hroom' : n - nv.blen ≤ (v.fill nv.data).room := by
          simp only [Buf.fill, Buf.blen]
          omega
        obtain ⟨h', w, t', hrun', hchain', hdata, hflat, hspace, hs'⟩ :=
          ih hchain (by omega) hroom' (by simp only at hle; omega)
        refine ⟨h', w, t', hrun.trans hrun', hchain', ?_, ?_, ?_, hs.trans hs'⟩
        · rw [hdata]
          simp [Buf.fill, take_append, htake, Buf.blen]
        · rw [hflat]
          simp [drop_append, hdrop, Buf.blen]
        · rw [emptied, if_neg hlt, if_neg hzero]
          simp only [sumBalloc_cons, hfill] at hspace ⊢
          omega

/-- `pullupblock` keeps the bytes and brings the first `n` of them into one block, unless
there is no memory for a block.  The space of the list is another afterwards, unless it balances. -/
theorem pullupblock_spec (al : Allocator) (hc : Chain h (some a) ((a, v) :: t))
    (hle : n ≤ sumBlen ((a, v) :: t)) :
    (pullupblock al h a n = none ∧ v.blen + v.room < n ∧ al.pick h n = none) ∨
    ∃ h' b w t', pullupblock al h a n = some (h', some b) ∧ Chain h' (some b) ((b, w) :: t') ∧
      n ≤ w.blen ∧ flat ((b, w) :: t') = flat ((a, v) :: t) ∧
      (sumBalloc ((b, w) :: t') = sumBalloc ((a, v) :: t) ↔ Balances al h n ((a, v) :: t)) ∧
      Settles h h' (cells ((a, v) :: t)) (cells ((b, w) :: t')) := by
  obtain ⟨_, m, ha, htail⟩ := chain_cons.mp hc
  by_cases hfits : n ≤ v.blen
  · right
    refine ⟨h, a, v, t, ?_, hc, hfits, rfl, ?_, Settles.refl (live_of_chain hc)⟩
    · simp [pullupblock, ha, hfits]
    · exact iff_of_true rfl (Or.inl (by omega))
  · rw [sumBlen_cons] at hle
    simp only at hle
    by_cases hroom : v.blen + v.room < n
    · -- a new block in front takes all `n` bytes
      cases hal : allocb al h n with
      | none =>
        left
        refine ⟨by simp [pullupblock, ha, hfits, pullupRoom, hroom, hal], hroom, ?_⟩
        simpa [allocb, iallocb] using hal
      | some p =>
        right
        obtain ⟨b, h₁⟩ := p
        obtain ⟨hfree, hd, hpick, rfl⟩ := allocb_pick hal
        have hb : b ∉ addrs ((a, v) :: t) := hc.not_mem_of_free hfree
        have hchain : Chain (update h b (some ⟨some a, ⟨hd, [], n⟩⟩)) (some b)
            ((b, ⟨hd, [], n⟩) :: (a, v) :: t) := hc.cons_update hb
        have hs : Settles h (update h b (some ⟨some a, ⟨hd, [], n⟩⟩))
            (cells ((a, v) :: t)) (cells ((b, ⟨hd, [], n⟩) :: (a, v) :: t)) := by
          have halloc := (Settles.alloc (b := ⟨some a, ⟨hd, [], n⟩⟩) hfree).frame
            (live_of_chain hc) (fun _ _ hx => hx.elim)
          rw [Set.empty_union] at halloc
          exact halloc.congr (fun _ => Iff.rfl) (by simp)
        obtain ⟨h', w, t', hrun, hchain', hdata, hflat, hspace, hs'⟩ :=
          pullupLoop_spec hchain (by omega) (le_refl n) (by simpa using hle)
        refine ⟨h', b, w, t', ?_, hchain', ?_, ?_, ?_, hs.trans hs'⟩
        · have hempty : Buf.blen ⟨hd, [], n⟩ = 0 := rfl
          simp [pullupblock, ha, hfits, pullupRoom, hroom, hal, hempty, hrun]
        · have hlen := length_flat ((a, v) :: t)
          simp only [sumBlen_cons] at hlen
          simp only [Buf.blen, hdata, nil_append, length_take, hlen]
          simp only [Buf.blen] at hle
          omega
        · simp only [flat_cons] at hdata hflat ⊢
          rw [hdata, hflat]
          simp [take_append_drop]
        · have hfront : sumBalloc ((b, ⟨hd, [], n⟩) :: (a, v) :: t) =
              hd + n + sumBalloc ((a, v) :: t) := sumBalloc_cons _ _
          rw [hfront] at hspace
          simp only [Balances, Int.toNat_natCast, hpick, Option.some.injEq, Prod.mk.injEq]
          constructor
          · intro hsame
            refine Or.inr (Or.inr ⟨by omega, by omega, ?_⟩)
            rintro b' hd' ⟨rfl, rfl⟩
            omega
          · rintro (hin | ⟨_, hin, _⟩ | ⟨_, _, hall⟩)
            · omega
            · omega
            · have hgone := hall b hd ⟨rfl, rfl⟩
              omega
    · right
      obtain ⟨h', w, t', hrun, hchain', hdata, hflat, hspace, hs'⟩ :=
        pullupLoop_spec (n := n - v.blen) hc (by omega) (by omega) (by omega)
      refine ⟨h', a, w, t', ?_, hchain', ?_, ?_, ?_, hs'⟩
      · simp [pullupblock, ha, hfits, pullupRoom, hroom, hrun]
      · have hlen := length_flat t
        simp only [Buf.blen, hdata, length_append, length_take, hlen]
        simp only [Buf.blen] at hle
        omega
      · simp only [flat_cons]
        rw [hdata, hflat, append_assoc, take_append_drop]
      · simp only [Balances, Int.toNat_natCast]
        constructor
        · intro hsame
          exact Or.inr (Or.inl ⟨by omega, by omega, by omega⟩)
        · rintro (hin | ⟨_, _, hgone⟩ | ⟨_, hin, _⟩)
          · omega
          · omega
          · omega

/-- The kernel panics for want of a block to put in front of the first one. -/
def Qs.Panics (al : Allocator) (s : Qs) (n : Int) : Prop :=
  ∃ a b, s.q.bfirst = some a ∧ s.heap a = some b ∧ (b.val.blen + b.val.room : Int) < n ∧
    al.pick s.heap n.toNat = none

/-- What `pullupqueue` does to a queue whose first block is too short. -/
theorem pullupqueue_short (al : Allocator) (hch : Chain s.heap s.q.bfirst ((a, v) :: t))
    (hlong : ¬n ≤ v.blen) (hle : n ≤ sumBlen ((a, v) :: t)) :
    (pullupqueue al s n = none ∧ s.Panics al n) ∨
    ∃ s' b w t', pullupqueue al s n = some (s', some b) ∧ Chain s'.heap s'.q.bfirst ((b, w) :: t') ∧
      (s'.q.len = s.q.len ∧ s'.q.dlen = s.q.dlen) ∧
      (∀ x, (addrs ((b, w) :: t')).getLast? = some x → s'.q.blast = some x) ∧ n ≤ w.blen ∧
      flat ((b, w) :: t') = flat ((a, v) :: t) ∧
      (sumBalloc ((b, w) :: t') = sumBalloc ((a, v) :: t) ↔ Balances al s.heap n ((a, v) :: t)) ∧
      Settles s.heap s'.heap (cells ((a, v) :: t)) (cells ((b, w) :: t')) := by
  obtain ⟨hfirst, m, ha, _⟩ := chain_cons.mp hch
  have hc : Chain s.heap (some a) ((a, v) :: t) := hfirst ▸ hch
  have hlong' : ¬(n : Int) ≤ v.blen := by omega
  rcases pullupblock_spec al hc hle with
    ⟨hnone, hroom, hmem⟩ | ⟨h', b, w, t', hrun, hchain, hw, hflat, hspace, hs⟩
  · left
    refine ⟨?_, a, _, hfirst, ha, ?_, hmem⟩
    · simp only [pullupqueue, hfirst, bind_eq_bind, bind_some, ha, if_neg hlong', hnone, bind_none]
    · show (v.blen + v.room : Int) < n
      omega
  · right
    obtain ⟨z, hz, hlast⟩ := lastblock_spec hchain
    refine ⟨⟨h', { s.q with bfirst := some b, blast := some z }⟩, b, w, t', ?_, hchain, ⟨rfl, rfl⟩,
      fun x hx => ?_, hw, hflat, hspace, hs⟩
    · simp only [pullupqueue, hfirst, bind_eq_bind, bind_some, ha, if_neg hlong', hrun, hz, Option.pure_def]
    · rw [hlast] at hx
      exact hx

/-- `pullupqueue` keeps the contents of the queue. -/
theorem Feeds.pullupqueue (al : Allocator) (hf : Feeds s l) (hne : l ≠ []) (hle : n ≤ sumBlen l) :
    (Qio.pullupqueue al s n = none ∧ s.Panics al n) ∨
    ∃ s' b w t', Qio.pullupqueue al s n = some (s', some b) ∧ Feeds s' ((b, w) :: t') ∧
      n ≤ w.blen ∧ flat ((b, w) :: t') = flat l ∧
      Settles s.heap s'.heap (cells l) (cells ((b, w) :: t')) := by
  cases l with
  | nil => exact (hne rfl).elim
  | cons c t =>
    obtain ⟨a, v⟩ := c
    obtain ⟨hfirst, m, ha, _⟩ := chain_cons.mp hf.chain
    by_cases hfits : n ≤ v.blen
    · right
      refine ⟨s, a, v, t, ?_, hf, hfits, rfl, Settles.refl (live_of_chain hf.chain)⟩
      simp [Qio.pullupqueue, hfirst, ha, hfits]
    · rcases pullupqueue_short al hf.chain hfits hle with
        hnone | ⟨s', b, w, t', hrun, hchain, ⟨-, hkept⟩, hlast, hw, hflat, -, hs⟩
      · exact Or.inl hnone
      · have hdlen : s'.q.dlen = int32 (sumBlen ((b, w) :: t')) := by
          rw [hkept, hf.dlen, ← length_flat, ← length_flat, hflat]
        exact Or.inr ⟨s', b, w, t', hrun, ⟨hchain, hdlen, hlast⟩, hw, hflat, hs⟩

/-- The queue of `s` holds the blocks `l`, and its counts are right. -/
structure Counted (s : Qs) (l : Cells) : Prop where
  chain : Chain s.heap s.q.bfirst l
  len : s.q.len = sumBalloc l
  dlen : s.q.dlen = sumBlen l
  last : ∀ a, (addrs l).getLast? = some a → s.q.blast = some a

/-- `pullupqueue` returns, unless the kernel panics, with the bytes of the queue unchanged, the
first `n` of them in one block, and a queue whose counts and last block are right. -/
def Qs.PullsUp (al : Allocator) (s : Qs) (l : Cells) (n : Int) : Prop :=
  (pullupqueue al s n = none → s.Panics al n) ∧
    ∀ s' p, pullupqueue al s n = some (s', p) → ∃ b w t, p = some b ∧ Counted s' ((b, w) :: t) ∧
      n ≤ w.blen ∧ flat ((b, w) :: t) = flat l

/-- A queue that is kept has balanced. -/
theorem Qs.PullsUp.balances {al : Allocator} {n : Int} (h : s.PullsUp al l n) (hr : Counted s l)
    (hle : n ≤ sumBlen l) : Balances al s.heap n l := by
  cases l with
  | nil =>
    have hfree : s.q.bfirst = none := chain_nil.mp hr.chain
    have hnone : pullupqueue al s n = none := by
      simp [pullupqueue, hfree]
    obtain ⟨a, _, hfirst, _⟩ := h.1 hnone
    rw [hfree] at hfirst
    cases hfirst
  | cons c t =>
    obtain ⟨a, v⟩ := c
    by_cases hfits : n ≤ v.blen
    · exact Or.inl hfits
    · obtain ⟨k, rfl⟩ := Int.eq_ofNat_of_zero_le (show 0 ≤ n by omega)
      have hlong : ¬k ≤ v.blen := by omega
      rcases pullupqueue_short al hr.chain hlong (by omega) with
        ⟨_, a', b', hfirst', ha', hroom, hmem⟩ | ⟨s', b, w, t', hrun, hchain, ⟨hsame, -⟩, _, _, _, hspace, _⟩
      · obtain ⟨hfirst, m, ha, _⟩ := chain_cons.mp hr.chain
        cases hfirst.symm.trans hfirst'
        cases ha.symm.trans ha'
        refine Or.inr (Or.inr ⟨hfits, hroom, fun b hd hpick => ?_⟩)
        rw [hmem] at hpick
        cases hpick
      · obtain ⟨_, w', t₁, _, hrep, _⟩ := h.2 _ _ hrun
        have hlist := Chain.unique hchain hrep.chain
        have hkept := hrep.len
        rw [← hlist] at hkept
        have hlen := hr.len
        exact hspace.mp (by omega)

/-- A queue that balances is kept. -/
theorem Balances.pullsUp {al : Allocator} {n : Int} (h : Balances al s.heap n l) (hr : Counted s l)
    (hle : n ≤ sumBlen l) : s.PullsUp al l n := by
  cases l with
  | nil => exact h.elim
  | cons c t =>
    obtain ⟨a, v⟩ := c
    obtain ⟨hfirst, m, ha, _⟩ := chain_cons.mp hr.chain
    by_cases hfits : n ≤ v.blen
    · have hrun : pullupqueue al s n = some (s, some a) := by
        simp [pullupqueue, hfirst, ha, hfits]
      refine ⟨fun hnone => ?_, fun s' p hsome => ?_⟩
      · rw [hrun] at hnone
        cases hnone
      · rw [hrun] at hsome
        cases hsome
        exact ⟨a, v, t, rfl, hr, hfits, rfl⟩
    · obtain ⟨k, rfl⟩ := Int.eq_ofNat_of_zero_le (show 0 ≤ n by omega)
      have hlong : ¬k ≤ v.blen := by omega
      rcases pullupqueue_short al hr.chain hlong (by omega) with
        ⟨hnone, hpanic⟩ | ⟨s₁, b, w, t', hrun, hchain, ⟨hsame, hkept⟩, hlast, hw, hflat, hspace, _⟩
      · refine ⟨fun _ => hpanic, fun s' p hsome => ?_⟩
        rw [hnone] at hsome
        cases hsome
      · refine ⟨fun hnone => ?_, fun s' p hsome => ?_⟩
        · rw [hrun] at hnone
          cases hnone
        · rw [hrun] at hsome
          cases hsome
          have hlen := hr.len
          have hbalanced := hspace.mpr h
          have hdlen : s₁.q.dlen = sumBlen ((b, w) :: t') := by
            rw [hkept, hr.dlen, ← length_flat, ← length_flat, hflat]
          exact ⟨b, w, t', rfl, ⟨hchain, by omega, hdlen, hlast⟩, by omega, hflat⟩

/-- **`pullupqueue` keeps a queue** exactly when the space of its blocks balances. -/
theorem Qs.pullsUp_iff (al : Allocator) {n : Int} (hr : Counted s l) (hle : n ≤ sumBlen l) :
    s.PullsUp al l n ↔ Balances al s.heap n l :=
  ⟨fun h => h.balances hr hle, fun h => h.pullsUp hr hle⟩

/-- The blocks of a header that came in two packets. -/
def twoPackets : Cells := [(1, ⟨0, [19, 0, 0, 0], 60⟩), (2, ⟨0, [117, 1, 0], 61⟩)]

/-- The queue that holds them. -/
def twoQueued : Qs where
  heap := update (update (fun _ => none) 2 (some ⟨none, ⟨0, [117, 1, 0], 61⟩⟩)) 1
    (some ⟨some 2, ⟨0, [19, 0, 0, 0], 60⟩⟩)
  q := { qopen 1024 {} false with bfirst := some 1, blast := some 2, len := 128, dlen := 7 }

theorem twoQueued_counted : Counted twoQueued twoPackets :=
  ⟨⟨rfl, some 2, rfl, rfl, none, rfl, rfl⟩, rfl, rfl, fun _ h => h⟩

theorem Qs.pullsUp_iff_part : twoQueued.PullsUp oneBlock twoPackets 5 :=
  (pullsUp_iff oneBlock twoQueued_counted (by decide)).2 (Or.inr (Or.inl (by decide)))

/-- **The header of a reply in two packets** is pulled up, and `q->len` is 64 bytes too large. -/
theorem pullupqueue_miscounts : Counted twoQueued twoPackets ∧ 7 ≤ sumBlen twoPackets ∧
    ¬twoQueued.PullsUp oneBlock twoPackets 7 := by
  refine ⟨twoQueued_counted, by decide, fun h => ?_⟩
  rcases h.balances twoQueued_counted (by decide) with hin | ⟨_, _, hgone⟩ | ⟨_, hroom, _⟩
  · exact absurd hin (by decide)
  · exact absurd hgone (by decide)
  · exact absurd hroom (by decide)

end Qio
