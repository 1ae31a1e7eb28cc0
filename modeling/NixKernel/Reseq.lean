import NixKernel.TcpCodec
import NixKernel.TcpSeq
import NixKernel.StepSystem

/-!
# The resequencing queue: `ip/tcp.c`

Segments that arrive before the bytes in front of them wait on `tcb->reseq`, in the order
of their sequence numbers.  `addreseq`, `getreseq` and `dumpreseq` each keep the list, the
count `nreseq` and the byte total `reseqlen` on their own, and `addreseq` gives the whole
queue up once it has grown past the receive window, in bytes or in segments.

Every insertion keeps neighbours in order, whatever the sequence numbers are.
-/

namespace Tcp

open StepSystem List

open TcpCodec (Block)

def QMAX : Nat := 64 * 1024 - 1
def Maxqscale : Nat := 4

/-- `Reseq`, without its link. -/
structure Reseq where
  seg : TcpCodec.Tcp
  bp : List Block
  length : UInt16

/-- What a `Tcpctl` has of the queue.  `tcpsetscale` lets no `qscale` above `Maxqscale`
through.  A connection whose `mss` is 0, as `tcpsndsyn` may set it, is left out: `addreseq`
traps on its division. -/
structure Resequencer where
  qscale : Nat
  mss : UInt16
  reseq : List Reseq
  nreseq : Int
  reseqlen : Int
  qscale_le : qscale ≤ Maxqscale
  mss_ne : mss ≠ 0

/-- `tcb->window`. -/
def Resequencer.window (tcb : Resequencer) : Nat := QMAX <<< tcb.qscale

/-- What an `int` keeps of a sum. -/
def int32 (v : Int) : Int := v.bmod (2 ^ 32)

/-- "Place on reassembly list sorting by starting seq number". -/
def place (rp : Reseq) : List Reseq → List Reseq
  | [] => [rp]
  | r :: rest => if seq_lt rp.seg.seq r.seg.seq then rp :: r :: rest else r :: place rp rest

/-- `dumpreseq`.  The blocks of the queue are freed. -/
def Resequencer.dumpreseq (tcb : Resequencer) : Int × Resequencer :=
  (-1, { tcb with reseq := [], nreseq := 0, reseqlen := 0 })

/-- `addreseq`; `malloc` tells whether there is memory for a `Reseq`. -/
def Resequencer.addreseq (tcb : Resequencer) (malloc : Bool) (seg : TcpCodec.Tcp) (bp : List Block)
    (length : UInt16) : Int × Resequencer :=
  if malloc then
    let tcb := { tcb with
      reseqlen := int32 (tcb.reseqlen + length.toNat)
      nreseq := int32 (tcb.nreseq + 1)
      reseq := place ⟨seg, bp, length⟩ tcb.reseq }
    if tcb.reseqlen > int32 tcb.window then tcb.dumpreseq
    else if tcb.nreseq > int32 (tcb.window / tcb.mss.toNat : Nat) then tcb.dumpreseq
    else (0, tcb)
  else (0, tcb)

/-- `getreseq`: the first segment of the queue, if there is one. -/
def Resequencer.getreseq (tcb : Resequencer) : Option Reseq × Resequencer :=
  match tcb.reseq with
  | [] => (none, tcb)
  | rp :: next =>
    (some rp, { tcb with
      reseq := next
      nreseq := int32 (tcb.nreseq - 1)
      reseqlen := int32 (tcb.reseqlen - rp.length.toNat) })

/-- A call of one of the three. -/
inductive Reseq.Call
  | addreseq (malloc : Bool) (seg : TcpCodec.Tcp) (bp : List Block) (length : UInt16)
  | getreseq
  | dumpreseq

def Resequencer.call (tcb : Resequencer) : Reseq.Call → Resequencer
  | .addreseq malloc seg bp length => (tcb.addreseq malloc seg bp length).2
  | .getreseq => tcb.getreseq.2
  | .dumpreseq => tcb.dumpreseq.2

/-- No segment waits, and the counters are zero. -/
structure Resequencer.Empty (tcb : Resequencer) : Prop where
  reseq : tcb.reseq = []
  nreseq : tcb.nreseq = 0
  reseqlen : tcb.reseqlen = 0

/-- The queue is within the limits of `addreseq`. -/
structure Resequencer.Limited (tcb : Resequencer) : Prop where
  reseqlen : tcb.reseqlen ≤ tcb.window
  nreseq : tcb.nreseq ≤ (tcb.window / tcb.mss.toNat : Nat)

/-- The queue is in order and its counters are right. -/
structure Resequencer.Ok (tcb : Resequencer) : Prop where
  neighbours : tcb.reseq.IsChain fun a b => seq_le a.seg.seq b.seg.seq = true
  sorted : ∀ nxt, (∀ r ∈ tcb.reseq, behind nxt r.seg.seq < 2 ^ 31) →
    tcb.reseq.Pairwise fun a b => behind nxt a.seg.seq ≤ behind nxt b.seg.seq
  nreseq : tcb.nreseq = tcb.reseq.length
  reseqlen : tcb.reseqlen = (tcb.reseq.map fun r => r.length.toNat).sum

theorem head_place {rp : Reseq} {l : List Reseq} :
    (place rp l).head? = some rp ∨ (place rp l).head? = l.head? := by
  cases l with
  | nil => exact Or.inl rfl
  | cons r rest =>
    rw [place]
    split
    · exact Or.inl rfl
    · exact Or.inr rfl

theorem place_perm {rp : Reseq} {l : List Reseq} : (place rp l).Perm (rp :: l) := by
  induction l with
  | nil => exact List.Perm.refl _
  | cons r rest ih =>
    rw [place]
    split
    · exact List.Perm.refl _
    · exact (ih.cons r).trans (List.Perm.swap rp r rest)

/-- An insertion keeps neighbours in order. -/
theorem place_chain {rp : Reseq} {l : List Reseq}
    (h : l.IsChain fun a b => seq_le a.seg.seq b.seg.seq = true) :
    (place rp l).IsChain fun a b => seq_le a.seg.seq b.seg.seq = true := by
  induction l with
  | nil => exact isChain_singleton _
  | cons r rest ih =>
    rw [place]
    split
    next hlt => exact isChain_cons_cons.mpr ⟨seq_le_of_lt hlt, h⟩
    next hnot =>
      obtain ⟨hnext, hrest⟩ := isChain_cons.mp h
      refine isChain_cons.mpr ⟨fun b hb => ?_, ih hrest⟩
      rcases @head_place rp rest with hhead | hhead
      · rw [hhead] at hb
        cases hb
        exact seq_le_of_not_lt (Bool.eq_false_iff.mpr hnot)
      · exact hnext b (hhead ▸ hb)

/-- Neighbours in order less than `2 ^ 31` behind a base make a list in order. -/
theorem pairwise_behind {nxt : UInt32} {l : List Reseq}
    (h : l.IsChain fun a b => seq_le a.seg.seq b.seg.seq = true)
    (hwin : ∀ r ∈ l, behind nxt r.seg.seq < 2 ^ 31) :
    l.Pairwise fun a b => behind nxt a.seg.seq ≤ behind nxt b.seg.seq := by
  have hchain : l.IsChain fun a b => behind nxt a.seg.seq ≤ behind nxt b.seg.seq := by
    induction l with
    | nil => exact isChain_nil
    | cons r rest ih =>
      obtain ⟨hnext, hrest⟩ := isChain_cons.mp h
      refine isChain_cons.mpr ⟨fun b hb => ?_, ih hrest fun x hx => hwin x (mem_cons_of_mem r hx)⟩
      have hmem : b ∈ r :: rest := mem_cons_of_mem r (mem_of_mem_head? hb)
      exact (seq_le_iff_behind (hwin r mem_cons_self) (hwin b hmem)).mp (hnext b hb)
  have htrans : IsTrans Reseq fun a b => behind nxt a.seg.seq ≤ behind nxt b.seg.seq :=
    ⟨fun _ _ _ => Nat.le_trans⟩
  exact hchain.pairwise

/-- The bytes of the segments of a list. -/
def total (l : List Reseq) : Nat := (l.map fun r => r.length.toNat).sum

theorem total_place {rp : Reseq} {l : List Reseq} : total (place rp l) = total l + rp.length.toNat := by
  rw [total, (place_perm.map _).sum_eq, map_cons, sum_cons, Nat.add_comm, total]

theorem length_place {rp : Reseq} {l : List Reseq} : (place rp l).length = l.length + 1 :=
  place_perm.length_eq

theorem int32_of_range {v : Int} (h : -2 ^ 31 ≤ v) (h' : v < 2 ^ 31) : int32 v = v := by
  rw [int32, Int.bmod_def]
  split <;> omega

/-- No window is larger than 16 times `QMAX`. -/
theorem Resequencer.window_le (tcb : Resequencer) : tcb.window ≤ 1048560 := by
  have hpow : 2 ^ tcb.qscale ≤ 2 ^ 4 := Nat.pow_le_pow_right (by omega) tcb.qscale_le
  have hwin : tcb.window = 65535 * 2 ^ tcb.qscale := Nat.shiftLeft_eq ..
  omega

/-- The queue is in order, its counters are right and it is within its limits. -/
structure Resequencer.Kept (tcb : Resequencer) : Prop where
  neighbours : tcb.reseq.IsChain fun a b => seq_le a.seg.seq b.seg.seq = true
  nreseq : tcb.nreseq = tcb.reseq.length
  reseqlen : tcb.reseqlen = total tcb.reseq
  limited : tcb.Limited

theorem Resequencer.Empty.kept {tcb : Resequencer} (h : tcb.Empty) : tcb.Kept := by
  refine ⟨?_, ?_, ?_, ?_, ?_⟩
  · rw [h.reseq]
    exact isChain_nil
  · rw [h.nreseq, h.reseq]
    rfl
  · rw [h.reseqlen, h.reseq]
    rfl
  · rw [h.reseqlen]
    omega
  · rw [h.nreseq]
    exact Int.natCast_nonneg _

theorem Resequencer.Kept.ok {tcb : Resequencer} (h : tcb.Kept) : tcb.Ok :=
  ⟨h.neighbours, fun _ => pairwise_behind h.neighbours, h.nreseq, h.reseqlen⟩

theorem Resequencer.dumpreseq_empty (tcb : Resequencer) : tcb.dumpreseq.2.Empty := ⟨rfl, rfl, rfl⟩

variable {tcb : Resequencer}

/-- An insertion that is not given up keeps the queue; what is given up is empty. -/
theorem Resequencer.Kept.addreseq (h : tcb.Kept) (malloc : Bool) (seg : TcpCodec.Tcp) (bp : List Block)
    (length : UInt16) :
    (tcb.addreseq malloc seg bp length).2.Kept ∨ (tcb.addreseq malloc seg bp length).2.Empty := by
  have hwin := tcb.window_le
  have hlen := length.toNat_lt
  have hdiv : tcb.window / tcb.mss.toNat ≤ tcb.window := Nat.div_le_self ..
  have hpos : (0 : Int) ≤ (tcb.window / tcb.mss.toNat : Nat) := Int.natCast_nonneg _
  have hbytes := h.limited.reseqlen
  have hcount := h.limited.nreseq
  have hadd : int32 (tcb.reseqlen + length.toNat) = total (place ⟨seg, bp, length⟩ tcb.reseq) := by
    rw [int32_of_range (by have := h.reseqlen; omega) (by omega), h.reseqlen, total_place]
    push_cast
    rfl
  have hone : int32 (tcb.nreseq + 1) = (place ⟨seg, bp, length⟩ tcb.reseq).length := by
    rw [int32_of_range (by have := h.nreseq; omega) (by omega), h.nreseq, length_place]
    push_cast
    rfl
  cases malloc with
  | false => exact Or.inl h
  | true =>
    simp only [Resequencer.addreseq, if_true]
    split
    next => exact Or.inr (dumpreseq_empty _)
    next hfew =>
      split
      next => exact Or.inr (dumpreseq_empty _)
      next hlow =>
        change ¬ int32 (tcb.reseqlen + length.toNat) > int32 tcb.window at hfew
        change ¬ int32 (tcb.nreseq + 1) > int32 (tcb.window / tcb.mss.toNat : Nat) at hlow
        rw [int32_of_range (v := (tcb.window : Int)) (by omega) (by omega)] at hfew
        rw [int32_of_range (v := (↑(tcb.window / tcb.mss.toNat) : Int)) (by omega) (by omega)] at hlow
        exact Or.inl ⟨place_chain h.neighbours, hone, hadd, Int.not_lt.mp hfew, Int.not_lt.mp hlow⟩

theorem Resequencer.Kept.getreseq (h : tcb.Kept) : tcb.getreseq.2.Kept := by
  have hwin := tcb.window_le
  have hbytes := h.limited.reseqlen
  have hcount := h.limited.nreseq
  have hdiv : tcb.window / tcb.mss.toNat ≤ tcb.window := Nat.div_le_self ..
  rw [Resequencer.getreseq]
  split
  next => exact h
  next rp next hq =>
    have hn := h.nreseq
    have hl := h.reseqlen
    rw [hq, length_cons] at hn
    rw [hq, total, map_cons, sum_cons] at hl
    have hone : int32 (tcb.nreseq - 1) = next.length := by
      rw [int32_of_range (by omega) (by omega)]
      omega
    have hless : int32 (tcb.reseqlen - rp.length.toNat) = total next := by
      rw [int32_of_range (by omega) (by omega), total]
      omega
    have hchain := h.neighbours
    rw [hq] at hchain
    refine ⟨hchain.tail, hone, hless, ?_, ?_⟩
    · change int32 (tcb.reseqlen - rp.length.toNat) ≤ tcb.window
      rw [hless, total]
      omega
    · change int32 (tcb.nreseq - 1) ≤ (tcb.window / tcb.mss.toNat : Nat)
      rw [hone]
      omega

theorem Resequencer.Kept.call (h : tcb.Kept) (c : Reseq.Call) : (tcb.call c).Kept := by
  cases c with
  | addreseq malloc seg bp length => exact (h.addreseq malloc seg bp length).elim id Empty.kept
  | getreseq => exact h.getreseq
  | dumpreseq => exact tcb.dumpreseq_empty.kept

/-- **The resequencing queue over any run of its three calls**: it is in order, `nreseq` and
`reseqlen` count its segments and their bytes, and an `addreseq` leaves it within its limits
or empty. -/
theorem reseq_ok {tcb₀ : Resequencer} (h₀ : tcb₀.Empty)
    (hr : Reach (· = tcb₀) (fun t c t' => Resequencer.call t c = t') tcb) :
    tcb.Ok ∧ ∀ malloc seg bp length,
      (tcb.addreseq malloc seg bp length).2.Limited ∨ (tcb.addreseq malloc seg bp length).2.Empty := by
  have hkept : tcb.Kept := by
    apply hr.invariant Resequencer.Kept
    · rintro t rfl
      exact h₀.kept
    · rintro t c t' h rfl
      exact h.call c
  refine ⟨hkept.ok, fun malloc seg bp length => ?_⟩
  exact (hkept.addreseq malloc seg bp length).imp_left Resequencer.Kept.limited

/-- A segment with this sequence number. -/
def someSegment (seq : UInt32) : TcpCodec.Tcp :=
  { source := 1, dest := 2, seq, ack := 0, flags := 0x10, update := 0, ws := 0, wnd := 0, urg := 0, mss := 0, len := 7 }

/-- The segment from before the wrap is put in front of the one behind it. -/
theorem reseq_ok_wrapped :
    ∃ tcb₀ tcb : Resequencer, tcb₀.Empty ∧ tcb.Ok ∧
      tcb.reseq.map (fun r => r.seg.seq) = [0xfffffff0, 5] ∧ tcb.nreseq = 2 ∧ tcb.reseqlen = 14 := by
  let tcb₀ : Resequencer := ⟨0, 1460, [], 0, 0, by decide, by decide⟩
  have h₀ : tcb₀.Empty := ⟨rfl, rfl, rfl⟩
  have h₁ : Reach (· = tcb₀) (fun t c t' => Resequencer.call t c = t') tcb₀ := Reach.start rfl
  have h₂ := h₁.next (i := .addreseq true (someSegment 5) [] 7) rfl
  have h₃ := h₂.next (i := .addreseq true (someSegment 0xfffffff0) [] 7) rfl
  have hok := reseq_ok h₀ h₃
  exact ⟨tcb₀, _, h₀, hok.1, by decide +kernel⟩

end Tcp
