import NixKernel.StepSystem
import NixKernel.TcpWindowTrim

/-!
# Runs of the receive window

Bytes go from the window into the receive queue and leave it when they are read, so that the window
and the queue together never hold more than `window` bytes.
-/

namespace Rcvwin

open Tcp StepSystem Option
open Rto (State)
open TcpCodec (Block bytes blocklen trimblock)

inductive Op
  | arrive (o : Sender) (p : Incoming)
  | tcpiput (o : Sender) (malloc : Bool)
  | tcpoutput (sent : Bool)
  | tcpsendka
  | read (n : Nat)
  | tcpclose
  | localclose

/-- A segment waits until `tcpiput` is through with the one before, and the reader gets what
is there. -/
def Enabled (c : Conn) : Op → Prop
  | .arrive _ p => c.phase = .idle ∧ Whole p
  | .read n => n ≤ c.qlen
  | _ => True

/-- What a step leaves; `none` is a panic. -/
def exec (c : Conn) : Op → Option Conn
  | .arrive o p => some (arrive o p c)
  | .tcpiput o malloc => tcpiput o malloc c
  | .tcpoutput sent => some (tcpoutput sent c)
  | .tcpsendka => some (tcpsendka c)
  | .read n => some { c with qlen := c.qlen - n }
  | .tcpclose => some (tcpclose c)
  | .localclose => some (localclose c)

def Step (c : Conn) (op : Op) (c' : Conn) : Prop := Enabled c op ∧ exec c op = some c'

/-- A connection that `tcpstart` or `tcpincoming` has just set up. -/
def Opened (c : Conn) : Prop :=
  (∃ mss h, c = tcpstart mss h) ∨ ∃ mss h irs rcvscale, c = tcpincoming mss h irs rcvscale

/-- The segment whose SYN tells an outgoing call where the sequence numbers of its peer begin. -/
def Synchronises (c : Conn) (op : Op) : Prop :=
  c.state = .Syn_sent ∧ ∃ o p, op = .arrive o p ∧ has p.seg.flags SYN = true ∧ has p.seg.flags RST = false ∧
    (has p.seg.flags ACK && !o.acked) = false

/-- `q` is a stretch of the bytes of `p`, each of them in the window. -/
def Takes (rcv : Rcv) (p q : Incoming) : Prop :=
  ∃ k, bytes q.bp = ((bytes p.bp).drop k).take q.length.toNat ∧ ∀ i < q.length.toNat,
    behind rcv.nxt (first p + UInt32.ofNat (k + i)) < behind rcv.nxt rcv.wptr

/-- The window and the queue share `window` bytes; or a FIN was at the end of the window. -/
def Edge (c : Conn) : Prop :=
  behind c.rcv.nxt c.rcv.wptr + c.qlen ≤ c.reseq.window ∨
    (behind c.rcv.nxt c.rcv.wptr = 2 ^ 32 - 1 ∧ c.qlen ≤ c.reseq.window)

/-- What `tcptrim` has left of a segment whose delivery has begun. -/
def Due (c : Conn) (p : Incoming) : Prop :=
  (p.seg.seq = c.rcv.nxt ∧ behind c.rcv.nxt c.rcv.wptr + c.qlen ≤ c.reseq.window ∧
    p.length.toNat ≤ behind c.rcv.nxt c.rcv.wptr) ∨ (p.length = 0 ∧ has p.seg.flags FIN = false)

def Phase.Ok (c : Conn) : Phase → Prop
  | .idle | .adjacent => True
  | .arrived p => Whole p
  | .again p => Whole p ∧ seq_ge c.rcv.nxt p.seg.seq = true
  | .deliver p => Whole p ∧ Due c p

structure Ok (c : Conn) : Prop where
  edge : Edge c
  queued : ∀ r ∈ c.reseq.reseq, Whole ⟨r.seg, r.bp, r.length⟩
  phase : c.phase.Ok c
  syn : c.state = .Syn_sent → c.qlen = 0

variable {c c' : Conn}

/-- The window reaches as far as the queue has room, and no less far than before. -/
theorem rcvwnd_spec (h : Edge c) :
    (rcvwnd c).toNat = c.reseq.window - c.qlen ∧ seq_lt (c.rcv.nxt + rcvwnd c) c.rcv.wptr = false := by
  have hwin := c.reseq.window_le
  have hqlen : c.qlen ≤ c.reseq.window := by
    rcases h with h | h <;> omega
  obtain ⟨w, hw⟩ : ∃ w, w = UInt32.ofNat c.reseq.window - UInt32.ofNat c.qlen := ⟨_, rfl⟩
  have hroom : w.toNat = c.reseq.window - c.qlen := by
    rw [hw, UInt32.toNat_sub, UInt32.toNat_ofNat', UInt32.toNat_ofNat']
    omega
  have hsign : ¬toInt w < 0 := by
    rw [toInt_eq]
    split_ifs <;> omega
  have hkeep : seq_lt (c.rcv.nxt + w) c.rcv.wptr = false := by
    have hvia := @behind_trans c.rcv.nxt c.rcv.wptr (c.rcv.nxt + w)
    have hlt := @behind_lt c.rcv.nxt c.rcv.wptr
    have hlt' := @behind_lt c.rcv.wptr (c.rcv.nxt + w)
    rw [behind_add, behind_self] at hvia
    rw [Bool.eq_false_iff, ne_eq, seq_lt_iff]
    rcases h with h | h <;> omega
  have hwnd : rcvwnd c = w := by
    rw [rcvwnd, ← hw, if_neg hsign, hkeep]
    rfl
  rw [hwnd]
  exact ⟨hroom, hkeep⟩

/-- What `tcprcvwin` offers. -/
theorem tcprcvwin_spec (h : Edge c) : ∃ w blocked, tcprcvwin c = offer w blocked c ∧
    w.toNat = c.reseq.window - c.qlen ∧ seq_le c.rcv.wptr (c.rcv.nxt + w) = true := by
  obtain ⟨hroom, hkeep⟩ := rcvwnd_spec h
  exact ⟨rcvwnd c, _, rfl, hroom, seq_le_of_not_lt hkeep⟩

theorem tcprcvwin_right (h : Edge c) : seq_le c.rcv.wptr (tcprcvwin c).rcv.wptr = true := by
  obtain ⟨w, blocked, heq, -, hright⟩ := tcprcvwin_spec h
  rw [heq]
  exact hright

theorem behind_offer (w : UInt32) (blocked : Bool) (c : Conn) :
    behind (offer w blocked c).rcv.nxt (offer w blocked c).rcv.wptr = w.toNat := by
  have hlt := w.toNat_lt
  change behind c.rcv.nxt (c.rcv.nxt + w) = w.toNat
  rw [behind_add, behind_self]
  omega

theorem tcprcvwin_nxt (h : Edge c) : (tcprcvwin c).rcv.nxt = c.rcv.nxt := by
  obtain ⟨w, blocked, heq, -, -⟩ := tcprcvwin_spec h
  exact congrArg (fun d => d.rcv.nxt) heq

theorem Edge.qlen_le (h : Edge c) : c.qlen ≤ c.reseq.window := by
  rcases h with h | h <;> omega

theorem Ok.offer (h : Ok c) {w : UInt32} (hw : w.toNat = c.reseq.window - c.qlen) (blocked : Bool) :
    Ok (offer w blocked c) := by
  have hqlen := h.edge.qlen_le
  have hbehind := behind_offer w blocked c
  have hsum : behind (Rcvwin.offer w blocked c).rcv.nxt (Rcvwin.offer w blocked c).rcv.wptr + c.qlen ≤ c.reseq.window := by
    omega
  refine ⟨Or.inl hsum, h.queued, ?_, h.syn⟩
  have hphase := h.phase
  change c.phase.Ok (Rcvwin.offer w blocked c)
  cases hp : c.phase with
  | idle => trivial
  | adjacent => trivial
  | arrived p | again p =>
    rw [hp] at hphase
    exact hphase
  | deliver p =>
    rw [hp] at hphase
    obtain ⟨hwhole, hdue⟩ := hphase
    refine ⟨hwhole, ?_⟩
    rcases hdue with ⟨hseq, hroom, hle⟩ | hnone
    · exact Or.inl ⟨hseq, hsum, by omega⟩
    · exact Or.inr hnone

theorem Ok.tcprcvwin (h : Ok c) : Ok (tcprcvwin c) := by
  obtain ⟨w, blocked, heq, hw, -⟩ := tcprcvwin_spec h.edge
  rw [heq]
  exact h.offer hw blocked

/-- A step of the connection that leaves window and queue alone. -/
theorem Ok.goes (h : Ok c) {state : State} {phase : Phase} (hstate : state = .Syn_sent → c.state = .Syn_sent)
    (hphase : phase.Ok c) : Ok { c with state := state, phase := phase } := by
  refine ⟨h.edge, h.queued, ?_, fun hsyn => h.syn (hstate hsyn)⟩
  cases phase with
  | _ => exact hphase

theorem Ok.closed (h : Ok c) {phase : Phase} (hphase : phase.Ok c) :
    Ok { c with state := .Closed, reseq := c.reseq.dumpreseq.2, phase := phase } := by
  refine ⟨h.edge, nofun, ?_, nofun⟩
  cases phase with
  | _ => exact hphase

/-- The SYN sets the window up anew, over an empty queue. -/
theorem ok_procsyn (h : Ok c) (hsyn : c.state = .Syn_sent) (hidle : c.phase = .idle) (seg : TcpCodec.Tcp) (state : State) :
    Ok { procsyn seg c with state := state } := by
  have hqlen := h.syn hsyn
  refine ⟨Or.inl ?_, h.queued, ?_, fun _ => hqlen⟩
  · change behind (seg.seq + 1) (seg.seq + 1) + c.qlen ≤ _
    rw [behind_self, hqlen]
    exact Nat.zero_le _
  · change c.phase.Ok _
    rw [hidle]
    trivial

/-- An empty queue and a window of nothing fit any scale. -/
theorem ok_tcpsetscale (h : Ok c) (hqlen : c.qlen = 0) (hempty : c.rcv.wptr = c.rcv.nxt) (hidle : c.phase = .idle)
    (rcvscale : UInt16) : Ok (tcpsetscale rcvscale c) := by
  apply Ok.tcprcvwin
  refine ⟨Or.inl ?_, h.queued, ?_, fun _ => hqlen⟩
  · change behind c.rcv.nxt c.rcv.wptr + c.qlen ≤ _
    rw [hempty, behind_self, hqlen]
    exact Nat.zero_le _
  · change c.phase.Ok _
    rw [hidle]
    trivial

variable {p : Incoming}

/-- A connection that waits can take a segment up. -/
theorem Ok.takes (h : Ok c) (hp : Whole p) : Ok { c with phase := .arrived p } :=
  ⟨h.edge, h.queued, hp, h.syn⟩

theorem ok_arrive (h : Ok c) (hidle : c.phase = .idle) (hp : Whole p) (o : Sender) :
    Ok (arrive o p c) := by
  rw [arrive]
  split
  · exact h
  · exact h
  next hsyn =>
    have hclosed : Ok (localclose c) := h.closed (hidle ▸ trivial)
    have hopened : Ok (if has p.seg.flags ACK then tcpsetscale p.seg.ws { procsyn p.seg c with state := .Established }
        else { procsyn p.seg c with state := .Syn_received }) := by
      split
      · exact ok_tcpsetscale (ok_procsyn h hsyn hidle p.seg .Established) (h.syn hsyn) rfl hidle p.seg.ws
      · exact ok_procsyn h hsyn hidle p.seg .Syn_received
    dsimp only
    split
    · exact h
    split
    · split
      · exact hclosed
      · exact h
    split
    · generalize (if has p.seg.flags ACK then tcpsetscale p.seg.ws { procsyn p.seg c with state := .Established }
        else { procsyn p.seg c with state := .Syn_received }) = opened at hopened ⊢
      split
      · exact hopened.takes hp
      · exact hopened
    · exact h
  next => exact h.takes hp

/-- What `addreseq` leaves of a queue of whole segments. -/
theorem addreseq_queued {tcb : Resequencer} (h : ∀ r ∈ tcb.reseq, Whole ⟨r.seg, r.bp, r.length⟩)
    (hp : Whole p) (malloc : Bool) :
    (tcb.addreseq malloc p.seg p.bp p.length).2.window = tcb.window ∧
      ∀ r ∈ (tcb.addreseq malloc p.seg p.bp p.length).2.reseq, Whole ⟨r.seg, r.bp, r.length⟩ := by
  have hplaced : ∀ r ∈ place ⟨p.seg, p.bp, p.length⟩ tcb.reseq, Whole ⟨r.seg, r.bp, r.length⟩ := by
    intro r hr
    rcases List.mem_cons.mp (place_perm.mem_iff.mp hr) with rfl | hr
    · exact hp
    · exact h r hr
  rw [Resequencer.addreseq]
  split
  · dsimp only
    split_ifs
    · exact ⟨rfl, fun _ hr => absurd hr List.not_mem_nil⟩
    · exact ⟨rfl, fun _ hr => absurd hr List.not_mem_nil⟩
    · exact ⟨rfl, hplaced⟩
  · exact ⟨rfl, h⟩

theorem ok_sort (h : Ok c) {p q : Incoming} (hcut : Cut c.rcv p q)
    (hwnd : c.rcv.wnd.toNat = behind c.rcv.nxt c.rcv.wptr)
    (hroom : behind c.rcv.nxt c.rcv.wptr + c.qlen ≤ c.reseq.window) (malloc : Bool) : Ok (sort malloc q c) := by
  obtain ⟨hwindow, hqueued⟩ := addreseq_queued h.queued hcut.whole malloc
  rw [sort]
  split_ifs with hclosed haside
  · exact ⟨h.edge, h.queued, trivial, h.syn⟩
  · refine ⟨?_, hqueued, trivial, h.syn⟩
    rw [Edge]
    dsimp only
    rw [hwindow]
    exact h.edge
  · refine ⟨h.edge, h.queued, ⟨hcut.whole, ?_⟩, h.syn⟩
    by_cases hseq : q.seg.seq = c.rcv.nxt
    · have hwithin := hcut.within
      rw [hseq, behind_self] at hwithin
      exact Or.inl ⟨hseq, hroom, by change q.length.toNat ≤ behind c.rcv.nxt c.rcv.wptr; omega⟩
    · rw [not_and_or, not_or, not_or] at haside
      obtain ⟨hlength, -, hfin⟩ := haside.resolve_left (not_not.mpr hseq)
      exact Or.inr ⟨not_not.mp hlength, Bool.eq_false_iff.mpr hfin⟩

/-- **The window before a cut**: all that `tcptrim` needs, and no panic. -/
theorem tcptrim_offered (h : Ok c) (hp : Whole p) :
    tcptrim (tcprcvwin c).rcv p = .reject ∨ ∃ q, tcptrim (tcprcvwin c).rcv p = .accept q ∧ Cut (tcprcvwin c).rcv p q := by
  have hwin := c.reseq.window_le
  obtain ⟨w, blocked, heq, hw, -⟩ := tcprcvwin_spec h.edge
  rw [heq]
  apply tcptrim_spec _ hp
  change w.toNat < 2 ^ 30
  omega

/-- What is offered is the room of the queue. -/
theorem tcprcvwin_room (h : Ok c) :
    (tcprcvwin c).rcv.wnd.toNat = behind (tcprcvwin c).rcv.nxt (tcprcvwin c).rcv.wptr ∧
      behind (tcprcvwin c).rcv.nxt (tcprcvwin c).rcv.wptr + (tcprcvwin c).qlen ≤ (tcprcvwin c).reseq.window := by
  have hqlen := h.edge.qlen_le
  obtain ⟨w, blocked, heq, hw, -⟩ := tcprcvwin_spec h.edge
  have hbehind := behind_offer w blocked c
  rw [heq, hbehind]
  refine ⟨rfl, ?_⟩
  change w.toNat + c.qlen ≤ c.reseq.window
  omega

theorem ok_cut (h : Ok c) (hp : Whole p) (o : Sender) (malloc : Bool) :
    ∃ c', cut o malloc p c = some c' ∧ Ok c' := by
  have hoffered := h.tcprcvwin
  obtain ⟨hwnd, hroom⟩ := tcprcvwin_room h
  have htrim := tcptrim_offered h hp
  rw [cut]
  generalize tcprcvwin c = d at *
  rw [trimmed]
  rcases htrim with hreject | ⟨q, haccept, hcut⟩
  · rw [hreject]
    refine ⟨_, rfl, hoffered.goes ?_ trivial⟩
    intro hsyn
    split at hsyn
    · cases hsyn
    · exact hsyn
  · rw [haccept]
    exact ⟨_, rfl, ok_sort hoffered hcut hwnd hroom malloc⟩

/-- A segment that is cut again begins with the window. -/
theorem ok_retrimmed (h : Ok c) (hge : seq_ge c.rcv.nxt p.seg.seq = true)
    (hwnd : c.rcv.wnd.toNat = behind c.rcv.nxt c.rcv.wptr)
    (hroom : behind c.rcv.nxt c.rcv.wptr + c.qlen ≤ c.reseq.window)
    (htrim : tcptrim c.rcv p = .reject ∨ ∃ q, tcptrim c.rcv p = .accept q ∧ Cut c.rcv p q) :
    ∃ c', retrimmed p c = some c' ∧ Ok c' := by
  rw [retrimmed]
  rcases htrim with hreject | ⟨q, haccept, hcut⟩
  · rw [hreject]
    exact ⟨_, rfl, h.edge, h.queued, trivial, h.syn⟩
  · rw [haccept]
    have hseq := hcut.next hge
    have hwithin := hcut.within
    rw [hseq, behind_self] at hwithin
    have hle : q.length.toNat ≤ behind c.rcv.nxt c.rcv.wptr := by omega
    exact ⟨_, rfl, h.edge, h.queued, ⟨hcut.whole, Or.inl ⟨hseq, hroom, hle⟩⟩, h.syn⟩

theorem tcprcvwin_ge (h : Edge c) {seq : UInt32} (hge : seq_ge c.rcv.nxt seq = true) :
    seq_ge (tcprcvwin c).rcv.nxt seq = true := by
  rw [tcprcvwin_nxt h]
  exact hge

theorem ok_recut (h : Ok c) (hp : Whole p) (hge : seq_ge c.rcv.nxt p.seg.seq = true) :
    ∃ c', recut p c = some c' ∧ Ok c' := by
  obtain ⟨hwnd, hroom⟩ := tcprcvwin_room h
  rw [recut]
  exact ok_retrimmed h.tcprcvwin (tcprcvwin_ge h.edge hge) hwnd hroom (tcptrim_offered h hp)

theorem ok_adjacent (h : Ok c) : Ok (adjacent c) := by
  rw [adjacent, Resequencer.getreseq]
  cases hq : c.reseq.reseq with
  | nil => exact ⟨h.edge, h.queued, trivial, h.syn⟩
  | cons rp next =>
    have hqueued := h.queued
    rw [hq] at hqueued
    dsimp only
    split
    · exact ⟨h.edge, h.queued, trivial, h.syn⟩
    next hge =>
      have hrest : ∀ r ∈ next, Whole ⟨r.seg, r.bp, r.length⟩ := fun r hr => hqueued r (List.mem_cons_of_mem rp hr)
      exact ⟨h.edge, hrest, ⟨hqueued rp List.mem_cons_self, Bool.not_eq_false _ ▸ hge⟩, h.syn⟩

variable {o : Sender}

theorem ackstate_spec (h : ackstate o c = some c') :
    ∃ state, c' = { c with state := state } ∧ (state = .Syn_sent → c.state = .Syn_sent) := by
  rw [ackstate] at h
  split at h
  · split at h
    · exact ⟨_, (some.inj h).symm, nofun⟩
    · cases h
  iterate 2 next hstate =>
    split at h
    · exact ⟨_, (some.inj h).symm, nofun⟩
    · exact ⟨c.state, (some.inj h).symm, id⟩
  next hstate =>
    split at h
    · cases h
    · exact ⟨c.state, (some.inj h).symm, id⟩
  next => exact ⟨c.state, (some.inj h).symm, id⟩

theorem urgent_spec (p : Incoming) (c : Conn) :
    blocklen (urgent p c).1 ≤ blocklen p.bp ∧ ∃ urg, (urgent p c).2 = { c with rcv.urg := urg } := by
  rw [urgent]
  split_ifs
  · refine ⟨?_, _, rfl⟩
    rw [blocklen_pullblock]
    exact Nat.sub_le _ _
  · exact ⟨Nat.le_refl _, c.rcv.urg, rfl⟩
  · exact ⟨Nat.le_refl _, _, rfl⟩
  · exact ⟨Nat.le_refl _, c.rcv.urg, rfl⟩

/-- What is left of the window behind the data. -/
theorem data_spec (hdue : Due c p) (hedge : Edge c) {bp : List Block}
    (hbp : blocklen bp ≤ p.length.toNat) :
    (data p.length bp c).reseq = c.reseq ∧ (data p.length bp c).state = c.state ∧ Edge (data p.length bp c) ∧
      (has p.seg.flags FIN = true →
        behind (data p.length bp c).rcv.nxt (data p.length bp c).rcv.wptr + (data p.length bp c).qlen ≤ c.reseq.window) ∧
      (c.state = .Syn_sent → (data p.length bp c).qlen = c.qlen) := by
  have hwin := c.reseq.window_le
  have hkeep : Edge c ∧ (has p.seg.flags FIN = true → behind c.rcv.nxt c.rcv.wptr + c.qlen ≤ c.reseq.window) := by
    refine ⟨hedge, fun hfin => ?_⟩
    rcases hdue with ⟨-, hroom, -⟩ | ⟨-, hnone⟩
    · exact hroom
    · cases hfin.symm.trans hnone
  have htaken : p.length ≠ 0 → behind (c.rcv.nxt + p.length.toUInt32) c.rcv.wptr + (c.qlen + blocklen bp) ≤ c.reseq.window := by
    intro hlength
    rcases hdue with ⟨-, hroom, hle⟩ | ⟨hnone, -⟩
    · have hvia := @behind_trans c.rcv.nxt (c.rcv.nxt + p.length.toUInt32) c.rcv.wptr
      have hlt := @behind_lt (c.rcv.nxt + p.length.toUInt32) c.rcv.wptr
      rw [behind_add, behind_self, UInt16.toNat_toUInt32] at hvia
      omega
    · exact absurd hnone hlength
  rw [data]
  split
  all_goals try split
  all_goals first
    | exact ⟨rfl, rfl, hkeep.1, hkeep.2, fun _ => rfl⟩
    | exact ⟨rfl, rfl, Or.inl (htaken ‹_›), fun _ => htaken ‹_›, fun hsyn => by simp_all⟩

theorem fin_spec (hroom : behind c.rcv.nxt c.rcv.wptr + c.qlen ≤ c.reseq.window) :
    (fin o c).reseq = c.reseq ∧ ((fin o c).state = .Syn_sent → c.state = .Syn_sent) ∧ Edge (fin o c) ∧
      (fin o c).qlen = c.qlen := by
  have hwin := c.reseq.window_le
  have hmore : behind (c.rcv.nxt + 1) c.rcv.wptr + c.qlen ≤ c.reseq.window ∨
      (behind (c.rcv.nxt + 1) c.rcv.wptr = 2 ^ 32 - 1 ∧ c.qlen ≤ c.reseq.window) := by
    have hone : (1 : UInt32).toNat = 1 := rfl
    have hvia := @behind_trans c.rcv.nxt (c.rcv.nxt + 1) c.rcv.wptr
    have hlt := @behind_lt (c.rcv.nxt + 1) c.rcv.wptr
    rw [behind_add, behind_self, hone] at hvia
    omega
  rw [fin]
  split
  · exact ⟨rfl, nofun, hmore, rfl⟩
  · exact ⟨rfl, nofun, hmore, rfl⟩
  · refine ⟨rfl, fun hsyn => ?_, hmore, rfl⟩
    dsimp only at hsyn
    split at hsyn <;> cases hsyn
  · exact ⟨rfl, nofun, hmore, rfl⟩
  · exact ⟨rfl, id, Or.inl hroom, rfl⟩

/-- The data and the FIN of a segment whose delivery has begun. -/
theorem ok_taken (hdue : Due c p) (hedge : Edge c)
    (hqueued : ∀ r ∈ c.reseq.reseq, Whole ⟨r.seg, r.bp, r.length⟩)
    (hempty : c.state = .Syn_sent → c.qlen = 0) {bp : List Block}
    (hbp : blocklen bp ≤ p.length.toNat) (o : Sender) :
    Ok { (if has p.seg.flags FIN then fin o (data p.length bp c) else data p.length bp c) with
      phase := .adjacent } := by
  obtain ⟨hreseq, hstate, hedge, hroom, hsyn⟩ := data_spec hdue hedge hbp
  generalize data p.length bp c = d at hreseq hstate hedge hroom hsyn ⊢
  have hempty : d.state = .Syn_sent → d.qlen = 0 := by
    intro hd
    rw [hstate] at hd
    exact (hsyn hd).trans (hempty hd)
  rw [← hreseq] at hqueued
  split
  next hfin =>
    rw [← hreseq] at hroom
    obtain ⟨hreseq', hstate', hedge', hqlen'⟩ := @fin_spec d o (hroom hfin)
    generalize fin o d = e at hreseq' hstate' hedge' hqlen' ⊢
    refine ⟨hedge', ?_, trivial, fun he => hqlen'.trans (hempty (hstate' he))⟩
    change ∀ r ∈ e.reseq.reseq, _
    rw [hreseq']
    exact hqueued
  next => exact ⟨hedge, hqueued, trivial, hempty⟩

theorem ok_deliver (h : Ok c) (hp : Whole p) (hdue : Due c p) (o : Sender) : Ok (deliver o p c) := by
  rw [deliver]
  split
  · exact h.closed trivial
  split
  · exact ⟨h.edge, h.queued, trivial, h.syn⟩
  split
  · split
    · exact h.closed trivial
    · exact ⟨h.edge, h.queued, trivial, h.syn⟩
  next c' hc' =>
    obtain ⟨state, rfl, hstate⟩ := ackstate_spec hc'
    obtain ⟨hbp, urg, heq⟩ := urgent_spec p { c with state := state }
    have hempty : state = .Syn_sent → c.qlen = 0 := fun hsyn => h.syn (hstate hsyn)
    dsimp only
    rw [heq]
    split
    · exact ⟨h.edge, h.queued, trivial, hempty⟩
    · rw [hp.blocklen_eq] at hbp
      exact @ok_taken { c with state := state, rcv.urg := urg } p hdue h.edge h.queued hempty _ hbp o

theorem ok_tcpiput (h : Ok c) (o : Sender) (malloc : Bool) : ∃ c', tcpiput o malloc c = some c' ∧ Ok c' := by
  have hphase := h.phase
  rw [tcpiput]
  split
  next => exact ⟨c, rfl, h⟩
  next p hp =>
    rw [hp] at hphase
    exact ok_cut h hphase o malloc
  next p hp =>
    rw [hp] at hphase
    exact ⟨_, rfl, ok_deliver h hphase.1 hphase.2 o⟩
  next => exact ⟨_, rfl, ok_adjacent h⟩
  next p hp =>
    rw [hp] at hphase
    exact ok_recut h hphase.1 hphase.2

theorem ok_tcpclose (h : Ok c) : Ok (tcpclose c) := by
  have hclosed : Ok (localclose c) := h.closed h.phase
  rw [tcpclose]
  split
  iterate 3 exact hclosed
  iterate 3 exact h.goes nofun h.phase
  exact h

/-- The reader makes room in the queue. -/
theorem ok_read (h : Ok c) (n : Nat) : Ok { c with qlen := c.qlen - n } := by
  have hedge := h.edge
  have hphase := h.phase
  rw [Edge] at hedge
  refine ⟨?_, h.queued, ?_, fun hsyn => by rw [h.syn hsyn]; exact Nat.zero_sub n⟩
  · rw [Edge]
    dsimp only
    omega
  · change c.phase.Ok _
    cases hp : c.phase with
    | deliver p =>
      rw [hp] at hphase
      obtain ⟨hwhole, hdue⟩ := hphase
      refine ⟨hwhole, ?_⟩
      rcases hdue with ⟨hseq, hroom, hle⟩ | hnone
      · refine Or.inl ⟨hseq, ?_, hle⟩
        dsimp only
        omega
      · exact Or.inr hnone
    | _ =>
      rw [hp] at hphase
      exact hphase

/-- What the connection notes of a segment it sends. -/
theorem Ok.notes (h : Ok c) (ackptr wsnt : UInt32) : Ok { c with rcv.ackptr := ackptr, rcv.wsnt := wsnt } := by
  have hphase := h.phase
  refine ⟨h.edge, h.queued, ?_, h.syn⟩
  change c.phase.Ok _
  cases hp : c.phase with
  | _ =>
    rw [hp] at hphase
    exact hphase

theorem ok_tcpoutput (h : Ok c) (sent : Bool) : Ok (tcpoutput sent c) := by
  rw [tcpoutput]
  split
  iterate 3 exact h
  split
  · exact h.tcprcvwin.notes _ _
  · exact h.tcprcvwin

/-- **The step lemma.** -/
theorem ok_step (h : Ok c) {op : Op} (henabled : Enabled c op) : ∃ c', exec c op = some c' ∧ Ok c' := by
  cases op with
  | arrive o p => exact ⟨_, rfl, ok_arrive h henabled.1 henabled.2 o⟩
  | tcpiput o malloc => exact ok_tcpiput h o malloc
  | tcpoutput sent => exact ⟨_, rfl, ok_tcpoutput h sent⟩
  | tcpsendka => exact ⟨_, rfl, (h.notes c.rcv.nxt c.rcv.wsnt).tcprcvwin⟩
  | read n => exact ⟨_, rfl, ok_read h n⟩
  | tcpclose => exact ⟨_, rfl, ok_tcpclose h⟩
  | localclose => exact ⟨_, rfl, h.closed h.phase⟩

theorem wptr_sort (malloc : Bool) (p : Incoming) (c : Conn) : (sort malloc p c).rcv.wptr = c.rcv.wptr := by
  rw [sort]
  split_ifs <;> rfl

theorem wptr_trimmed {malloc : Bool} (h : trimmed o malloc p c = some c') :
    c'.rcv.wptr = c.rcv.wptr := by
  rw [trimmed] at h
  split at h
  · cases h
  · cases h
    rfl
  · cases h
    exact wptr_sort ..

theorem wptr_retrimmed (h : retrimmed p c = some c') : c'.rcv.wptr = c.rcv.wptr := by
  rw [retrimmed] at h
  split at h
  · cases h
  all_goals
    cases h
    rfl

theorem wptr_data (length : UInt16) (bp : List Block) (c : Conn) : (data length bp c).rcv.wptr = c.rcv.wptr := by
  rw [data]
  split
  all_goals try split
  all_goals rfl

theorem wptr_fin (o : Sender) (c : Conn) : (fin o c).rcv.wptr = c.rcv.wptr := by
  rw [fin]
  split <;> rfl

theorem wptr_deliver (o : Sender) (p : Incoming) (c : Conn) : (deliver o p c).rcv.wptr = c.rcv.wptr := by
  rw [deliver]
  split
  · rfl
  split
  · rfl
  split
  · split <;> rfl
  next c' hc' =>
    obtain ⟨state, rfl, -⟩ := ackstate_spec hc'
    obtain ⟨-, urg, heq⟩ := urgent_spec p { c with state := state }
    dsimp only
    rw [heq]
    split
    · rfl
    · dsimp only
      split
      · rw [wptr_fin, wptr_data]
      · rw [wptr_data]

theorem wptr_adjacent (c : Conn) : (adjacent c).rcv.wptr = c.rcv.wptr := by
  rw [adjacent]
  split
  · rfl
  · split <;> rfl

theorem wptr_arrive (h : ¬Synchronises c (.arrive o p)) : (arrive o p c).rcv.wptr = c.rcv.wptr := by
  rw [arrive]
  split
  · rfl
  · rfl
  next hsent =>
    by_cases hack : (has p.seg.flags ACK && !o.acked) = true
    · rw [if_pos hack]
    rw [if_neg hack]
    by_cases hrst : has p.seg.flags RST = true
    · rw [if_pos hrst]
      split <;> rfl
    rw [if_neg hrst]
    by_cases hsyn : has p.seg.flags SYN = true
    · exact absurd ⟨hsent, o, p, rfl, hsyn, Bool.eq_false_iff.mpr hrst, Bool.eq_false_iff.mpr hack⟩ h
    · rw [if_neg hsyn]
  · rfl

theorem wptr_tcpclose (c : Conn) : (tcpclose c).rcv.wptr = c.rcv.wptr := by
  rw [tcpclose]
  split <;> rfl

theorem wptr_sendwin (c : Conn) : (sendwin c).rcv.wptr = c.rcv.wptr := rfl

theorem right_self (c : Conn) : seq_le c.rcv.wptr c.rcv.wptr = true := by
  rw [seq_le_iff, behind_self]
  exact Or.inl rfl

theorem right_tcpoutput (h : Edge c) (sent : Bool) : seq_le c.rcv.wptr (tcpoutput sent c).rcv.wptr = true := by
  have hright := tcprcvwin_right h
  rw [tcpoutput]
  split
  iterate 3 exact right_self c
  split
  · rw [wptr_sendwin]
    exact hright
  · exact hright

theorem right_tcpiput (h : Edge c) {malloc : Bool} (hstep : tcpiput o malloc c = some c') :
    seq_le c.rcv.wptr c'.rcv.wptr = true := by
  have hright := tcprcvwin_right h
  rw [tcpiput] at hstep
  split at hstep
  next =>
    cases hstep
    exact right_self c
  next p hp =>
    rw [cut] at hstep
    rw [wptr_trimmed hstep]
    exact hright
  next p hp =>
    rw [← some.inj hstep, wptr_deliver]
    exact right_self c
  next =>
    rw [← some.inj hstep, wptr_adjacent]
    exact right_self c
  next p hp =>
    rw [recut] at hstep
    rw [wptr_retrimmed hstep]
    exact hright

/-- **No step moves the right edge to the left**, but for the SYN that says where it is. -/
theorem step_right (h : Ok c) {op : Op} (hstep : exec c op = some c') (hsyn : ¬Synchronises c op) :
    seq_le c.rcv.wptr c'.rcv.wptr = true := by
  cases op with
  | arrive o p =>
    rw [← some.inj hstep, wptr_arrive hsyn]
    exact right_self c
  | tcpiput o malloc => exact right_tcpiput h.edge hstep
  | tcpoutput sent =>
    cases hstep
    exact right_tcpoutput h.edge sent
  | tcpsendka =>
    cases hstep
    exact tcprcvwin_right (h.notes c.rcv.nxt c.rcv.wsnt).edge
  | read n | localclose =>
    cases hstep
    exact right_self c
  | tcpclose =>
    rw [← some.inj hstep, wptr_tcpclose]
    exact right_self c

/-- A connection that has just been set up can be in any state. -/
theorem Ok.begins (h : Ok c) (hedge : Edge c) (hidle : c.phase = .idle) (hqlen : c.qlen = 0) (state : State) :
    Ok { Rcvwin.tcprcvwin c with state := state } := by
  have hset := h.tcprcvwin
  obtain ⟨w, blocked, heq, -, -⟩ := tcprcvwin_spec hedge
  rw [heq] at hset ⊢
  exact ⟨hset.edge, hset.queued, by change c.phase.Ok _; rw [hidle]; trivial, fun _ => hqlen⟩

theorem Opened.ok (h : Opened c) : Ok c := by
  have hempty : ∀ tcb : Resequencer, tcb.reseq = [] → ∀ r ∈ tcb.reseq, Whole ⟨r.seg, r.bp, r.length⟩ := by
    intro tcb htcb
    rw [htcb]
    nofun
  have hedge (d : Conn) (hd : d.rcv.wptr = d.rcv.nxt) (hqlen : d.qlen = 0) : Edge d := by
    rw [Edge, hd, behind_self, hqlen]
    exact Or.inl (Nat.zero_le _)
  rcases h with ⟨mss, hmss, rfl⟩ | ⟨mss, hmss, irs, rcvscale, rfl⟩
  · rw [tcpstart, tcpsetscale]
    apply Ok.begins
    · exact ⟨hedge _ rfl rfl, hempty _ rfl, trivial, fun _ => rfl⟩
    · exact hedge _ rfl rfl
    · rfl
    · rfl
  · rw [tcpincoming, tcpsetscale]
    apply Ok.begins
    · exact ⟨hedge _ rfl rfl, hempty _ rfl, trivial, fun _ => rfl⟩
    · exact hedge _ rfl rfl
    · rfl
    · rfl

theorem Cut.takes {rcv : Rcv} {p q : Incoming} (h : Cut rcv p q) (hwnd : rcv.wnd.toNat = behind rcv.nxt rcv.wptr)
    (hplain : has p.seg.flags SYN = true → seq_gt rcv.nxt p.seg.seq = true) : Takes rcv p q := by
  obtain ⟨k, hbytes, hfirst⟩ := h.bytes_eq
  have hwithin := h.within
  have hlt := rcv.wnd.toNat_lt
  refine ⟨k, hbytes, fun i hi => ?_⟩
  rw [UInt32.ofNat_add, ← UInt32.add_assoc, ← hfirst hplain, behind_add, UInt32.toNat_ofNat']
  omega

/-- **The receive window**, over every run of arriving segments, reads and output: its right edge
does not move to the left once the peer's SYN has set it, a `tcprcvwin` leaves it `rcv.wnd` from
`rcv.nxt`, and what `tcptrim` accepts of a segment lies in the window that `tcprcvwin` has just
computed, if the segment has no SYN or one from before the window. -/
theorem receive_window (h : Reach Opened Step c) :
    (∀ op c', Step c op c' → ¬Synchronises c op → seq_le c.rcv.wptr c'.rcv.wptr = true) ∧
      (tcprcvwin c).rcv.wptr = (tcprcvwin c).rcv.nxt + (tcprcvwin c).rcv.wnd ∧
      ∀ p q, c.phase = .arrived p ∨ c.phase = .again p →
        (has p.seg.flags SYN = true → seq_gt (tcprcvwin c).rcv.nxt p.seg.seq = true) →
        tcptrim (tcprcvwin c).rcv p = .accept q → Takes (tcprcvwin c).rcv p q := by
  have hok : Ok c := by
    refine h.invariant Ok (fun _ => Opened.ok) ?_
    intro s op t hs hstep
    obtain ⟨t', ht', hok⟩ := ok_step hs hstep.1
    cases ht'.symm.trans hstep.2
    exact hok
  obtain ⟨hwnd, -⟩ := tcprcvwin_room hok
  refine ⟨fun op c' hstep hsyn => step_right hok hstep.2 hsyn, ?_, ?_⟩
  · obtain ⟨w, blocked, heq, -, -⟩ := tcprcvwin_spec hok.edge
    rw [heq]
    rfl
  · intro p q hphase hplain haccept
    have hp : Whole p := by
      have hcur := hok.phase
      rcases hphase with hphase | hphase
      · rw [hphase] at hcur
        exact hcur
      · rw [hphase] at hcur
        exact hcur.1
    rcases tcptrim_offered hok hp with hreject | ⟨q', hq', hcut⟩
    · cases hreject.symm.trans haccept
    · cases hq'.symm.trans haccept
      exact hcut.takes hwnd hplain

instance (p : Incoming) : Decidable (Whole p) :=
  decidable_of_iff (blocklen p.bp = p.length.toNat ∧ p.length.toNat ≤ 65515) ⟨fun h => ⟨h.1, h.2⟩, fun h => ⟨h.1, h.2⟩⟩

instance : (phase : Phase) → Decidable (phase = .idle)
  | .idle => isTrue rfl
  | .arrived _ => isFalse nofun
  | .deliver _ => isFalse nofun
  | .adjacent => isFalse nofun
  | .again _ => isFalse nofun

instance (c : Conn) : (op : Op) → Decidable (Enabled c op)
  | .arrive _ p => inferInstanceAs (Decidable (c.phase = .idle ∧ Whole p))
  | .read n => inferInstanceAs (Decidable (n ≤ c.qlen))
  | .tcpiput .. | .tcpoutput _ | .tcpsendka | .tcpclose | .localclose => isTrue trivial

def act (c : Conn) (op : Op) : Option Conn := if Enabled c op then exec c op else none

theorem exists_of_run {l : List Op} {test : Conn → Bool} (h : Opened c) (hrun : (StepSystem.exec act c l).any test = true) :
    ∃ c', Reach Opened Step c' ∧ test c' = true := by
  refine (Reach.start h).exists_of_exec (fun s op t _ hact => ?_) hrun
  exact ite_none_right_eq_some.mp hact

/-- A segment of `n` bytes. -/
def someBytes (flags : UInt8) (seq : UInt32) (n : UInt16) : Incoming where
  seg := { someSegment seq with flags := flags }
  bp := [⟨0, [], List.replicate n.toNat 0, []⟩]
  length := n

def sender : Sender := ⟨true, false⟩

/-- `tcpiput` is at a segment of which it will take bytes that `test` holds of. -/
def taking (test : Rcv → Incoming → Bool) (c : Conn) : Bool :=
  match c.phase with
  | .arrived p =>
    !has p.seg.flags SYN && match tcptrim (tcprcvwin c).rcv p with
      | .accept q => test c.rcv q
      | _ => false
  | _ => false

theorem exists_of_taking {test : Rcv → Incoming → Bool} (h : taking test c = true) : ∃ p q,
    c.phase = .arrived p ∧ has p.seg.flags SYN = false ∧ tcptrim (tcprcvwin c).rcv p = .accept q ∧ test c.rcv q = true := by
  rw [taking] at h
  split at h
  next p hp =>
    rw [Bool.and_eq_true, Bool.not_eq_true'] at h
    obtain ⟨hsyn, h⟩ := h
    split at h
    next q hq => exact ⟨p, q, hp, hsyn, hq, h⟩
    next => cases h
  next => cases h

/-- Of a segment that reaches into the window from before, the last four bytes are taken. -/
theorem receive_window_overlap : ∃ c p q, Reach Opened Step c ∧ tcptrim (tcprcvwin c).rcv p = .accept q ∧
    q.length = 4 ∧ Takes (tcprcvwin c).rcv p q := by
  obtain ⟨c, hc, htaking⟩ := @exists_of_run (tcpincoming 1460 (by decide) 0 0)
    [.tcpoutput true, .arrive sender (someBytes ACK 0xfffffffb 10)] (taking fun _ q => q.length == 4)
    (Or.inr ⟨_, _, _, _, rfl⟩) (by decide +kernel)
  obtain ⟨p, q, hphase, hsyn, hq, hlength⟩ := exists_of_taking htaking
  have hplain : has p.seg.flags SYN = true → seq_gt (tcprcvwin c).rcv.nxt p.seg.seq = true := by
    intro hset
    cases hset.symm.trans hsyn
  exact ⟨c, p, q, hc, hq, eq_of_beq hlength, (receive_window hc).2.2 p q (Or.inl hphase) hplain hq⟩

/-- **The edge and what was advertised of it.**  The SYN of its peer sets the edge of an outgoing
call back, from where it was before there was anything to receive.  And a byte is taken that lies
behind the edge last sent, after a read has made room for it. -/
theorem window_outgrows :
    (∃ c op c', Reach Opened Step c ∧ Step c op c' ∧ seq_le c.rcv.wptr c'.rcv.wptr = false) ∧
      ∃ c p q, Reach Opened Step c ∧ c.phase = .arrived p ∧ has p.seg.flags SYN = false ∧
        tcptrim (tcprcvwin c).rcv p = .accept q ∧ 0 < q.length.toNat ∧
        ¬behind c.rcv.nxt q.seg.seq < behind c.rcv.nxt c.rcv.wsnt := by
  constructor
  · have hc : Opened (tcpstart 1460 (by decide)) := Or.inl ⟨_, _, rfl⟩
    have henabled : Enabled (tcpstart 1460 (by decide)) (.arrive sender (someBytes SYN 10 0)) := by decide +kernel
    exact ⟨_, _, _, Reach.start hc, ⟨henabled, rfl⟩, by decide +kernel⟩
  · obtain ⟨c, hc, htaking⟩ := @exists_of_run (tcpincoming 1460 (by decide) 0 0)
      [.tcpoutput true, .arrive sender (someBytes ACK 1 10), .tcpiput sender true, .tcpiput sender true,
        .tcpiput sender true, .read 10, .arrive sender (someBytes ACK 65536 1)]
      (taking fun rcv q => decide (0 < q.length.toNat ∧ ¬behind rcv.nxt q.seg.seq < behind rcv.nxt rcv.wsnt))
      (Or.inr ⟨_, _, _, _, rfl⟩) (by decide +kernel)
    obtain ⟨p, q, hphase, hsyn, hq, htest⟩ := exists_of_taking htaking
    obtain ⟨hlength, hbeyond⟩ := of_decide_eq_true htest
    exact ⟨c, p, q, hc, hphase, hsyn, hq, hlength, hbeyond⟩

end Rcvwin
