import NixKernel.IlQueues

/-!
# Runs of two IL conversations

What holds of two conversations at every moment of a run: of each what it has written and not got
acknowledged, of each what it has heard from the other, whatever the network does with the
packets between them.
-/

namespace Il

open List
open Function (update update_self update_of_ne)

variable {x y : Conv} {p : Pkt} {b : Blk} {m : Msg} {v : Nat}

/-- The conversation is closed, or on its way. -/
def Conv.done (c : Conv) : Prop := c.state = .closing ∨ c.state = .closed

/-- What `y` may have acknowledged to `x`. -/
def Good (x y : Conv) (v : Nat) : Prop := v ≤ x.start + y.rq.length ∨ x.done

/-- What a side has written. -/
structure Own (x : Conv) : Prop where
  next : x.next = x.start + 1 + x.wrote.length
  data : ∀ p ∈ x.out, p.type = .data ∨ p.type = .dataquery → ⟨p.id, p.data⟩ ∈ x.messages
  sync : ∀ p ∈ x.out, p.type = .sync → p.id = x.start
  close : ∀ p ∈ x.out, p.type = .close → p.id = 0 ∨ x.done
  sent : ∀ b ∈ x.unacked, b ∈ x.messages
  unacked : x.freed = false → x.unacked = x.messages.filter fun b => decide (x.acked < b.id)
  bytes : x.freed = false → x.unackedbytes = total x.unacked
  freed : x.freed = true → x.done

/-- A side that listens. -/
structure Fresh (x y : Conv) : Prop where
  start : x.start = 0
  wrote : x.wrote = []
  kicking : x.kicking = []
  out : ∀ p ∈ x.out, p.type = .close
  peer : y.state = .syncer ∨ y.state = .listening ∨ y.done
  acks : ∀ p ∈ y.out, p.ack = 0

/-- What `y` has heard from `x`. -/
structure Heard (x y : Conv) : Prop where
  fresh : x.state = .listening → Fresh x y
  pre : y.rq <+: x.wrote
  before : y.state = .syncer ∨ y.state = .listening → y.recvd = 0 ∧ y.rq = []
  syncee : y.state = .syncee → y.recvd = x.start ∧ y.rstart = x.start ∧ y.rq = []
  established : y.state = .established → y.recvd = x.start + y.rq.length ∧ y.rstart = x.start
  open' : y.state = .syncer ∨ y.state = .syncee ∨ y.state = .established → y.hungup = false
  sorted : y.outoforder.Pairwise fun a b => a.id < b.id
  outoforder : ∀ b ∈ y.outoforder, b ∈ x.messages
  ack : ∀ p ∈ y.out, p.type ≠ .close → Good x y p.ack
  recvd : Good x y y.recvd
  acked : x.acked ≤ x.start + y.rq.length

/-- What holds of two sides. -/
structure Paired (x y : Conv) : Prop where
  own : Own x
  peer : Own y
  sends : Heard x y
  hears : Heard y x

theorem not_done (h : x.state = .syncer ∨ x.state = .syncee ∨ x.state = .established ∨
    x.state = .listening) : ¬ x.done := by
  rintro (hd | hd) <;> rcases h with h | h | h | h <;> rw [h] at hd <;> cases hd

/-- Nothing can be acknowledged to a side that listens. -/
theorem Heard.zero (h : Heard x y) (hl : x.state = .listening) (hv : Good x y v) : v = 0 := by
  have hf := h.fresh hl
  have hrq : y.rq = [] := prefix_nil.mp (hf.wrote ▸ h.pre)
  rcases hv with hv | hd
  · rw [hf.start, hrq] at hv
    exact Nat.le_zero.mp hv
  · exact absurd hd (not_done (Or.inr (Or.inr (Or.inr hl))))

/-- What a packet must be for `x` to send it. -/
structure Fit (x y : Conv) (p : Pkt) : Prop where
  data : p.type = .data ∨ p.type = .dataquery → ⟨p.id, p.data⟩ ∈ x.messages
  sync : p.type = .sync → p.id = x.start
  close : p.type = .close → p.id = 0 ∨ x.done
  ack : p.type ≠ .close → Good y x p.ack
  listening : x.state = .listening → p.type = .close
  zero : y.state = .listening → p.ack = 0

theorem Paired.ipoput (h : Paired x y) (hp : Fit x y p) : Paired (x.ipoput p) y := by
  rw [Conv.ipoput]
  by_cases hlen : headers + p.data.length ≥ ipMax
  · rw [if_pos hlen]
    exact h
  rw [if_neg hlen]
  have hout : ∀ {P : Pkt → Prop}, (∀ q ∈ x.out, P q) → P p → ∀ q ∈ x.out ++ [p], P q := by
    intro P hall hnew q hq
    rcases mem_append.mp hq with hq | hq
    · exact hall q hq
    · rw [mem_singleton.mp hq]
      exact hnew
  exact {
    own := { h.own with
      data := hout h.own.data hp.data
      sync := hout h.own.sync hp.sync
      close := hout h.own.close hp.close }
    peer := h.peer
    sends := { h.sends with
      fresh := fun hl => { h.sends.fresh hl with out := hout (h.sends.fresh hl).out (hp.listening hl) } }
    hears := { h.hears with
      fresh := fun hl => { h.hears.fresh hl with acks := hout (h.hears.fresh hl).acks (hp.zero hl) }
      ack := hout h.hears.ack hp.ack } }

/-- The fields that the invariant does not look at. -/
theorem Paired.frame (h : Paired x y) (a r n : Nat) (qt : Nat → Nat) :
    Paired { x with acksent := a, rexmit := r, qtx := n, qt } y where
  own := { h.own with }
  peer := h.peer
  sends := { h.sends with fresh := fun hl => { h.sends.fresh hl with } }
  hears := { h.hears with fresh := fun hl => { h.hears.fresh hl with } }

/-- A control packet, with an acknowledgement that may be given. -/
theorem Paired.sendctl {type : Iltype} {id spec : Nat} (h : Paired x y)
    (htype : type ≠ .data ∧ type ≠ .dataquery) (hsync : type = .sync → id = x.start)
    (hclose : type = .close → x.done) (hack : Good y x v) (hl : x.state ≠ .listening) :
    Paired (x.sendctl type id v spec) y := by
  have hframe : Paired { x with acksent := v } y := h.frame v x.rexmit x.qtx x.qt
  refine hframe.ipoput {
    data := fun ht => ?_
    sync := hsync
    close := fun ht => Or.inr (hclose ht)
    ack := fun _ => hack
    listening := fun hl' => absurd hl' hl
    zero := fun hy => h.hears.zero hy hack }
  rcases ht with ht | ht
  · exact absurd ht htype.1
  · exact absurd ht htype.2

/-- A control packet always fits. -/
theorem sendctl_eq (type : Iltype) (id ack spec : Nat) (c : Conv) :
    c.sendctl type id ack spec =
      { c with acksent := ack, out := c.out ++ [⟨type, id, ack, spec, []⟩] } := by
  have hlen : ¬ headers + ([] : Msg).length ≥ ipMax := by decide
  rw [Conv.sendctl, Conv.ipoput, if_neg hlen]

/-- A conversation that is closed, or about to be, promises nothing. -/
theorem Paired.finish {st : State} (h : Paired x y) (hst : st = .closing ∨ st = .closed) (hu : Bool) :
    Paired { x with state := st, hungup := hu } y where
  own := { h.own with
    close := fun p hp ht => (h.own.close p hp ht).imp_right fun _ => hst
    freed := fun _ => hst }
  peer := h.peer
  sends := { h.sends with
    fresh := fun hl => by rcases hst with rfl | rfl <;> cases hl
    ack := fun _ _ _ => Or.inr hst
    recvd := Or.inr hst }
  hears := { h.hears with
    fresh := fun hl => { h.hears.fresh hl with peer := Or.inr (Or.inr hst) }
    before := fun hx => by rcases hst with rfl | rfl <;> rcases hx with hx | hx <;> cases hx
    syncee := fun hx => by rcases hst with rfl | rfl <;> cases hx
    established := fun hx => by rcases hst with rfl | rfl <;> cases hx
    open' := fun hx => by rcases hst with rfl | rfl <;> rcases hx with hx | hx | hx <;> cases hx }

theorem Paired.setrecvd (h : Paired x y) (hd : x.done) (hv : Good y x v) :
    Paired { x with recvd := v } y where
  own := { h.own with }
  peer := h.peer
  sends := { h.sends with fresh := fun hl => { h.sends.fresh hl with } }
  hears := { h.hears with
    fresh := fun hl => { h.hears.fresh hl with }
    before := fun hx => absurd hd (not_done (hx.imp_right fun hx => Or.inr (Or.inr hx)))
    syncee := fun hx => absurd hd (not_done (Or.inr (Or.inl hx)))
    established := fun hx => absurd hd (not_done (Or.inr (Or.inr (Or.inl hx))))
    recvd := hv }

/-- **Establishing**: the receiver has nothing yet, and expects the peer's first message. -/
theorem Paired.join {r s : Nat} (h : Paired x y) (hx : x.state = .syncer ∨ x.state = .syncee)
    (hy : y.state ≠ .listening) (hr : r = y.start) (hs : s = y.start) :
    Paired { x with recvd := r, rstart := s, state := .established, rexmit := 0 } y := by
  have hrq : x.rq = [] := by
    rcases hx with hx | hx
    · exact (h.hears.before (Or.inl hx)).2
    · exact (h.hears.syncee hx).2.2
  have hlive : ¬ x.done := not_done (by rcases hx with hx | hx <;> simp [hx])
  have hopen : x.hungup = false := h.hears.open' (by rcases hx with hx | hx <;> simp [hx])
  have hgood : ∀ v, Good x y v → v ≤ x.start + y.rq.length := fun v hv => hv.resolve_right hlive
  exact {
    own := { h.own with
      close := fun p hp ht => Or.inl ((h.own.close p hp ht).resolve_right hlive)
      freed := fun hf => absurd (h.own.freed hf) hlive }
    peer := h.peer
    sends := { h.sends with
      fresh := fun hl => nomatch hl
      ack := fun p hp ht => Or.inl (hgood p.ack (h.sends.ack p hp ht))
      recvd := Or.inl (hgood y.recvd h.sends.recvd) }
    hears := { h.hears with
      fresh := fun hl => absurd hl hy
      before := fun hx' => by rcases hx' with hx' | hx' <;> cases hx'
      syncee := fun hx' => nomatch hx'
      established := fun _ => ⟨by rw [hr, hrq]; rfl, hs⟩
      open' := fun _ => hopen
      recvd := Or.inl (hr ▸ Nat.le_add_right _ _) } }

/-- **A new call.** -/
theorem Paired.newcall (h : Paired x y) (hl : x.state = .listening) (hy : y.state ≠ .listening)
    (start : Nat) : Paired { x.newcall start y.start with recvd := y.start } y := by
  have hf := h.sends.fresh hl
  have hlive : ¬ x.done := not_done (Or.inr (Or.inr (Or.inr hl)))
  have hnone : ∀ b, b ∉ x.messages := by
    intro b hb
    rw [Conv.messages, hf.wrote] at hb
    exact not_mem_nil hb
  have hrq : y.rq = [] := prefix_nil.mp (hf.wrote ▸ h.sends.pre)
  have hacked : y.acked ≤ y.start + 0 := by
    have hacked := h.hears.acked
    rwa [(h.hears.before (Or.inr hl)).2] at hacked
  have hstate : ¬ (y.state = .syncee ∨ y.state = .established) := by
    rcases hf.peer with hs | hs | hs | hs <;> rw [hs] <;> simp
  exact {
    own := {
      next := rfl
      data := fun p hp ht => by rw [hf.out p hp] at ht; rcases ht with ht | ht <;> cases ht
      sync := fun p hp ht => by rw [hf.out p hp] at ht; cases ht
      close := fun p hp ht => Or.inl ((h.own.close p hp ht).resolve_right hlive)
      sent := fun _ hb => absurd hb not_mem_nil
      unacked := fun _ => rfl
      bytes := fun _ => rfl
      freed := fun hf => nomatch hf }
    peer := h.peer
    sends := { h.sends with
      fresh := fun hl => nomatch hl
      pre := hrq ▸ prefix_rfl
      syncee := fun hs => absurd (Or.inl hs) hstate
      established := fun hs => absurd (Or.inr hs) hstate
      outoforder := fun b hb => absurd (h.sends.outoforder b hb) (hnone b)
      ack := fun p hp _ => Or.inl (hf.acks p hp ▸ Nat.zero_le _)
      recvd := Or.inl (h.sends.zero hl h.sends.recvd ▸ Nat.zero_le _)
      acked := Nat.le_add_right start _ }
    hears := {
      fresh := fun hl => absurd hl hy
      pre := nil_prefix
      before := fun hs => by rcases hs with hs | hs <;> cases hs
      syncee := fun _ => ⟨rfl, rfl, rfl⟩
      established := fun hs => nomatch hs
      open' := fun _ => rfl
      sorted := List.Pairwise.nil
      outoforder := fun _ hb => absurd hb not_mem_nil
      ack := fun p hp ht => absurd (hf.out p hp) ht
      recvd := Or.inl (Nat.le_add_right _ _)
      acked := hacked } }

/-- **An acknowledgement** of what has been received. -/
theorem Paired.ilackto (h : Paired x y) (hv : v ≤ x.start + y.rq.length) : Paired (x.ilackto v) y := by
  obtain ⟨bytes, rexmit, hrun, hbytes⟩ := release_spec v x.unacked { x with acked := max x.acked v }
  rw [Conv.ilackto, hrun]
  have hdrop : x.freed = false → x.unacked.dropWhile (fun b => decide (b.id ≤ v)) =
      x.messages.filter fun b => decide (max x.acked v < b.id) := by
    intro hfreed
    have hsorted : x.unacked.Pairwise fun a b => a.id < b.id := by
      rw [h.own.unacked hfreed]
      exact blocks_sorted.filter _
    rw [dropWhile_id hsorted, h.own.unacked hfreed, filter_filter]
    refine filter_congr fun b _ => ?_
    rw [← Bool.decide_and, decide_eq_decide]
    omega
  exact {
    own := { h.own with
      sent := fun b hb => h.own.sent b ((dropWhile_sublist _).subset hb)
      unacked := hdrop
      bytes := fun hfreed => hbytes (h.own.bytes hfreed) }
    peer := h.peer
    sends := { h.sends with
      fresh := fun hl => { h.sends.fresh hl with }
      acked := Nat.max_le.mpr ⟨h.sends.acked, hv⟩ }
    hears := { h.hears with fresh := fun hl => { h.hears.fresh hl with } } }

theorem Paired.iloutoforder (h : Paired x y) (hb : b ∈ y.messages) : Paired (x.iloutoforder b) y := by
  rw [Conv.iloutoforder]
  split
  next => exact h
  next =>
    exact {
      own := { h.own with }
      peer := h.peer
      sends := { h.sends with fresh := fun hl => { h.sends.fresh hl with } }
      hears := { h.hears with
        fresh := fun hl => { h.hears.fresh hl with }
        sorted := insert_sorted h.hears.sorted
        outoforder := fun a ha => by
          rcases mem_insert ha with rfl | ha
          · exact hb
          · exact h.hears.outoforder a ha } }

/-- **Pulling up** passes the next messages. -/
theorem Paired.ilpullup (h : Paired x y) : Paired x.ilpullup y := by
  rw [Conv.ilpullup]
  by_cases hx : x.state ≠ .established
  · rw [if_pos hx]
    exact h
  rw [if_neg hx]
  have hest : x.state = .established := not_not.mp hx
  obtain ⟨hrecvd, hrstart⟩ := h.hears.established hest
  obtain ⟨q, o, hrun, hq, hqw, ho⟩ := pull_spec y.start x.outoforder x
    (h.hears.open' (Or.inr (Or.inr hest))) h.hears.pre hrecvd h.hears.outoforder
  rw [hrun]
  have hlen : y.start + x.rq.length ≤ y.start + q.length := Nat.add_le_add_left hq.length_le _
  exact {
    own := { h.own with }
    peer := h.peer
    sends := { h.sends with fresh := fun hl => { h.sends.fresh hl with } }
    hears := {
      fresh := fun hl => { h.hears.fresh hl with }
      pre := hqw
      before := fun hs => by rcases hs with hs | hs <;> cases hest.symm.trans hs
      syncee := fun hs => nomatch hest.symm.trans hs
      established := fun _ => ⟨rfl, hrstart⟩
      open' := h.hears.open'
      sorted := h.hears.sorted.sublist ho
      outoforder := fun b hb => h.hears.outoforder b (ho.subset hb)
      ack := fun p hp ht => (h.hears.ack p hp ht).imp_left fun hv => Nat.le_trans hv hlen
      recvd := Or.inl (Nat.le_refl _)
      acked := Nat.le_trans h.hears.acked hlen } }

theorem Paired.ilfreeq (h : Paired x y) (hd : x.done) : Paired x.ilfreeq y where
  own := { h.own with
    sent := fun _ hb => absurd hb not_mem_nil
    unacked := fun hf => nomatch hf
    bytes := fun hf => nomatch hf
    freed := fun _ => hd }
  peer := h.peer
  sends := { h.sends with fresh := fun hl => { h.sends.fresh hl with } }
  hears := { h.hears with
    fresh := fun hl => { h.hears.fresh hl with }
    sorted := List.Pairwise.nil
    outoforder := fun _ hb => absurd hb not_mem_nil }

theorem Paired.hungup (h : Paired x y)
    (hx : ¬ (x.state = .syncer ∨ x.state = .syncee ∨ x.state = .established)) :
    Paired { x with hungup := true } y where
  own := { h.own with }
  peer := h.peer
  sends := { h.sends with fresh := fun hl => { h.sends.fresh hl with } }
  hears := { h.hears with
    fresh := fun hl => { h.hears.fresh hl with }
    open' := fun hs => absurd hs hx }

theorem Paired.kick (h : Paired x y) (m : Msg) : Paired (x.kick m) y := by
  have hkick : x.state ≠ .listening → Paired { x with kicking := m :: x.kicking } y := fun hx => {
    own := { h.own with }
    peer := h.peer
    sends := { h.sends with fresh := fun hl => absurd hl hx }
    hears := { h.hears with fresh := fun hl => { h.hears.fresh hl with } } }
  rw [Conv.kick]
  split
  iterate 3 next hs => exact h.hungup (by rw [hs]; simp)
  next _ hs _ => exact hkick hs

/-- **A message is written**: it is the last one, and nobody has acknowledged it. -/
theorem Paired.kicked (h : Paired x y) (hm : m ∈ x.kicking) : Paired (x.kicked m) y := by
  have hlisten : x.state ≠ .listening := by
    intro hl
    rw [(h.sends.fresh hl).kicking] at hm
    exact not_mem_nil hm
  have hlen : y.rq.length ≤ x.wrote.length := h.sends.pre.length_le
  have hmsgs : blocks (x.start + 1) (x.wrote ++ [m]) = x.messages ++ [⟨x.next, m⟩] := by
    rw [blocks_append, h.own.next]
    rfl
  have hold : ∀ b ∈ x.messages, b ∈ blocks (x.start + 1) (x.wrote ++ [m]) := by
    intro b hb
    rw [hmsgs]
    exact mem_append_left _ hb
  have hnew : ⟨x.next, m⟩ ∈ blocks (x.start + 1) (x.wrote ++ [m]) := by
    rw [hmsgs]
    exact mem_append_right _ mem_cons_self
  have hlate : x.acked < x.next := by
    have hacked := h.sends.acked
    have hnext := h.own.next
    omega
  have hfilter : (blocks (x.start + 1) (x.wrote ++ [m])).filter (fun b => decide (x.acked < b.id)) =
      x.messages.filter (fun b => decide (x.acked < b.id)) ++ [⟨x.next, m⟩] := by
    rw [hmsgs, filter_append, filter_cons_of_pos (by simpa using hlate), filter_nil]
  have hqueued : Paired (Conv.ackq { x with
      next := x.next + 1
      acksent := x.recvd
      kicking := x.kicking.erase m
      wrote := x.wrote ++ [m] } ⟨x.next, m⟩) y := {
    own := {
      next := by
        simp only [Conv.ackq, length_append, length_singleton, h.own.next]
        omega
      data := fun p hp ht => hold _ (h.own.data p hp ht)
      sync := h.own.sync
      close := h.own.close
      sent := fun b hb => by
        rcases mem_append.mp hb with hb | hb
        · exact hold b (h.own.sent b hb)
        · rw [mem_singleton.mp hb]
          exact hnew
      unacked := fun hf => (congrArg (fun l => l ++ [(⟨x.next, m⟩ : Blk)]) (h.own.unacked hf)).trans hfilter.symm
      bytes := fun hf => by
        simp only [Conv.ackq, total, map_append, sum_append, map_cons, map_nil, sum_cons, sum_nil]
        rw [h.own.bytes hf]
        rfl
      freed := h.own.freed }
    peer := h.peer
    sends := { h.sends with
      fresh := fun hl => absurd hl hlisten
      pre := h.sends.pre.trans (prefix_append _ _)
      outoforder := fun b hb => hold b (h.sends.outoforder b hb) }
    hears := { h.hears with fresh := fun hl => { h.hears.fresh hl with } } }
  exact hqueued.ipoput {
    data := fun _ => hnew
    sync := fun ht => by cases ht
    close := fun ht => by cases ht
    ack := fun _ => h.hears.recvd
    listening := fun hl => absurd hl hlisten
    zero := fun hy => h.hears.zero hy h.hears.recvd }

@[simp] theorem ilackto_state (x : Conv) (v : Nat) : (x.ilackto v).state = x.state := by
  obtain ⟨bytes, rexmit, hrun, -⟩ := release_spec v x.unacked { x with acked := max x.acked v }
  rw [Conv.ilackto, hrun]

@[simp] theorem iloutoforder_state (x : Conv) (b : Blk) : (x.iloutoforder b).state = x.state := by
  rw [Conv.iloutoforder]
  split <;> rfl

theorem pull_state (l : List Blk) (c : Conv) : (Conv.pull l c).state = c.state := by
  induction l generalizing c with
  | nil => rfl
  | cons b l ih =>
    rw [Conv.pull]
    split
    next => exact ih c
    next =>
      split
      next => rfl
      next =>
        rw [ih, Conv.pass]
        split <;> rfl

@[simp] theorem ilpullup_state (x : Conv) : x.ilpullup.state = x.state := by
  rw [Conv.ilpullup]
  split
  next => rfl
  next => exact pull_state x.outoforder x

/-- What a close says has been received. -/
theorem Paired.close_id (h : Paired x y) (hp : p ∈ y.out) (ht : p.type = .close) : Good y x p.id := by
  rcases h.peer.close p hp ht with hid | hdone
  · left
    rw [hid]
    exact Nat.zero_le _
  · exact Or.inr hdone

/-- What an established conversation is acknowledged has been received. -/
theorem Paired.ack_le (h : Paired x y) (hx : x.state = .established) (hp : p ∈ y.out)
    (ht : p.type ≠ .close) : p.ack ≤ x.start + y.rq.length :=
  (h.sends.ack p hp ht).resolve_right (not_done (Or.inr (Or.inr (Or.inl hx))))

/-- A message, from the acknowledgement in it to the read queue. -/
theorem Paired.message (h : Paired x y) (hx : x.state = .established) (hp : p ∈ y.out)
    (ht : p.type = .data ∨ p.type = .dataquery) :
    Paired ((x.ilackto p.ack).iloutoforder ⟨p.id, p.data⟩).ilpullup y := by
  have hclose : p.type ≠ .close := by rcases ht with ht | ht <;> rw [ht] <;> simp
  exact ((h.ilackto (h.ack_le hx hp hclose)).iloutoforder (h.peer.data p hp ht)).ilpullup

/-- A state message. -/
theorem Paired.statemsg (h : Paired x y) (hl : x.state ≠ .listening) (spec : Nat) :
    Paired (x.sendctl .state x.next x.recvd spec) y :=
  h.sendctl ⟨by simp, by simp⟩ (fun ht => nomatch ht) (fun ht => nomatch ht) h.hears.recvd hl

theorem Paired.nextqt (h : Paired x y) : Paired x.nextqt.1 y :=
  h.frame x.acksent x.rexmit _ _

/-- **Retransmission** sends a message that has been written. -/
theorem Paired.ilrexmit (h : Paired x y) (hl : x.state ≠ .listening) : Paired x.ilrexmit y := by
  rw [Conv.ilrexmit]
  split
  next => exact h
  next b l hunacked =>
    have hframe : Paired x.nextqt.1.backoff y := h.frame x.acksent (x.rexmit + 1) _ _
    exact hframe.ipoput {
      data := fun _ => h.own.sent b (by rw [hunacked]; exact mem_cons_self)
      sync := fun ht => nomatch ht
      close := fun ht => nomatch ht
      ack := fun _ => h.hears.recvd
      listening := fun hl' => absurd hl' hl
      zero := fun hy => h.hears.zero hy h.hears.recvd }

/-- **A close is answered**, and the conversation is closing. -/
theorem Paired.closing {id : Nat} (h : Paired x y) (hp : p ∈ y.out) (ht : p.type = .close) :
    Paired { Conv.sendctl { x with recvd := p.id } .close id p.id 0 with state := .closing } y := by
  have hdone : Paired { x with state := .closing } y := h.finish (Or.inl rfl) x.hungup
  have hrecvd : Paired { x with state := .closing, recvd := p.id } y :=
    hdone.setrecvd (Or.inl rfl) (h.close_id hp ht)
  have hsent : Paired (Conv.sendctl { x with state := .closing, recvd := p.id } .close id p.id 0) y :=
    hrecvd.sendctl ⟨by simp, by simp⟩ (fun ht => nomatch ht) (fun _ => Or.inl rfl) (h.close_id hp ht)
      (by simp)
  rw [sendctl_eq] at hsent ⊢
  exact hsent

theorem Paired.established (h : Paired x y) (hx : x.state = .established) (hp : p ∈ y.out)
    (full : Bool) : Paired (x.established p full) y := by
  have hl : x.state ≠ .listening := by rw [hx]; simp
  have hack : p.type ≠ .close → Paired (x.ilackto p.ack) y := fun ht => h.ilackto (h.ack_le hx hp ht)
  rw [Conv.established]
  split
  next =>
    split
    next => exact h.finish (Or.inr rfl) true
    next =>
      refine h.sendctl ⟨by simp, by simp⟩ (fun ht => nomatch ht) (fun ht => nomatch ht) ?_ hl
      exact Or.inl ((h.hears.established hx).2 ▸ Nat.le_add_right _ _)
  next ht =>
    split
    next => exact h
    next => exact h.message hx hp (Or.inl ht)
  next ht => exact (h.message hx hp (Or.inr ht)).statemsg (by simp [hx]) p.spec
  next ht => exact hack (by simp [ht])
  next ht => exact (hack (by simp [ht])).statemsg (by simp [hx]) p.spec
  next ht =>
    have hacked := hack (by simp [ht])
    by_cases hqt : (x.ilackto p.ack).qt (if p.spec > Nqt then 0 else p.spec) > p.ack
    · rw [if_pos hqt]
      exact hacked.ilrexmit (by simp [hx])
    · rw [if_neg hqt]
      exact hacked
  next ht =>
    split
    next => exact h
    next => exact (h.closing hp ht).ilfreeq (Or.inl rfl)

/-- **One packet** that the peer has sent. -/
theorem Paired.ilprocess (h : Paired x y) (hp : p ∈ y.out) (full : Bool) :
    Paired (x.ilprocess p full) y := by
  rw [Conv.ilprocess]
  split
  next => exact h
  next => exact h
  next hs =>
    split
    next ht =>
      split
      next => exact h.finish (Or.inr rfl) true
      next =>
        have hid : p.id = y.start := h.peer.sync p hp ht
        have hy : y.state ≠ .listening := fun hy => nomatch ((h.hears.fresh hy).out p hp).symm.trans ht
        have hjoin := h.join (Or.inl hs) hy hid hid
        have hsent : Paired (Conv.sendctl { x with
            recvd := p.id, rstart := p.id, state := .established, rexmit := 0 } .ack x.next p.id 0) y :=
          hjoin.sendctl ⟨by simp, by simp⟩ (fun ht => nomatch ht) (fun ht => nomatch ht)
            (Or.inl (hid ▸ Nat.le_add_right _ _)) (by simp)
        rw [sendctl_eq] at hsent ⊢
        exact hsent.ilpullup
    next =>
      split
      next => exact h.finish (Or.inr rfl) true
      next => exact h
    next => exact h
  next hs =>
    have hjoin : y.state ≠ .listening → Paired x.establish y := fun hy =>
      h.join (Or.inr hs) hy (h.hears.syncee hs).1 (h.hears.syncee hs).2.1
    have hy : p.type ≠ .close → y.state ≠ .listening := fun ht hy => ht ((h.hears.fresh hy).out p hp)
    split
    next ht =>
      split
      next => exact h.finish (Or.inr rfl) x.hungup
      next hne =>
        have hid : p.id = x.recvd := by
          rw [(h.hears.syncee hs).1, ← (h.hears.syncee hs).2.1]
          exact not_not.mp fun hne' => hne (Or.inl hne')
        rw [hid]
        exact h.sendctl ⟨by simp, by simp⟩ (fun _ => rfl) (fun ht => nomatch ht) h.hears.recvd
          (by rw [hs]; simp)
    next ht =>
      split
      next => exact (hjoin (hy (by simp [ht]))).ilpullup
      next => exact h
    next ht =>
      split
      next => exact (hjoin (hy (by simp [ht]))).established rfl hp full
      next => exact h
    next =>
      split
      next => exact h.finish (Or.inr rfl) true
      next => exact h
    next => exact h
  next hs => exact h.established hs hp full
  next hs =>
    split
    next ht =>
      have hclosing : Paired { Conv.sendctl { x with recvd := p.id } .close x.next p.id 0 with
        state := .closing } y := h.closing hp ht
      rw [sendctl_eq] at hclosing ⊢
      dsimp only
      split
      next => exact hclosing.finish (Or.inr rfl) true
      next =>
        rw [← hs] at hclosing
        exact hclosing
    next => exact h

/-- A packet for which there is no conversation. -/
theorem Paired.reject (h : Paired x y) (hp : p ∈ y.out) (hx : p.ack = 0 ∨ x.done) :
    Paired (x.reject p) y := by
  refine h.ipoput {
    data := fun ht => by rcases ht with ht | ht <;> cases ht
    sync := fun ht => nomatch ht
    close := fun _ => hx
    ack := fun ht => absurd rfl ht
    listening := fun _ => rfl
    zero := fun hy => ?_ }
  have hclose := (h.hears.fresh hy).out p hp
  exact (h.peer.close p hp hclose).resolve_right (not_done (Or.inr (Or.inr (Or.inr hy))))

theorem Paired.iliput (h : Paired x y) (hp : p ∈ y.out) (full : Bool) (call : Option Nat) :
    Paired (x.iliput p full call) y := by
  unfold Conv.iliput
  split
  next hs =>
    split
    next => exact h.reject hp (Or.inr (Or.inr hs))
    next => exact h
  next hs =>
    have hack : p.ack = 0 := (h.sends.fresh hs).acks p hp
    split
    next => exact h.reject hp (Or.inl hack)
    next hsync =>
      have ht : p.type = .sync := not_not.mp hsync
      split
      next => exact h.reject hp (Or.inl hack)
      next start =>
        -- the sync that makes the conversation is processed by it
        have hid : p.id = y.start := h.peer.sync p hp ht
        have hy : y.state ≠ .listening := fun hy => nomatch ((h.hears.fresh hy).out p hp).symm.trans ht
        have hfirst : (x.newcall start p.id).ilprocess p full =
            Conv.sendctl { x.newcall start p.id with recvd := p.id } .sync start p.id 0 := by
          simp [Conv.ilprocess, Conv.newcall, ht, hack]
        rw [hfirst, hid]
        exact (h.newcall hs hy start).sendctl ⟨by simp, by simp⟩ (fun _ => rfl)
          (fun ht => nomatch ht) (Or.inl (Nat.le_add_right _ _)) (by simp [Conv.newcall])
  next => exact h.ilprocess hp full

theorem Paired.backoff (h : Paired x y) : Paired x.backoff y :=
  h.frame x.acksent (x.rexmit + 1) x.qtx x.qt

theorem Paired.query (h : Paired x y) (hl : x.state ≠ .listening) : Paired x.query y :=
  h.nextqt.sendctl ⟨by simp, by simp⟩ (fun ht => nomatch ht) (fun ht => nomatch ht) h.hears.recvd hl

theorem sendctl_state (type : Iltype) (id ack spec : Nat) : (x.sendctl type id ack spec).state = x.state := by
  rw [sendctl_eq]

theorem tickack_state (late : Late) : (x.tickack late).state = x.state := by
  rw [Conv.tickack]
  split
  next => exact sendctl_state _ _ _ _
  next => rfl

theorem Paired.tickack (h : Paired x y) (hl : x.state ≠ .listening) (late : Late) :
    Paired (x.tickack late) y := by
  rw [Conv.tickack]
  split
  next => exact h.sendctl ⟨by simp, by simp⟩ (fun ht => nomatch ht) (fun ht => nomatch ht) h.hears.recvd hl
  next => exact h

theorem Paired.tickquery (h : Paired x y) (hl : x.state ≠ .listening) (late : Late) :
    Paired (x.tickquery late) y := by
  rw [Conv.tickquery]
  split
  next =>
    split
    next => exact h.finish (Or.inr rfl) true
    next => exact (h.query hl).backoff
  next => exact h

theorem Paired.tick (h : Paired x y) (late : Late) : Paired (x.tick late) y := by
  have hsync : x.state ≠ .listening → Paired (x.sendctl .sync x.start x.recvd 0) y := fun hl =>
    h.sendctl ⟨by simp, by simp⟩ (fun _ => rfl) (fun ht => nomatch ht) h.hears.recvd hl
  have hclose : x.state = .closing → Paired (x.sendctl .close x.next x.recvd 0) y := fun hs =>
    h.sendctl ⟨by simp, by simp⟩ (fun ht => nomatch ht) (fun _ => Or.inl hs) h.hears.recvd (by rw [hs]; simp)
  rw [Conv.tick]
  split
  next => exact h
  next => exact h
  next hs =>
    split
    next =>
      split
      next => exact h.finish (Or.inr rfl) true
      next => exact (hclose hs).backoff
    next => exact h
  iterate 2
    next hs =>
      split
      next =>
        split
        next => exact h.finish (Or.inr rfl) true
        next => exact (hsync (by rw [hs]; simp)).backoff
      next => exact h
  next hs =>
    have hl : x.state ≠ .listening := by rw [hs]; simp
    have hack : Paired (x.tickack late) y := h.tickack hl late
    have hl' : (x.tickack late).state ≠ .listening := by rwa [tickack_state]
    dsimp only
    split
    next =>
      split
      next => exact hack.finish (Or.inr rfl) true
      next => exact (hack.query hl').tickquery (by rwa [Conv.query, sendctl_state]) late
    next => exact hack.tickquery hl' late

theorem Paired.ilclose (h : Paired x y) : Paired x.ilclose y := by
  rw [Conv.ilclose]
  dsimp only
  split
  next hs => exact (h.hungup (by rw [hs]; simp)).ilfreeq (Or.inl hs)
  next hs => exact (h.hungup (by rw [hs]; simp)).ilfreeq (Or.inr hs)
  next => exact (h.finish (Or.inr rfl) true).ilfreeq (Or.inr rfl)
  next =>
    have hclosing : Paired { x with hungup := true, state := .closing } y := h.finish (Or.inl rfl) true
    have hsent : Paired (Conv.sendctl { x with hungup := true, state := .closing } .close x.next x.recvd 0) y :=
      hclosing.sendctl ⟨by simp, by simp⟩ (fun ht => nomatch ht) (fun _ => Or.inl rfl)
        hclosing.hears.recvd (by simp)
    exact hsent.ilfreeq (Or.inl rfl)

theorem Paired.advise (h : Paired x y) : Paired x.advise y := by
  rw [Conv.advise]
  split
  next => exact h.finish (Or.inr rfl) true
  next => exact h

theorem Paired.symm (h : Paired x y) : Paired y x := ⟨h.peer, h.own, h.hears, h.sends⟩

/-- **At the start** nothing has been written. -/
theorem start_paired {s : Sys} (h : Start s) (i : Bool) : Paired (s i) (s !i) := by
  have hstate : ∀ j, (s j).state = .syncer ∨ (s j).state = .listening := fun j =>
    (h j).2.imp (fun hs => hs.1) (fun hs => hs.1)
  have hout : ∀ j, ∀ p ∈ (s j).out, (s j).state = .syncer ∧ p = ⟨.sync, (s j).start, 0, 0, []⟩ := by
    intro j p hp
    rcases (h j).2 with ⟨hs, ho⟩ | ⟨-, ho, -⟩
    · rw [ho] at hp
      exact ⟨hs, mem_singleton.mp hp⟩
    · rw [ho] at hp
      exact absurd hp not_mem_nil
  have hown : ∀ j, Own (s j) := fun j => {
    next := by rw [(h j).1.next, (h j).1.wrote]; rfl
    data := fun p hp ht => by rw [(hout j p hp).2] at ht; rcases ht with ht | ht <;> cases ht
    sync := fun p hp _ => by rw [(hout j p hp).2]
    close := fun p hp ht => by rw [(hout j p hp).2] at ht; cases ht
    sent := fun b hb => by rw [(h j).1.unacked] at hb; exact absurd hb not_mem_nil
    unacked := fun _ => by rw [(h j).1.unacked, Conv.messages, (h j).1.wrote]; rfl
    bytes := fun _ => by rw [(h j).1.unackedbytes, (h j).1.unacked]; rfl
    freed := fun hf => by cases (h j).1.freed.symm.trans hf }
  have hheard : ∀ j k, Heard (s j) (s k) := fun j k => {
    fresh := fun hl => {
      start := by
        rcases (h j).2 with ⟨hs, -⟩ | ⟨-, -, hs⟩
        · cases hs.symm.trans hl
        · exact hs
      wrote := (h j).1.wrote
      kicking := (h j).1.kicking
      out := fun p hp => by cases hl.symm.trans (hout j p hp).1
      peer := (hstate k).imp_right Or.inl
      acks := fun p hp => by rw [(hout k p hp).2] }
    pre := by rw [(h k).1.rq]; exact nil_prefix
    before := fun _ => ⟨(h k).1.recvd, (h k).1.rq⟩
    syncee := fun hs => by rcases hstate k with hk | hk <;> cases hk.symm.trans hs
    established := fun hs => by rcases hstate k with hk | hk <;> cases hk.symm.trans hs
    open' := fun _ => (h k).1.hungup
    sorted := by rw [(h k).1.outoforder]; exact List.Pairwise.nil
    outoforder := fun b hb => by rw [(h k).1.outoforder] at hb; exact absurd hb not_mem_nil
    ack := fun p hp _ => Or.inl (by rw [(hout k p hp).2]; exact Nat.zero_le _)
    recvd := Or.inl (by rw [(h k).1.recvd]; exact Nat.zero_le _)
    acked := by rw [(h j).1.acked]; exact Nat.le_add_right _ _ }
  exact ⟨hown i, hown (!i), hheard i (!i), hheard (!i) i⟩

/-- A side that does something stays paired with the other. -/
theorem update_paired {s : Sys} {i : Bool} (h : Paired x (s !i)) (j : Bool) :
    Paired (update s i x j) (update s i x !j) := by
  have hne : (!i) ≠ i := by simp
  by_cases hj : j = i
  · rw [hj, update_self, update_of_ne hne]
    exact h
  · have hother : j = !i := by
      cases i <;> cases j <;> simp at hj ⊢
    rw [hother, Bool.not_not, update_self, update_of_ne hne]
    exact h.symm

/-- **One step** of the two sides. -/
theorem act_paired {s t : Sys} {op : Op} (h : ∀ i, Paired (s i) (s !i)) (hact : act s op = some t) :
    ∀ i, Paired (t i) (t !i) := by
  cases op with
  | write i m =>
    cases hact
    exact update_paired ((h i).kick m)
  | kick i m =>
    obtain ⟨hm, ht⟩ := Option.ite_none_right_eq_some.mp hact
    cases ht
    exact update_paired ((h i).kicked hm)
  | recv i p full call =>
    obtain ⟨hp, ht⟩ := Option.ite_none_right_eq_some.mp hact
    cases ht
    exact update_paired ((h i).iliput hp full call)
  | tick i late =>
    cases hact
    exact update_paired ((h i).tick late)
  | close i =>
    cases hact
    exact update_paired (h i).ilclose
  | advise i =>
    cases hact
    exact update_paired (h i).advise

/-- **The two sides of a run.** -/
theorem reach_paired {s : Sys} (h : Reach s) : ∀ i, Paired (s i) (s !i) :=
  h.invariant (fun s => ∀ i, Paired (s i) (s !i)) (fun _ hs => start_paired hs)
    fun _ _ _ hs hact => act_paired hs hact

/-- **IL delivery**: what the receiver has passed is a prefix of what the sender has written, and
the sender keeps what lies beyond the last acknowledgement, until its queues are freed when it is
closed; what has been acknowledged has been passed. -/
theorem il_delivery {s : Sys} (h : Reach s) (i : Bool) :
    (s !i).rq <+: (s i).wrote ∧
      ((s i).freed = false →
        (s i).unacked = (s i).messages.filter (fun b => decide ((s i).acked < b.id)) ∧
        (s i).unacked.Pairwise (fun a b => a.id < b.id) ∧
        (s i).unackedbytes = total (s i).unacked) ∧
      ((s i).freed = true → (s i).state = .closing ∨ (s i).state = .closed) ∧
      (s i).acked ≤ (s i).start + (s !i).rq.length := by
  have hpair := reach_paired h i
  refine ⟨hpair.sends.pre, fun hfreed => ⟨hpair.own.unacked hfreed, ?_, hpair.own.bytes hfreed⟩,
    hpair.own.freed, hpair.sends.acked⟩
  rw [hpair.own.unacked hfreed]
  exact blocks_sorted.filter _

/-- A side that has called, or listens. -/
def blank (state : State) (start : Nat) (out : List Pkt) : Conv where
  state
  unacked := []
  unackedbytes := 0
  outoforder := []
  next := start + 1
  recvd := 0
  acksent := 0
  start
  rstart := 0
  window := Defaultwin
  rexmit := 0
  qt := fun _ => 0
  qtx := 1
  hungup := false
  rq := []
  out
  kicking := []
  wrote := []
  acked := start
  freed := false

/-- One side calls with start id 100. -/
def ringing : Sys
  | true => blank .syncer 100 [⟨.sync, 100, 0, 0, []⟩]
  | false => blank .listening 0 []

theorem ringing_start : Start ringing := by
  intro i
  cases i with
  | false => exact ⟨⟨rfl, rfl, rfl, rfl, rfl, rfl, rfl, rfl, rfl, rfl, rfl⟩, Or.inr ⟨rfl, rfl, rfl⟩⟩
  | true => exact ⟨⟨rfl, rfl, rfl, rfl, rfl, rfl, rfl, rfl, rfl, rfl, rfl⟩, Or.inl ⟨rfl, rfl⟩⟩

theorem ringing_reach {l : List Op} {s : Sys} (h : StepSystem.exec act ringing l = some s) : Reach s :=
  (StepSystem.Reach.start ringing_start).exec h fun _ _ _ _ hact => hact

/-- The call is taken with start id 500, and a message is written. -/
def hello : List Op :=
  [.recv false ⟨.sync, 100, 0, 0, []⟩ false (some 500),
    .recv true ⟨.sync, 500, 100, 0, []⟩ false none,
    .recv false ⟨.ack, 101, 500, 0, []⟩ false none,
    .write true [104],
    .kick true [104]]

/-- The message comes twice. -/
theorem il_delivery_twice : ∃ s,
    StepSystem.exec act ringing (hello ++ [.recv false ⟨.data, 101, 500, 0, [104]⟩ false none,
      .recv false ⟨.data, 101, 500, 0, [104]⟩ false none]) = some s ∧
    (s false).rq = [[104]] ∧ (s false).rq <+: (s true).wrote ∧
    (s true).unacked = (s true).messages.filter (fun b => decide ((s true).acked < b.id)) := by
  refine ⟨_, rfl, rfl, ?_⟩
  have hdelivery := il_delivery (ringing_reach (l := hello ++ [
    .recv false ⟨.data, 101, 500, 0, [104]⟩ false none,
    .recv false ⟨.data, 101, 500, 0, [104]⟩ false none]) rfl) true
  exact ⟨hdelivery.1, (hdelivery.2.1 rfl).1⟩

/-- The sender closes with a message that nobody has acknowledged: it keeps nothing. -/
theorem closed_unacked : ¬ ∀ s, Reach s → ∀ i,
    (s !i).rq <+: (s i).wrote ∧
      (s i).unacked = (s i).messages.filter (fun b => decide ((s i).acked < b.id)) ∧
      (s i).unacked.Pairwise (fun a b => a.id < b.id) ∧
      (s i).unackedbytes = total (s i).unacked := by
  intro hall
  have hunacked := (hall _ (ringing_reach (l := hello ++ [.close true]) rfl) true).2.1
  have hkept : ([] : List Blk) = [⟨101, [104]⟩] := hunacked
  cases hkept

end Il
