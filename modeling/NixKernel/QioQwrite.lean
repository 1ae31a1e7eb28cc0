import NixKernel.QioStep

/-!
# `qwrite`: what is reported and what is delivered

`qwrite` cuts its bytes into blocks of at most `Maxatomic` bytes, gives each to `qbwrite` and
returns the length it was called with.  The loop is a process of its own here: between any two of
its steps, and while it sleeps in `qbwrite`, the other users of the queue do what they like.
-/

namespace Qio

open HeapChain StepSystem Option

/-- `Qmsg`: the queue keeps message boundaries. -/
def Qs.msg (s : Qs) : Bool := s.q.state.msg

@[simp] theorem msg_restart (q : Queue) : (restart q).1.state.msg = q.state.msg := by
  rw [restart_fst]

@[simp] theorem msg_unstarve (q : Queue) : (unstarve q).1.state.msg = q.state.msg := by
  rw [unstarve_fst]

@[simp] theorem msg_qwait (q : Queue) : (qwait q).1.state.msg = q.state.msg := by
  unfold qwait
  dsimp only
  split_ifs <;> rfl

variable {s : Qs}

theorem msg_qremove {r : Qs × Option Addr} (h : qremove s = some r) :
    r.1.msg = s.msg := by
  unfold qremove at h
  split at h
  · cases h
    rfl
  · simp only [bind_eq_bind, bind_eq_some_iff, pure_def, some.injEq] at h
    obtain ⟨_, _, rfl⟩ := h
    rfl

theorem msg_qdiscardLoop {len sofar : Nat} {gone : List UInt8} {r : Qs × Nat × List UInt8}
    (h : qdiscardLoop s len sofar gone = some r) : r.1.msg = s.msg := by
  refine Qs.qdiscardLoop.partial_correctness len (fun s _ _ r => r.1.msg = s.msg) ?_ s sofar gone r h
  intro loop ih s sofar gone r h
  split at h
  · split at h
    · cases h
      rfl
    · simp only [bind_eq_bind, bind_eq_some_iff] at h
      obtain ⟨b, _, h⟩ := h
      split at h
      · obtain ⟨p, hp, h⟩ := bind_eq_some_iff.mp h
        obtain ⟨heap, _, h⟩ := bind_eq_some_iff.mp h
        exact (ih _ _ _ _ h).trans (msg_qremove hp)
      · have hrest := ih _ _ _ _ h
        exact hrest
  · cases h
    rfl

theorem msg_qconsumeSkip {tofree : Option Addr} {r : Qs × Option Addr}
    (h : qconsumeSkip s tofree = some r) : r.1.msg = s.msg := by
  refine Qs.qconsumeSkip.partial_correctness (fun s _ r => r.1.msg = s.msg) ?_ s tofree r h
  intro loop ih s tofree r h
  split at h
  · cases h
    rfl
  · obtain ⟨b, _, h⟩ := bind_eq_some_iff.mp h
    split at h
    · cases h
      rfl
    · have hrest := ih _ _ _ h
      exact hrest

theorem msg_qreadGrab {len n : Nat} {last : Addr} {r : Qs × Nat}
    (h : qreadGrab s len last n = some r) : r.1.msg = s.msg := by
  refine Qs.qreadGrab.partial_correctness len (fun s _ _ r => r.1.msg = s.msg) ?_ s last n r h
  intro loop ih s last n r h
  split at h
  · cases h
    rfl
  · split at h
    · cases h
      rfl
    · obtain ⟨b, _, h⟩ := bind_eq_some_iff.mp h
      obtain ⟨p, hp, h⟩ := bind_eq_some_iff.mp h
      obtain ⟨lb, _, h⟩ := bind_eq_some_iff.mp h
      exact (ih _ _ _ _ h).trans (msg_qremove hp)

theorem msg_qreadTake {len : Nat} {r : Qs × Taken} (h : qreadTake s len = some r) :
    r.1.msg = s.msg := by
  refine Qs.qreadTake.partial_correctness len (fun s r => r.1.msg = s.msg) ?_ s r h
  intro loop ih s r h
  have hwait := msg_qwait s.q
  split at h
  iterate 3
    next q heq =>
      cases h
      rw [heq] at hwait
      exact hwait
  · split at h
    · cases h
    · obtain ⟨b, _, h⟩ := bind_eq_some_iff.mp h
      split at h
      · split at h
        · obtain ⟨p, hp, h⟩ := bind_eq_some_iff.mp h
          obtain ⟨heap, _, h⟩ := bind_eq_some_iff.mp h
          exact (ih _ _ h).trans (msg_qremove hp)
        · obtain ⟨p, hp, h⟩ := bind_eq_some_iff.mp h
          obtain ⟨g, hg, h⟩ := bind_eq_some_iff.mp h
          cases h
          exact (msg_qreadGrab hg).trans (msg_qremove hp)
      · obtain ⟨p, hp, h⟩ := bind_eq_some_iff.mp h
        cases h
        exact msg_qremove hp

variable {a : Addr}

theorem msg_linkTail {s t : Qs} (h : linkTail s a = some t) : t.msg = s.msg := by
  unfold linkTail at h
  split at h
  · cases h
    rfl
  · obtain ⟨l, _, h⟩ := bind_eq_some_iff.mp h
    obtain ⟨b, _, h⟩ := bind_eq_some_iff.mp h
    cases h
    rfl

theorem msg_qaddlist {s t : Qs} (h : qaddlist s a = some t) : t.msg = s.msg := by
  obtain ⟨u, hu, h⟩ := bind_eq_some_iff.mp h
  obtain ⟨len, _, h⟩ := bind_eq_some_iff.mp h
  obtain ⟨dlen, _, h⟩ := bind_eq_some_iff.mp h
  obtain ⟨last, _, h⟩ := bind_eq_some_iff.mp h
  cases h
  have hlink := msg_linkTail hu
  exact hlink

theorem msg_qaddblock {s t : Qs} (h : qaddblock s a = some t) : t.msg = s.msg := by
  obtain ⟨b, _, h⟩ := bind_eq_some_iff.mp h
  obtain ⟨u, hu, h⟩ := bind_eq_some_iff.mp h
  cases h
  have hlink := msg_linkTail hu
  exact hlink

theorem msg_qputback {s t : Qs} (h : qputback s a = some t) : t.msg = s.msg := by
  obtain ⟨b, _, h⟩ := bind_eq_some_iff.mp h
  cases h
  rfl

variable {r : Ret Int}

theorem msg_qpassnolim (h : qpassnolim s a = some r) :
    r.st.msg = s.msg := by
  unfold qpassnolim at h
  split at h
  · obtain ⟨b, _, h⟩ := bind_eq_some_iff.mp h
    obtain ⟨heap, _, h⟩ := bind_eq_some_iff.mp h
    cases h
    rfl
  · obtain ⟨len, _, h⟩ := bind_eq_some_iff.mp h
    obtain ⟨t, ht, h⟩ := bind_eq_some_iff.mp h
    cases h
    refine Eq.trans ?_ (msg_qaddlist ht)
    refine (msg_unstarve _).trans ?_
    split_ifs <;> rfl

theorem msg_qpass (h : qpass s a = some r) :
    r.st.msg = s.msg := by
  unfold qpass at h
  split at h
  · obtain ⟨heap, _, h⟩ := bind_eq_some_iff.mp h
    cases h
    rfl
  · exact msg_qpassnolim h

variable {bytes : List UInt8}

theorem msg_qproduce {al : Allocator} (h : qproduce al s bytes = some r) :
    r.st.msg = s.msg := by
  unfold qproduce at h
  split at h
  · cases h
    rfl
  · split at h
    · cases h
      rfl
    · obtain ⟨b, _, h⟩ := bind_eq_some_iff.mp h
      obtain ⟨t, ht, h⟩ := bind_eq_some_iff.mp h
      cases h
      have hadd := msg_qaddblock ht
      refine Eq.trans ?_ hadd
      refine Eq.trans ?_ (msg_unstarve t.q)
      dsimp only [Qs.msg]
      split_ifs <;> rfl

theorem msg_qbwritePut {r : Ret Bwrite} (h : qbwritePut s a = some r) :
    r.st.msg = s.msg := by
  obtain ⟨b, _, h⟩ := bind_eq_some_iff.mp h
  split at h
  · cases h
    rfl
  · split at h
    · obtain ⟨heap, _, h⟩ := bind_eq_some_iff.mp h
      cases h
      rfl
    · split at h
      · obtain ⟨heap, _, h⟩ := bind_eq_some_iff.mp h
        cases h
        rfl
      · obtain ⟨t, ht, h⟩ := bind_eq_some_iff.mp h
        cases h
        exact (msg_unstarve t.q).trans (msg_qaddblock ht)

theorem msg_qwritePut {al : Allocator} {r : Ret Bwrite} (h : qwritePut al s bytes = some r) :
    r.st.msg = s.msg := by
  obtain ⟨p, _, h⟩ := bind_eq_some_iff.mp h
  obtain ⟨b, _, h⟩ := bind_eq_some_iff.mp h
  have hput := msg_qbwritePut h
  exact hput

theorem msg_qiwritePut {al : Allocator} {r : Ret Iwrite} (h : qiwritePut al s bytes = some r) :
    r.st.msg = s.msg := by
  unfold qiwritePut at h
  split at h
  · cases h
    rfl
  · obtain ⟨b, _, h⟩ := bind_eq_some_iff.mp h
    dsimp only at h
    split at h
    · cases h
      rfl
    · split at h
      · obtain ⟨heap, _, h⟩ := bind_eq_some_iff.mp h
        cases h
        rfl
      · obtain ⟨t, ht, h⟩ := bind_eq_some_iff.mp h
        cases h
        have hadd := msg_qaddblock ht
        exact (msg_unstarve t.q).trans hadd

theorem msg_qconsume {len : Nat} {r : Ret (Option (List UInt8))} (h : qconsume s len = some r) :
    r.st.msg = s.msg := by
  obtain ⟨p, hp, h⟩ := bind_eq_some_iff.mp h
  have hskip := msg_qconsumeSkip hp
  split at h
  split at h
  · cases h
    exact hskip
  · obtain ⟨b, _, h⟩ := bind_eq_some_iff.mp h
    dsimp only at h
    split at h
    all_goals
      obtain ⟨heap, _, h⟩ := bind_eq_some_iff.mp h
      cases h
      exact (msg_restart _).trans hskip

theorem msg_qget {r : Ret (Option Addr)} (h : qget s = some r) : r.st.msg = s.msg := by
  unfold qget at h
  split at h
  · cases h
    rfl
  · obtain ⟨⟨t, b⟩, ht, h⟩ := bind_eq_some_iff.mp h
    cases h
    exact (msg_restart _).trans (msg_qremove ht)

theorem msg_qreadFinish {n : Nat} {left : Option Addr} (h : qreadFinish s n left = some r) :
    r.st.msg = s.msg := by
  cases left with
  | none =>
    cases h
    exact msg_restart _
  | some a =>
    obtain ⟨b, _, h⟩ := bind_eq_some_iff.mp h
    obtain ⟨t, ht, h⟩ := bind_eq_some_iff.mp h
    cases h
    refine (msg_restart _).trans ?_
    unfold qreadLeft at ht
    split at ht
    · obtain ⟨heap, _, ht⟩ := bind_eq_some_iff.mp ht
      cases ht
      rfl
    · exact msg_qputback ht

theorem msg_qbreadSplit {al : Allocator} {s t : Qs} {nb : Block} {len : Nat}
    (h : qbreadSplit al s a nb len = some t) : t.msg = s.msg := by
  unfold qbreadSplit at h
  split at h
  · split at h
    · cases h
      rfl
    · obtain ⟨p, _, h⟩ := bind_eq_some_iff.mp h
      obtain ⟨b, _, h⟩ := bind_eq_some_iff.mp h
      obtain ⟨u, hu, h⟩ := bind_eq_some_iff.mp h
      cases h
      have hback := msg_qputback hu
      exact hback
  · cases h
    rfl

theorem msg_qbread {al : Allocator} {len : Nat} {r : Ret Bread} (h : qbread al s len = some r) :
    r.st.msg = s.msg := by
  have hwait := msg_qwait s.q
  unfold qbread at h
  split at h
  iterate 3
    next q heq =>
      cases h
      rw [heq] at hwait
      exact hwait
  · obtain ⟨p, hp, h⟩ := bind_eq_some_iff.mp h
    obtain ⟨a, _, h⟩ := bind_eq_some_iff.mp h
    obtain ⟨nb, _, h⟩ := bind_eq_some_iff.mp h
    obtain ⟨t, ht, h⟩ := bind_eq_some_iff.mp h
    cases h
    exact (msg_restart _).trans ((msg_qbreadSplit ht).trans (msg_qremove hp))

/-- **No operation changes `Qmsg`.** -/
theorem exec_msg {s : Sys} {op : Op} {o : Outcome} (h : exec s op = some o) :
    o.sys.st.msg = s.st.msg := by
  cases op with
  | qget =>
    obtain ⟨r, hr, h⟩ := bind_eq_some_iff.mp h
    cases h
    exact msg_qget hr
  | qdiscard len =>
    obtain ⟨r, hr, h⟩ := bind_eq_some_iff.mp h
    obtain ⟨p, hp, hr⟩ := bind_eq_some_iff.mp hr
    cases hr
    cases h
    exact (msg_restart _).trans (msg_qdiscardLoop hp)
  | qconsume len =>
    obtain ⟨r, hr, h⟩ := bind_eq_some_iff.mp h
    cases h
    exact msg_qconsume hr
  | qremove =>
    obtain ⟨r, hr, h⟩ := bind_eq_some_iff.mp h
    cases h
    exact msg_qremove hr
  | qbread al len =>
    obtain ⟨r, hr, h⟩ := bind_eq_some_iff.mp h
    cases h
    exact msg_qbread hr
  | qreadTake len =>
    obtain ⟨⟨t, taken⟩, ht, h⟩ := bind_eq_some_iff.mp h
    have htake := msg_qreadTake ht
    dsimp only at h
    split at h <;> cases h <;> exact htake
  | qreadCopy | qreadFault _ =>
    unfold exec at h
    dsimp only at h
    split at h
    · obtain ⟨p, _, h⟩ := bind_eq_some_iff.mp h
      cases h
      rfl
    · cases h
  | qreadFinish =>
    unfold exec at h
    dsimp only at h
    split at h
    · obtain ⟨r, hr, h⟩ := bind_eq_some_iff.mp h
      cases h
      exact msg_qreadFinish hr
    · cases h
  | qpass b =>
    obtain ⟨bytes, _, h⟩ := bind_eq_some_iff.mp h
    obtain ⟨r, hr, h⟩ := bind_eq_some_iff.mp h
    cases h
    exact msg_qpass hr
  | qpassnolim b =>
    obtain ⟨bytes, _, h⟩ := bind_eq_some_iff.mp h
    obtain ⟨r, hr, h⟩ := bind_eq_some_iff.mp h
    cases h
    exact msg_qpassnolim hr
  | qaddlist b =>
    obtain ⟨bytes, _, h⟩ := bind_eq_some_iff.mp h
    obtain ⟨t, ht, h⟩ := bind_eq_some_iff.mp h
    cases h
    exact msg_qaddlist ht
  | qputback b =>
    obtain ⟨t, ht, h⟩ := bind_eq_some_iff.mp h
    cases h
    exact msg_qputback ht
  | qproduce al bytes =>
    obtain ⟨r, hr, h⟩ := bind_eq_some_iff.mp h
    cases h
    exact msg_qproduce hr
  | qbwrite b =>
    obtain ⟨r, hr, h⟩ := bind_eq_some_iff.mp h
    cases h
    exact msg_qbwritePut hr
  | qwrite al bytes =>
    obtain ⟨r, hr, h⟩ := bind_eq_some_iff.mp h
    cases h
    exact msg_qwritePut hr
  | qiwrite al bytes =>
    obtain ⟨r, hr, h⟩ := bind_eq_some_iff.mp h
    cases h
    exact msg_qiwritePut hr
  | qflush | qclose =>
    obtain ⟨r, hr, h⟩ := bind_eq_some_iff.mp h
    obtain ⟨heap, _, hr⟩ := bind_eq_some_iff.mp hr
    cases hr
    cases h
    rfl
  | _ =>
    cases h
    rfl


/-- A block that `qwrite` gave to `qbwrite`: its bytes, what became of it, and whether the queue
was nonblocking then. -/
structure Sent where
  bytes : List UInt8
  out : Bwrite
  noblock : Bool

/-- The block was queued, bypassed, or dropped by a nonblocking queue. -/
def Sent.Accepted (b : Sent) : Prop :=
  match b.out with
  | .queued _ => True
  | .bypassed _ => True
  | .dropped _ => b.noblock = true
  | .err _ => False

/-- Where `qwrite` is: before `allocb`, behind the first locked section of `qbwrite` with a block
of `n` bytes, returned, or gone through `error`. -/
inductive Qwriting
  | copying
  | inside (out : Bwrite) (n : Int)
  | returned (k : Int)
  | raised

structure Qwriter where
  sys : Sys
  pc : Qwriting
  sofar : Int
  sent : List Sent

/-- `memmove(b->wp, p+sofar, n)`: the bytes read.  A negative count and a read behind the memory
at `p` fault. -/
def copied (p : List UInt8) (sofar n : Int) : Option (List UInt8) :=
  if 0 ≤ sofar ∧ 0 ≤ n ∧ sofar + n ≤ p.length then some ((p.drop sofar.toNat).take n.toNat)
  else none

/-- A queue that is closed makes `qbwrite` raise its error; the block is freed already. -/
def Bwrite.inside (n : Int) : Bwrite → Qwriting
  | .err _ => .raised
  | out => .inside out n

/-- `qbwrite` returns: only a writer whose block was queued waits for the queue to drain. -/
def Bwrite.leaves (q : Queue) : Bwrite → Bool
  | .queued _ => qbwriteGoes q
  | _ => true

/-- The end of the loop body, with its test. -/
def Qwriter.next (len n : Int) (w : Qwriter) : Qwriter :=
  { w with
    sofar := w.sofar + n
    pc := if w.sofar + n < len ∧ w.sys.st.msg = false then .copying else .returned len }

/-- The steps of `qwrite`, and those of the other users of the queue.  `fail` is an error raised
by the sleep in `qbwrite`, which a note interrupts, or by the bypass function. -/
inductive Qact
  | put
  | flow
  | leave
  | fail
  | other (op : Op)

/-- One step of a call `qwrite(q, p, len)`. -/
def Qwriter.act (al : Allocator) (p : List UInt8) (len : Int) (w : Qwriter) : Qact → Option Qwriter
  | .put =>
    match w.pc with
    | .copying => do
        let n := min (len - w.sofar) maxatomic
        let bytes ← copied p w.sofar n
        let r ← qwritePut al w.sys.st bytes
        return { sys := { w.sys with st := r.st }
                 pc := r.val.inside n
                 sofar := w.sofar
                 sent := w.sent ++ [⟨bytes, r.val, w.sys.st.q.noblock⟩] }
    | _ => none
  | .flow =>
    match w.pc with
    | .inside out _ =>
      if out.leaves w.sys.st.q then none
      else some { w with sys := { w.sys with st := { w.sys.st with q := qbwriteFlow w.sys.st.q } } }
    | _ => none
  | .leave =>
    match w.pc with
    | .inside out n => if out.leaves w.sys.st.q then some (w.next len n) else none
    | _ => none
  | .fail =>
    match w.pc with
    | .inside _ _ => some { w with pc := .raised }
    | _ => none
  | .other op => (exec w.sys op).map fun o => { w with sys := o.sys }

/-- What the callers of the other operations promise. -/
def Qwriter.Allowed (w : Qwriter) : Qact → Prop
  | .other op => Qio.Allowed w.sys op
  | _ => True

def Qwriter.Step (al : Allocator) (p : List UInt8) (len : Int) (w : Qwriter) (a : Qact)
    (w' : Qwriter) : Prop :=
  w.Allowed a ∧ w.act al p len a = some w'

/-- `qwrite` is called on a queue in any state. -/
def Qwriter.Starts (sys : Sys) (w : Qwriter) : Prop := w = ⟨sys, .copying, 0, []⟩

/-- The bytes of all blocks passed on, in order. -/
def Qwriter.passed (w : Qwriter) : List UInt8 := w.sent.flatMap Sent.bytes

/-- The call passed on exactly the first `k` bytes of `p`, and all of them were accepted. -/
def Qwriter.Delivers (w : Qwriter) (p : List UInt8) (k : Int) : Prop :=
  w.passed = p.take k.toNat ∧ (w.passed.length : Int) = k ∧ ∀ b ∈ w.sent, b.Accepted

section Run

variable {al : Allocator} {p : List UInt8} {len : Int} {sys : Sys} {w w' : Qwriter}

/-- `Delivers`, for the bytes that were there to be read. -/
theorem Qwriter.delivers_iff {m : Int} (h : w.Delivers p m) (k : Int) : w.Delivers p k ↔ k = m := by
  constructor
  · intro hk
    exact hk.2.1.symm.trans h.2.1
  · rintro rfl
    exact h

/-- What holds between two steps of the call, on a queue with the message flag `msg`. -/
def Qwriter.Inv (p : List UInt8) (len : Int) (msg : Bool) (w : Qwriter) : Prop :=
  w.sys.st.msg = msg ∧
    match w.pc with
    | .copying => w.Delivers p w.sofar ∧ (w.sofar = 0 ∨ msg = false)
    | .inside _ n => w.Delivers p (w.sofar + n) ∧ n = min (len - w.sofar) maxatomic ∧
        (w.sofar = 0 ∨ msg = false)
    | .returned k => k = len ∧ w.Delivers p (if msg = true then min len maxatomic else len)
    | .raised => True

/-- A block that is dropped was given to a nonblocking queue. -/
theorem accepted_of_qwritePut {r : Ret Bwrite} (h : qwritePut al s bytes = some r)
    (herr : ∀ m, r.val ≠ .err m) (b : List UInt8) :
    Sent.Accepted ⟨b, r.val, s.q.noblock⟩ := by
  obtain ⟨q, _, h⟩ := bind_eq_some_iff.mp h
  obtain ⟨c, _, h⟩ := bind_eq_some_iff.mp h
  obtain ⟨d, _, h⟩ := bind_eq_some_iff.mp h
  split at h
  · cases h
    trivial
  · split at h
    · obtain ⟨heap, _, h⟩ := bind_eq_some_iff.mp h
      cases h
      exact absurd rfl (herr _)
    · split at h
      · next hfull =>
          obtain ⟨heap, _, h⟩ := bind_eq_some_iff.mp h
          cases h
          exact hfull.2
      · obtain ⟨t, _, h⟩ := bind_eq_some_iff.mp h
        cases h
        trivial

/-- The next bytes follow those passed on before. -/
theorem Qwriter.Delivers.put {n : Int} {b : Sent} (h : w.Delivers p w.sofar)
    (hcopied : copied p w.sofar n = some bytes) (hb : b.bytes = bytes) (hacc : b.Accepted)
    (hsent : w'.sent = w.sent ++ [b]) : w'.Delivers p (w.sofar + n) := by
  obtain ⟨hpassed, hlen, hall⟩ := h
  obtain ⟨⟨hfrom, hn, hend⟩, hbytes⟩ := ite_none_right_eq_some.mp hcopied
  obtain rfl := some.inj hbytes
  have hnat : (w.sofar + n).toNat = w.sofar.toNat + n.toNat := by omega
  have hpass : w'.passed = p.take (w.sofar + n).toNat := by
    rw [Qwriter.passed, hsent, List.flatMap_append, List.flatMap_singleton, hb]
    change w.passed ++ _ = _
    rw [hpassed, hnat, List.take_add]
  refine ⟨hpass, ?_, ?_⟩
  · rw [hpass, List.length_take]
    omega
  · intro c hc
    rw [hsent] at hc
    rcases List.mem_append.mp hc with hold | hnew
    · exact hall c hold
    · cases List.mem_singleton.mp hnew
      exact hacc

theorem Qwriter.Starts.inv (h : w.Starts sys) : w.Inv p len sys.st.msg := by
  cases h
  exact ⟨rfl, ⟨rfl, rfl, by simp⟩, Or.inl rfl⟩

/-- **One step** of the call or of another user of the queue. -/
theorem Qwriter.Inv.step {msg : Bool} {a : Qact} (h : w.Inv p len msg)
    (hs : w.act al p len a = some w') : w'.Inv p len msg := by
  obtain ⟨hmsg, hpc⟩ := h
  cases a with
  | put =>
    cases hw : w.pc with
    | copying =>
      rw [hw] at hpc
      obtain ⟨hdel, hfirst⟩ := hpc
      simp only [Qwriter.act, hw] at hs
      obtain ⟨bytes, hcopied, hs⟩ := bind_eq_some_iff.mp hs
      obtain ⟨r, hput, hs⟩ := bind_eq_some_iff.mp hs
      cases hs
      refine ⟨(msg_qwritePut hput).trans hmsg, ?_⟩
      have hacc := accepted_of_qwritePut hput
      generalize r.val = out at hacc ⊢
      cases out with
      | err m => trivial
      | _ => exact ⟨hdel.put hcopied rfl (hacc (fun _ => nofun) bytes) rfl, rfl, hfirst⟩
    | _ =>
      simp only [Qwriter.act, hw] at hs
      cases hs
  | flow =>
    cases hw : w.pc with
    | inside out n =>
      simp only [Qwriter.act, hw] at hs
      obtain ⟨_, hs⟩ := ite_none_left_eq_some.mp hs
      cases hs
      rw [hw] at hpc
      refine ⟨hmsg, ?_⟩
      dsimp only
      exact hpc
    | _ =>
      simp only [Qwriter.act, hw] at hs
      cases hs
  | leave =>
    cases hw : w.pc with
    | inside out n =>
      simp only [Qwriter.act, hw] at hs
      obtain ⟨_, hs⟩ := ite_none_right_eq_some.mp hs
      cases hs
      rw [hw] at hpc
      obtain ⟨hdel, hn, hfirst⟩ := hpc
      refine ⟨hmsg, ?_⟩
      unfold Qwriter.next
      by_cases hagain : w.sofar + n < len ∧ w.sys.st.msg = false
      · rw [if_pos hagain]
        exact ⟨hdel, Or.inr (hmsg.symm.trans hagain.2)⟩
      · rw [if_neg hagain]
        refine ⟨rfl, ?_⟩
        have hall : w.sofar + n = if msg = true then min len maxatomic else len := by
          rw [hmsg] at hagain
          split_ifs with hset
          · rw [hset] at hfirst
            rcases hfirst with hzero | hclear
            · omega
            · cases hclear
          · have hclear : msg = false := Bool.eq_false_iff.mpr hset
            have hend : ¬w.sofar + n < len := fun hlt => hagain ⟨hlt, hclear⟩
            omega
        rw [← hall]
        exact hdel
    | _ =>
      simp only [Qwriter.act, hw] at hs
      cases hs
  | fail =>
    cases hw : w.pc with
    | inside out n =>
      simp only [Qwriter.act, hw] at hs
      cases hs
      exact ⟨hmsg, trivial⟩
    | _ =>
      simp only [Qwriter.act, hw] at hs
      cases hs
  | other op =>
    obtain ⟨o, ho, hs⟩ := map_eq_some_iff.mp hs
    cases hs
    exact ⟨(exec_msg ho).trans hmsg, hpc⟩

theorem Qwriter.reach_inv (hr : Reach (Starts sys) (Step al p len) w) : w.Inv p len sys.st.msg :=
  hr.invariant (Qwriter.Inv p len sys.st.msg) (fun _ h => h.inv) fun _ _ _ h hs => h.step hs.2

/-- **What `qwrite` delivers.**  Whatever the other users of the queue do meanwhile, a call that
returns `k` has passed on the first `k` bytes, and only them, if and only if the queue is not a
message queue or the call fits in one block. -/
theorem Qwriter.delivers_returned {k : Int} (hr : Reach (Starts sys) (Step al p len) w)
    (hk : w.pc = .returned k) :
    w.Delivers p k ↔ (sys.st.q.state.msg = true → len ≤ maxatomic) := by
  obtain ⟨_, hpc⟩ := reach_inv hr
  rw [hk] at hpc
  obtain ⟨rfl, hdel⟩ := hpc
  rw [delivers_iff hdel]
  change k = (if sys.st.q.state.msg = true then _ else _) ↔ _
  split_ifs with hmsg
  · have hmin : k = min k maxatomic ↔ k ≤ maxatomic := by omega
    rw [hmin]
    exact ⟨fun h _ => h, fun h => h hmsg⟩
  · exact ⟨fun _ h => absurd h hmsg, fun _ => rfl⟩

end Run

/-- A nonblocking message queue, just opened. -/
def messageQueue : Sys :=
  ⟨⟨fun _ => none, { qopen 1024 { msg := true } false with noblock := true }⟩, none⟩

theorem messageQueue_put (bytes : List UInt8) :
    ∃ r, qwritePut oneBlock messageQueue.st bytes = some r ∧
      r.val = .queued (min bytes.length maxatomic) ∧ r.st.q.noblock = true := by
  have hrep : Rep messageQueue.st [] := Rep.empty rfl rfl rfl
  rcases qwritePut_spec oneBlock hrep bytes with ⟨hnone, _⟩ | ⟨r, hrun, hval, a, v, _, _, hl⟩
  · simp [qwritePut, allocb, iallocb, oneBlock, messageQueue, qopen, qbwritePut, qaddblock, linkTail] at hnone
  · refine ⟨r, hrun, hval.trans ?_, congrArg Queue.noblock hl.fixed⟩
    simp [Queue.bwrite, messageQueue, qopen]

/-- A write to it returns its length, whatever it is. -/
theorem messageQueue_returns (p : List UInt8) :
    ∃ w : Qwriter, Reach (Qwriter.Starts messageQueue) (Qwriter.Step oneBlock p p.length) w ∧
      w.pc = .returned p.length := by
  have hcopied : copied p 0 (min (p.length - 0) maxatomic) = some (p.take (min p.length maxatomic)) := by
    have hnat : (min ((p.length : Int) - 0) maxatomic).toNat = min p.length maxatomic := by omega
    rw [copied, if_pos (by omega), hnat]
    rfl
  obtain ⟨r, hput, hval, hno⟩ := messageQueue_put (p.take (min p.length maxatomic))
  have hfirst : Qwriter.act oneBlock p p.length ⟨messageQueue, .copying, 0, []⟩ .put =
      some ⟨{ messageQueue with st := r.st }, .inside r.val (min (p.length - 0) maxatomic), 0,
        [⟨p.take (min p.length maxatomic), r.val, true⟩]⟩ := by
    simp only [Qwriter.act, hcopied, hput, bind_eq_bind, bind_some, pure_def, hval]
    rfl
  have hmsg : r.st.msg = true := msg_qwritePut hput
  let u : Qwriter := ⟨{ messageQueue with st := r.st }, .inside r.val (min (p.length - 0) maxatomic), 0,
    [⟨p.take (min p.length maxatomic), r.val, true⟩]⟩
  have hgoes : r.val.leaves r.st.q = true := by
    rw [hval]
    simp [Bwrite.leaves, qbwriteGoes, hno]
  have hlast : u.act oneBlock p p.length .leave = some (u.next p.length (min (p.length - 0) maxatomic)) :=
    if_pos hgoes
  have hstart : Qwriter.Starts messageQueue ⟨messageQueue, .copying, 0, []⟩ := rfl
  have hput : Qwriter.Step oneBlock p p.length ⟨messageQueue, .copying, 0, []⟩ .put u :=
    ⟨trivial, hfirst⟩
  have hleave : u.Step oneBlock p p.length .leave _ := ⟨trivial, hlast⟩
  refine ⟨_, ((Reach.start hstart).next hput).next hleave, ?_⟩
  simp [Qwriter.next, u, hmsg]

theorem Qwriter.delivers_returned_two : ∃ w : Qwriter, w.Delivers [7, 9] 2 := by
  obtain ⟨w, hreach, hk⟩ := messageQueue_returns [7, 9]
  exact ⟨w, (delivers_returned hreach hk).2 fun _ => by decide⟩

/-- **A message of one byte more than `Maxatomic`** is reported as written, and its last byte is
lost. -/
theorem Qwriter.message_truncated :
    ∃ w : Qwriter, Reach (Starts messageQueue) (Step oneBlock (List.replicate 65537 0) 65537) w ∧
      w.pc = .returned 65537 ∧ ¬w.Delivers (List.replicate 65537 0) 65537 := by
  obtain ⟨w, hreach, hk⟩ := messageQueue_returns (List.replicate 65537 0)
  rw [List.length_replicate] at hreach hk
  refine ⟨w, hreach, hk, fun hdel => ?_⟩
  obtain ⟨_, hpc⟩ := reach_inv hreach
  rw [hk] at hpc
  have hall := (delivers_iff hpc.2 65537).mp hdel
  exact absurd hall (by decide)

end Qio
