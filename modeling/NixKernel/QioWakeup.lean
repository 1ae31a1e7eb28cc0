import NixKernel.QioProtocol

/-!
# No wakeup is lost

The invariant has one part for the reader and one for the writer.  A drowsy
reader that finds the queue empty still has its `Qstarve` set, and an asleep one
has it set on an empty queue or is about to be woken; the writer's part says the
same of `Qflow`, with half the limit in place of emptiness.
-/

namespace Qio

open HeapChain StepSystem Option

/-- The reader's part of the invariant. -/
def ReaderOk (rd : Reader) (pending : Prop) (q : Queue) : Prop :=
  match rd with
  | .drowsy _ => q.state.starve = true ∨ notempty q = true
  | .asleep _ => pending ∨ (q.state.starve = true ∧ notempty q = false)
  | _ => True

/-- The writer's part: `reading` is a `qread` between its two sections. -/
def WriterOk (wr : Writer) (pending reading : Prop) (q : Queue) : Prop :=
  match wr with
  | .drowsy => q.state.flow = true ∨ qnotfull q = true
  | .asleep => pending ∨ (q.state.flow = true ∧ (reading ∨ q.limit.tdiv 2 ≤ q.len))
  | _ => True

/-- A wakeup of `q->wr` is about to be called. -/
def Proto.WrCalled (p : Proto) : Prop := 0 < p.wrs ∨ p.rd = .waking

/-- A `qread` is between its two sections. -/
def Proto.IsReading (p : Proto) : Prop := ∃ r, p.rd = .reading r

structure Proto.Inv (p : Proto) : Prop where
  holds : ∃ l k, Holds p.sys l k
  limit : 2 ≤ p.st.q.limit
  reader : ReaderOk p.rd p.RrPending p.st.q
  writer : WriterOk p.wr p.WrCalled p.IsReading p.st.q

theorem Proto.Inv.noLostWakeup {p : Proto} (h : p.Inv) : p.NoLostWakeup := by
  constructor
  · intro hwr hlen
    have hok := h.writer
    rw [hwr] at hok
    rcases hok with (hpend | hpend) | ⟨_, hread | hhalf⟩
    · exact Or.inl hpend
    · exact Or.inr (Or.inl hpend)
    · exact Or.inr (Or.inr hread)
    · omega
  · intro call hrd hne
    have hok := h.reader
    rw [hrd] at hok
    rcases hok with hpend | ⟨_, hempty⟩
    · exact hpend
    · rw [hne] at hempty
      cases hempty

theorem Proto.Opened.inv {p : Proto} (h : p.Opened) : p.Inv := by
  obtain ⟨⟨limit, msg, kick, hlim, hq⟩, hrd, hwr, _, _⟩ := h
  have hfresh : Fresh p.sys := by
    refine ⟨?_, Or.inl ⟨limit, msg, kick, hq⟩⟩
    unfold Proto.sys
    rw [hrd]
    rfl
  refine ⟨⟨[], [], hfresh.holds⟩, ?_, ?_, ?_⟩
  · rw [hq]
    exact hlim
  · rw [hrd]
    trivial
  · rw [hwr]
    trivial

/-- The end of a reading section: either the writer is restarted below half the
limit, or nothing changes and a set `Qflow` means at least half the limit. -/
theorem restart_cases (q : Queue) :
    ((restart q).2 = true ∧ (restart q).1 = { q with state := { q.state with flow := false } } ∧
      q.len < q.limit.tdiv 2) ∨
    ((restart q).2 = false ∧ (restart q).1 = q ∧
      (q.state.flow = true → q.limit.tdiv 2 ≤ q.len)) := by
  by_cases h : q.state.flow = true ∧ q.len < q.limit.tdiv 2
  · left
    simp [restart, h]
  · right
    refine ⟨by simp [restart, h], by simp [restart, h], ?_⟩
    intro hflow
    by_contra hlt
    exact h ⟨hflow, by omega⟩

theorem half_le {n : Int} (h : 2 ≤ n) : 0 < n.tdiv 2 ∧ n.tdiv 2 ≤ n := by
  rw [Int.tdiv_eq_ediv_of_nonneg (by omega)]
  omega

variable {pending reading pending' reading' : Prop} {wr : Writer}

/-- The writer's part after a section that restarts the writer.  `pending'` is
what is pending afterwards. -/
theorem WriterOk.after_restart {q q₁ : Queue} (h : WriterOk wr pending reading q)
    (hlim : 2 ≤ q.limit) (hctl : q₁.ctl = q.ctl) (hpend : pending → pending')
    (hcall : (restart q₁).2 = true → pending')
    (hfull : wr = .drowsy → q.state.flow = false → qnotfull q = true → qnotfull q₁ = true) :
    WriterOk wr pending' reading' (restart q₁).1 := by
  have hstate := Queue.state_of_ctl hctl
  have hlimit := Queue.limit_of_ctl hctl
  have hhalf := half_le hlim
  cases wr with
  | idle => trivial
  | waking => trivial
  | testing => trivial
  | flowing => trivial
  | drowsy =>
    show (restart q₁).1.state.flow = true ∨ qnotfull (restart q₁).1 = true
    rcases restart_cases q₁ with ⟨_, hq, hlt⟩ | ⟨_, hq, _⟩
    · right
      have hroom : q₁.len < q₁.limit := by
        rw [hlimit] at hlt ⊢
        omega
      rw [hq]
      simp [qnotfull, hroom]
    · rw [hq, hstate]
      by_cases hflow : q.state.flow = true
      · exact Or.inl hflow
      · right
        have hfalse : q.state.flow = false := by simpa using hflow
        rcases h with h | h
        · exact absurd h hflow
        · exact hfull rfl hfalse h
  | asleep =>
    rcases h with h | ⟨hflow, _⟩
    · exact Or.inl (hpend h)
    · rcases restart_cases q₁ with ⟨hr, _, _⟩ | ⟨_, hq, hge⟩
      · exact Or.inl (hcall hr)
      · right
        rw [hq, hstate]
        exact ⟨hflow, Or.inr (hge (by rw [hstate]; exact hflow))⟩

/-- The writer's part when only the reader's flag, or nothing, changes and the
queue has not shrunk below half the limit, or a `qread` is under way. -/
theorem WriterOk.keep {q q' : Queue} (h : WriterOk wr pending reading q)
    (hlimit : q'.limit = q.limit) (hflow : q'.state.flow = q.state.flow)
    (hclosed : q'.state.closed = q.state.closed) (hlen : q'.len ≤ q.len)
    (hpend : pending → pending')
    (hsleep : wr = .asleep → q.state.flow = true → (reading ∨ q.limit.tdiv 2 ≤ q.len) → pending' ∨ reading' ∨ q.limit.tdiv 2 ≤ q'.len) :
    WriterOk wr pending' reading' q' := by
  cases wr with
  | idle => trivial
  | waking => trivial
  | testing => trivial
  | flowing => trivial
  | drowsy =>
    rcases h with h | h
    · left
      rw [hflow]
      exact h
    · right
      simp only [qnotfull, Bool.or_eq_true, decide_eq_true_eq] at h ⊢
      rcases h with h | h
      · left
        omega
      · right
        rw [hclosed]
        exact h
  | asleep =>
    rcases h with h | ⟨hf, hcase⟩
    · exact Or.inl (hpend h)
    · rcases hsleep rfl hf hcase with hp | hr | hge
      · exact Or.inl hp
      · exact Or.inr ⟨by rw [hflow]; exact hf, Or.inl hr⟩
      · exact Or.inr ⟨by rw [hflow]; exact hf, Or.inr (by rw [hlimit]; exact hge)⟩

variable {rd : Reader}

/-- The reader's part after a section of another process. -/
theorem ReaderOk.keep {pending pending' : Prop} {q q' : Queue} (h : ReaderOk rd pending q)
    (hpend : pending → pending') (hstarve : q.state.starve = true → q'.state.starve = true)
    (hempty : notempty q = false → notempty q' = false)
    (hdata : (∃ call, rd = .drowsy call) → q'.state.starve = false → notempty q = true → notempty q' = true) :
    ReaderOk rd pending' q' := by
  cases rd with
  | idle => trivial
  | ready call => trivial
  | reading r => trivial
  | waking => trivial
  | drowsy call =>
    show q'.state.starve = true ∨ notempty q' = true
    by_cases hs : q'.state.starve = true
    · exact Or.inl hs
    · right
      have hfalse : q'.state.starve = false := by simpa using hs
      rcases h with h | h
      · exact absurd (hstarve h) hs
      · exact hdata ⟨call, rfl⟩ hfalse h
  | asleep call =>
    rcases h with h | ⟨hs, hn⟩
    · exact Or.inl (hpend h)
    · exact Or.inr ⟨hstarve hs, hempty hn⟩

variable {p p' : Proto}

theorem Proto.Inv.after_exec (h : p.Inv) {op : Op} {o : Outcome} (ha : Qio.Allowed p.sys op)
    (hrun : exec p.sys op = some o) : ∃ l k, Holds o.sys l k := by
  obtain ⟨l, k, hh⟩ := h.holds
  obtain ⟨l', k', hh', _⟩ := hh.sound ha hrun
  exact ⟨l', k', hh'⟩

theorem Proto.Inv.after (h : p.Inv) {op : Op} {s : Sys} (ha : Qio.Allowed p.sys op)
    (hrun : ∃ o, exec p.sys op = some o ∧ o.sys = s) : ∃ l k, Holds s l k := by
  obtain ⟨o, hrun, rfl⟩ := hrun
  exact h.after_exec ha hrun

variable {q : Queue}

/-- A wakeup of the writer that is called keeps its part. -/
theorem WriterOk.woken (h : WriterOk wr pending reading q) :
    WriterOk wr.woken pending' reading' q := by
  cases wr with
  | drowsy => exact h
  | idle => trivial
  | waking => trivial
  | testing => trivial
  | flowing => trivial
  | asleep => trivial

theorem ReaderOk.woken {pending pending' : Prop} (h : ReaderOk rd pending q) :
    ReaderOk rd.woken pending' q := by
  cases rd with
  | drowsy call => exact h
  | idle => trivial
  | ready call => trivial
  | reading r => trivial
  | waking => trivial
  | asleep call => trivial

theorem Reader.reads_woken (rd : Reader) : rd.woken.reads = rd.reads := by
  cases rd <;> rfl

theorem Reader.reads_ended (dowakeup : Bool) : (Reader.ended dowakeup).reads = none := by
  cases dowakeup <;> rfl

theorem ReaderOk.ended (dowakeup : Bool) (pending : Prop) (q : Queue) :
    ReaderOk (.ended dowakeup) pending q := by
  cases dowakeup <;> trivial

theorem Reader.woken_waking (h : rd = .waking) : rd.woken = .waking := by
  rw [h]
  rfl

theorem Reader.woken_reading {r : Reading} (h : rd = .reading r) :
    rd.woken = .reading r := by
  rw [h]
  rfl

/-- The writer's part when the queue is untouched and nothing pending is lost. -/
theorem WriterOk.mono (h : WriterOk wr pending reading q) (hpend : pending → pending')
    (hread : reading → reading') : WriterOk wr pending' reading' q := by
  apply h.keep rfl rfl rfl (Int.le_refl _) hpend
  intro _ _ hcase
  rcases hcase with hr | hge
  · exact Or.inr (Or.inl (hread hr))
  · exact Or.inr (Or.inr hge)

theorem ReaderOk.mono {pending pending' : Prop} (h : ReaderOk rd pending q)
    (hpend : pending → pending') : ReaderOk rd pending' q :=
  h.keep hpend (fun hs => hs) (fun hn => hn) (fun _ _ hn => hn)

/-- A reader that neither holds blocks nor owes a wakeup becomes another such
reader. -/
theorem Proto.Inv.set_rd (h : p.Inv) (rd : Reader) (hold : p.rd.reads = none)
    (hwake : p.rd ≠ .waking) (hnew : rd.reads = none)
    (hreader : ReaderOk rd p.RrPending p.st.q) : Proto.Inv { p with rd } := by
  refine ⟨?_, h.limit, hreader, ?_⟩
  · have hsys : Proto.sys { p with rd } = p.sys := by
      simp only [Proto.sys, hold, hnew]
    rw [hsys]
    exact h.holds
  · apply h.writer.mono
    · intro hcall
      rcases hcall with hc | hc
      · exact Or.inl hc
      · exact absurd hc hwake
    · intro hread
      obtain ⟨r, hr⟩ := hread
      rw [hr] at hold
      cases hold

/-- A writer that owes no wakeup becomes another such writer. -/
theorem Proto.Inv.set_wr (h : p.Inv) (wr : Writer) (hwake : p.wr ≠ .waking)
    (hwriter : WriterOk wr p.WrCalled p.IsReading p.st.q) : Proto.Inv { p with wr } := by
  refine ⟨h.holds, h.limit, ?_, hwriter⟩
  apply h.reader.mono
  intro hpend
  rcases hpend with hc | hc
  · exact Or.inl hc
  · exact absurd hc hwake

theorem inv_read (h : p.Inv) {call : Rd} (hrun : act p (.read call) = some p') : p'.Inv := by
  cases hrd : p.rd with
  | idle =>
    simp only [act, hrd, some.injEq] at hrun
    subst hrun
    exact h.set_rd _ (by rw [hrd]; rfl) (by rw [hrd]; simp) rfl trivial
  | _ => simp [act, hrd] at hrun

theorem inv_readSleep (h : p.Inv) (hrun : act p .readSleep = some p') : p'.Inv := by
  cases hrd : p.rd with
  | drowsy call =>
    simp only [act, hrd, some.injEq] at hrun
    subst hrun
    by_cases hne : notempty p.st.q = true
    · rw [if_pos hne]
      exact h.set_rd _ (by rw [hrd]; rfl) (by rw [hrd]; simp) rfl trivial
    · rw [if_neg hne]
      have hempty : notempty p.st.q = false := by simpa using hne
      have hok := h.reader
      rw [hrd] at hok
      apply h.set_rd _ (by rw [hrd]; rfl) (by rw [hrd]; simp) rfl
      right
      rcases hok with hs | hn
      · exact ⟨hs, hempty⟩
      · exact absurd hn hne
  | _ => simp [act, hrd] at hrun

theorem inv_readIntr (h : p.Inv) (hrun : act p .readIntr = some p') : p'.Inv := by
  cases hrd : p.rd with
  | drowsy call | asleep call =>
    simp only [act, hrd, some.injEq] at hrun
    subst hrun
    exact h.set_rd _ (by rw [hrd]; rfl) (by rw [hrd]; simp) rfl trivial
  | _ => simp [act, hrd] at hrun

theorem inv_readWakeup (h : p.Inv) (hrun : act p .readWakeup = some p') : p'.Inv := by
  cases hrd : p.rd with
  | waking =>
    simp only [act, hrd, some.injEq] at hrun
    subst hrun
    refine ⟨?_, h.limit, trivial, h.writer.woken⟩
    have hsys : Proto.sys { p with rd := .idle, wr := p.wr.woken } = p.sys := by
      simp only [Proto.sys, hrd]
      rfl
    rw [hsys]
    exact h.holds
  | _ => simp [act, hrd] at hrun

theorem inv_wakeupWr (h : p.Inv) (hrun : act p .wakeupWr = some p') : p'.Inv := by
  simp only [act] at hrun
  split at hrun
  · cases hrun
    refine ⟨h.holds, h.limit, h.reader.mono ?_, h.writer.woken⟩
    intro hpend
    rcases hpend with hc | hc
    · exact Or.inl hc
    · right
      show p.wr.woken = .waking
      rw [hc]
      rfl
  · cases hrun

/-- A wakeup of the reader changes nothing for the writer. -/
theorem Proto.Inv.wake_rd (h : p.Inv) (wr : Writer) (rrs : Nat)
    (hwriter : WriterOk wr p.WrCalled p.IsReading p.st.q) :
    Proto.Inv { p with rd := p.rd.woken, wr, rrs } := by
  refine ⟨?_, h.limit, h.reader.woken, hwriter.mono ?_ ?_⟩
  · have hsys : Proto.sys { p with rd := p.rd.woken, wr, rrs } = p.sys := by
      simp only [Proto.sys, Reader.reads_woken]
    rw [hsys]
    exact h.holds
  · intro hcall
    rcases hcall with hc | hc
    · exact Or.inl hc
    · exact Or.inr (Reader.woken_waking hc)
  · intro hread
    obtain ⟨r, hr⟩ := hread
    exact ⟨r, Reader.woken_reading hr⟩

theorem inv_wakeupRr (h : p.Inv) (hrun : act p .wakeupRr = some p') : p'.Inv := by
  simp only [act] at hrun
  split at hrun
  · cases hrun
    exact h.wake_rd _ _ h.writer
  · cases hrun

theorem inv_writeWakeup (h : p.Inv) (hrun : act p .writeWakeup = some p') : p'.Inv := by
  cases hwr : p.wr with
  | waking =>
    simp only [act, hwr, some.injEq] at hrun
    subst hrun
    exact h.wake_rd .testing p.rrs trivial
  | _ => simp [act, hwr] at hrun

theorem inv_writeTest (h : p.Inv) (hrun : act p .writeTest = some p') : p'.Inv := by
  cases hwr : p.wr with
  | testing =>
    simp only [act, hwr, some.injEq] at hrun
    subst hrun
    apply h.set_wr _ (by rw [hwr]; simp)
    split <;> trivial
  | _ => simp [act, hwr] at hrun

theorem inv_writeSleep (h : p.Inv) (hrun : act p .writeSleep = some p') : p'.Inv := by
  cases hwr : p.wr with
  | drowsy =>
    simp only [act, hwr, some.injEq] at hrun
    subst hrun
    apply h.set_wr _ (by rw [hwr]; simp)
    by_cases hroom : qnotfull p.st.q = true
    · rw [if_pos hroom]
      trivial
    · rw [if_neg hroom]
      have hok := h.writer
      rw [hwr] at hok
      have hhalf := half_le h.limit
      have hfull : p.st.q.limit ≤ p.st.q.len := by
        simp only [qnotfull, Bool.or_eq_true, decide_eq_true_eq, not_or] at hroom
        omega
      right
      rcases hok with hf | hf
      · exact ⟨hf, Or.inr (by omega)⟩
      · exact absurd hf hroom
  | _ => simp [act, hwr] at hrun

theorem inv_writeIntr (h : p.Inv) (hrun : act p .writeIntr = some p') : p'.Inv := by
  cases hwr : p.wr with
  | drowsy | asleep =>
    simp only [act, hwr, some.injEq] at hrun
    subst hrun
    exact h.set_wr _ (by rw [hwr]; simp) trivial
  | _ => simp [act, hwr] at hrun

theorem inv_writeFlow (h : p.Inv) (hrun : act p .writeFlow = some p') : p'.Inv := by
  cases hwr : p.wr with
  | flowing =>
    simp only [act, hwr, some.injEq] at hrun
    subst hrun
    have hflow : exec p.sys .qbwriteFlow =
        some { sys := { p.sys with st := { p.st with q := qbwriteFlow p.st.q } } } := rfl
    have hallowed : Qio.Allowed p.sys .qbwriteFlow := trivial
    have hholds := h.after_exec hallowed hflow
    refine ⟨hholds, h.limit, ?_, Or.inl rfl⟩
    apply h.reader.keep (fun hpend => ?_) (fun hs => hs) (fun hn => hn) (fun _ _ hn => hn)
    rcases hpend with hc | hc
    · exact Or.inl hc
    · rw [hwr] at hc
      cases hc
  | _ => simp [act, hwr] at hrun

theorem sumBalloc_skipEmpty_le (l : Cells) : sumBalloc (skipEmpty l) ≤ sumBalloc l := by
  induction l with
  | nil => exact Nat.le_refl _
  | cons c t ih =>
    simp only [skipEmpty]
    split
    · exact Nat.le_refl _
    · rw [sumBalloc_cons]
      omega

theorem sumBalloc_discardCells_le (len : Nat) (l : Cells) :
    sumBalloc (discardCells len l) ≤ sumBalloc l := by
  induction l generalizing len with
  | nil => exact Nat.le_refl _
  | cons c t ih =>
    obtain ⟨a, v⟩ := c
    simp only [discardCells]
    split
    · exact Nat.le_refl _
    · split
      · have hrest := ih (len - v.blen)
        rw [sumBalloc_cons]
        omega
      · simp

theorem sumBalloc_consumeCells_le (msg : Bool) (len : Nat) (l : Cells) :
    sumBalloc (consumeCells msg len l) ≤ sumBalloc l := by
  have hskip := sumBalloc_skipEmpty_le l
  unfold consumeCells
  cases hl : skipEmpty l with
  | nil => exact Nat.zero_le _
  | cons c t =>
    obtain ⟨a, v⟩ := c
    rw [hl, sumBalloc_cons] at hskip
    show sumBalloc (consumeRest msg len a v t) ≤ sumBalloc l
    unfold consumeRest
    split
    · omega
    · rw [sumBalloc_cons, Buf.balloc_pull]
      exact hskip

variable {len : Nat}

theorem sumBalloc_readSplit_le {coalesce : Bool} {l k r : Cells}
    (h : readSplit coalesce len l = some (k, r)) : sumBalloc r ≤ sumBalloc l := by
  obtain ⟨t, ht⟩ := readSplit_suffix h
  rw [← ht, sumBalloc_append, sumBalloc_append]
  omega

/-- What is left of a queue that fits is counted exactly. -/
theorem Proto.Fits.len_le {s' : Qs} {l m : Cells} (hfits : p.Fits) (hrep : Rep p.st l) (hm : Rep s' m)
    (hle : sumBalloc m ≤ sumBalloc l) : s'.q.len ≤ p.st.q.len := by
  have hlt := hfits l hrep.chain
  rw [hm.len, hrep.len, int32_eq (by omega) (by omega), int32_eq (by omega) (by omega)]
  omega

theorem Proto.Fits.len_eq {l : Cells} (hfits : p.Fits) (hrep : Rep p.st l) :
    p.st.q.len = sumBalloc l := by
  have hlt := hfits l hrep.chain
  rw [hrep.len, int32_eq (by omega) (by omega)]

/-- With at least half the limit queued there is a block. -/
theorem Rep.ne_nil_of_half {s : Qs} {l : Cells} (h : Rep s l) (hlim : 2 ≤ s.q.limit)
    (hge : s.q.limit.tdiv 2 ≤ s.q.len) : l ≠ [] := by
  intro hnil
  subst hnil
  have hlen : s.q.len = 0 := h.len
  have hhalf := half_le hlim
  omega

/-- On an empty queue `qwait` changes only `Qstarve` and the end-of-file count,
and sets the first before a sleep. -/
theorem qwait_flags (h : q.bfirst = none) :
    (qwait q).1.limit = q.limit ∧ (qwait q).1.state.flow = q.state.flow ∧
      (qwait q).1.state.closed = q.state.closed ∧
      ((qwait q).2.taken = .sleep → (qwait q).1.state.starve = true) := by
  unfold qwait
  simp only [h, isSome_none, Bool.false_eq_true, if_false]
  split
  · split
    · simp [Qwait.taken]
    · split <;> simp [Qwait.taken]
  · simp [Qwait.taken]

theorem exec_qreadTake {s : Sys} {st : Qs} {r : Taken} (hread : s.read = none)
    (hrun : qreadTake s.st len = some (st, r)) :
    ∃ o, exec s (.qreadTake len) = some o ∧ o.sys = ⟨st, (r.reader len).reads⟩ := by
  cases r with
  | blocks first n => exact ⟨_, by simp only [exec, hrun]; rfl, rfl⟩
  | closed | err
  | sleep => exact ⟨_, by simp only [exec, hrun]; rfl, by simp [Taken.reader, Reader.reads, hread]⟩

/-- A reader about to lock the queue owes no wakeup and holds no blocks. -/
theorem Proto.of_ready {call : Rd} (hrd : p.rd = .ready call) :
    (p.WrCalled → 0 < p.wrs) ∧ ¬ p.IsReading := by
  constructor
  · intro hc
    rcases hc with hc | hc
    · exact hc
    · rw [hrd] at hc
      cases hc
  · intro hr
    obtain ⟨r, hr⟩ := hr
    rw [hrd] at hr
    cases hr

/-- The first section of `qread`. -/
theorem inv_qread (h : p.Inv) (hrd : p.rd = .ready (.qread len)) (hfits : p.Fits)
    (hrun : act p .readLocked = some p') (hsafe : p.Safe .readLocked) : p'.Inv := by
  obtain ⟨l, k, hh⟩ := h.holds
  have hrep : Rep p.st l := hh.rep
  have hread : p.sys.read = none := by simp [Proto.sys, hrd, Reader.reads]
  obtain ⟨hcalled, hidle⟩ := Proto.of_ready hrd
  simp only [Proto.Safe, hrd] at hsafe
  cases hsplit : readSplit p.st.q.state.coalesce len l with
  | none =>
    obtain ⟨s', htake, hm⟩ := qreadTake_none hrep len hsplit
    have hallowed : Qio.Allowed p.sys (.qreadTake len) := hread
    have hholds := h.after hallowed (exec_qreadTake hread htake)
    simp only [act, hrd, htake] at hrun
    cases hrun
    obtain ⟨hlimit, hflow, hclosed, hstarve⟩ := qwait_flags hm.rep.bfirst_nil
    obtain ⟨_, _, _, hlen', _⟩ := qwait_empty hm.rep.bfirst_nil
    have hstate := Queue.state_of_ctl hm.ctl
    have hlim' := Queue.limit_of_ctl hm.ctl
    refine ⟨hholds, ?_, ?_, ?_⟩
    · show 2 ≤ (qwait s'.q).1.limit
      rw [hlimit, hlim']
      exact h.limit
    · cases hr : (qwait s'.q).2.taken with
      | sleep => exact Or.inl (hstarve hr)
      | blocks first n => trivial
      | closed => trivial
      | err => trivial
    · apply h.writer.keep (hlimit.trans hlim') (hflow.trans (by rw [hstate]))
        (hclosed.trans (by rw [hstate])) ?_ (fun hc => Or.inl (hcalled hc))
      · intro hwr _ hcase
        rcases hcase with hr | hge
        · exact absurd hr hidle
        · have hne := hrep.ne_nil_of_half h.limit hge
          obtain ⟨hskip, hco | hnil⟩ := readSplit_eq_none hsplit
          · left
            by_contra hnot
            apply hsafe hco
            refine ⟨hwr, ?_, ?_, ?_⟩
            · intro hpend
              rcases hpend with hc | hc | hc
              · exact hnot (Or.inl hc)
              · exact hnot (Or.inl (hcalled (Or.inr hc)))
              · exact hidle hc
            · have hsome := hrep.isSome_bfirst.mpr hne
              intro hnone
              rw [hnone] at hsome
              cases hsome
            · rw [hrep.dlen, ← length_flat, ← flat_skipEmpty, hskip]
              rfl
          · exact absurd hnil hne
      · exact hlen' ▸ hfits.len_le hrep hm.rep (Nat.zero_le _)
  | some q =>
    obtain ⟨k', r⟩ := q
    obtain ⟨s', first, htake, hm, _⟩ := qreadTake_some hrep len hsplit
    have hallowed : Qio.Allowed p.sys (.qreadTake len) := hread
    have hholds := h.after hallowed (exec_qreadTake hread htake)
    simp only [act, hrd, htake] at hrun
    cases hrun
    have hstate := Queue.state_of_ctl hm.ctl
    have hlim' := Queue.limit_of_ctl hm.ctl
    refine ⟨hholds, ?_, trivial, ?_⟩
    · show 2 ≤ s'.q.limit
      rw [hlim']
      exact h.limit
    · apply h.writer.keep hlim' (by rw [hstate]) (by rw [hstate]) ?_ (fun hc => Or.inl (hcalled hc))
      · intro _ _ _
        exact Or.inr (Or.inl ⟨_, rfl⟩)
      · exact hfits.len_le hrep hm.rep (sumBalloc_readSplit_le hsplit)

theorem exec_qbread {s : Sys} {al : Allocator} {r : Ret Bread} (hread : s.read = none)
    (hrun : qbread al s.st len = some r) :
    ∃ o, exec s (.qbread al len) = some o ∧ o.sys = ⟨r.st, none⟩ :=
  ⟨_, by simp only [exec, hrun]; rfl, by simp [hread]⟩

/-- The section of `qbread`. -/
theorem inv_qbread (h : p.Inv) {al : Allocator} (hrd : p.rd = .ready (.qbread al len)) (hfits : p.Fits)
    (hrun : act p .readLocked = some p') (hsafe : p.Safe .readLocked) : p'.Inv := by
  obtain ⟨l, k, hh⟩ := h.holds
  have hrep : Rep p.st l := hh.rep
  have hread : p.sys.read = none := by simp [Proto.sys, hrd, Reader.reads]
  obtain ⟨hcalled, hidle⟩ := Proto.of_ready hrd
  have hallowed : Qio.Allowed p.sys (.qbread al len) := hread
  simp only [Proto.Safe, hrd] at hsafe
  cases l with
  | nil =>
    have hbread := qbread_empty al hrep len
    have hholds := h.after hallowed (exec_qbread hread hbread)
    simp only [act, hrd, hbread] at hrun
    cases hrun
    obtain ⟨hlimit, hflow, hclosed, hstarve⟩ := qwait_flags hrep.bfirst_nil
    obtain ⟨_, _, _, hlen', _⟩ := qwait_empty hrep.bfirst_nil
    refine ⟨?_, ?_, ?_, ?_⟩
    · have hreads : ((qwait p.st.q).2.bread.reader al len false).reads = none := by
        cases (qwait p.st.q).2 <;> rfl
      simp only [Proto.sys, hreads]
      exact hholds
    · show 2 ≤ (qwait p.st.q).1.limit
      rw [hlimit]
      exact h.limit
    · cases hr : (qwait p.st.q).2 with
      | sleep | data => exact Or.inl (hstarve (by rw [hr]; rfl))
      | closed => trivial
      | err => trivial
    · apply h.writer.keep hlimit hflow hclosed (Int.le_of_eq hlen') (fun hc => Or.inl (hcalled hc))
      intro _ _ hcase
      rcases hcase with hr | hge
      · exact absurd hr hidle
      · exact absurd rfl (hrep.ne_nil_of_half h.limit hge)
  | cons c t =>
    obtain ⟨a, v⟩ := c
    rcases qbread_cons al hrep len with ⟨hnone, _⟩ | ⟨s', hbread, hd, _, _⟩
    · simp [act, hrd, hnone] at hrun
    · have hholds := h.after hallowed (exec_qbread hread hbread)
      simp only [act, hrd, hbread] at hrun
      cases hrun
      obtain ⟨hp, m, ha, _⟩ := chain_cons.mp hrep.chain
      have hstate := Queue.state_of_ctl hd.ctl
      have hlim' := Queue.limit_of_ctl hd.ctl
      have hlen := hfits.len_eq hrep
      have hlen' := hd.rep.len.trans_le (int32_le _)
      rw [sumBalloc_cons] at hlen
      rw [sumBalloc_append] at hlen'
      simp only at hlen
      refine ⟨?_, ?_, ?_, ?_⟩
      · simp only [Proto.sys, restarted, Bread.reader, Reader.reads_ended]
        exact hholds
      · show 2 ≤ (restart s'.q).1.limit
        rw [restart_fst]
        exact hlim' ▸ h.limit
      · exact ReaderOk.ended _ _ _
      · apply h.writer.after_restart h.limit hd.ctl (fun hc => Or.inl (hcalled hc))
        · intro hw
          right
          show Reader.ended (restart s'.q).2 = .waking
          rw [hw]
          rfl
        · intro hdrowsy hfalse hroom
          simp only [qnotfull, Bool.or_eq_true, decide_eq_true_eq] at hroom ⊢
          rw [hstate, hlim']
          by_cases hcl : p.st.q.state.closed = true
          · exact Or.inr hcl
          · left
            have hback := hsafe ⟨hdrowsy, hfalse, by simpa using hcl⟩ a ⟨m, v⟩ hp ha
            simp only at hback
            omega

theorem inv_readCopy (h : p.Inv) (hrun : act p .readCopy = some p') : p'.Inv := by
  obtain ⟨l, k, hh⟩ := h.holds
  cases hrd : p.rd with
  | reading r =>
    cases r with
    | copied left n bytes => simp [act, hrd] at hrun
    | taken first n len =>
      have hread : p.sys.read = some (.taken first n len) := by
        simp [Proto.sys, hrd, Reader.reads]
      have hpriv := hh.priv
      simp only [Sys.private, hread] at hpriv
      obtain ⟨heap, left, hcopy, _, _⟩ := bl2mem_spec hpriv len
      change bl2mem p.st.heap (some first) len = _ at hcopy
      have hallowed : Qio.Allowed p.sys .qreadCopy := ⟨first, n, len, hread⟩
      have hexec : exec p.sys .qreadCopy = some { sys := ⟨{ p.st with heap },
          some (.copied left n ((flat k).take len))⟩ } := by
        simp [exec, Proto.sys, hrd, Reader.reads, hcopy]
      have hholds := h.after_exec hallowed hexec
      simp only [act, hrd, hcopy] at hrun
      cases hrun
      refine ⟨hholds, h.limit, trivial, h.writer.mono ?_ (fun _ => ⟨_, rfl⟩)⟩
      intro hc
      rcases hc with hc | hc
      · exact Or.inl hc
      · rw [hrd] at hc
        cases hc
  | _ => simp [act, hrd] at hrun

/-- A reader that leaves by a fault restarts nobody. -/
theorem inv_readFault (h : p.Inv) {i : Nat} (hrun : act p (.readFault i) = some p')
    (hsafe : p.Safe (.readFault i)) : p'.Inv := by
  cases hrd : p.rd with
  | reading r =>
    cases r with
    | copied left n bytes => simp [act, hrd] at hrun
    | taken first n len =>
      simp only [act, hrd, bind_eq_bind] at hrun
      obtain ⟨heap, hfault, hp'⟩ := bind_eq_some_iff.mp hrun
      cases hp'
      have hread : p.sys.read = some (.taken first n len) := by
        simp [Proto.sys, hrd, Reader.reads]
      have hallowed : Qio.Allowed p.sys (.qreadFault i) :=
        ⟨first, n, len, hread, ne_none_iff_exists'.mpr ⟨heap, hfault⟩⟩
      have hexec : exec p.sys (.qreadFault i) = some { sys := ⟨{ p.st with heap }, none⟩ } := by
        simp [exec, Proto.sys, hrd, Reader.reads, hfault]
      refine ⟨h.after_exec hallowed hexec, h.limit, trivial, ?_⟩
      have hcalled : p.WrCalled → 0 < p.wrs := by
        rintro (hc | hc)
        · exact hc
        · rw [hrd] at hc
          cases hc
      apply h.writer.keep rfl rfl rfl (Int.le_refl _) (fun hc => Or.inl (hcalled hc))
      intro hwr _ _
      by_cases hlt : p.st.q.len < p.st.q.limit.tdiv 2
      · exact Or.inl (Or.inl (hsafe hwr hlt))
      · exact Or.inr (Or.inr (Int.not_lt.mp hlt))
  | _ => simp [act, hrd] at hrun

/-- The last section of `qread`. -/
theorem inv_readFinish (h : p.Inv) (hfits : p.Fits) (hrun : act p .readFinish = some p')
    (hsafe : p.Safe .readFinish) : p'.Inv := by
  obtain ⟨l, k, hh⟩ := h.holds
  cases hrd : p.rd with
  | reading r =>
    cases r with
    | taken first n len => simp [act, hrd] at hrun
    | copied left n bytes =>
      have hread : p.sys.read = some (.copied left n bytes) := by
        simp [Proto.sys, hrd, Reader.reads]
      obtain ⟨hrep, hpriv, hdisj, hframe⟩ := hh
      simp only [Sys.private, hread] at hpriv hframe
      change Rep p.st l at hrep
      change Chain p.st.heap left k at hpriv
      obtain ⟨s', hfin, hm⟩ := qreadFinish_spec hrep hpriv hframe.2 hdisj n
      have hallowed : Qio.Allowed p.sys .qreadFinish := ⟨left, n, bytes, hread⟩
      have hexec : ∃ o, exec p.sys .qreadFinish = some o ∧
          o.sys = ⟨(restarted s' ((n : Int) - sumBlen k)).st, none⟩ :=
        ⟨_, by simp only [exec, Proto.sys, hrd, Reader.reads, hfin]; rfl, rfl⟩
      have hholds := h.after hallowed hexec
      simp only [act, hrd, hfin] at hrun
      cases hrun
      have hstate := Queue.state_of_ctl hm.ctl
      have hlim' := Queue.limit_of_ctl hm.ctl
      refine ⟨?_, ?_, ReaderOk.ended _ _ _, ?_⟩
      · simp only [Proto.sys, Reader.reads_ended]
        exact hholds
      · show 2 ≤ (restart s'.q).1.limit
        rw [restart_fst]
        exact hlim' ▸ h.limit
      · apply h.writer.after_restart h.limit hm.ctl
        · intro hc
          rcases hc with hc | hc
          · exact Or.inl hc
          · rw [hrd] at hc
            cases hc
        · intro hw
          right
          show Reader.ended (restart s'.q).2 = .waking
          rw [hw]
          rfl
        · intro hdrowsy hfalse hroom
          simp only [qnotfull, Bool.or_eq_true, decide_eq_true_eq] at hroom ⊢
          rw [hstate, hlim']
          by_cases hcl : p.st.q.state.closed = true
          · exact Or.inr hcl
          · left
            have hopen : p.st.q.state.closed = false := by simpa using hcl
            have hlt : p.st.q.len < p.st.q.limit := by
              rcases hroom with hr | hr
              · exact hr
              · exact absurd hr hcl
            have hlen := hfits.len_eq hrep
            have hlen' := hm.rep.len.trans_le (int32_le _)
            by_cases hmsg : p.st.q.state.msg = true
            · rw [if_pos hmsg] at hlen'
              omega
            · rw [if_neg hmsg, sumBalloc_append] at hlen'
              have hbyte : p.st.q.state.msg = false := by simpa using hmsg
              cases k with
              | nil =>
                rw [sumBalloc_nil] at hlen'
                omega
              | cons c t =>
                -- at most one block is left over
                have hone : t = [] := List.eq_nil_of_length_eq_zero (by simpa using hframe.2)
                subst hone
                obtain ⟨a, v⟩ := c
                obtain ⟨hleft, m, ha, _⟩ := chain_cons.mp hpriv
                subst hleft
                simp only [Proto.Safe, hrd] at hsafe
                have hback := hsafe ⟨hdrowsy, hfalse, hopen⟩ hbyte ⟨m, v⟩ ha
                simp only [sumBalloc_cons, sumBalloc_nil] at hlen' hback
                omega
  | _ => simp [act, hrd] at hrun

/-- A block that is not queued leaves the queue as it is. -/
theorem qbwritePut_refused {s : Qs} {a : Addr} {r : Ret Bwrite} (hrun : qbwritePut s a = some r)
    (hacc : s.q.accepts = false) : r.st.q = s.q ∧ r.val.writer r.rr = .idle := by
  unfold qbwritePut at hrun
  cases hb : s.heap a with
  | none => simp [hb] at hrun
  | some b =>
    simp only [hb, bind_eq_bind, bind_some] at hrun
    by_cases hby : s.q.bypass = true
    · simp only [hby, if_true, pure_def, some.injEq] at hrun
      subst hrun
      exact ⟨rfl, rfl⟩
    · by_cases hcl : s.q.state.closed = true
      · simp only [hby, hcl, if_true, freeb, hb, bind_eq_bind, bind_some,
          pure_def, some.injEq, Bool.false_eq_true, if_false] at hrun
        subst hrun
        exact ⟨rfl, rfl⟩
      · have hfull : s.q.limit ≤ s.q.len ∧ s.q.noblock = true := by
          simpa [Queue.accepts, hby, hcl] using hacc
        simp only [hby, hcl, hfull, and_self, if_true, freeb, hb, bind_eq_bind,
          bind_some, pure_def, some.injEq, Bool.false_eq_true,
          if_false] at hrun
        subst hrun
        exact ⟨rfl, rfl⟩

theorem inv_write (h : p.Inv) {b : Addr} (ho : p.sys.Owns b)
    (hrun : act p (.write b) = some p') : p'.Inv := by
  obtain ⟨l, k, hh⟩ := h.holds
  have hrep : Rep p.st l := hh.rep
  cases hwr : p.wr with
  | idle =>
    obtain ⟨n, v, hb, hbl, _⟩ := hh.owns_head ho
    change p.st.heap b = _ at hb
    have hallowed : Qio.Allowed p.sys (.qbwrite b) := ho
    by_cases hacc : p.st.q.accepts = true
    · obtain ⟨s', hput, hm⟩ := qbwritePut_queued hrep hb hbl hacc
      have hexec : ∃ o, exec p.sys (.qbwrite b) = some o ∧
          o.sys = ⟨{ s' with q := (unstarve s'.q).1 }, p.rd.reads⟩ :=
        ⟨_, by simp only [exec, Proto.sys, hput]; rfl, rfl⟩
      have hholds := h.after hallowed hexec
      simp only [act, hwr, hput] at hrun
      cases hrun
      have hstate := Queue.state_of_ctl hm.ctl
      have hfirst : s'.q.bfirst.isSome := hm.rep.isSome_bfirst.mpr (by simp)
      have hdata : notempty (unstarve s'.q).1 = true := by
        rw [unstarve_fst]
        simp [notempty, hfirst]
      refine ⟨hholds, ?_, ?_, ?_⟩
      · show 2 ≤ (unstarve s'.q).1.limit
        rw [unstarve_fst]
        exact Queue.limit_of_ctl hm.ctl ▸ h.limit
      · have hok := h.reader
        show ReaderOk p.rd _ (unstarve s'.q).1
        cases hrd : p.rd with
        | drowsy call => exact Or.inr hdata
        | asleep call =>
          rw [hrd] at hok
          left
          rcases hok with (hc | hc) | ⟨hs, _⟩
          · exact Or.inl hc
          · rw [hwr] at hc
            cases hc
          · right
            show Bwrite.writer (unstarve s'.q).2 (.queued v.blen) = .waking
            rw [unstarve_snd, hstate, hs]
            rfl
        | idle => trivial
        | ready call => trivial
        | reading r => trivial
        | waking => trivial
      · show WriterOk (Bwrite.writer (unstarve s'.q).2 (.queued v.blen)) _ _ _
        cases (unstarve s'.q).2 <;> trivial
    · have hno : p.st.q.accepts = false := by simpa using hacc
      obtain ⟨r, hput, _, _⟩ := qbwritePut_spec hrep hb hbl
      obtain ⟨hq, hidle⟩ := qbwritePut_refused hput hno
      have hexec : ∃ o, exec p.sys (.qbwrite b) = some o ∧ o.sys = ⟨r.st, p.rd.reads⟩ :=
        ⟨_, by simp only [exec, Proto.sys, hput]; rfl, rfl⟩
      have hholds := h.after hallowed hexec
      simp only [act, hwr, hput] at hrun
      cases hrun
      refine ⟨hholds, ?_, ?_, ?_⟩
      · show 2 ≤ r.st.q.limit
        rw [hq]
        exact h.limit
      · show ReaderOk p.rd _ r.st.q
        rw [hq]
        apply h.reader.mono
        intro hpend
        rcases hpend with hc | hc
        · exact Or.inl hc
        · rw [hwr] at hc
          cases hc
      · show WriterOk (r.val.writer r.rr) _ _ _
        rw [hidle]
        trivial
  | _ => simp [act, hwr] at hrun

/-- Another process took blocks off and restarted the writer. -/
theorem Proto.Inv.other_restart (h : p.Inv) {s' : Qs}
    (hholds : ∃ l k, Holds ⟨{ s' with q := (restart s'.q).1 }, p.rd.reads⟩ l k)
    (hctl : s'.q.ctl = p.st.q.ctl) (hlen : s'.q.len ≤ p.st.q.len)
    (hnil : p.st.q.bfirst = none → s'.q.bfirst = none)
    (hdata : p.StarveTaken → p.st.q.bfirst.isSome → s'.q.bfirst.isSome) :
    Proto.Inv { p with st := { s' with q := (restart s'.q).1 },
                       wrs := p.wrs + (restart s'.q).2.toNat } := by
  have hstate := Queue.state_of_ctl hctl
  have hlim := Queue.limit_of_ctl hctl
  have hempty : notempty (restart s'.q).1 = (p.st.q.state.closed || s'.q.bfirst.isSome) := by
    rw [restart_fst]
    simp [notempty, hstate]
  have hstarve : (restart s'.q).1.state.starve = p.st.q.state.starve := by
    rw [restart_fst, hstate]
  refine ⟨hholds, ?_, ?_, ?_⟩
  · show 2 ≤ (restart s'.q).1.limit
    rw [restart_fst]
    exact hlim ▸ h.limit
  · apply h.reader.keep (fun hpend => hpend)
    · intro hs
      exact hstarve.trans hs
    · intro hn
      unfold notempty at hn
      rw [Bool.or_eq_false_iff] at hn
      show notempty (restart s'.q).1 = false
      rw [hempty, hn.1, hnil (isSome_eq_false_iff.mp hn.2 |> isNone_iff_eq_none.mp)]
      rfl
    · intro hdrowsy hs hn
      show notempty (restart s'.q).1 = true
      rw [hempty]
      by_cases hcl : p.st.q.state.closed = true
      · rw [hcl]
        rfl
      · have hopen : p.st.q.state.closed = false := by simpa using hcl
        have hsome : p.st.q.bfirst.isSome := by simpa [notempty, hopen] using hn
        rw [hdata ⟨hdrowsy, hstarve.symm.trans hs, hopen⟩ hsome, Bool.or_true]
  · apply h.writer.after_restart h.limit hctl
    · intro hc
      rcases hc with hc | hc
      · left
        show 0 < p.wrs + (restart s'.q).2.toNat
        omega
      · exact Or.inr hc
    · intro hw
      left
      show 0 < p.wrs + (restart s'.q).2.toNat
      rw [hw, Bool.toNat_true]
      omega
    · intro _ _ hroom
      simp only [qnotfull, Bool.or_eq_true, decide_eq_true_eq] at hroom ⊢
      rw [hstate, hlim]
      rcases hroom with hr | hr
      · left
        omega
      · exact Or.inr hr

/-- Another process found nothing, or dropped all there was without a restart. -/
theorem Proto.Inv.other_starve (h : p.Inv) {s' : Qs}
    (hholds : ∃ l k, Holds ⟨{ s' with q := { s'.q with
      state := { s'.q.state with starve := true } } }, p.rd.reads⟩ l k)
    (hctl : s'.q.ctl = p.st.q.ctl) (hlen : s'.q.len ≤ p.st.q.len) (hfirst : s'.q.bfirst = none)
    (hsleep : p.wr = .asleep → p.st.q.state.flow = true →
      (p.IsReading ∨ p.st.q.limit.tdiv 2 ≤ p.st.q.len) →
      p.WrCalled ∨ p.IsReading ∨ p.st.q.limit.tdiv 2 ≤ s'.q.len) :
    Proto.Inv { p with st := { s' with q := { s'.q with
      state := { s'.q.state with starve := true } } } } := by
  have hstate := Queue.state_of_ctl hctl
  have hlim := Queue.limit_of_ctl hctl
  refine ⟨hholds, ?_, ?_, ?_⟩
  · show 2 ≤ s'.q.limit
    exact hlim ▸ h.limit
  · apply h.reader.keep (fun hpend => hpend) (fun _ => rfl)
    · intro hn
      unfold notempty at hn ⊢
      rw [Bool.or_eq_false_iff] at hn
      simp [hfirst, hstate, hn.1]
    · intro _ hs
      cases hs
  · apply h.writer.keep hlim (by rw [hstate]) (by rw [hstate]) hlen (fun hc => hc)
    exact hsleep

theorem inv_qget (h : p.Inv) (hfits : p.Fits) (hrun : act p .qget = some p') (hsafe : p.Safe .qget) :
    p'.Inv := by
  obtain ⟨l, k, hh⟩ := h.holds
  have hrep : Rep p.st l := hh.rep
  have hallowed : Qio.Allowed p.sys .qget := trivial
  cases l with
  | nil =>
    have hget := qget_empty hrep
    have hexec : ∃ o, exec p.sys .qget = some o ∧ o.sys = ⟨{ p.st with q := { p.st.q with
        state := { p.st.q.state with starve := true } } }, p.rd.reads⟩ :=
      ⟨_, by simp only [exec, Proto.sys, hget]; rfl, rfl⟩
    have hholds := h.after hallowed hexec
    simp only [act, hget] at hrun
    cases hrun
    exact h.other_starve hholds rfl (Int.le_refl _) hrep.bfirst_nil (fun _ _ hc => Or.inr hc)
  | cons c t =>
    obtain ⟨a, v⟩ := c
    obtain ⟨s', hget, hm, _⟩ := qget_cons hrep
    have hexec : ∃ o, exec p.sys .qget = some o ∧
        o.sys = ⟨{ s' with q := (restart s'.q).1 }, p.rd.reads⟩ :=
      ⟨_, by simp only [exec, Proto.sys, hget]; rfl, rfl⟩
    have hholds := h.after hallowed hexec
    simp only [act, hget] at hrun
    cases hrun
    apply h.other_restart hholds hm.ctl (hfits.len_le hrep hm.rep (by simp))
    · intro hnone
      rw [hrep.bfirst_cons] at hnone
      cases hnone
    · intro htaken _
      apply hm.rep.isSome_bfirst.mpr
      intro hnil
      exact hsafe htaken _ hrep.chain (by rw [hnil]; rfl)

theorem inv_qdiscard (h : p.Inv) (hfits : p.Fits) (hrun : act p (.qdiscard len) = some p')
    (hsafe : p.Safe (.qdiscard len)) : p'.Inv := by
  obtain ⟨l, k, hh⟩ := h.holds
  have hrep : Rep p.st l := hh.rep
  have hallowed : Qio.Allowed p.sys (.qdiscard len) := trivial
  obtain ⟨s', hdisc, hm⟩ := qdiscard_spec hrep len
  have hexec : ∃ o, exec p.sys (.qdiscard len) = some o ∧
      o.sys = ⟨{ s' with q := (restart s'.q).1 }, p.rd.reads⟩ :=
    ⟨_, by simp only [exec, Proto.sys, hdisc]; rfl, rfl⟩
  have hholds := h.after hallowed hexec
  simp only [act, hdisc] at hrun
  cases hrun
  apply h.other_restart hholds hm.ctl (hfits.len_le hrep hm.rep (sumBalloc_discardCells_le len l))
  · intro hnone
    have hnil := hrep.chain
    rw [hnone] at hnil
    rw [hnil.eq_nil] at hm
    exact hm.rep.bfirst_nil
  · intro htaken hsome
    apply hm.rep.isSome_bfirst.mpr
    exact hsafe htaken l hrep.chain (hrep.isSome_bfirst.mp hsome)

theorem inv_qconsume (h : p.Inv) (hfits : p.Fits) (hrun : act p (.qconsume len) = some p')
    (hsafe : p.Safe (.qconsume len)) : p'.Inv := by
  obtain ⟨l, k, hh⟩ := h.holds
  have hrep : Rep p.st l := hh.rep
  have hallowed : Qio.Allowed p.sys (.qconsume len) := trivial
  cases hskip : skipEmpty l with
  | nil =>
    obtain ⟨s', hcons, hm⟩ := qconsume_empty hrep len hskip
    have hexec : ∃ o, exec p.sys (.qconsume len) = some o ∧ o.sys = ⟨{ s' with q := { s'.q with
        state := { s'.q.state with starve := true } } }, p.rd.reads⟩ :=
      ⟨_, by simp only [exec, Proto.sys, hcons]; rfl, rfl⟩
    have hholds := h.after hallowed hexec
    simp only [act, hcons] at hrun
    cases hrun
    apply h.other_starve hholds hm.ctl (hfits.len_le hrep hm.rep (Nat.zero_le _)) hm.rep.bfirst_nil
    intro hwr _ hcase
    by_cases hpend : p.WrPending
    · rcases hpend with hc | hc | hc
      · exact Or.inl (Or.inl hc)
      · exact Or.inl (Or.inr hc)
      · exact Or.inr (Or.inl hc)
    · rcases hcase with hr | hge
      · exact Or.inr (Or.inl hr)
      · have hne := hrep.ne_nil_of_half h.limit hge
        have hsome := hrep.isSome_bfirst.mpr hne
        have hzero : p.st.q.dlen = 0 := by
          rw [hrep.dlen, ← length_flat, ← flat_skipEmpty, hskip]
          rfl
        exact absurd ⟨hwr, hpend, isSome_iff_ne_none.mp hsome, hzero⟩ hsafe.2
  | cons c t =>
    obtain ⟨a, v⟩ := c
    have hcells : consumeCells p.st.q.state.msg len l =
        consumeRest p.st.q.state.msg len a v t := by
      unfold consumeCells
      rw [hskip]
    obtain ⟨s', hcons, hm⟩ := qconsume_cons hrep len hskip
    rw [← hcells] at hm
    have hexec : ∃ o, exec p.sys (.qconsume len) = some o ∧
        o.sys = ⟨{ s' with q := (restart s'.q).1 }, p.rd.reads⟩ :=
      ⟨_, by simp only [exec, Proto.sys, hcons]; rfl, rfl⟩
    have hholds := h.after hallowed hexec
    simp only [act, hcons] at hrun
    cases hrun
    apply h.other_restart hholds hm.ctl
      (hfits.len_le hrep hm.rep (sumBalloc_consumeCells_le p.st.q.state.msg len l))
    · intro hnone
      have hnil := hrep.chain
      rw [hnone] at hnil
      rw [hnil.eq_nil] at hskip
      cases hskip
    · intro htaken hsome
      apply hm.rep.isSome_bfirst.mpr
      exact hsafe.1 htaken l hrep.chain (hrep.isSome_bfirst.mp hsome)

/-- A closed queue lets nobody sleep on, and wakes whoever does. -/
theorem Proto.Inv.closed (h : p.Inv) {st : Qs} (hholds : ∃ l k, Holds ⟨st, p.rd.reads⟩ l k)
    (hclosed : st.q.state.closed = true) (hlimit : st.q.limit = p.st.q.limit) :
    Proto.Inv { p with st, rrs := p.rrs + 1, wrs := p.wrs + 1 } := by
  refine ⟨hholds, hlimit ▸ h.limit, ?_, ?_⟩
  · show ReaderOk p.rd _ st.q
    cases p.rd with
    | drowsy call => exact Or.inr (by simp [notempty, hclosed])
    | asleep call => exact Or.inl (Or.inl (Nat.succ_pos _))
    | idle => trivial
    | ready call => trivial
    | reading r => trivial
    | waking => trivial
  · show WriterOk p.wr _ _ st.q
    cases p.wr with
    | drowsy => exact Or.inr (by simp [qnotfull, hclosed])
    | asleep => exact Or.inl (Or.inl (Nat.succ_pos _))
    | idle => trivial
    | waking => trivial
    | testing => trivial
    | flowing => trivial

theorem inv_qclose (h : p.Inv) (hrun : act p .qclose = some p') : p'.Inv := by
  have hallowed : Qio.Allowed p.sys .qclose := trivial
  cases hclose : Qio.qclose p.st with
  | none => simp [act, hclose] at hrun
  | some r =>
    have hexec : exec p.sys .qclose = some { sys := ⟨r.st, p.rd.reads⟩ } := by
      simp [exec, Proto.sys, hclose]
    have hholds := h.after_exec hallowed hexec
    simp only [act, hclose] at hrun
    cases hrun
    unfold Qio.qclose at hclose
    obtain ⟨heap, _, hr⟩ := bind_eq_some_iff.mp hclose
    cases hr
    exact h.closed hholds rfl rfl

theorem inv_qhangup (h : p.Inv) {msg : String} (hrun : act p (.qhangup msg) = some p') :
    p'.Inv := by
  have hallowed : Qio.Allowed p.sys (.qhangup msg) := trivial
  have hexec : exec p.sys (.qhangup msg) =
      some { sys := ⟨(Qio.qhangup p.st msg).st, p.rd.reads⟩ } := rfl
  have hholds := h.after_exec hallowed hexec
  simp only [act, some.injEq] at hrun
  subst hrun
  exact h.closed hholds rfl rfl

/-- **One step.** -/
theorem Proto.Inv.step (h : p.Inv) {a : Act} (hstep : p.Step a p') (hfits : p.Fits) (hsafe : p.Safe a) :
    p'.Inv := by
  obtain ⟨hallowed, hrun⟩ := hstep
  cases a with
  | read call => exact inv_read h hrun
  | readLocked =>
    cases hrd : p.rd with
    | ready call =>
      cases call with
      | qread len => exact inv_qread h hrd hfits hrun hsafe
      | qbread al len => exact inv_qbread h hrd hfits hrun hsafe
    | _ => simp [act, hrd] at hrun
  | readCopy => exact inv_readCopy h hrun
  | readFault i => exact inv_readFault h hrun hsafe
  | readFinish => exact inv_readFinish h hfits hrun hsafe
  | readSleep => exact inv_readSleep h hrun
  | readIntr => exact inv_readIntr h hrun
  | readWakeup => exact inv_readWakeup h hrun
  | write b => exact inv_write h hallowed hrun
  | writeWakeup => exact inv_writeWakeup h hrun
  | writeTest => exact inv_writeTest h hrun
  | writeFlow => exact inv_writeFlow h hrun
  | writeSleep => exact inv_writeSleep h hrun
  | writeIntr => exact inv_writeIntr h hrun
  | qget => exact inv_qget h hfits hrun hsafe
  | qconsume len => exact inv_qconsume h hfits hrun hsafe
  | qdiscard len => exact inv_qdiscard h hfits hrun hsafe
  | qclose => exact inv_qclose h hrun
  | qhangup msg => exact inv_qhangup h hrun
  | wakeupRr => exact inv_wakeupRr h hrun
  | wakeupWr => exact inv_wakeupWr h hrun
  | env heap =>
    have hexec : exec p.sys (.env heap) =
        some { sys := ⟨{ p.st with heap }, p.rd.reads⟩ } := rfl
    have henv : Qio.Allowed p.sys (.env heap) := hallowed
    have hholds := h.after_exec henv hexec
    simp only [act, some.injEq] at hrun
    subst hrun
    exact ⟨hholds, h.limit, h.reader, h.writer⟩

/-- **No lost wakeup, on runs of safe steps.**  If no step takes the last block
from a reader about to sleep whose `Qstarve` is gone, none fills the queue again
under a writer about to sleep whose `Qflow` is gone, none drops the last
zero-length blocks under a sleeping writer, none leaves `qread` by a fault while a writer
waits for it, and the space of the queue fits in an `int`, then in every state reached a writer
asleep below half the limit, or a reader asleep on a queue with blocks or
closed, has a wakeup coming. -/
theorem no_lost_wakeup (p : Proto)
    (hr : Reach Proto.Opened (fun p a p' => p.Step a p' ∧ p.Fits ∧ p.Safe a) p) : p.NoLostWakeup := by
  have hinv := hr.invariant Proto.Inv (fun _ h => h.inv) (fun _ _ _ h hs => h.step hs.1 hs.2.1 hs.2.2)
  exact hinv.noLostWakeup

/-- A block without bytes, as `qwrite` of nothing allocates it. -/
def emptyBlock : Block := ⟨none, ⟨64, [], 0⟩⟩

/-- One block at address 1. -/
def oneBlockHeap : Heap := fun a => if a = 1 then some emptyBlock else none

/-- A queue of limit 10 next to that block. -/
def stall₀ : Proto := ⟨⟨oneBlockHeap, qopen 10 {} false⟩, .idle, .idle, 0, 0⟩

/-- The writer has queued the block and still has to wake the reader. -/
def stall₁ : Proto :=
  ⟨⟨Function.update oneBlockHeap 1 (some emptyBlock),
    { bfirst := some 1, blast := some 1, len := 64, limit := 10, inilim := 10, state := {} }⟩,
    .idle, .waking, 0, 0⟩

/-- The writer sleeps behind it. -/
def stall₂ : Proto :=
  { stall₁ with wr := .asleep, st := { stall₁.st with q := qbwriteFlow stall₁.st.q } }

theorem stall₀_opened : stall₀.Opened :=
  ⟨⟨10, {}, false, by decide, rfl⟩, rfl, rfl, rfl, rfl⟩

theorem stall₀_owns : stall₀.sys.Owns 1 := by
  refine ⟨[(1, emptyBlock.val)], ⟨rfl, none, rfl, rfl⟩, ?_, ?_⟩
  · intro l hl
    have hnil : l = [] := Chain.eq_nil hl
    simp [hnil]
  · intro k hk
    have hnil : k = [] := Chain.eq_nil hk
    simp [hnil]

theorem stall_write : act stall₀ (.write 1) = some stall₁ := rfl

theorem stall₀_fits : stall₀.Fits := by
  intro l hl
  have hnil : l = [] := Chain.eq_nil hl
  simp [hnil]

/-- The block fits, whatever reader and writer do. -/
theorem stall_fits (wr : Writer) (state : QState) :
    Proto.Fits { stall₁ with wr, st := { stall₁.st with q := { stall₁.st.q with state } } } := by
  intro l hl
  have hone : Chain stall₁.st.heap (some 1) [(1, emptyBlock.val)] := ⟨rfl, none, rfl, rfl⟩
  rw [Chain.unique hl hone]
  decide

theorem stall₂_reach : Reach Proto.Opened (fun p a p' => p.Step a p' ∧ p.Fits ∧ p.Safe a) stall₂ := by
  have hnext : ∀ {p p' : Proto} (a : Act),
      Reach Proto.Opened (fun p a p' => p.Step a p' ∧ p.Fits ∧ p.Safe a) p → p.Fits → p.Allowed a →
      p.Safe a → act p a = some p' →
      Reach Proto.Opened (fun p a p' => p.Step a p' ∧ p.Fits ∧ p.Safe a) p' := by
    intro p p' a hr hfits hallowed hsafe hrun
    exact hr.next ⟨⟨hallowed, hrun⟩, hfits, hsafe⟩
  have h₁ := hnext (.write 1) (Reach.start stall₀_opened) stall₀_fits stall₀_owns trivial stall_write
  have h₂ := hnext .writeWakeup h₁ (stall_fits _ _) trivial trivial rfl
  have h₃ := hnext .writeTest h₂ (stall_fits _ _) trivial trivial rfl
  have h₄ := hnext .writeFlow h₃ (stall_fits _ _) trivial trivial rfl
  exact hnext .writeSleep h₄ (stall_fits _ _) trivial trivial rfl

theorem no_lost_wakeup_asleep : stall₂.wr = .asleep ∧ stall₂.NoLostWakeup :=
  ⟨rfl, no_lost_wakeup stall₂ stall₂_reach⟩

theorem stall₂_rep : Rep stall₂.st [(1, emptyBlock.val)] := by
  refine ⟨⟨rfl, none, rfl, rfl⟩, by decide, by decide, ?_⟩
  intro a ha
  exact ha

/-- `qconsume` drops the zero-length block the writer sleeps behind and returns
without waking it. -/
theorem lost_wakeup_qconsume : ∃ p, Reach Proto.Opened Proto.Step p ∧ ¬ p.NoLostWakeup := by
  obtain ⟨s', hcons, hm⟩ := qconsume_empty stall₂_rep 1 rfl
  have hrun : act stall₂ (.qconsume 1) = some { stall₂ with st := { s' with q := { s'.q with
      state := { s'.q.state with starve := true } } } } := by
    simp [act, hcons]
  have hreach : Reach Proto.Opened Proto.Step stall₂ := stall₂_reach.mono (fun _ _ _ hs => hs.1)
  have hallowed : stall₂.Allowed (.qconsume 1) := trivial
  refine ⟨_, hreach.next ⟨hallowed, hrun⟩, ?_⟩
  intro hno
  have hlen : s'.q.len = 0 := hm.rep.len
  have hlim : s'.q.limit = 10 := Queue.limit_of_ctl hm.ctl
  have hlt : s'.q.len < s'.q.limit.tdiv 2 := by
    rw [hlen, hlim]
    decide
  rcases hno.1 rfl hlt with hc | hc | ⟨r, hc⟩
  · exact Nat.lt_irrefl 0 hc
  · cases hc
  · cases hc

end Qio
