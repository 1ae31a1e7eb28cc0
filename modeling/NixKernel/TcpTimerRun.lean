import NixKernel.TcpTimer

/-!
# Runs of the retransmission timer

What bounds the shift is time: `backedoff` stays below `MAXBACKMS`, and once the timeout has
reached its ceiling of 64 seconds every further timeout adds that much to it, so that at most
eight doublings are left.  The invariant puts this as `2 ^ backoff * trip ≤ most * 2 ^ q`,
where `q` counts the ceilings that fit into `backedoff`.
-/

namespace Rto

open Tcp StepSystem Option

/-- The estimate that the timeout scales, in milliseconds. -/
def trip (tcb : Tcpctl) : Int := tcb.mdev + tcb.srtt / 8 + 50

def rto (tcb : Tcpctl) : Int := max 6 (min 1280 (2 ^ tcb.backoff.toNat * trip tcb / 50))

/-- `tcpsettimer` computes `rto`. -/
def Exact (tcb : Tcpctl) : Prop := tcpsettimer tcb = some { tcb with timer.start := rto tcb }

/-- What happens to a connection: its timer goes off, `tcpiput` has a segment for `update` or
the ack of a SYN for `tcpsynackrtt`, `tcpoutput` makes a round, a tick passes, and `tcpiput`
and `tcpclose` change the state and halt or restart timers on their way. -/
inductive Op
  | timeout (r : Round)
  | ack (r r' : Round) (seg : Segment)
  | synack (now : UInt32)
  | output (r : Round)
  | tick
  | halt
  | setstate (newstate : State)
  | timewait
  | restart
  | close

def tcpclose (tcb : Tcpctl) : Tcpctl :=
  match tcb.state with
  | .Listen | .Closed | .Syn_sent => localclose tcb
  | .Syn_received | .Established => { tcb with snd.nxt := tcb.snd.nxt + 1, state := .Finwait1 }
  | .Close_wait => { tcb with snd.nxt := tcb.snd.nxt + 1, state := .Last_ack }
  | _ => tcb

/-- `tcpiput` sends a segment for a closed connection back, and a closed connection has no
timers.  From `Time_wait` there is no way but to `Closed`. -/
def enabled (tcb : Tcpctl) : Op → Bool
  | .timeout _ => tcb.timer.state == .TcptimerON
  | .synack _ => tcb.state == .Listen || tcb.state == .Syn_sent || tcb.state == .Syn_received
  | .setstate newstate =>
    tcb.state != .Closed && tcb.state != .Time_wait && newstate != .Closed && newstate != .Time_wait
  | .close => true
  | _ => tcb.state != .Closed

/-- What a step leaves; `none` where an `int` overflows. -/
def exec (tcb : Tcpctl) : Op → Option Tcpctl
  | .timeout r => tcptimeout r { tcb with timer.state := .TcptimerDONE }
  | .ack r r' seg => update r r' seg tcb
  | .synack now => tcpsynackrtt now tcb
  | .output r => some (tcpoutput false r tcb)
  | .tick => some { tcb with rtt_timer := tick tcb.rtt_timer }
  | .halt => some { tcb with rtt_timer := tcphalt tcb.rtt_timer }
  | .setstate newstate => some { tcb with state := newstate }
  | .timewait => some { tcb with
      state := .Time_wait
      rtt_timer := tcphalt tcb.rtt_timer
      timer := tcpgo { tcb.timer with start := MSL2 * (1000 / MSPTICK) } }
  | .restart => some { tcb with timer := tcpgo tcb.timer }
  | .close => some (tcpclose tcb)

def act (tcb : Tcpctl) (op : Op) : Option Tcpctl := if enabled tcb op then exec tcb op else none

/-- A connection that `tcpstart` or `tcpincoming` has just set up. -/
def Opened (tcb : Tcpctl) : Prop :=
  (∃ iss now, tcb = tcpstart iss now) ∨ ∃ lp seg, tcb = tcpincoming lp seg

def Step (s : Tcpctl) (op : Op) (t : Tcpctl) : Prop := act s op = some t

/-- As large an estimate as eight doublings leave in an `int`. -/
def most : Int := 2 ^ 23 - 1

/-- How often the timeout can have been at its ceiling of 64 seconds in the time backed off. -/
def ceilings (tcb : Tcpctl) : Nat := (tcb.backedoff / 64000).toNat

/-- The ack ends a round trip measurement. -/
def Measures (seg : Segment) (tcb : Tcpctl) : Prop :=
  tcb.rtt_timer.state = .TcptimerON ∧ seq_ge seg.ack tcb.rttseq = true ∧ tcb.retran = false ∧
    seq_gt seg.ack tcb.snd.una = true

/-- An ack into a closed window takes back no time that the connection has backed off, no
measurement is longer than 1677700 ms, and the SYN's is none below -9 ms, or above 838850 ms
or what the shift and the time backed off leave room for. -/
def Sound (tcb : Tcpctl) : Op → Prop
  | .ack r _ seg => seg.update = false →
      (shut seg (prepare r seg tcb) = true → tcb.backedoff ≤ MAXBACKMS / 4) ∧
        (Measures seg tcb → elapsed tcb ≤ 33554)
  | .synack now =>
    let delta := toInt (now - tcb.sndsyntime)
    delta ≥ -9 ∧ delta ≤ 838850 ∧
      2 ^ (tcb.backoff.toNat + 1) * (5 * delta + 50) ≤ most * 2 ^ ceilings tcb
  | _ => True

def SoundStep (s : Tcpctl) (op : Op) (t : Tcpctl) : Prop := Step s op t ∧ Sound s op

theorem int_eq_some {x y : Int} : int x = some y ↔ (-2 ^ 31 ≤ x ∧ x < 2 ^ 31) ∧ x = y := by
  rw [int]
  split
  next hfits => rw [some.injEq, and_iff_right hfits]
  next hfits => exact iff_of_false (by simp) fun h => hfits h.1

theorem int_eq {x : Int} (hlo : -2 ^ 31 ≤ x) (hhi : x < 2 ^ 31) : int x = some x :=
  int_eq_some.mpr ⟨⟨hlo, hhi⟩, rfl⟩

theorem srtt_shift (tcb : Tcpctl) : tcb.srtt >>> LOGAGAIN = tcb.srtt / 8 := by
  rw [LOGAGAIN, Int.shiftRight_eq_div_pow]
  rfl

theorem mdev_shift (tcb : Tcpctl) : tcb.mdev >>> LOGDGAIN = tcb.mdev / 4 := by
  rw [LOGDGAIN, Int.shiftRight_eq_div_pow]
  rfl

/-- Between its bounds, the timeout does not depend on which way a division rounds. -/
theorem bounded_tdiv (p : Int) :
    (if p.tdiv 50 < 6 then 6 else if p.tdiv 50 > 1280 then 1280 else p.tdiv 50) = max 6 (min 1280 (p / 50)) := by
  rcases Int.le_total 0 p with hp | hp
  · rw [Int.tdiv_eq_ediv_of_nonneg hp]
    split_ifs <;> omega
  · obtain ⟨n, rfl⟩ : ∃ n, p = -n := ⟨-p, (Int.neg_neg p).symm⟩
    have hnonneg : 0 ≤ n.tdiv 50 := Int.tdiv_nonneg (by omega) (by decide)
    rw [Int.neg_tdiv, if_pos (by omega)]
    omega

/-- The factors of the timeout and their product are `int`s. -/
structure Fits (tcb : Tcpctl) : Prop where
  factor : (2 : Int) ^ tcb.backoff.toNat < 2 ^ 31
  sum_lo : -2 ^ 31 ≤ tcb.mdev + tcb.srtt / 8
  sum_hi : tcb.mdev + tcb.srtt / 8 < 2 ^ 31
  trip_lo : -2 ^ 31 ≤ trip tcb
  trip_hi : trip tcb < 2 ^ 31
  product_lo : -2 ^ 31 ≤ 2 ^ tcb.backoff.toNat * trip tcb
  product_hi : 2 ^ tcb.backoff.toNat * trip tcb < 2 ^ 31

theorem tcpsettimer_eq_some {tcb t : Tcpctl} :
    tcpsettimer tcb = some t ↔ Fits tcb ∧ t = { tcb with timer.start := rto tcb } := by
  have hpos : -2 ^ 31 ≤ (2 : Int) ^ tcb.backoff.toNat := le_trans (by decide) (pow_nonneg (by decide) _)
  have hx := bounded_tdiv (2 ^ tcb.backoff.toNat * trip tcb)
  simp only [tcpsettimer, backoff, bind_eq_bind, bind_eq_some_iff, int_eq_some, srtt_shift]
  constructor
  · rintro ⟨_, ⟨⟨-, hfactor⟩, rfl⟩, _, ⟨⟨hsum, hsum'⟩, rfl⟩, _, ⟨⟨htrip, htrip'⟩, rfl⟩, _, ⟨⟨hprod, hprod'⟩, rfl⟩, ht⟩
    refine ⟨⟨hfactor, hsum, hsum', htrip, htrip', hprod, hprod'⟩, ?_⟩
    rw [rto, ← hx, ← some.inj ht]
    rfl
  · rintro ⟨h, rfl⟩
    refine ⟨_, ⟨⟨hpos, h.factor⟩, rfl⟩, _, ⟨⟨h.sum_lo, h.sum_hi⟩, rfl⟩, _, ⟨⟨h.trip_lo, h.trip_hi⟩, rfl⟩,
      _, ⟨⟨h.product_lo, h.product_hi⟩, rfl⟩, ?_⟩
    rw [rto, ← hx]
    rfl

/-- From `s` to `t` nothing has changed that the timeout depends on, and no measurement has
been started. -/
structure Kept (s t : Tcpctl) : Prop where
  state : t.state = s.state ∨ t.state = .Closed
  una : t.snd.una = s.snd.una
  backoff : t.backoff = s.backoff
  backedoff : t.backedoff = s.backedoff
  retran : s.retran = true → t.retran = true
  start : t.timer.start = s.timer.start
  rtt_timer : t.rtt_timer = s.rtt_timer ∨ t.rtt_timer.state = .TcptimerOFF
  rttseq : t.rttseq = s.rttseq
  srtt : t.srtt = s.srtt
  mdev : t.mdev = s.mdev

namespace Kept

variable {s t u : Tcpctl}

theorem refl (s : Tcpctl) : Kept s s :=
  ⟨Or.inl rfl, rfl, rfl, rfl, id, rfl, Or.inl rfl, rfl, rfl, rfl⟩

theorem trans (h : Kept s t) (h' : Kept t u) : Kept s u where
  state := by
    rcases h'.state with hu | hu
    · rw [hu]
      exact h.state
    · exact Or.inr hu
  una := h'.una.trans h.una
  backoff := h'.backoff.trans h.backoff
  backedoff := h'.backedoff.trans h.backedoff
  retran := h'.retran ∘ h.retran
  start := h'.start.trans h.start
  rtt_timer := by
    rcases h'.rtt_timer with hu | hu
    · rw [hu]
      exact h.rtt_timer
    · exact Or.inr hu
  rttseq := h'.rttseq.trans h.rttseq
  srtt := h'.srtt.trans h.srtt
  mdev := h'.mdev.trans h.mdev

end Kept

@[simp] theorem tcpgo_start (t : Tcptimer) : (tcpgo t).start = t.start := by
  rw [tcpgo]
  split <;> rfl

theorem kept_localclose (s : Tcpctl) : Kept s (localclose s) :=
  ⟨Or.inr rfl, rfl, rfl, rfl, id, rfl, Or.inr rfl, rfl, rfl, rfl⟩

theorem kept_starttimers (full : Bool) (s : Tcpctl) : Kept s (starttimers true full s) := by
  simp only [starttimers, Bool.true_eq_false, false_and, if_false]
  split
  · exact Kept.refl s
  · exact { Kept.refl s with start := tcpgo_start _ }

theorem kept_tcpoutput (r : Round) (s : Tcpctl) : Kept s (tcpoutput true r s) := by
  have hsent (ptr nxt : UInt32) : Kept s { s with snd.ptr := ptr, snd.nxt := nxt } :=
    { Kept.refl s with }
  have hstarted (t : Tcpctl) : Kept t (if r.ssize = 0 then t else starttimers true r.full t) := by
    split
    · exact Kept.refl t
    · exact kept_starttimers r.full t
  rw [tcpoutput]
  split
  iterate 3 exact Kept.refl s
  dsimp only
  split
  · exact (hsent _ _).trans (hstarted _)
  · exact ((hsent _ _).trans (hstarted _)).trans (kept_localclose _)

theorem kept_tcprxmit (r : Round) (s : Tcpctl) : Kept s (tcprxmit r s) := by
  have hmarked : Kept s { s with retran := true, snd.ptr := s.snd.una } :=
    ⟨Or.inl rfl, rfl, rfl, rfl, fun _ => rfl, rfl, Or.inl rfl, rfl, rfl, rfl⟩
  have hback (t : Tcpctl) : Kept t { t with snd.ptr := s.snd.ptr } := { Kept.refl t with }
  exact (hmarked.trans (kept_tcpoutput r _)).trans (hback _)

theorem kept_recover (r : Round) (seg : Segment) (s : Tcpctl) : Kept s (recover r seg s) := by
  have hmarked : Kept s { s with snd.recovery := true, snd.partialack := 0, snd.rxt := s.snd.nxt } :=
    { Kept.refl s with }
  rw [recover]
  split_ifs
  · exact Kept.refl s
  · exact hmarked.trans (kept_tcprxmit r _)
  · exact Kept.refl s

theorem kept_fastretransmit (r : Round) (seg : Segment) (s : Tcpctl) : Kept s (fastretransmit r seg s) := by
  have hopen : Kept s { s with snd.wnd := seg.wnd } := { Kept.refl s with }
  have hdup : Kept s { s with snd.dupacks := s.snd.dupacks + 1 } := { Kept.refl s with }
  rw [fastretransmit]
  dsimp only
  split_ifs
  · exact hopen.trans (kept_recover r seg _)
  · exact hdup.trans (kept_recover r seg _)
  · exact hdup
  · exact Kept.refl s

theorem kept_window (seg : Segment) (s : Tcpctl) : Kept s (window seg s) := by
  rw [window]
  split
  · exact { Kept.refl s with }
  · exact Kept.refl s

theorem kept_prepare (r : Round) (seg : Segment) (s : Tcpctl) : Kept s (prepare r seg s) :=
  (kept_fastretransmit r seg s).trans (kept_window seg _)

theorem kept_congestion (seg : Segment) (s : Tcpctl) : Kept s (congestion seg s) := by
  rw [congestion]
  split_ifs
  · exact { Kept.refl s with }
  · exact { Kept.refl s with }
  · exact Kept.refl s

/-- No measurement is longer than this many milliseconds. -/
def slowest : Int := 1677711

/-- The timeout scaled by the shift, before its bounds. -/
def scaled (tcb : Tcpctl) : Int := 2 ^ tcb.backoff.toNat * trip tcb

/-- The estimates and the time backed off leave the shift room. -/
structure Bounded (tcb : Tcpctl) : Prop where
  srtt_lo : -72 ≤ tcb.srtt
  srtt_hi : tcb.srtt ≤ 8 * slowest
  mdev_lo : -36 ≤ tcb.mdev
  mdev_hi : tcb.mdev ≤ 4 * slowest
  trip_pos : 1 ≤ trip tcb
  start_nonneg : 0 ≤ tcb.timer.start
  backedoff_nonneg : 0 ≤ tcb.backedoff
  backedoff_lt : tcb.backedoff < MAXBACKMS
  scaled_le : scaled tcb ≤ most * 2 ^ ceilings tcb
  measured : tcb.rtt_timer.state = .TcptimerON → tcb.rtt_timer.count ≤ tcb.rtt_timer.start

/-- **The invariant of an open connection**: besides, its timer runs at least as long as the
shift asks for, or there is room for one doubling in advance. -/
structure Timely (tcb : Tcpctl) : Prop extends Bounded tcb where
  paced : tcb.state = .Time_wait ∨ tcb.state = .Closed ∨ min 1280 (scaled tcb / 50) ≤ tcb.timer.start ∨
    (2 * scaled tcb ≤ most * 2 ^ ceilings tcb ∧ 2 * trip tcb ≤ most)

/-- What holds of a connection until it is closed. -/
def Inv (tcb : Tcpctl) : Prop := tcb.state = .Closed ∨ Timely tcb

variable {s t : Tcpctl}

namespace Kept

theorem trip_eq (h : Kept s t) : trip t = trip s := by rw [trip, h.mdev, h.srtt, trip]

theorem scaled_eq (h : Kept s t) : scaled t = scaled s := by rw [scaled, h.backoff, h.trip_eq, scaled]

theorem ceilings_eq (h : Kept s t) : ceilings t = ceilings s := by rw [ceilings, h.backedoff, ceilings]

end Kept

namespace Bounded

theorem kept (h : Bounded s) (hkept : Kept s t) : Bounded t where
  srtt_lo := hkept.srtt.symm ▸ h.srtt_lo
  srtt_hi := hkept.srtt.symm ▸ h.srtt_hi
  mdev_lo := hkept.mdev.symm ▸ h.mdev_lo
  mdev_hi := hkept.mdev.symm ▸ h.mdev_hi
  trip_pos := hkept.trip_eq.symm ▸ h.trip_pos
  start_nonneg := hkept.start.symm ▸ h.start_nonneg
  backedoff_nonneg := hkept.backedoff.symm ▸ h.backedoff_nonneg
  backedoff_lt := hkept.backedoff.symm ▸ h.backedoff_lt
  scaled_le := by
    rw [hkept.scaled_eq, hkept.ceilings_eq]
    exact h.scaled_le
  measured := by
    rcases hkept.rtt_timer with htimer | htimer
    · rw [htimer]
      exact h.measured
    · simp [htimer]

/-- No more than eight ceilings fit into the time before the connection is given up. -/
theorem scaled_lt (h : Bounded s) : scaled s < 2 ^ 31 := by
  have hlt := h.backedoff_lt
  have hceilings : ceilings s ≤ 8 := by
    rw [ceilings]
    rw [MAXBACKMS] at hlt
    omega
  calc scaled s ≤ most * 2 ^ ceilings s := h.scaled_le
    _ ≤ most * 2 ^ 8 := Int.mul_le_mul_of_nonneg_left (pow_le_pow_right₀ (by decide) hceilings) (by decide)
    _ < 2 ^ 31 := by decide

theorem factor_le (h : Bounded s) : (2 : Int) ^ s.backoff.toNat ≤ scaled s :=
  le_mul_of_one_le_right (pow_nonneg (by decide) _) h.trip_pos

/-- The shift stays below the width of an `int`, so that `backoff` does not wrap round. -/
theorem backoff_lt (h : Bounded s) : s.backoff.toNat < 31 := by
  have hlt : (2 : Int) ^ s.backoff.toNat < 2 ^ 31 := lt_of_le_of_lt h.factor_le h.scaled_lt
  exact (pow_lt_pow_iff_right₀ (by decide)).mp hlt

theorem fits (h : Bounded s) : Fits s := by
  have hsrtt := h.srtt_lo
  have hsrtt' := h.srtt_hi
  have hmdev := h.mdev_lo
  have hmdev' := h.mdev_hi
  have hpos : (1 : Int) ≤ 2 ^ s.backoff.toNat := one_le_pow₀ (by decide)
  have hscaled : 1 ≤ scaled s := le_trans hpos h.factor_le
  rw [slowest] at hsrtt' hmdev'
  constructor
  · exact lt_of_le_of_lt h.factor_le h.scaled_lt
  · omega
  · omega
  · rw [trip]
    omega
  · rw [trip]
    omega
  · rw [scaled] at hscaled
    omega
  · exact h.scaled_lt

theorem exact (h : Bounded s) : Exact s := tcpsettimer_eq_some.mpr ⟨h.fits, rfl⟩

/-- A timer that has just been set is paced. -/
theorem set (h : Bounded s) : Timely { s with timer.start := rto s } where
  srtt_lo := h.srtt_lo
  srtt_hi := h.srtt_hi
  mdev_lo := h.mdev_lo
  mdev_hi := h.mdev_hi
  trip_pos := h.trip_pos
  start_nonneg := le_trans (by decide) (le_max_left 6 _)
  backedoff_nonneg := h.backedoff_nonneg
  backedoff_lt := h.backedoff_lt
  scaled_le := h.scaled_le
  measured := h.measured
  paced := Or.inr (Or.inr (Or.inl (le_max_right 6 _)))

/-- The largest estimate alone leaves room for eight doublings. -/
theorem trip_le (h : Bounded s) : trip s ≤ most := by
  have hsrtt := h.srtt_hi
  have hmdev := h.mdev_hi
  rw [slowest] at hsrtt hmdev
  rw [trip, most]
  omega

end Bounded

namespace Timely

theorem kept (h : Timely s) (hkept : Kept s t) : Timely t where
  toBounded := h.toBounded.kept hkept
  paced := by
    rw [hkept.scaled_eq, hkept.ceilings_eq, hkept.start, hkept.trip_eq]
    rcases hkept.state with hstate | hstate
    · rw [hstate]
      exact h.paced
    · exact Or.inr (Or.inl hstate)

/-- A timer that was at its ceiling has added a ceiling to the time backed off; another is so
short that one doubling does not matter. -/
theorem room (h : Timely s) (hwait : s.state ≠ .Time_wait) (hopen : s.state ≠ .Closed) :
    2 * scaled s ≤ most * 2 ^ ((s.backedoff + s.timer.start * 50) / 64000).toNat := by
  have hstart := h.start_nonneg
  have hbackedoff := h.backedoff_nonneg
  have hpow {k n : Nat} (hle : k ≤ n) : most * 2 ^ k ≤ most * 2 ^ n :=
    Int.mul_le_mul_of_nonneg_left (pow_le_pow_right₀ (by decide) hle) (by decide)
  have hceilings : ceilings s ≤ ((s.backedoff + s.timer.start * 50) / 64000).toNat := by
    rw [ceilings]
    omega
  rcases h.paced with hstate | hstate | hpaced | ⟨hroom, -⟩
  · exact absurd hstate hwait
  · exact absurd hstate hopen
  · by_cases hceiling : 1280 ≤ s.timer.start
    · have hmore : ceilings s + 1 ≤ ((s.backedoff + s.timer.start * 50) / 64000).toNat := by
        rw [ceilings]
        omega
      calc 2 * scaled s ≤ 2 * (most * 2 ^ ceilings s) := Int.mul_le_mul_of_nonneg_left h.scaled_le (by decide)
        _ = most * 2 ^ (ceilings s + 1) := by rw [pow_succ]; ring
        _ ≤ _ := hpow hmore
    · have hsmall : 2 * scaled s ≤ most * 2 ^ 0 := by
        rw [most]
        omega
      exact hsmall.trans (hpow (Nat.zero_le _))
  · exact hroom.trans (hpow hceilings)

/-- **A timeout**: what is left is bounded as before, up to the timer itself. -/
theorem doubled (h : Timely s) (hwait : s.state ≠ .Time_wait) (hopen : s.state ≠ .Closed)
    (hlt : s.backedoff + s.timer.start * MSPTICK < MAXBACKMS) :
    Bounded { s with
      backoff := s.backoff + 1
      backedoff := s.backedoff + s.timer.start * MSPTICK
      timer.state := .TcptimerDONE } := by
  have hstart := h.start_nonneg
  have hbackedoff := h.backedoff_nonneg
  have hbackoff : (s.backoff + 1).toNat = s.backoff.toNat + 1 := by
    have hsmall := h.backoff_lt
    rw [UInt8.toNat_add]
    change (s.backoff.toNat + 1) % 256 = _
    omega
  constructor
  · exact h.srtt_lo
  · exact h.srtt_hi
  · exact h.mdev_lo
  · exact h.mdev_hi
  · exact h.trip_pos
  · exact hstart
  · rw [MSPTICK]
    change 0 ≤ s.backedoff + s.timer.start * 50
    omega
  · exact hlt
  · change 2 ^ (s.backoff + 1).toNat * trip s ≤ most * 2 ^ ((s.backedoff + s.timer.start * 50) / 64000).toNat
    rw [hbackoff, pow_succ, Int.mul_comm _ 2, Int.mul_assoc, ← scaled]
    exact h.room hwait hopen
  · exact h.measured

/-- Without a shift, and no time backed off. -/
theorem reset (h : Timely s) (snd : Snd) (retran : Bool) :
    Timely { s with snd := snd, retran := retran, backoff := 0, backedoff := 0 } := by
  have hlt : (0 : Int) < MAXBACKMS := by decide
  have hone : 2 ^ (0 : UInt8).toNat * trip s = trip s := Int.one_mul _
  have htrip : trip s ≤ scaled s := le_mul_of_one_le_left (by linarith [h.trip_pos]) (one_le_pow₀ (by decide))
  refine ⟨{ h with backedoff_nonneg := le_refl 0, backedoff_lt := hlt, scaled_le := ?_ }, ?_⟩
  · change 2 ^ (0 : UInt8).toNat * trip s ≤ most * 2 ^ 0
    rw [hone]
    exact h.trip_le.trans (by decide)
  · change _ ∨ _ ∨ min 1280 (2 ^ (0 : UInt8).toNat * trip s / 50) ≤ s.timer.start ∨
      (2 * (2 ^ (0 : UInt8).toNat * trip s) ≤ most * 2 ^ 0 ∧ 2 * trip s ≤ most)
    rw [hone]
    rcases h.paced with hstate | hstate | hpaced | ⟨-, hroom⟩
    · exact Or.inl hstate
    · exact Or.inr (Or.inl hstate)
    · have hless : trip s / 50 ≤ scaled s / 50 := Int.ediv_le_ediv (by decide) htrip
      exact Or.inr (Or.inr (Or.inl ((min_le_min_left _ hless).trans hpaced)))
    · exact Or.inr (Or.inr (Or.inr ⟨hroom.trans (by decide), hroom⟩))

theorem acked (h : Timely s) : Timely { s with synack := true } := { h with }

/-- More time backed off is more room. -/
theorem extend (h : Timely s) {n : Int} (hle : s.backedoff ≤ n) (hlt : n < MAXBACKMS) :
    Timely { s with backedoff := n } := by
  have hnonneg := h.backedoff_nonneg
  have hpow : most * 2 ^ ceilings s ≤ most * 2 ^ (n / 64000).toNat := by
    refine Int.mul_le_mul_of_nonneg_left (pow_le_pow_right₀ (by decide) ?_) (by decide)
    rw [ceilings]
    omega
  refine ⟨{ h with
    backedoff_nonneg := hnonneg.trans hle
    backedoff_lt := hlt
    scaled_le := h.scaled_le.trans hpow }, ?_⟩
  rcases h.paced with hstate | hstate | hpaced | ⟨hroom, htrip⟩
  · exact Or.inl hstate
  · exact Or.inr (Or.inl hstate)
  · exact Or.inr (Or.inr (Or.inl hpaced))
  · exact Or.inr (Or.inr (Or.inr ⟨hroom.trans hpow, htrip⟩))

end Timely

theorem tcptimeout_spec (h : Timely s) (hopen : s.state ≠ .Closed) (r : Round) :
    ∃ t, tcptimeout r { s with timer.state := .TcptimerDONE } = some t ∧ Inv t := by
  by_cases hwait : s.state = .Time_wait
  · refine ⟨localclose { s with timer.state := .TcptimerDONE }, ?_, Or.inl rfl⟩
    rw [tcptimeout, hwait]
  rw [tcptimeout]
  split
  next hstate => exact absurd hstate hwait
  next hstate => exact absurd hstate hopen
  dsimp only
  by_cases hback : s.backedoff + s.timer.start * MSPTICK ≥ if s.state = .Syn_sent then MAXBACKMS / 2 else MAXBACKMS
  · rw [if_pos hback]
    exact ⟨_, rfl, Or.inl rfl⟩
  · rw [if_neg hback]
    have hlt : s.backedoff + s.timer.start * MSPTICK < MAXBACKMS := by
      refine lt_of_lt_of_le (not_le.mp hback) ?_
      split <;> decide
    have hset := h.doubled hwait hopen hlt
    have hsent := hset.set.kept (kept_tcprxmit r _)
    have hptr (t : Tcpctl) : Kept t { t with snd.ptr := t.snd.una } := { Kept.refl t with }
    refine ⟨_, congrArg (Option.map _) hset.exact, Or.inr ?_⟩
    dsimp only
    split
    · exact (hsent.kept (hptr _)).kept ⟨Or.inl rfl, rfl, rfl, rfl, id, rfl, Or.inl rfl, rfl, rfl, rfl⟩
    · exact hsent.kept (hptr _)

/-- A new estimate, of a round trip that is not too long. -/
theorem estimate_spec (h : Bounded s) (hbackoff : s.backoff = 0) (hbackedoff : s.backedoff = 0) {rtt : Int}
    (hlo : 50 ≤ rtt) (hhi : rtt ≤ 1677700) : ∃ t, estimate rtt s = some t ∧ Bounded t := by
  have hsrtt := h.srtt_lo
  have hsrtt' := h.srtt_hi
  have hmdev := h.mdev_lo
  have hmdev' := h.mdev_hi
  rw [slowest] at hsrtt' hmdev'
  have key (a b : Int) (ha : 1 ≤ a) (ha' : a ≤ 8 * slowest) (hb : 1 ≤ b) (hb' : b ≤ 4 * slowest) :
      Bounded { s with srtt := a, mdev := b } := by
    have htrip : 1 ≤ b + a / 8 + 50 := by omega
    refine { h with
      srtt_lo := le_trans (by decide) ha, srtt_hi := ha', mdev_lo := le_trans (by decide) hb, mdev_hi := hb'
      trip_pos := htrip, scaled_le := ?_ }
    change 2 ^ s.backoff.toNat * (b + a / 8 + 50) ≤ most * 2 ^ (s.backedoff / 64000).toNat
    rw [hbackoff, hbackedoff]
    change 1 * (b + a / 8 + 50) ≤ (2 ^ 23 - 1) * 1
    rw [slowest] at ha' hb'
    omega
  rw [estimate]
  split
  · rw [LOGAGAIN, LOGDGAIN, Int.shiftLeft_eq, Int.shiftLeft_eq, int_eq (by omega) (by omega), int_eq (by omega) (by omega)]
    have hslowest : slowest = 1677711 := rfl
    exact ⟨_, rfl, key _ _ (by omega) (by omega) (by omega) (by omega)⟩
  · have hpos (x : Int) : 1 ≤ if x ≤ 0 then 1 else x := by split_ifs <;> omega
    have hle {x y : Int} (hone : 1 ≤ y) (hxy : x ≤ y) : (if x ≤ 0 then 1 else x) ≤ y := by split_ifs <;> omega
    rw [srtt_shift, mdev_shift, int_eq (by omega) (by omega)]
    dsimp only [bind_eq_bind, bind_some]
    rw [int_eq (by omega) (by omega), bind_some, int_eq (by omega) (by omega), bind_some,
      int_eq (by omega) (by omega), bind_some]
    have hslowest : slowest = 1677711 := rfl
    exact ⟨_, rfl, key _ _ (hpos _) (hle (by decide) (by omega)) (hpos _) (hle (by decide) (by omega))⟩

theorem adjust_spec (h : Timely s) {seg : Segment} (hshort : s.rtt_timer.state = .TcptimerON →
    seq_ge seg.ack s.rttseq = true → s.retran = false → elapsed s ≤ 33554) :
    ∃ t, adjust seg s = some t ∧ Timely t := by
  have hhalt : Kept s { s with rtt_timer := tcphalt s.rtt_timer } :=
    { Kept.refl s with rtt_timer := Or.inr rfl }
  rw [adjust]
  split
  next hmeasure =>
    dsimp only
    split
    · exact ⟨_, rfl, h.kept hhalt⟩
    next hretran =>
      have hlo := h.measured hmeasure.1
      have hhi := hshort hmeasure.1 hmeasure.2 (Bool.not_eq_true _ ▸ hretran)
      rw [elapsed] at hhi
      have hreset := (h.kept hhalt).reset s.snd s.retran
      obtain ⟨rtt, hrtt⟩ : ∃ rtt, rtt = if s.rtt_timer.start - s.rtt_timer.count = 0 then 1
          else s.rtt_timer.start - s.rtt_timer.count := ⟨_, rfl⟩
      have hrange : 1 ≤ rtt ∧ rtt ≤ 33554 := by
        rw [hrtt]
        split_ifs <;> omega
      obtain ⟨t, ht, hbounded⟩ := @estimate_spec _ hreset.toBounded rfl rfl (rtt * 50) (by omega) (by omega)
      have hint : int (rtt * 50) = some (rtt * 50) := int_eq (by omega) (by omega)
      refine ⟨{ t with timer.start := rto t }, ?_, hbounded.set⟩
      rw [hrtt] at hint ht
      refine (congrArg (Option.bind · _) hint).trans ?_
      refine (congrArg (Option.bind · tcpsettimer) ht).trans ?_
      rw [bind_some]
      exact hbounded.exact
  next => exact ⟨s, rfl, h⟩

theorem done_spec (h : Timely s) (r : Round) (seg : Segment) : Timely (done r seg s) := by
  have hacked : Timely { s with snd.una := seg.ack } := { h with }
  have hsent : ∀ t, Timely t → Timely (if t.snd.recovery then tcprxmit r t else t) := by
    intro t ht
    split
    · exact ht.kept (kept_tcprxmit r t)
    · exact ht
  have hgo (t : Tcpctl) : Kept t { t with timer := tcpgo t.timer } :=
    { Kept.refl t with start := tcpgo_start _ }
  have hhalt (t : Tcpctl) : Kept t { t with timer := tcphalt t.timer } := { Kept.refl t with }
  rw [done]
  dsimp only
  refine Timely.reset ?_ _ _
  have hrest := hsent _ hacked
  split_ifs at hrest ⊢
  all_goals first
    | exact hrest.kept (hgo _)
    | exact hrest.kept (hhalt _)
    | exact hrest

theorem update_spec (h : Timely s) {r : Round} {seg : Segment} (hsound : ∀ r', Sound s (.ack r r' seg)) (r' : Round) :
    ∃ t, update r r' seg s = some t ∧ Timely t := by
  rw [update]
  split
  · exact ⟨s, rfl, h⟩
  next hfresh =>
    obtain ⟨hshut, hshort⟩ := hsound r' (Bool.not_eq_true _ ▸ hfresh)
    have hkept := kept_prepare r seg s
    have hprepared := h.kept hkept
    dsimp only
    split_ifs with hold hclosed hsyn
    · refine ⟨_, rfl, hprepared.extend ?_ (by norm_num [MAXBACKMS])⟩
      rw [hkept.backedoff]
      exact hshut hclosed
    · exact ⟨_, rfl, hprepared⟩
    · exact ⟨_, rfl, done_spec hprepared.acked r' seg⟩
    · have hkept' := hkept.trans (kept_congestion seg _)
      have hmeasured : (congestion seg (prepare r seg s)).rtt_timer.state = .TcptimerON →
          seq_ge seg.ack (congestion seg (prepare r seg s)).rttseq = true →
          (congestion seg (prepare r seg s)).retran = false →
          elapsed (congestion seg (prepare r seg s)) ≤ 33554 := by
        intro hon hge hretran
        have htimer : (congestion seg (prepare r seg s)).rtt_timer = s.rtt_timer := by
          rcases hkept'.rtt_timer with htimer | hoff
          · exact htimer
          · cases hoff.symm.trans hon
        have hunmarked : s.retran = false := by
          by_contra hmarked
          cases hretran.symm.trans (hkept'.retran (Bool.not_eq_false _ ▸ hmarked))
        rw [hkept.una, Bool.not_eq_false] at hold
        rw [elapsed, htimer]
        rw [htimer] at hon
        rw [hkept'.rttseq] at hge
        exact hshort ⟨hon, hge, hunmarked, hold⟩
      obtain ⟨t, ht, htimely⟩ := adjust_spec (h.kept hkept') hmeasured
      exact ⟨_, by rw [ht, map_some], done_spec htimely r' seg⟩

/-- The estimates of the SYN's round trip. -/
theorem trip_synack (s : Tcpctl) (d : Int) (t : Tcptimer) :
    trip { s with srtt := d * 2 ^ 3, mdev := d * 2 ^ 2, rtt_timer := t } = 5 * d + 50 := by
  rw [trip]
  dsimp only
  omega

theorem tcpsynackrtt_spec (h : Timely s) {now : UInt32} (hsound : Sound s (.synack now)) :
    ∃ t, tcpsynackrtt now s = some t ∧ Timely t := by
  obtain ⟨hlo, hhi, hroom⟩ := hsound
  rw [tcpsynackrtt, LOGAGAIN, LOGDGAIN]
  generalize toInt (now - s.sndsyntime) = d at hlo hhi hroom ⊢
  have hslowest : slowest = 1677711 := rfl
  have hmost : most = 2 ^ 23 - 1 := rfl
  have htrip := trip_synack s d (tcphalt s.rtt_timer)
  have hscaled : scaled { s with srtt := d * 2 ^ 3, mdev := d * 2 ^ 2, rtt_timer := tcphalt s.rtt_timer } =
      2 ^ s.backoff.toNat * (5 * d + 50) := by rw [scaled, htrip]
  have hdouble : 2 * (2 ^ s.backoff.toNat * (5 * d + 50)) ≤ most * 2 ^ ceilings s := by
    rw [pow_succ, Int.mul_comm _ 2, Int.mul_assoc] at hroom
    exact hroom
  have hnonneg : 0 ≤ 2 ^ s.backoff.toNat * (5 * d + 50) :=
    Int.mul_nonneg (pow_nonneg (by decide) _) (by omega)
  dsimp only [bind_eq_bind]
  rw [Int.shiftLeft_eq, Int.shiftLeft_eq, int_eq (by omega) (by omega), bind_some,
    int_eq (by omega) (by omega), bind_some]
  refine ⟨_, rfl, ⟨?_, ?_, ?_, ?_, ?_, h.start_nonneg, h.backedoff_nonneg, h.backedoff_lt, ?_, nofun⟩, ?_⟩
  · change -72 ≤ d * 2 ^ 3
    omega
  · change d * 2 ^ 3 ≤ 8 * slowest
    omega
  · change -36 ≤ d * 2 ^ 2
    omega
  · change d * 2 ^ 2 ≤ 4 * slowest
    omega
  · rw [htrip]
    omega
  · rw [hscaled]
    exact le_trans (by omega) hdouble
  · rw [hscaled, htrip]
    exact Or.inr (Or.inr (Or.inr ⟨hdouble, by omega⟩))

theorem starttimers_spec (h : Timely s) (retransmit full : Bool) : Timely (starttimers retransmit full s) := by
  have hstarted : ∀ t, Timely t → Timely { t with rtt_timer := tcpgo t.rtt_timer, rttseq := t.snd.ptr } := by
    intro t ht
    refine ⟨{ ht with measured := ?_ }, ht.paced⟩
    rw [tcpgo]
    split
    · exact ht.measured
    · exact fun _ => le_refl _
  have hgo : Timely (if s.timer.state = .TcptimerON then s else { s with timer := tcpgo s.timer }) := by
    split
    · exact h
    · exact h.kept { Kept.refl s with start := tcpgo_start _ }
  rw [starttimers]
  split_ifs at hgo ⊢
  all_goals first
    | exact hstarted _ hgo
    | exact hgo

theorem tcpoutput_spec (h : Timely s) (r : Round) : Inv (tcpoutput false r s) := by
  have hsent (ptr nxt : UInt32) : Timely { s with snd.ptr := ptr, snd.nxt := nxt } :=
    h.kept { Kept.refl s with }
  have hstarted : ∀ t, Timely t → Timely (if r.ssize = 0 then t else starttimers false r.full t) := by
    intro t ht
    split
    · exact ht
    · exact starttimers_spec ht false r.full
  rw [tcpoutput]
  split
  iterate 3 exact Or.inr h
  dsimp only
  split
  · exact Or.inr (hstarted _ (hsent _ _))
  · exact Or.inl rfl

theorem tick_spec (h : Timely s) : Timely { s with rtt_timer := tick s.rtt_timer } := by
  refine ⟨{ h with measured := ?_ }, h.paced⟩
  rw [tick]
  split
  next hon =>
    intro
    have hle := h.measured hon
    dsimp only
    omega
  next => exact h.measured

/-- A state that the connection can go on from leaves the timer as it is paced. -/
theorem setstate_spec (h : Timely s) (hopen : s.state ≠ .Closed) (hwait : s.state ≠ .Time_wait) (newstate : State) :
    Timely { s with state := newstate } := by
  refine ⟨{ h with }, ?_⟩
  rcases h.paced with hstate | hstate | hpaced
  · exact absurd hstate hwait
  · exact absurd hstate hopen
  · exact Or.inr (Or.inr hpaced)

theorem timewait_spec (h : Timely s) : Timely { s with
    state := .Time_wait
    rtt_timer := tcphalt s.rtt_timer
    timer := tcpgo { s.timer with start := MSL2 * (1000 / MSPTICK) } } := by
  refine ⟨{ h with start_nonneg := ?_, measured := nofun }, Or.inl rfl⟩
  rw [tcpgo_start]
  change 0 ≤ MSL2 * (1000 / MSPTICK)
  decide

theorem tcpclose_spec (h : Timely s) : Inv (tcpclose s) := by
  have hfin : Kept s { s with snd.nxt := s.snd.nxt + 1 } := { Kept.refl s with }
  rw [tcpclose]
  split
  iterate 3 exact Or.inl rfl
  iterate 2 next hstate =>
    exact Or.inr (setstate_spec (h.kept hfin) (by simp [hstate]) (by simp [hstate]) .Finwait1)
  next hstate => exact Or.inr (setstate_spec (h.kept hfin) (by simp [hstate]) (by simp [hstate]) .Last_ack)
  next => exact Or.inr h

theorem timely_inittcpctl : Timely inittcpctl where
  srtt_lo := by decide
  srtt_hi := by decide
  mdev_lo := by decide
  mdev_hi := by decide
  trip_pos := by decide
  start_nonneg := by decide
  backedoff_nonneg := by decide
  backedoff_lt := by decide
  scaled_le := by decide
  measured := nofun
  paced := Or.inr (Or.inl rfl)

theorem Opened.timely (h : Opened s) : Timely s := by
  have hroom : 2 * scaled inittcpctl ≤ most * 2 ^ ceilings inittcpctl ∧ 2 * trip inittcpctl ≤ most := by decide
  have hinit := timely_inittcpctl
  rcases h with ⟨iss, now, rfl⟩ | ⟨lp, seg, rfl⟩
  all_goals exact ⟨{ hinit with }, Or.inr (Or.inr (Or.inr hroom))⟩

/-- **The step lemma.**  A sound step of an open connection overflows nothing. -/
theorem Timely.step (h : Timely s) (hopen : s.state ≠ .Closed) {op : Op} (henabled : enabled s op = true)
    (hsound : Sound s op) : ∃ t, exec s op = some t ∧ Inv t := by
  cases op with
  | timeout r => exact tcptimeout_spec h hopen r
  | ack r r' seg =>
    obtain ⟨t, ht, htimely⟩ := update_spec h (fun _ => hsound) r'
    exact ⟨t, ht, Or.inr htimely⟩
  | synack now =>
    obtain ⟨t, ht, htimely⟩ := tcpsynackrtt_spec h hsound
    exact ⟨t, ht, Or.inr htimely⟩
  | output r => exact ⟨_, rfl, tcpoutput_spec h r⟩
  | tick => exact ⟨_, rfl, Or.inr (tick_spec h)⟩
  | halt => exact ⟨_, rfl, Or.inr (h.kept ⟨Or.inl rfl, rfl, rfl, rfl, id, rfl, Or.inr rfl, rfl, rfl, rfl⟩)⟩
  | setstate newstate =>
    have hwait : s.state ≠ .Time_wait := by
      rintro hstate
      simp [enabled, hstate] at henabled
    exact ⟨_, rfl, Or.inr (setstate_spec h hopen hwait newstate)⟩
  | timewait => exact ⟨_, rfl, Or.inr (timewait_spec h)⟩
  | restart => exact ⟨_, rfl, Or.inr (h.kept ⟨Or.inl rfl, rfl, rfl, rfl, id, tcpgo_start _, Or.inl rfl, rfl, rfl, rfl⟩)⟩
  | close => exact ⟨_, rfl, tcpclose_spec h⟩

/-- A closed connection stays closed. -/
theorem closed_step (hclosed : s.state = .Closed) {op : Op} (henabled : enabled s op = true)
    (hstep : exec s op = some t) : t.state = .Closed := by
  cases op with
  | timeout r =>
    have hidle : tcptimeout r { s with timer.state := .TcptimerDONE } = some { s with timer.state := .TcptimerDONE } := by
      rw [tcptimeout, hclosed]
    cases hidle.symm.trans hstep
    exact hclosed
  | close =>
    rw [exec, tcpclose, hclosed] at hstep
    cases hstep
    rfl
  | _ => simp [enabled, hclosed] at henabled

theorem inv_step {op : Op} (h : Inv s) (hstep : SoundStep s op t) : Inv t := by
  obtain ⟨hact, hsound⟩ := hstep
  rw [Step, act] at hact
  split at hact
  next henabled =>
    by_cases hclosed : s.state = .Closed
    · exact Or.inl (closed_step hclosed henabled hact)
    · obtain ⟨u, hu, hinv⟩ := (h.resolve_left hclosed).step hclosed henabled hsound
      cases hu.symm.trans hact
      exact hinv
  next => cases hact

/-- **The timeout is what the integers say.**  In every run of sound steps, `tcpsettimer` computes
`rto` in every state of the open connection, and no step overflows, so that its own call of
`tcpsettimer` does too. -/
theorem tcpsettimer_exact (h : Reach Opened SoundStep s) (hopen : s.state ≠ .Closed) :
    Exact s ∧ ∀ op, enabled s op = true → Sound s op → (act s op).isSome = true := by
  have hinv : Inv s := h.invariant Inv (fun _ h => Or.inr h.timely) (fun _ _ _ => inv_step)
  have htimely := hinv.resolve_left hopen
  refine ⟨htimely.exact, fun op henabled hsound => ?_⟩
  obtain ⟨t, ht, -⟩ := htimely.step hopen henabled hsound
  rw [act, if_pos henabled, ht]
  rfl

theorem exists_of_run {step : Tcpctl → Op → Tcpctl → Prop} {tcb : Tcpctl} {l : List Op} {p : Tcpctl → Prop}
    [DecidablePred p] (h : Opened tcb) (hstep : ∀ s op t, op ∈ l → act s op = some t → step s op t)
    (hrun : (StepSystem.exec act tcb l).any (p ·) = true) : ∃ s, Reach Opened step s ∧ p s := by
  obtain ⟨s, hs, htest⟩ := (Reach.start h).exists_of_exec hstep hrun
  exact ⟨s, hs, of_decide_eq_true htest⟩

/-- A round that sends a byte. -/
def probe : Round := ⟨1, false, true⟩

/-- A SYN that is sent again twice. -/
theorem tcpsettimer_exact_twice : ∃ s, Reach Opened SoundStep s ∧ s.backoff = 2 ∧ rto s = 44 ∧ Exact s := by
  obtain ⟨s, hs, hopen, hbackoff, hrto⟩ := @exists_of_run SoundStep (tcpstart 0 0)
    [.output probe, .timeout probe, .timeout probe] (fun s => s.state ≠ .Closed ∧ s.backoff = 2 ∧ rto s = 44) _
    (Or.inl ⟨0, 0, rfl⟩) (fun s op t hop hact => ⟨hact, by fin_cases hop <;> trivial⟩) (by decide +kernel)
  exact ⟨s, hs, hbackoff, hrto, (tcpsettimer_exact hs hopen).1⟩

/-- A round that sends nothing. -/
def quiet : Round := ⟨0, false, true⟩

/-- The peer closes its window, and for 21 timeouts acks each probe. -/
def closedwindow : List Op :=
  [.output probe, .ack quiet quiet ⟨1, 1000, false⟩, .synack 100, .setstate .Established,
    .output probe, .ack quiet quiet ⟨2, 0, false⟩, .output probe] ++
  (List.range 21).flatMap fun _ => [.timeout probe, .ack quiet quiet ⟨2, 0, false⟩]

/-- The ack of a SYN sent twice arrives 100 ms after the second, and then nothing. -/
def resentsyn : List Op :=
  [.synack 850, .setstate .Established, .output probe] ++ List.replicate 21 (.timeout probe)

/-- **The shift overflows** at the next timeout of two connections: one has been sending into a
closed window, with an estimate of 550 ms, and the other has an estimate below zero. -/
theorem shift_overflows :
    (∃ s, Reach Opened Step s ∧ s.state = .Established ∧ s.snd.wnd = 0 ∧ trip s = 550 ∧
      enabled s (.timeout probe) = true ∧ tcpsettimer { s with backoff := s.backoff + 1 } = none ∧
      act s (.timeout probe) = none) ∧
    ∃ s, Reach Opened Step s ∧ s.state = .Established ∧ trip s = -700 ∧
      enabled s (.timeout probe) = true ∧ tcpsettimer { s with backoff := s.backoff + 1 } = none ∧
      act s (.timeout probe) = none :=
  ⟨@exists_of_run Step _ closedwindow _ _ (Or.inl ⟨0, 0, rfl⟩) (fun _ _ _ _ => id) (by decide +kernel),
    @exists_of_run Step _ resentsyn _ _ (Or.inr ⟨⟨0, 750, 1⟩, ⟨1, 1000, false⟩, rfl⟩) (fun _ _ _ _ => id) (by decide +kernel)⟩

end Rto
