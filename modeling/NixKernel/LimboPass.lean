import NixKernel.LimboRun

/-!
# A pass of `limborexmit`

A pass is to look at every call once, in the order of the table.  The loop stays at a call that it
neither answers nor takes out, and it ends when it has made as many rounds as there are calls left, so
it does so only if the calls that are due come first and few of them leave.
-/

namespace TcpLimbo

open HeapChain List Option

open Function (update update_self update_of_ne update_eq_self update_idem)

variable {s s' : Tcppriv} {L : Nat → List (Addr × Limbo)} {now : UInt32} {send : Nat → Option Sent} {v w : Limbo}
  {a : Addr} {l : List (Addr × Limbo)} {n : Int} {i : Nat}

/-- "now - lp->lastsend < (lp->rexmits+1)*SYNACK_RXTIMER" does not hold. -/
def Due (now : UInt32) (v : Limbo) : Prop := ¬now - v.lastsend < (v.rexmits.toUInt32 + 1) * SYNACK_RXTIMER

instance : Decidable (Due now v) := inferInstanceAs (Decidable (¬_))

/-- A call that has been found due once more. -/
def Limbo.again (v : Limbo) : Limbo := { v with rexmits := v.rexmits + 1 }

/-- What becomes of one call, with `nlimbo` calls in the table. -/
def fate (now : UInt32) (nlimbo : Int) (send : Option Sent) (v : Limbo) : Option Limbo :=
  if Due now v then
    if 5 < v.again.rexmits then none
    else if 100 < nlimbo then some v.again
    else send.map fun t => t.stamp v.again
  else some v

/-- Every call is looked at once, `i` of them before. -/
def sweep (now : UInt32) (send : Nat → Option Sent) : List (Addr × Limbo) → Int → Nat → List (Addr × Limbo)
  | [], _, _ => []
  | (a, v) :: l, nlimbo, i =>
    match fate now nlimbo (send i) v with
    | none => sweep now send l (nlimbo - 1) (i + 1)
    | some v => (a, v) :: sweep now send l nlimbo (i + 1)

/-- The calls in the order of the table. -/
def calls (L : Nat → List (Addr × Limbo)) : List (Addr × Limbo) := (List.range NLHT).flatMap L

/-- A pass looks at every call exactly once. -/
def OncePass (s : Tcppriv) (L : Nat → List (Addr × Limbo)) (now : UInt32) (send : Nat → Option Sent) : Prop :=
  ∃ s' L', s.limborexmit now send = some s' ∧ s'.Holds L' ∧ calls L' = sweep now send (calls L) s.nlimbo 0

/-- How many of the calls are taken out when they are all due and not kept, the first being the one
after `i` rounds. -/
def gone (send : Nat → Option Sent) : Nat → List (Addr × Limbo) → Nat
  | _, [] => 0
  | i, (_, v) :: l => (if 5 < v.again.rexmits ∨ (send i).isNone then 1 else 0) + gone send (i + 1) l

/-- The call `v` behind `pre` is reached before the rounds are used up; and if it is kept for an attack,
then it is the last that is due, and is not looked at again as long as it is. -/
def InTime (now : UInt32) (send : Nat → Option Sent) (nlimbo : Int) (i : Nat) (pre : List (Addr × Limbo)) (v : Limbo)
    (post : List (Addr × Limbo)) : Prop :=
  i + pre.length < nlimbo - gone send i pre ∧
    (¬5 < v.again.rexmits → 100 < nlimbo - gone send i pre →
      post = [] ∧ (i + pre.length + 1 < nlimbo - gone send i pre → ¬Due now v.again))

/-- The calls that are due, `ds`, come first and are reached in time. -/
def Smooth (now : UInt32) (send : Nat → Option Sent) (l : List (Addr × Limbo)) (nlimbo : Int) (i : Nat) : Prop :=
  ∃ ds us, l = ds ++ us ∧ (∀ c ∈ ds, Due now c.2) ∧ (∀ c ∈ us, ¬Due now c.2) ∧
    ∀ pre a v post, ds = pre ++ (a, v) :: post → InTime now send nlimbo i pre v post

/-- The rounds of `limborexmit` over the calls: those left, `nlimbo` and `seen` behind. -/
def rounds (now : UInt32) (send : Nat → Option Sent) : List (Addr × Limbo) → Int → Nat →
    List (Addr × Limbo) × Int × Nat
  | [], nlimbo, seen => ([], nlimbo, seen)
  | (a, v) :: l, nlimbo, seen =>
    if seen < nlimbo then
      if Due now v then
        if 5 < v.again.rexmits then rounds now send l (nlimbo - 1) (seen + 1)
        else if 100 < nlimbo then rounds now send ((a, v.again) :: l) nlimbo (seen + 1)
        else
          match send seen with
          | none => rounds now send l (nlimbo - 1) (seen + 1)
          | some t =>
            let r := rounds now send l nlimbo (seen + 1)
            ((a, t.stamp v.again) :: r.1, r.2)
      else rounds now send ((a, v) :: l) nlimbo (seen + 1)
    else ((a, v) :: l, nlimbo, seen)
termination_by _ nlimbo seen => (nlimbo - seen).toNat
decreasing_by all_goals omega

/-- Nothing is done when the rounds are used up. -/
theorem rounds_over (h : ¬(i : Int) < n) : rounds now send l n i = (l, n, i) := by
  cases l with
  | nil => rw [rounds]
  | cons c l =>
    obtain ⟨a, v⟩ := c
    rw [rounds, if_neg h]

/-- **A call that is not due is looked at until the end.** -/
theorem rounds_stuck (h : ¬Due now v) : (rounds now send ((a, v) :: l) n i).1 = (a, v) :: l := by
  generalize hm : (n - i).toNat = m
  induction m generalizing i with
  | zero => rw [rounds_over (by omega)]
  | succ m ih =>
    rw [rounds]
    split
    · exact ih (by omega)
    · rfl

theorem rounds_cons (now : UInt32) (send : Nat → Option Sent) (a : Addr) (v : Limbo) (l : List (Addr × Limbo)) {n : Int}
    {i : Nat} (h : (i : Int) < n) : rounds now send ((a, v) :: l) n i =
      if Due now v then
        if 5 < v.again.rexmits then rounds now send l (n - 1) (i + 1)
        else if 100 < n then rounds now send ((a, v.again) :: l) n (i + 1)
        else
          match send i with
          | none => rounds now send l (n - 1) (i + 1)
          | some t => ((a, t.stamp v.again) :: (rounds now send l n (i + 1)).1, (rounds now send l n (i + 1)).2)
      else rounds now send ((a, v) :: l) n (i + 1) := by
  rw [rounds, if_pos h]

/-- The rounds go on from one part of the table to the next. -/
theorem rounds_append (r : List (Addr × Limbo)) : rounds now send (l ++ r) n i =
    ((rounds now send l n i).1 ++ (rounds now send r (rounds now send l n i).2.1 (rounds now send l n i).2.2).1,
      (rounds now send r (rounds now send l n i).2.1 (rounds now send l n i).2.2).2) := by
  generalize hm : (n - i).toNat = m
  induction m using Nat.strong_induction_on generalizing l n i with
  | _ m ih =>
    by_cases hseen : (i : Int) < n
    · cases l with
      | nil =>
        rw [rounds]
        rfl
      | cons c l =>
        obtain ⟨a, v⟩ := c
        rw [cons_append, rounds_cons now send a v (l ++ r) hseen, rounds_cons now send a v l hseen]
        split
        · split
          · exact ih (n - 1 - (i + 1 : Nat)).toNat (by omega) rfl
          · split
            · rw [← cons_append]
              exact ih (n - (i + 1 : Nat)).toNat (by omega) rfl
            · split
              · exact ih (n - 1 - (i + 1 : Nat)).toNat (by omega) rfl
              · rw [ih (n - (i + 1 : Nat)).toNat (by omega) rfl]
                rfl
        · rw [← cons_append]
          exact ih (n - (i + 1 : Nat)).toNat (by omega) rfl
    · rw [rounds_over hseen, rounds_over hseen, rounds_over hseen]

/-- The inner loop does the rounds over the rest of its chain. -/
theorem Tcppriv.Holds.rexmitChain_rounds {h : Nat} {pre post : List (Addr × Limbo)} (hs : s.Holds L) (hh : h < NLHT)
    (hL : L h = pre ++ post) (now : UInt32) (send : Nat → Option Sent) (seen : Nat) :
    ∃ s', s.rexmitChain now send seen (behind (.head h) pre) =
        some (s', (rounds now send post s.nlimbo seen).2.2) ∧
      s'.Holds (update L h (pre ++ (rounds now send post s.nlimbo seen).1)) ∧
      s'.nlimbo = (rounds now send post s.nlimbo seen).2.1 := by
  generalize hn : (s.nlimbo - seen).toNat = n
  induction n using Nat.strong_induction_on generalizing s L pre post seen with
  | _ n ih =>
    have hc := hs.chain h hh
    rw [hL] at hc
    have hload := Tcppriv.load_behind (l := .head h) rfl hc
    rw [Tcppriv.rexmitChain, hload]
    have hsame : ∀ post, L h = pre ++ post → s.Holds (update L h (pre ++ post)) := fun post hL => by
      rw [← hL, update_eq_self]
      exact hs
    cases post with
    | nil =>
      rw [rounds]
      exact ⟨s, rfl, hsame [] hL, rfl⟩
    | cons c post =>
      obtain ⟨a, v⟩ := c
      obtain ⟨m, hcell⟩ := Seg.lookup (hs.chain h hh) (a := a) (v := v) (by simp [hL])
      simp only [List.head?_cons, map_some, bind_eq_bind, bind_some, hcell]
      rw [rounds]
      by_cases hseen : seen < s.nlimbo
      · rw [if_pos hseen, if_pos hseen]
        by_cases hdue : now - v.lastsend < (v.rexmits.toUInt32 + 1) * SYNACK_RXTIMER
        · rw [if_pos hdue, if_neg (show ¬Due now v from not_not.mpr hdue)]
          exact ih _ (by omega) hs hL (seen + 1) rfl
        · rw [if_neg hdue, if_pos (show Due now v from hdue)]
          have hset := hs.set (f := Limbo.again) hh hL rfl
          have hL' := update_self h (pre ++ (a, v.again) :: post) L
          obtain ⟨t, hdiscard, hheld, hcount⟩ := hset.discard hh hL'
          rw [update_idem] at hheld
          rw [Tcppriv.set_nlimbo] at hcount
          have hdropped : ∃ s', t.rexmitChain now send (seen + 1) (behind (.head h) pre) =
                some (s', (rounds now send post (s.nlimbo - 1) (seen + 1)).2.2) ∧
              s'.Holds (update L h (pre ++ (rounds now send post (s.nlimbo - 1) (seen + 1)).1)) ∧
              s'.nlimbo = (rounds now send post (s.nlimbo - 1) (seen + 1)).2.1 := by
            have hrest := ih _ (by omega) hheld (update_self ..) (seen + 1) rfl
            rw [hcount, update_idem] at hrest
            exact hrest
          have hagain : (fun v : Limbo => { v with rexmits := v.rexmits + 1 }) = Limbo.again := rfl
          rw [hagain, Tcppriv.set_nlimbo]
          by_cases hspent : 5 < v.rexmits + 1
          · rw [if_pos hspent, if_pos (show 5 < v.again.rexmits from hspent)]
            rw [hdiscard]
            exact hdropped
          · rw [if_neg hspent, if_neg (show ¬5 < v.again.rexmits from hspent)]
            have hnlimbo : (s.set a Limbo.again).nlimbo = s.nlimbo := rfl
            by_cases hattack : 100 < s.nlimbo
            · rw [if_pos hattack, if_pos hattack]
              have hrest := ih _ (by rw [hnlimbo]; omega) hset hL' (seen + 1) rfl
              rw [hnlimbo, update_idem] at hrest
              exact hrest
            · rw [if_neg hattack, if_neg hattack]
              cases send seen with
              | none =>
                dsimp only
                rw [hdiscard]
                exact hdropped
              | some u =>
                dsimp only
                have hstamp := hset.set (f := u.stamp) hh hL' rfl
                rw [update_idem] at hstamp
                have hnext : Slot.next a = behind (.head h) (pre ++ [(a, u.stamp v.again)]) := behind_concat.symm
                have hcons := update_self h (pre ++ (a, u.stamp v.again) :: post) L
                have hrest := ih _ (by rw [Tcppriv.set_nlimbo, hnlimbo]; omega) hstamp
                  (hcons.trans (append_cons ..)) (seen + 1) rfl
                rw [Tcppriv.set_nlimbo, hnlimbo, update_idem, ← hnext, append_assoc] at hrest
                exact hrest
      · rw [if_neg hseen, if_neg hseen]
        exact ⟨s, rfl, hsame _ hL, rfl⟩

theorem Tcppriv.Holds.rexmitFrom_rounds (hs : s.Holds L) (now : UInt32) (send : Nat → Option Sent) {ks : List Nat}
    (hlt : ∀ h ∈ ks, h < NLHT) (hnodup : ks.Nodup) (seen : Nat) :
    ∃ s' L', Tcppriv.rexmitFrom now send ks s seen = some s' ∧ s'.Holds L' ∧
      ks.flatMap L' = (rounds now send (ks.flatMap L) s.nlimbo seen).1 ∧ ∀ k, k ∉ ks → L' k = L k := by
  induction ks generalizing s L seen with
  | nil => exact ⟨s, L, rfl, hs, by rw [flatMap_nil, rounds], fun _ _ => rfl⟩
  | cons h ks ih =>
    obtain ⟨hh, hnodup⟩ := nodup_cons.mp hnodup
    rw [Tcppriv.rexmitFrom]
    split
    · obtain ⟨t, hrun, hheld, hcount⟩ :=
        @Tcppriv.Holds.rexmitChain_rounds _ _ _ [] _ hs (hlt h mem_cons_self) rfl now send seen
      obtain ⟨s', L', hrest, hheld', hcalls, hother⟩ :=
        ih hheld (fun k hk => hlt k (mem_cons_of_mem h hk)) hnodup (rounds now send (L h) s.nlimbo seen).2.2
      rw [behind_nil] at hrun
      refine ⟨s', L', by simp [hrun, hrest], hheld', ?_, fun k hk => ?_⟩
      · have hsame : ks.flatMap (update L h ([] ++ (rounds now send (L h) s.nlimbo seen).1)) = ks.flatMap L := by
          refine flatMap_congr fun k hk => update_of_ne (fun heq : k = h => hh (heq ▸ hk)) _ _
        rw [hsame, hcount] at hcalls
        rw [flatMap_cons, flatMap_cons, rounds_append, hcalls, hother h hh, update_self, nil_append]
      · rw [mem_cons, not_or] at hk
        rw [hother k hk.2, update_of_ne hk.1]
    · next hover => exact ⟨s, L, rfl, hs, by rw [rounds_over hover], fun _ _ => rfl⟩

/-- **What `limborexmit` does** to the calls of the table. -/
theorem Tcppriv.Holds.limborexmit_rounds (hs : s.Holds L) (now : UInt32) (send : Nat → Option Sent) :
    ∃ s' L', s.limborexmit now send = some s' ∧ s'.Holds L' ∧ calls L' = (rounds now send (calls L) s.nlimbo 0).1 := by
  obtain ⟨s', L', hrun, hheld, hcalls, -⟩ :=
    hs.rexmitFrom_rounds now send (fun _ => mem_range.mp) nodup_range 0
  exact ⟨s', L', hrun, hheld, hcalls⟩

theorem again_ne (v : Limbo) : v.again.rexmits ≠ v.rexmits := by
  intro h
  have hone : (v.rexmits.toNat + 1) % 256 = v.rexmits.toNat := congrArg UInt8.toNat h
  have hlt := v.rexmits.toNat_lt
  omega

/-- A call that is due does not stay as it is. -/
theorem fate_due (hdue : Due now v) (o : Option Sent) : fate now n o v ≠ some v := by
  rw [fate, if_pos hdue]
  split
  · nofun
  · split
    · intro h
      exact again_ne v (congrArg Limbo.rexmits (some.inj h))
    · cases o with
      | none => nofun
      | some t =>
        intro h
        have hsame := congrArg Limbo.rexmits (some.inj h)
        exact again_ne v hsame

theorem fate_not_due (h : ¬Due now v) (o : Option Sent) : fate now n o v = some v := by
  rw [fate, if_neg h]

theorem sweep_length : (sweep now send l n i).length ≤ l.length := by
  induction l generalizing n i with
  | nil => rw [sweep]
  | cons c l ih =>
    obtain ⟨a, v⟩ := c
    rw [sweep]
    split
    · exact Nat.le_succ_of_le ih
    · exact Nat.succ_le_succ ih

/-- **Nothing changes** exactly when no call is due. -/
theorem sweep_same : sweep now send l n i = l ↔ ∀ c ∈ l, ¬Due now c.2 := by
  induction l generalizing n i with
  | nil =>
    rw [sweep]
    simp
  | cons c l ih =>
    obtain ⟨a, v⟩ := c
    rw [sweep, forall_mem_cons]
    by_cases hdue : Due now v
    · have hne := fate_due (n := n) hdue (send i)
      constructor
      · intro h
        split at h
        · have hlen := @sweep_length now send l (n - 1) (i + 1)
          rw [h, length_cons] at hlen
          omega
        · next w hw =>
          have hwv := (Prod.mk.inj (List.cons.inj h).1).2
          exact absurd (hw.trans (congrArg some hwv)) hne
      · intro h
        exact absurd hdue h.1
    · rw [fate_not_due hdue]
      dsimp only
      rw [List.cons.injEq, ih]
      constructor
      · intro h
        exact ⟨hdue, h.2⟩
      · intro h
        exact ⟨rfl, h.2⟩

theorem smooth_nil : Smooth now send [] n i :=
  ⟨[], [], rfl, nofun, nofun, fun pre a v post h => by cases pre <;> cases h⟩

/-- Where the first call is not due, no call may be. -/
theorem smooth_not_due (h : ¬Due now v) : Smooth now send ((a, v) :: l) n i ↔ ∀ c ∈ l, ¬Due now c.2 := by
  constructor
  · intro hsmooth
    obtain ⟨ds, us, heq, hds, hus, -⟩ := hsmooth
    cases ds with
    | nil =>
      rw [nil_append] at heq
      exact fun c hc => hus c (heq ▸ mem_cons_of_mem _ hc)
    | cons d ds =>
      obtain ⟨rfl, -⟩ := List.cons.inj heq
      exact absurd (hds _ mem_cons_self) h
  · intro hall
    refine ⟨[], (a, v) :: l, rfl, nofun, ?_, fun pre b w post heq => by cases pre <;> cases heq⟩
    rw [forall_mem_cons]
    exact ⟨h, hall⟩

theorem inTime_cons (b : Addr) (w : Limbo) (pre post : List (Addr × Limbo)) :
    InTime now send n i ((b, w) :: pre) v post ↔
      InTime now send (n - if 5 < w.again.rexmits ∨ (send i).isNone then 1 else 0) (i + 1) pre v post := by
  have hgone : (n : Int) - (gone send i ((b, w) :: pre) : Nat) =
      n - (if 5 < w.again.rexmits ∨ (send i).isNone then 1 else 0) - gone send (i + 1) pre := by
    rw [gone]
    split
    · push_cast
      omega
    · push_cast
      omega
  have hlen : (i : Int) + ((b, w) :: pre).length = (i + 1 : Nat) + pre.length := by
    rw [length_cons]
    push_cast
    omega
  rw [InTime, InTime, hgone, hlen]

theorem smooth_tail (h : Due now v) : Smooth now send ((a, v) :: l) n i ↔
    ∃ ds us, l = ds ++ us ∧ (∀ c ∈ ds, Due now c.2) ∧ (∀ c ∈ us, ¬Due now c.2) ∧ InTime now send n i [] v ds ∧
      ∀ pre b w post, ds = pre ++ (b, w) :: post →
        InTime now send (n - if 5 < v.again.rexmits ∨ (send i).isNone then 1 else 0) (i + 1) pre w post := by
  constructor
  · intro hsmooth
    obtain ⟨ds, us, heq, hds, hus, hin⟩ := hsmooth
    cases ds with
    | nil =>
      rw [nil_append] at heq
      exact absurd h (hus (a, v) (heq ▸ mem_cons_self))
    | cons d ds =>
      obtain ⟨rfl, rfl⟩ := List.cons.inj heq
      refine ⟨ds, us, rfl, fun c hc => hds c (mem_cons_of_mem _ hc), hus, hin [] a v ds rfl, ?_⟩
      intro pre b w post hsplit
      rw [← inTime_cons a]
      exact hin ((a, v) :: pre) b w post (by rw [hsplit, cons_append])
  · intro htail
    obtain ⟨ds, us, rfl, hds, hus, hfirst, hin⟩ := htail
    refine ⟨(a, v) :: ds, us, rfl, forall_mem_cons.mpr ⟨h, hds⟩, hus, ?_⟩
    intro pre b w post hsplit
    cases pre with
    | nil =>
      obtain ⟨heq, rfl⟩ := List.cons.inj hsplit
      obtain ⟨rfl, rfl⟩ := Prod.mk.inj heq
      exact hfirst
    | cons c pre =>
      obtain ⟨rfl, rfl⟩ := List.cons.inj hsplit
      exact (inTime_cons a v pre post).mpr (hin pre b w post rfl)

theorem inTime_first (ds : List (Addr × Limbo)) : InTime now send n i [] v ds ↔ (i : Int) < n ∧
    (¬5 < v.again.rexmits → 100 < n → ds = [] ∧ ((i + 1 : Int) < n → ¬Due now v.again)) := by
  simp [InTime, gone]

/-- Where the first call is due, it is reached, and so are the others behind it. -/
theorem smooth_due (h : Due now v) : Smooth now send ((a, v) :: l) n i ↔ (i : Int) < n ∧
    (if ¬5 < v.again.rexmits ∧ 100 < n then (∀ c ∈ l, ¬Due now c.2) ∧ ((i + 1 : Int) < n → ¬Due now v.again)
      else Smooth now send l (n - if 5 < v.again.rexmits ∨ (send i).isNone then 1 else 0) (i + 1)) := by
  rw [smooth_tail h]
  constructor
  · intro ⟨ds, us, heq, hds, hus, hfirst, hin⟩
    obtain ⟨hlt, hkept⟩ := (inTime_first ds).mp hfirst
    refine ⟨hlt, ?_⟩
    split
    · next hattack =>
        obtain ⟨rfl, hlast⟩ := hkept hattack.1 hattack.2
        rw [nil_append] at heq
        exact ⟨heq ▸ hus, hlast⟩
    · exact ⟨ds, us, heq, hds, hus, hin⟩
  · intro ⟨hlt, hrest⟩
    split at hrest
    · obtain ⟨hnone, hlast⟩ := hrest
      refine ⟨[], l, rfl, nofun, hnone, (inTime_first []).mpr ⟨hlt, fun _ _ => ⟨rfl, hlast⟩⟩, ?_⟩
      intro pre b w post heq
      cases pre <;> cases heq
    · next hattack =>
        obtain ⟨ds, us, heq, hds, hus, hin⟩ := hrest
        exact ⟨ds, us, heq, hds, hus, (inTime_first ds).mpr ⟨hlt, fun h5 h100 => absurd ⟨h5, h100⟩ hattack⟩, hin⟩

/-- What is left of a call that is kept, looked at again while there is an attack: it has been found due
more often, or is gone. -/
theorem rounds_kept (hattack : 100 < n) (h5 : ¬5 < v.rexmits) :
    (∃ w, (rounds now send ((a, v) :: l) n i).1 = (a, w) :: l ∧ v.rexmits ≤ w.rexmits) ∨
      ∃ j, (rounds now send ((a, v) :: l) n i).1 = (rounds now send l (n - 1) j).1 := by
  generalize hm : (n - i).toNat = m
  induction m generalizing v i with
  | zero =>
    rw [rounds_over (by omega)]
    exact Or.inl ⟨v, rfl, UInt8.le_refl _⟩
  | succ m ih =>
    rw [rounds_cons now send a v l (by omega)]
    split
    · split
      · exact Or.inr ⟨i + 1, rfl⟩
      · next hagain =>
          rcases ih (i := i + 1) hagain (by omega) with ⟨w, hw, hle⟩ | hgone
          · refine Or.inl ⟨w, hw, UInt8.le_trans ?_ hle⟩
            have hlt : v.rexmits.toNat ≤ 5 := Nat.le_of_not_lt h5
            refine UInt8.le_iff_toNat_le.mpr ?_
            change v.rexmits.toNat ≤ (v.rexmits.toNat + 1) % 256
            omega
          · exact Or.inr hgone
    · exact ih (i := i + 1) h5 (by omega)

theorem rounds_calls : ∀ c ∈ (rounds now send l n i).1, c.2.call ∈ l.map fun c => c.2.call := by
  generalize hm : (n - i).toNat = m
  induction m using Nat.strong_induction_on generalizing l n i with
  | _ m ih =>
    by_cases hseen : (i : Int) < n
    · cases l with
      | nil =>
        rw [rounds]
        nofun
      | cons c l =>
        obtain ⟨a, v⟩ := c
        have hback : ∀ (n : Int) (j : Nat), (n - j).toNat < m → ∀ c ∈ (rounds now send l n j).1,
            c.2.call ∈ ((a, v) :: l).map fun c => c.2.call := fun n j hlt c hc =>
          mem_cons_of_mem _ (ih _ hlt rfl c hc)
        rw [rounds_cons now send a v l hseen]
        split
        · split
          · exact hback _ _ (by omega)
          · split
            · exact ih (n - (i + 1 : Nat)).toNat (by omega) (l := (a, v.again) :: l) rfl
            · split
              · exact hback _ _ (by omega)
              · rw [forall_mem_cons]
                exact ⟨mem_cons_self, hback _ _ (by omega)⟩
        · exact ih (n - (i + 1 : Nat)).toNat (by omega) rfl
    · rw [rounds_over hseen]
      exact fun c hc => mem_map_of_mem hc

/-- A call that is found due once more after it has been kept is not as it should be. -/
theorem rounds_again (hattack : 100 < n) (hspent : ¬5 < v.again.rexmits) (hcall : v.call ∉ l.map fun c => c.2.call)
    (hseen : (i : Int) < n) (hdue : Due now v.again) (r : List (Addr × Limbo)) :
    (rounds now send ((a, v.again) :: l) n i).1 ≠ (a, v.again) :: r := by
  have hgone : ∀ j, (rounds now send l (n - 1) j).1 ≠ (a, v.again) :: r := by
    intro j heq
    have hin := @rounds_calls now send _ (n - 1) j (a, v.again) (heq ▸ mem_cons_self)
    exact hcall hin
  rw [rounds_cons now send a v.again l hseen, if_pos hdue]
  by_cases hagain : 5 < v.again.again.rexmits
  · rw [if_pos hagain]
    exact hgone (i + 1)
  · rw [if_neg hagain, if_pos hattack]
    rcases @rounds_kept now send _ a l _ (i + 1) hattack hagain with ⟨w, hw, hle⟩ | ⟨j, hj⟩
    · rw [hw]
      intro heq
      have hwv : w.rexmits = v.again.rexmits := congrArg Limbo.rexmits (Prod.mk.inj (List.cons.inj heq).1).2
      have hle' := UInt8.le_iff_toNat_le.mp hle
      rw [hwv] at hle'
      have hlt : v.again.rexmits.toNat ≤ 5 := Nat.le_of_not_lt hspent
      have hone : v.again.again.rexmits.toNat = (v.again.rexmits.toNat + 1) % 256 := rfl
      omega
    · rw [hj]
      exact hgone j

/-- A call kept for an attack has to be the last that is looked at. -/
theorem rounds_attack (hattack : 100 < n) (hspent : ¬5 < v.again.rexmits) (hcall : v.call ∉ l.map fun c => c.2.call) :
    (rounds now send ((a, v.again) :: l) n (i + 1)).1 = (a, v.again) :: sweep now send l n (i + 1) ↔
      (∀ c ∈ l, ¬Due now c.2) ∧ ((i + 1 : Int) < n → ¬Due now v.again) := by
  have hcast : ((i + 1 : Nat) : Int) = (i : Int) + 1 := by push_cast; rfl
  by_cases hnext : ((i + 1 : Nat) : Int) < n ∧ Due now v.again
  · constructor
    · intro h
      exact absurd h (rounds_again hattack hspent hcall hnext.1 hnext.2 _)
    · intro h
      exact absurd hnext.2 (h.2 (hcast ▸ hnext.1))
  · have hstay : (rounds now send ((a, v.again) :: l) n (i + 1)).1 = (a, v.again) :: l := by
      by_cases hlt : ((i + 1 : Nat) : Int) < n
      · exact rounds_stuck fun h => hnext ⟨hlt, h⟩
      · rw [rounds_over hlt]
    have hiff : (a, v.again) :: l = (a, v.again) :: sweep now send l n (i + 1) ↔ ∀ c ∈ l, ¬Due now c.2 := by
      rw [← @sweep_same now send _ n (i + 1)]
      constructor
      · intro h
        exact (List.cons.inj h).2.symm
      · intro h
        rw [h]
    rw [hstay, hiff]
    constructor
    · intro h
      exact ⟨h, fun hlt hd => hnext ⟨hcast ▸ hlt, hd⟩⟩
    · intro h
      exact h.1

/-- **A pass does what it is to do** exactly when the calls are in such an order. -/
theorem rounds_eq_sweep (hnodup : (l.map fun c => c.2.call).Nodup) :
    (rounds now send l n i).1 = sweep now send l n i ↔ Smooth now send l n i := by
  induction l generalizing n i with
  | nil =>
    rw [rounds, sweep]
    exact ⟨fun _ => smooth_nil, fun _ => rfl⟩
  | cons c l ih =>
    obtain ⟨a, v⟩ := c
    rw [map_cons, nodup_cons] at hnodup
    by_cases hdue : Due now v
    · rw [smooth_due hdue]
      by_cases hseen : (i : Int) < n
      · rw [rounds_cons now send a v l hseen, if_pos hdue, sweep, fate, if_pos hdue]
        by_cases hspent : 5 < v.again.rexmits
        · rw [if_pos hspent, if_pos hspent, if_neg fun h => h.1 hspent, if_pos (Or.inl hspent), ih hnodup.2]
          exact ⟨fun h => ⟨hseen, h⟩, fun h => h.2⟩
        · rw [if_neg hspent, if_neg hspent]
          by_cases hattack : 100 < n
          · rw [if_pos hattack, if_pos hattack, if_pos ⟨hspent, hattack⟩]
            dsimp only
            rw [rounds_attack hattack hspent hnodup.1]
            exact ⟨fun h => ⟨hseen, h⟩, fun h => h.2⟩
          · rw [if_neg hattack, if_neg hattack, if_neg fun h => hattack h.2]
            cases hsend : send i with
            | none =>
              rw [if_pos (show 5 < v.again.rexmits ∨ (none : Option Sent).isNone from Or.inr rfl)]
              dsimp only [map_none]
              rw [ih hnodup.2]
              exact ⟨fun h => ⟨hseen, h⟩, fun h => h.2⟩
            | some t =>
              have hkept : ¬(5 < v.again.rexmits ∨ (some t).isNone) := fun h => h.elim hspent nofun
              rw [if_neg hkept, sub_zero]
              dsimp only [map_some]
              rw [List.cons.injEq, ih hnodup.2]
              exact ⟨fun h => ⟨hseen, h.2⟩, fun h => ⟨rfl, h.2⟩⟩
      · rw [rounds_over hseen]
        constructor
        · intro h
          have hnone := sweep_same.mp h.symm
          exact absurd hdue (hnone (a, v) mem_cons_self)
        · intro h
          exact absurd h.1 hseen
    · rw [rounds_stuck hdue, smooth_not_due hdue]
      constructor
      · intro h
        have hnone := sweep_same.mp h.symm
        exact fun c hc => hnone c (mem_cons_of_mem _ hc)
      · intro h
        have hall : ∀ c ∈ (a, v) :: l, ¬Due now c.2 := forall_mem_cons.mpr ⟨hdue, h⟩
        exact (sweep_same.mpr hall).symm

theorem Tcppriv.Holds.calls_nodup (hs : s.Holds L) : ((calls L).map fun c => c.2.call).Nodup := by
  rw [calls, map_flatMap]
  refine nodup_flatMap.mpr ⟨fun h hh => hs.once h (mem_range.mp hh), ?_⟩
  refine List.nodup_range.imp_of_mem fun {h k} hh hk hne call hin hin' => ?_
  obtain ⟨c, hc, rfl⟩ := mem_map.mp hin
  obtain ⟨d, hd, hsame⟩ := mem_map.mp hin'
  have hc' := hs.hash h (mem_range.mp hh) c hc
  have hd' := hs.hash k (mem_range.mp hk) d hd
  have hraddr : d.2.raddr = c.2.raddr := congrArg Call.raddr hsame
  have hrport : d.2.rport = c.2.rport := congrArg Call.rport hsame
  rw [hraddr, hrport, hc'] at hd'
  exact hne hd'

/-- The rounds tell whether every call is looked at once. -/
theorem Tcppriv.Holds.once_iff (hs : s.Holds L) (now : UInt32) (send : Nat → Option Sent) :
    OncePass s L now send ↔ (rounds now send (calls L) s.nlimbo 0).1 = sweep now send (calls L) s.nlimbo 0 := by
  obtain ⟨s', L', hrun, hheld, hcalls⟩ := hs.limborexmit_rounds now send
  constructor
  · intro h
    obtain ⟨t, M, hrun', hheld', hcalls'⟩ := h
    rw [hrun] at hrun'
    cases hrun'
    -- the table determines its calls
    have hsame : ∀ h ∈ List.range NLHT, L' h = M h := fun h hh =>
      (hheld.chain h (mem_range.mp hh)).unique (hheld'.chain h (mem_range.mp hh))
    have heq : calls L' = calls M := flatMap_congr hsame
    rw [← hcalls, heq, hcalls']
  · intro h
    exact ⟨s', L', hrun, hheld, hcalls.trans h⟩

/-- **A pass looks at every call once** exactly when the calls that are due come first and are reached in
time. -/
theorem limborexmit_once (hs : s.Holds L) (now : UInt32) (send : Nat → Option Sent) :
    OncePass s L now send ↔ Smooth now send (calls L) s.nlimbo 0 := by
  rw [hs.once_iff, rounds_eq_sweep hs.calls_nodup]

/-- Two calls, in the chains of 0 and 1, to which SYN ACKs were last sent at `t` and `u`. -/
def first (t : UInt32) : Limbo := { zeroed with lastsend := t }

def second (u : UInt32) : Limbo := { zeroed with raddr := floodIp 0 1, lastsend := u }

def twoCalls (t u : UInt32) (h : Nat) : List (Addr × Limbo) :=
  if h = 0 then [(0, first t)] else if h = 1 then [(1, second u)] else []

def twoTable (t u : UInt32) : Tcppriv where
  nlimbo := 2
  lht h := if h = 0 then some 0 else if h = 1 then some 1 else none
  mem a := if a = 0 then some ⟨none, first t⟩ else if a = 1 then some ⟨none, second u⟩ else none

theorem twoTable_holds (t u : UInt32) : (twoTable t u).Holds (twoCalls t u) := by
  have hcases : ∀ h, h = 0 ∨ h = 1 ∨ twoCalls t u h = [] := fun h => by
    rw [twoCalls]
    by_cases h0 : h = 0
    · exact Or.inl h0
    · by_cases h1 : h = 1
      · exact Or.inr (Or.inl h1)
      · rw [if_neg h0, if_neg h1]
        exact Or.inr (Or.inr rfl)
  refine ⟨fun h _ => ?_, fun h _ c hc => ?_, fun h _ => ?_, ?_⟩
  · by_cases h0 : h = 0
    · subst h0
      exact ⟨rfl, none, rfl, rfl⟩
    · by_cases h1 : h = 1
      · subst h1
        exact ⟨rfl, none, rfl, rfl⟩
      · rw [twoTable, twoCalls, if_neg h0, if_neg h1]
        dsimp only
        rw [if_neg h0, if_neg h1]
        rfl
  · rcases hcases h with rfl | rfl | hnil
    · obtain rfl := mem_singleton.mp hc
      have hzero : hashipa zeroed.raddr zeroed.rport = 0 := by decide
      exact hzero
    · obtain rfl := mem_singleton.mp hc
      exact floodIp_hash 0 1
    · rw [hnil] at hc
      cases hc
  · rcases hcases h with rfl | rfl | hnil
    · exact nodup_singleton _
    · exact nodup_singleton _
    · rw [hnil]
      exact nodup_nil
  · have hlen : ∀ h, ((twoCalls t u h).length : Int) = (if h = 0 then 1 else 0) + if h = 1 then 1 else 0 := fun h => by
      rcases hcases h with rfl | rfl | hnil
      · rfl
      · rfl
      · rw [twoCalls] at hnil ⊢
        split at hnil
        · cases hnil
        · split at hnil
          · cases hnil
          · next h0 h1 => simp [h0, h1]
    have htwo : (2 : Int) = (if 0 < NLHT then 1 else 0) + if 1 < NLHT then 1 else 0 := by decide
    simp only [hlen, Finset.sum_add_distrib, Finset.sum_ite_eq', Finset.mem_range]
    exact htwo

theorem twoTable_calls (t u : UInt32) : calls (twoCalls t u) = [(0, first t), (1, second u)] := by
  have hrange : List.range NLHT = [0, 1] ++ (List.range 254).map (2 + ·) := range_add (n := 2) (m := 254)
  have hrest : ((List.range 254).map (2 + ·)).flatMap (twoCalls t u) = [] := by
    refine flatMap_eq_nil_iff.mpr fun h hh => ?_
    obtain ⟨k, -, rfl⟩ := mem_map.mp hh
    rw [twoCalls, if_neg (by omega), if_neg (by omega)]
  rw [calls, hrange, flatMap_append, hrest, append_nil]
  rfl

/-- Both calls are due, and both are answered. -/
theorem limborexmit_once_two : OncePass (twoTable 0 0) (twoCalls 0 0) 1000 fun _ => some ⟨0, 1000⟩ := by
  refine (limborexmit_once (twoTable_holds 0 0) 1000 _).mpr ?_
  rw [twoTable_calls, smooth_due (by decide), if_neg (by decide)]
  refine ⟨by decide, ?_⟩
  rw [smooth_due (by decide), if_neg (by decide)]
  exact ⟨by decide, smooth_nil⟩

/-- **The first call is not due, and the second is passed over.** -/
theorem limborexmit_skips : (twoTable 1000 0).Holds (twoCalls 1000 0) ∧ Due 1000 (second 0) ∧
    ¬OncePass (twoTable 1000 0) (twoCalls 1000 0) 1000 fun _ => some ⟨0, 1000⟩ := by
  refine ⟨twoTable_holds 1000 0, by decide, fun h => ?_⟩
  rw [(twoTable_holds 1000 0).once_iff, twoTable_calls, rounds_stuck (by decide)] at h
  have hnone := sweep_same.mp h.symm
  have hdue : Due 1000 (second 0) := by decide
  exact hnone (1, second 0) (mem_cons_of_mem _ mem_cons_self) hdue

end TcpLimbo
