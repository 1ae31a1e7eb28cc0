import NixKernel.LimboTable

/-!
# Runs of the limbo table

Each operation keeps the table.  The exception is a SYN for a new call that finds the
table full and one entry in its chain: the entry is taken off the chain and linked
behind itself, `limbo_lone`.
-/

namespace TcpLimbo

open HeapChain StepSystem List Option

open Function (update update_self update_of_ne update_apply update_idem)

variable {s s' : Tcppriv} {L : Nat → List (Addr × Limbo)} {h : Nat} {a : Addr} {v : Limbo} {k : Call}
  {l : Slot} {p q : Option Addr} {r pre post post' : List (Addr × Limbo)}

theorem hashipa_lt {ip : Ip} {port : UInt16} : hashipa ip port < NLHT := by
  have hle : hashipa ip port ≤ LHTMASK := Nat.and_le_right
  have : LHTMASK < NLHT := by decide
  omega

/-- The entry that the search for a call finds. -/
def Tcppriv.lookup (s : Tcppriv) (k : Call) : Option (Option Addr) := do
  let l ← s.find k (.head (hashipa k.raddr k.rport))
  s.load l

/-- The search, in a table. -/
theorem Tcppriv.Holds.find (hs : s.Holds L) (hh : h < NLHT) (k : Call) :
    ∃ pre post, L h = pre ++ post ∧ s.find k (.head h) = some (behind (.head h) pre) ∧
      s.load (behind (.head h) pre) = some (post.head?.map Prod.fst) ∧
      (∀ c ∈ pre, c.2.call ≠ k) ∧ ∀ c ∈ post.head?, c.2.call = k :=
  Tcppriv.find_spec rfl (hs.chain h hh)

/-- **An entry of the table is found.** -/
theorem Tcppriv.Holds.lookup (hs : s.Holds L) (hmem : (a, v) ∈ L (hashipa v.raddr v.rport)) :
    s.lookup v.call = some (some a) := by
  obtain ⟨pre, post, hL, hfind, hload, hpre, hpost⟩ := hs.find hashipa_lt v.call
  have honce := hs.once _ (@hashipa_lt v.raddr v.rport)
  rw [hL] at hmem honce
  have hin : (a, v) ∈ post := by
    rcases List.mem_append.mp hmem with hin | hin
    · exact (hpre _ hin rfl).elim
    · exact hin
  cases post with
  | nil => cases hin
  | cons c post =>
    have hc : c = (a, v) := by
      rcases List.mem_cons.mp hin with heq | hin
      · exact heq.symm
      · -- the same call twice
        have hcall := hpost c rfl
        rw [map_append, map_cons, nodup_append, nodup_cons] at honce
        exact (honce.2.1.1 (List.mem_map.mpr ⟨(a, v), hin, hcall.symm⟩)).elim
    subst hc
    simp only [Tcppriv.lookup, Limbo.call]
    simp only [Limbo.call] at hfind
    simp [hfind, hload]

/-- The end of `limbo`: the entry stays, stamped, or goes. -/
theorem Tcppriv.Holds.answer (hs : s.Holds L) (hh : h < NLHT) (hL : L h = pre ++ (a, v) :: post)
    (send : Option Sent) :
    ∃ s' L', s.answer (behind (.head h) pre) a send = some s' ∧ s'.Holds L' ∧
      ∀ t, send = some t →
        L' = update L h (pre ++ (a, t.stamp v) :: post) ∧ s'.nlimbo = s.nlimbo := by
  cases send with
  | some t =>
    refine ⟨_, _, rfl, hs.set hh hL rfl, ?_⟩
    rintro u ⟨⟩
    exact ⟨rfl, rfl⟩
  | none =>
    obtain ⟨s', hrun, hholds, _⟩ := hs.discard hh hL
    exact ⟨s', _, hrun, hholds, nofun⟩

theorem Tcppriv.Holds.limborst (hs : s.Holds L) (segp : Tcp) (src dst : Ip) (version : Version) :
    ∃ s' L', s.limborst segp src dst version = some s' ∧ s'.Holds L' := by
  have hh := @hashipa_lt src segp.source
  obtain ⟨pre, post, hL, hfind, hload, -, -⟩ := hs.find hh (segp.call src dst version)
  cases post with
  | nil => exact ⟨s, L, by simp [Tcppriv.limborst, hfind, hload], hs⟩
  | cons c post =>
    obtain ⟨a, v⟩ := c
    obtain ⟨n, hcell⟩ := Seg.lookup (hs.chain _ hh) (a := a) (v := v) (by simp [hL])
    by_cases hseq : segp.seq = v.irs + 1
    · obtain ⟨s', hrun, hholds, _⟩ := hs.discard hh hL
      exact ⟨s', _, by simp [Tcppriv.limborst, hfind, hload, hcell, hseq, hrun], hholds⟩
    · exact ⟨s, L, by simp [Tcppriv.limborst, hfind, hload, hcell, hseq], hs⟩

theorem Tcppriv.Holds.tcpincoming (hs : s.Holds L) (segp : Tcp) (src dst : Ip) (version : Version)
    (newcall : Bool) :
    ∃ s' L', s.tcpincoming segp src dst version newcall = some s' ∧ s'.Holds L' := by
  by_cases hflags : segp.flags &&& SYN ≠ 0 ∨ segp.flags &&& ACK = 0
  · exact ⟨s, L, by simp [Tcppriv.tcpincoming, hflags], hs⟩
  have hh := @hashipa_lt src segp.source
  obtain ⟨pre, post, hL, hfind, hload, -, -⟩ := hs.find hh (segp.call src dst version)
  cases post with
  | nil => exact ⟨s, L, by simp [Tcppriv.tcpincoming, hflags, hfind, hload], hs⟩
  | cons c post =>
    obtain ⟨a, v⟩ := c
    obtain ⟨n, hcell⟩ := Seg.lookup (hs.chain _ hh) (a := a) (v := v) (by simp [hL])
    by_cases hack : segp.seq ≠ v.irs + 1 ∨ segp.ack ≠ v.iss + 1
    · exact ⟨s, L, by simp [Tcppriv.tcpincoming, hflags, hfind, hload, hcell, hack], hs⟩
    · refine ⟨_, _, ?_, hs.unlink hh hL hcell newcall⟩
      cases newcall <;> simp [Tcppriv.tcpincoming, hflags, hfind, hload, hcell, hack]

/-- The inner loop of `limborexmit`: every round is seen, and `nlimbo` does not grow. -/
theorem Tcppriv.Holds.rexmitChain (hs : s.Holds L) (hh : h < NLHT) (hL : L h = pre ++ post)
    (now : UInt32) (send : Nat → Option Sent) (seen : Nat) :
    ∃ s' seen' L', s.rexmitChain now send seen (behind (.head h) pre) = some (s', seen') ∧
      s'.Holds L' := by
  generalize hn : (s.nlimbo - seen).toNat = n
  induction n using Nat.strong_induction_on generalizing s L pre post seen with
  | _ n ih =>
    have hc := hs.chain h hh
    rw [hL] at hc
    have hload := Tcppriv.load_behind (l := .head h) rfl hc
    rw [Tcppriv.rexmitChain, hload]
    cases post with
    | nil => exact ⟨s, seen, L, rfl, hs⟩
    | cons c post =>
      obtain ⟨a, v⟩ := c
      obtain ⟨m, hcell⟩ := Seg.lookup (hs.chain h hh) (a := a) (v := v) (by simp [hL])
      simp only [List.head?_cons, map_some, bind_eq_bind, bind_some, hcell]
      by_cases hseen : seen < s.nlimbo
      · rw [if_pos hseen]
        by_cases hdue : now - v.lastsend < (v.rexmits.toUInt32 + 1) * SYNACK_RXTIMER
        · rw [if_pos hdue]
          exact ih _ (by omega) hs hL (seen + 1) rfl
        · rw [if_neg hdue]
          have hset := hs.set (f := fun v => { v with rexmits := v.rexmits + 1 }) hh hL rfl
          have hL' := update_self h (pre ++ (a, { v with rexmits := v.rexmits + 1 }) :: post) L
          obtain ⟨t, hdiscard, hheld, hcount⟩ := hset.discard hh hL'
          have hdropped : ∃ s' seen' L',
              t.rexmitChain now send (seen + 1) (behind (.head h) pre) = some (s', seen') ∧
                s'.Holds L' := by
            refine ih _ ?_ hheld (update_self ..) (seen + 1) rfl
            rw [Tcppriv.set_nlimbo] at hcount
            omega
          split
          · rw [hdiscard]
            exact hdropped
          · split
            · exact ih _ (by rw [Tcppriv.set_nlimbo]; omega) hset hL' (seen + 1) rfl
            · cases send seen with
              | none =>
                simp only [hdiscard]
                exact hdropped
              | some u =>
                have hstamp := hset.set (f := u.stamp) hh hL' rfl
                have hnext : Slot.next a = behind (.head h)
                    (pre ++ [(a, u.stamp { v with rexmits := v.rexmits + 1 })]) :=
                  behind_concat.symm
                simp only [hnext]
                have hcons := append_cons pre (a, u.stamp { v with rexmits := v.rexmits + 1 }) post
                refine ih _ ?_ hstamp ((update_self _ _ _).trans hcons) (seen + 1) rfl
                rw [Tcppriv.set_nlimbo, Tcppriv.set_nlimbo]
                omega
      · rw [if_neg hseen]
        exact ⟨s, seen, L, rfl, hs⟩

theorem Tcppriv.Holds.rexmitFrom (hs : s.Holds L) (now : UInt32) (send : Nat → Option Sent)
    {hs' : List Nat} (hlt : ∀ h ∈ hs', h < NLHT) (seen : Nat) :
    ∃ s' L', Tcppriv.rexmitFrom now send hs' s seen = some s' ∧ s'.Holds L' := by
  induction hs' generalizing s L seen with
  | nil => exact ⟨s, L, rfl, hs⟩
  | cons h hs' ih =>
    rw [Tcppriv.rexmitFrom]
    split
    · obtain ⟨t, seen', L', hrun, hheld⟩ :=
        @Tcppriv.Holds.rexmitChain _ _ _ [] _ hs (hlt h mem_cons_self) rfl now send seen
      obtain ⟨s', L'', hrest, hheld'⟩ :=
        ih hheld (fun k hk => hlt k (mem_cons_of_mem h hk)) seen'
      refine ⟨s', L'', ?_, hheld'⟩
      rw [behind_nil] at hrun
      simp [hrun, hrest]
    · exact ⟨s, L, rfl, hs⟩

theorem Tcppriv.Holds.limborexmit (hs : s.Holds L) (now : UInt32) (send : Nat → Option Sent) :
    ∃ s' L', s.limborexmit now send = some s' ∧ s'.Holds L' :=
  hs.rexmitFrom now send (fun _ => List.mem_range.mp) 0

variable {source dest : Ip} {seg : Tcp} {version : Version} {iss : UInt32} {malloc : Option Addr}
  {send : Option Sent}

/-- The entry of a new call. -/
theorem fill_call : (seg.fill source dest version iss v).call = seg.call source dest version := rfl

/-- A SYN for a call in limbo. -/
theorem Tcppriv.Holds.limbo_again (hs : s.Holds L) (hh : h = hashipa source seg.source)
    (hL : L h = pre ++ (a, v) :: post)
    (hfind : s.find (seg.call source dest version) (.head h) = some (behind (.head h) pre)) :
    ∃ s' L', s.limbo source dest seg version iss malloc send = some s' ∧ s'.Holds L' := by
  have hlt : h < NLHT := hh ▸ hashipa_lt
  have hc := hs.chain h hlt
  rw [hL] at hc
  have hload := Tcppriv.load_behind (l := .head h) rfl hc
  have hset := hs.set (f := fun v => { v with irs := seg.seq }) hlt hL rfl
  obtain ⟨s', L', hrun, hheld, _⟩ := hset.answer hlt (update_self ..) send
  refine ⟨s', L', ?_, hheld⟩
  subst hh
  simp [Tcppriv.limbo, hfind, hload, hrun]

/-- Linking an entry behind a chain and setting its fields. -/
theorem Tcppriv.place_chain {f : Limbo → Limbo} (hc : Chain s.mem (s.lht h) r)
    (hcell : s.mem a = some ⟨none, v⟩) (ha : a ∉ addrs r) :
    Chain ((s.store (behind (.head h) r) (some a)).set a f).mem
      (((s.store (behind (.head h) r) (some a)).set a f).lht h) (r ++ [(a, f v)]) := by
  have hone : Chain s.mem (some a) [(a, v)] := ⟨rfl, none, hcell, rfl⟩
  have hc' : Chain s.mem (s.lht h) (r ++ []) := by rwa [append_nil]
  apply Tcppriv.set_chain
  apply Tcppriv.store_chain hc' hone
  intro b hb hb'
  cases List.mem_singleton.mp hb'
  exact ha hb

/-- **A new call is placed** behind the chain `r`, in an entry that is the chain's own old
head or fresh. -/
theorem Tcppriv.Holds.place (hs : s.Holds L) (hh : h = hashipa source seg.source)
    (hc : Chain s'.mem (s'.lht h) r) (hcell : s'.mem a = some ⟨none, v⟩) (ha : a ∉ addrs r)
    (hsub : r.Sublist (L h)) (hnew : ∀ c ∈ L h, c.2.call ≠ seg.call source dest version)
    (hlht : ∀ k ≠ h, s'.lht k = s.lht k) (hmem : ∀ b ≠ a, s'.mem b = s.mem b)
    (hold : a ∈ addrs (L h) ∨ s.mem a = none)
    (hcount : s'.nlimbo = s.nlimbo + r.length + 1 - (L h).length) (send : Option Sent) :
    ∃ t L', ((s'.store (behind (.head h) r) (some a)).set a
        (seg.fill source dest version iss)).answer (behind (.head h) r) a send = some t ∧ t.Holds L' ∧
      ∀ u, send = some u →
        L' = update L h (r ++ [(a, u.stamp (seg.fill source dest version iss v))]) ∧
          t.nlimbo = s'.nlimbo := by
  have hlt : h < NLHT := hh ▸ hashipa_lt
  have hframe := @Tcppriv.store_frame s' h (some a) r
  have hheld : ((s'.store (behind (.head h) r) (some a)).set a
      (seg.fill source dest version iss)).Holds
        (update L h (r ++ [(a, seg.fill source dest version iss v)])) := by
    refine hs.replace hlt (Tcppriv.place_chain hc hcell ha) ?_ ?_ ?_ ?_ ?_
    · intro k hk
      exact (hframe.1 k hk).trans (hlht k hk)
    · intro b
      by_cases hb : b = a
      · subst hb
        exact Or.inr hold
      · by_cases hbr : b ∈ addrs r
        · right; left
          exact (hsub.map Prod.fst).subset hbr
        · left
          exact (Tcppriv.set_mem_of_ne hb).trans ((hframe.2 b hbr).trans (hmem b hb))
    · intro c hc'
      rcases List.mem_append.mp hc' with hin | hin
      · exact hs.hash h hlt c (hsub.subset hin)
      · cases List.mem_singleton.mp hin
        exact hh.symm
    · rw [map_append, nodup_append]
      refine ⟨(hs.once h hlt).sublist (hsub.map _), by simp, ?_⟩
      intro x hx y hy hxy
      obtain ⟨c, hc', rfl⟩ := List.mem_map.mp hx
      simp only [map_cons, map_nil, mem_singleton, fill_call] at hy
      exact hnew c (hsub.subset hc') (hxy.trans hy)
    · simp [hcount]
      omega
  obtain ⟨t, L', hrun, hheld', hsent⟩ := @Tcppriv.Holds.answer _ _ _ _ _ r [] hheld hlt (update_self ..) send
  refine ⟨t, L', hrun, hheld', ?_⟩
  intro u hu
  obtain ⟨hL', hn⟩ := hsent u hu
  rw [update_idem] at hL'
  exact ⟨hL', by simpa using hn⟩

/-- The search fails for a new call. -/
theorem Tcppriv.Holds.find_new (hs : s.Holds L) (hlt : h < NLHT) (hnew : ∀ c ∈ L h, c.2.call ≠ k) :
    s.find k (.head h) = some (behind (.head h) (L h)) ∧
      s.load (behind (.head h) (L h)) = some none := by
  obtain ⟨pre, post, hL, hfind, hload, -, hpost⟩ := hs.find hlt k
  cases post with
  | nil =>
    rw [append_nil] at hL
    rw [hL]
    exact ⟨hfind, hload⟩
  | cons c post => exact (hnew c (by simp [hL]) (hpost c rfl)).elim

/-- **A new call in a full table** takes the place of the oldest of its chain, if it is not
the only one. -/
theorem Tcppriv.Holds.limbo_reuse (hs : s.Holds L) (hh : h = hashipa source seg.source)
    (hnew : ∀ c ∈ L h, c.2.call ≠ seg.call source dest version) (hfull : Maxlimbo ≤ s.nlimbo)
    (hL : L h = (a, v) :: r) (hr : r ≠ []) :
    ∃ s' L', s.limbo source dest seg version iss malloc send = some s' ∧ s'.Holds L' ∧
      ∀ u, send = some u →
        L' = update L h (r ++ [(a, u.stamp (seg.fill source dest version iss v))]) ∧
          s'.nlimbo = s.nlimbo := by
  have hlt : h < NLHT := hh ▸ hashipa_lt
  obtain ⟨hfind, hload⟩ := hs.find_new hlt hnew
  have hc := hs.chain h hlt
  rw [hL] at hc
  have har := hc.head_not_mem
  obtain ⟨hhead, n, hcell, htail⟩ := chain_cons.mp hc
  have hslot : behind (.head h) (L h) = behind (.head h) r := by
    rw [hL]
    exact behind_of_ne_nil hr
  let s₁ := (s.store (.head h) n).store (.next a) none
  have hcell' : s₁.mem a = some ⟨none, v⟩ := by simp [s₁, Tcppriv.store, hcell]
  have hchain : Chain s₁.mem (s₁.lht h) r := by
    simpa [s₁, Tcppriv.store] using htail.update_ne har
  obtain ⟨s', L', hrun, hheld, hsent⟩ := @Tcppriv.Holds.place _ s₁ _ _ _ _ _ _ _ _ _ iss hs hh hchain hcell' har
    (by rw [hL]; exact sublist_cons_self _ _) hnew (fun k hk => by simp [s₁, Tcppriv.store, hk])
    (fun b hb => by simp [s₁, Tcppriv.store, hb]) (Or.inl (by simp [hL])) (by simp [s₁, hL]) send
  refine ⟨s', L', ?_, hheld, ?_⟩
  · rw [hslot] at hfind hload
    subst hh
    simp only [Tcppriv.limbo, hfind, hload, hfull, hhead, hcell, bind_eq_bind, bind_some, if_true]
    exact hrun
  · intro u hu
    obtain ⟨hL', hn⟩ := hsent u hu
    exact ⟨hL', by simpa [s₁] using hn⟩

/-- No entry is used again while there is room, or where there is none. -/
theorem Tcppriv.Holds.no_reuse (hs : s.Holds L) (hlt : h < NLHT)
    (hroom : s.nlimbo < Maxlimbo ∨ L h = []) :
    (if Maxlimbo ≤ s.nlimbo then s.lht h else none) = none := by
  split
  next hfull =>
    rcases hroom with hlt' | hnil
    · omega
    · have hc := hs.chain h hlt
      rw [hnil] at hc
      exact chain_nil.mp hc
  next => rfl

/-- A new call that needs memory. -/
theorem Tcppriv.Holds.limbo_malloc (hs : s.Holds L) (hh : h = hashipa source seg.source)
    (hnew : ∀ c ∈ L h, c.2.call ≠ seg.call source dest version)
    (hroom : s.nlimbo < Maxlimbo ∨ L h = []) (hfree : s.mem a = none) :
    ∃ s' L', s.limbo source dest seg version iss (some a) send = some s' ∧ s'.Holds L' ∧
      ∀ u, send = some u →
        L' = update L h (L h ++ [(a, u.stamp (seg.fill source dest version iss zeroed))]) ∧
          s'.nlimbo = s.nlimbo + 1 := by
  have hlt : h < NLHT := hh ▸ hashipa_lt
  obtain ⟨hfind, hload⟩ := hs.find_new hlt hnew
  have hc := hs.chain h hlt
  have ha : a ∉ addrs (L h) := Seg.not_mem_of_free hc hfree
  let s₁ : Tcppriv := { s with nlimbo := s.nlimbo + 1, mem := update s.mem a (some ⟨none, zeroed⟩) }
  obtain ⟨s', L', hrun, hheld, hsent⟩ := @Tcppriv.Holds.place _ s₁ _ _ _ zeroed _ _ _ _ _ iss hs hh (hc.update_ne ha)
    (by simp [s₁]) ha (List.Sublist.refl _) hnew (fun _ _ => rfl) (fun b hb => update_of_ne hb _ _)
    (Or.inr hfree) (by simp [s₁]; omega) send
  refine ⟨s', L', ?_, hheld, hsent⟩
  have hnone := hs.no_reuse hlt hroom
  subst hh
  simp only [Tcppriv.limbo, hfind, hload, hnone, bind_eq_bind, bind_some]
  exact hrun

/-- The other new calls: there is no memory for them. -/
theorem Tcppriv.Holds.limbo_nomem (hs : s.Holds L) (hh : h = hashipa source seg.source)
    (hnew : ∀ c ∈ L h, c.2.call ≠ seg.call source dest version)
    (hroom : s.nlimbo < Maxlimbo ∨ L h = []) :
    s.limbo source dest seg version iss none send = some s := by
  have hlt : h < NLHT := hh ▸ hashipa_lt
  obtain ⟨hfind, hload⟩ := hs.find_new hlt hnew
  have hnone := hs.no_reuse hlt hroom
  subst hh
  simp [Tcppriv.limbo, hfind, hload, hnone]

/-- A SYN for a new call meets a full table and one entry in its chain. -/
def Tcppriv.Lone (s : Tcppriv) : Act → Prop
  | .limbo source dest seg version _ _ _ =>
    Maxlimbo ≤ s.nlimbo ∧ ∃ a c, s.lht (hashipa source seg.source) = some a ∧ s.mem a = some c ∧
      c.next = none ∧ c.val.call ≠ seg.call source dest version
  | _ => False

theorem Tcppriv.Holds.limbo (hs : s.Holds L)
    (hallowed : s.Allowed (.limbo source dest seg version iss malloc send))
    (hlone : ¬ s.Lone (.limbo source dest seg version iss malloc send)) :
    ∃ s' L', s.limbo source dest seg version iss malloc send = some s' ∧ s'.Holds L' := by
  have hh := @hashipa_lt source seg.source
  obtain ⟨pre, post, hL, hfind, hload, hpre, hpost⟩ := hs.find hh (seg.call source dest version)
  cases post with
  | cons c post => exact hs.limbo_again rfl hL hfind
  | nil =>
    rw [append_nil] at hL
    rw [← hL] at hpre
    have hmalloc : s.nlimbo < Maxlimbo ∨ L (hashipa source seg.source) = [] →
        ∃ s' L', s.limbo source dest seg version iss malloc send = some s' ∧ s'.Holds L' := by
      intro hroom
      cases malloc with
      | none => exact ⟨s, L, hs.limbo_nomem rfl hpre hroom, hs⟩
      | some a =>
        obtain ⟨s', L', hrun, hheld, _⟩ := hs.limbo_malloc rfl hpre hroom hallowed
        exact ⟨s', L', hrun, hheld⟩
    by_cases hfull : Maxlimbo ≤ s.nlimbo
    · cases hchain : L (hashipa source seg.source) with
      | nil => exact hmalloc (Or.inr hchain)
      | cons c r =>
        obtain ⟨a, v⟩ := c
        have hr : r ≠ [] := by
          rintro rfl
          have hc := hs.chain _ hh
          rw [hchain] at hc
          obtain ⟨hhead, n, hcell, htail⟩ := chain_cons.mp hc
          refine hlone ⟨hfull, a, ⟨n, v⟩, hhead, hcell, chain_nil.mp htail, ?_⟩
          exact hpre (a, v) (by rw [hchain]; exact mem_cons_self)
        obtain ⟨s', L', hrun, hheld, _⟩ := hs.limbo_reuse rfl hpre hfull hchain hr
        exact ⟨s', L', hrun, hheld⟩
    · exact hmalloc (Or.inl (by omega))

/-- **Every operation returns and keeps the table.** -/
theorem Tcppriv.Holds.act (hs : s.Holds L) {i : Act} (hallowed : s.Allowed i) (hlone : ¬ s.Lone i) :
    ∃ s' L', s.act i = some s' ∧ s'.Holds L' := by
  cases i with
  | limbo source dest seg version iss malloc send => exact hs.limbo hallowed hlone
  | limborst segp src dst version => exact hs.limborst segp src dst version
  | tcpincoming segp src dst version newcall => exact hs.tcpincoming segp src dst version newcall
  | limborexmit now send => exact hs.limborexmit now send

/-- What a SYN for a new call does in a full table whose chain for it has entries: it takes
the oldest out of the chain, the new call is found, and the count stays. -/
def Tcppriv.Replaces (s : Tcppriv) (source dest : Ip) (seg : Tcp) (version : Version) (iss : UInt32)
    (malloc : Option Addr) (t : Sent) : Prop :=
  let h := hashipa source seg.source
  let k := seg.call source dest version
  ∃ s' a v r w, s.limbo source dest seg version iss malloc (some t) = some s' ∧
    Chain s.mem (s.lht h) ((a, v) :: r) ∧ Chain s'.mem (s'.lht h) (r ++ [(a, w)]) ∧ w.call = k ∧
    s'.lookup k = some (some a) ∧ s'.nlimbo = s.nlimbo

/-- What the table promises: its chains hold each call once, where it hashes to, and
`nlimbo` counts them; every operation returns; and in a full table a new call replaces an
old one. -/
structure Tcppriv.Ok (s : Tcppriv) : Prop where
  holds : ∃ L, s.Holds L
  returns : ∀ i, s.Allowed i → ¬ s.Lone i → ∃ s', s.act i = some s'
  replaces : ∀ source dest seg version iss malloc t,
    ¬ s.Lone (.limbo source dest seg version iss malloc (some t)) → Maxlimbo ≤ s.nlimbo →
      s.lht (hashipa source seg.source) ≠ none →
        s.lookup (seg.call source dest version) = some none →
          s.Replaces source dest seg version iss malloc t

theorem Tcppriv.Holds.ok (hs : s.Holds L) : s.Ok := by
  refine ⟨⟨L, hs⟩, ?_, ?_⟩
  · intro i hallowed hlone
    obtain ⟨s', _, hrun, _⟩ := hs.act hallowed hlone
    exact ⟨s', hrun⟩
  · intro source dest seg version iss malloc t hlone hfull hsome hnone
    have hh := @hashipa_lt source seg.source
    have hnew : ∀ c ∈ L (hashipa source seg.source), c.2.call ≠ seg.call source dest version := by
      rintro ⟨a, v⟩ hin hcall
      have hfields : v.raddr = source ∧ v.rport = seg.source := by
        simp only [Limbo.call, Tcp.call, Call.mk.injEq] at hcall
        exact ⟨hcall.2.2.1, hcall.2.2.2.1⟩
      have hfound := hs.lookup (a := a) (v := v) (by rw [hfields.1, hfields.2]; exact hin)
      rw [hcall, hnone] at hfound
      cases hfound
    have hc := hs.chain _ hh
    cases hchain : L (hashipa source seg.source) with
    | nil =>
      rw [hchain] at hc
      exact (hsome (chain_nil.mp hc)).elim
    | cons c r =>
      obtain ⟨a, v⟩ := c
      rw [hchain] at hc
      have hr : r ≠ [] := by
        rintro rfl
        obtain ⟨hhead, n, hcell, htail⟩ := chain_cons.mp hc
        refine hlone ⟨hfull, a, ⟨n, v⟩, hhead, hcell, chain_nil.mp htail, ?_⟩
        exact hnew (a, v) (by rw [hchain]; exact mem_cons_self)
      obtain ⟨s', L', hrun, hheld, hsent⟩ := @Tcppriv.Holds.limbo_reuse _ _ _ _ _ _ _ _ _ _ iss malloc (some t) hs
        rfl hnew hfull hchain hr
      obtain ⟨rfl, hn⟩ := hsent t rfl
      have hc' := hheld.chain _ hh
      rw [update_self] at hc'
      refine ⟨s', a, v, r, _, hrun, hc, hc', rfl, ?_, hn⟩
      have hin : (a, t.stamp (seg.fill source dest version iss v)) ∈
          update L (hashipa source seg.source)
            (r ++ [(a, t.stamp (seg.fill source dest version iss v))])
            (hashipa source seg.source) := by simp
      exact hheld.lookup hin

/-- **The lost entry.**  The link at which the new entry is stored is its own. -/
theorem Tcppriv.Holds.limbo_lone (hs : s.Holds L) (hh : h = hashipa source seg.source)
    (hL : L h = [(a, v)]) (hnew : v.call ≠ seg.call source dest version)
    (hfull : Maxlimbo ≤ s.nlimbo) (t : Sent) :
    ∃ s', s.limbo source dest seg version iss malloc (some t) = some s' ∧ s'.lht h = none ∧
      (∀ k ≠ h, s'.lht k = s.lht k) ∧ (∀ b ≠ a, s'.mem b = s.mem b) ∧ s'.nlimbo = s.nlimbo := by
  have hlt : h < NLHT := hh ▸ hashipa_lt
  obtain ⟨hfind, hload⟩ := hs.find_new hlt (k := seg.call source dest version) (by simpa [hL] using hnew)
  have hc := hs.chain h hlt
  rw [hL] at hc hfind hload
  obtain ⟨hhead, n, hcell, htail⟩ := chain_cons.mp hc
  cases chain_nil.mp htail
  subst hh
  let s₁ := ((s.store (.head (hashipa source seg.source)) none).store (.next a) none).store
    (.next a) (some a)
  refine ⟨(s₁.set a (seg.fill source dest version iss)).set a t.stamp, ?_, ?_, ?_, ?_, ?_⟩
  · simp only [Tcppriv.limbo, hfind, hload, hfull, hhead, hcell, bind_eq_bind, bind_some, if_true]
    rfl
  · simp [s₁, Tcppriv.store]
  · intro k hk
    simp [s₁, Tcppriv.store, hk]
  · intro b hb
    simp [s₁, Tcppriv.store, Tcppriv.set, hb]
  · simp [s₁]

/-- After that the table is never right: `nlimbo` still counts the lost entry. -/
theorem Tcppriv.Holds.lone_lost (hs : s.Holds L) (hlt : h < NLHT) (hL : L h = [(a, v)])
    (hhead : s'.lht h = none) (hlht : ∀ k ≠ h, s'.lht k = s.lht k)
    (hmem : ∀ b ≠ a, s'.mem b = s.mem b) (hcount : s'.nlimbo = s.nlimbo) : ¬ ∃ L', s'.Holds L' := by
  rintro ⟨L', hs'⟩
  have hrest : ∀ k < NLHT, L' k = update L h [] k := by
    intro k hk
    have hc' := hs'.chain k hk
    by_cases hkh : k = h
    · subst hkh
      rw [hhead] at hc'
      rw [hc'.eq_nil, update_self]
    · rw [hlht k hkh] at hc'
      rw [update_of_ne hkh]
      refine Chain.unique hc' ((hs.chain k hk).frame ?_)
      intro b hb
      apply hmem
      rintro rfl
      exact hs.disjoint hlt hk hkh (by simp [hL]) hb
  have hsum : s'.nlimbo = ∑ k ∈ Finset.range NLHT, ((update L h [] k).length : Int) := by
    rw [hs'.count]
    apply Finset.sum_congr rfl
    intro k hk
    rw [hrest k (Finset.mem_range.mp hk)]
  rw [sum_length_update hlt, ← hs.count, hcount, hL] at hsum
  simp at hsum
  omega

theorem Tcppriv.store_free {b : Addr} (hfree : s.mem b = none) : (s.store l q).mem b = none := by
  cases l with
  | head h => exact hfree
  | next a =>
    simp only [Tcppriv.store, update_apply]
    split
    next hb => simp [← hb, hfree]
    next => exact hfree

theorem Tcppriv.set_free {b : Addr} {f : Limbo → Limbo} (hfree : s.mem b = none) :
    (s.set a f).mem b = none := by
  simp only [Tcppriv.set, update_apply]
  split
  next hb => simp [← hb, hfree]
  next => exact hfree

theorem Tcppriv.answer_free {b : Addr} {send : Option Sent} (hrun : s.answer l a send = some s')
    (hfree : s.mem b = none) : s'.mem b = none := by
  cases send with
  | some t =>
    cases hrun
    exact Tcppriv.set_free hfree
  | none =>
    simp only [Tcppriv.answer, Tcppriv.discard, bind_eq_bind, bind_eq_some_iff,
      Option.pure_def, Option.some.injEq] at hrun
    obtain ⟨c, _, rfl⟩ := hrun
    simp only [Tcppriv.free, update_apply]
    split
    · rfl
    · exact Tcppriv.store_free hfree

/-- Memory that is not in use stays so, unless `malloc` gives it. -/
theorem Tcppriv.limbo_free {b : Addr} (hrun : s.limbo source dest seg version iss malloc send = some s')
    (hfree : s.mem b = none) (hb : malloc ≠ some b) : s'.mem b = none := by
  simp only [Tcppriv.limbo, bind_eq_bind, bind_eq_some_iff] at hrun
  obtain ⟨l, _, p, _, hrun⟩ := hrun
  cases p with
  | some a => exact Tcppriv.answer_free hrun (Tcppriv.set_free hfree)
  | none =>
    simp only at hrun
    split at hrun
    · obtain ⟨c, _, hrun⟩ := Option.bind_eq_some_iff.mp hrun
      apply Tcppriv.answer_free hrun
      exact Tcppriv.set_free (Tcppriv.store_free (Tcppriv.store_free (Tcppriv.store_free hfree)))
    · cases malloc with
      | none =>
        cases hrun
        exact hfree
      | some a =>
        have hba : b ≠ a := fun heq => hb (heq ▸ rfl)
        apply Tcppriv.answer_free hrun
        apply Tcppriv.set_free
        apply Tcppriv.store_free
        simp only [update_of_ne hba, hfree]

theorem Tcppriv.Fresh.holds (hs : s.Fresh) : s.Holds fun _ => [] := by
  refine ⟨fun h _ => hs.2 h, by simp, by simp, ?_⟩
  simp [hs.1]

/-- The source of the `i`th SYN of a flood, in the chain of hash `b`. -/
def floodIp (i : Nat) (b : UInt8) : Ip
  | 12 => UInt8.ofNat (i / 256)
  | 13 => UInt8.ofNat i
  | 15 => b
  | _ => 0

theorem floodIp_inj {i j : Nat} {b c : UInt8} (hi : i < 1001) (hj : j < 1001)
    (heq : floodIp i b = floodIp j c) : i = j := by
  have h12 := congrArg UInt8.toNat (congrFun heq 12)
  have h13 := congrArg UInt8.toNat (congrFun heq 13)
  simp only [floodIp, UInt8.toNat_ofNat'] at h12 h13
  omega

def floodSyn : Tcp := ⟨0, 80, 0, 0, SYN, 0, 0⟩

theorem floodIp_hash (i : Nat) (b : UInt8) : hashipa (floodIp i b) floodSyn.source = b.toNat := by
  have hle := b.toNat_lt
  simp only [hashipa, floodIp, floodSyn, LHTMASK, NLHT]
  have hmod := Nat.and_two_pow_sub_one_eq_mod b.toNat 8
  rw [Nat.mod_eq_of_lt hle] at hmod
  simpa using hmod

def floodAct (i : Nat) (b : UInt8) : Act :=
  .limbo (floodIp i b) (fun _ => 0) floodSyn .v4 0 (some i) (some ⟨0, 0⟩)

/-- The call of the next SYN of a flood is new. -/
theorem flood_new {n : Nat} (hn : n ≤ 1000) (hcalls : ∀ c ∈ r, ∃ i < n, c.2.raddr = floodIp i 0) :
    ∀ c ∈ r, c.2.call ≠ floodSyn.call (floodIp n 0) (fun _ => 0) .v4 := by
  intro c hc hcall
  obtain ⟨i, hi, hraddr⟩ := hcalls c hc
  have heq : floodIp i 0 = floodIp n 0 := by
    rw [← hraddr]
    exact congrArg Call.raddr hcall
  have := floodIp_inj (by omega) (by omega) heq
  omega

/-- **A flood fills one chain.** -/
theorem flood (n : Nat) (hn : n ≤ 1000) :
    ∃ s L, Reach Tcppriv.Fresh (fun s i s' => s.Step i s' ∧ ¬ s.Lone i) s ∧ s.Holds L ∧
      (∀ h ≠ 0, L h = []) ∧ (∀ c ∈ L 0, ∃ i < n, c.2.raddr = floodIp i 0) ∧ (L 0).length = n ∧
      s.nlimbo = n ∧ ∀ b, n ≤ b → s.mem b = none := by
  induction n with
  | zero =>
    let s : Tcppriv := ⟨0, fun _ => none, fun _ => none⟩
    have hs : s.Fresh := ⟨rfl, fun _ => rfl⟩
    exact ⟨s, _, Reach.start hs, hs.holds, by simp, by simp, rfl, rfl, by simp [s]⟩
  | succ n ih =>
    obtain ⟨s, L, hr, hs, hother, hcalls, hlength, hcount, hfree⟩ := ih (by omega)
    have hh : 0 = hashipa (floodIp n 0) floodSyn.source := (floodIp_hash n 0).symm
    have hnew := flood_new (by omega) hcalls
    obtain ⟨s', L', hrun, hs', hsent⟩ := @Tcppriv.Holds.limbo_malloc _ _ _ _ _ _ _ _ 0 (some ⟨0, 0⟩) hs hh hnew
      (Or.inl (by rw [hcount]; simp [Maxlimbo]; omega)) (hfree n le_rfl)
    obtain ⟨rfl, hcount'⟩ := hsent _ rfl
    refine ⟨s', _, hr.next (i := floodAct n 0) ⟨⟨hfree n le_rfl, hrun⟩, ?_⟩, hs', ?_, ?_, ?_, ?_, ?_⟩
    · rintro ⟨hfull, _⟩
      rw [hcount] at hfull
      simp only [Maxlimbo] at hfull
      omega
    · intro h hh0
      rw [update_of_ne hh0]
      exact hother h hh0
    · intro c hc
      rw [update_self] at hc
      rcases List.mem_append.mp hc with hin | hin
      · obtain ⟨i, hi, hraddr⟩ := hcalls c hin
        exact ⟨i, by omega, hraddr⟩
      · cases List.mem_singleton.mp hin
        exact ⟨n, by omega, rfl⟩
    · rw [update_self, length_append, hlength]
      rfl
    · rw [hcount', hcount]
      push_cast
      rfl
    · intro b hb
      refine Tcppriv.limbo_free hrun (hfree b (by omega)) ?_
      intro heq
      cases heq
      omega

/-- **The limbo table in every run** in which no SYN for a new call meets a full table and
one entry in its chain: see `Tcppriv.Ok`. -/
theorem limbo_ok (hr : Reach Tcppriv.Fresh (fun s i s' => s.Step i s' ∧ ¬ s.Lone i) s) : s.Ok := by
  have hheld : ∃ L, s.Holds L := by
    apply hr.invariant (fun s => ∃ L, s.Holds L)
    · intro s hs
      exact ⟨_, hs.holds⟩
    · rintro s i s' ⟨L, hs⟩ ⟨⟨hallowed, hrun⟩, hlone⟩
      obtain ⟨t, L', hrun', hheld⟩ := hs.act hallowed hlone
      cases hrun.symm.trans hrun'
      exact ⟨L', hheld⟩
  obtain ⟨L, hs⟩ := hheld
  exact hs.ok

/-- A flood of 1000 calls, and one more: it replaces the oldest. -/
theorem limbo_ok_flooded : ∃ s : Tcppriv, s.nlimbo = 1000 ∧ s.Ok ∧
    s.Replaces (floodIp 1000 0) (fun _ => 0) floodSyn .v4 0 none ⟨0, 0⟩ := by
  obtain ⟨s, L, hr, hs, -, hcalls, hlength, hcount, -⟩ := flood 1000 le_rfl
  have hok := limbo_ok hr
  have hh := floodIp_hash 1000 0
  have hc := hs.chain 0 (by decide)
  obtain ⟨hfind, hload⟩ := hs.find_new (by decide) (flood_new le_rfl hcalls)
  refine ⟨s, hcount, hok, hok.replaces _ _ _ _ _ _ _ ?_ ?_ ?_ ?_⟩
  · rintro ⟨_, a, c, hhead, hcell, hnext, _⟩
    have hone : Chain s.mem (s.lht 0) [(a, c.val)] := by
      rw [hh] at hhead
      exact ⟨hhead, none, by rw [hcell, ← hnext], rfl⟩
    rw [hc.unique hone] at hlength
    simp at hlength
  · simp [hcount, Maxlimbo]
  · intro hnone
    rw [hh] at hnone
    rw [show s.lht 0 = none from hnone] at hc
    rw [hc.eq_nil] at hlength
    simp at hlength
  · simp only [Tcppriv.lookup, Tcp.call, hh]
    simp only [Tcp.call] at hfind
    simp [hfind, hload]

/-- One entry in the chain of hash 1 makes the table full. -/
theorem flood_full : ∃ s L v, Reach Tcppriv.Fresh (fun s i s' => s.Step i s' ∧ ¬ s.Lone i) s ∧
    s.Holds L ∧ L 1 = [(999, v)] ∧ v.raddr = floodIp 999 1 ∧ s.nlimbo = 1000 ∧ s.mem 1000 = none := by
  obtain ⟨s, L, hr, hs, hother, -, -, hcount, hfree⟩ := flood 999 (by omega)
  have hh : 1 = hashipa (floodIp 999 1) floodSyn.source := (floodIp_hash 999 1).symm
  obtain ⟨s', L', hrun, hs', hsent⟩ := @Tcppriv.Holds.limbo_malloc _ _ _ _ _ (fun _ => 0) _ .v4 0 (some ⟨0, 0⟩) hs hh
    (by simp [hother 1]) (Or.inr (hother 1 (by simp))) (hfree 999 le_rfl)
  obtain ⟨rfl, hcount'⟩ := hsent _ rfl
  refine ⟨s', _, Sent.stamp ⟨0, 0⟩ (floodSyn.fill (floodIp 999 1) (fun _ => 0) .v4 0 zeroed),
    hr.next (i := floodAct 999 1) ⟨⟨hfree 999 le_rfl, hrun⟩, ?_⟩, hs', ?_, ?_, ?_, ?_⟩
  · rintro ⟨hfull, _⟩
    rw [hcount] at hfull
    simp [Maxlimbo] at hfull
  · rw [update_self, hother 1 (by simp)]
    rfl
  · rfl
  · rw [hcount', hcount]
    rfl
  · exact Tcppriv.limbo_free hrun (hfree 1000 (by omega)) (by simp)

/-- The next SYN for a call of that chain loses the entry: the chain is empty, the call is not
found, and `nlimbo` counts one entry too many. -/
theorem limbo_breaks : ∃ s, Reach Tcppriv.Fresh Tcppriv.Step s ∧ (¬ ∃ L, s.Holds L) ∧
    s.nlimbo = 1000 ∧ s.lookup (floodSyn.call (floodIp 1000 1) (fun _ => 0) .v4) = some none := by
  obtain ⟨s, L, v, hr, hs, hL, hraddr, hcount, hfree⟩ := flood_full
  have hh : 1 = hashipa (floodIp 1000 1) floodSyn.source := (floodIp_hash 1000 1).symm
  have hnew : v.call ≠ floodSyn.call (floodIp 1000 1) (fun _ => 0) .v4 := by
    intro hcall
    have heq : floodIp 999 1 = floodIp 1000 1 := by
      rw [← hraddr]
      exact congrArg Call.raddr hcall
    have := floodIp_inj (by omega) (by omega) heq
    omega
  obtain ⟨s', hrun, hhead, hlht, hmem, hcount'⟩ := @Tcppriv.Holds.limbo_lone _ _ _ _ _ _ _ _ _ 0 (some 1000) hs hh hL
    hnew (by simp [Maxlimbo, hcount]) ⟨0, 0⟩
  have hreach := (hr.mono (fun _ _ _ h => h.1)).next (i := floodAct 1000 1) ⟨hfree, hrun⟩
  refine ⟨s', hreach, hs.lone_lost (by decide) hL hhead hlht hmem hcount', hcount'.trans hcount, ?_⟩
  have hfind : s'.find (floodSyn.call (floodIp 1000 1) (fun _ => 0) .v4) (.head 1) =
      some (.head 1) := by
    rw [Tcppriv.find]
    simp [Tcppriv.load, hhead]
  simp only [Tcppriv.lookup, Tcp.call, ← hh]
  simp only [Tcp.call] at hfind
  simp [hfind, Tcppriv.load, hhead]

end TcpLimbo
