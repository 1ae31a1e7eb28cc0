import NixKernel.StepSystem

/-!
# Looking a conversation up: `ip/ipaux.c`

The conversations of a protocol hang in a table of hash chains.  `iphtadd` notes with a
conversation how it matches, from which of its addresses and ports are wild, and
`iphtlook` goes through up to five chains, one for each way to match.

The table is compared with a plain list, `held`, to which `iphtadd` adds and from which
`iphtrem` erases: every chain holds the conversations of the list that have its hash value, in
the order of the list.  The hash value depends on the local port alone, since everything else
is shifted out of the six bits that `Nhash` leaves.
-/

namespace Iphash

open StepSystem

open Function (update update_self update_of_ne)

abbrev Addr := Vector UInt8 16

def IPnoaddr : Addr := Vector.replicate 16 0

def Nhash : Nat := 64

/-- `IPmatchexact` and what follows it. -/
inductive Match
  | exact
  | any
  | port
  | addr
  | pa
  deriving DecidableEq

/-- What the table reads of a `Conv`. -/
structure Conv where
  raddr : Addr
  rport : UInt16
  laddr : Addr
  lport : UInt16
  deriving DecidableEq

/-- `iphash`.  No term overflows its `uint`. -/
def iphash (sa : Addr) (sp : UInt16) (da : Addr) (dp : UInt16) : Fin Nhash :=
  ⟨((sa[15].toNat <<< 24) ^^^ (sp.toNat <<< 16) ^^^ (da[15].toNat <<< 8) ^^^ dp.toNat) % Nhash,
    Nat.mod_lt _ (by decide)⟩

/-- The chain of a conversation. -/
def Conv.hv (c : Conv) : Fin Nhash := iphash c.raddr c.rport c.laddr c.lport

/-- How `iphtadd` has a conversation match. -/
def Conv.how (c : Conv) : Match :=
  if c.raddr ≠ IPnoaddr then .exact
  else if c.laddr ≠ IPnoaddr then
    if c.lport = 0 then .addr else .pa
  else if c.lport = 0 then .any
  else .port

/-- `Iphash`: an entry of a chain, with its conversation and its `match`. -/
structure Entry (C : Type*) where
  c : C
  how : Match

/-- `Ipht`, with the conversations that `C` points to. -/
structure Ipht (C : Type*) where
  conv : C → Conv
  tab : Fin Nhash → List (Entry C)

section

variable {C : Type*} [DecidableEq C]

def Ipht.iphtadd (ht : Ipht C) (c : C) : Ipht C :=
  let hv := (ht.conv c).hv
  { ht with tab := update ht.tab hv (⟨c, (ht.conv c).how⟩ :: ht.tab hv) }

/-- `iphtrem`: the first entry of the chain that is for `c`, if there is one. -/
def Ipht.iphtrem (ht : Ipht C) (c : C) : Ipht C :=
  let hv := (ht.conv c).hv
  { ht with tab := update ht.tab hv ((ht.tab hv).eraseP fun h => h.c = c) }

/-- One of the loops of `iphtlook`. -/
def Ipht.probe (ht : Ipht C) (hv : Fin Nhash) (how : Match) (test : Conv → Bool) : Option C :=
  ((ht.tab hv).find? fun h => h.how = how && test (ht.conv h.c)).map Entry.c

def Ipht.iphtlook (ht : Ipht C) (sa : Addr) (sp : UInt16) (da : Addr) (dp : UInt16) : Option C :=
  (ht.probe (iphash sa sp da dp) .exact fun c =>
      sp = c.rport && dp = c.lport && sa = c.raddr && da = c.laddr) <|>
    (ht.probe (iphash IPnoaddr 0 da dp) .pa fun c => dp = c.lport && da = c.laddr) <|>
    (ht.probe (iphash IPnoaddr 0 IPnoaddr dp) .port fun c => dp = c.lport) <|>
    (ht.probe (iphash IPnoaddr 0 da 0) .addr fun c => da = c.laddr) <|>
    ht.probe (iphash IPnoaddr 0 IPnoaddr 0) .any fun _ => true

/-- A table with the list of what was put into it and not taken out. -/
structure Table (C : Type*) where
  ht : Ipht C
  held : List C

inductive Act (C : Type*)
  | iphtadd (c : C)
  | iphtrem (c : C)
  /-- The addresses and ports of `c` are set, as by a connect or an announce. -/
  | set (c : C) (v : Conv)

def Table.act (t : Table C) : Act C → Table C
  | .iphtadd c => ⟨t.ht.iphtadd c, c :: t.held⟩
  | .iphtrem c => ⟨t.ht.iphtrem c, t.held.erase c⟩
  | .set c v => { t with ht.conv := update t.ht.conv c v }

/-- What is in the table does not change. -/
def Table.Step (t : Table C) (a : Act C) (t' : Table C) : Prop :=
  (∀ c v, a = .set c v → c ∉ t.held) ∧ t.act a = t'

/-- The table is empty. -/
structure Table.Fresh (t : Table C) : Prop where
  tab : ∀ b, t.ht.tab b = []
  held : t.held = []

/-- `r` is a conversation of the list that fits the first wish which any fits, or nil. -/
def Chosen (held : List C) (conv : C → Conv) : List (Conv → Prop) → Option C → Prop
  | [], r => r = none
  | p :: ps, r =>
    ((∃ c ∈ held, p (conv c)) → ∃ c ∈ held, p (conv c) ∧ r = some c) ∧
      ((¬ ∃ c ∈ held, p (conv c)) → Chosen held conv ps r)

/-- Announced on this address and this port, either of which may be the wild one. -/
def Conv.Announced (c : Conv) (laddr : Addr) (lport : UInt16) : Prop :=
  c.raddr = IPnoaddr ∧ c.laddr = laddr ∧ c.lport = lport

/-- Connected, with just these addresses and ports. -/
def Conv.Connected (c : Conv) (sa : Addr) (sp : UInt16) (da : Addr) (dp : UInt16) : Prop :=
  c.raddr ≠ IPnoaddr ∧ c = ⟨sa, sp, da, dp⟩

/-- What a lookup wishes for, the best first. -/
def wishes (sa : Addr) (sp : UInt16) (da : Addr) (dp : UInt16) : List (Conv → Prop) :=
  [(·.Connected sa sp da dp), (·.Announced da dp), (·.Announced IPnoaddr dp), (·.Announced da 0),
    (·.Announced IPnoaddr 0)]

/-- The hash value is that of the local port. -/
theorem iphash_eq (sa : Addr) (sp : UInt16) (da : Addr) (dp : UInt16) :
    (iphash sa sp da dp).val = dp.toNat % Nhash := by
  have hshift : ∀ x k, 6 ≤ k → (x <<< k) % 2 ^ 6 = 0 := by
    intro x k hk
    rw [Nat.shiftLeft_eq]
    exact Nat.mod_eq_zero_of_dvd (Dvd.dvd.mul_left (Nat.pow_dvd_pow 2 hk) x)
  change _ % 2 ^ 6 = _ % 2 ^ 6
  rw [Nat.xor_mod_two_pow, Nat.xor_mod_two_pow, Nat.xor_mod_two_pow, hshift _ 24 (by decide),
    hshift _ 16 (by decide), hshift _ 8 (by decide)]
  simp

/-- Only the port decides about the chain. -/
theorem iphash_congr {sa sa' : Addr} {sp sp' : UInt16} {da da' : Addr} {dp dp' : UInt16} (h : dp = dp') :
    iphash sa sp da dp = iphash sa' sp' da' dp' := by
  apply Fin.ext
  rw [iphash_eq, iphash_eq, h]

/-- Every chain holds the conversations of the list with its hash value, in order. -/
def Table.Inv (t : Table C) : Prop :=
  ∀ b, t.ht.tab b =
    (t.held.filter fun c => (t.ht.conv c).hv = b).map fun c => ⟨c, (t.ht.conv c).how⟩

variable {t t' : Table C}

omit [DecidableEq C] in
theorem Table.Fresh.inv (h : t.Fresh) : t.Inv := by
  intro b
  rw [h.tab, h.held]
  rfl

omit [DecidableEq C] in
theorem Table.Inv.add (h : t.Inv) (c : C) : (Table.mk (t.ht.iphtadd c) (c :: t.held)).Inv := by
  intro b
  change update t.ht.tab (t.ht.conv c).hv _ b = _
  by_cases hb : b = (t.ht.conv c).hv
  · subst hb
    rw [update_self, h, List.filter_cons_of_pos (by simp [Ipht.iphtadd]), List.map_cons]
    rfl
  · have hother : List.filter (fun x => (t.ht.conv x).hv = b) (c :: t.held) =
        List.filter (fun x => (t.ht.conv x).hv = b) t.held :=
      List.filter_cons_of_neg (by simpa using fun heq => hb heq.symm)
    change _ = List.map (fun x => Entry.mk x (t.ht.conv x).how)
      (List.filter (fun x => (t.ht.conv x).hv = b) (c :: t.held))
    rw [update_of_ne hb, h, hother]

/-- The first entry for a conversation is for its first occurrence in the list. -/
theorem eraseP_entries {c : C} {p : C → Bool} {how : C → Match} (hp : p c = true) (l : List C) :
    ((l.filter p).map fun x => Entry.mk x (how x)).eraseP (fun h => h.c = c) =
      ((l.erase c).filter p).map fun x => Entry.mk x (how x) := by
  induction l with
  | nil => rfl
  | cons a l ih =>
    by_cases ha : a = c
    · subst ha
      rw [List.filter_cons_of_pos hp, List.map_cons, List.eraseP_cons_of_pos (by simp), List.erase_cons_head]
    · rw [List.erase_cons_tail (by simpa using ha)]
      by_cases hpa : p a = true
      · rw [List.filter_cons_of_pos hpa, List.filter_cons_of_pos hpa, List.map_cons, List.map_cons,
          List.eraseP_cons_of_neg (by simpa using ha), ih]
      · rw [List.filter_cons_of_neg hpa, List.filter_cons_of_neg hpa, ih]

theorem Table.Inv.rem (h : t.Inv) (c : C) : (Table.mk (t.ht.iphtrem c) (t.held.erase c)).Inv := by
  intro b
  change update t.ht.tab (t.ht.conv c).hv _ b = _
  by_cases hb : b = (t.ht.conv c).hv
  · subst hb
    rw [update_self, h, eraseP_entries (by simp)]
    rfl
  · rw [update_of_ne hb, h]
    have hother : ∀ l : List C, (l.erase c).filter (fun x => (t.ht.conv x).hv = b) =
        l.filter fun x => (t.ht.conv x).hv = b := by
      intro l
      induction l with
      | nil => rfl
      | cons a l ih =>
        by_cases ha : a = c
        · subst ha
          rw [List.erase_cons_head, List.filter_cons_of_neg (by simpa using Ne.symm hb)]
        · rw [List.erase_cons_tail (by simpa using ha), List.filter_cons, List.filter_cons, ih]
    change _ = List.map _ (List.filter (fun x => (t.ht.conv x).hv = b) (t.held.erase c))
    rw [hother]
    rfl

theorem Table.Inv.set (h : t.Inv) {c : C} {v : Conv} (hc : c ∉ t.held) :
    Table.Inv { t with ht.conv := update t.ht.conv c v } := by
  have hsame : ∀ x ∈ t.held, update t.ht.conv c v x = t.ht.conv x := by
    intro x hx
    rcases eq_or_ne x c with rfl | hne
    · exact absurd hx hc
    · exact update_of_ne hne _ _
  intro b
  change t.ht.tab b = List.map (fun x => ⟨x, (update t.ht.conv c v x).how⟩)
    (List.filter (fun x => (update t.ht.conv c v x).hv = b) t.held)
  have hfilter : List.filter (fun x => (update t.ht.conv c v x).hv = b) t.held =
      List.filter (fun x => (t.ht.conv x).hv = b) t.held :=
    List.filter_congr fun x hx => by rw [hsame x hx]
  rw [h, hfilter]
  apply List.map_congr_left
  intro x hx
  rw [hsame x (List.mem_filter.mp hx).1]

theorem Table.Inv.act (h : t.Inv) {a : Act C} (hstep : t.Step a t') : t'.Inv := by
  obtain ⟨hfree, rfl⟩ := hstep
  cases a with
  | iphtadd c => exact h.add c
  | iphtrem c => exact h.rem c
  | set c v => exact h.set (hfree c v rfl)

/-- What a `match` says about the conversation it was computed from. -/
def Match.Fits (c : Conv) : Match → Prop
  | .exact => c.raddr ≠ IPnoaddr
  | .pa => c.raddr = IPnoaddr ∧ c.laddr ≠ IPnoaddr ∧ c.lport ≠ 0
  | .port => c.raddr = IPnoaddr ∧ c.laddr = IPnoaddr ∧ c.lport ≠ 0
  | .addr => c.raddr = IPnoaddr ∧ c.laddr ≠ IPnoaddr ∧ c.lport = 0
  | .any => c.raddr = IPnoaddr ∧ c.laddr = IPnoaddr ∧ c.lport = 0

theorem how_iff {c : Conv} {m : Match} : c.how = m ↔ m.Fits c := by
  rw [Conv.how]
  cases m <;> split_ifs <;> simp_all [Match.Fits]

/-- `r` is a conversation of the list that has the property, or nil if none has it. -/
def Searched (held : List C) (conv : C → Conv) (p : Conv → Prop) (r : Option C) : Prop :=
  (∃ c ∈ held, p (conv c) ∧ r = some c) ∨ (r = none ∧ ∀ c ∈ held, ¬ p (conv c))

omit [DecidableEq C] in
/-- A loop searches the whole list, if what it looks for can only be in its chain. -/
theorem Table.Inv.probe (h : t.Inv) {p : Conv → Prop} {hv : Fin Nhash} {m : Match} {test : Conv → Bool}
    (hp : ∀ c, p c ↔ m.Fits c ∧ test c = true) (hhome : ∀ c, p c → c.hv = hv) :
    Searched t.held t.ht.conv p (t.ht.probe hv m test) := by
  rw [Ipht.probe, h]
  cases hfind : List.find? (fun h => h.how = m && test (t.ht.conv h.c))
      ((t.held.filter fun c => (t.ht.conv c).hv = hv).map fun c => Entry.mk c (t.ht.conv c).how) with
  | none =>
    refine Or.inr ⟨rfl, fun c hc hpc => ?_⟩
    have hmem : c ∈ t.held.filter fun c => (t.ht.conv c).hv = hv :=
      List.mem_filter.mpr ⟨hc, decide_eq_true (hhome _ hpc)⟩
    have hnot := List.find?_eq_none.mp hfind _ (List.mem_map_of_mem hmem)
    obtain ⟨hfits, htest⟩ := (hp _).mp hpc
    simp [how_iff.mpr hfits, htest] at hnot
  | some e =>
    left
    obtain ⟨c, hc, rfl⟩ := List.mem_map.mp (List.mem_of_find?_eq_some hfind)
    have htest := List.find?_some hfind
    rw [Bool.and_eq_true, decide_eq_true_eq] at htest
    exact ⟨c, (List.mem_filter.mp hc).1, (hp _).mpr ⟨how_iff.mp htest.1, htest.2⟩, rfl⟩

section Logic

variable {held : List C} {conv : C → Conv} {p : Conv → Prop} {ps : List (Conv → Prop)} {c : C}
  {r : Option C}

omit [DecidableEq C] in
theorem Chosen.found (hc : c ∈ held) (hp : p (conv c)) : Chosen held conv (p :: ps) (some c) :=
  ⟨fun _ => ⟨c, hc, hp, rfl⟩, fun hno => absurd ⟨c, hc, hp⟩ hno⟩

omit [DecidableEq C] in
theorem Chosen.skip (hno : ∀ c ∈ held, ¬ p (conv c)) (h : Chosen held conv ps r) :
    Chosen held conv (p :: ps) r :=
  ⟨fun ⟨c, hc, hp⟩ => absurd hp (hno c hc), fun _ => h⟩

omit [DecidableEq C] in
/-- What the five loops look for comes to the five wishes, also where the address or the port
looked up is a wild one, so that some of the loops look for nothing. -/
theorem chosen_of_searched {sa : Addr} {sp : UInt16} {da : Addr} {dp : UInt16}
    {r₁ r₂ r₃ r₄ r₅ : Option C} (h₁ : Searched held conv (·.Connected sa sp da dp) r₁)
    (h₂ : Searched held conv (fun c => c.Announced da dp ∧ da ≠ IPnoaddr ∧ dp ≠ 0) r₂)
    (h₃ : Searched held conv (fun c => c.Announced IPnoaddr dp ∧ dp ≠ 0) r₃)
    (h₄ : Searched held conv (fun c => c.Announced da 0 ∧ da ≠ IPnoaddr) r₄)
    (h₅ : Searched held conv (·.Announced IPnoaddr 0) r₅) :
    Chosen held conv (wishes sa sp da dp) (r₁ <|> r₂ <|> r₃ <|> r₄ <|> r₅) := by
  rcases h₁ with ⟨c, hc, hp, rfl⟩ | ⟨rfl, hno₁⟩
  · exact Chosen.found hc hp
  refine Chosen.skip hno₁ ?_
  rcases h₂ with ⟨c, hc, hp, rfl⟩ | ⟨rfl, hno₂⟩
  · exact Chosen.found hc hp.1
  rcases h₃ with ⟨c, hc, hp, rfl⟩ | ⟨rfl, hno₃⟩
  · by_cases hda : da = IPnoaddr
    · subst hda
      exact Chosen.found hc hp.1
    · refine Chosen.skip (fun x hx hann => hno₂ x hx ⟨hann, hda, hp.2⟩) ?_
      exact Chosen.found hc hp.1
  rcases h₄ with ⟨c, hc, hp, rfl⟩ | ⟨rfl, hno₄⟩
  · by_cases hdp : dp = 0
    · subst hdp
      exact Chosen.found hc hp.1
    · refine Chosen.skip (fun x hx hann => hno₂ x hx ⟨hann, hp.2, hdp⟩) ?_
      refine Chosen.skip (fun x hx hann => hno₃ x hx ⟨hann, hdp⟩) ?_
      exact Chosen.found hc hp.1
  -- nothing but the fully wild is left
  have hwild : ∀ x ∈ held, ∀ a n, a = da ∨ a = IPnoaddr → n = dp ∨ n = 0 → (conv x).Announced a n →
      a = IPnoaddr ∧ n = 0 := by
    intro x hx a n ha hn hann
    have hn0 : n = 0 := by
      by_contra hne
      have hdp : n = dp := hn.resolve_right hne
      subst hdp
      by_cases hna : a = IPnoaddr
      · subst hna
        exact hno₃ x hx ⟨hann, hne⟩
      · have hda := ha.resolve_right hna
        subst hda
        exact hno₂ x hx ⟨hann, hna, hne⟩
    subst hn0
    refine ⟨?_, rfl⟩
    by_contra hna
    have hda := ha.resolve_right hna
    subst hda
    exact hno₄ x hx ⟨hann, hna⟩
  rcases h₅ with ⟨c, hc, hp, rfl⟩ | ⟨rfl, hno₅⟩
  · have hstep : ∀ a n ps, a = da ∨ a = IPnoaddr → n = dp ∨ n = 0 → Chosen held conv ps (some c) →
        Chosen held conv ((·.Announced a n) :: ps) (some c) := by
      intro a n ps ha hn hrest
      by_cases heq : a = IPnoaddr ∧ n = 0
      · obtain ⟨rfl, rfl⟩ := heq
        exact Chosen.found hc hp
      · exact Chosen.skip (fun x hx hann => heq (hwild x hx a n ha hn hann)) hrest
    apply hstep da dp _ (Or.inl rfl) (Or.inl rfl)
    apply hstep IPnoaddr dp _ (Or.inr rfl) (Or.inl rfl)
    apply hstep da 0 _ (Or.inl rfl) (Or.inr rfl)
    exact Chosen.found hc hp
  · have hnone : ∀ a n, a = da ∨ a = IPnoaddr → n = dp ∨ n = 0 →
        ∀ x ∈ held, ¬ (conv x).Announced a n := by
      intro a n ha hn x hx hann
      obtain ⟨rfl, rfl⟩ := hwild x hx a n ha hn hann
      exact hno₅ x hx hann
    apply Chosen.skip (hnone da dp (Or.inl rfl) (Or.inl rfl))
    apply Chosen.skip (hnone IPnoaddr dp (Or.inr rfl) (Or.inl rfl))
    apply Chosen.skip (hnone da 0 (Or.inl rfl) (Or.inr rfl))
    exact Chosen.skip hno₅ rfl

end Logic

/-- **The precedence of a lookup**: the conversation connected with just these addresses and
ports comes first, then one announced on the address and the port, on the port alone, on the
address alone, and on neither. -/
theorem iphtlook_precedence {t₀ : Table C} (h₀ : t₀.Fresh) (hr : Reach (· = t₀) Table.Step t)
    (sa : Addr) (sp : UInt16) (da : Addr) (dp : UInt16) :
    Chosen t.held t.ht.conv (wishes sa sp da dp) (t.ht.iphtlook sa sp da dp) := by
  have h : t.Inv := by
    apply hr.invariant Table.Inv
    · rintro t rfl
      exact h₀.inv
    · intro t a t' h hstep
      exact h.act hstep
  apply chosen_of_searched
  · apply h.probe
    · rintro ⟨raddr, rport, laddr, lport⟩
      simp only [Conv.Connected, Match.Fits, Conv.mk.injEq, Bool.and_eq_true, decide_eq_true_eq]
      tauto
    · rintro c ⟨-, rfl⟩
      rfl
  · apply h.probe
    · intro c
      simp only [Conv.Announced, Match.Fits, Bool.and_eq_true, decide_eq_true_eq]
      constructor
      · rintro ⟨⟨hr, rfl, rfl⟩, hda, hdp⟩
        exact ⟨⟨hr, hda, hdp⟩, rfl, rfl⟩
      · rintro ⟨⟨hr, hda, hdp⟩, rfl, rfl⟩
        exact ⟨⟨hr, rfl, rfl⟩, hda, hdp⟩
    · rintro c ⟨⟨-, -, hport⟩, -⟩
      exact iphash_congr hport
  · apply h.probe
    · intro c
      simp only [Conv.Announced, Match.Fits, decide_eq_true_eq]
      constructor
      · rintro ⟨⟨hr, hl, rfl⟩, hdp⟩
        exact ⟨⟨hr, hl, hdp⟩, rfl⟩
      · rintro ⟨⟨hr, hl, hdp⟩, rfl⟩
        exact ⟨⟨hr, hl, rfl⟩, hdp⟩
    · rintro c ⟨⟨-, -, hport⟩, -⟩
      exact iphash_congr hport
  · apply h.probe
    · intro c
      simp only [Conv.Announced, Match.Fits, decide_eq_true_eq]
      constructor
      · rintro ⟨⟨hr, rfl, hport⟩, hda⟩
        exact ⟨⟨hr, hda, hport⟩, rfl⟩
      · rintro ⟨⟨hr, hda, hport⟩, rfl⟩
        exact ⟨⟨hr, rfl, hport⟩, hda⟩
    · rintro c ⟨⟨-, -, hport⟩, -⟩
      exact iphash_congr hport
  · apply h.probe
    · intro c
      exact (and_iff_left rfl).symm
    · rintro c ⟨-, -, hport⟩
      exact iphash_congr hport

end

/-- Conversation 1 is connected from port 5 to port 80, conversation 0 announced on port 80. -/
def someConvs : Nat → Conv
  | 0 => ⟨IPnoaddr, 0, IPnoaddr, 80⟩
  | _ => ⟨Vector.replicate 16 7, 5, Vector.replicate 16 9, 80⟩

def someTable : Table Nat := ⟨⟨someConvs, fun _ => []⟩, []⟩

/-- The connected conversation is found in front of the announced one, which is in front of it in
the same chain. -/
theorem iphtlook_precedence_connected :
    ∃ t : Table Nat, t.held = [0, 1] ∧
      Chosen t.held t.ht.conv (wishes (Vector.replicate 16 7) 5 (Vector.replicate 16 9) 80)
        (t.ht.iphtlook (Vector.replicate 16 7) 5 (Vector.replicate 16 9) 80) ∧
      t.ht.iphtlook (Vector.replicate 16 7) 5 (Vector.replicate 16 9) 80 = some 1 := by
  have h₀ : someTable.Fresh := ⟨fun _ => rfl, rfl⟩
  have h₁ : Reach (· = someTable) Table.Step someTable := Reach.start rfl
  have h₂ := h₁.next (i := Act.iphtadd 1) ⟨nofun, rfl⟩
  have h₃ := h₂.next (i := Act.iphtadd 0) ⟨nofun, rfl⟩
  exact ⟨_, rfl, iphtlook_precedence h₀ h₃ _ _ _ _, by decide +kernel⟩

/-- Of two conversations with a wild remote address the one that has just the remote port looked up
is not preferred: the table takes both for announced. -/
theorem wild_remote_port :
    ∃ t₀ t : Table Nat, t₀.Fresh ∧ Reach (· = t₀) Table.Step t ∧ 1 ∈ t.held ∧
      t.ht.conv 1 = ⟨IPnoaddr, 5, IPnoaddr, 80⟩ ∧
      t.ht.iphtlook IPnoaddr 5 IPnoaddr 80 = some 0 ∧ t.ht.conv 0 = ⟨IPnoaddr, 0, IPnoaddr, 80⟩ := by
  have h₀ : someTable.Fresh := ⟨fun _ => rfl, rfl⟩
  have h₁ : Reach (· = someTable) Table.Step someTable := Reach.start rfl
  have h₂ := h₁.next (i := Act.set 1 ⟨IPnoaddr, 5, IPnoaddr, 80⟩) ⟨fun _ _ _ => List.not_mem_nil, rfl⟩
  have h₃ := h₂.next (i := Act.iphtadd 1) ⟨nofun, rfl⟩
  have h₄ := h₃.next (i := Act.iphtadd 0) ⟨nofun, rfl⟩
  exact ⟨_, _, h₀, h₄, by decide +kernel⟩

end Iphash
