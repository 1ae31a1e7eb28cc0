import NixKernel.ArpTable

/-!
# The chains of the ARP table

Which entries are on the chains is followed through the functions that link and unlink, with what
the entries hold set apart: a step keeps the chains right, and then makes the entry what its chains
say that it is.
-/

namespace ArpTable

open Function ChainTable LinkList List Option

variable {s t : Arp} {a e : Entry} {used waits used' waits' : Entry → Prop} {ip : Ip} {i : Nat}
  {now : UInt32} {ent : Arpent}

/-- The entries on the hash chains are those in `used`, and those to send again are in `waits`. -/
structure Linked (s : Arp) (used waits : Entry → Prop) : Prop where
  hash : ∃ tab, Chains s.hash s.next tab ∧ ∀ b a, a ∈ tab b ↔ used a ∧ haship (s.cache a).ip = b
  rxmt : ∃ l, Path s.nextrxt s.rxmt l none ∧ ∀ a, a ∈ l ↔ waits a

theorem length_lt_fuel {l : List Entry} (h : l.Nodup) : l.length < fuel := by
  have hle := h.length_le_card
  rw [Fintype.card_fin] at hle
  exact Nat.lt_succ_of_le hle

theorem Linked.congr (h : Linked s used waits) (hused : ∀ a, used a ↔ used' a)
    (hwaits : ∀ a, waits a ↔ waits' a) : Linked s used' waits' := by
  obtain ⟨tab, htab, hmem⟩ := h.hash
  obtain ⟨l, hl, hmem'⟩ := h.rxmt
  exact ⟨⟨tab, htab, fun b a => by rw [hmem, hused]⟩, ⟨l, hl, fun a => by rw [hmem', hwaits]⟩⟩

/-- What an entry holds may change, but for the address of one that is on a chain. -/
theorem Linked.set (h : Linked s used waits) (hip : used a → ent.ip = (s.cache a).ip) :
    Linked (s.set a ent) used waits := by
  obtain ⟨tab, htab, hmem⟩ := h.hash
  refine ⟨⟨tab, htab, fun b x => ?_⟩, h.rxmt⟩
  rw [hmem]
  change _ ↔ _ ∧ haship (update s.cache a ent x).ip = b
  by_cases hx : x = a
  · subst hx
    rw [update_self]
    exact and_congr_right fun hu => by rw [hip hu]
  · rw [update_of_ne hx]

/-- The links of an entry on neither chain may be written. -/
theorem Linked.free (h : Linked s used waits) (ha : ¬waits a) (m : Option Entry) :
    Linked { s with nextrxt := update s.nextrxt a m } used waits := by
  obtain ⟨l, hl, hmem⟩ := h.rxmt
  exact ⟨h.hash, ⟨l, hl.update_ne fun hmem' => ha ((hmem a).mp hmem'), hmem⟩⟩

theorem Linked.freehash (h : Linked s used waits) (ha : ¬used a) (m : Option Entry) :
    Linked { s with next := update s.next a m } used waits := by
  obtain ⟨tab, htab, hmem⟩ := h.hash
  exact ⟨⟨tab, htab.free (fun b hb => ha ((hmem b a).mp hb).1) m, hmem⟩, h.rxmt⟩

theorem unhash_spec (h : Linked s used waits) (a : Entry) :
    ∃ t, s.unhash a = some t ∧ t.cache = s.cache ∧ Linked t (fun x => used x ∧ x ≠ a) waits := by
  obtain ⟨tab, htab, hmem⟩ := h.hash
  obtain ⟨p, links, hrun, hchains⟩ := htab.unlink (haship (s.cache a).ip) a (length_lt_fuel (htab.nodup _))
  refine ⟨{ s with hash := update s.hash (haship (s.cache a).ip) p, next := links }, ?_, rfl,
    ⟨⟨_, hchains, fun b x => ?_⟩, h.rxmt⟩⟩
  · rw [Arp.unhash, hrun]
    rfl
  · by_cases hb : b = haship (s.cache a).ip
    · rw [hb, update_self, (htab.nodup _).mem_erase_iff, hmem]
      tauto
    · rw [update_of_ne hb, hmem]
      constructor
      · rintro ⟨hu, hx⟩
        exact ⟨⟨hu, fun heq => hb (heq ▸ hx.symm)⟩, hx⟩
      · rintro ⟨⟨hu, -⟩, hx⟩
        exact ⟨hu, hx⟩

theorem unrxmt_spec (h : Linked s used waits) (a : Entry) :
    ∃ t, s.unrxmt a = some t ∧ t.cache = s.cache ∧ Linked t used (fun x => waits x ∧ x ≠ a) := by
  obtain ⟨l, hl, hmem⟩ := h.rxmt
  obtain ⟨p, links, hrun, hpath, -⟩ := unlink_spec a hl (length_lt_fuel hl.nodup)
  refine ⟨{ s with rxmt := p, nextrxt := links }, ?_, rfl, ⟨h.hash, ⟨_, hpath, fun x => ?_⟩⟩⟩
  · rw [Arp.unrxmt, hrun]
    rfl
  · rw [hl.nodup.mem_erase_iff, hmem]
    tauto

theorem rxmtend_spec (h : Linked s used waits) (a : Entry) :
    ∃ t, s.rxmtend a = some t ∧ t.cache = s.cache ∧
      Linked { t with nextrxt := update t.nextrxt a none } used (fun x => waits x ∨ x = a) := by
  obtain ⟨l, hl, hmem⟩ := h.rxmt
  obtain ⟨p, links, hrun, hpath⟩ := toEnd_spec a hl (length_lt_fuel hl.nodup)
  refine ⟨{ s with rxmt := p, nextrxt := links }, ?_, rfl, ⟨h.hash, ⟨_, hpath, fun x => ?_⟩⟩⟩
  · rw [Arp.rxmtend, hrun]
    rfl
  · rw [mem_append, mem_singleton, hl.nodup.mem_erase_iff, hmem]
    tauto

theorem link_spec (ent : Arpent) (h : Linked s used waits) (ha : ¬used a) (ip : Ip) (hip : ent.ip = ip) :
    Linked ((s.link a ip).set a ent) (fun x => used x ∨ x = a) waits := by
  obtain ⟨tab, htab, hmem⟩ := h.hash
  have hout : ∀ b, a ∉ tab b := fun b hb => ha ((hmem b a).mp hb).1
  refine ⟨⟨_, htab.cons hout (haship ip), fun b x => ?_⟩, h.rxmt⟩
  change _ ↔ _ ∧ haship (update s.cache a ent x).ip = b
  have hold : x ∈ update tab (haship ip) (a :: tab (haship ip)) b ↔ (x = a ∧ b = haship ip) ∨ x ∈ tab b := by
    by_cases hb : b = haship ip
    · subst hb
      rw [update_self, mem_cons]
      tauto
    · rw [update_of_ne hb]
      tauto
  rw [hold, hmem]
  by_cases hx : x = a
  · subst hx
    rw [update_self, hip]
    constructor
    · rintro (⟨-, hb⟩ | ⟨hu, -⟩)
      · exact ⟨Or.inr rfl, hb.symm⟩
      · exact absurd hu ha
    · rintro ⟨-, hb⟩
      exact Or.inl ⟨rfl, hb.symm⟩
  · rw [update_of_ne hx]
    tauto

/-- **`newarp6`** puts the oldest entry on the chains of its new address. -/
theorem newarp6_spec (h : Linked s used waits) (ip : Ip) (i : Nat) (ifc : Ipifc) (addrxt : Bool)
    (now : UInt32) (hspare : waits s.oldest → (!ipismulticast ip && addrxt) = true) :
    ∃ t, s.newarp6 ip i ifc addrxt now = some (s.oldest, t) ∧
      t.cache = update s.cache s.oldest ((s.cache s.oldest).renew ip i ifc now) ∧
      Linked t (fun x => used x ∨ x = s.oldest)
        (fun x => waits x ∨ ((!ipismulticast ip && addrxt) = true ∧ x = s.oldest)) := by
  obtain ⟨u, hrun, hcache, hu⟩ := unhash_spec h s.oldest
  have hlink := link_spec ((u.cache s.oldest).renew ip i ifc now) hu (fun h => h.2 rfl) ip rfl
  have hset : ((u.link s.oldest ip).set s.oldest ((u.cache s.oldest).renew ip i ifc now)).cache =
      update s.cache s.oldest ((s.cache s.oldest).renew ip i ifc now) := by
    rw [← hcache]
    rfl
  have hused : ∀ x, ((used x ∧ x ≠ s.oldest) ∨ x = s.oldest) ↔ (used x ∨ x = s.oldest) := by
    intro x
    tauto
  rw [Arp.newarp6, hrun]
  by_cases hlist : (!ipismulticast ip && addrxt) = true
  · obtain ⟨t, hend, hcache', ht⟩ := rxmtend_spec hlink s.oldest
    refine ⟨{ t with nextrxt := update t.nextrxt s.oldest none }, ?_, hcache'.trans hset,
      ht.congr hused fun x => ?_⟩
    · simp only [bind_eq_bind, bind_some, if_pos hlist]
      rw [hend]
      rfl
    · rw [hlist]
      tauto
  · have hfree := hlink.free (fun hw => hlist (hspare hw)) none
    refine ⟨{ (u.link s.oldest ip).set s.oldest ((u.cache s.oldest).renew ip i ifc now) with
        nextrxt := update u.nextrxt s.oldest none }, ?_, hset, hfree.congr hused fun x => ?_⟩
    · simp only [bind_eq_bind, bind_some, if_neg hlist]
      rfl
    · tauto

/-- **`cleanarpent`** takes an entry off both chains. -/
theorem cleanarpent_spec (h : Linked s used waits) (a : Entry) :
    ∃ t, s.cleanarpent a = some t ∧ Linked t (fun x => used x ∧ x ≠ a) (fun x => waits x ∧ x ≠ a) ∧
      (t.cache a).state = .UNUSED ∧ (∀ x, x ≠ a → t.cache x = s.cache x) ∧ t.nextrxt a = none := by
  have hset := @Linked.set _ a _ _ { s.cache a with utime := 0, ctime := 0, type := 0, state := .UNUSED } h fun _ => rfl
  obtain ⟨u, hrun, hcache, hu⟩ := unhash_spec hset a
  obtain ⟨v, hrun', hcache', hv⟩ := unrxmt_spec hu a
  have hself : ¬(used a ∧ a ≠ a) := fun h => h.2 rfl
  have hself' : ¬(waits a ∧ a ≠ a) := fun h => h.2 rfl
  have hlink := ((@Linked.set _ _ _ _ { v.cache a with ifc := none } hv fun _ => rfl).free hself' none).freehash hself
    none
  refine ⟨_, ?_, hlink, ?_, fun x hx => ?_, update_self _ _ _⟩
  · simp only [Arp.cleanarpent, bind_eq_bind, hrun, bind_some, hrun']
    rfl
  · change (update v.cache a { v.cache a with ifc := none } a).state = .UNUSED
    rw [update_self, hcache', hcache]
    change (update s.cache a _ a).state = .UNUSED
    rw [update_self]
  · change update v.cache a _ x = s.cache x
    rw [update_of_ne hx, hcache', hcache]
    exact update_of_ne hx _ _

/-- The chains are right for what the entries hold. -/
structure Good (s : Arp) : Prop where
  linked : Linked s (fun a => (s.cache a).state ≠ .UNUSED) fun a => (s.cache a).waits = true
  ifc : ∀ a, (s.cache a).waits = true → (s.cache a).ifc ≠ none

/-- An entry gets what its chains say that it has. -/
theorem good_set (h : Linked s used waits) (hip : ent.ip = (s.cache a).ip)
    (hused : ∀ x, used x ↔ if x = a then ent.state ≠ .UNUSED else (s.cache x).state ≠ .UNUSED)
    (hwaits : ∀ x, waits x ↔ if x = a then ent.waits = true else (s.cache x).waits = true)
    (hifc : ∀ x, x ≠ a → (s.cache x).waits = true → (s.cache x).ifc ≠ none)
    (hent : ent.waits = true → ent.ifc ≠ none) : Good (s.set a ent) := by
  have hcache : ∀ x, (s.set a ent).cache x = if x = a then ent else s.cache x := by
    intro x
    by_cases hx : x = a
    · rw [if_pos hx, hx]
      exact update_self _ _ _
    · rw [if_neg hx]
      exact update_of_ne hx _ _
  refine ⟨(h.set fun _ => hip).congr (fun x => ?_) fun x => ?_, fun x hx => ?_⟩
  · rw [hused, hcache]
    split <;> rfl
  · rw [hwaits, hcache]
    split <;> rfl
  · rw [hcache] at hx ⊢
    by_cases hxa : x = a
    · rw [if_pos hxa] at hx ⊢
      exact hent hx
    · rw [if_neg hxa] at hx ⊢
      exact hifc x hxa hx

theorem waits_congr (e e' : Arpent) (hip : e.ip = e'.ip) (hstate : e.state = e'.state) :
    e.waits = e'.waits := by
  rw [Arpent.waits, Arpent.waits, hip, hstate]

/-- Only times and the like change. -/
theorem Good.set (h : Good s) (hip : ent.ip = (s.cache a).ip) (hstate : ent.state = (s.cache a).state)
    (hifc : ent.ifc = (s.cache a).ifc) : Good (s.set a ent) := by
  have hwaits : ent.waits = (s.cache a).waits := waits_congr _ _ hip hstate
  refine good_set h.linked hip (fun x => ?_) (fun x => ?_) (fun x _ => h.ifc x) fun hw => ?_
  · split
    next hx => rw [hx, hstate]
    next => rfl
  · split
    next hx => rw [hx, hwaits]
    next => rfl
  · rw [hifc]
    exact h.ifc a (hwaits ▸ hw)

theorem cleanarpent_good (h : Good s) (a : Entry) :
    ∃ t, s.cleanarpent a = some t ∧ Good t ∧ (∀ x, x ≠ a → t.cache x = s.cache x) ∧ t.nextrxt a = none := by
  obtain ⟨t, hrun, hlinked, hstate, hsame, hnext⟩ := cleanarpent_spec h.linked a
  have hno : (t.cache a).waits ≠ true := by
    rw [Arpent.waits, hstate]
    exact Bool.false_ne_true
  refine ⟨t, hrun, ⟨hlinked.congr (fun x => ?_) fun x => ?_, fun x hx => ?_⟩, hsame, hnext⟩
  · by_cases hx : x = a
    · rw [hx, hstate]
      tauto
    · rw [hsame x hx]
      tauto
  · by_cases hx : x = a
    · rw [hx]
      tauto
    · rw [hsame x hx]
      tauto
  · have hxa : x ≠ a := fun heq => hno (heq ▸ hx)
    rw [hsame x hxa] at hx ⊢
    exact h.ifc x hx

/-- The invariant of runs. -/
structure Inv (s : Sys) : Prop where
  good : Good s.toArp
  got : ∀ a, s.got = some a → (s.cache a).state = .AWAIT
  rlocks : ∀ i, s.rlocks i = if (s.sending.map Prod.snd) = some i then 1 else 0

/-- The entry that `newarp6` returns takes its state. -/
theorem newarp6_good (h : Good s) (ip : Ip) (i : Nat) (ifc : Ipifc) (addrxt : Bool) (now : UInt32)
    (hspare : s.Spare (!ipismulticast ip && addrxt)) :
    ∃ a t, s.newarp6 ip i ifc addrxt now = some (a, t) ∧ t.cache a = (s.cache a).renew ip i ifc now ∧
      ∀ ent : Arpent, ent.ip = ip → ent.ifc = some i → ent.state ≠ .UNUSED →
        ent.waits = (!ipismulticast ip && addrxt) → Good (t.set a ent) := by
  obtain ⟨t, hrun, hcache, hlinked⟩ := newarp6_spec h.linked ip i ifc addrxt now hspare
  have hself : t.cache s.oldest = (s.cache s.oldest).renew ip i ifc now := by
    rw [hcache, update_self]
  have hother : ∀ x, x ≠ s.oldest → t.cache x = s.cache x := fun x hx => by rw [hcache, update_of_ne hx]
  refine ⟨s.oldest, t, hrun, hself, fun ent hip hifc hstate hwaits => good_set hlinked ?_ (fun x => ?_)
    (fun x => ?_) (fun x hx hw => ?_) fun _ => ?_⟩
  · rw [hself, hip]
    rfl
  · by_cases hx : x = s.oldest
    · rw [if_pos hx]
      exact ⟨fun _ => hstate, fun _ => Or.inr hx⟩
    · rw [if_neg hx, hother x hx]
      exact ⟨fun hu => hu.resolve_right hx, Or.inl⟩
  · by_cases hx : x = s.oldest
    · rw [if_pos hx, hwaits, hx]
      exact ⟨fun hw => hw.elim hspare And.left, fun hl => Or.inr ⟨hl, rfl⟩⟩
    · rw [if_neg hx, hother x hx]
      exact ⟨fun hw => hw.resolve_right fun h => hx h.2, Or.inl⟩
  · rw [hother x hx] at hw ⊢
    exact h.ifc x hw
  · rw [hifc]
    exact some_ne_none i

/-- What a search of the chain of an address finds. -/
theorem search_chain (h : Good s) (ip : Ip) (stop : Entry → Bool) :
    ∃ r, LinkList.search s.next stop fuel none (s.hash (haship ip)) = some r ∧
      ∀ a, r.2 = some a → stop a = true ∧ (s.cache a).state ≠ .UNUSED := by
  obtain ⟨tab, htab, hmem⟩ := h.linked.hash
  refine ⟨_, search_spec (htab.path _) (length_lt_fuel (htab.nodup _)), fun a ha => ?_⟩
  have hstop := List.head?_dropWhile_not (fun a => !stop a) (tab (haship ip))
  have hhead : ((tab (haship ip)).dropWhile fun a => !stop a).head? = some a := ha
  rw [hhead] at hstop
  have hin : a ∈ tab (haship ip) :=
    (dropWhile_sublist _).subset (mem_of_mem_head? (mem_def.mpr hhead))
  exact ⟨by simpa using hstop, ((hmem _ a).mp hin).1⟩

theorem find_spec (h : Good s) (ip : Ip) (ok : Arpent → Bool) :
    ∃ r, s.find ip ok = some r ∧
      ∀ a, r = some a → (s.cache a).ip = ip ∧ ok (s.cache a) = true ∧ (s.cache a).state ≠ .UNUSED := by
  obtain ⟨r, hrun, hr⟩ := search_chain h ip fun a => decide ((s.cache a).ip = ip) && ok (s.cache a)
  refine ⟨r.2, by rw [Arp.find, hrun]; rfl, fun a ha => ?_⟩
  obtain ⟨hstop, hused⟩ := hr a ha
  obtain ⟨hip, hok⟩ := Bool.and_eq_true_iff.mp hstop
  exact ⟨of_decide_eq_true hip, hok, hused⟩

variable {c : Sys}

/-- `arpget` keeps the table right, and keeps the lock for an entry that waits. -/
theorem hit_inv (hg : Good c.toArp) (hr : ∀ i, c.rlocks i = if (c.sending.map Prod.snd) = some i then 1 else 0)
    (hgot : c.got = none) (a : Entry) (now : UInt32) : ∃ d, c.hit a now = some d ∧ Inv d := by
  have hset : Good (c.set a { c.cache a with utime := now }) := hg.set rfl rfl rfl
  have hplain : Inv (c.put (c.set a { c.cache a with utime := now })) :=
    ⟨hset, fun x hx => absurd (hgot.symm.trans hx) nofun, hr⟩
  have hold : ∃ d, (if now - (c.cache a).ctime > 15 * 60 * 1000 then
      ((c.put (c.set a { c.cache a with utime := now })).cleanarpent a).map
        (c.put (c.set a { c.cache a with utime := now })).put
      else some (c.put (c.set a { c.cache a with utime := now }))) = some d ∧ Inv d := by
    split
    · obtain ⟨t, hrun, hgood, -⟩ := cleanarpent_good hset a
      exact ⟨_, congrArg (Option.map _) hrun, hgood, fun x hx => absurd (hgot.symm.trans hx) nofun, hr⟩
    · exact ⟨_, rfl, hplain⟩
  rw [Sys.hit]
  cases hstate : (c.cache a).state with
  | AWAIT =>
    refine ⟨_, rfl, hset, fun x hx => ?_, hr⟩
    cases hx
    change (update c.cache a { c.cache a with utime := now } a).state = .AWAIT
    rw [update_self]
    exact hstate
  | AOK => exact hold
  | UNUSED => exact hold

theorem v4tov6_isv4 (ip : Fin 4 → UInt8) : isv4 (v4tov6 ip) = true := by
  refine decide_eq_true fun i => ?_
  exact dif_pos i.isLt

/-- An address of version 6 is listed to send again when it may wait. -/
theorem waits_listed {v m : Bool} (h : v = true → m = true) : (true && !v && !m) = (!m && true) := by
  cases v <;> cases m
  · rfl
  · rfl
  · exact absurd (h rfl) Bool.false_ne_true
  · rfl

theorem arpget_inv (hs : Inv c) (hgot : c.got = none) {ip : Addr} (hreg : Regular c (.arpget ip i now)) :
    ∃ d, c.arpget ip i now = some d ∧ Inv d := by
  obtain ⟨r, hfind, -⟩ := find_spec hs.good ip.ip fun e => e.type == (c.ifc i).m
  rw [Sys.arpget, hfind]
  cases r with
  | some a => exact hit_inv hs.good hs.rlocks hgot a now
  | none =>
    obtain ⟨hv4, hspare⟩ := hreg hfind
    have hlist : (ip.v6 && !ipismulticast ip.ip) = (!ipismulticast ip.ip && ip.v6) := Bool.and_comm _ _
    rw [hlist] at hspare
    obtain ⟨a, t, hrun, hcache, hgood⟩ := newarp6_good hs.good ip.ip i (c.ifc i) ip.v6 now hspare
    have hnew : Good (t.set a { t.cache a with state := .AWAIT }) := by
      rw [hcache]
      refine hgood _ rfl rfl nofun ?_
      change (true && !isv4 ip.ip && !ipismulticast ip.ip) = _
      cases ip with
      | V4 ip =>
        rw [Addr.ip, v4tov6_isv4]
        exact (Bool.and_false _).symm
      | V6 ip =>
        change (true && !isv4 ip && !ipismulticast ip) = (!ipismulticast ip && true)
        have h := hv4 rfl
        change isv4 ip = true → ipismulticast ip = true at h
        exact waits_listed h
    dsimp only
    rw [hrun, bind_some]
    exact hit_inv (c := c.put (t.set a { t.cache a with state := .AWAIT })) hnew hs.rlocks hgot a now

/-- **`arpresolve`** takes the entry off the chain to send again. -/
theorem arpresolve_inv (hs : Inv c) (hgot : c.got = some a) (type : Nat) (now : UInt32) :
    ∃ d, c.arpresolve a type now = some d ∧ Inv d := by
  have hstate := hs.got a hgot
  have hunlinked : ∃ t, (if isv4 (c.cache a).ip then some c.toArp else c.unrxmt a) = some t ∧
      t.cache = c.cache ∧ Linked t (fun a => (c.cache a).state ≠ .UNUSED)
        (fun x => (c.cache x).waits = true ∧ x ≠ a) := by
    split
    next hv4 =>
      refine ⟨_, rfl, rfl, hs.good.linked.congr (fun _ => Iff.rfl) fun x => ?_⟩
      have hno : (c.cache a).waits ≠ true := by
        rw [Arpent.waits, hv4]
        simp
      exact ⟨fun hw => ⟨hw, fun heq => hno (heq ▸ hw)⟩, And.left⟩
    next => exact unrxmt_spec hs.good.linked a
  obtain ⟨t, hrun, hcache, hlinked⟩ := hunlinked
  rw [Sys.arpresolve, hrun]
  refine ⟨_, rfl, @good_set _ _ _ _ { t.cache a with type, state := .AOK, utime := now } hlinked rfl (fun x => ?_)
    (fun x => ?_) (fun x hx => ?_) (fun h => ?_), nofun, hs.rlocks⟩
  · rw [hcache]
    split
    next hx =>
      rw [hx, hstate]
      exact ⟨fun _ => nofun, fun _ => nofun⟩
    next => rfl
  · rw [hcache]
    split
    next hx => exact ⟨fun h => absurd hx h.2, fun h => nomatch h⟩
    next hx => exact ⟨And.left, fun h => ⟨h, hx⟩⟩
  · rw [hcache]
    exact hs.good.ifc x
  · exact absurd h Bool.false_ne_true

/-- **`arpenter`** resolves the entry that it finds, or makes one that is. -/
theorem arpenter_inv (hs : Inv c) (hgot : c.got = none) {ip : Addr} {n : Nat} {refresh : Bool} {r : Option Nat}
    (hreg : Regular c (.arpenter ip n refresh r now)) :
    ∃ d, c.arpenter ip n refresh r now = some d ∧ Inv d := by
  have hno : ∀ {t : Arp} (a : Entry), (c.put t).got = some a → ((c.put t).cache a).state = .AWAIT :=
    fun a h => absurd (hgot.symm.trans h) nofun
  unfold Sys.arpenter
  by_cases hn : n ≠ 6
  · rw [if_pos hn]
    exact ⟨c, rfl, hs⟩
  rw [if_neg hn]
  cases r with
  | none => exact ⟨c, rfl, hs⟩
  | some i =>
    obtain ⟨r, hfind, hfound⟩ := find_spec hs.good ip.ip
      fun e => e.type == (c.ifc i).m && (e.state == .AWAIT || e.state == .AOK)
    dsimp only
    rw [hfind]
    cases r with
    | none =>
      dsimp only
      by_cases href : refresh = true
      · rw [if_pos href]
        exact ⟨c, rfl, hs⟩
      rw [if_neg href]
      have hspare := hreg i rfl (not_not.mp hn) (Bool.eq_false_iff.mpr href) hfind
      rw [← Bool.and_false (!ipismulticast ip.ip)] at hspare
      obtain ⟨a, t, hrun, hcache, hgood⟩ := newarp6_good hs.good ip.ip i (c.ifc i) false now hspare
      rw [hrun]
      refine ⟨_, rfl, ?_, hno, hs.rlocks⟩
      have hnew := hgood { t.cache a with state := .AOK, type := (c.ifc i).m, ctime := now }
        (by rw [hcache]; rfl) (by rw [hcache]; rfl) nofun (Bool.and_false _).symm
      exact hnew
    | some a =>
      obtain ⟨hip, -, hused⟩ := hfound a rfl
      dsimp only
      -- the entry is off the chain to send again, whatever it held
      have hunlinked : ∃ t, (if ip.v6 = true then (c.set a { c.cache a with state := .AOK }).unrxmt a
          else some (c.set a { c.cache a with state := .AOK })) = some t ∧
          t.cache = update c.cache a { c.cache a with state := .AOK } ∧
          Linked t (fun a => (c.cache a).state ≠ .UNUSED) (fun x => (c.cache x).waits = true ∧ x ≠ a) := by
        have hset := @Linked.set _ a _ _ { c.cache a with state := .AOK } hs.good.linked fun _ => rfl
        cases ip with
        | V4 ip =>
          refine ⟨_, rfl, rfl, hset.congr (fun _ => Iff.rfl) fun x => ?_⟩
          have hwaits : (c.cache a).waits ≠ true := by
            change (c.cache a).ip = v4tov6 ip at hip
            rw [Arpent.waits, hip, v4tov6_isv4]
            simp
          exact ⟨fun hw => ⟨hw, fun heq => hwaits (heq ▸ hw)⟩, And.left⟩
        | V6 ip => exact unrxmt_spec hset a
      obtain ⟨t, hrun, hcache, hlinked⟩ := hunlinked
      have hself : t.cache a = { c.cache a with state := .AOK } := by rw [hcache, update_self]
      have hother : ∀ x, x ≠ a → t.cache x = c.cache x := fun x hx => by rw [hcache, update_of_ne hx]
      have hset := @good_set _ a _ _ { t.cache a with
        ifc := some i, ifcid := (c.ifc i).ifcid, utime := now, ctime := now } hlinked rfl (fun x => ?_) (fun x => ?_) (fun x hx => ?_) fun h => ?_
      rw [hrun]
      refine ⟨_, rfl, hset, hno, hs.rlocks⟩
      · by_cases hx : x = a
        · rw [if_pos hx, hx, hself]
          exact ⟨fun _ => nofun, fun _ => hused⟩
        · rw [if_neg hx, hother x hx]
      · by_cases hx : x = a
        · rw [if_pos hx, hself]
          exact ⟨fun h => absurd hx h.2, fun h => absurd h Bool.false_ne_true⟩
        · rw [if_neg hx, hother x hx]
          exact ⟨And.left, fun h => ⟨h, hx⟩⟩
      · rw [hother x hx]
        exact hs.good.ifc x
      · rw [hself] at h
        exact absurd h Bool.false_ne_true

theorem flush_inv (hs : Inv c) (hgot : c.got = none) : Inv c.flush := by
  have hno : ∀ a, (c.flush.cache a).waits ≠ true := fun a => Bool.false_ne_true
  refine ⟨⟨⟨⟨fun _ => [], ⟨fun b => rfl, fun b d a h => absurd h not_mem_nil⟩, fun b a => ?_⟩,
    ⟨[], rfl, fun a => ?_⟩⟩, fun a h => absurd h (hno a)⟩, fun a h => absurd (hgot.symm.trans h) nofun, hs.rlocks⟩
  · exact ⟨fun h => absurd h not_mem_nil, fun h => absurd rfl h.1⟩
  · exact ⟨fun h => absurd h not_mem_nil, fun h => absurd h (hno a)⟩

/-- A deletion that finds no entry. -/
theorem del_inv (hs : Inv c) (hreg : Regular c (.del ip)) : c.del ip = some c := by
  obtain ⟨⟨l, r⟩, hrun, hr⟩ := search_chain hs.good ip fun a => decide ((c.cache a).ip = ip)
  have hnone : r = none := by
    cases r with
    | none => rfl
    | some a =>
      obtain ⟨hstop, hused⟩ := hr a rfl
      exact absurd (of_decide_eq_true hstop) (hreg a hused)
  subst hnone
  rw [Sys.del, hrun]

/-- **`rxmitsols`** never finds an entry without an interface. -/
theorem rxmitsols_inv (hs : Inv c) (hgot : c.got = none) (hidle : c.sending = none) {can : Bool}
    (hreg : Regular c (.rxmitsols can now)) : ∃ d, c.rxmitsols can now = some d ∧ Inv d := by
  have hlocks : ∀ i, c.rlocks i = 0 := fun i => by
    rw [hs.rlocks, hidle]
    rfl
  have hno : ∀ (t : Arp) (a : Entry), c.got = some a → (t.cache a).state = .AWAIT :=
    fun _ a h => absurd (hgot.symm.trans h) nofun
  rw [Sys.rxmitsols]
  cases hrxmt : c.rxmt with
  | none => exact ⟨c, rfl, hs⟩
  | some a =>
    dsimp only
    by_cases hdue : (c.cache a).due now = false
    · rw [if_pos hdue]
      exact ⟨c, rfl, hs⟩
    rw [if_neg hdue]
    have hwaits : (c.cache a).waits = true := by
      obtain ⟨l, hl, hmem⟩ := hs.good.linked.rxmt
      rw [hrxmt] at hl
      obtain ⟨t, rfl, -⟩ := hl.of_some
      exact (hmem a).mp mem_cons_self
    obtain ⟨i, hi⟩ := ne_none_iff_exists'.mp (hs.good.ifc a hwaits)
    rw [hi]
    dsimp only
    by_cases htried : (c.cache a).rxtsrem ≠ 0 ∧ can = true
    · have hid := hreg a i hrxmt (Bool.not_eq_false _ ▸ hdue) hi htried.1 htried.2
      rw [if_pos htried, if_neg (not_or.mpr ⟨not_not.mpr htried, not_not.mpr hid⟩)]
      refine ⟨_, rfl, hs.good, hno _, fun j => ?_⟩
      change update c.rlocks i (c.rlocks i + 1) j = if some i = some j then 1 else 0
      by_cases hj : j = i
      · rw [hj, update_self, hlocks, if_pos rfl]
      · rw [update_of_ne hj, hlocks, if_neg fun h => hj (some.inj h).symm]
    · obtain ⟨t, hrun, hgood, -, hnext⟩ := cleanarpent_good hs.good a
      rw [if_neg htried, if_pos (Or.inl htried), hrun, bind_some, if_pos hnext]
      exact ⟨_, rfl, hgood, hno _, hs.rlocks⟩

theorem solicited_inv (hs : Inv c) (hgot : c.got = none) (hsend : c.sending = some (a, i))
    (hreg : Regular c (.solicited now)) : ∃ d, c.solicited a i now = some d ∧ Inv d := by
  have hwaits := hreg a i hsend
  obtain ⟨t, hrun, hcache, hlinked⟩ := rxmtend_spec hs.good.linked a
  have hself : (t.cache a).waits = true := by
    rw [hcache]
    exact hwaits
  have hset := @good_set _ a _ _ { t.cache a with
    rxtsrem := (t.cache a).rxtsrem - 1, rtime := now + ReTransTimer } hlinked rfl (fun x => ?_) (fun x => ?_) (fun x _ => ?_) fun _ => ?_
  rw [Sys.solicited, hrun]
  refine ⟨_, rfl, hset, fun x h => absurd (hgot.symm.trans h) nofun, fun j => ?_⟩
  · have hlocks := hs.rlocks
    rw [hsend] at hlocks
    change update c.rlocks i (c.rlocks i - 1) j = 0
    by_cases hj : j = i
    · have hone : c.rlocks i = 1 := (hlocks i).trans (if_pos rfl)
      rw [hj, update_self, hone]
    · rw [update_of_ne hj, hlocks]
      exact if_neg fun h => hj (some.inj h).symm
  · change _ ↔ if x = a then _ else (t.cache x).state ≠ .UNUSED
    rw [hcache]
    split
    next hx => rw [hx]
    next => rfl
  · change _ ↔ if x = a then _ else (t.cache x).waits = true
    split
    next hx => exact ⟨fun _ => Eq.trans (waits_congr _ (t.cache a) rfl rfl) hself, fun _ => Or.inr hx⟩
    next hx =>
      rw [hcache]
      exact ⟨fun h => h.resolve_right hx, Or.inl⟩
  · change (t.cache x).waits = true → (t.cache x).ifc ≠ none
    rw [hcache]
    exact hs.good.ifc x
  · rw [hcache]
    exact hs.good.ifc a hwaits

theorem act_spec {op : Op} (hs : Inv c) (hop : Allowed c op) (hreg : Regular c op) :
    ∃ d, act c op = some d ∧ Inv d := by
  cases op with
  | arpget ip i now => exact arpget_inv hs hop hreg
  | arpresolve type now =>
    obtain ⟨a, ha⟩ := ne_none_iff_exists'.mp hop
    obtain ⟨d, hrun, hd⟩ := arpresolve_inv hs ha type now
    exact ⟨d, by rw [act, ha, bind_some, hrun], hd⟩
  | arprelease => exact ⟨_, rfl, hs.good, nofun, hs.rlocks⟩
  | arpenter ip n refresh r now => exact arpenter_inv hs hop hreg
  | flush => exact ⟨_, rfl, flush_inv hs hop⟩
  | del ip => exact ⟨c, del_inv hs hreg, hs⟩
  | rxmitsols can now => exact rxmitsols_inv hs hop.1 hop.2 hreg
  | solicited now =>
    obtain ⟨⟨a, i⟩, hsend⟩ := ne_none_iff_exists'.mp hop.2
    obtain ⟨d, hrun, hd⟩ := solicited_inv hs hop.1 hsend hreg
    exact ⟨d, by rw [act, hsend, bind_some, hrun], hd⟩
  | bind i m => exact ⟨_, rfl, hs.good, hs.got, hs.rlocks⟩

theorem start_inv (hs : Start c) : Inv c := by
  have hno : ∀ a, (c.cache a).waits ≠ true := fun a => by
    rw [Arpent.waits, hs.state]
    exact Bool.false_ne_true
  refine ⟨⟨⟨⟨fun _ => [], ⟨fun b => ?_, fun b d a h => absurd h not_mem_nil⟩, fun b a => ?_⟩,
    ⟨[], ?_, fun a => ?_⟩⟩, fun a h => absurd h (hno a)⟩, fun a h => absurd (hs.got.symm.trans h) nofun, fun i => ?_⟩
  · exact hs.hash b
  · exact ⟨fun h => absurd h not_mem_nil, fun h => absurd (hs.state a) h.1⟩
  · exact hs.rxmt
  · exact ⟨fun h => absurd h not_mem_nil, fun h => absurd h (hno a)⟩
  · rw [hs.rlocks, hs.sending]
    rfl

theorem reach_inv (hr : ReachRegular c) : Inv c := by
  refine StepSystem.Reach.invariant Inv (fun _ => start_inv) ?_ hr
  rintro s op t hs ⟨hop, hreg, hrun⟩
  obtain ⟨u, hu, hinv⟩ := act_spec hs hop hreg
  cases hu.symm.trans hrun
  exact hinv

/-- **The ARP table** keeps its chains in every regular run: each entry in use is on the hash chain of
its address, each that waits on the chain to send again and with an interface, and `rxmitsols` has
locked the interface that it sends through and no other.  No assertion fails. -/
theorem arp_ok (hr : ReachRegular c) : Table c ∧ ∀ op, Allowed c op → Regular c op → act c op ≠ none := by
  have hs := reach_inv hr
  refine ⟨⟨fun b => ?_, ?_, hs.good.ifc, hs.rlocks⟩, fun op hop hreg => ?_⟩
  · obtain ⟨tab, htab, hmem⟩ := hs.good.linked.hash
    exact ⟨tab b, htab.path b, htab.nodup b, hmem b⟩
  · obtain ⟨l, hl, hmem⟩ := hs.good.linked.rxmt
    exact ⟨l, hl, hl.nodup, hmem⟩
  · obtain ⟨d, hrun, -⟩ := act_spec hs hop hreg
    rw [hrun]
    exact some_ne_none d

/-- The table as it is made. -/
def fresh : Sys where
  cache := fun _ => ⟨fun _ => 0, 0, 0, 0, .UNUSED, 0, 0, none, 0⟩
  hash := fun _ => none
  next := fun _ => none
  rxmt := none
  nextrxt := fun _ => none
  ifc := fun _ => ⟨1, 0⟩
  rlocks := fun _ => 0
  got := none
  sending := none

theorem fresh_start : Start fresh := ⟨fun _ => rfl, fun _ => rfl, rfl, fun _ => rfl, rfl, rfl⟩

/-- The state behind a step. -/
def Sys.step (s : Sys) (op : Op) : Sys := (act s op).getD s

theorem act_step {op : Op} (h : (act c op).isSome = true) : act c op = some (c.step op) :=
  (getD_of_ne_none (isSome_iff_ne_none.mp h) c).symm

/-- fe80::1 -/
def linklocal : Ip := fun i => if i.val = 0 then 0xfe else if i.val = 1 then 0x80 else if i.val = 15 then 1 else 0

/-- A packet to `linklocal` waits, -/
def waiting : Sys := (fresh.step (.arpget (.V6 linklocal) 0 100)).step .arprelease

/-- and `rxmitsols` solicits for it. -/
def soliciting : Sys := waiting.step (.rxmitsols true 1100)

/-- The entry is still on the chain to send again behind the solicitation. -/
theorem arp_ok_solicited : Table (soliciting.step (.solicited 1101)) ∧
    (soliciting.step (.solicited 1101)).rxmt ≠ none ∧ (soliciting.step (.solicited 1101)).rlocks 0 = 0 := by
  have hstep : ∀ {s : Sys} (op : Op), ReachRegular s → Allowed s op → Regular s op → (act s op).isSome = true →
      ReachRegular (s.step op) := fun op hr hop hreg hrun => hr.next ⟨hop, hreg, act_step hrun⟩
  have h₁ : ReachRegular (fresh.step (.arpget (.V6 linklocal) 0 100)) := by
    refine hstep _ (StepSystem.Reach.start fresh_start) rfl (fun _ => ⟨fun _ hv4 => ?_, fun hw => ?_⟩) (by decide +kernel)
    · exact absurd hv4 (by decide +kernel)
    · exact absurd hw (by decide +kernel)
  have h₂ : ReachRegular waiting := by
    refine hstep _ h₁ ?_ trivial (by decide +kernel)
    change _ ≠ none
    decide +kernel
  have h₃ : ReachRegular soliciting := by
    refine hstep _ h₂ (by exact ⟨by decide +kernel, by decide +kernel⟩) (fun a i ha _ hi _ _ => ?_) (by decide +kernel)
    have hsame : (waiting.rxmt.all fun a => (waiting.cache a).ifc.all fun i =>
      (waiting.cache a).ifcid == (waiting.ifc i).ifcid) = true := by decide +kernel
    rw [show waiting.rxmt = some a from ha, all_some, hi, all_some] at hsame
    exact eq_of_beq hsame
  have h₄ : ReachRegular (soliciting.step (.solicited 1101)) := by
    refine hstep _ h₃ (by exact ⟨by decide +kernel, by decide +kernel⟩) (fun a i ha => ?_) (by decide +kernel)
    have hwaits : (soliciting.sending.all fun r => (soliciting.cache r.1).waits) = true := by decide +kernel
    rw [show soliciting.sending = some (a, i) from ha, all_some] at hwaits
    dsimp only at hwaits
    exact hwaits
  exact ⟨(arp_ok h₄).1, by decide +kernel, by decide +kernel⟩

/-- The entry is deleted while `rxmitsols` sends, and put on the chain without an interface. -/
def deleted : Sys := (soliciting.step (.del linklocal)).step (.solicited 1101)

/-- The next `rxmitsols` fails its assertion. -/
theorem deleted_asserts : Reach deleted ∧ Allowed deleted (.rxmitsols true 2000) ∧
    act deleted (.rxmitsols true 2000) = none := by
  have hstep : ∀ {s : Sys} (op : Op), Reach s → Allowed s op → (act s op).isSome = true → Reach (s.step op) :=
    fun op hr hop hrun => hr.next ⟨hop, act_step hrun⟩
  have h₁ : Reach (fresh.step (.arpget (.V6 linklocal) 0 100)) :=
    hstep _ (StepSystem.Reach.start fresh_start) rfl (by decide +kernel)
  have h₂ : Reach waiting := by
    refine hstep _ h₁ ?_ (by decide +kernel)
    change _ ≠ none
    decide +kernel
  have h₃ : Reach soliciting := hstep _ h₂ (by exact ⟨by decide +kernel, by decide +kernel⟩) (by decide +kernel)
  have h₄ : Reach (soliciting.step (.del linklocal)) := by
    refine hstep _ h₃ ?_ (by decide +kernel)
    change _ = none
    decide +kernel
  have h₅ : Reach deleted := hstep _ h₄ (by exact ⟨by decide +kernel, by decide +kernel⟩) (by decide +kernel)
  have hnone : (act deleted (.rxmitsols true 2000)).isNone = true := by decide +kernel
  exact ⟨h₅, by exact ⟨by decide +kernel, by decide +kernel⟩, Option.isNone_iff_eq_none.mp hnone⟩

end ArpTable
