import NixKernel.Netif
import NixKernel.Tally

/-!
# The accounts of a network interface

Runs keep the accounts while no open is refused after it has counted, and while Netfiles connect
to free types and not again once their type is negative.
-/

namespace Netif

open Option List

variable {s t : Sys} {c i id j : Nat} {ch : Chan} {f f' g : Netfile} {o : Option Chan}
  {user a : Str} {omode : Int32} {mem : Bool}

theorem netid_netqid (h : j < 32) : NETID (NETQID i j) = i := by
  rw [NETID, NETQID]
  omega

theorem nettype_netqid (h : j < 32) : NETTYPE (NETQID i j) = j := by
  rw [NETTYPE, NETQID]
  omega

theorem file_lt (h : s.file id = some f) : id < s.f.length :=
  Tally.lt_of_getD_ne (d := none) (by rw [← Sys.file, h]; exact some_ne_none f)

theorem at_lt (h : s.at c = some ch) : c < s.chan.length :=
  Tally.lt_of_getD_ne (d := none) (by rw [← Sys.at, h]; exact some_ne_none ch)

theorem setfile_file (h : id < s.f.length) (f : Netfile) (j : Nat) :
    (s.setfile id f).file j = if j = id then some f else s.file j := Tally.getD_set h _ j

theorem setchan_at (h : c < s.chan.length) (o : Option Chan) (j : Nat) :
    (s.setchan c o).at j = if j = c then o else s.at j := Tally.getD_set h o j

theorem setchan_opens (h : c < s.chan.length) (o : Option Chan) (j : Nat) :
    (s.setchan c o).opens j + ((s.at c).any (Chan.opens j)).toNat =
      s.opens j + (o.any (Chan.opens j)).toNat := Tally.countP_set _ h o

/-- What keeps the accounts: how a Netfile without opens looks, and that there is one for every open. -/
structure Inv (s : Sys) : Prop extends Accounts s where
  clear : ∀ id f, s.file id = some f → f.inuse = 0 → f.prom = 0 ∧ f.scan = 0 ∧ f.type = 0
  absent : ∀ id, s.file id = none → s.opens id = 0
  dir : ∀ c ch, s.at c = some ch → ch.dir = true →
    NETTYPE ch.path ≠ Ndataqid ∧ NETTYPE ch.path ≠ Nctlqid

/-- **One Netfile changes**: what the rest has to do with it. -/
theorem Inv.put (hs : Inv s) (hid : id < s.f.length) (hf : t.f = s.f.set id (some f))
    (hprom : t.prom + ((s.file id).any fun f => f.prom != 0).toNat = s.prom + (f.prom != 0).toNat)
    (hscan : t.scan + ((s.file id).any fun f => f.scan != 0).toNat = s.scan + (f.scan != 0).toNat)
    (hall : t.all + ((s.file id).any fun f => f.type < 0).toNat = s.all + (decide (f.type < 0)).toNat)
    (hopens : ∀ j, j ≠ id → t.opens j = s.opens j) (hinuse : f.inuse = t.opens id)
    (htype : 0 < f.type → ∀ j g, j ≠ id → s.file j = some g → f.type ≠ g.type)
    (hclear : f.inuse = 0 → f.owner = [] ∧ f.prom = 0 ∧ f.scan = 0 ∧ f.type = 0)
    (hdir : ∀ c ch, t.at c = some ch → ch.dir = true →
      NETTYPE ch.path ≠ Ndataqid ∧ NETTYPE ch.path ≠ Nctlqid) : Inv t := by
  have hfile : ∀ j, t.file j = if j = id then some f else s.file j := fun j => by
    rw [Sys.file, hf]
    exact Tally.getD_set hid _ j
  have hfiles : ∀ p : Netfile → Bool, t.files p + ((s.file id).any p).toNat = s.files p + (p f).toNat :=
    fun p => by
      rw [Sys.files, hf]
      exact Tally.countP_set _ hid _
  -- an old file or the new one
  have hcases : ∀ {j g}, t.file j = some g → (j = id ∧ g = f) ∨ (j ≠ id ∧ s.file j = some g) := by
    intro j g hg
    rw [hfile] at hg
    by_cases hj : j = id
    · rw [if_pos hj] at hg
      exact Or.inl ⟨hj, (some.inj hg).symm⟩
    · rw [if_neg hj] at hg
      exact Or.inr ⟨hj, hg⟩
  refine ⟨⟨fun j g hg => ?_, ?_, ?_, ?_, fun i j g g' hg hg' hne hpos => ?_, fun j g hg hzero => ?_⟩,
    fun j g hg hzero => ?_, fun j hj => ?_, hdir⟩
  · rcases hcases hg with ⟨rfl, rfl⟩ | ⟨hj, hold⟩
    · exact hinuse
    · rw [hopens j hj]
      exact hs.inuse j g hold
  · have h := hfiles fun f => f.prom != 0
    have hold := hs.prom
    omega
  · have h := hfiles fun f => f.scan != 0
    have hold := hs.scan
    omega
  · have h := hfiles fun f => f.type < 0
    have hold := hs.all
    omega
  · rcases hcases hg with ⟨rfl, rfl⟩ | ⟨hi, hold⟩ <;> rcases hcases hg' with ⟨rfl, rfl⟩ | ⟨hj, hold'⟩
    · exact absurd rfl hne
    · exact htype hpos j g' hj hold'
    · intro heq
      exact htype (heq ▸ hpos) i g hi hold heq.symm
    · exact hs.types i j g g' hold hold' hne hpos
  · rcases hcases hg with ⟨rfl, rfl⟩ | ⟨hj, hold⟩
    · exact (hclear hzero).1
    · exact hs.owner j g hold hzero
  · rcases hcases hg with ⟨rfl, rfl⟩ | ⟨hj, hold⟩
    · exact (hclear hzero).2
    · exact hs.clear j g hold hzero
  · have hne : j ≠ id := by
      rintro rfl
      rw [hfile, if_pos rfl] at hj
      cases hj
    rw [hfile, if_neg hne] at hj
    rw [hopens j hne]
    exact hs.absent j hj

/-- Only Chans change, and none that has a file open. -/
theorem Inv.same (hs : Inv s) (hf : t.f = s.f) (hprom : t.prom = s.prom) (hscan : t.scan = s.scan)
    (hall : t.all = s.all) (hopens : ∀ j, t.opens j = s.opens j)
    (hdir : ∀ c ch, t.at c = some ch → ch.dir = true →
      NETTYPE ch.path ≠ Ndataqid ∧ NETTYPE ch.path ≠ Nctlqid) : Inv t := by
  have hfile : ∀ j, t.file j = s.file j := fun j => by rw [Sys.file, hf, Sys.file]
  have hfiles : ∀ p, t.files p = s.files p := fun p => by rw [Sys.files, hf, Sys.files]
  constructor
  · constructor
    · intro j g hg
      rw [hopens]
      exact hs.inuse j g ((hfile j).symm.trans hg)
    · rw [hprom, hfiles, hs.prom]
    · rw [hscan, hfiles, hs.scan]
    · rw [hall, hfiles, hs.all]
    · intro i j g g' hg hg'
      exact hs.types i j g g' ((hfile i).symm.trans hg) ((hfile j).symm.trans hg')
    · intro j g hg
      exact hs.owner j g ((hfile j).symm.trans hg)
  · intro j g hg
    exact hs.clear j g ((hfile j).symm.trans hg)
  · intro j hj
    rw [hopens]
    exact hs.absent j ((hfile j).symm.trans hj)
  · exact hdir

/-- The Chans after one has been written. -/
theorem setchan_dir (hs : Inv s) (hc : c < s.chan.length)
    (ho : ∀ ch, o = some ch → ch.dir = true → NETTYPE ch.path ≠ Ndataqid ∧ NETTYPE ch.path ≠ Nctlqid) :
    ∀ k ch, (s.setchan c o).at k = some ch → ch.dir = true →
      NETTYPE ch.path ≠ Ndataqid ∧ NETTYPE ch.path ≠ Nctlqid := by
  intro k ch hk
  rw [setchan_at hc] at hk
  by_cases hkc : k = c
  · rw [if_pos hkc] at hk
    exact ho ch hk
  · rw [if_neg hkc] at hk
    exact hs.dir k ch hk

theorem opens_closed (h : ch.copen = false) (j : Nat) : ch.opens j = false := by
  rw [Chan.opens, h]
  rfl

theorem opens_type (h : NETTYPE ch.path ≠ Ndataqid ∧ NETTYPE ch.path ≠ Nctlqid) (j : Nat) :
    ch.opens j = false := by
  rw [Chan.opens, beq_false_of_ne h.1, beq_false_of_ne h.2]
  simp

theorem opens_open (hopen : ch.copen = true) (h : NETTYPE ch.path = Ndataqid ∨ NETTYPE ch.path = Nctlqid)
    (j : Nat) : ch.opens j = (NETID ch.path == j) := by
  have htype : (NETTYPE ch.path == Ndataqid || NETTYPE ch.path == Nctlqid) = true := by
    rcases h with h | h <;> rw [h] <;> rfl
  rw [Chan.opens, hopen, htype]
  rfl

theorem netown_fst (f : Netfile) (o eve : Str) (omode : Int32) :
    (f.netown o eve omode).1 = permitted f.owner f.mode o eve omode := by
  rw [Netfile.netown]
  split
  next => rfl
  next h => rw [permitted, if_neg h]

/-- `netown` gives a Netfile without an owner one. -/
theorem netown_snd (f : Netfile) (o eve : Str) (omode : Int32) :
    ∃ owner mode, (f.netown o eve omode).2 = { f with owner, mode } ∧
      (f.owner = [] → owner = o.take KNAMELEN ∧ mode = 0o660) := by
  rw [Netfile.netown]
  split
  next h => exact ⟨f.owner, f.mode, rfl, fun hnil => absurd hnil h⟩
  next => exact ⟨_, _, rfl, fun _ => ⟨rfl, rfl⟩⟩

theorem own_spec (c : Nat) (ch : Chan) (hf : s.file id = some f) (hgrant : Granted f.owner f.mode user s.eve omode) :
    ∃ owner perm mode, s.own c ch id user omode = some (none,
      (s.setfile id { f with owner, mode := perm }).setchan c (some { ch with mode, copen := true })) := by
  obtain ⟨owner, perm, hown, -⟩ := netown_snd f user s.eve (omode &&& 7)
  obtain ⟨mode, hmode⟩ := ne_none_iff_exists'.mp hgrant.2
  refine ⟨owner, perm, mode, ?_⟩
  rw [Sys.own, hf]
  dsimp only
  rw [netown_fst, hgrant.1, hown, if_neg (by decide), Sys.opened, hmode]

/-- **A Netfile gains an open.** -/
theorem opened_inv (hs : Inv s) (hc : s.at c = some ch) (hopen : ch.copen = false) (f f₀ : Netfile)
    (ch' : Chan) (hid : id < s.f.length) (hold : s.file id = some f₀ ∨ (s.file id = none ∧ f₀ = s.malloc))
    (hinuse : f.inuse = f₀.inuse + 1) (hprom : f.prom = f₀.prom) (hscan : f.scan = f₀.scan)
    (htype : f.type = f₀.type) (hopen' : ch'.copen = true) (hdir : ch'.dir = false)
    (hpath : NETTYPE ch'.path = Ndataqid ∨ NETTYPE ch'.path = Nctlqid) (hnetid : NETID ch'.path = id)
    (hf : t.f = s.f.set id (some f)) (hchan : t.chan = s.chan.set c (some ch'))
    (hp : t.prom = s.prom) (hsc : t.scan = s.scan) (ha : t.all = s.all) : Inv t := by
  have hlt := at_lt hc
  have hopens : ∀ j, t.opens j = s.opens j + (id == j).toNat := by
    intro j
    have hset := setchan_opens hlt (some ch') j
    rw [hc, any_some, any_some, opens_closed hopen, opens_open hopen' hpath, hnetid] at hset
    rw [Sys.opens, hchan]
    exact hset
  have hzero : f₀.inuse = s.opens id := by
    rcases hold with h | ⟨h, rfl⟩
    · exact hs.inuse id f₀ h
    · rw [hs.absent id h]
      rfl
  have hany : ∀ p : Netfile → Bool, p s.malloc = false → (s.file id).any p = p f₀ := by
    intro p hp
    rcases hold with h | ⟨h, rfl⟩
    · rw [h, any_some]
    · rw [h, any_none, hp]
  refine hs.put hid hf ?_ ?_ ?_ (fun j hj => ?_) ?_ (fun hpos j g hj hg => ?_) (fun h => ?_) ?_
  · rw [hp, hany _ rfl, hprom]
  · rw [hsc, hany _ rfl, hscan]
  · rw [ha, hany _ rfl, htype]
  · rw [hopens, beq_false_of_ne (Ne.symm hj)]
    rfl
  · rw [hopens, beq_self_eq_true, hinuse, hzero]
    rfl
  · rcases hold with h | ⟨h, rfl⟩
    · rw [htype] at hpos ⊢
      exact hs.types id j f₀ g h hg (Ne.symm hj) hpos
    · rw [htype] at hpos
      exact absurd hpos (Int.lt_irrefl 0)
  · rw [hinuse, hzero] at h
    omega
  · have h := setchan_dir (o := some ch') hs hlt fun ch hch hd => by
      cases hch
      rw [hdir] at hd
      cases hd
    intro k ch hk
    rw [Sys.at, hchan] at hk
    exact h k ch hk

/-- A file that takes no Netfile is opened. -/
theorem plain_inv (hs : Inv s) (hc : s.at c = some ch)
    (hpath : NETTYPE ch.path ≠ Ndataqid ∧ NETTYPE ch.path ≠ Nctlqid) (omode : Int32) :
    Inv (s.opened c ch omode).2 := by
  have hlt := at_lt hc
  rw [Sys.opened]
  cases openmode omode with
  | none => exact hs
  | some mode =>
    refine hs.same rfl rfl rfl rfl (fun j => ?_) (setchan_dir hs hlt fun ch' hch' _ => ?_)
    · have hset := setchan_opens hlt (some { ch with mode, copen := true }) j
      rw [hc, any_some, any_some, opens_type hpath, @opens_type { ch with mode, copen := true } hpath]
        at hset
      exact hset
    · cases hch'
      exact hpath

/-- What `openfile` finds when it looks for a Netfile. -/
theorem unused_spec (h : s.unused = some id) : id < s.f.length ∧ ∀ f, s.file id = some f → f.inuse = 0 := by
  obtain ⟨hlt, hfree, -⟩ := List.findIdx?_eq_some_iff_getElem.mp h
  refine ⟨hlt, fun f hf => ?_⟩
  have hget : s.f[id] = some f := (Tally.getD_lt hlt none).symm.trans hf
  rw [hget] at hfree
  exact eq_of_beq hfree

/-- **`netifopen`** keeps the accounts when nothing is refused. -/
theorem netifopen_inv (hs : Inv s) (hc : s.at c = some ch) (hopen : ch.copen = false)
    (hreg : Regular s (.open c user omode mem)) :
    ∃ r t, s.netifopen c ch user omode mem = some (r, t) ∧ Inv t := by
  have hlt := at_lt hc
  rw [Sys.netifopen]
  by_cases hdir : ch.dir = true
  · rw [if_pos hdir]
    split
    · exact ⟨_, _, rfl, hs⟩
    · exact ⟨_, _, rfl, plain_inv hs hc (hs.dir c ch hc hdir) omode⟩
  have hdir' : ch.dir = false := Bool.eq_false_iff.mpr hdir
  obtain ⟨hfiles, hclone⟩ := hreg ch hc hdir'
  rw [if_neg hdir]
  by_cases hpath : NETTYPE ch.path = Ndataqid ∨ NETTYPE ch.path = Nctlqid
  · rw [if_pos hpath, Sys.openfile]
    cases hf : s.file (NETID ch.path) with
    | none => exact ⟨_, _, rfl, hs⟩
    | some f =>
      have hid := file_lt hf
      obtain ⟨owner, perm, mode, hrun⟩ := own_spec c ch (s := s.setfile (NETID ch.path)
        { f with inuse := f.inuse + 1, iq := f.iq.qreopen }) ((setfile_file hid _ _).trans (if_pos rfl)) (hfiles hpath f hf)
      refine ⟨_, _, hrun, ?_⟩
      exact opened_inv hs hc hopen { f with inuse := f.inuse + 1, iq := f.iq.qreopen, owner, mode := perm } f
        { ch with mode, copen := true } hid (Or.inl hf) rfl rfl rfl rfl rfl hdir' hpath rfl
        (set_set _) rfl rfl rfl rfl
  rw [if_neg hpath]
  by_cases hcl : NETTYPE ch.path = Ncloneqid
  · rw [if_pos hcl, Sys.openunused]
    cases hun : s.unused with
    | none => exact ⟨_, _, rfl, hs⟩
    | some id =>
      obtain ⟨hid, hzero⟩ := unused_spec hun
      dsimp only
      by_cases hmem : s.file id = none ∧ mem = false
      · rw [if_pos hmem]
        exact ⟨_, _, rfl, hs⟩
      rw [if_neg hmem]
      have hgrant := hclone hcl id hun fun hnone => by
        cases mem with
        | true => rfl
        | false => exact absurd ⟨hnone, rfl⟩ hmem
      have hold : s.file id = some ((s.file id).getD s.malloc) ∨
          (s.file id = none ∧ (s.file id).getD s.malloc = s.malloc) := by
        cases s.file id with
        | none => exact Or.inr ⟨rfl, rfl⟩
        | some f => exact Or.inl rfl
      generalize (s.file id).getD s.malloc = f at hold
      have hfree : f.inuse = 0 ∧ f.owner = [] := by
        rcases hold with h | ⟨-, rfl⟩
        · exact ⟨hzero f h, hs.owner id f h (hzero f h)⟩
        · exact ⟨rfl, rfl⟩
      obtain ⟨owner, perm, hown, hnew⟩ := netown_snd { f with inuse := 1, iq := f.iq.qreopen } user s.eve 0
      obtain ⟨rfl, rfl⟩ := hnew hfree.2
      rw [hown]
      have hltid : NETTYPE (NETQID id Nctlqid) = Nctlqid := nettype_netqid (by decide)
      obtain ⟨owner', perm', mode, hrun⟩ := own_spec c { ch with path := NETQID id Nctlqid } (s := (s.setfile id
        { f with inuse := 1, iq := f.iq.qreopen, owner := user.take KNAMELEN, mode := 0o660 }).setchan c
          (some { ch with path := NETQID id Nctlqid })) ((setfile_file hid _ _).trans (if_pos rfl)) hgrant
      refine ⟨_, _, hrun, ?_⟩
      have hone : 1 = f.inuse + 1 := by
        rw [hfree.1]
        rfl
      exact opened_inv hs hc hopen { f with inuse := 1, iq := f.iq.qreopen, owner := owner', mode := perm' } f
        { ch with path := NETQID id Nctlqid, mode, copen := true } hid hold hone rfl rfl rfl rfl hdir'
        (Or.inr hltid) (netid_netqid (by decide)) (set_set _) (set_set _) rfl rfl rfl
  rw [if_neg hcl]
  split
  · exact ⟨_, _, rfl, hs⟩
  · exact ⟨_, _, rfl, plain_inv hs hc (not_or.mp hpath) omode⟩

theorem typeinuse_spec {type : Int} (h : s.typeinuse type = false) (hpos : 0 < type) :
    ∀ j g, s.file j = some g → type ≠ g.type := by
  intro j g hg heq
  rw [Sys.typeinuse, if_neg (Int.not_le_of_gt hpos)] at h
  have hlt := file_lt hg
  have hget : s.f[j] = some g := (Tally.getD_lt hlt none).symm.trans hg
  have hmem : some g ∈ s.f := hget ▸ getElem_mem hlt
  have hno := any_eq_false.mp h (some g) hmem
  exact hno (beq_iff_eq.mpr heq.symm)

/-- A control write that changes one Netfile. -/
theorem control_inv (hs : Inv s) (hf : s.file id = some f) (hset : t.f = s.f.set id (some f'))
    (hchan : t.chan = s.chan) (hinuse : f'.inuse = f.inuse) (hused : f.inuse ≠ 0)
    (hprom : t.prom + (f.prom != 0).toNat = s.prom + (f'.prom != 0).toNat)
    (hscan : t.scan + (f.scan != 0).toNat = s.scan + (f'.scan != 0).toNat)
    (hall : t.all + (decide (f.type < 0)).toNat = s.all + (decide (f'.type < 0)).toNat)
    (htype : 0 < f'.type → ∀ j g, j ≠ id → s.file j = some g → f'.type ≠ g.type) : Inv t := by
  have hopens : ∀ j, t.opens j = s.opens j := fun j => by rw [Sys.opens, hchan, Sys.opens]
  refine hs.put (file_lt hf) hset ?_ ?_ ?_ (fun j _ => hopens j) ?_ htype (fun h => ?_) fun k ch hk => ?_
  · rw [hf, any_some]
    exact hprom
  · rw [hf, any_some]
    exact hscan
  · rw [hf, any_some]
    exact hall
  · rw [hopens, hinuse]
    exact hs.inuse id f hf
  · exact absurd (hinuse ▸ h) hused
  · rw [Sys.at, hchan] at hk
    exact hs.dir k ch hk

/-- The type stays. -/
theorem Inv.types_ne (hs : Inv s) (hf : s.file id = some f) :
    0 < f.type → ∀ j g, j ≠ id → s.file j = some g → f.type ≠ g.type :=
  fun hpos j g hj hg => hs.types id j f g hf hg (Ne.symm hj) hpos

theorem connect_inv {p : Str} {n : Nat} (hs : Inv s) (hf : s.file id = some f) (hused : f.inuse ≠ 0)
    (hfree : s.typeinuse (atoi p) = false) (hold : 0 ≤ f.type) : Inv (s.connect id f p n).2 := by
  rw [Sys.connect, hfree, if_neg Bool.false_ne_true]
  refine control_inv hs hf rfl rfl rfl hused rfl rfl ?_ fun hpos j g _ hg => typeinuse_spec hfree hpos j g hg
  have hno : decide (f.type < 0) = false := decide_eq_false (Int.not_lt_of_ge hold)
  rw [hno]
  by_cases hneg : atoi p < 0
  · have hyes : decide (atoi p < 0) = true := decide_eq_true hneg
    dsimp only
    rw [if_pos hneg, hyes, Bool.toNat_false, Bool.toNat_true]
    omega
  · have hyes : decide (atoi p < 0) = false := decide_eq_false hneg
    dsimp only
    rw [if_neg hneg, hyes]

theorem promiscuous_inv (hs : Inv s) (hf : s.file id = some f) (hused : f.inuse ≠ 0) :
    Inv (s.promiscuous id f) := by
  rw [Sys.promiscuous]
  split
  next hzero =>
    refine control_inv hs hf rfl rfl rfl hused ?_ rfl rfl (hs.types_ne (f := f) hf)
    rw [hzero]
    change s.prom + 1 + ((0 : Nat) : Int) = s.prom + ((1 : Nat) : Int)
    omega
  next => exact hs

theorem scanbs_inv (hs : Inv s) (hf : s.file id = some f) (hused : f.inuse ≠ 0) (p : Str) :
    Inv (s.scanbs id f p) := by
  rw [Sys.scanbs]
  split
  next hzero =>
    refine control_inv hs hf rfl rfl rfl hused rfl ?_ rfl (hs.types_ne (f := f) hf)
    have hne : ((if atoi p < 5 then 5 else atoi p) != 0) = true := by
      rw [bne_iff_ne]
      split <;> omega
    rw [hzero]
    dsimp only
    rw [hne]
    change s.scan + 1 + ((0 : Nat) : Int) = s.scan + ((1 : Nat) : Int)
    omega
  next => exact hs

/-- The MTU is in no account. -/
theorem setmtu_spec (user p : Str) (n : Nat) :
    (Failed (s.setmtu user p n).1 ∧ (s.setmtu user p n).2 = s) ∨
      ∃ mtu, s.setmtu user p n = (.ok n, { s with mtu }) := by
  rw [Sys.setmtu]
  split
  next => exact Or.inl ⟨nofun, rfl⟩
  next =>
    dsimp only
    split
    next => exact Or.inl ⟨nofun, rfl⟩
    next =>
      right
      cases s.hwmtu with
      | none => exact ⟨_, rfl⟩
      | some hwmtu => exact ⟨_, rfl⟩

/-- **`netifwrite`** keeps the accounts, and when it fails the types and the queues. -/
theorem control_spec {cmd : Cmd} {n : Nat} (hs : Inv s) (hf : s.file id = some f) (hused : f.inuse ≠ 0)
    (hreg : ∀ p, cmd = .connect p → s.typeinuse (atoi p) = false ∧ 0 ≤ f.type) :
    Inv (s.control id f user cmd n).2 ∧
      (Failed (s.control id f user cmd n).1 → (s.control id f user cmd n).2 = s) := by
  have hdone : ∀ {t : Sys}, Failed (.ok (n : Int)) → t = s := fun h => absurd (h n rfl) (by omega)
  have hbridge : ∀ bridge, Inv (s.setfile id { f with bridge }) := fun bridge =>
    control_inv hs hf rfl rfl rfl hused rfl rfl rfl (hs.types_ne (f := f) hf)
  cases cmd with
  | connect p =>
    obtain ⟨hfree, hold⟩ := hreg p rfl
    refine ⟨connect_inv hs hf hused hfree hold, fun h => ?_⟩
    rw [Sys.control, Sys.connect, hfree, if_neg Bool.false_ne_true] at h
    exact hdone h
  | promiscuous => exact ⟨promiscuous_inv hs hf hused, hdone⟩
  | scanbs p => exact ⟨scanbs_inv hs hf hused p, hdone⟩
  | mtu p =>
    rw [Sys.control]
    rcases setmtu_spec (s := s) user p n with ⟨-, hsame⟩ | ⟨mtu, hrun⟩
    · rw [hsame]
      exact ⟨hs, fun _ => rfl⟩
    · rw [hrun]
      exact ⟨hs.same rfl rfl rfl rfl (fun _ => rfl) hs.dir, hdone⟩
  | l2bridge => exact ⟨hbridge _, hdone⟩
  | bridge => exact ⟨hbridge _, hdone⟩
  | multi p =>
    rw [Sys.control]
    split
    · exact ⟨hs, fun _ => rfl⟩
    · split <;> exact ⟨hs, fun _ => rfl⟩
  | other => exact ⟨hs, fun _ => rfl⟩

theorem shut_dir (hs : Inv s) (hc : s.at c = some ch) : ∀ k ch, (s.setchan c none).at k = some ch →
    ch.dir = true → NETTYPE ch.path ≠ Ndataqid ∧ NETTYPE ch.path ≠ Nctlqid :=
  setchan_dir hs (at_lt hc) nofun

theorem shut_opens (hc : s.at c = some ch) (j : Nat) :
    (s.setchan c none).opens j + (ch.opens j).toNat = s.opens j := by
  have hset := setchan_opens (at_lt hc) none j
  rw [hc, any_some] at hset
  exact hset

/-- A Chan that has no Netfile open goes. -/
theorem shut_inv (hs : Inv s) (hc : s.at c = some ch) (hno : ∀ j, ch.opens j = false) :
    Inv (s.setchan c none) := by
  refine hs.same rfl rfl rfl rfl (fun j => ?_) (shut_dir hs hc)
  have hset := shut_opens hc j
  rw [hno] at hset
  exact hset

/-- **`netifclose`** of the last Chan takes the Netfile out of each account. -/
theorem cclose_inv (hs : Inv s) (hc : s.at c = some ch) : ∃ t, s.cclose c = some t ∧ Inv t := by
  rw [Sys.cclose, hc]
  dsimp only
  rw [Sys.netifclose]
  by_cases hopen : ch.copen = false
  · rw [if_pos hopen]
    exact ⟨_, rfl, shut_inv hs hc (opens_closed hopen)⟩
  rw [if_neg hopen]
  by_cases hpath : NETTYPE ch.path ≠ Ndataqid ∧ NETTYPE ch.path ≠ Nctlqid
  · rw [if_pos hpath]
    exact ⟨_, rfl, shut_inv hs hc (opens_type hpath)⟩
  rw [if_neg hpath]
  have hopens := opens_open (Bool.of_not_eq_false hopen) (by
    by_contra h
    exact hpath (not_or.mp h))
  have hdir := shut_dir hs hc
  have hself := shut_opens hc (NETID ch.path)
  rw [hopens, beq_self_eq_true, Bool.toNat_true] at hself
  have hothers : ∀ j, j ≠ NETID ch.path → (s.setchan c none).opens j = s.opens j := by
    intro j hj
    have hset := shut_opens hc j
    rw [hopens, beq_false_of_ne (Ne.symm hj)] at hset
    exact hset
  cases hf : s.file (NETID ch.path) with
  | none =>
    have hzero := hs.absent _ hf
    omega
  | some f =>
    have hid := file_lt hf
    have hinuse := hs.inuse _ f hf
    rw [map_some, map_some]
    dsimp only
    by_cases hlast : f.inuse - 1 = 0
    · rw [if_pos hlast]
      refine ⟨_, rfl, hs.put (f := Netfile.closed { f with inuse := f.inuse - 1 }) hid rfl ?_ ?_ ?_ hothers ?_
        (fun hpos => absurd hpos (Int.lt_irrefl 0)) (fun _ => ⟨rfl, rfl, rfl, rfl⟩) hdir⟩
      · rw [hf, any_some]
        change (if f.prom ≠ 0 then s.prom - 1 else s.prom) + _ = s.prom + ((0 : Nat) : Int)
        by_cases h : f.prom = 0
        · rw [if_neg (not_not.mpr h), h]
          rfl
        · rw [if_pos h, bne_iff_ne.mpr h, Bool.toNat_true]
          omega
      · rw [hf, any_some]
        change (if f.scan ≠ 0 then s.scan - 1 else s.scan) + _ = s.scan + ((0 : Nat) : Int)
        by_cases h : f.scan = 0
        · rw [if_neg (not_not.mpr h), h]
          rfl
        · rw [if_pos h, bne_iff_ne.mpr h, Bool.toNat_true]
          omega
      · rw [hf, any_some]
        change (if f.type < 0 then s.all - 1 else s.all) + _ = s.all + ((0 : Nat) : Int)
        by_cases h : f.type < 0
        · rw [if_pos h, decide_eq_true h, Bool.toNat_true]
          omega
        · rw [if_neg h, decide_eq_false h]
          rfl
      · change f.inuse - 1 = ((s.setchan c none).opens (NETID ch.path) : Int)
        omega
    · rw [if_neg hlast]
      refine ⟨_, rfl, hs.put (f := { f with inuse := f.inuse - 1 }) hid rfl ?_ ?_ ?_ hothers ?_
        (hs.types_ne (f := f) hf) (fun h => absurd h hlast) hdir⟩
      · rw [hf]
        rfl
      · rw [hf]
        rfl
      · rw [hf]
        rfl
      · change f.inuse - 1 = ((s.setchan c none).opens (NETID ch.path) : Int)
        omega

/-- A Chan that a walk makes has nothing open. -/
theorem walk_inv {path : Nat} {dir : Bool} (hs : Inv s) (hmade : Made s path dir) :
    Inv { s with chan := s.chan ++ [some ⟨path, dir, false, 0⟩] } := by
  refine hs.same rfl rfl rfl rfl (fun j => ?_) fun k ch hk hdir => ?_
  · change (s.chan ++ [some (⟨path, dir, false, 0⟩ : Chan)]).countP _ = s.chan.countP _
    rw [countP_append]
    rfl
  · have hat : (s.chan ++ [some (⟨path, dir, false, 0⟩ : Chan)]).getD k none = some ch := hk
    rw [Tally.getD_concat] at hat
    by_cases hlast : k = s.chan.length
    · rw [if_pos hlast] at hat
      cases hat
      rcases hmade with ⟨-, rfl | rfl⟩ | ⟨hno, -⟩ | ⟨id, -, ⟨-, rfl⟩ | ⟨t, -, hno, -⟩⟩
      · exact (by decide : NETTYPE 0 ≠ Ndataqid ∧ NETTYPE 0 ≠ Nctlqid)
      · exact (by decide : NETTYPE N2ndqid ≠ Ndataqid ∧ NETTYPE N2ndqid ≠ Nctlqid)
      · exact absurd (hno.symm.trans hdir) Bool.false_ne_true
      · have htype : NETTYPE (NETQID id N3rdqid) = N3rdqid := nettype_netqid (by decide)
        change NETTYPE (NETQID id N3rdqid) ≠ Ndataqid ∧ NETTYPE (NETQID id N3rdqid) ≠ Nctlqid
        rw [htype]
        decide
      · exact absurd (hno.symm.trans hdir) Bool.false_ne_true
    · rw [if_neg hlast] at hat
      exact hs.dir k ch hat hdir

/-- A control write, through a Chan that is open. -/
theorem netifwrite_spec (hs : Inv s) (hc : s.at c = some ch) (hopen : ch.copen = true)
    (hreg : Regular s (.write c user a)) :
    ∃ r t, s.netifwrite ch user a = some (r, t) ∧ Inv t ∧ (Failed r → t = s) := by
  rw [Sys.netifwrite]
  by_cases hctl : NETTYPE ch.path ≠ Nctlqid
  · rw [if_pos hctl]
    exact ⟨_, _, rfl, hs, fun _ => rfl⟩
  rw [if_neg hctl]
  have hpath : NETTYPE ch.path = Nctlqid := not_not.mp hctl
  have hself := shut_opens hc (NETID ch.path)
  rw [opens_open hopen (Or.inr hpath), beq_self_eq_true, Bool.toNat_true] at hself
  cases hf : s.file (NETID ch.path) with
  | none =>
    have hzero := hs.absent _ hf
    omega
  | some f =>
    have hinuse := hs.inuse _ f hf
    have hspec := @control_spec _ _ _ user _ (min a.length 63) hs hf (by omega)
      fun p hp => hreg ch f p hc hpath hf hp
    exact ⟨_, _, rfl, hspec⟩

theorem act_spec {op : Op} (hs : Inv s) (hop : Allowed s op) (hreg : Regular s op) :
    ∃ t, act s op = some t ∧ Inv t := by
  cases op with
  | walk path dir => exact ⟨_, rfl, walk_inv hs hop⟩
  | «open» c user omode mem =>
    obtain ⟨ch, hc, hopen⟩ := hop
    obtain ⟨r, t, hrun, ht⟩ := netifopen_inv hs hc hopen hreg
    refine ⟨t, ?_, ht⟩
    rw [act, hc, bind_some, hrun]
    rfl
  | write c user a =>
    obtain ⟨ch, hc, hopen, -⟩ := hop
    obtain ⟨r, t, hrun, ht, -⟩ := netifwrite_spec hs hc hopen hreg
    refine ⟨t, ?_, ht⟩
    rw [act, hc, bind_some, hrun]
    rfl
  | close c =>
    obtain ⟨ch, hc⟩ := ne_none_iff_exists'.mp hop
    exact cclose_inv hs hc

theorem start_inv (hs : Start s) : Inv s := by
  have hnone : ∀ id, s.file id = none := by
    intro id
    cases hf : s.file id with
    | none => rfl
    | some f =>
      have hlt := file_lt hf
      have hget : s.f[id] = some f := (Tally.getD_lt hlt none).symm.trans hf
      exact (hs.f _ (getElem_mem hlt)).symm.trans hget |>.symm ▸ rfl
  have hfiles : ∀ p, s.files p = 0 := fun p =>
    countP_eq_zero.mpr fun o ho => by rw [hs.f o ho]; exact Bool.false_ne_true
  have hopens : ∀ id, s.opens id = 0 := fun id => by rw [Sys.opens, hs.chan]; rfl
  have hat : ∀ c, s.at c = none := fun c => by rw [Sys.at, hs.chan]; rfl
  constructor
  · constructor
    · intro id f hf
      exact absurd ((hnone id).symm.trans hf) nofun
    · rw [hs.prom, hfiles]
      rfl
    · rw [hs.scan, hfiles]
      rfl
    · rw [hs.all, hfiles]
      rfl
    · intro i j f g hf
      exact absurd ((hnone i).symm.trans hf) nofun
    · intro id f hf
      exact absurd ((hnone id).symm.trans hf) nofun
  · intro id f hf
    exact absurd ((hnone id).symm.trans hf) nofun
  · intro id _
    exact hopens id
  · intro c ch hc
    exact absurd ((hat c).symm.trans hc) nofun

theorem reach_inv (hr : ReachRegular s) : Inv s := by
  refine StepSystem.Reach.invariant Inv (fun _ => start_inv) ?_ hr
  rintro s op t hs ⟨hop, hreg, hrun⟩
  obtain ⟨u, hu, hinv⟩ := act_spec hs hop hreg
  cases hu.symm.trans hrun
  exact hinv

/-- **The accounts of an interface** hold in every regular run: the counts, the types and the owners.
A control write that fails leaves the types and the queues, and no call reads a Netfile that there
is not. -/
theorem accounts_ok (hr : ReachRegular s) : Accounts s ∧
    (∀ c ch user a r t, s.at c = some ch → ch.copen = true → Regular s (.write c user a) →
      s.netifwrite ch user a = some (r, t) → Failed r → Kept s t) ∧
    ∀ op, Allowed s op → Regular s op → act s op ≠ none := by
  have hs := reach_inv hr
  refine ⟨hs.toAccounts, fun c ch user a r t hc hopen hreg hrun hfail => ?_, fun op hop hreg => ?_⟩
  · obtain ⟨r', t', hrun', -, hsame⟩ := netifwrite_spec hs hc hopen hreg
    cases hrun.symm.trans hrun'
    rw [hsame hfail]
    exact fun _ => rfl
  · obtain ⟨t, hrun, -⟩ := act_spec hs hop hreg
    rw [hrun]
    exact some_ne_none t

/-- An interface with two Netfiles to come. -/
def fresh : Sys :=
  ⟨[none, none], 65536, 6, 60, 1514, 1514, 0, 0, 0, false, none, [], "bootes".toUTF8.toList⟩

theorem fresh_start : Start fresh := by
  refine ⟨fun f hf => ?_, rfl, rfl, rfl, rfl⟩
  rcases List.mem_pair.mp hf with h | h <;> exact h

def glenda : Str := "glenda".toUTF8.toList

/-- The state behind a call. -/
def Sys.next (s : Sys) (op : Op) : Sys := (act s op).getD s

theorem act_next {op : Op} (h : (act s op).isSome = true) : act s op = some (s.next op) :=
  (getD_of_ne_none (isSome_iff_ne_none.mp h) s).symm

/-- `glenda` has cloned a Netfile, -/
def cloned : Sys := (fresh.next (.walk Ncloneqid false)).next (.open 0 glenda 2 true)

def connecting : Op := .write 0 glenda "connect -1".toUTF8.toList

/-- connected it to all types, and found its data file. -/
def connected : Sys := (cloned.next connecting).next (.walk (NETQID 0 Ndataqid) false)

/-- A Netfile is cloned, connects to all types, and its data file is opened. -/
theorem accounts_ok_cloned :
    Accounts (connected.next (.open 1 glenda 0 true)) ∧
      (connected.next (.open 1 glenda 0 true)).opens 0 = 2 ∧ connected.all = 1 := by
  have hstep : ∀ {s : Sys} (op : Op), ReachRegular s → Allowed s op → Regular s op →
      (act s op).isSome = true → ReachRegular (s.next op) :=
    fun op hr hop hreg hrun => hr.next ⟨hop, hreg, act_next hrun⟩
  have h₁ := hstep (.walk Ncloneqid false) (StepSystem.Reach.start fresh_start)
    (Or.inr (Or.inl ⟨rfl, by decide⟩)) trivial rfl
  have hchan₁ : (fresh.next (.walk Ncloneqid false)).at 0 = some ⟨Ncloneqid, false, false, 0⟩ := by decide +kernel
  have h₂ : ReachRegular cloned := by
    refine hstep _ h₁ ⟨_, hchan₁, rfl⟩ (fun ch hch _ => ?_) (by decide +kernel)
    cases hchan₁.symm.trans hch
    exact ⟨fun h => absurd h (by decide), fun _ _ _ _ => ⟨by decide +kernel, by decide +kernel⟩⟩
  have hchan₂ : cloned.at 0 = some ⟨NETQID 0 Nctlqid, false, true, 2⟩ := by decide +kernel
  have h₃ : ReachRegular (cloned.next connecting) := by
    refine hstep _ h₂ ⟨_, hchan₂, rfl, rfl⟩ (fun ch f p hch _ hf hp => ?_) (by decide +kernel)
    have htype : ((cloned.file 0).all fun f => 0 ≤ f.type) = true := by decide +kernel
    have hparse : parse (cstring "connect -1".toUTF8.toList) = .connect "-1".toUTF8.toList := by decide +kernel
    cases hchan₂.symm.trans hch
    cases hparse.symm.trans hp
    rw [show cloned.file 0 = some f from hf] at htype
    exact ⟨by decide +kernel, of_decide_eq_true htype⟩
  have h₄ : ReachRegular connected := by
    refine hstep _ h₃ (Or.inr (Or.inr ⟨0, ?_, Or.inr ⟨Ndataqid, by decide, rfl, rfl⟩⟩)) trivial rfl
    decide +kernel
  have hchan₄ : connected.at 1 = some ⟨NETQID 0 Ndataqid, false, false, 0⟩ := by decide +kernel
  have h₅ : ReachRegular (connected.next (.open 1 glenda 0 true)) := by
    refine hstep _ h₄ ⟨_, hchan₄, rfl⟩ (fun ch hch _ => ?_) (by decide +kernel)
    have hmay : ((connected.file 0).all fun f => permitted f.owner f.mode glenda connected.eve (0 &&& 7)) = true := by
      decide +kernel
    cases hchan₄.symm.trans hch
    refine ⟨fun _ f hf => ⟨?_, by decide +kernel⟩, fun h => absurd h (by decide)⟩
    rw [show connected.file 0 = some f from hf] at hmay
    exact hmay
  exact ⟨(accounts_ok h₅).1, by decide +kernel, by decide +kernel⟩

/-- `rob` is refused the data file of that Netfile. -/
def refused : Sys :=
  (cloned.next (.walk (NETQID 0 Ndataqid) false)).next (.open 1 "rob".toUTF8.toList 0 true)

/-- The open that is refused has counted, and nothing takes it back. -/
theorem refused_counts : Reach refused ∧ refused.opens 0 = 1 ∧
    refused.file 0 ≠ none ∧ (∀ f, refused.file 0 = some f → f.inuse = 2) ∧ ¬Accounts refused := by
  have hstep : ∀ {s : Sys} (op : Op), Reach s → Allowed s op → (act s op).isSome = true → Reach (s.next op) :=
    fun op hr hop hrun => hr.next ⟨hop, act_next hrun⟩
  have h₁ := hstep (.walk Ncloneqid false) (StepSystem.Reach.start fresh_start)
    (Or.inr (Or.inl ⟨rfl, by decide⟩)) rfl
  have hchan₁ : (fresh.next (.walk Ncloneqid false)).at 0 = some ⟨Ncloneqid, false, false, 0⟩ := by decide +kernel
  have h₂ : Reach cloned := hstep _ h₁ ⟨_, hchan₁, rfl⟩ (by decide +kernel)
  have h₃ : Reach (cloned.next (.walk (NETQID 0 Ndataqid) false)) := by
    refine hstep _ h₂ (Or.inr (Or.inr ⟨0, ?_, Or.inr ⟨Ndataqid, by decide, rfl, rfl⟩⟩)) rfl
    decide +kernel
  have hchan₃ : (cloned.next (.walk (NETQID 0 Ndataqid) false)).at 1 =
      some ⟨NETQID 0 Ndataqid, false, false, 0⟩ := by decide +kernel
  have h₄ : Reach refused := hstep _ h₃ ⟨_, hchan₃, rfl⟩ (by decide +kernel)
  have hinuse : ((refused.file 0).all fun f => f.inuse == 2) = true := by decide +kernel
  have hopens : refused.opens 0 = 1 := by decide +kernel
  have hsome : refused.file 0 ≠ none := by decide +kernel
  have htwo : ∀ f, refused.file 0 = some f → f.inuse = 2 := by
    intro f hf
    rw [hf] at hinuse
    exact eq_of_beq hinuse
  refine ⟨h₄, hopens, hsome, htwo, fun h => ?_⟩
  obtain ⟨f, hf⟩ := ne_none_iff_exists'.mp hsome
  have hone := h.inuse 0 f hf
  rw [htwo f hf, hopens] at hone
  exact absurd hone (by decide)

end Netif
