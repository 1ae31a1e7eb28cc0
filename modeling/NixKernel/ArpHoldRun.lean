import NixKernel.ArpHold
import NixKernel.ArpTableRun

/-!
# The runs of the hold lists

Which packet is on which list is followed as a table of chains, with the two counts as its ledger: a
packet on a chain has been put once more than it has been handled, and any other as often.  Each way
to move, hand out or free a list keeps both, and with them what the pointers to the last packets say.
-/

namespace ArpHold

open ArpTable ChainTable LinkList Function List Option

variable {N : Nat} {k t : Kern N} {tab tab' : Place → List (Fin N)} {a : Entry} {b bp : Fin N} {w : Place}
  {puts handled handled' : Fin N → Nat}

/-- A packet is on a list. -/
def On (tab : Place → List (Fin N)) (b : Fin N) : Prop := ∃ w, b ∈ tab w

/-- The packets that `P` names have been handled once more. -/
structure Settled (P : Fin N → Prop) (handled handled' : Fin N → Nat) : Prop where
  each : ∀ b, P b → handled' b = handled b + 1
  other : ∀ b, ¬P b → handled' b = handled b

/-- A packet on a list has been put once more than handled, any other as often. -/
structure Ledger (puts handled : Fin N → Nat) (tab : Place → List (Fin N)) : Prop where
  waits : ∀ b, On tab b → puts b = handled b + 1
  gone : ∀ b, ¬On tab b → puts b = handled b

theorem Ledger.congr (h : Ledger puts handled tab) (hon : ∀ b, On tab' b ↔ On tab b) :
    Ledger puts handled tab' :=
  ⟨fun b hb => h.waits b ((hon b).mp hb), fun b hb => h.gone b fun hb' => hb ((hon b).mpr hb')⟩

/-- The packets that `P` names are handled, each once. -/
theorem Ledger.settle {P : Fin N → Prop} (h : Ledger puts handled tab) (hP : ∀ b, P b → On tab b)
    (hon : ∀ b, On tab' b ↔ On tab b ∧ ¬P b) (hcount : Settled P handled handled') :
    Ledger puts handled' tab' := by
  constructor
  · intro b hb
    obtain ⟨hb, hout⟩ := (hon b).mp hb
    rw [hcount.other b hout]
    exact h.waits b hb
  · intro b hb
    by_cases hmem : P b
    · rw [hcount.each b hmem]
      exact h.waits b (hP b hmem)
    · rw [hcount.other b hmem]
      exact h.gone b fun hb' => hb ((hon b).mpr ⟨hb', hmem⟩)

/-- A packet that was on no list is put on one. -/
theorem Ledger.put (h : Ledger puts handled tab) (hbp : ¬On tab bp)
    (hon : ∀ b, On tab' b ↔ On tab b ∨ b = bp) : Ledger (update puts bp (puts bp + 1)) handled tab' := by
  constructor
  · intro b hb
    by_cases heq : b = bp
    · subst heq
      rw [update_self, h.gone b hbp]
    · rw [update_of_ne heq]
      exact h.waits b (((hon b).mp hb).resolve_right heq)
  · intro b hb
    have hne : b ≠ bp := fun heq => hb ((hon b).mpr (Or.inr heq))
    rw [update_of_ne hne]
    exact h.gone b fun hb' => hb ((hon b).mpr (Or.inl hb'))

theorem on_update {l : List (Fin N)} : On (update tab w l) b ↔ b ∈ l ∨ ∃ v, v ≠ w ∧ b ∈ tab v := by
  constructor
  · rintro ⟨v, hv⟩
    by_cases hvw : v = w
    · rw [hvw, update_self] at hv
      exact Or.inl hv
    · rw [update_of_ne hvw] at hv
      exact Or.inr ⟨v, hvw, hv⟩
  · rintro (hb | ⟨v, hvw, hv⟩)
    · exact ⟨w, by rwa [update_self]⟩
    · exact ⟨v, by rwa [update_of_ne hvw]⟩

theorem on_iff (w : Place) : On tab b ↔ b ∈ tab w ∨ ∃ v, v ≠ w ∧ b ∈ tab v := by
  rw [← on_update, update_eq_self]

/-- The lists, the ledger, and the pointers to the last packets. -/
structure Sound (k : Kern N) (tab : Place → List (Fin N)) : Prop where
  chains : Chains k.head k.list tab
  ledger : Ledger k.puts k.handled tab
  last : ∀ a, tab (.hold a) ≠ [] → k.last a = (tab (.hold a)).getLast?
  dropl : k.dropl = (tab .drop).getLast?
  ifc : k.drops ≠ none → k.dropifc ≠ none

theorem Sound.kept (h : Sound k tab) : Kept k :=
  ⟨tab, h.chains, fun w b hb => h.ledger.waits b ⟨w, hb⟩,
    fun b hb => h.ledger.gone b fun ⟨w, hw⟩ => hb w hw, h.ifc⟩

/-- The table does not matter. -/
theorem Sound.table (h : Sound k tab) (s : Sys) : Sound { k with toSys := s } tab :=
  { h with }

theorem length_lt {l : List (Fin N)} (h : l.Nodup) : l.length < N + 1 := by
  have hle := h.length_le_card
  rw [Fintype.card_fin] at hle
  exact Nat.lt_succ_of_le hle

/-- A list is taken off its place. -/
theorem on_clear (hc : Chains k.head k.list tab) (w : Place) :
    On (update tab w []) b ↔ On tab b ∧ b ∉ tab w := by
  rw [on_update, on_iff w]
  constructor
  · rintro (hb | ⟨v, hvw, hv⟩)
    · exact absurd hb not_mem_nil
    · exact ⟨Or.inr ⟨v, hvw, hv⟩, fun hw => hvw (hc.disjoint v w b hv hw)⟩
  · rintro ⟨hb | hv, hout⟩
    · exact absurd hb hout
    · exact Or.inr hv

/-- A list is put behind another. -/
theorem on_splice (v w : Place) :
    On (update (update tab w []) v (tab v ++ tab w)) b ↔ On tab b := by
  constructor
  · intro hb
    rcases on_update.mp hb with hb | ⟨u, -, hu⟩
    · rcases mem_append.mp hb with hb | hb
      · exact ⟨v, hb⟩
      · exact ⟨w, hb⟩
    · by_cases huw : u = w
      · rw [huw, update_self] at hu
        exact absurd hu not_mem_nil
      · rw [update_of_ne huw] at hu
        exact ⟨u, hu⟩
  · rintro ⟨u, hu⟩
    rw [on_update]
    by_cases huv : u = v
    · exact Or.inl (mem_append_left _ (huv ▸ hu))
    · by_cases huw : u = w
      · exact Or.inl (mem_append_right _ (huw ▸ hu))
      · exact Or.inr ⟨u, huv, by rwa [update_of_ne huw]⟩

/-- A list is moved to an empty place. -/
theorem on_move {v w : Place} (h : tab v = []) :
    On (update (update tab w []) v (tab w)) b ↔ On tab b := by
  have hon : On (update (update tab w []) v (tab v ++ tab w)) b ↔ On tab b := on_splice v w
  rwa [h] at hon

theorem settled_one (b : Fin N) (count : Fin N → Nat) : Settled (· = b) count (update count b (count b + 1)) :=
  ⟨fun x hx => by rw [hx, update_self], fun _ hx => update_of_ne hx _ _⟩

/-- One after the other, when no packet is handled twice. -/
theorem Settled.trans {P Q : Fin N → Prop} {count : Fin N → Nat} (hP : Settled P count handled)
    (hQ : Settled Q handled handled') (hdisj : ∀ b, P b → ¬Q b) : Settled (fun b => P b ∨ Q b) count handled' := by
  refine ⟨fun b hb => ?_, fun b hb => ?_⟩
  · rcases hb with hb | hb
    · rw [hQ.other b (hdisj b hb), hP.each b hb]
    · rw [hQ.each b hb, hP.other b fun hb' => hdisj b hb' hb]
  · rw [hQ.other b fun hb' => hb (Or.inr hb'), hP.other b fun hb' => hb (Or.inl hb')]

theorem Settled.congr {P Q : Fin N → Prop} (h : Settled P handled handled') (hPQ : ∀ b, Q b ↔ P b) :
    Settled Q handled handled' := by
  rw [funext fun b => propext (hPQ b)]
  exact h

/-- The packets of a list, each once. -/
theorem settle_spec {list : Fin N → Option (Fin N)} {p : Option (Fin N)} {l : List (Fin N)} {fuel : Nat}
    (h : Path list p l none) (hfuel : l.length < fuel) (count : Fin N → Nat) :
    ∃ count', settle list fuel p count = some count' ∧ Settled (· ∈ l) count count' := by
  induction l generalizing p fuel count with
  | nil =>
    obtain ⟨fuel, rfl⟩ := Nat.exists_eq_add_one.mpr hfuel
    rw [path_nil.mp h]
    exact ⟨count, rfl, fun b hb => absurd hb not_mem_nil, fun _ _ => rfl⟩
  | cons x l ih =>
    obtain ⟨fuel, rfl⟩ := Nat.exists_eq_add_one.mpr (Nat.zero_lt_of_lt hfuel)
    have hx : x ∉ l := (nodup_cons.mp h.nodup).1
    obtain ⟨rfl, ht⟩ := h
    obtain ⟨count', hrun, hcount⟩ := ih ht (Nat.lt_of_succ_lt_succ hfuel) (update count x (count x + 1))
    refine ⟨count', hrun, ((settled_one x count).trans hcount ?_).congr fun b => mem_cons⟩
    rintro b rfl
    exact hx

theorem head_hold (k : Kern N) (a : Entry) (p : Option (Fin N)) :
    Kern.head { k with hold := update k.hold a p } = update k.head (.hold a) p := by
  funext w
  cases w with
  | hold a' =>
    by_cases ha : a' = a
    · subst ha
      rw [update_self]
      exact update_self ..
    · rw [update_of_ne (by rintro ⟨⟩; exact ha rfl)]
      exact update_of_ne ha ..
  | drop => rfl
  | out p => rfl
  | report => rfl

theorem head_out (k : Kern N) (p : Nat) (q : Option (Fin N)) :
    Kern.head { k with out := update k.out p q } = update k.head (.out p) q := by
  funext w
  cases w with
  | hold a => rfl
  | drop => rfl
  | out p' =>
    by_cases hp : p' = p
    · subst hp
      rw [update_self]
      exact update_self ..
    · rw [update_of_ne (by rintro ⟨⟩; exact hp rfl)]
      exact update_of_ne hp ..
  | report => rfl

theorem head_drop (k : Kern N) (p : Option (Fin N)) :
    Kern.head { k with dropf := p } = update k.head .drop p := by
  funext w
  cases w <;> rfl

theorem head_report (k : Kern N) (p : Option (Fin N)) :
    Kern.head { k with drops := p } = update k.head .report p := by
  funext w
  cases w <;> rfl

/-- The pointers to the last packets of the hold lists, when one list is another. -/
theorem last_update {last : Entry → Option (Fin N)} {l : List (Fin N)}
    (h : ∀ a, tab (.hold a) ≠ [] → last a = (tab (.hold a)).getLast?)
    (hw : ∀ a, w = .hold a → l ≠ [] → last a = l.getLast?) (a : Entry) :
    update tab w l (.hold a) ≠ [] → last a = (update tab w l (.hold a)).getLast? := by
  by_cases haw : Place.hold a = w
  · rw [haw, update_self]
    exact hw a haw.symm
  · rw [update_of_ne haw]
    exact h a

theorem last_other {last : Entry → Option (Fin N)} (w : Place) (hw : ∀ a, w ≠ .hold a) (l : List (Fin N))
    (h : ∀ a, tab (.hold a) ≠ [] → last a = (tab (.hold a)).getLast?) :
    ∀ a, update tab w l (.hold a) ≠ [] → last a = (update tab w l (.hold a)).getLast? :=
  last_update h fun a heq => absurd heq (hw a)

/-- **The packets of an entry are freed or handed back**, each once. -/
theorem Sound.settle (h : Sound k tab) (a : Entry) : ∃ count,
    Kern.settle { k with hold := update k.hold a none } (k.hold a) =
      some { k with hold := update k.hold a none, handled := count } ∧
    Sound { k with hold := update k.hold a none, handled := count } (update tab (.hold a) []) := by
  obtain ⟨count, hrun, hcount⟩ := settle_spec (h.chains.path (.hold a)) (length_lt (h.chains.nodup _)) k.handled
  exact ⟨count, congrArg (Option.map _) hrun, (h.chains.clear _).congr (head_hold k a none),
    h.ledger.settle (fun b hb => ⟨_, hb⟩) (fun b => on_clear h.chains _) hcount,
    last_update h.last fun _ _ hne => absurd rfl hne, h.dropl, h.ifc⟩

theorem drop_eq (k : Kern N) (xp : Fin N) : k.drop xp = { k with
    dropf := (store k.dropl (some xp) k.dropf k.list).1
    list := (store k.dropl (some xp) k.dropf k.list).2 } := by
  rw [Kern.drop]
  cases k.dropl <;> rfl

/-- A hold list has gone to the drop list. -/
theorem head_dropped (hhold : t.hold = update k.hold a none) (hout : t.out = k.out) (hdrops : t.drops = k.drops) :
    t.head = update (update k.head (.hold a) none) .drop t.dropf := by
  rw [← head_hold, ← head_drop]
  funext w
  cases w with
  | hold x => exact congrFun hhold x
  | drop => rfl
  | out p => exact congrFun hout p
  | report => exact hdrops

/-- The packets of an entry at the end of the drop list. -/
theorem Sound.drop (h : Sound k tab) (a : Entry) :
    Chains (update (update k.head (.hold a) none) .drop (store k.dropl (k.hold a) k.dropf k.list).1)
      (store k.dropl (k.hold a) k.dropf k.list).2
      (update (update tab (.hold a) []) .drop (tab .drop ++ tab (.hold a))) := by
  have hsplice := h.chains.splice (b := Place.drop) (c := .hold a) nofun
  rw [← h.dropl] at hsplice
  exact hsplice

/-- **`newarp6` dumps the packets** of the entry that it uses again. -/
theorem Sound.dump (h : Sound k tab) (a : Entry) : ∃ t tab', k.dump a = some t ∧ Sound t tab' ∧
    (∀ b, On tab' b → On tab b) ∧ t.toSys = k.toSys ∧ t.hold = update k.hold a none := by
  by_cases hv4 : isv4 (k.cache a).ip = true
  · obtain ⟨count, hrun, hs⟩ := h.settle a
    refine ⟨_, _, ?_, hs, fun b hb => ((on_clear h.chains _).mp hb).1, rfl, rfl⟩
    rw [Kern.dump, if_pos hv4]
    exact hrun
  · cases hxp : k.hold a with
    | none =>
      have hhold : update k.hold a none = k.hold := by rw [← hxp, update_eq_self]
      refine ⟨k, tab, ?_, h, fun _ hb => hb, rfl, hhold.symm⟩
      rw [Kern.dump, if_neg hv4, hxp, hhold]
    | some xp =>
      have hc := h.drop a
      have hfirst : Path k.list (some xp) (tab (.hold a)) none := hxp ▸ h.chains.path (.hold a)
      obtain ⟨r, hr, -⟩ := hfirst.of_some
      have hpath := hc.path .drop
      rw [update_self, hxp, hr] at hpath
      have hrest := hpath.suffix.2
      have hsearch : LinkList.search _ (fun _ => false) (N + 1) (some xp) _ = _ :=
        search_end hrest (length_lt hrest.nodup)
      refine ⟨{ k with
        hold := update k.hold a none
        list := (store k.dropl (some xp) k.dropf k.list).2
        dropf := (store k.dropl (some xp) k.dropf k.list).1
        dropl := r.getLast?.or (some xp) }, _, ?_, ⟨?_, h.ledger.congr fun b => on_splice .drop (.hold a), ?_, ?_, h.ifc⟩,
        fun b => (on_splice .drop (.hold a)).mp, rfl, rfl⟩
      · rw [Kern.dump, if_neg hv4, hxp]
        dsimp only
        rw [drop_eq]
        exact congrArg (Option.map _) hsearch
      · rw [hxp] at hc
        exact hc.congr (head_dropped rfl rfl rfl)
      · exact last_other .drop (fun _ => nofun) _ (last_update h.last fun _ _ hne => absurd rfl hne)
      · dsimp only
        rw [update_self, hr, List.getLast?_append, List.getLast?_cons]
        cases r.getLast? <;> rfl

/-- **A packet is queued** that was on no list. -/
theorem Sound.queue (h : Sound k tab) (a : Entry) (hbp : ¬On tab bp) : ∃ t tab', k.queue a bp = some t ∧ Sound t tab' ∧
    t.toSys = k.toSys ∧ ∀ x, t.hold x ≠ none → x = a ∨ k.hold x ≠ none := by
  have hout : ∀ w, bp ∉ tab w := fun w hw => hbp ⟨w, hw⟩
  have hc := h.chains.concat hout (.hold a)
  have hon : ∀ b, On (update tab (.hold a) (tab (.hold a) ++ [bp])) b ↔ On tab b ∨ b = bp := by
    intro b
    rw [on_update, on_iff (.hold a), mem_append, mem_singleton]
    exact or_right_comm
  have hlast : ∀ x, update tab (.hold a) (tab (.hold a) ++ [bp]) (.hold x) ≠ [] →
      update k.last a (some bp) x = (update tab (.hold a) (tab (.hold a) ++ [bp]) (.hold x)).getLast? := by
    intro x hx
    by_cases hxa : x = a
    · rw [hxa, update_self, update_self, List.getLast?_concat]
    · have hne : Place.hold x ≠ .hold a := fun heq => hxa (Place.hold.inj heq)
      rw [update_of_ne hne] at hx ⊢
      rw [update_of_ne hxa]
      exact h.last x hx
  cases hold : k.hold a with
  | none =>
    have hpath : Path k.list none (tab (.hold a)) none := hold ▸ h.chains.path (.hold a)
    have hnil := hpath.eq_nil
    refine ⟨{ k with
      hold := update k.hold a (some bp)
      last := update k.last a (some bp)
      list := update k.list bp none
      puts := update k.puts bp (k.puts bp + 1) }, _, by rw [Kern.queue, hold]; rfl,
      ⟨?_, h.ledger.put hbp hon, hlast, h.dropl, h.ifc⟩, rfl, fun x hx => ?_⟩
    · rw [hnil] at hc ⊢
      exact hc.congr (head_hold k a _)
    · by_cases hxa : x = a
      · exact Or.inl hxa
      · change update k.hold a (some bp) x ≠ none at hx
        exact Or.inr (by rwa [update_of_ne hxa] at hx)
  | some b =>
    have hpath : Path k.list (some b) (tab (.hold a)) none := hold ▸ h.chains.path (.hold a)
    obtain ⟨r, hr, -⟩ := hpath.of_some
    have hlast' := h.last a (by rw [hr]; nofun)
    obtain ⟨l, hl⟩ : ∃ l, (tab (.hold a)).getLast? = some l := by
      rw [hr, List.getLast?_cons]
      exact ⟨_, rfl⟩
    have hne : l ≠ bp := by
      rintro rfl
      exact hout _ (mem_of_getLast? hl)
    rw [hl] at hc hlast'
    refine ⟨{ k with
      last := update k.last a (some bp)
      list := update (update k.list l (some bp)) bp none
      puts := update k.puts bp (k.puts bp + 1) }, _, by rw [Kern.queue, hold]; dsimp only; rw [hlast']; rfl,
      ⟨?_, h.ledger.put hbp hon, hlast, h.dropl, h.ifc⟩, rfl, fun x hx => Or.inr hx⟩
    change Chains k.head (update (update k.list l (some bp)) bp none) _
    rw [update_comm hne, ← update_eq_self (.hold a) k.head]
    exact hc

theorem Sound.nil (h : Sound k tab) (hw : k.head w = none) : tab w = [] :=
  (hw ▸ h.chains.path w : Path k.list none (tab w) none).eq_nil

/-- `arpenter` takes the packets of an entry along. -/
theorem Sound.take {p : Nat} (h : Sound k tab) (a : Entry) (hp : k.out p = none) : ∃ tab',
    Sound { k with hold := update k.hold a none, out := update k.out p (k.hold a) } tab' := by
  have hnil := h.nil (w := .out p) hp
  have hc := h.chains.move (b := .out p) (c := .hold a) nofun hnil
  refine ⟨_, hc.congr ?_, h.ledger.congr fun b => ?_, last_other (.out p) (fun _ => nofun) _ (last_update h.last fun _ _ hne => absurd rfl hne),
    h.dropl, h.ifc⟩
  · rw [← head_hold]
    exact head_out { k with hold := update k.hold a none } p (k.hold a)
  · exact on_move hnil

/-- "dodrops" takes the drop list along. -/
theorem Sound.dodrops (h : Sound k tab) (ifc : Option Nat) (hdrops : k.drops = none)
    (hifc : k.dropf ≠ none → ifc ≠ none) : ∃ tab', Sound (k.dodrops ifc) tab' := by
  have hnil := h.nil (w := .report) hdrops
  have hc := h.chains.move (b := .report) (c := .drop) nofun hnil
  refine ⟨_, hc.congr ?_, h.ledger.congr fun b => ?_, last_other .report (fun _ => nofun) _ (last_other .drop (fun _ => nofun) _ h.last), rfl, hifc⟩
  · rw [← head_drop]
    exact head_report { k with dropf := none } k.dropf
  · exact on_move hnil

/-- `rxmitsols` gives an entry up, and takes the drop list along with its packets. -/
theorem Sound.giveup (h : Sound k tab) (ifc : Option Nat) (hdrops : k.drops = none) (hifc : ifc ≠ none) (a : Entry) :
    ∃ tab', Sound { k with
      hold := update k.hold a none
      last := update k.last a none
      list := (store k.dropl (k.hold a) k.dropf k.list).2
      drops := (store k.dropl (k.hold a) k.dropf k.list).1
      dropifc := ifc
      dropf := none
      dropl := none } tab' := by
  have hnil := h.nil (w := .report) hdrops
  have hc := (h.drop a).move (b := .report) (c := .drop) nofun hnil
  refine ⟨_, hc.congr ?_, h.ledger.congr fun b => ?_, fun x hx => ?_, rfl, fun _ => hifc⟩
  · rw [update_self, ← head_hold, ← head_drop]
    funext w
    cases w <;> rfl
  · have hdropped : update (update tab (.hold a) []) .drop (tab .drop ++ tab (.hold a)) .report = [] := hnil
    exact (on_move hdropped).trans (on_splice .drop (.hold a))
  · refine last_other .report (fun _ => nofun) _ (last_other .drop (fun _ => nofun) _
      (last_other .drop (fun _ => nofun) _ fun y hy => ?_)) x hx
    have hya : y ≠ a := by
      rintro rfl
      exact hy (update_self ..)
    dsimp only
    rw [update_of_ne hya]
    exact last_update h.last (fun _ _ hne => absurd rfl hne) y hy

/-- **The first packet of a list** is sent or reported. -/
theorem Sound.front {bp : Fin N} (h : Sound k tab) (hw : k.head w = some bp) : ∃ tab',
    Chains (update k.head w (k.list bp)) k.list tab' ∧
    Ledger k.puts (update k.handled bp (k.handled bp + 1)) tab' ∧
    ∀ v, v ≠ w → tab' v = tab v := by
  have hpath : Path k.list (some bp) (tab w) none := hw ▸ h.chains.path w
  obtain ⟨r, hr, -⟩ := hpath.of_some
  have hnodup : bp ∉ r := by
    have hnodup := h.chains.nodup w
    rw [hr] at hnodup
    exact (nodup_cons.mp hnodup).1
  refine ⟨_, h.chains.tail hr, h.ledger.settle ?_ (fun b => ?_) (settled_one bp _), fun v hv => update_of_ne hv _ _⟩
  · rintro b rfl
    exact ⟨w, hr ▸ mem_cons_self⟩
  · rw [on_update, on_iff w, hr, mem_cons]
    constructor
    · rintro (hb | ⟨v, hvw, hv⟩)
      · exact ⟨Or.inl (Or.inr hb), fun heq => hnodup (heq ▸ hb)⟩
      · refine ⟨Or.inr ⟨v, hvw, hv⟩, fun heq => hvw (h.chains.disjoint v w b hv ?_)⟩
        exact hr ▸ heq ▸ mem_cons_self
    · rintro ⟨(hb | hb) | hv, hne⟩
      · exact absurd hb hne
      · exact Or.inl hb
      · exact Or.inr hv

/-- The packets of all hold lists, each once. -/
theorem Sound.settle_all (h : Sound k tab) {es : List Entry} (hes : es.Nodup) (count : Fin N → Nat) : ∃ count',
    es.foldlM (fun count a => ArpHold.settle k.list (N + 1) (k.hold a) count) count = some count' ∧
      Settled (fun b => ∃ a ∈ es, b ∈ tab (.hold a)) count count' := by
  induction es generalizing count with
  | nil => exact ⟨count, rfl, fun b ⟨a, ha, _⟩ => absurd ha not_mem_nil, fun _ _ => rfl⟩
  | cons a es ih =>
    obtain ⟨hout, hes⟩ := nodup_cons.mp hes
    obtain ⟨c, hrun, hc⟩ := settle_spec (h.chains.path (.hold a)) (length_lt (h.chains.nodup _)) count
    obtain ⟨count', hrest, hcount⟩ := ih hes c
    refine ⟨count', ?_, (hc.trans hcount ?_).congr fun b => exists_mem_cons_iff _ _ _⟩
    · rw [foldlM_cons]
      change (ArpHold.settle k.list (N + 1) (k.head (.hold a)) count).bind _ = _
      rw [hrun]
      exact hrest
    · rintro b hb ⟨x, hx, hbx⟩
      obtain ⟨rfl⟩ := h.chains.disjoint _ _ b hb hbx
      exact hout hx

/-- What is left on lists. -/
def flushed (tab : Place → List (Fin N)) : Place → List (Fin N)
  | .hold _ | .drop => []
  | w => tab w

theorem Sound.flush (h : Sound k tab) : ∃ count,
    k.flush = some { k with toSys := k.toSys.flush, hold := fun _ => none, dropf := none, dropl := none, handled := count } ∧
    Chains (Kern.head { k with hold := fun _ => none, dropf := none }) k.list (flushed tab) ∧
    Settled (fun b => ∃ a, b ∈ tab (.hold a)) k.handled count := by
  obtain ⟨count, hrun, hcount⟩ := h.settle_all (nodup_finRange NCACHE) k.handled
  refine ⟨count, congrArg (Option.map _) hrun, h.chains.sub fun w => ?_, hcount.congr fun b => ?_⟩
  · cases w with
    | hold a => exact Or.inr ⟨rfl, rfl⟩
    | drop => exact Or.inr ⟨rfl, rfl⟩
    | out p => exact Or.inl ⟨rfl, rfl⟩
    | report => exact Or.inl ⟨rfl, rfl⟩
  · simp only [mem_finRange, true_and]

variable {s s' : Sys} {now : UInt32}

theorem unhash_cache {s t : Arp} (h : s.unhash a = some t) : t.cache = s.cache := by
  obtain ⟨r, -, rfl⟩ := map_eq_some_iff.mp h
  rfl

theorem unrxmt_cache {s t : Arp} (h : s.unrxmt a = some t) : t.cache = s.cache := by
  obtain ⟨r, -, rfl⟩ := map_eq_some_iff.mp h
  rfl

theorem rxmtend_cache {s t : Arp} (h : s.rxmtend a = some t) : t.cache = s.cache := by
  obtain ⟨r, -, rfl⟩ := map_eq_some_iff.mp h
  rfl

theorem set_state {s : Arp} {e : Arpent} (b : Entry) (h : b = a → e.state = (s.cache a).state) :
    ((s.set a e).cache b).state = (s.cache b).state := by
  change (update s.cache a e b).state = _
  by_cases hb : b = a
  · rw [hb, update_self, h hb]
  · rw [update_of_ne hb]

theorem cleanarpent_state {s t : Arp} (h : s.cleanarpent a = some t) (b : Entry) (hb : b ≠ a) :
    (t.cache b).state = (s.cache b).state := by
  obtain ⟨u, hu, h⟩ := bind_eq_some_iff.mp h
  obtain ⟨v, hv, h⟩ := bind_eq_some_iff.mp h
  cases h
  change ((v.set a _).cache b).state = _
  rw [set_state b fun heq => absurd heq hb, unrxmt_cache hv, unhash_cache hu, set_state b fun heq => absurd heq hb]

/-- `newarp6` leaves the states to its callers. -/
theorem newarp6_state {s : Arp} {ip : Ip} {i : Nat} {ifc : Ipifc} {addrxt : Bool} {r : Entry × Arp}
    (h : s.newarp6 ip i ifc addrxt now = some r) : r.1 = s.oldest ∧ ∀ b, (r.2.cache b).state = (s.cache b).state := by
  obtain ⟨u, hu, h⟩ := bind_eq_some_iff.mp h
  have hset : ∀ b, ((((u.link s.oldest ip).set s.oldest ((u.cache s.oldest).renew ip i ifc now)).cache b).state) =
      (s.cache b).state := by
    intro b
    rw [set_state (s := u.link s.oldest ip) (e := (u.cache s.oldest).renew ip i ifc now) b fun _ => rfl, ← unhash_cache hu]
    rfl
  dsimp only at h
  split at h
  next =>
    obtain ⟨v, hv, h⟩ := bind_eq_some_iff.mp h
    obtain rfl := some.inj h
    refine ⟨by dsimp only, fun b => ?_⟩
    rw [← hset, ← rxmtend_cache hv]
  next =>
    obtain rfl := some.inj h
    exact ⟨by dsimp only, hset⟩

theorem hit_state (h : s.hit a now = some s') (b : Entry) (hb : b ≠ a ∨ (s.cache a).state = .AWAIT) :
    (s'.cache b).state = (s.cache b).state := by
  have hset : ((s.set a { s.cache a with utime := now }).cache b).state = (s.cache b).state :=
    set_state (e := { s.cache a with utime := now }) b fun _ => rfl
  have hold : (if now - (s.cache a).ctime > 15 * 60 * 1000 then
      ((s.put (s.set a { s.cache a with utime := now })).cleanarpent a).map
        (s.put (s.set a { s.cache a with utime := now })).put
      else some (s.put (s.set a { s.cache a with utime := now }))) = some s' → b ≠ a →
      (s'.cache b).state = (s.cache b).state := by
    intro h hne
    split at h
    · obtain ⟨u, hu, rfl⟩ := map_eq_some_iff.mp h
      exact (cleanarpent_state hu b hne).trans hset
    · cases h
      exact hset
  rw [Sys.hit] at h
  cases hstate : (s.cache a).state with
  | AWAIT =>
    rw [hstate] at h
    cases h
    exact hset
  | AOK | UNUSED =>
    rw [hstate] at h hb
    exact hold h (hb.resolve_right (by simp))

theorem rxmitsols_state {can : Bool} {i : Nat} (h : s.rxmitsols can now = some s') (ha : s.rxmt = some a)
    (hdue : ¬(s.cache a).due now = false) (hi : (s.cache a).ifc = some i) (b : Entry)
    (hb : b ≠ a ∨ ¬(¬((s.cache a).rxtsrem ≠ 0 ∧ can = true) ∨ (s.cache a).ifcid ≠ (s.ifc i).ifcid)) :
    (s'.cache b).state = (s.cache b).state := by
  rw [Sys.rxmitsols, ha] at h
  dsimp only at h
  rw [if_neg hdue, hi] at h
  dsimp only at h
  generalize hlocked : (if (s.cache a).rxtsrem ≠ 0 ∧ can = true then
    { s with rlocks := update s.rlocks i (s.rlocks i + 1) } else s) = l at h
  have hcache : l.cache = s.cache := by
    rw [← hlocked]
    split <;> rfl
  split at h
  next hgive =>
    obtain ⟨u, hu, h⟩ := bind_eq_some_iff.mp h
    split at h
    next =>
      obtain rfl := some.inj h
      exact (cleanarpent_state hu b (hb.resolve_right (not_not_intro hgive))).trans (congrArg (fun c => (c b).state) hcache)
    next => cases h
  next =>
    obtain rfl := some.inj h
    exact congrArg (fun c => (c b).state) hcache

/-- Only entries that wait have packets. -/
structure Inv (k : Kern N) : Prop where
  sound : ∃ tab, Sound k tab
  await : ∀ a, k.hold a ≠ none → (k.cache a).state = .AWAIT

variable {ip : Ip} {i : Nat} {addrxt : Bool} {r : Entry × Kern N}

theorem Sound.not_on (h : Sound k tab) (heq : k.puts b = k.handled b) : ¬On tab b := by
  intro hb
  have hwaits := h.ledger.waits b hb
  omega

/-- A hold list without packets is forgotten. -/
theorem Sound.clear (h : Sound k tab) (ha : k.hold a = none) : Sound (k.clear a) tab := by
  have hhold : update k.hold a none = k.hold := by rw [← ha, update_eq_self]
  refine ⟨h.chains.congr ?_, h.ledger, fun x hx => ?_, h.dropl, h.ifc⟩
  · rw [← update_eq_self (.hold a) k.head]
    exact (head_hold k a none).trans (congrArg _ ha.symm)
  · have hxa : x ≠ a := fun heq => hx (heq ▸ h.nil (w := .hold a) ha)
    exact (update_of_ne hxa _ _).trans (h.last x hx)

theorem Inv.newarp6 (h : Inv k) (hr : k.newarp6 ip i addrxt now = some r) :
    (∀ e, Inv { r.2 with toArp := r.2.toArp.set r.1 e }) ∧
      ∀ b, k.puts b = k.handled b → r.2.puts b = r.2.handled b := by
  obtain ⟨tab, hs⟩ := h.sound
  obtain ⟨d, hd, hr⟩ := bind_eq_some_iff.mp hr
  obtain ⟨q, hq, rfl⟩ := map_eq_some_iff.mp hr
  obtain ⟨d', tab', hrun, hs', hon, -, hhold⟩ := hs.dump k.oldest
  obtain rfl := some.inj (hd.symm.trans hrun)
  obtain ⟨hold, hstate⟩ := newarp6_state hq
  refine ⟨fun e => ⟨⟨tab', hs'.table _⟩, fun x hx => ?_⟩, fun b hb => hs'.ledger.gone b fun hb' => ?_⟩
  · change d.hold x ≠ none at hx
    rw [hhold] at hx
    have hne : x ≠ k.oldest := by
      rintro rfl
      exact hx (update_self ..)
    rw [update_of_ne hne] at hx
    change ((q.2.set q.1 e).cache x).state = _
    rw [set_state x fun heq => absurd (heq.trans hold) hne, hstate]
    exact h.await x hx
  · exact hs.not_on hb (hon b hb')

theorem Inv.hit {o : Option (Fin N)} (h : Inv k) (ho : ∀ b, o = some b → k.puts b = k.handled b)
    (hact : k.hit a now o = some t) : Inv t := by
  obtain ⟨tab, hs⟩ := h.sound
  obtain ⟨s, hhit, hact⟩ := bind_eq_some_iff.mp hact
  have hold : (k.cache a).state ≠ .AWAIT →
      Inv { (if now - (k.cache a).ctime > 15 * 60 * 1000 then k.clear a else k) with toSys := s } := by
    intro hstate
    have ha : k.hold a = none := by
      by_contra hne
      exact hstate (h.await a hne)
    have hawait : ∀ b, k.hold b ≠ none → (s.cache b).state = .AWAIT := by
      intro b hb
      have hne : b ≠ a := fun heq => hb (heq ▸ ha)
      exact (hit_state hhit b (Or.inl hne)).trans (h.await b hb)
    split
    · refine ⟨⟨tab, (hs.clear ha).table s⟩, fun b hb => hawait b fun hnone => hb ?_⟩
      change update k.hold a none b = none
      rw [update_apply, hnone, ite_self]
    · exact ⟨⟨tab, hs.table s⟩, hawait⟩
  cases hstate : (k.cache a).state with
  | AWAIT =>
    have hawait : ∀ b, b = a ∨ k.hold b ≠ none → (s.cache b).state = .AWAIT := by
      rintro b (rfl | hb)
      · exact (hit_state hhit b (Or.inr hstate)).trans hstate
      · exact (hit_state hhit b (Or.inr hstate)).trans (h.await b hb)
    rw [hstate] at hact
    cases o with
    | none =>
      cases hact
      exact ⟨⟨tab, hs.table s⟩, fun b hb => hawait b (Or.inr hb)⟩
    | some b =>
      obtain ⟨u, hu, rfl⟩ := map_eq_some_iff.mp hact
      obtain ⟨u', tab', hrun, hs', -, hhold⟩ := hs.queue a (hs.not_on (ho b rfl))
      obtain rfl := some.inj (hu.symm.trans hrun)
      exact ⟨⟨tab', hs'.table s⟩, fun x hx => hawait x (hhold x hx)⟩
  | AOK | UNUSED =>
    rw [hstate] at hact hold
    obtain rfl := some.inj hact
    exact hold nofun

theorem Inv.arpget {ip : Addr} {o : Option (Fin N)} (h : Inv k) (ho : ∀ b, o = some b → k.puts b = k.handled b)
    (hact : k.arpget ip i now o = some t) : Inv t := by
  rw [Kern.arpget] at hact
  split at hact
  next => cases hact
  next => exact h.hit ho hact
  next =>
    obtain ⟨r, hr, hact⟩ := bind_eq_some_iff.mp hact
    obtain ⟨hinv, hkeep⟩ := h.newarp6 hr
    exact (hinv _).hit (fun b hb => hkeep b (ho b hb)) hact

/-- The hold list of `a` is emptied, and no other entry changes its state. -/
theorem Inv.emptied (h : Inv k) (ht : ∃ tab', Sound t tab') (hhold : t.hold = update k.hold a none)
    (hstate : ∀ b, b ≠ a → (t.cache b).state = (k.cache b).state) : Inv t := by
  refine ⟨ht, fun b hb => ?_⟩
  rw [hhold] at hb
  have hne : b ≠ a := by
    rintro rfl
    exact hb (update_self ..)
  rw [update_of_ne hne] at hb
  exact (hstate b hne).trans (h.await b hb)

theorem Inv.arpresolve {type : Nat} (h : Inv k) (hact : k.arpresolve a type now = some t) : Inv t := by
  obtain ⟨tab, hs⟩ := h.sound
  obtain ⟨s, hres, hact⟩ := bind_eq_some_iff.mp hact
  obtain ⟨count, hrun, hs'⟩ := (hs.table s).settle a
  obtain rfl := some.inj (hact.symm.trans hrun)
  obtain ⟨u, hu, rfl⟩ := map_eq_some_iff.mp hres
  have hcache : u.cache = k.cache := by
    split at hu
    next => cases hu; rfl
    next => exact unrxmt_cache hu
  refine h.emptied ⟨_, hs'⟩ rfl fun b hb => ?_
  exact (set_state b fun heq => absurd heq hb).trans (by rw [hcache])

theorem Inv.arpenter {ip : Addr} {p n : Nat} {refresh : Bool} {o : Option Nat} (h : Inv k) (hp : k.out p = none)
    (hact : k.arpenter p ip n refresh o now = some t) : Inv t := by
  obtain ⟨tab, hs⟩ := h.sound
  unfold Kern.arpenter at hact
  split at hact
  next => exact some.inj hact ▸ h
  next hn =>
    cases o with
    | none => exact some.inj hact ▸ h
    | some i =>
      dsimp only at hact
      split at hact
      next => cases hact
      next a hfind =>
        obtain ⟨s, hs', rfl⟩ := map_eq_some_iff.mp hact
        obtain ⟨tab', ht⟩ := hs.take a hp
        rw [Sys.arpenter, if_neg hn] at hs'
        dsimp only at hs'
        rw [hfind] at hs'
        obtain ⟨u, hu, rfl⟩ := map_eq_some_iff.mp hs'
        have hcache : u.cache = (k.set a { k.cache a with state := .AOK }).cache := by
          split at hu
          next => exact unrxmt_cache hu
          next => cases hu; rfl
        refine h.emptied ⟨tab', ht.table _⟩ rfl fun b hb => ?_
        refine (set_state b fun heq => absurd heq hb).trans ?_
        rw [hcache, set_state b fun heq => absurd heq hb]
      next =>
        split at hact
        next => exact some.inj hact ▸ h
        next =>
          obtain ⟨r, hr, rfl⟩ := map_eq_some_iff.mp hact
          exact (h.newarp6 hr).1 _

/-- A packet on no list that has not been handled is lost. -/
theorem not_kept (hc : Chains t.head t.list tab') (hb : ¬On tab' b) (hne : t.puts b ≠ t.handled b) : ¬Kept t := by
  rintro ⟨tab, hc', -, hgone, -⟩
  refine hne (hgone b fun w hw => hb ⟨w, ?_⟩)
  rwa [(hc.path w).unique (hc'.path w)]

theorem Sound.mem_head (h : Sound k tab) (hw : k.head w = some b) : b ∈ tab w := by
  have hpath : Path k.list (some b) (tab w) none := hw ▸ h.chains.path w
  obtain ⟨r, hr, -⟩ := hpath.of_some
  exact hr ▸ mem_cons_self

theorem on_flushed (hc : Chains k.head k.list tab) :
    On (flushed tab) b ↔ (On tab b ∧ ¬∃ a, b ∈ tab (.hold a)) ∧ b ∉ tab .drop := by
  constructor
  · rintro ⟨w, hw⟩
    have hmem : b ∈ tab w ∧ (∀ a, w ≠ .hold a) ∧ w ≠ .drop := by
      cases w with
      | hold a => cases hw
      | drop => cases hw
      | out p | report => exact ⟨hw, fun _ => nofun, nofun⟩
    exact ⟨⟨⟨w, hmem.1⟩, fun ⟨a, ha⟩ => hmem.2.1 a (hc.disjoint _ _ b hmem.1 ha)⟩,
      fun hd => hmem.2.2 (hc.disjoint _ _ b hmem.1 hd)⟩
  · rintro ⟨⟨⟨w, hw⟩, hhold⟩, hdrop⟩
    cases w with
    | hold a => exact absurd ⟨a, hw⟩ hhold
    | drop => exact absurd hw hdrop
    | out p => exact ⟨.out p, hw⟩
    | report => exact ⟨.report, hw⟩

theorem Inv.flush (h : Inv k) (hact : k.flush = some t) :
    (k.dropf = none → Inv t) ∧ (k.dropf ≠ none → ¬Kept t) := by
  obtain ⟨tab, hs⟩ := h.sound
  obtain ⟨count, hrun, hc, hcount⟩ := hs.flush
  obtain rfl := some.inj (hact.symm.trans hrun)
  constructor
  · intro hnone
    have hnil := hs.nil (w := .drop) hnone
    refine ⟨⟨flushed tab, hc, hs.ledger.settle (fun b ⟨a, ha⟩ => ⟨_, ha⟩) (fun b => ?_) hcount,
      fun _ hx => absurd rfl hx, rfl, hs.ifc⟩, fun _ hb => absurd rfl hb⟩
    rw [on_flushed hs.chains, hnil]
    exact and_iff_left not_mem_nil
  · intro hne
    obtain ⟨b, hb⟩ := ne_none_iff_exists'.mp hne
    have hmem := hs.mem_head (w := .drop) hb
    refine not_kept hc (fun hon => ((on_flushed hs.chains).mp hon).2 hmem) (b := b) ?_
    have hwaits := hs.ledger.waits b ⟨_, hmem⟩
    have hsame := hcount.other b fun ⟨a, ha⟩ => nomatch hs.chains.disjoint _ _ b hmem ha
    change k.puts b ≠ count b
    omega

theorem Inv.del {ip : Ip} (h : Inv k) (hact : k.del ip = some t) :
    (Spares k (.del ip) → Inv t) ∧ (¬Spares k (.del ip) → ¬Kept t) := by
  obtain ⟨tab, hs⟩ := h.sound
  rw [Kern.del] at hact
  split at hact
  next => cases hact
  next hfind =>
    refine ⟨fun _ => some.inj hact ▸ h, fun hlost => absurd (fun a ha => ?_) hlost⟩
    cases hfind.symm.trans ha
  next a hfind =>
    obtain ⟨s, hdel, rfl⟩ := map_eq_some_iff.mp hact
    have hstate : ∀ b, (s.cache b).state = (k.cache b).state := by
      rw [Sys.del] at hdel
      split at hdel
      next => cases hdel
      next =>
        cases hdel
        exact fun _ => rfl
      next x _ =>
        obtain ⟨u, hu, rfl⟩ := map_eq_some_iff.mp hdel
        intro b
        change ((u.set x { u.cache x with ifc := none, ip := fun _ => 0 }).cache b).state = _
        rw [set_state (e := { u.cache x with ifc := none, ip := fun _ => 0 }) b fun _ => rfl, unrxmt_cache hu]
    constructor
    · intro hspares
      refine ⟨⟨tab, (hs.clear (hspares a hfind)).table s⟩, fun b hb => (hstate b).trans (h.await b fun hnone => hb ?_)⟩
      change update k.hold a none b = none
      rw [update_apply, hnone, ite_self]
    · intro hlost
      have hne : k.hold a ≠ none := fun hnone => hlost fun x hx => by
        obtain rfl := some.inj (some.inj (hfind.symm.trans hx))
        exact hnone
      obtain ⟨b, hb⟩ := ne_none_iff_exists'.mp hne
      have hmem := hs.mem_head (w := .hold a) hb
      have hc := (hs.chains.clear (.hold a)).congr (head_hold k a none)
      refine not_kept (t := { k.clear a with toSys := s }) hc (fun hon => ((on_clear hs.chains _).mp hon).2 hmem) ?_
      have hwaits := hs.ledger.waits b ⟨_, hmem⟩
      change k.puts b ≠ k.handled b
      omega

theorem Inv.bwrite {p : Nat} {ok : Bool} (h : Inv k) (hact : k.bwrite p ok = some t) :
    (Spares k (.bwrite p ok) → Inv t) ∧ (¬Spares k (.bwrite p ok) → ¬Kept t) := by
  obtain ⟨tab, hs⟩ := h.sound
  obtain ⟨bp, hbp, rfl⟩ := map_eq_some_iff.mp hact
  obtain ⟨tab', hc, hledger, hsame⟩ := hs.front (w := .out p) hbp
  have hc' := hc.congr (head_out k p (k.list bp))
  constructor
  · intro hspares
    have hnext : (if ok = true then k.list bp else none) = k.list bp := by
      rcases hspares with rfl | hlast
      · rfl
      · rw [hlast bp hbp, ite_self]
    rw [hnext]
    refine ⟨⟨tab', hc', hledger, fun x hx => ?_, ?_, hs.ifc⟩, h.await⟩
    · rw [hsame (.hold x) nofun] at hx ⊢
      exact hs.last x hx
    · rw [hsame .drop nofun]
      exact hs.dropl
  · intro hlost
    obtain ⟨hok, hnext⟩ := not_or.mp hlost
    obtain ⟨b, hb⟩ : ∃ b, k.list bp = some b := by
      refine ne_none_iff_exists'.mp fun hnone => hnext fun x hx => ?_
      obtain rfl := some.inj (hbp.symm.trans hx)
      exact hnone
    have hpath := hc.path (.out p)
    rw [update_self, hb] at hpath
    obtain ⟨r, hr, -⟩ := hpath.of_some
    have hmem : b ∈ tab' (.out p) := hr ▸ mem_cons_self
    have hclear := hc.clear (.out p)
    rw [update_idem, ← head_out k p none] at hclear
    rw [if_neg hok]
    refine not_kept hclear (b := b) (fun hon => ((on_clear hc' _).mp hon).2 hmem) ?_
    have hwaits := hledger.waits b ⟨_, hmem⟩
    change k.puts b ≠ update k.handled bp (k.handled bp + 1) b
    omega

theorem Inv.report (h : Inv k) (hact : k.report = some t) : Inv t := by
  obtain ⟨tab, hs⟩ := h.sound
  obtain ⟨bp, hbp, hact⟩ := bind_eq_some_iff.mp hact
  obtain ⟨i, hi, rfl⟩ := map_eq_some_iff.mp hact
  obtain ⟨tab', hc, hledger, hsame⟩ := hs.front (w := .report) hbp
  refine ⟨⟨tab', hc.congr (head_report k (k.list bp)), hledger, fun x hx => ?_, ?_, fun _ => hi ▸ nofun⟩, h.await⟩
  · rw [hsame (.hold x) nofun] at hx ⊢
    exact hs.last x hx
  · rw [hsame .drop nofun]
    exact hs.dropl

theorem Inv.solicited {i : Nat} (h : Inv k) (hdrops : k.drops = none) (hact : k.solicited a i now = some t) :
    Inv t := by
  obtain ⟨tab, hs⟩ := h.sound
  obtain ⟨s, hsol, rfl⟩ := map_eq_some_iff.mp hact
  obtain ⟨u, hu, rfl⟩ := map_eq_some_iff.mp hsol
  obtain ⟨tab', hs'⟩ := hs.dodrops (some i) hdrops fun _ => nofun
  refine ⟨⟨tab', hs'.table _⟩, fun b hb => (Eq.trans ?_ (h.await b hb))⟩
  rw [← rxmtend_cache hu]
  exact set_state (s := u) b fun _ => rfl

/-- Nothing is due: the packets to be dropped are reported without an interface. -/
theorem Inv.idles (h : Inv k) (hdrops : k.drops = none) :
    (k.dropf = none → Inv (k.dodrops none)) ∧ (k.dropf ≠ none → ¬Kept (k.dodrops none)) := by
  obtain ⟨tab, hs⟩ := h.sound
  refine ⟨fun hnone => ⟨hs.dodrops none hdrops fun hne => absurd hnone hne, h.await⟩, fun hne hk => ?_⟩
  obtain ⟨-, -, -, -, hifc⟩ := hk
  exact hifc hne rfl

theorem Inv.rxmitsols {can : Bool} (h : Inv k) (hdrops : k.drops = none) (hact : k.rxmitsols can now = some t) :
    (Spares k (.rxmitsols can now) → Inv t) ∧ (¬Spares k (.rxmitsols can now) → ¬Kept t) := by
  obtain ⟨hspares, hlost⟩ := h.idles hdrops
  rw [Kern.rxmitsols] at hact
  split at hact
  next hnone =>
    obtain rfl := some.inj hact
    have hidle : idle k.toArp now = true := by rw [idle, hnone]; rfl
    exact ⟨fun hsp => hspares (hsp hidle), fun hsp => hlost fun hnone => hsp fun _ => hnone⟩
  next a ha =>
    split at hact
    next hdue =>
      obtain rfl := some.inj hact
      have hidle : idle k.toArp now = true := by rw [idle, ha, all_some, hdue]; rfl
      exact ⟨fun hsp => hspares (hsp hidle), fun hsp => hlost fun hnone => hsp fun _ => hnone⟩
    next hdue =>
      refine ⟨fun _ => ?_, fun hsp => absurd (fun hidle => ?_) hsp⟩
      · split at hact
        next => cases hact
        next i hi =>
          obtain ⟨tab, hs⟩ := h.sound
          obtain ⟨s, hrun, rfl⟩ := map_eq_some_iff.mp hact
          have hstate := rxmitsols_state hrun ha hdue hi
          split
          next =>
            have hidem : update k.hold a none = update (update k.hold a none) a none := (update_idem ..).symm
            cases hxp : k.hold a with
            | none =>
              obtain ⟨tab', hs'⟩ := (hs.clear hxp).dodrops (some i) hdrops fun _ => nofun
              rw [Kern.clear, hidem] at hs'
              exact h.emptied (a := a) ⟨tab', hs'.table s⟩ hidem.symm fun b hb => hstate b (Or.inl hb)
            | some xp =>
              obtain ⟨tab', hs'⟩ := hs.giveup (some i) hdrops nofun a
              rw [hxp, hidem] at hs'
              dsimp only
              rw [drop_eq]
              exact h.emptied (a := a) ⟨tab', hs'.table s⟩ hidem.symm fun b hb => hstate b (Or.inl hb)
          next hgo => exact ⟨⟨tab, hs.table s⟩, fun b hb => (hstate b (Or.inr hgo)).trans (h.await b hb)⟩
      · rw [idle, ha, all_some, Bool.not_eq_true'] at hidle
        exact absurd hidle hdue

/-- **One step** keeps the lists if it spares the packets, and loses packets if it does not. -/
theorem act_inv {op : Op N} (h : Inv k) (hop : Allowed k op) (hact : act k op = some t) :
    (Spares k op → Inv t) ∧ (¬Spares k op → ¬Kept t) := by
  cases op with
  | arpget ip i now bp =>
    refine ⟨fun _ => h.arpget (fun b hb => ?_) hact, fun hlost => absurd trivial hlost⟩
    subst hb
    exact hop.2
  | arpresolve type now =>
    obtain ⟨a, -, hact⟩ := bind_eq_some_iff.mp hact
    exact ⟨fun _ => h.arpresolve hact, fun hlost => absurd trivial hlost⟩
  | arprelease | bind i m =>
    obtain ⟨tab, hs⟩ := h.sound
    cases hact
    exact ⟨fun _ => ⟨⟨tab, hs.table _⟩, h.await⟩, fun hlost => absurd trivial hlost⟩
  | arpenter p ip n refresh r now => exact ⟨fun _ => h.arpenter hop.2 hact, fun hlost => absurd trivial hlost⟩
  | bwrite p ok => exact h.bwrite hact
  | flush => exact h.flush hact
  | del ip => exact h.del hact
  | rxmitsols can now => exact h.rxmitsols hop.2 hact
  | solicited now =>
    obtain ⟨r, -, hact⟩ := bind_eq_some_iff.mp hact
    exact ⟨fun _ => h.solicited hop.2 hact, fun hlost => absurd trivial hlost⟩
  | report => exact ⟨fun _ => h.report hact, fun hlost => absurd trivial hlost⟩

theorem start_inv (hs : Start k) : Inv k := by
  refine ⟨⟨fun _ => [], ⟨fun w => ?_, fun b c a ha => absurd ha not_mem_nil⟩,
    ⟨fun b ⟨w, hw⟩ => absurd hw not_mem_nil, fun b _ => hs.fresh b⟩, fun a ha => absurd rfl ha, hs.dropl,
    fun hne => absurd hs.drops hne⟩, fun a ha => absurd (hs.hold a) ha⟩
  cases w with
  | hold a => exact hs.hold a
  | drop => exact hs.dropf
  | out p => exact hs.out p
  | report => exact hs.drops

theorem reach_inv (hr : ReachSpared k) : Inv k := by
  refine StepSystem.Reach.invariant Inv (fun _ => start_inv) ?_ hr
  rintro s op u hs ⟨hop, hspares, hact⟩
  exact (act_inv hs hop hact).1 hspares

/-- **Every packet that waits is kept** while the steps spare the packets, and the first that does not
loses some. -/
theorem packets_kept (hr : ReachSpared k) :
    Kept k ∧ ∀ op t, Allowed k op → act k op = some t → (Kept t ↔ Spares k op) := by
  have hk := reach_inv hr
  obtain ⟨tab, hs⟩ := hk.sound
  refine ⟨hs.kept, fun op t hop hact => ⟨fun ht => ?_, fun hspares => ?_⟩⟩
  · by_contra hlost
    exact (act_inv hk hop hact).2 hlost ht
  · obtain ⟨tab', hs'⟩ := ((act_inv hk hop hact).1 hspares).sound
    exact hs'.kept

/-- The table of `fresh`, and one packet. -/
def single : Kern 1 where
  toSys := fresh
  list := fun _ => none
  hold := fun _ => none
  last := fun _ => none
  dropf := none
  dropl := none
  out := fun _ => none
  drops := none
  dropifc := none
  puts := fun _ => 0
  handled := fun _ => 0

theorem single_start : Start single :=
  ⟨fresh_start, fun _ => rfl, rfl, rfl, fun _ => rfl, rfl, fun _ => rfl⟩

/-- The state behind a step. -/
def Kern.step (k : Kern N) (op : Op N) : Kern N := (act k op).getD k

theorem act_step {op : Op N} (h : (act k op).isSome = true) : act k op = some (k.step op) :=
  (getD_of_ne_none (isSome_iff_ne_none.mp h) k).symm

/-- The packet waits for `linklocal`. -/
def held : Kern 1 := (single.step (.arpget (.V6 linklocal) 0 100 (some 0))).step .arprelease

theorem held_reach : ReachSpared held := by
  have h₁ : ReachSpared (single.step (.arpget (.V6 linklocal) 0 100 (some 0))) :=
    (StepSystem.Reach.start single_start).next
      ⟨⟨fun _ ht => by cases ht; rfl, rfl⟩, by exact trivial, act_step (by decide +kernel)⟩
  refine h₁.next ⟨⟨fun _ ht => ?_, trivial⟩, by exact trivial, act_step (by decide +kernel)⟩
  cases ht
  change _ ≠ none
  decide +kernel

/-- The packet has been put on the list, and has not been handled. -/
theorem packets_kept_held : Kept held ∧ held.puts 0 = 1 ∧ held.handled 0 = 0 :=
  ⟨(packets_kept held_reach).1, by decide +kernel, by decide +kernel⟩

/-- The entry is deleted with the packet on its list. -/
theorem del_loses : ∃ k t : Kern 1, Reach k ∧ Allowed k (.del linklocal) ∧ act k (.del linklocal) = some t ∧ ¬Kept t := by
  have hop : Allowed held (.del linklocal) := by
    refine ⟨fun _ ht => ?_, trivial⟩
    cases ht
    change _ = none
    decide +kernel
  have hact : act held (.del linklocal) = some (held.step (.del linklocal)) := act_step (by decide +kernel)
  refine ⟨held, _, StepSystem.Reach.mono (fun _ _ _ h => ⟨h.1, h.2.2⟩) held_reach, hop, hact,
    (act_inv (reach_inv held_reach) hop hact).2 fun hspares => ?_⟩
  have hlost : (delFinds held.toArp linklocal).any (fun r => r.any fun a => (held.hold a).isSome) = true := by
    decide +kernel
  obtain ⟨r, hr, hlost⟩ := (Option.any_eq_true _ _).mp hlost
  obtain ⟨a, rfl, hsome⟩ := (Option.any_eq_true _ _).mp hlost
  rw [hspares a hr] at hsome
  cases hsome

theorem settle_table {p : Option (Fin N)} (h : k.settle p = some t) : t.toSys = k.toSys := by
  obtain ⟨_, _, rfl⟩ := map_eq_some_iff.mp h
  rfl

theorem drop_table (k : Kern N) (xp : Fin N) : (k.drop xp).toSys = k.toSys := by rw [drop_eq]

theorem dump_table (h : k.dump a = some t) : t.toSys = k.toSys := by
  unfold Kern.dump at h
  split at h
  · have hsame := settle_table h
    exact hsame
  · split at h
    · cases h
      rfl
    · obtain ⟨_, _, rfl⟩ := map_eq_some_iff.mp h
      exact drop_table _ _

theorem newarp6_table (h : k.newarp6 ip i addrxt now = some r) :
    k.toArp.newarp6 ip i (k.ifc i) addrxt now = some (r.1, r.2.toArp) ∧ r.2.toSys = k.toSys.put r.2.toArp := by
  obtain ⟨d, hd, hr⟩ := bind_eq_some_iff.mp h
  obtain ⟨s, hs, rfl⟩ := map_eq_some_iff.mp hr
  exact ⟨hs, by rw [← dump_table hd]; rfl⟩

theorem hit_table {bp : Option (Fin N)} (h : k.hit a now bp = some t) : k.toSys.hit a now = some t.toSys := by
  obtain ⟨s, hs, h⟩ := bind_eq_some_iff.mp h
  rw [hs]
  split at h
  · cases bp with
    | none =>
      cases h
      rfl
    | some b =>
      obtain ⟨_, _, rfl⟩ := map_eq_some_iff.mp h
      rfl
  · cases h
    rfl

theorem arpget_table {ip : Addr} {bp : Option (Fin N)} (h : k.arpget ip i now bp = some t) :
    k.toSys.arpget ip i now = some t.toSys := by
  unfold Kern.arpget at h
  unfold Sys.arpget
  generalize (k.find ip.ip fun e => e.type == (k.ifc i).m) = o at h ⊢
  cases o with
  | none => cases h
  | some o =>
    cases o with
    | some a => exact hit_table h
    | none =>
      obtain ⟨r, hr, h⟩ := bind_eq_some_iff.mp h
      obtain ⟨hnew, hput⟩ := newarp6_table hr
      have hsame (u : Arp) : { r.2.toSys with toArp := u } = k.toSys.put u := by rw [hput, Sys.put, Sys.put]
      dsimp only
      rw [hnew, ← hit_table h]
      exact congrArg (fun s : Sys => s.hit r.1 now) (hsame _).symm

theorem arpenter_table {ip : Addr} {p n : Nat} {refresh : Bool} {r : Option Nat}
    (h : k.arpenter p ip n refresh r now = some t) : k.toSys.arpenter ip n refresh r now = some t.toSys := by
  unfold Kern.arpenter at h
  by_cases hn : n ≠ 6
  · rw [if_pos hn] at h
    cases h
    exact if_pos hn
  rw [if_neg hn] at h
  cases r with
  | none =>
    cases h
    exact if_neg hn
  | some i =>
    unfold Sys.arpenter
    rw [if_neg hn]
    cases hfind : k.find ip.ip fun e => e.type == (k.ifc i).m && (e.state == .AWAIT || e.state == .AOK) with
    | none =>
      dsimp only at h
      rw [hfind] at h
      cases h
    | some o =>
      dsimp only at h ⊢
      rw [hfind] at h ⊢
      cases o with
      | some a =>
        obtain ⟨s, hs, rfl⟩ := map_eq_some_iff.mp h
        unfold Sys.arpenter at hs
        rw [if_neg hn] at hs
        dsimp only at hs
        rw [hfind] at hs
        exact hs
      | none =>
        dsimp only at h ⊢
        split at h
        next hrefresh =>
          cases h
          exact if_pos hrefresh
        next hrefresh =>
          obtain ⟨r, hr, rfl⟩ := map_eq_some_iff.mp h
          obtain ⟨hnew, hput⟩ := newarp6_table hr
          rw [if_neg hrefresh, hnew, hput]
          rfl

theorem rxmitsols_table {can : Bool} (h : k.rxmitsols can now = some t) :
    k.toSys.rxmitsols can now = some t.toSys := by
  unfold Kern.rxmitsols at h
  split at h
  next hnone =>
    cases h
    unfold Sys.rxmitsols
    rw [hnone]
    rfl
  next a ha =>
    split at h
    next hdue =>
      cases h
      unfold Sys.rxmitsols
      simp only [ha, if_pos hdue]
      rfl
    · split at h
      · cases h
      · obtain ⟨s, hs, rfl⟩ := map_eq_some_iff.mp h
        rw [hs]
        split <;> rfl

theorem del_table {ip : Ip} (h : k.del ip = some t) : k.toSys.del ip = some t.toSys := by
  unfold Kern.del delFinds at h
  unfold Sys.del
  cases hsearch : LinkList.search k.next (fun a => decide ((k.cache a).ip = ip)) fuel none (k.hash (haship ip)) with
  | none =>
    rw [hsearch] at h
    cases h
  | some r =>
    obtain ⟨l, o⟩ := r
    rw [hsearch] at h
    cases o with
    | none =>
      cases h
      rfl
    | some a =>
      obtain ⟨s, hs, rfl⟩ := map_eq_some_iff.mp h
      unfold Sys.del at hs
      rw [hsearch] at hs
      exact hs

/-- **Each step is one of the table**, or leaves it alone. -/
theorem act_table {op : Op N} (h : act k op = some t) :
    op.table.elim (t.toSys = k.toSys) fun o => ArpTable.act k.toSys o = some t.toSys := by
  cases op with
  | arpget ip i now bp => exact arpget_table h
  | arpresolve type now =>
    obtain ⟨a, ha, h⟩ := bind_eq_some_iff.mp h
    obtain ⟨s, hs, h⟩ := bind_eq_some_iff.mp h
    change (k.got.bind fun a => k.toSys.arpresolve a type now) = _
    rw [ha, settle_table h]
    exact hs
  | arprelease =>
    cases h
    rfl
  | arpenter p ip n refresh r now => exact arpenter_table h
  | bwrite p ok | flush =>
    obtain ⟨_, _, rfl⟩ := map_eq_some_iff.mp h
    rfl
  | del ip => exact del_table h
  | rxmitsols can now => exact rxmitsols_table h
  | solicited now =>
    obtain ⟨r, hr, h⟩ := bind_eq_some_iff.mp h
    obtain ⟨s, hs, rfl⟩ := map_eq_some_iff.mp h
    change (k.sending.bind fun r => k.toSys.solicited r.1 r.2 now) = _
    rw [hr]
    exact hs
  | report =>
    obtain ⟨_, _, h⟩ := bind_eq_some_iff.mp h
    obtain ⟨_, _, rfl⟩ := map_eq_some_iff.mp h
    rfl
  | bind i m =>
    cases h
    rfl

/-- **The packets leave the table alone**: every run with them is a run of the table. -/
theorem table_reach (hr : Reach k) : ArpTable.Reach k.toSys := by
  refine StepSystem.Reach.invariant (fun k => ArpTable.Reach k.toSys) (fun k hk => .start hk.table) ?_ hr
  intro k op t ih hstep
  have htable := act_table hstep.2
  have hallowed := hstep.1.1
  cases hop : op.table with
  | none =>
    rw [hop] at htable
    change t.toSys = k.toSys at htable
    rw [htable]
    exact ih
  | some o =>
    rw [hop] at htable
    exact ih.next ⟨hallowed o hop, htable⟩

/-- The address is given up, and the packet is reported. -/
def dropped : Kern 1 := (held.step (.rxmitsols false 2000)).step .report

/-- The packet waits once more, and is handed back when the address is known. -/
def resolved : Kern 1 := (dropped.step (.arpget (.V6 linklocal) 0 3000 (some 0))).step (.arpresolve 1 3000)

theorem Reach.step {op : Op N} (hr : Reach k) (hop : Allowed k op) (h : (act k op).isSome = true) : Reach (k.step op) :=
  hr.next ⟨hop, act_step h⟩

theorem dropped_reach : Reach dropped := by
  have hheld : Reach held := StepSystem.Reach.mono (fun _ _ _ h => ⟨h.1, h.2.2⟩) held_reach
  have hrxmit : Reach (held.step (.rxmitsols false 2000)) := by
    refine Reach.step hheld ⟨fun _ ht => ?_, by decide +kernel⟩ (by decide +kernel)
    cases ht
    exact ⟨by decide +kernel, by decide +kernel⟩
  refine Reach.step hrxmit ⟨fun _ ht => ?_, trivial⟩ (by decide +kernel)
  cases ht

/-- A packet waits, is dropped, waits again and is resolved. -/
theorem table_reach_resolved :
    ArpTable.Reach resolved.toSys ∧ dropped.handled 0 = 1 ∧ resolved.puts 0 = 2 ∧ resolved.handled 0 = 2 := by
  have hget : Reach (dropped.step (.arpget (.V6 linklocal) 0 3000 (some 0))) := by
    refine Reach.step dropped_reach ⟨fun _ ht => ?_, by decide +kernel⟩ (by decide +kernel)
    cases ht
    change _ = none
    decide +kernel
  have hresolve : Reach resolved := by
    refine Reach.step hget ⟨fun _ ht => ?_, trivial⟩ (by decide +kernel)
    cases ht
    change _ ≠ none
    decide +kernel
  exact ⟨table_reach hresolve, by decide +kernel, by decide +kernel, by decide +kernel⟩

end ArpHold
