import NixKernel.StepSystem
import NixKernel.IprouteUpdate
import NixKernel.IproutePrefix

/-!
# The routing table refines a table of prefixes

What the table is for: a map from ranges to entries, in which `v4addroute` enters a range or
supersedes its entry and `v4delroute` takes a reference away.
-/

namespace Iproute

open List Option
open Function (update update_self update_of_ne)

/-- The installed routes, by range. -/
def Table : Type := Nat → Nat → Option Entry

def Table.set (tab : Table) (sa ea : Nat) (o : Option Entry) : Table :=
  fun s e => if s = sa ∧ e = ea then o else tab s e

/-- The entry of a range after an add. -/
def Entry.added (new : Entry) : Option Entry → Entry
  | none => new
  | some old => supersede old new

/-- The entry of a range after a delete. -/
def Entry.dropped (old : Entry) : Option Entry :=
  if old.ref - 1 = 0 then none else some { old with ref := old.ref - 1 }

inductive Call where
  | add (tag : String) (a mask gate type : Nat)
  | del (a mask : Nat)

def Call.mask : Call → Nat
  | .add _ _ mask _ _ => mask
  | .del _ mask => mask

/-- The call on the forest. -/
def Forest.call (f : Forest) : Call → Option Forest
  | .add tag a mask gate type => v4addroute f tag a mask gate type
  | .del a mask => v4delroute f a mask

/-- The call on the table. -/
def Table.call (tab : Table) : Call → Table
  | .add tag a mask gate type =>
    let sa := startOf a mask
    let ea := endOf a mask
    let e : Entry := { type := rv4 ||| type, gate := gate, tag := tag, ref := 1 }
    tab.set sa ea (some (e.added (tab sa ea)))
  | .del a mask =>
    let sa := startOf a mask
    let ea := endOf a mask
    tab.set sa ea ((tab sa ea).bind Entry.dropped)

/-- The table after a sequence of calls. -/
def installed (calls : List Call) : Table := calls.foldl Table.call fun _ _ => none

def Forest.empty : Forest := fun _ => .nil

def Table.Installed (tab : Table) (p : Route) : Prop := tab p.address p.endaddress = some p.entry

def Route.Contains (p : Route) (a : Nat) : Prop := p.address ≤ a ∧ a ≤ p.endaddress

instance (tab : Table) (p : Route) : Decidable (tab.Installed p) :=
  inferInstanceAs (Decidable (tab p.address p.endaddress = some p.entry))

instance (p : Route) (a : Nat) : Decidable (p.Contains a) :=
  inferInstanceAs (Decidable (p.address ≤ a ∧ a ≤ p.endaddress))

/-- The longest prefix that contains an address. -/
def Table.Longest (tab : Table) (a : Nat) (p : Route) : Prop :=
  tab.Installed p ∧ p.Contains a ∧
    ∀ q, tab.Installed q → q.Contains a → q.prefixlen ≤ p.prefixlen

/-- The forest holds the routes of the table, in the trees that their addresses hash to. -/
structure Refines (f : Forest) (tab : Table) : Prop where
  valid : ∀ h, Valid (f h)
  has : ∀ h y, (f h).Has y ↔ tab.Installed y ∧ v4h y.address ≤ h ∧ h ≤ v4h y.endaddress
  isPrefix : ∀ y, tab.Installed y → IsPrefix y

variable {f : Forest} {tab : Table} {x y : Route} {sa ea : Nat} {o : Option Entry}

theorem installed_set {e : Entry} :
    (tab.set sa ea o).Installed y ↔
      (tab.Installed y ∧ ¬ Same ⟨sa, ea, e⟩ y) ∨ o.map (Route.mk sa ea) = some y := by
  unfold Table.Installed Table.set Same
  obtain ⟨ya, ye, ent⟩ := y
  by_cases hs : ya = sa ∧ ye = ea
  · obtain ⟨rfl, rfl⟩ := hs
    simp
  · have hne : ¬ (sa = ya ∧ ea = ye) := by omega
    simp only [hs, hne, if_false]
    cases o with
    | none => simp
    | some e' =>
      simp only [map_some, some.injEq, Route.mk.injEq]
      grind

theorem mem_buckets {h : Nat} : h ∈ buckets sa ea ↔ v4h sa ≤ h ∧ h ≤ v4h ea := by
  unfold buckets
  rw [mem_range'_1]
  omega

/-- The loop over the trees of a range. -/
theorem change_spec {step : Tree → Tree × List Tree} {post : Nat → Tree → Prop} {l : List Nat}
    (hnd : l.Nodup)
    (hstep : ∀ h ∈ l, ∃ t, drain (step (f h)).1 (step (f h)).2 = some t ∧ post h t) :
    ∃ f', f.change step l = some f' ∧ (∀ h ∈ l, post h (f' h)) ∧ ∀ h, h ∉ l → f' h = f h := by
  induction l generalizing f with
  | nil => exact ⟨f, rfl, fun _ h => absurd h not_mem_nil, fun _ _ => rfl⟩
  | cons h l ih =>
    obtain ⟨hnot, hnd⟩ := nodup_cons.mp hnd
    obtain ⟨t, hdrain, hpost⟩ := hstep h mem_cons_self
    obtain ⟨f', hrun, hin, hout⟩ := ih (f := update f h t) hnd (by
      intro i hi
      have hne : i ≠ h := fun heq => hnot (heq ▸ hi)
      have hf : (update f h t : Forest) i = f i := update_of_ne hne t f
      rw [hf]
      exact hstep i (mem_cons_of_mem _ hi))
    refine ⟨f', ?_, ?_, ?_⟩
    · unfold Forest.change
      simp only [hdrain, bind_eq_bind, bind_some]
      exact hrun
    · intro i hi
      rcases mem_cons.mp hi with rfl | hi
      · have hf : (update f i t : Forest) i = t := update_self i t f
        rw [hout i hnot, hf]
        exact hpost
      · exact hin i hi
    · intro i hi
      rw [mem_cons, not_or] at hi
      rw [hout i hi.2]
      exact update_of_ne hi.1 t f

/-- A change of one range in all its trees. -/
theorem Refines.change {step : Tree → Tree × List Tree} {e : Entry} (h : Refines f tab)
    (hpfx : IsPrefix ⟨sa, ea, e⟩)
    (hstep : ∀ i, v4h sa ≤ i → i ≤ v4h ea → ∃ t, drain (step (f i)).1 (step (f i)).2 = some t ∧
      Valid t ∧ ∀ y, t.Has y ↔
        ((f i).Has y ∧ ¬ Same ⟨sa, ea, e⟩ y) ∨ o.map (Route.mk sa ea) = some y) :
    ∃ f', f.change step (buckets sa ea) = some f' ∧ Refines f' (tab.set sa ea o) := by
  have hsame : ∀ y, o.map (Route.mk sa ea) = some y → y.address = sa ∧ y.endaddress = ea := by
    intro y hy
    obtain ⟨e', _, rfl⟩ := map_eq_some_iff.mp hy
    exact ⟨rfl, rfl⟩
  have hnd : (buckets sa ea).Nodup := nodup_range'
  obtain ⟨f', hrun, hin, hout⟩ := change_spec hnd (fun i hi =>
    hstep i (mem_buckets.mp hi).1 (mem_buckets.mp hi).2)
  refine ⟨f', hrun, ?_, ?_, ?_⟩
  · intro i
    by_cases hi : i ∈ buckets sa ea
    · exact (hin i hi).1
    · rw [hout i hi]
      exact h.valid i
  · intro i y
    rw [installed_set (e := e)]
    by_cases hi : i ∈ buckets sa ea
    · rw [(hin i hi).2, h.has]
      rw [mem_buckets] at hi
      have hy := hsame y
      grind
    · rw [hout i hi, h.has]
      rw [mem_buckets] at hi
      have hy := hsame y
      unfold Same
      grind
  · intro y hy
    rcases (installed_set (e := e)).mp hy with hy | hy
    · exact h.isPrefix y hy.1
    · obtain ⟨hs, he⟩ := hsame y hy
      unfold IsPrefix
      rw [hs, he]
      exact hpfx

/-- The tree of a hash has the route of a range or only ranges beside it. -/
theorem Refines.apart (h : Refines f tab) (hpfx : IsPrefix x)
    (hnone : tab x.address x.endaddress = none) {i : Nat} (hy : (f i).Has y) :
    Outside x y ∨ Under y x := by
  have hin := ((h.has i y).mp hy).1
  rcases hpfx.laminar (h.isPrefix y hin) with hout | hunder | hsame
  · exact Or.inl hout
  · exact Or.inr hunder
  · unfold Table.Installed at hin
    rw [← hsame.1, ← hsame.2, hnone] at hin
    cases hin

theorem Refines.v4addroute (h : Refines f tab) {tag : String} {a mask gate type : Nat}
    (hmask : Contiguous mask) :
    ∃ f', f.call (.add tag a mask gate type) = some f' ∧
      Refines f' (tab.call (.add tag a mask gate type)) := by
  have hpfx := isPrefix_of_contiguous (a := a) (e := ⟨rv4 ||| type, gate, tag, 1⟩) hmask
  refine h.change hpfx ?_
  intro i hle hge
  cases hold : tab (startOf a mask) (endOf a mask) with
  | none =>
    exact (addnode_fresh (h.valid i) hpfx.proper (fun y hy => h.apart hpfx hold hy)).drain
  | some e =>
    have hhas : (f i).Has ⟨startOf a mask, endOf a mask, e⟩ := (h.has i _).mpr ⟨hold, hle, hge⟩
    have hsame : Same ⟨startOf a mask, endOf a mask, ⟨rv4 ||| type, gate, tag, 1⟩⟩
        ⟨startOf a mask, endOf a mask, e⟩ := ⟨rfl, rfl⟩
    exact (addnode_same (h.valid i) hhas hsame).drain

theorem Refines.v4delroute (h : Refines f tab) {a mask : Nat} (hmask : Contiguous mask) :
    ∃ f', f.call (.del a mask) = some f' ∧ Refines f' (tab.call (.del a mask)) := by
  have hpfx := isPrefix_of_contiguous (a := a) (e := ⟨0, 0, "", 0⟩) hmask
  refine h.change hpfx ?_
  intro i hle hge
  cases hold : tab (startOf a mask) (endOf a mask) with
  | none =>
    have hapart := fun y hy => h.apart (i := i) (y := y) hpfx hold hy
    rw [delnode_absent (h.valid i) hpfx.proper hapart]
    refine ⟨f i, by rw [drain], h.valid i, ?_⟩
    intro y
    have hns : (f i).Has y → ¬ Same ⟨startOf a mask, endOf a mask, ⟨0, 0, "", 0⟩⟩ y := by
      intro hy
      have hyy := (h.valid i).proper hy
      have hxx := hpfx.proper
      have hcase := hapart y hy
      unfold Outside Before Under Proper Same at *
      omega
    simp only [bind_none, map_none]
    grind
  | some e =>
    have hhas : (f i).Has ⟨startOf a mask, endOf a mask, e⟩ := (h.has i _).mpr ⟨hold, hle, hge⟩
    have hdrop : (Entry.dropped e).map (Route.mk (startOf a mask) (endOf a mask)) =
        dropRef ⟨startOf a mask, endOf a mask, e⟩ := by
      unfold Entry.dropped dropRef
      by_cases href : e.ref - 1 = 0
      · rw [if_pos href, if_pos href]
        rfl
      · rw [if_neg href, if_neg href]
        rfl
    have hsame : Same ⟨startOf a mask, endOf a mask, ⟨0, 0, "", 0⟩⟩
        ⟨startOf a mask, endOf a mask, e⟩ := ⟨rfl, rfl⟩
    rw [bind_some, hdrop]
    exact (delnode_present (h.valid i) hhas hsame).drain

theorem Refines.call (h : Refines f tab) {c : Call} (hmask : Contiguous c.mask) :
    ∃ f', f.call c = some f' ∧ Refines f' (tab.call c) := by
  cases c with
  | add tag a mask gate type => exact h.v4addroute hmask
  | del a mask => exact h.v4delroute hmask

theorem Refines.empty : Refines Forest.empty (fun _ _ => none) := by
  refine ⟨fun _ => trivial, ?_, ?_⟩
  · intro i y
    simp [Forest.empty, Table.Installed]
  · intro y hy
    cases hy

/-- **Every sequence of calls.** -/
theorem Refines.calls {calls : List Call} (h : Refines f tab)
    (hmask : ∀ c ∈ calls, Contiguous c.mask) :
    ∃ f', StepSystem.exec Forest.call f calls = some f' ∧
      Refines f' (calls.foldl Table.call tab) := by
  induction calls generalizing f tab with
  | nil => exact ⟨f, rfl, h⟩
  | cons c calls ih =>
    obtain ⟨f₁, hcall, h₁⟩ := h.call (hmask c mem_cons_self)
    obtain ⟨f', hrun, h'⟩ := ih h₁ (fun c hc => hmask c (mem_cons_of_mem _ hc))
    refine ⟨f', ?_, h'⟩
    unfold StepSystem.exec
    rw [hcall, bind_some]
    exact hrun

/-- The loop of `v4lookup` ends with the smallest range that contains the address. -/
theorem lookup_spec {t : Tree} {a : Nat} {q : Option Route} (hv : Valid t) :
    (∃ p, t.lookup a q = some p ∧ t.Has p ∧ p.Contains a ∧
        ∀ y, t.Has y → y.Contains a → y = p ∨ Under p y) ∨
      (t.lookup a q = q ∧ ∀ y, t.Has y → ¬ y.Contains a) := by
  induction t generalizing q with
  | nil => exact Or.inr ⟨rfl, fun _ h => h.elim⟩
  | node p d left mid right ihl ihm ihr =>
    obtain ⟨hp, hleft, hmid, hright, hvl, hvm, hvr⟩ := hv
    have hnotl : p.address ≤ a → ∀ y, left.Has y → ¬ y.Contains a := by
      intro hle y hy hc
      have hyp := hleft y hy
      unfold Before Route.Contains at *
      omega
    have hnotr : a ≤ p.endaddress → ∀ y, right.Has y → ¬ y.Contains a := by
      intro hge y hy hc
      have hpy := hright y hy
      unfold Before Route.Contains at *
      omega
    have hnotm : ¬ p.Contains a → ∀ y, mid.Has y → ¬ y.Contains a := by
      intro hnot y hy hc
      have hyp := hmid y hy
      unfold Under Route.Contains at *
      omega
    unfold Tree.lookup
    by_cases hle : a ≥ p.address
    · rw [if_pos hle]
      by_cases hge : a ≤ p.endaddress
      · rw [if_pos hge]
        rcases ihm (q := some p) hvm with ⟨b, hrun, hhas, hc, hbest⟩ | ⟨hrun, hnone⟩
        · refine Or.inl ⟨b, hrun, Or.inr (Or.inr (Or.inl hhas)), hc, ?_⟩
          intro y hy hyc
          rcases hy with hy | hy | hy | hy
          · rw [hy]
            exact Or.inr (hmid b hhas)
          · exact absurd hyc (hnotl hle y hy)
          · exact hbest y hy hyc
          · exact absurd hyc (hnotr hge y hy)
        · refine Or.inl ⟨p, hrun, Or.inl rfl, ⟨hle, hge⟩, ?_⟩
          intro y hy hyc
          rcases hy with hy | hy | hy | hy
          · exact Or.inl hy
          · exact absurd hyc (hnotl hle y hy)
          · exact absurd hyc (hnone y hy)
          · exact absurd hyc (hnotr hge y hy)
      · rw [if_neg hge]
        have hnp : ¬ p.Contains a := fun hc => hge hc.2
        have hskip : ∀ y, (Tree.node p d left mid right).Has y → y.Contains a → right.Has y := by
          intro y hy hyc
          rcases hy with hy | hy | hy | hy
          · rw [hy] at hyc
            exact absurd hyc hnp
          · exact absurd hyc (hnotl hle y hy)
          · exact absurd hyc (hnotm hnp y hy)
          · exact hy
        rcases ihr (q := q) hvr with ⟨b, hrun, hhas, hc, hbest⟩ | ⟨hrun, hnone⟩
        · exact Or.inl ⟨b, hrun, Or.inr (Or.inr (Or.inr hhas)), hc,
            fun y hy hyc => hbest y (hskip y hy hyc) hyc⟩
        · exact Or.inr ⟨hrun, fun y hy hyc => hnone y (hskip y hy hyc) hyc⟩
    · rw [if_neg hle]
      have hnp : ¬ p.Contains a := fun hc => hle hc.1
      have hskip : ∀ y, (Tree.node p d left mid right).Has y → y.Contains a → left.Has y := by
        intro y hy hyc
        rcases hy with hy | hy | hy | hy
        · rw [hy] at hyc
          exact absurd hyc hnp
        · exact hy
        · exact absurd hyc (hnotm hnp y hy)
        · refine absurd hyc (hnotr ?_ y hy)
          unfold Proper at hp
          omega
      rcases ihl (q := q) hvl with ⟨b, hrun, hhas, hc, hbest⟩ | ⟨hrun, hnone⟩
      · exact Or.inl ⟨b, hrun, Or.inr (Or.inl hhas), hc,
          fun y hy hyc => hbest y (hskip y hy hyc) hyc⟩
      · exact Or.inr ⟨hrun, fun y hy hyc => hnone y (hskip y hy hyc) hyc⟩

/-- A lookup in the forest is a lookup among all the routes of the table. -/
theorem Refines.has_iff (h : Refines f tab) {a : Nat} :
    (f (v4h a)).Has y ∧ y.Contains a ↔ tab.Installed y ∧ y.Contains a := by
  constructor
  · intro hy
    exact ⟨((h.has _ y).mp hy.1).1, hy.2⟩
  · intro hy
    exact ⟨(h.has _ y).mpr ⟨hy.1, (h.isPrefix y hy.1).v4h_mem hy.2.1 hy.2.2⟩, hy.2⟩

theorem Refines.select (h : Refines f tab) (a : Nat) :
    (∀ p, v4select f a = some p ↔ tab.Longest a p) ∧
      (v4select f a = none ↔ ∀ q, tab.Installed q → ¬ q.Contains a) := by
  have hin := fun y hy hc => (h.has_iff (y := y) (a := a)).mpr ⟨hy, hc⟩
  unfold v4select
  rcases lookup_spec (a := a) (q := none) (h.valid (v4h a)) with
    ⟨b, hrun, hhas, hc, hbest⟩ | ⟨hrun, hnone⟩
  · have hb : tab.Installed b := ((h.has _ b).mp hhas).1
    rw [hrun]
    refine ⟨?_, by simp, fun hno => absurd hc (hno b hb)⟩
    intro p
    constructor
    · intro hp
      cases hp
      refine ⟨hb, hc, ?_⟩
      intro q hq hqc
      rcases hbest q (hin q hq hqc).1 hqc with heq | hunder
      · exact Nat.le_of_eq (congrArg Route.prefixlen heq)
      · exact Nat.le_of_lt ((h.isPrefix b hb).prefixlen_lt (h.isPrefix q hq) hunder)
    · intro hp
      obtain ⟨hp, hpc, hlong⟩ := hp
      rcases hbest p (hin p hp hpc).1 hpc with heq | hunder
      · rw [heq]
      · have hlt := (h.isPrefix b hb).prefixlen_lt (h.isPrefix p hp) hunder
        have hge := hlong b hb hc
        omega
  · rw [hrun]
    have hno : ∀ q, tab.Installed q → ¬ q.Contains a :=
      fun q hq hqc => hnone q (hin q hq hqc).1 hqc
    refine ⟨?_, fun _ => hno, fun _ => rfl⟩
    intro p
    constructor
    · intro hp
      cases hp
    · intro hp
      exact absurd hp.2.1 (hno p hp.1)

/-- **Longest-prefix match.**  After every sequence of adds and deletes with contiguous
masks, a lookup selects the longest of the installed prefixes that contain the address, and
none exactly when none contains it; it returns the selected route if that has an
interface. -/
theorem v4lookup_longest (calls : List Call) (hmask : ∀ c ∈ calls, Contiguous c.mask) :
    ∃ f, StepSystem.exec Forest.call Forest.empty calls = some f ∧ ∀ a,
      (∀ p, v4select f a = some p ↔ (installed calls).Longest a p) ∧
      (v4select f a = none ↔ ∀ q, (installed calls).Installed q → ¬ q.Contains a) ∧
      ∀ findipifc p, v4lookup findipifc f a = some p ↔
        (installed calls).Longest a p ∧ findipifc p = true := by
  obtain ⟨f, hrun, h⟩ := Refines.empty.calls hmask
  refine ⟨f, hrun, ?_⟩
  intro a
  obtain ⟨hsome, hnone⟩ := h.select a
  refine ⟨hsome, hnone, ?_⟩
  intro findipifc p
  unfold v4lookup
  rw [Option.filter_eq_some_iff, hsome]
  rfl

/-- 10.0.0.0/8 and 10.1.0.0/16, through different gateways. -/
def nested : List Call :=
  [.add "a" 0x0a000000 0xff000000 1 0, .add "b" 0x0a010000 0xffff0000 2 0]

theorem nested_contiguous : ∀ c ∈ nested, Contiguous c.mask := by
  intro c hc
  simp only [nested, mem_cons, not_mem_nil, or_false] at hc
  rcases hc with rfl | rfl
  · exact ⟨24, by decide, by decide⟩
  · exact ⟨16, by decide, by decide⟩

theorem installed_nested {q : Route} (hq : (installed nested).Installed q) :
    q = ⟨0x0a010000, 0x0a01ffff, ⟨rv4, 2, "b", 1⟩⟩ ∨
      q = ⟨0x0a000000, 0x0affffff, ⟨rv4, 1, "a", 1⟩⟩ := by
  obtain ⟨s, e, ent⟩ := q
  rcases (installed_set (e := ent)).mp hq with ⟨hq, _⟩ | hq
  · rcases (installed_set (e := ent)).mp hq with ⟨hq, _⟩ | hq
    · cases hq
    · exact Or.inr (some.inj hq).symm
  · exact Or.inl (some.inj hq).symm

theorem v4lookup_longest_nested : ∃ f, StepSystem.exec Forest.call Forest.empty nested = some f ∧
    v4select f 0x0a010203 = some ⟨0x0a010000, 0x0a01ffff, ⟨rv4, 2, "b", 1⟩⟩ ∧
    v4select f 0x0b000001 = none := by
  obtain ⟨f, hrun, hsel⟩ := v4lookup_longest nested nested_contiguous
  refine ⟨f, hrun, ((hsel _).1 _).mpr ⟨by decide, by decide, ?_⟩, (hsel _).2.1.mpr ?_⟩
  · intro q hq _
    rcases installed_nested hq with rfl | rfl
    · exact Nat.le_refl _
    · decide
  · intro q hq
    rcases installed_nested hq with rfl | rfl
    · decide
    · decide

end Iproute
