import NixKernel.ImageRefs

/-!
# The table of Images

An Image is in the table from the time it is taken for a file to the time `putimage` takes it out,
and in the chain of its qid until `putimage` has taken that.  This holds in the runs in which nobody
gives a reference to an Image that is on its way out, and nobody who has waited takes an Image for a
file that another process has attached.
-/

namespace Image

open LinkList Function List Option

variable {s t : Sys} {p q i k b : Nat} {pc : Pc} {c : Chan} {color : Int} {tab : Nat → List Addr}

/-- The Image is in the table. -/
def Tabled (tab : Nat → List Addr) (i : Addr) : Prop := ∃ b, i ∈ tab b

/-- The table, and what every process may count on. -/
structure Table (s : Sys) (tab : Nat → List Addr) : Prop where
  chains : ChainTable.Chains s.table s.hash tab
  chan : ∀ i, (s.image i).c ≠ none ↔ Tabled tab i
  bucket : ∀ b i, i ∈ tab b → s.given i = false → b = ihash (s.image i).qid.path
  used : ∀ i, 0 < (s.image i).ref → Tabled tab i ∧ ∀ p, (s.at p).drops ≠ some i
  zero : ∀ p i, (s.at p).drops = some i → Tabled tab i
  marked : ∀ p i b, s.at p = .marked i b → i ∈ tab b
  once : ∀ p q i, (s.at p).drops = some i → (s.at q).drops = some i → p = q
  found : ∀ p i, (s.at p).locks = some i → Tabled tab i ∧ s.given i = false
  tablelock : ∀ p q, (s.at p).table = true → (s.at q).table = true → p = q
  imagelock : ∀ p q i, (s.at p).locks = some i → (s.at q).locks = some i → p = q
  search : ∀ p c color f, s.at p = .search c color f → ∃ A B, tab (ihash c.qid.path) = A ++ B ∧
    Path s.hash f B none ∧ ∀ i ∈ A, (s.image i).stands c = true → s.given i = true
  distinct : ∀ i k, Tabled tab i → Tabled tab k → s.given i = false → s.given k = false →
    (s.image i).same (s.image k) → i = k

/-- What a process has to keep to at `pc`, beside the others. -/
structure Fits (s : Sys) (tab : Nat → List Addr) (p : Nat) (pc : Pc) : Prop where
  drops : ∀ i, pc.drops = some i → Tabled tab i ∧ ∀ q, q ≠ p → (s.at q).drops ≠ some i
  locks : ∀ i, pc.locks = some i → (Tabled tab i ∧ s.given i = false) ∧ ∀ q, q ≠ p → (s.at q).locks ≠ some i
  table : pc.table = true → ∀ q, q ≠ p → (s.at q).table = false
  search : ∀ c color f, pc = .search c color f → ∃ A B, tab (ihash c.qid.path) = A ++ B ∧
    Path s.hash f B none ∧ ∀ i ∈ A, (s.image i).stands c = true → s.given i = true

/-- The Images have the files that they had. -/
def Stay (s t : Sys) : Prop :=
  ∀ i, (t.image i).c = (s.image i).c ∧ (t.image i).qid = (s.image i).qid ∧ (t.image i).mqid = (s.image i).mqid ∧
    (t.image i).mchan = (s.image i).mchan ∧ (t.image i).dc = (s.image i).dc

theorem Stay.of_image (h : t.image = s.image) : Stay s t := by
  intro i
  rw [h]
  exact ⟨rfl, rfl, rfl, rfl, rfl⟩

theorem Stay.stands (h : Stay s t) (i : Addr) (c : Chan) : (t.image i).stands c = (s.image i).stands c := by
  obtain ⟨-, hqid, hmqid, hmchan, hdc⟩ := h i
  rw [Img.stands, Img.stands, hqid, hmqid, hmchan, hdc]

theorem Stay.same (h : Stay s t) (h' : (t.image i).same (t.image k)) : (s.image i).same (s.image k) := by
  obtain ⟨-, hqid, hmqid, hmchan, hdc⟩ := h i
  obtain ⟨-, hqid', hmqid', hmchan', hdc'⟩ := h k
  rw [Img.same, hqid, hmqid, hmchan, hdc, hqid', hmqid', hmchan', hdc'] at h'
  exact h'

/-- Nobody starts or stops to mark an Image. -/
theorem given_eq (hat : ∀ q, t.at q = if q = p then pc else s.at q) (hmark : (s.at p).marks = pc.marks) (i : Addr) :
    t.given i = s.given i := by
  have hsame : ∀ q, (t.at q).marks = (s.at q).marks := by
    intro q
    rw [hat]
    split
    next hq => rw [hq, hmark]
    next => rfl
  rw [Bool.eq_iff_iff, given_iff, given_iff]
  simp only [hsame]

/-- **One process moves on**, and the table stays as it is. -/
theorem Table.move (h : Table s tab) (htable : t.table = s.table) (hhash : t.hash = s.hash)
    (hat : ∀ q, t.at q = if q = p then pc else s.at q) (hstay : Stay s t) (hmark : (s.at p).marks = none)
    (hmark' : pc.marks = none)
    (hused : ∀ i, 0 < (t.image i).ref → (Tabled tab i ∧ ∀ q, q ≠ p → (s.at q).drops ≠ some i) ∧ pc.drops ≠ some i)
    (hfits : Fits s tab p pc) : Table t tab := by
  have hgiven := given_eq hat (hmark.trans hmark'.symm)
  -- a process is the one that moves, or where it was
  have hcases : ∀ q, (q = p ∧ t.at q = pc) ∨ (q ≠ p ∧ t.at q = s.at q) := by
    intro q
    rw [hat]
    by_cases hq : q = p
    · exact Or.inl ⟨hq, if_pos hq⟩
    · exact Or.inr ⟨hq, if_neg hq⟩
  -- what one process at most is at stays so, if the one that moves is alone with it
  have halone : ∀ P : Pc → Prop, (∀ q r, P (s.at q) → P (s.at r) → q = r) →
      (P pc → ∀ q, q ≠ p → ¬ P (s.at q)) → ∀ q r, P (t.at q) → P (t.at r) → q = r := by
    intro P hold hnew q r hi hi'
    obtain ⟨hqp, hq⟩ | ⟨hne, hq⟩ := hcases q <;> obtain ⟨hrp, hr⟩ | ⟨hne', hr⟩ := hcases r <;>
      rw [hq] at hi <;> rw [hr] at hi'
    · exact hqp.trans hrp.symm
    · exact absurd hi' (hnew hi r hne')
    · exact absurd hi (hnew hi' q hne)
    · exact hold q r hi hi'
  constructor
  case chains => exact ⟨htable ▸ hhash ▸ h.chains.path, h.chains.disjoint⟩
  case chan => exact fun i => (hstay i).1 ▸ h.chan i
  case bucket => exact fun b i hi hg => (hstay i).2.1 ▸ h.bucket b i hi (hgiven i ▸ hg)
  case used =>
    intro i hi
    obtain ⟨⟨htab, hothers⟩, hnew⟩ := hused i hi
    refine ⟨htab, fun q => ?_⟩
    obtain ⟨-, hq⟩ | ⟨hne, hq⟩ := hcases q
    · rw [hq]
      exact hnew
    · rw [hq]
      exact hothers q hne
  case zero =>
    intro q i hi
    obtain ⟨-, hq⟩ | ⟨-, hq⟩ := hcases q <;> rw [hq] at hi
    · exact (hfits.drops i hi).1
    · exact h.zero q i hi
  case marked =>
    intro q i b hi
    obtain ⟨-, hq⟩ | ⟨-, hq⟩ := hcases q <;> rw [hq] at hi
    · rw [hi] at hmark'
      cases hmark'
    · exact h.marked q i b hi
  case once => exact fun q r i => halone (·.drops = some i) (fun q r => h.once q r i) (fun hi => (hfits.drops i hi).2) q r
  case found =>
    intro q i hi
    rw [hgiven]
    obtain ⟨-, hq⟩ | ⟨-, hq⟩ := hcases q <;> rw [hq] at hi
    · exact (hfits.locks i hi).1
    · exact h.found q i hi
  case tablelock =>
    exact halone (·.table = true) h.tablelock fun hi q hq => by simp [hfits.table hi q hq]
  case imagelock =>
    exact fun q r i => halone (·.locks = some i) (fun q r => h.imagelock q r i) (fun hi => (hfits.locks i hi).2) q r
  case search =>
    intro q c color f hi
    have hold : ∃ A B, tab (ihash c.qid.path) = A ++ B ∧ Path s.hash f B none ∧
        ∀ i ∈ A, (s.image i).stands c = true → s.given i = true := by
      obtain ⟨-, hq⟩ | ⟨-, hq⟩ := hcases q <;> rw [hq] at hi
      · exact hfits.search c color f hi
      · exact h.search q c color f hi
    obtain ⟨A, B, hsplit, hpath, hpast⟩ := hold
    refine ⟨A, B, hsplit, hhash ▸ hpath, fun i hi hstands => ?_⟩
    rw [hgiven]
    exact hpast i hi (hstay.stands i c ▸ hstands)
  case distinct =>
    intro i k hi hk hgi hgk hsame
    rw [hgiven] at hgi hgk
    exact h.distinct i k hi hk hgi hgk (hstay.same hsame)

/-- What marks an Image drops it. -/
theorem drops_of_marks (h : pc.marks = some i) : pc.drops = some i := by
  cases pc <;> first | exact h | cases h

/-- **The qid is taken** from an Image: it stays in its chain until it is taken out. -/
theorem Table.mark (h : Table s tab) (hat : s.at p = .zero i) (hfree : s.imagefree i = true)
    (himage : t.image = update s.image i { s.image i with qid := noqid }) (htable : t.table = s.table)
    (hhash : t.hash = s.hash)
    (hgo : ∀ q, t.at q = if q = p then .marked i (ihash (s.image i).qid.path) else s.at q) : Table t tab := by
  have hzero : (s.at p).drops = some i := by rw [hat]; rfl
  have hother : ∀ k, k ≠ i → t.image k = s.image k := fun k hk => by rw [himage, update_of_ne hk]
  have hunmarked : s.given i = false := by
    rw [← Bool.not_eq_true, given_iff]
    rintro ⟨q, hq⟩
    obtain rfl := h.once q p i (drops_of_marks hq) hzero
    rw [hat] at hq
    cases hq
  have hself : t.given i = true := given_iff.mpr ⟨p, by rw [hgo, if_pos rfl]; rfl⟩
  have hgiven : ∀ k, t.given k = true ↔ k = i ∨ s.given k = true := by
    intro k
    rw [given_iff, given_iff]
    constructor
    · rintro ⟨q, hq⟩
      rw [hgo] at hq
      split at hq
      next => exact Or.inl (some.inj hq).symm
      next => exact Or.inr ⟨q, hq⟩
    · rintro (rfl | ⟨q, hq⟩)
      · exact given_iff.mp hself
      · refine ⟨q, ?_⟩
        rw [hgo, if_neg, hq]
        rintro rfl
        rw [hat] at hq
        cases hq
  have hkept : ∀ {k}, t.given k = false → k ≠ i ∧ s.given k = false := by
    intro k hk
    have hnot : ¬(k = i ∨ s.given k = true) := by
      rw [← hgiven, hk]
      exact Bool.false_ne_true
    exact ⟨fun heq => hnot (Or.inl heq), by rw [← Bool.not_eq_true]; exact fun heq => hnot (Or.inr heq)⟩
  have hdrops : ∀ q, (t.at q).drops = (s.at q).drops := by
    intro q
    rw [hgo]
    split
    next hq => rw [hq, hzero]; rfl
    next => rfl
  have hsame : ∀ q, (t.at q).locks = (s.at q).locks ∧ (t.at q).table = (s.at q).table := by
    intro q
    rw [hgo]
    split
    next hq => rw [hq, hat]; exact ⟨rfl, rfl⟩
    next => exact ⟨rfl, rfl⟩
  constructor
  case chains => exact ⟨htable ▸ hhash ▸ h.chains.path, h.chains.disjoint⟩
  case chan =>
    intro k
    rw [← h.chan, himage, update_keeps Img.c (by rfl)]
  case bucket =>
    intro b k hk hg
    obtain ⟨hne, hg⟩ := hkept hg
    rw [hother k hne]
    exact h.bucket b k hk hg
  case used =>
    intro k hk
    rw [himage, update_keeps Img.ref (by rfl)] at hk
    simp only [hdrops]
    exact h.used k hk
  case zero => exact fun q k hk => h.zero q k (hdrops q ▸ hk)
  case marked =>
    intro q k b hk
    rw [hgo] at hk
    split at hk
    next =>
      obtain ⟨rfl, rfl⟩ := Pc.marked.inj hk
      obtain ⟨b, hb⟩ := h.zero p i hzero
      exact h.bucket b i hb hunmarked ▸ hb
    next => exact h.marked q k b hk
  case once => exact fun q r k hq hr => h.once q r k (hdrops q ▸ hq) (hdrops r ▸ hr)
  case found =>
    intro q k hk
    rw [(hsame q).1] at hk
    refine ⟨(h.found q k hk).1, ?_⟩
    rw [← Bool.not_eq_true, hgiven]
    rintro (rfl | hg)
    · exact imagefree_iff.mp hfree q hk
    · rw [(h.found q k hk).2] at hg
      cases hg
  case tablelock => exact fun q r hq hr => h.tablelock q r ((hsame q).2 ▸ hq) ((hsame r).2 ▸ hr)
  case imagelock => exact fun q r k hq hr => h.imagelock q r k ((hsame q).1 ▸ hq) ((hsame r).1 ▸ hr)
  case search =>
    intro q c color f hq
    rw [hgo] at hq
    split at hq
    next => cases hq
    next =>
      obtain ⟨A, B, hsplit, hpath, hpast⟩ := h.search q c color f hq
      refine ⟨A, B, hsplit, hhash ▸ hpath, fun k hk hstands => (hgiven k).mpr ?_⟩
      by_cases hki : k = i
      · exact Or.inl hki
      · exact Or.inr (hpast k hk (hother k hki ▸ hstands))
  case distinct =>
    intro j k hj hk hgj hgk hs
    obtain ⟨hji, hgj⟩ := hkept hgj
    obtain ⟨hki, hgk⟩ := hkept hgk
    rw [hother j hji, hother k hki] at hs
    exact h.distinct j k hj hk hgj hgk hs

theorem tabled_cons : Tabled (update tab b (i :: tab b)) k ↔ k = i ∨ Tabled tab k := by
  constructor
  · rintro ⟨d, hd⟩
    rw [update_apply] at hd
    split at hd
    next =>
      rcases mem_cons.mp hd with heq | hd
      · exact Or.inl heq
      · exact Or.inr ⟨b, hd⟩
    next => exact Or.inr ⟨d, hd⟩
  · rintro (rfl | ⟨d, hd⟩)
    · exact ⟨b, by rw [update_self]; exact mem_cons_self⟩
    · refine ⟨d, ?_⟩
      rw [update_apply]
      split
      next hdb => exact mem_cons_of_mem _ (hdb ▸ hd)
      next => exact hd

/-- **An Image is taken** for a file that is not in the table. -/
theorem Table.take (h : Table s tab) (hlock : (s.at p).table = true) (hfree : s.imagefree i = true)
    (hc : (s.image i).c = none) (hfresh : ∀ k, Tabled tab k → s.given k = false → (s.image k).stands c = false)
    (himage : t.image = update s.image i ((s.image i).become c color))
    (hhash : t.hash = update s.hash i (s.table (ihash c.qid.path)))
    (htable : t.table = update s.table (ihash c.qid.path) (some i))
    (hgo : ∀ q, t.at q = if q = p then .found i color else s.at q) :
    Table t (update tab (ihash c.qid.path) (i :: tab (ihash c.qid.path))) := by
  have hout : ¬Tabled tab i := fun htab => (h.chan i).mpr htab hc
  have hnone : (s.at p).drops = none ∧ (s.at p).marks = none ∧ (s.at p).locks = none := by
    cases hat : s.at p <;> rw [hat] at hlock <;> first | exact ⟨rfl, rfl, rfl⟩ | cases hlock
  have hother : ∀ k, k ≠ i → t.image k = s.image k := fun k hk => by rw [himage, update_of_ne hk]
  have hdrops : ∀ q, (t.at q).drops = (s.at q).drops := by
    intro q
    rw [hgo]
    split
    next hq => rw [hq, hnone.1]; rfl
    next => rfl
  have hgiven := given_eq hgo (hnone.2.1 : (s.at p).marks = (Pc.found i color).marks)
  have hdropped : ∀ q, (s.at q).drops ≠ some i := fun q hq => hout (h.zero q i hq)
  have hunmarked : s.given i = false := by
    rw [← Bool.not_eq_true, given_iff]
    rintro ⟨q, hq⟩
    exact hdropped q (drops_of_marks hq)
  have hlt : ∀ q, q ≠ p → (s.at q).table = false := by
    intro q hq
    rw [← Bool.not_eq_true]
    exact fun heq => hq (h.tablelock q p heq hlock)
  -- nobody else has the file
  have hclash : ∀ k, Tabled tab k → s.given k = false → ¬(t.image i).same (t.image k) := by
    intro k hk hg hs
    have hki : k ≠ i := fun heq => hout (heq ▸ hk)
    rw [hother k hki, himage, update_self, Img.same] at hs
    have hstands : (s.image k).stands c = true := by
      rw [Img.stands]
      simp only [Bool.and_eq_true, beq_iff_eq]
      exact ⟨⟨⟨hs.1, hs.2.1⟩, hs.2.2.1⟩, hs.2.2.2⟩
    rw [hfresh k hk hg] at hstands
    cases hstands
  constructor
  case chains =>
    have hcons := h.chains.cons (fun b hb => hout ⟨b, hb⟩) (ihash c.qid.path)
    rw [htable, hhash]
    exact hcons
  case chan =>
    intro k
    rw [tabled_cons]
    by_cases hk : k = i
    · subst hk
      rw [himage, update_self]
      exact ⟨fun _ => Or.inl rfl, fun _ => some_ne_none c⟩
    · rw [hother k hk, h.chan]
      exact ⟨Or.inr, fun hor => hor.resolve_left hk⟩
  case bucket =>
    intro d k hk hg
    rw [hgiven] at hg
    rw [update_apply] at hk
    by_cases hki : k = i
    · subst hki
      rw [himage, update_self]
      split at hk
      next hd => exact hd
      next => exact absurd ⟨d, hk⟩ hout
    · rw [hother k hki]
      split at hk
      next hd =>
        rcases mem_cons.mp hk with heq | hk
        · exact absurd heq hki
        · exact h.bucket d k (hd ▸ hk) hg
      next => exact h.bucket d k hk hg
  case used =>
    intro k hk
    rw [himage, update_keeps Img.ref (by rfl)] at hk
    simp only [hdrops]
    exact ⟨tabled_cons.mpr (Or.inr (h.used k hk).1), (h.used k hk).2⟩
  case zero => exact fun q k hk => tabled_cons.mpr (Or.inr (h.zero q k (hdrops q ▸ hk)))
  case marked =>
    intro q k d hk
    rw [hgo] at hk
    split at hk
    next => cases hk
    next =>
      have hold := h.marked q k d hk
      rw [update_apply]
      split
      next hd => exact mem_cons_of_mem _ (hd ▸ hold)
      next => exact hold
  case once => exact fun q r k hq hr => h.once q r k (hdrops q ▸ hq) (hdrops r ▸ hr)
  case found =>
    intro q k hk
    rw [hgiven, tabled_cons]
    rw [hgo] at hk
    split at hk
    next =>
      obtain rfl := some.inj hk
      exact ⟨Or.inl rfl, hunmarked⟩
    next => exact ⟨Or.inr (h.found q k hk).1, (h.found q k hk).2⟩
  case tablelock =>
    intro q r hq hr
    rw [hgo] at hq hr
    split at hq
    next => cases hq
    next =>
      split at hr
      next => cases hr
      next => exact h.tablelock q r hq hr
  case imagelock =>
    intro q r k hq hr
    rw [hgo] at hq hr
    split at hq
    next hqp =>
      obtain rfl := some.inj hq
      split at hr
      next hrp => exact hqp.trans hrp.symm
      next => exact absurd hr (imagefree_iff.mp hfree r)
    next =>
      split at hr
      next =>
        obtain rfl := some.inj hr
        exact absurd hq (imagefree_iff.mp hfree q)
      next => exact h.imagelock q r k hq hr
  case search =>
    intro q c' color' f hq
    rw [hgo] at hq
    split at hq
    next => cases hq
    next hne =>
      have hlocked := hlt q hne
      rw [hq] at hlocked
      cases hlocked
  case distinct =>
    intro j k hj hk hgj hgk hs
    rw [hgiven] at hgj hgk
    rw [tabled_cons] at hj hk
    by_cases hji : j = i <;> by_cases hki : k = i
    · exact hji.trans hki.symm
    · exact absurd (hji ▸ hs) (hclash k (hk.resolve_left hki) hgk)
    · refine absurd ?_ (hclash j (hj.resolve_left hji) hgj)
      rw [hki, Img.same, eqqid, eqqid] at hs
      rw [Img.same, eqqid, eqqid]
      simp only [Bool.and_eq_true, beq_iff_eq] at hs ⊢
      exact ⟨⟨hs.1.1.symm, hs.1.2.symm⟩, ⟨hs.2.1.1.symm, hs.2.1.2.symm⟩, hs.2.2.1.symm, hs.2.2.2.symm⟩
    · rw [hother j hji, hother k hki] at hs
      exact h.distinct j k (hj.resolve_left hji) (hk.resolve_left hki) hgj hgk hs

theorem tabled_erase (h : Table s tab) (hb : i ∈ tab b) :
    Tabled (update tab b ((tab b).erase i)) k ↔ k ≠ i ∧ Tabled tab k := by
  constructor
  · rintro ⟨d, hd⟩
    rw [update_apply] at hd
    split at hd
    next hdb =>
      obtain ⟨hne, hmem⟩ := (h.chains.nodup b).mem_erase_iff.mp hd
      exact ⟨hne, b, hmem⟩
    next hdb => exact ⟨fun heq => hdb (h.chains.disjoint d b i (heq ▸ hd) hb), d, hd⟩
  · rintro ⟨hne, d, hd⟩
    refine ⟨d, ?_⟩
    rw [update_apply]
    split
    next hdb => exact (h.chains.nodup b).mem_erase_iff.mpr ⟨hne, hdb ▸ hd⟩
    next => exact hd

/-- **An Image is taken out** of its chain. -/
theorem Table.unchain (h : Table s tab) (hat : s.at p = .marked i b) (hfree : s.tablefree = true)
    (himage : t.image = update s.image i { s.image i with c := none })
    (hchains : ChainTable.Chains t.table t.hash (update tab b ((tab b).erase i)))
    (hgo : ∀ q, t.at q = if q = p then .idle else s.at q) : Table t (update tab b ((tab b).erase i)) := by
  have hb := h.marked p i b hat
  have hdrop : (s.at p).drops = some i := by rw [hat]; rfl
  have hmark : (s.at p).marks = some i := by rw [hat]; rfl
  have hgivi : s.given i = true := given_iff.mpr ⟨p, hmark⟩
  have hother : ∀ k, k ≠ i → t.image k = s.image k := fun k hk => by rw [himage, update_of_ne hk]
  have hlt : ∀ q, (s.at q).table = false := tablefree_iff.mp hfree
  -- whoever does something is another process
  have hstill : ∀ q, t.at q ≠ .idle → q ≠ p ∧ t.at q = s.at q := by
    intro q hq
    rw [hgo] at hq ⊢
    split at hq
    next => exact absurd rfl hq
    next hne => exact ⟨hne, if_neg hne⟩
  have hdrops : ∀ q k, (t.at q).drops = some k → q ≠ p ∧ (s.at q).drops = some k := by
    intro q k hk
    obtain ⟨hne, heq⟩ := hstill q fun hidle => by rw [hidle] at hk; cases hk
    exact ⟨hne, heq ▸ hk⟩
  have hlocks : ∀ q k, (t.at q).locks = some k → (s.at q).locks = some k := by
    intro q k hk
    obtain ⟨-, heq⟩ := hstill q fun hidle => by rw [hidle] at hk; cases hk
    exact heq ▸ hk
  have hgiven : ∀ k, k ≠ i → t.given k = s.given k := by
    intro k hk
    rw [Bool.eq_iff_iff, given_iff, given_iff]
    constructor
    · rintro ⟨q, hq⟩
      obtain ⟨-, heq⟩ := hstill q fun hidle => by rw [hidle] at hq; cases hq
      exact ⟨q, heq ▸ hq⟩
    · rintro ⟨q, hq⟩
      refine ⟨q, ?_⟩
      rw [hgo, if_neg, hq]
      rintro rfl
      exact hk (some.inj (hq.symm.trans hmark))
  constructor
  case chains => exact hchains
  case chan =>
    intro k
    rw [tabled_erase h hb]
    by_cases hk : k = i
    · subst hk
      rw [himage, update_self]
      exact ⟨fun hne => absurd rfl hne, fun hand => absurd rfl hand.1⟩
    · rw [hother k hk, h.chan]
      exact ⟨fun htab => ⟨hk, htab⟩, And.right⟩
  case bucket =>
    intro d k hk hg
    obtain ⟨hki, -⟩ := (tabled_erase h hb).mp ⟨d, hk⟩
    rw [hgiven k hki] at hg
    rw [hother k hki]
    rw [update_apply] at hk
    split at hk
    next hdb => exact h.bucket d k (hdb ▸ mem_of_mem_erase hk) hg
    next => exact h.bucket d k hk hg
  case used =>
    intro k hk
    rw [himage, update_keeps Img.ref (by rfl)] at hk
    obtain ⟨htab, hno⟩ := h.used k hk
    refine ⟨(tabled_erase h hb).mpr ⟨?_, htab⟩, fun q hq => hno q (hdrops q k hq).2⟩
    rintro rfl
    exact hno p hdrop
  case zero =>
    intro q k hk
    obtain ⟨hne, hk⟩ := hdrops q k hk
    refine (tabled_erase h hb).mpr ⟨?_, h.zero q k hk⟩
    rintro rfl
    exact hne (h.once q p k hk hdrop)
  case marked =>
    intro q k d hk
    obtain ⟨hne, heq⟩ := hstill q fun hidle => by rw [hidle] at hk; cases hk
    rw [heq] at hk
    have hki : k ≠ i := by
      rintro rfl
      exact hne (h.once q p k (by rw [hk]; rfl) hdrop)
    have hold := h.marked q k d hk
    rw [update_apply]
    split
    next hdb => exact (h.chains.nodup b).mem_erase_iff.mpr ⟨hki, hdb ▸ hold⟩
    next => exact hold
  case once => exact fun q r k hq hr => h.once q r k (hdrops q k hq).2 (hdrops r k hr).2
  case found =>
    intro q k hk
    obtain ⟨htab, hg⟩ := h.found q k (hlocks q k hk)
    have hki : k ≠ i := by
      rintro rfl
      rw [hgivi] at hg
      cases hg
    exact ⟨(tabled_erase h hb).mpr ⟨hki, htab⟩, (hgiven k hki).trans hg⟩
  case tablelock =>
    intro q r hq
    obtain ⟨-, heq⟩ := hstill q fun hidle => by rw [hidle] at hq; cases hq
    rw [heq, hlt] at hq
    cases hq
  case imagelock => exact fun q r k hq hr => h.imagelock q r k (hlocks q k hq) (hlocks r k hr)
  case search =>
    intro q c color f hq
    obtain ⟨-, heq⟩ := hstill q fun hidle => by rw [hidle] at hq; cases hq
    have hlocked := hlt q
    rw [← heq, hq] at hlocked
    cases hlocked
  case distinct =>
    intro j k hj hk hgj hgk hs
    obtain ⟨hji, hj⟩ := (tabled_erase h hb).mp hj
    obtain ⟨hki, hk⟩ := (tabled_erase h hb).mp hk
    rw [hgiven j hji] at hgj
    rw [hgiven k hki] at hgk
    rw [hother j hji, hother k hki] at hs
    exact h.distinct j k hj hk hgj hgk hs

theorem chained_iff (h : Table s tab) : s.Chained b i ↔ i ∈ tab b := by
  constructor
  · rintro ⟨l, hpath, hi⟩
    rwa [(h.chains.path b).unique hpath]
  · exact fun hi => ⟨tab b, h.chains.path b, hi⟩

/-- **The promise**, from the invariants. -/
theorem Table.sound (h : Table s tab) (hl : Listed s) : Sound s := by
  have hundropped : ∀ i, (∀ p, (s.at p).drops ≠ some i) → s.given i = false := by
    intro i hno
    rw [← Bool.not_eq_true, given_iff]
    exact fun ⟨q, hq⟩ => hno q (drops_of_marks hq)
  refine ⟨fun i hi => ?_, fun i k a b hi hk hgi hgk hs => ?_, fun i hi => ?_, hl⟩
  · obtain ⟨⟨b, hb⟩, hno⟩ := h.used i hi
    refine ⟨(h.chan i).mpr ⟨b, hb⟩, (chained_iff h).mpr ?_⟩
    rw [← h.bucket b i hb (hundropped i hno)]
    exact hb
  · rw [chained_iff h] at hi hk
    exact h.distinct i k ⟨a, hi⟩ ⟨b, hk⟩ hgi hgk hs
  · have hout : ¬Tabled tab i := fun htab => (h.chan i).mpr htab (lruimage_spec hl hi).2
    refine ⟨Nat.eq_zero_of_not_pos fun hpos => hout (h.used i hpos).1, fun b hb => hout ⟨b, (chained_iff h).mp hb⟩,
      imagefree_iff.mpr fun q hq => hout (h.found q i hq).1, ?_⟩
    rw [← Bool.not_eq_true, dropped_iff]
    exact fun ⟨q, hq⟩ => hout (h.zero q i hq)

/-- What holds of every state of a proper run. -/
structure Inv (s : Sys) : Prop where
  refs : Refs s
  small : Small s
  listed : Listed s
  table : ∃ tab, Table s tab

/-- A step of a process that has nothing to do with Images yet, or no longer. -/
theorem Fits.plain (hdrops : pc.drops = none) (hlocks : pc.locks = none) (htable : pc.table = false) :
    Fits s tab p pc where
  drops i hi := by rw [hdrops] at hi; cases hi
  locks i hi := by rw [hlocks] at hi; cases hi
  table hi := by rw [htable] at hi; cases hi
  search c color f hi := by rw [hi] at htable; cases htable

/-- References do not come from nowhere. -/
theorem Table.still (h : Table s tab) (hpc : pc.drops = none) (hless : ∀ i, 0 < (t.image i).ref → 0 < (s.image i).ref) :
    ∀ i, 0 < (t.image i).ref → (Tabled tab i ∧ ∀ q, q ≠ p → (s.at q).drops ≠ some i) ∧ pc.drops ≠ some i :=
  fun i hi => ⟨⟨(h.used i (hless i hi)).1, fun q _ => (h.used i (hless i hi)).2 q⟩, by rw [hpc]; nofun⟩

/-- No process moves. -/
theorem at_same (hp : s.at p = .idle) (hpc : t.pc = s.pc) (q : Nat) : t.at q = if q = p then .idle else s.at q := by
  rw [Sys.at, hpc]
  split
  next hq => rw [hq]; exact hp
  next => rfl

/-- There is always a process that does nothing. -/
theorem at_length : s.at s.pc.length = .idle := getD_eq_default _ _ (Nat.le_refl _)

/-- **Only references change**, of Images that have some. -/
theorem Table.recount (h : Table s tab) (htable : t.table = s.table) (hhash : t.hash = s.hash) (hpc : t.pc = s.pc)
    (hstay : Stay s t) (hless : ∀ i, 0 < (t.image i).ref → 0 < (s.image i).ref) : Table t tab :=
  h.move htable hhash (at_same at_length hpc) hstay (by rw [at_length]; rfl) rfl (h.still rfl hless)
    (Fits.plain rfl rfl rfl)

theorem more_stay (i : Addr) {u : Sys} (hu : u.image = more s i) : Stay s u := by
  intro j
  rw [hu, more]
  exact ⟨update_keeps Img.c (by rfl) j, update_keeps Img.qid (by rfl) j, update_keeps Img.mqid (by rfl) j,
    update_keeps Img.mchan (by rfl) j, update_keeps Img.dc (by rfl) j⟩

/-- A segment or a page more for an Image that has a segment. -/
theorem more_less {g : Segment} (hr : Refs s) (hg : s.seg[k]? = some g) (hpos : 0 < g.ref) (i : Addr)
    (hi : 0 < (more s g.image i).ref) : 0 < (s.image i).ref := by
  rw [more, update_apply] at hi
  split at hi
  next heq => exact heq ▸ hr.pos hg hpos
  next => exact hi

theorem act_table {op : Op} (hs : Inv s) (hproper : Proper s op) (hact : act s op = some t) :
    ∃ tab, Table t tab := by
  obtain ⟨tab, h⟩ := hs.table
  have hgo : ∀ {p pc} {u : Sys}, s.at p ≠ .idle → u.pc = s.pc.set p pc → ∀ q, u.at q = if q = p then pc else s.at q := by
    intro p pc u hp hpc q
    rw [Sys.at, hpc]
    exact goto_at (at_lt hp) pc q
  cases op with
  | attachimage p c color =>
    obtain ⟨hat, hp, hfree, rfl⟩ := attachimage_spec hact
    refine ⟨tab, h.move rfl rfl (goto_at hp _) (.of_image rfl) (by rw [hat]; rfl) rfl
      (h.still rfl fun _ => id) ⟨by rintro _ ⟨⟩, by rintro _ ⟨⟩, fun _ q _ => tablefree_iff.mp hfree q, fun c' color' f heq => ?_⟩⟩
    obtain ⟨rfl, -, rfl⟩ := Pc.search.inj heq
    exact ⟨[], _, rfl, h.chains.path _, by simp⟩
  | visit p =>
    obtain ⟨c, color, i, hat, hcases⟩ := visit_spec hact
    obtain ⟨A, B, hsplit, hpath, hpast⟩ := h.search p c color _ hat
    obtain ⟨B, rfl, hrest⟩ := hpath.of_some
    obtain ⟨hno, rfl⟩ | ⟨hstands, hfree, u, hu, rfl⟩ := hcases
    · refine ⟨tab, h.move rfl rfl (hgo (by rw [hat]; simp) rfl) (.of_image rfl)
        (by rw [hat]; rfl) rfl (h.still rfl fun _ => id) ⟨by rintro _ ⟨⟩, by rintro _ ⟨⟩, fun _ q hq => ?_, fun c' color' f heq => ?_⟩⟩
      · rw [← Bool.not_eq_true]
        exact fun htab => hq (h.tablelock q p htab (by rw [hat]; rfl))
      · -- the Image that was visited is behind
        obtain ⟨rfl, -, rfl⟩ := Pc.search.inj heq
        refine ⟨A ++ [i], B, by rw [hsplit, append_assoc]; rfl, hrest, fun k hk hstands => ?_⟩
        rcases mem_append.mp hk with hk | hk
        · exact hpast k hk hstands
        · rw [mem_singleton.mp hk, hno] at hstands
          cases hstands
    · obtain ⟨next, prev, mru, lru, rfl⟩ := imageused_eq hu
      refine ⟨tab, h.move rfl rfl (hgo (by rw [hat]; simp) rfl) (.of_image rfl)
        (by rw [hat]; rfl) rfl (h.still rfl fun _ => id) ⟨by rintro _ ⟨⟩, fun k hk => ?_, by rintro ⟨⟩, by simp⟩⟩
      obtain rfl := some.inj hk
      have htab : Tabled tab i := ⟨_, by rw [hsplit]; exact mem_append_right _ mem_cons_self⟩
      exact ⟨⟨htab, hproper c color i hat hstands⟩, fun q _ => imagefree_iff.mp hfree q⟩
  | choose p =>
    obtain ⟨c, color, hat, hcases⟩ := choose_spec hact
    have hp : s.at p ≠ .idle := by rcases hat with hat | hat <;> rw [hat] <;> simp
    have hlock : (s.at p).table = true := by rcases hat with hat | hat <;> rw [hat] <;> rfl
    have hmarks : (s.at p).marks = none := by rcases hat with hat | hat <;> rw [hat] <;> rfl
    obtain ⟨-, rfl⟩ | ⟨i, u, hi, hfree, hu, rfl⟩ := hcases
    · exact ⟨tab, h.move rfl rfl (hgo hp rfl) (.of_image rfl) hmarks rfl
        (h.still rfl fun _ => id) (Fits.plain rfl rfl rfl)⟩
    · -- the file is not in the table: it was searched for, or the run is proper
      have hfresh : ∀ k, Tabled tab k → s.given k = false → (s.image k).stands c = false := by
        rintro k ⟨b, hb⟩ hg
        rcases hat with hat | hat
        · obtain ⟨A, B, hsplit, hpath, hpast⟩ := h.search p c color none hat
          obtain rfl := hpath.eq_nil
          rw [append_nil] at hsplit
          rw [← Bool.not_eq_true]
          intro hstands
          rw [h.bucket b k hb hg, ← stands_path hstands, hsplit] at hb
          rw [hpast k hb hstands] at hg
          cases hg
        · exact hproper c color i hat hi b k ((chained_iff h).mpr hb) hg
      obtain ⟨next, prev, mru, lru, rfl⟩ := imageused_eq hu
      exact ⟨_, h.take hlock hfree (lruimage_spec hs.listed hi).2 hfresh rfl rfl rfl (hgo hp rfl)⟩
  | relock p =>
    obtain ⟨c, color, hat, hfree, rfl⟩ := relock_spec hact
    refine ⟨tab, h.move rfl rfl (hgo (by rw [hat]; simp) rfl) (.of_image rfl)
      (by rw [hat]; rfl) rfl (h.still rfl fun _ => id) ⟨by rintro _ ⟨⟩, by rintro _ ⟨⟩, fun _ q _ => tablefree_iff.mp hfree q, by simp⟩⟩
  | textseg p ok =>
    obtain ⟨i, color, hat, rfl | ⟨hnone, hok, rfl⟩ | ⟨k, g, -, -, rfl⟩⟩ := textseg_spec hact
    · exact ⟨tab, h.move rfl rfl (hgo (by rw [hat]; simp) rfl) (.of_image rfl)
        (by rw [hat]; rfl) rfl (h.still rfl fun _ => id) (Fits.plain rfl rfl rfl)⟩
    · have hdropped := dropped_false (hproper i color hat hnone hok)
      have hstay : Stay s ((texted s i color).goto p .idle) := fun j =>
        ⟨update_keeps Img.c (by rfl) j, update_keeps Img.qid (by rfl) j, update_keeps Img.mqid (by rfl) j,
          update_keeps Img.mchan (by rfl) j, update_keeps Img.dc (by rfl) j⟩
      refine ⟨tab, h.move rfl rfl (hgo (by rw [hat]; simp) rfl) hstay (by rw [hat]; rfl) rfl (fun j hj => ?_)
        (Fits.plain rfl rfl rfl)⟩
      refine ⟨?_, by rintro ⟨⟩⟩
      by_cases hji : j = i
      · subst hji
        exact ⟨(h.found p j (by rw [hat]; rfl)).1, fun q _ => hdropped q⟩
      · have hold : ((texted s i color).goto p .idle).image j = s.image j := update_of_ne hji _ _
        rw [hold] at hj
        exact ⟨(h.used j hj).1, fun q _ => (h.used j hj).2 q⟩
    · exact ⟨tab, h.move rfl rfl (hgo (by rw [hat]; simp) rfl) (.of_image rfl)
        (by rw [hat]; rfl) rfl (h.still rfl fun _ => id) (Fits.plain rfl rfl rfl)⟩
  | decref p =>
    obtain ⟨i, hat, hpos, rfl⟩ := decref_spec hact
    obtain ⟨htab, hno⟩ := h.used i hpos
    have hstay : ∀ pc, Stay s ((less s i).goto p pc) := fun pc j =>
      ⟨update_keeps Img.c (by rfl) j, update_keeps Img.qid (by rfl) j, update_keeps Img.mqid (by rfl) j,
        update_keeps Img.mchan (by rfl) j, update_keeps Img.dc (by rfl) j⟩
    have hold : ∀ j, 0 < ((less s i).image j).ref → 0 < (s.image j).ref ∧ (j = i → (s.image i).ref - 1 ≠ 0) := by
      intro j hj
      rw [less, set_at] at hj
      split at hj
      next heq =>
        have hj : 0 < (s.image i).ref - 1 := hj
        exact ⟨heq ▸ hpos, fun _ => by omega⟩
      next hne => exact ⟨hj, fun heq => absurd heq hne⟩
    refine ⟨tab, h.move rfl rfl (hgo (by rw [hat]; simp) rfl) (hstay _) (by rw [hat]; rfl) (by split <;> rfl)
      (fun j hj => ?_) ?_⟩
    · obtain ⟨hjpos, hne⟩ := hold j hj
      refine ⟨⟨(h.used j hjpos).1, fun q _ => (h.used j hjpos).2 q⟩, ?_⟩
      split
      next hzero =>
        intro heq
        exact hne (some.inj heq).symm hzero
      next => rintro ⟨⟩
    · split
      next =>
        refine ⟨fun j hj => ?_, by rintro _ ⟨⟩, by rintro ⟨⟩, by simp⟩
        obtain rfl := some.inj hj
        exact ⟨htab, fun q _ => hno q⟩
      next => exact Fits.plain rfl rfl rfl
  | mark p =>
    obtain ⟨i, hat, hfree, rfl⟩ := mark_spec hact
    exact ⟨tab, h.mark hat hfree rfl rfl rfl (hgo (by rw [hat]; simp) rfl)⟩
  | unchain p =>
    obtain ⟨i, b, r, hat, hfree, hr, rfl⟩ := unchain_spec hact
    have hlen : (tab b).length < nimage + 1 := by
      have hsub : tab b ⊆ List.range nimage := fun k hk =>
        mem_range.mpr (path_small (hs.small.table b) hs.small.hash (h.chains.path b) k hk)
      have hle := ((h.chains.nodup b).subperm hsub).length_le
      rw [length_range] at hle
      omega
    obtain ⟨head, links, hrun, hchains⟩ := h.chains.unlink b i hlen
    obtain rfl := some.inj (hr.symm.trans hrun)
    exact ⟨_, h.unchain hat hfree rfl hchains (hgo (by rw [hat]; simp) rfl)⟩
  | putseg p k =>
    obtain ⟨g, hg, hat, hp, hpos, ⟨-, rfl⟩ | ⟨-, rfl⟩⟩ := putseg_spec hact
    · exact ⟨tab, h.recount rfl rfl rfl (.of_image rfl) fun _ => id⟩
    · have himage : ∀ {β : Type} (f : Img → β) j, (∀ img s', f { img with s := s' } = f img) →
          f (untexted s g.image k j) = f (s.image j) := by
        intro β f j hf
        rw [untexted]
        split
        next => exact update_keeps f (hf _ _) j
        next => rfl
      exact ⟨tab, h.move rfl rfl (goto_at hp _) (fun j => ⟨himage Img.c j fun _ _ => rfl, himage Img.qid j fun _ _ => rfl,
        himage Img.mqid j fun _ _ => rfl, himage Img.mchan j fun _ _ => rfl, himage Img.dc j fun _ _ => rfl⟩)
        (by rw [hat]; rfl) rfl (h.still rfl fun j hj => himage Img.ref j (fun _ _ => rfl) ▸ hj)
        (Fits.plain rfl rfl rfl)⟩
  | dupimage k =>
    obtain ⟨g, hg, hpos, rfl⟩ := dupimage_spec hact
    exact ⟨tab, h.recount rfl rfl rfl (more_stay g.image rfl) (more_less hs.refs hg hpos)⟩
  | sameseg k =>
    obtain ⟨g, -, -, rfl⟩ := sameseg_spec hact
    exact ⟨tab, h.recount rfl rfl rfl (.of_image rfl) fun _ => id⟩
  | cachepage pg k =>
    obtain ⟨g, hg, hpos, -, rfl⟩ := cachepage_spec hact
    exact ⟨tab, h.recount rfl rfl rfl (more_stay g.image rfl) (more_less hs.refs hg hpos)⟩
  | uncachepage p pg =>
    obtain ⟨i, -, hat, hp, rfl⟩ := uncachepage_spec hact
    exact ⟨tab, h.move rfl rfl (goto_at hp _) (.of_image rfl) (by rw [hat]; rfl) rfl
      (h.still rfl fun _ => id) (Fits.plain rfl rfl rfl)⟩

open StepSystem

theorem init_inv (h : Init s) : Inv s := by
  obtain ⟨npage, nproc, rfl⟩ := h
  have hat : ∀ p, (initimage npage nproc).at p = .idle := by
    intro p
    change (List.replicate nproc Pc.idle).getD p .idle = .idle
    rw [getD_eq_getElem?_getD, List.getElem?_replicate]
    split <;> rfl
  have hout : ∀ {i}, ¬Tabled (fun _ => []) i := fun ⟨_, hb⟩ => nomatch hb
  refine ⟨initimage_refs npage nproc, initimage_small npage nproc, initimage_listed npage nproc, fun _ => [], ?_⟩
  constructor
  case chains => exact ⟨fun _ => rfl, fun _ _ _ hb => nomatch hb⟩
  case chan => exact fun i => ⟨fun hne => absurd rfl hne, fun htab => absurd htab hout⟩
  case bucket => exact fun _ _ hb => nomatch hb
  case used => exact fun i hi => absurd hi (Nat.lt_irrefl 0)
  case distinct => exact fun i k hi => absurd hi hout
  all_goals
    intro p
    intros
    simp_all [Pc.drops, Pc.locks, Pc.table]

/-- **One proper step** keeps everything. -/
theorem act_inv {op : Op} (h : Inv s) (hproper : Proper s op) (hact : act s op = some t) : Inv t :=
  ⟨act_refs h.refs hact, (act_listed h.small h.listed hact).1, (act_listed h.small h.listed hact).2,
    act_table h hproper hact⟩

/-- **The LRU list** holds every Image once, in every run. -/
theorem lru_complete (h : Reach Init Step s) :
    ∃ l, Dll s.next s.prev s.mru s.lru l ∧ l.Perm (List.range nimage) := by
  refine (h.invariant (fun s => Small s ∧ Listed s) (fun s hinit => ?_) fun s op t hs hact => ?_).2
  · exact ⟨(init_inv hinit).small, (init_inv hinit).listed⟩
  · exact act_listed hs.1 hs.2 hact

/-- A file on a mounted device. -/
def text : Chan := ⟨⟨7, 0, 0⟩, ⟨1, 0, 0⟩, some 1, 77⟩

/-- The text of the file is used, and its Image put. -/
def putting : List Op :=
  [.attachimage 0 text 0, .choose 0, .textseg 0 true, .putseg 0 0, .decref 0, .mark 0, .unchain 0]

/-- The Image has come to the front of the list, and stays there when it is put. -/
theorem lru_complete_put : ∃ s, exec act (initimage 0 2) putting = some s ∧ s.mru = some 199 ∧
    ∃ l, Dll s.next s.prev s.mru s.lru l ∧ l.Perm (List.range nimage) := by
  have hrun : ((exec act (initimage 0 2) putting).any fun s => decide (s.mru = some 199)) = true := by decide +kernel
  obtain ⟨s, hs, hmru⟩ := Option.any_eq_true _ _ |>.mp hrun
  have hreach : Reach Init Step s := (Reach.start ⟨0, 2, rfl⟩).exec hs fun _ _ _ _ hact => hact
  exact ⟨s, hs, of_decide_eq_true hmru, lru_complete hreach⟩

/-- **The image cache.**  In every run of proper steps, an Image that is referred to has a channel and is in
the chain of its qid, no two stand for one file, the one that is chosen is free, and the LRU list
holds them all. -/
theorem image_ok (h : Reach Init (fun s op t => Step s op t ∧ Proper s op) s) : Sound s := by
  have hinv : Inv s := h.invariant Inv (fun s hinit => init_inv hinit) fun s op t hs hstep =>
    act_inv hs hstep.2 hstep.1
  obtain ⟨tab, htab⟩ := hinv.table
  exact htab.sound hinv.listed

/-- The state behind a step. -/
def Sys.after (s : Sys) (op : Op) : Sys := (act s op).getD s

theorem act_after {op : Op} (h : (act s op).isSome = true) : act s op = some (s.after op) :=
  (getD_of_ne_none (isSome_iff_ne_none.mp h) s).symm

/-- A process takes an Image for a file, -/
def taking : Sys := ((initimage 0 2).after (.attachimage 0 text 0)).after (.choose 0)

/-- and another one looks for it. -/
def looking : Sys := (taking.after (.textseg 0 true)).after (.attachimage 1 text 0)

/-- Both use the same Image. -/
theorem image_ok_shared : Sound (looking.after (.visit 1)) := by
  have hstep : ∀ {s : Sys} (op : Op), Reach Init (fun s op t => Step s op t ∧ Proper s op) s → Proper s op →
      (act s op).isSome = true → Reach Init (fun s op t => Step s op t ∧ Proper s op) (s.after op) :=
    fun op hr hop hrun => hr.next ⟨act_after hrun, hop⟩
  have h₁ := hstep (.attachimage 0 text 0) (Reach.start ⟨0, 2, rfl⟩) trivial (by decide +kernel)
  have h₂ := hstep (.choose 0) h₁ (fun c color i hat => by
    have hsearch : ((initimage 0 2).after (.attachimage 0 text 0)).at 0 = .search text 0 none := by decide +kernel
    cases hsearch.symm.trans hat) (by decide +kernel)
  have h₃ := hstep (.textseg 0 true) h₂ (fun i color hat _ _ => by
    have hfound : taking.at 0 = .found 199 0 := by decide +kernel
    cases hfound.symm.trans hat
    decide +kernel) (by decide +kernel)
  have h₄ := hstep (.attachimage 1 text 0) h₃ trivial (by decide +kernel)
  have h₅ := hstep (.visit 1) h₄ (fun c color i hat _ => by
    have hsearch : looking.at 1 = .search text 0 (some 199) := by decide +kernel
    cases hsearch.symm.trans hat
    decide +kernel) (by decide +kernel)
  exact image_ok h₅

/-- The last reference goes while another process attaches the file again. -/
def revival : List Op :=
  [.attachimage 0 text 0, .choose 0, .textseg 0 true, .putseg 0 0, .decref 0, .attachimage 1 text 0, .visit 1,
    .textseg 1 true, .mark 0, .unchain 0]

/-- **A revived Image** has a reference, and no channel. -/
theorem revived_unchained :
    ∃ s, Reach Init Step s ∧ 0 < (s.image 199).ref ∧ (s.image 199).c = none ∧ ¬Sound s := by
  have hrun : ((exec act (initimage 0 2) revival).any fun s =>
      decide (0 < (s.image 199).ref) && decide ((s.image 199).c = none)) = true := by decide +kernel
  obtain ⟨s, hs, hbad⟩ := Option.any_eq_true _ _ |>.mp hrun
  rw [Bool.and_eq_true, decide_eq_true_eq, decide_eq_true_eq] at hbad
  have hreach : Reach Init Step s := (Reach.start ⟨0, 2, rfl⟩).exec hs fun _ _ _ _ hact => hact
  exact ⟨s, hreach, hbad.1, hbad.2, fun hsound => (hsound.used 199 hbad.1).1 hbad.2⟩

end Image
