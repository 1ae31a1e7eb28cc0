import NixKernel.Image
import NixKernel.Tally

/-!
# References to Images

Every reference of an Image is one of a segment, of a page, or of a process that is about to drop it.
The LRU list holds every Image, in whatever order.  Both are so in every run.
-/

namespace Image

open LinkList Function List Option

variable {s t : Sys} {p q i k : Nat} {pc : Pc} {c : Chan} {color : Int} {tab : Nat → List Addr}

theorem at_lt (h : s.at p ≠ .idle) : p < s.pc.length := Tally.lt_of_getD_ne h

theorem goto_at (h : p < s.pc.length) (pc : Pc) (q : Nat) :
    (s.goto p pc).at q = if q = p then pc else s.at q := Tally.getD_set h pc q

theorem set_at (f : Img → Img) (j : Addr) : (s.set i f).image j = if j = i then f (s.image i) else s.image j :=
  update_apply _ _ _ _

/-- A field that is set. -/
theorem update_field {β : Type} (g : Img → β) {image : Addr → Img} {img : Img} :
    g (update image i img i) = g img := by rw [update_self]

/-- A field that is not set. -/
theorem update_keeps {β : Type} (g : Img → β) {image : Addr → Img} {img : Img} (h : g img = g (image i)) (j : Addr) :
    g (update image i img j) = g (image j) := by
  by_cases hj : j = i
  · rw [hj, update_self, h]
  · rw [update_of_ne hj]

/-- A list of processes, by their program counters. -/
theorem any_at (f : Pc → Bool) (hidle : f .idle = false) : s.pc.any f = true ↔ ∃ p, f (s.at p) = true := by
  rw [List.any_eq_true]
  constructor
  · rintro ⟨pc, hpc, hf⟩
    obtain ⟨p, hp, rfl⟩ := List.mem_iff_getElem.mp hpc
    exact ⟨p, by rw [Sys.at, Tally.getD_lt hp, hf]⟩
  · rintro ⟨p, hf⟩
    have hp : p < s.pc.length := at_lt fun hat => by
      rw [hat, hidle] at hf
      cases hf
    rw [Sys.at, Tally.getD_lt hp] at hf
    exact ⟨_, getElem_mem hp, hf⟩

theorem given_iff : s.given i = true ↔ ∃ p, (s.at p).marks = some i := by
  rw [Sys.given, any_at _ rfl]
  simp only [beq_iff_eq]

theorem dropped_iff : s.dropped i = true ↔ ∃ p, (s.at p).drops = some i := by
  rw [Sys.dropped, any_at _ rfl]
  simp only [beq_iff_eq]

theorem dropped_false (h : s.dropped i = false) (p : Nat) : (s.at p).drops ≠ some i := fun hp => by
  rw [dropped_iff.mpr ⟨p, hp⟩] at h
  cases h

theorem imagefree_iff : s.imagefree i = true ↔ ∀ p, (s.at p).locks ≠ some i := by
  have hany := any_at (s := s) (fun pc => pc.locks == some i) rfl
  rw [Sys.imagefree, ← not_iff_not, Bool.not_eq_true, not_forall]
  simp only [beq_iff_eq] at hany
  simp only [not_not, ← hany, any_eq_not_all_not, bne, Bool.not_eq_true']

theorem tablefree_iff : s.tablefree = true ↔ ∀ p, (s.at p).table = false := by
  have hany := any_at (s := s) Pc.table rfl
  rw [Sys.tablefree, ← not_iff_not, Bool.not_eq_true, not_forall]
  simp only [Bool.not_eq_false, ← hany, any_eq_not_all_not, Bool.not_eq_true']

/-- Every Image is on the list once. -/
def Listed (s : Sys) : Prop := ∃ l, Dll s.next s.prev s.mru s.lru l ∧ l.Perm (List.range nimage)

theorem Listed.frame (h : Listed s) (hnext : t.next = s.next) (hprev : t.prev = s.prev) (hmru : t.mru = s.mru)
    (hlru : t.lru = s.lru) : Listed t := by
  rw [Listed, hnext, hprev, hmru, hlru]
  exact h

/-- **The Image is put in front**, and nothing else changes. -/
theorem imageused_spec (h : Listed s) (hi : i < nimage) :
    ∃ next prev mru lru, imageused s i = some { s with next, prev, mru, lru } ∧
      Listed { s with next, prev, mru, lru } := by
  obtain ⟨l, hdll, hperm⟩ := h
  have hmem : i ∈ l := hperm.mem_iff.mpr (List.mem_range.mpr hi)
  obtain ⟨A, B, rfl⟩ := append_of_mem hmem
  have hun := hdll.unlink
  have hnodup := hdll.nodup
  have hrest : i ∉ A ++ B := by
    rw [nodup_middle, nodup_cons] at hnodup
    exact hnodup.1
  have hpush := hun.push hrest
  -- there is another Image
  have hlen : (A ++ B).length + 1 = nimage := by
    have hlen := hperm.length_eq
    rw [length_range, length_append, length_cons] at hlen
    rw [length_append]
    omega
  obtain ⟨m, r, hl⟩ : ∃ m r, A ++ B = m :: r := by
    cases hl : A ++ B with
    | nil =>
      rw [hl] at hlen
      exact absurd hlen (by decide)
    | cons m r => exact ⟨m, r, rfl⟩
  have hmru : (imageunused s i).mru = some m := by
    have hhead : (imageunused s i).mru = (A ++ B).head? := hun.head_eq
    rw [hhead, hl]
    rfl
  have hlru : (imageunused s i).lru ≠ none := by
    have htail : (imageunused s i).lru = (A ++ B).reverse.head? := hun.mirror.head_eq
    rw [htail, List.head?_reverse, hl, List.getLast?_eq_some_getLast (cons_ne_nil m r)]
    exact some_ne_none _
  have hne : m ≠ i := by
    rintro rfl
    rw [hl] at hrest
    exact hrest mem_cons_self
  have hprev : update (update (imageunused s i).prev m (some i)) i none =
      update (imageunused s i).prev m (some i) := by
    have hnone : (imageunused s i).prev i = none := Function.update_self _ _ _
    rw [update_eq_self_iff, update_of_ne hne.symm, hnone]
  refine ⟨_, _, _, _, by rw [imageused, hmru, map_some, if_neg hlru]; rfl, i :: (A ++ B), ?_, ?_⟩
  · have hdll : Dll (update (imageunused s i).next i (imageunused s i).mru)
        (update (store (imageunused s i).mru (some i) (imageunused s i).lru (imageunused s i).prev).2 i none) (some i)
        (store (imageunused s i).mru (some i) (imageunused s i).lru (imageunused s i).prev).1 (i :: (A ++ B)) := hpush
    rw [hmru] at hdll
    change Dll _ (update (update (imageunused s i).prev m (some i)) i none) _ (imageunused s i).lru _ at hdll
    rw [hprev] at hdll
    exact hdll
  · exact List.perm_middle.symm.trans hperm

/-- Only the list changes. -/
theorem imageused_eq (h : imageused s i = some t) :
    ∃ next prev mru lru, t = { s with next, prev, mru, lru } := by
  obtain ⟨m, -, rfl⟩ := map_eq_some_iff.mp h
  exact ⟨_, _, _, _, rfl⟩

/-- The Image of `lruimage` is free. -/
theorem lruimage_spec (h : Listed s) (hi : lruimage s = some i) : i < nimage ∧ (s.image i).c = none := by
  obtain ⟨l, hdll, hperm⟩ := h
  have hlen : l.reverse.length < nimage + 1 := by
    rw [length_reverse, hperm.length_eq, length_range]
    exact Nat.lt_succ_self _
  rw [lruimage, search_spec hdll.bwd hlen, bind_some] at hi
  replace hi : (l.reverse.dropWhile fun i => !(s.image i).c.isNone).head? = some i := hi
  have hmem : i ∈ l.reverse.dropWhile fun i => !(s.image i).c.isNone := mem_of_mem_head? hi
  have hl : i ∈ l := List.mem_reverse.mp ((dropWhile_suffix _).mem hmem)
  refine ⟨List.mem_range.mp (hperm.mem_iff.mp hl), ?_⟩
  have hstop := List.head?_dropWhile_not (fun i => !(s.image i).c.isNone) l.reverse
  rw [hi] at hstop
  simpa using hstop

theorem initimage_listed (npage nproc : Nat) : Listed (initimage npage nproc) := by
  -- the links of `k` Images from `i` on
  have hfwd : ∀ k i, i + k = nimage → Path (initimage npage nproc).next (if i < nimage then some i else none)
      (List.range' i k) none := by
    intro k
    induction k with
    | zero =>
      intro i hi
      rw [if_neg (by omega)]
      rfl
    | succ k ih =>
      intro i hi
      rw [if_pos (by omega), List.range'_succ]
      exact ⟨rfl, ih (i + 1) (by omega)⟩
  have hbwd : ∀ k, k ≤ nimage → Path (initimage npage nproc).prev (if k = 0 then none else some (k - 1))
      (List.range k).reverse none := by
    intro k
    induction k with
    | zero => exact fun _ => rfl
    | succ k ih =>
      intro hk
      rw [range_succ, reverse_append, reverse_singleton, singleton_append]
      exact ⟨rfl, ih (by omega)⟩
  refine ⟨List.range nimage, ⟨?_, hbwd nimage (Nat.le_refl _)⟩, List.Perm.refl _⟩
  rw [range_eq_range']
  exact hfwd nimage 0 rfl

def Segment.live (i : Addr) (g : Segment) : Bool := decide (0 < g.ref) && g.image == i
def Pc.holds (i : Addr) (pc : Pc) : Bool := pc.puts == some i

/-- The references of an Image, and the segment of its text. -/
structure Refs (s : Sys) : Prop where
  count : ∀ i, (s.image i).ref = s.seg.countP (Segment.live i) + s.page.countP (· == some i) +
    s.pc.countP (Pc.holds i)
  text : ∀ i k, (s.image i).s = some k → ∃ g, s.seg[k]? = some g ∧ 0 < g.ref ∧ g.image = i

/-- A segment that loses its last reference. -/
theorem lost_count {g : Segment} {l : List Segment} (hg : l[k]? = some g) (hpos : 0 < g.ref) (i : Addr) :
    (l.set k { g with ref := 0 }).countP (Segment.live i) + (if i = g.image then 1 else 0) =
      l.countP (Segment.live i) := by
  have hset := Tally.countP_set (d := g) (Segment.live i) (List.getElem?_eq_some_iff.mp hg).1 { g with ref := 0 }
  rw [getD_eq_getElem?_getD, hg, getD_some, Segment.live, decide_eq_true hpos, Bool.true_and] at hset
  change _ + _ = _ + 0 at hset
  by_cases hi : i = g.image
  · rw [hi, beq_self_eq_true] at hset
    rw [if_pos hi, hi]
    exact hset
  · rw [beq_false_of_ne (Ne.symm hi)] at hset
    rw [if_neg hi]
    exact hset

theorem goto_count (h : p < s.pc.length) (pc : Pc) (i : Addr) :
    (s.goto p pc).pc.countP (Pc.holds i) + ((s.at p).holds i).toNat = s.pc.countP (Pc.holds i) + (pc.holds i).toNat :=
  Tally.countP_set _ h pc

/-- A process that gains no reference moves on. -/
theorem goto_holds (h : p < s.pc.length) (hpc : pc.puts = (s.at p).puts) (i : Addr) :
    (s.goto p pc).pc.countP (Pc.holds i) = s.pc.countP (Pc.holds i) := by
  have hcount := goto_count h pc i
  rw [Pc.holds, Pc.holds, hpc] at hcount
  omega

theorem Refs.frame (h : Refs s) (himage : ∀ i, (t.image i).ref = (s.image i).ref ∧ (t.image i).s = (s.image i).s)
    (hseg : t.seg = s.seg) (hpage : t.page = s.page)
    (hpc : ∀ i, t.pc.countP (Pc.holds i) = s.pc.countP (Pc.holds i)) : Refs t := by
  refine ⟨fun i => ?_, fun i k hk => ?_⟩
  · rw [(himage i).1, hseg, hpage, hpc, h.count]
  · rw [(himage i).2] at hk
    rw [hseg]
    exact h.text i k hk

/-- An Image that a segment has is referred to. -/
theorem Refs.pos (h : Refs s) {g : Segment} (hg : s.seg[k]? = some g) (hpos : 0 < g.ref) : 0 < (s.image g.image).ref := by
  have hlive : 0 < s.seg.countP (Segment.live g.image) := by
    rw [countP_pos_iff]
    refine ⟨g, mem_of_getElem? hg, ?_⟩
    rw [Segment.live, decide_eq_true hpos, beq_self_eq_true]
    rfl
  have hcount := h.count g.image
  omega

/-- **A segment more.** -/
theorem Refs.newseg (h : Refs s) {i : Addr} {image : Addr → Img} {pcs : List Pc} (color : Int)
    (hi : (image i).ref = (s.image i).ref + 1 ∧ ((image i).s = (s.image i).s ∨ (image i).s = some s.seg.length))
    (hne : ∀ j, j ≠ i → (image j).ref = (s.image j).ref ∧ (image j).s = (s.image j).s)
    (hpc : ∀ i, pcs.countP (Pc.holds i) = s.pc.countP (Pc.holds i)) :
    Refs { s with image, seg := s.seg ++ [Segment.mk 1 i color], pc := pcs } := by
  have hold : ∀ {g : Segment} {k : Nat}, s.seg[k]? = some g → (s.seg ++ [Segment.mk 1 i color])[k]? = some g := by
    intro g k hg
    rw [List.getElem?_append_left (List.getElem?_eq_some_iff.mp hg).1, hg]
  refine ⟨fun j => ?_, fun j k hk => ?_⟩
  · change (image j).ref = (s.seg ++ [Segment.mk 1 i color]).countP (Segment.live j) + s.page.countP _ + pcs.countP _
    rw [countP_append, hpc]
    have hcount := h.count j
    by_cases hj : j = i
    · subst hj
      rw [hi.1, hcount, countP_singleton, if_pos (by simp [Segment.live])]
      omega
    · rw [(hne j hj).1, hcount, countP_singleton, if_neg (by simp [Segment.live, Ne.symm hj])]
      omega
  · change (image j).s = some k at hk
    by_cases hj : j = i
    · subst hj
      rcases hi.2 with heq | heq
      · obtain ⟨g, hg, hrest⟩ := h.text j k (heq ▸ hk)
        exact ⟨g, hold hg, hrest⟩
      · rw [heq] at hk
        obtain rfl := some.inj hk
        exact ⟨⟨1, j, color⟩, List.getElem?_concat_length, Nat.one_pos, rfl⟩
    · obtain ⟨g, hg, hrest⟩ := h.text j k ((hne j hj).2 ▸ hk)
      exact ⟨g, hold hg, hrest⟩

/-- A segment has other references than before. -/
theorem Refs.recount (h : Refs s) {g : Segment} {pcs : List Pc} {n : Nat} (hg : s.seg[k]? = some g) (hpos : 0 < g.ref)
    (hn : 0 < n) (hpc : ∀ i, pcs.countP (Pc.holds i) = s.pc.countP (Pc.holds i)) :
    Refs { s with seg := s.seg.set k { g with ref := n }, pc := pcs } := by
  have hk := (List.getElem?_eq_some_iff.mp hg).1
  have hgetD : s.seg.getD k g = g := by rw [getD_eq_getElem?_getD, hg, getD_some]
  refine ⟨fun i => ?_, fun i j hj => ?_⟩
  · have hset := Tally.countP_set (d := g) (Segment.live i) hk { g with ref := n }
    rw [hgetD, Segment.live, decide_eq_true hpos] at hset
    change _ + _ = _ + (decide (0 < n) && g.image == i).toNat at hset
    rw [decide_eq_true hn] at hset
    have hcount := h.count i
    change (s.image i).ref = (s.seg.set k _).countP _ + s.page.countP _ + pcs.countP _
    rw [hpc]
    omega
  · obtain ⟨f, hf, hfpos, hfi⟩ := h.text i j hj
    change ∃ g', (s.seg.set k _)[j]? = some g' ∧ _
    by_cases hjk : j = k
    · subst hjk
      obtain rfl := some.inj (hg.symm.trans hf)
      exact ⟨_, List.getElem?_set_self hk, hn, hfi⟩
    · exact ⟨f, by rw [List.getElem?_set_ne (Ne.symm hjk), hf], hfpos, hfi⟩

theorem initimage_refs (npage nproc : Nat) : Refs (initimage npage nproc) := by
  refine ⟨fun i => ?_, fun i k hk => nomatch hk⟩
  change 0 = 0 + (List.replicate npage none).countP _ + (List.replicate nproc Pc.idle).countP _
  rw [countP_replicate, countP_replicate]
  rfl

/-- A segment, a page or a process gives its reference to a process. -/
theorem Refs.give (h : Refs s) (hp : p < s.pc.length) (hidle : (s.at p).puts = none) {seg : List Segment}
    {page : List (Option Addr)} {image : Addr → Img} {i : Addr}
    (hcount : ∀ j, seg.countP (Segment.live j) + page.countP (· == some j) + (if j = i then 1 else 0) =
      s.seg.countP (Segment.live j) + s.page.countP (· == some j))
    (himage : ∀ j, (image j).ref = (s.image j).ref)
    (htext : ∀ j k, (image j).s = some k → ∃ g, seg[k]? = some g ∧ 0 < g.ref ∧ g.image = j) :
    Refs { s with image, seg, page, pc := s.pc.set p (.put i) } := by
  refine ⟨fun j => ?_, htext⟩
  have hgoto := goto_count hp (.put i) j
  have hold := h.count j
  have hnew := hcount j
  rw [Pc.holds, hidle, Pc.holds] at hgoto
  change (image j).ref = seg.countP _ + page.countP _ + (s.goto p (.put i)).pc.countP _
  rw [himage]
  by_cases hj : j = i
  · subst hj
    rw [if_pos rfl] at hnew
    simp [Pc.puts] at hgoto
    omega
  · rw [if_neg hj] at hnew
    have hne : (i == j) = false := beq_false_of_ne (Ne.symm hj)
    simp [Pc.puts, hne] at hgoto
    omega

theorem attachimage_spec (h : attachimage s p c color = some t) :
    s.at p = .idle ∧ p < s.pc.length ∧ s.tablefree = true ∧
      t = s.goto p (.search c color (s.table (ihash c.qid.path))) := by
  rw [attachimage] at h
  split at h
  next hc => exact ⟨hc.1, hc.2.1, hc.2.2, (some.inj h).symm⟩
  next => cases h

theorem stands_path {img : Img} (h : img.stands c = true) : c.qid.path = img.qid.path := by
  rw [Img.stands, eqqid] at h
  simp only [Bool.and_eq_true, beq_iff_eq] at h
  exact h.1.1.1.1

theorem visit_spec (h : visit s p = some t) : ∃ c color i, s.at p = .search c color (some i) ∧
    (((s.image i).stands c = false ∧ t = s.goto p (.search c color (s.hash i))) ∨
      ((s.image i).stands c = true ∧ s.imagefree i = true ∧
        ∃ u, imageused s i = some u ∧ t = u.goto p (.found i color))) := by
  rw [visit] at h
  split at h
  next c color i hat =>
    refine ⟨c, color, i, hat, ?_⟩
    split at h
    next hpath =>
      refine Or.inl ⟨?_, (some.inj h).symm⟩
      rw [← Bool.not_eq_true]
      exact fun hstands => hpath (stands_path hstands)
    next =>
      split at h
      next => cases h
      next hfree =>
        rw [Bool.not_eq_false] at hfree
        split at h
        next hstands =>
          obtain ⟨u, hu, ht⟩ := map_eq_some_iff.mp h
          exact Or.inr ⟨hstands, hfree, u, hu, ht.symm⟩
        next hstands => exact Or.inl ⟨Bool.not_eq_true _ ▸ hstands, (some.inj h).symm⟩
  next => cases h

/-- The table with the Image for the file. -/
def taken (s : Sys) (i : Addr) (c : Chan) (color : Int) : Sys :=
  chain (s.set i fun img => img.become c color) i (ihash c.qid.path)

theorem choose_spec (h : choose s p = some t) :
    ∃ c color, (s.at p = .search c color none ∨ s.at p = .retry c color) ∧
      ((lruimage s = none ∧ t = s.goto p (.wait c color)) ∨
        ∃ i u, lruimage s = some i ∧ s.imagefree i = true ∧ imageused (taken s i c color) i = some u ∧
          t = u.goto p (.found i color)) := by
  have hbody : ∀ {c color}, takeimage s p c color = some t →
      (lruimage s = none ∧ t = s.goto p (.wait c color)) ∨
        ∃ i u, lruimage s = some i ∧ s.imagefree i = true ∧ imageused (taken s i c color) i = some u ∧
          t = u.goto p (.found i color) := by
    intro c color h
    rw [takeimage] at h
    split at h
    next hnone => exact Or.inl ⟨hnone, (some.inj h).symm⟩
    next i hi =>
      split at h
      next => cases h
      next hfree =>
        obtain ⟨u, hu, ht⟩ := map_eq_some_iff.mp h
        exact Or.inr ⟨i, u, hi, by rwa [Bool.not_eq_false] at hfree, hu, ht.symm⟩
  rw [choose] at h
  split at h
  next c color hat => exact ⟨c, color, Or.inl hat, hbody h⟩
  next c color hat => exact ⟨c, color, Or.inr hat, hbody h⟩
  next => cases h

theorem relock_spec (h : relock s p = some t) :
    ∃ c color, s.at p = .wait c color ∧ s.tablefree = true ∧ t = s.goto p (.retry c color) := by
  rw [relock] at h
  split at h
  next c color hat =>
    split at h
    next hfree => exact ⟨c, color, hat, hfree, (some.inj h).symm⟩
    next => cases h
  next => cases h

/-- The Image with its new segment. -/
def texted (s : Sys) (i : Addr) (color : Int) : Sys :=
  { s with
    image := update s.image i { s.image i with s := some s.seg.length, ref := (s.image i).ref + 1 }
    seg := s.seg ++ [Segment.mk 1 i color] }

/-- The Image with a reference more. -/
def more (s : Sys) (i : Addr) : Addr → Img := update s.image i { s.image i with ref := (s.image i).ref + 1 }

theorem textseg_spec {ok : Bool} (h : textseg s p ok = some t) : ∃ i color, s.at p = .found i color ∧
    (t = s.goto p .idle ∨
      ((s.image i).s = none ∧ ok = true ∧ t = (texted s i color).goto p .idle) ∨
      ∃ k g, (s.image i).s = some k ∧ s.seg[k]? = some g ∧
        t = { s with seg := s.seg.set k { g with ref := g.ref + 1 } }.goto p .idle) := by
  rw [textseg] at h
  split at h
  next i color hat =>
    refine ⟨i, color, hat, ?_⟩
    split at h
    next hnone =>
      split at h
      next hok => exact Or.inr (Or.inl ⟨hnone, hok, (some.inj h).symm⟩)
      next => exact Or.inl (some.inj h).symm
    next k hk =>
      obtain ⟨g, hg, ht⟩ := map_eq_some_iff.mp h
      exact Or.inr (Or.inr ⟨k, g, hk, hg, ht.symm⟩)
  next => cases h

/-- The Image with a reference less. -/
def less (s : Sys) (i : Addr) : Sys := s.set i fun img => { img with ref := img.ref - 1 }

theorem decref_spec (h : decref s p = some t) : ∃ i, s.at p = .put i ∧ 0 < (s.image i).ref ∧
    t = (less s i).goto p (if (s.image i).ref - 1 = 0 then .zero i else .idle) := by
  rw [decref] at h
  split at h
  next i hat =>
    split at h
    next => cases h
    next hpos =>
      refine ⟨i, hat, Nat.pos_of_ne_zero hpos, (some.inj h).symm.trans ?_⟩
      have hself : ((less s i).image i).ref = (s.image i).ref - 1 := update_field Img.ref
      change (less s i).goto p (if ((less s i).image i).ref = 0 then Pc.zero i else Pc.idle) = _
      rw [hself]
  next => cases h

theorem mark_spec (h : mark s p = some t) : ∃ i, s.at p = .zero i ∧ s.imagefree i = true ∧
    t = (s.set i fun img => { img with qid := noqid }).goto p (.marked i (ihash (s.image i).qid.path)) := by
  rw [mark] at h
  split at h
  next i hat =>
    split at h
    next => cases h
    next hfree => exact ⟨i, hat, by rwa [Bool.not_eq_false] at hfree, (some.inj h).symm⟩
  next => cases h

theorem unchain_spec (h : unchain s p = some t) : ∃ i b r, s.at p = .marked i b ∧ s.tablefree = true ∧
    ChainTable.unlink (nimage + 1) i (s.table b) s.hash = some r ∧
    t = ({ s with table := update s.table b r.1, hash := r.2 }.set i fun img => { img with c := none }).goto p
      .idle := by
  rw [unchain] at h
  split at h
  next i b hat =>
    split at h
    next => cases h
    next hfree =>
      obtain ⟨r, hr, ht⟩ := map_eq_some_iff.mp h
      exact ⟨i, b, r, hat, by rwa [Bool.not_eq_false] at hfree, hr, ht.symm⟩
  next => cases h

/-- The image of a segment whose last reference goes. -/
def untexted (s : Sys) (i k : Nat) : Addr → Img :=
  if (s.image i).s = some k then update s.image i { s.image i with s := none } else s.image

theorem putseg_spec (h : putseg s p k = some t) : ∃ g, s.seg[k]? = some g ∧ s.at p = .idle ∧ p < s.pc.length ∧
    0 < g.ref ∧
    ((1 < g.ref ∧ t = { s with seg := s.seg.set k { g with ref := g.ref - 1 } }) ∨
      (g.ref = 1 ∧ t = { s with image := untexted s g.image k, seg := s.seg.set k { g with ref := 0 },
                                pc := s.pc.set p (.put g.image) })) := by
  rw [putseg] at h
  split at h
  next => cases h
  next g hg =>
    split at h
    next => cases h
    next hc =>
      simp only [not_or, ne_eq, not_not, Nat.not_le] at hc
      obtain ⟨hat, hp, hpos, -⟩ := hc
      refine ⟨g, hg, hat, hp, Nat.pos_of_ne_zero hpos, ?_⟩
      by_cases hone : g.ref = 1
      · refine Or.inr ⟨hone, (some.inj h).symm.trans ?_⟩
        rw [hone, untexted]
        by_cases htext : (s.image g.image).s = some k
        · simp [htext, Sys.goto, Sys.set]
        · simp [htext, Sys.goto]
      · have hn : g.ref - 1 ≠ 0 := by omega
        refine Or.inl ⟨by omega, (some.inj h).symm.trans ?_⟩
        simp [hn]

theorem dupimage_spec (h : dupimage s k = some t) : ∃ g, s.seg[k]? = some g ∧ 0 < g.ref ∧
    t = { s with image := more s g.image, seg := s.seg ++ [Segment.mk 1 g.image g.color] } := by
  rw [dupimage] at h
  split at h
  next => cases h
  next g hg =>
    split at h
    next => cases h
    next hpos => exact ⟨g, hg, Nat.pos_of_ne_zero hpos, (some.inj h).symm⟩

theorem sameseg_spec (h : sameseg s k = some t) : ∃ g, s.seg[k]? = some g ∧ 0 < g.ref ∧
    t = { s with seg := s.seg.set k { g with ref := g.ref + 1 } } := by
  rw [sameseg] at h
  split at h
  next => cases h
  next g hg =>
    split at h
    next => cases h
    next hpos => exact ⟨g, hg, Nat.pos_of_ne_zero hpos, (some.inj h).symm⟩

theorem cachepage_spec {pg : Nat} (h : cachepage s pg k = some t) : ∃ g, s.seg[k]? = some g ∧ 0 < g.ref ∧
    s.page[pg]? = some none ∧
    t = { s with image := more s g.image, page := s.page.set pg (some g.image) } := by
  rw [cachepage] at h
  split at h
  next => cases h
  next g hg =>
    split at h
    next => cases h
    next hc =>
      simp only [not_or, ne_eq, not_not] at hc
      exact ⟨g, hg, Nat.pos_of_ne_zero hc.1, hc.2, (some.inj h).symm⟩

theorem uncachepage_spec {pg : Nat} (h : uncachepage s p pg = some t) : ∃ i, s.page[pg]? = some (some i) ∧
    s.at p = .idle ∧ p < s.pc.length ∧ t = { s with page := s.page.set pg none }.goto p (.put i) := by
  rw [uncachepage] at h
  split at h
  next i hpage =>
    split at h
    next hc => exact ⟨i, hpage, hc.1, hc.2, (some.inj h).symm⟩
    next => cases h
  next => cases h

/-- A process without references moves on to another step without one. -/
theorem Refs.goto (h : Refs s) (hp : s.at p ≠ .idle) (hputs : (s.at p).puts = none) (hnone : pc.puts = none)
    (himage : ∀ i, (t.image i).ref = (s.image i).ref ∧ (t.image i).s = (s.image i).s) (hseg : t.seg = s.seg)
    (hpage : t.page = s.page) (hpc : t.pc = s.pc.set p pc) : Refs t :=
  h.frame himage hseg hpage fun i => hpc ▸ goto_holds (at_lt hp) (hnone.trans hputs.symm) i

/-- **The Images keep their references** through one step. -/
theorem act_refs {op : Op} (h : Refs s) (hact : act s op = some t) : Refs t := by
  cases op with
  | attachimage p c color =>
    obtain ⟨hat, hp, -, rfl⟩ := attachimage_spec hact
    exact h.frame (fun _ => ⟨rfl, rfl⟩) rfl rfl (goto_holds hp (by rw [hat]; rfl))
  | visit p =>
    obtain ⟨c, color, i, hat, ⟨-, rfl⟩ | ⟨-, -, u, hu, rfl⟩⟩ := visit_spec hact
    · exact h.goto (by rw [hat]; nofun) (by rw [hat]; rfl) (by rfl) (fun _ => ⟨rfl, rfl⟩) rfl rfl rfl
    · obtain ⟨next, prev, mru, lru, rfl⟩ := imageused_eq hu
      exact h.goto (by rw [hat]; nofun) (by rw [hat]; rfl) (by rfl) (fun _ => ⟨rfl, rfl⟩) rfl rfl rfl
  | choose p =>
    obtain ⟨c, color, hat, hcases⟩ := choose_spec hact
    have hp : s.at p ≠ .idle := by rcases hat with hat | hat <;> rw [hat] <;> nofun
    have hputs : (s.at p).puts = none := by rcases hat with hat | hat <;> rw [hat] <;> rfl
    obtain ⟨-, rfl⟩ | ⟨i, u, -, -, hu, rfl⟩ := hcases
    · exact h.goto hp hputs (by rfl) (fun _ => ⟨rfl, rfl⟩) rfl rfl rfl
    · obtain ⟨next, prev, mru, lru, rfl⟩ := imageused_eq hu
      exact h.goto hp hputs (by rfl)
        (fun j => ⟨update_keeps Img.ref (by rfl) j, update_keeps Img.s (by rfl) j⟩) rfl rfl rfl
  | relock p =>
    obtain ⟨c, color, hat, -, rfl⟩ := relock_spec hact
    exact h.goto (by rw [hat]; nofun) (by rw [hat]; rfl) (by rfl) (fun _ => ⟨rfl, rfl⟩) rfl rfl rfl
  | textseg p ok =>
    obtain ⟨i, color, hat, rfl | ⟨hnone, -, rfl⟩ | ⟨k, g, htext, hg, rfl⟩⟩ := textseg_spec hact
    · exact h.goto (by rw [hat]; nofun) (by rw [hat]; rfl) (by rfl) (fun _ => ⟨rfl, rfl⟩) rfl rfl rfl
    · have hpc : ∀ i, (s.goto p .idle).pc.countP (Pc.holds i) = s.pc.countP (Pc.holds i) :=
        goto_holds (at_lt (by rw [hat]; nofun)) (by rw [hat]; rfl)
      have hnew : ((texted s i color).image i).ref = (s.image i).ref + 1 ∧
          ((texted s i color).image i).s = some s.seg.length := ⟨update_field Img.ref, update_field Img.s⟩
      have hold : ∀ j, j ≠ i → ((texted s i color).image j).ref = (s.image j).ref ∧
          ((texted s i color).image j).s = (s.image j).s := by
        intro j hj
        have heq : (texted s i color).image j = s.image j := update_of_ne hj _ _
        rw [heq]
        exact ⟨rfl, rfl⟩
      exact h.newseg color ⟨hnew.1, Or.inr hnew.2⟩ hold hpc
    · obtain ⟨g', hg', hpos, -⟩ := h.text i k htext
      obtain rfl := some.inj (hg.symm.trans hg')
      have hpc : ∀ i, (s.goto p .idle).pc.countP (Pc.holds i) = s.pc.countP (Pc.holds i) :=
        goto_holds (at_lt (by rw [hat]; nofun)) (by rw [hat]; rfl)
      exact h.recount hg hpos (Nat.succ_pos _) hpc
  | decref p =>
    obtain ⟨i, hat, hpos, rfl⟩ := decref_spec hact
    have hputs : (if (s.image i).ref - 1 = 0 then Pc.zero i else Pc.idle).puts = none := by
      split <;> rfl
    generalize (if (s.image i).ref - 1 = 0 then Pc.zero i else Pc.idle) = pc at *
    refine ⟨fun j => ?_, fun j k hk => ?_⟩
    · have hgoto := goto_count (at_lt (s := s) (p := p) (by rw [hat]; nofun)) pc j
      have hcount := h.count j
      rw [Pc.holds, hat, Pc.holds, hputs] at hgoto
      change ((less s i).image j).ref = _ + _ + (s.goto p pc).pc.countP _
      rw [less, set_at]
      by_cases hj : j = i
      · subst hj
        simp [Pc.puts] at hgoto
        rw [if_pos rfl]
        change (s.image j).ref - 1 = s.seg.countP _ + s.page.countP _ + _
        omega
      · have hne : (i == j) = false := beq_false_of_ne (Ne.symm hj)
        simp [Pc.puts, hne] at hgoto
        rw [if_neg hj]
        change _ = s.seg.countP _ + s.page.countP _ + _
        omega
    · have hkeep : ((less s i).image j).s = (s.image j).s := update_keeps Img.s (by rfl) j
      exact h.text j k (hkeep ▸ hk)
  | mark p =>
    obtain ⟨i, hat, -, rfl⟩ := mark_spec hact
    exact h.goto (by rw [hat]; nofun) (by rw [hat]; rfl) (by rfl)
      (fun j => ⟨update_keeps Img.ref (by rfl) j, update_keeps Img.s (by rfl) j⟩) rfl rfl rfl
  | unchain p =>
    obtain ⟨i, b, r, hat, -, -, rfl⟩ := unchain_spec hact
    exact h.goto (by rw [hat]; nofun) (by rw [hat]; rfl) (by rfl)
      (fun j => ⟨update_keeps Img.ref (by rfl) j, update_keeps Img.s (by rfl) j⟩) rfl rfl rfl
  | putseg p k =>
    obtain ⟨g, hg, hat, hp, hpos, ⟨hmore, rfl⟩ | ⟨hone, rfl⟩⟩ := putseg_spec hact
    · exact h.recount hg hpos (by omega) fun _ => rfl
    · refine h.give hp (by rw [hat]; rfl) (fun j => ?_) (fun j => ?_) fun j m hm => ?_
      · have hlost := lost_count hg hpos j
        omega
      · rw [untexted]
        split
        next => exact update_keeps Img.ref (by rfl) j
        next => rfl
      · -- the Image no longer has this segment as its text
        have hold : (s.image j).s = some m ∧ ¬(j = g.image ∧ m = k) := by
          rw [untexted] at hm
          split at hm
          next htext =>
            by_cases hj : j = g.image
            · rw [hj, update_self] at hm
              cases hm
            · rw [update_of_ne hj] at hm
              exact ⟨hm, fun hand => hj hand.1⟩
          next htext => exact ⟨hm, fun hand => htext (hand.1 ▸ hand.2 ▸ hm)⟩
        obtain ⟨f, hf, hfpos, hfj⟩ := h.text j m hold.1
        have hmk : m ≠ k := by
          rintro rfl
          obtain rfl := some.inj (hg.symm.trans hf)
          exact hold.2 ⟨hfj.symm, rfl⟩
        exact ⟨f, by rw [List.getElem?_set_ne (Ne.symm hmk), hf], hfpos, hfj⟩
  | dupimage k =>
    obtain ⟨g, hg, hpos, rfl⟩ := dupimage_spec hact
    refine h.newseg g.color ⟨?_, Or.inl ?_⟩ (fun j hj => ?_) fun _ => rfl
    · exact update_field Img.ref
    · exact update_field Img.s
    · rw [more, update_of_ne hj]
      exact ⟨rfl, rfl⟩
  | sameseg k =>
    obtain ⟨g, hg, hpos, rfl⟩ := sameseg_spec hact
    exact h.recount hg hpos (Nat.succ_pos _) fun _ => rfl
  | cachepage pg k =>
    obtain ⟨g, hg, hpos, hpage, rfl⟩ := cachepage_spec hact
    refine ⟨fun j => ?_, fun j m hm => ?_⟩
    · have hset := Tally.countP_set (d := none) (· == some j) (List.getElem?_eq_some_iff.mp hpage).1 (some g.image)
      rw [getD_eq_getElem?_getD, hpage] at hset
      have hcount := h.count j
      change (more s g.image j).ref = s.seg.countP _ + (s.page.set pg _).countP _ + s.pc.countP _
      rw [more, update_apply]
      by_cases hj : j = g.image
      · subst hj
        simp at hset
        rw [if_pos rfl]
        change (s.image g.image).ref + 1 = _
        omega
      · have hne : (g.image == j) = false := beq_false_of_ne (Ne.symm hj)
        simp [hne] at hset
        rw [if_neg hj]
        omega
    · have hkeep : (more s g.image j).s = (s.image j).s := update_keeps Img.s (by rfl) j
      exact h.text j m (hkeep ▸ hm)
  | uncachepage p pg =>
    obtain ⟨i, hpage, hat, hp, rfl⟩ := uncachepage_spec hact
    suffices hcount : ∀ j, s.seg.countP (Segment.live j) + (s.page.set pg none).countP (· == some j) +
        (if j = i then 1 else 0) = s.seg.countP (Segment.live j) + s.page.countP (· == some j) from
      h.give hp (by rw [hat]; rfl) hcount (fun _ => rfl) h.text
    intro j
    have hset := Tally.countP_set (d := none) (· == some j) (List.getElem?_eq_some_iff.mp hpage).1 none
    rw [getD_eq_getElem?_getD, hpage] at hset
    by_cases hj : j = i
    · subst hj
      simp at hset
      rw [if_pos rfl]
      omega
    · have hne : (i == j) = false := beq_false_of_ne (Ne.symm hj)
      simp [hne] at hset
      rw [if_neg hj]
      omega

/-- The table names Images that there are. -/
structure Small (s : Sys) : Prop where
  table : ∀ b i, s.table b = some i → i < nimage
  hash : ∀ i k, s.hash i = some k → k < nimage
  search : ∀ p c color i, s.at p = .search c color (some i) → i < nimage

theorem Small.frame (h : Small s) (htable : t.table = s.table) (hhash : t.hash = s.hash)
    (hpc : ∀ p c color i, t.at p = .search c color (some i) → i < nimage) : Small t :=
  ⟨htable ▸ h.table, hhash ▸ h.hash, hpc⟩

/-- A process moves on, and searches at an Image that there is if it searches. -/
theorem Small.goto (h : Small s) (hp : p < s.pc.length) (hpc : t.pc = s.pc.set p pc)
    (hpoint : ∀ c color i, pc = .search c color (some i) → i < nimage) (q : Nat) (c : Chan) (color : Int) (i : Addr)
    (hq : t.at q = .search c color (some i)) : i < nimage := by
  have hat : t.at q = if q = p then pc else s.at q := by
    rw [Sys.at, hpc]
    exact goto_at hp pc q
  rw [hat] at hq
  split at hq
  next => exact hpoint c color i hq
  next => exact h.search q c color i hq

/-- What is on a path comes from the table or from a link. -/
theorem path_small {next : Addr → Option Addr} {o : Option Addr} {l : List Addr}
    (ho : ∀ i, o = some i → i < nimage) (hnext : ∀ i k, next i = some k → k < nimage) (h : Path next o l none) :
    ∀ i ∈ l, i < nimage := by
  induction l generalizing o with
  | nil => exact fun i hi => nomatch hi
  | cons a l ih =>
    obtain ⟨ha, hrest⟩ := h
    intro i hi
    rcases List.mem_cons.mp hi with rfl | hi
    · exact ho i ha
    · exact ih (fun k => hnext a k) hrest i hi

/-- Taking an element out of a chain moves pointers only. -/
theorem unlink_small {fuel : Nat} {next : Addr → Option Addr} {o : Option Addr} {r : Option Addr × (Addr → Option Addr)}
    (ho : ∀ i, o = some i → i < nimage) (hnext : ∀ i k, next i = some k → k < nimage)
    (h : ChainTable.unlink fuel i o next = some r) :
    (∀ k, r.1 = some k → k < nimage) ∧ ∀ j k, r.2 j = some k → k < nimage := by
  obtain ⟨⟨owner, e⟩, -, rfl⟩ := map_eq_some_iff.mp h
  cases e with
  | none => exact ⟨ho, hnext⟩
  | some a =>
    cases owner with
    | none => exact ⟨hnext i, hnext⟩
    | some b =>
      refine ⟨ho, fun j k hk => ?_⟩
      change update next b (next i) j = some k at hk
      rw [update_apply] at hk
      split at hk
      next => exact hnext i k hk
      next => exact hnext j k hk

/-- **The LRU list holds every Image**, and the table only names Images, through every step. -/
theorem act_listed {op : Op} (h : Small s) (hl : Listed s) (hact : act s op = some t) : Small t ∧ Listed t := by
  have hlt : ∀ {p}, s.at p ≠ .idle → p < s.pc.length := at_lt
  cases op with
  | attachimage p c color =>
    obtain ⟨hat, hp, -, rfl⟩ := attachimage_spec hact
    have hpoint := h.table (ihash c.qid.path)
    exact ⟨h.frame rfl rfl (h.goto hp rfl fun c' color' i heq => hpoint i (Pc.search.inj heq).2.2),
      hl.frame rfl rfl rfl rfl⟩
  | visit p =>
    obtain ⟨c, color, i, hat, ⟨-, rfl⟩ | ⟨-, -, u, hu, rfl⟩⟩ := visit_spec hact
    · exact ⟨h.frame rfl rfl (h.goto (hlt (by rw [hat]; nofun)) rfl fun c' color' k heq =>
        h.hash i k (Pc.search.inj heq).2.2), hl.frame rfl rfl rfl rfl⟩
    · obtain ⟨next, prev, mru, lru, hused, hlisted⟩ := imageused_spec hl (h.search p c color i hat)
      obtain rfl := some.inj (hu.symm.trans hused)
      exact ⟨h.frame rfl rfl (h.goto (hlt (by rw [hat]; nofun)) rfl nofun), hlisted.frame rfl rfl rfl rfl⟩
  | choose p =>
    obtain ⟨c, color, hat, hcases⟩ := choose_spec hact
    have hp : p < s.pc.length := hlt (by rcases hat with hat | hat <;> rw [hat] <;> nofun)
    obtain ⟨-, rfl⟩ | ⟨i, u, hi, -, hu, rfl⟩ := hcases
    · exact ⟨h.frame rfl rfl (h.goto hp rfl nofun), hl.frame rfl rfl rfl rfl⟩
    · have hsmall := (lruimage_spec hl hi).1
      have hl' : Listed (taken s i c color) := hl.frame rfl rfl rfl rfl
      obtain ⟨next, prev, mru, lru, hused, hlisted⟩ := imageused_spec hl' hsmall
      obtain rfl := some.inj (hu.symm.trans hused)
      refine ⟨⟨fun b k hk => ?_, fun j k hk => ?_, h.goto hp rfl nofun⟩, hlisted.frame rfl rfl rfl rfl⟩
      · change update s.table _ (some i) b = some k at hk
        rw [update_apply] at hk
        split at hk
        next => exact some.inj hk ▸ hsmall
        next => exact h.table b k hk
      · change update s.hash i (s.table _) j = some k at hk
        rw [update_apply] at hk
        split at hk
        next => exact h.table _ k hk
        next => exact h.hash j k hk
  | relock p =>
    obtain ⟨c, color, hat, -, rfl⟩ := relock_spec hact
    exact ⟨h.frame rfl rfl (h.goto (hlt (by rw [hat]; nofun)) rfl nofun), hl.frame rfl rfl rfl rfl⟩
  | textseg p ok =>
    obtain ⟨i, color, hat, rfl | ⟨-, -, rfl⟩ | ⟨k, g, -, -, rfl⟩⟩ := textseg_spec hact
    all_goals
      exact ⟨h.frame rfl rfl (h.goto (hlt (by rw [hat]; nofun)) rfl nofun), hl.frame rfl rfl rfl rfl⟩
  | decref p =>
    obtain ⟨i, hat, -, rfl⟩ := decref_spec hact
    refine ⟨h.frame rfl rfl (h.goto (hlt (by rw [hat]; nofun)) rfl fun c' color' k heq => ?_),
      hl.frame rfl rfl rfl rfl⟩
    split at heq <;> cases heq
  | mark p =>
    obtain ⟨i, hat, -, rfl⟩ := mark_spec hact
    exact ⟨h.frame rfl rfl (h.goto (hlt (by rw [hat]; nofun)) rfl nofun), hl.frame rfl rfl rfl rfl⟩
  | unchain p =>
    obtain ⟨i, b, r, hat, -, hr, rfl⟩ := unchain_spec hact
    obtain ⟨hhead, hlink⟩ := unlink_small (h.table b) h.hash hr
    refine ⟨⟨fun d k hk => ?_, hlink, h.goto (hlt (by rw [hat]; nofun)) rfl nofun⟩, hl.frame rfl rfl rfl rfl⟩
    change update s.table b r.1 d = some k at hk
    rw [update_apply] at hk
    split at hk
    next => exact hhead k hk
    next => exact h.table d k hk
  | putseg p k =>
    obtain ⟨g, -, hat, hp, -, ⟨-, rfl⟩ | ⟨-, rfl⟩⟩ := putseg_spec hact
    · exact ⟨h.frame rfl rfl h.search, hl.frame rfl rfl rfl rfl⟩
    · exact ⟨h.frame rfl rfl (h.goto hp rfl nofun), hl.frame rfl rfl rfl rfl⟩
  | dupimage k =>
    obtain ⟨g, -, -, rfl⟩ := dupimage_spec hact
    exact ⟨h.frame rfl rfl h.search, hl.frame rfl rfl rfl rfl⟩
  | sameseg k =>
    obtain ⟨g, -, -, rfl⟩ := sameseg_spec hact
    exact ⟨h.frame rfl rfl h.search, hl.frame rfl rfl rfl rfl⟩
  | cachepage pg k =>
    obtain ⟨g, -, -, -, rfl⟩ := cachepage_spec hact
    exact ⟨h.frame rfl rfl h.search, hl.frame rfl rfl rfl rfl⟩
  | uncachepage p pg =>
    obtain ⟨i, -, hat, hp, rfl⟩ := uncachepage_spec hact
    exact ⟨h.frame rfl rfl (h.goto hp rfl nofun), hl.frame rfl rfl rfl rfl⟩

theorem initimage_small (npage nproc : Nat) : Small (initimage npage nproc) := by
  refine ⟨nofun, nofun, fun p c color i hat => ?_⟩
  have hidle : (initimage npage nproc).at p = .idle := by
    change (List.replicate nproc Pc.idle).getD p .idle = .idle
    rw [getD_eq_getElem?_getD, List.getElem?_replicate]
    split <;> rfl
  rw [hidle] at hat
  cases hat

end Image
