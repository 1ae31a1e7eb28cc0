import NixKernel.Mntcache

/-!
# The pages of the mount cache

The numbers of pages go round after 2³² pages, and no sooner.  As long as numbers in use are not
given again, an extent has the page it was made with or none, and what happens to other pages does
not matter to it.
-/

namespace Mntcache

open List

variable {s t : Sys} {e a : Extent} {l r : List Extent} {p q : Addr} {file data : Nat → UInt8}
  {buf : List UInt8} {i k m n o : Nat}

/-- The place of a number in the order in which they are given. -/
def place (pgno : Nat) : Nat := pgno / BIGPGSZ + 2 ^ 11 * (pgno % BIGPGSZ)

theorem nextpgno_eq (n : Nat) :
    nextpgno n = (n + 2 ^ 21) % 2 ^ 32 ∧ 2 ^ 21 ≤ (n + 2 ^ 21) % 2 ^ 32 ∨
      nextpgno n = (n + 2 ^ 21) % 2 ^ 32 + 1 ∧ (n + 2 ^ 21) % 2 ^ 32 + 1 < 2 ^ 21 ∨
      nextpgno n = 0 ∧ (n + 2 ^ 21) % 2 ^ 32 = 2 ^ 21 - 1 := by
  by_cases hhigh : (n + BIGPGSZ) % 2 ^ 32 / BIGPGSZ = 0
  · by_cases hlow : (n + BIGPGSZ) % 2 ^ 32 = BIGPGSZ - 1
    · have hnext : nextpgno n = 0 := (if_pos hhigh).trans (if_pos hlow)
      exact Or.inr (Or.inr ⟨hnext, hlow⟩)
    · have hnext : nextpgno n = (n + BIGPGSZ) % 2 ^ 32 + 1 := (if_pos hhigh).trans (if_neg hlow)
      simp only [BIGPGSZ, BIGPGSHIFT] at hnext hhigh hlow
      omega
  · have hnext : nextpgno n = (n + BIGPGSZ) % 2 ^ 32 := if_neg hhigh
    simp only [BIGPGSZ, BIGPGSHIFT] at hnext hhigh
    omega

theorem nextpgno_lt (n : Nat) : nextpgno n < 2 ^ 32 := by
  have hnext := nextpgno_eq n
  omega

theorem place_lt (h : n < 2 ^ 32) : place n < 2 ^ 32 := by
  simp only [place, BIGPGSZ, BIGPGSHIFT]
  omega

theorem place_inj (hm : m < 2 ^ 32) (hn : n < 2 ^ 32) (h : place m = place n) : m = n := by
  simp only [place, BIGPGSZ, BIGPGSHIFT] at h
  omega

/-- **The next number** has the next place. -/
theorem place_nextpgno (h : n < 2 ^ 32) : place (nextpgno n) = (place n + 1) % 2 ^ 32 := by
  simp only [place, BIGPGSZ, BIGPGSHIFT]
  rcases nextpgno_eq n with ⟨hnext, hhigh⟩ | ⟨hnext, hlow⟩ | ⟨hnext, hlast⟩
  · have hsum : nextpgno n = n + 2 ^ 21 := by omega
    have hfit : n + 2 ^ 21 < 2 ^ 32 := by omega
    rw [hsum, Nat.add_div_right n (by decide), Nat.add_mod_right]
    omega
  · have hsmall : nextpgno n < 2 ^ 21 := by omega
    have hq : n / 2 ^ 21 = 2047 := by omega
    have hr : n % 2 ^ 21 + 1 = nextpgno n := by omega
    rw [Nat.div_eq_of_lt hsmall, Nat.mod_eq_of_lt hsmall, hq]
    omega
  · have hq : n / 2 ^ 21 = 2047 := by omega
    have hr : n % 2 ^ 21 = 2 ^ 21 - 1 := by omega
    rw [hnext, hq, hr]
    rfl

theorem iterate_lt (h : n < 2 ^ 32) (k : Nat) : nextpgno^[k] n < 2 ^ 32 := by
  cases k with
  | zero => exact h
  | succ k =>
    rw [Function.iterate_succ_apply']
    exact nextpgno_lt _

theorem place_iterate (h : n < 2 ^ 32) (k : Nat) :
    place (nextpgno^[k] n) = (place n + k) % 2 ^ 32 := by
  induction k with
  | zero => exact (Nat.mod_eq_of_lt (place_lt h)).symm
  | succ k ih =>
    rw [Function.iterate_succ_apply', place_nextpgno (iterate_lt h k), ih, Nat.mod_add_mod, Nat.add_assoc]

/-- **A number comes again** after all the others. -/
theorem iterate_ne (h : n < 2 ^ 32) (hk : 0 < k) (hk' : k < 2 ^ 32) : nextpgno^[k] n ≠ n := by
  intro heq
  have hplace := place_iterate h k
  rw [heq] at hplace
  have hlt := place_lt h
  omega

theorem memmove_in (hlo : o ≤ i) (hhi : i - o < buf.length) : memmove data o buf i = buf[i - o] := by
  rw [memmove, if_pos hlo, getD_eq_getElem?_getD, List.getElem?_eq_getElem hhi, Option.getD_some]

theorem memmove_out (h : i < o ∨ o + buf.length ≤ i) : memmove data o buf i = data i := by
  rw [memmove]
  split
  next hlo =>
    rw [getD_eq_getElem?_getD, List.getElem?_eq_none (by omega), Option.getD_none]
  next => rfl

/-- `buf` is what the file has at `offset`, as far as the cache goes. -/
def Holds (file : Nat → UInt8) (buf : List UInt8) (offset : Nat) : Prop :=
  ∀ i (h : i < buf.length), offset + i < maxcache → buf[i] = file (offset + i)

theorem Holds.take (h : Holds file buf o) (n : Nat) : Holds file (buf.take n) o := by
  intro i hi hmax
  rw [getElem_take]
  exact h i (by rw [length_take] at hi; omega) hmax

theorem Holds.drop (h : Holds file buf o) (n : Nat) : Holds file (buf.drop n) (o + n) := by
  intro i hi hmax
  rw [length_drop] at hi
  rw [getElem_drop, h (n + i) (by omega) (by omega), Nat.add_assoc]

theorem bytes_holds (file : Nat → UInt8) (o n : Nat) : Holds file (bytes file o n) o := by
  intro i hi _
  simp only [bytes, getElem_map, getElem_range]

theorem memmove_holds (file : Nat → UInt8) (o : Nat) (buf : List UInt8) :
    Holds (memmove file o buf) buf o := by
  intro i hi _
  rw [memmove_in (by omega) (by omega)]
  simp only [Nat.add_sub_cancel_left]

theorem bytes_length (file : Nat → UInt8) (o n : Nat) : (bytes file o n).length = n := by
  rw [bytes, length_map, length_range]

theorem bytes_append (file : Nat → UInt8) (o m n : Nat) :
    bytes file o (m + n) = bytes file o m ++ bytes file (o + m) n := by
  rw [bytes, range_add, map_append, map_map]
  simp only [bytes, Function.comp_def, Nat.add_assoc]

/-- The extent still has its page. -/
def Sys.Live (s : Sys) (e : Extent) : Prop := e.cache ∈ s.fscache ∧ (s.page e.cache).daddr = e.bid

/-- Numbers do not mislead, and what the extents have of `file` is right. -/
structure Cached (s : Sys) (file : Nat → UInt8) (l : List Extent) : Prop where
  len : ∀ e ∈ l, 0 < e.len ∧ e.len ≤ BIGPGSZ
  own : ∀ e ∈ l, ∀ p ∈ s.fscache, (s.page p).daddr = e.bid → p = e.cache
  bids : l.Pairwise fun a b => a.bid ≠ b.bid
  data : ∀ e ∈ l, s.Live e → ∀ i < e.len, e.start + i < maxcache →
    (s.page e.cache).data i = file (e.start + i)

/-- A number that is free for an extent of `l`. -/
def Free (s : Sys) (l : List Extent) (pgno : Nat) : Prop :=
  (∀ p ∈ s.fscache, (s.page p).daddr ≠ pgno) ∧ ∀ e ∈ l, e.bid ≠ pgno

/-- **`cpage`** finds the page of the extent, if it is still there. -/
theorem cpage_eq_some (hown : ∀ p ∈ s.fscache, (s.page p).daddr = e.bid → p = e.cache) :
    s.cpage e = some p ↔ s.Live e ∧ p = e.cache := by
  rw [Sys.cpage]
  constructor
  · intro h
    obtain ⟨hbid, hlook⟩ := Option.ite_none_left_eq_some.mp h
    have hmem := mem_of_find?_eq_some hlook
    have hdaddr := List.find?_some hlook
    have hp := hown p hmem (by simpa using hdaddr)
    exact ⟨⟨hp ▸ hmem, not_not.mp hbid⟩, hp⟩
  · rintro ⟨⟨hmem, hbid⟩, rfl⟩
    rw [if_neg (not_not.mpr hbid), Sys.lookpage]
    have hfound : (s.fscache.find? fun p => (s.page p).daddr = e.bid).isSome :=
      List.find?_isSome.mpr ⟨e.cache, hmem, by simpa using hbid⟩
    obtain ⟨q, hq⟩ := Option.isSome_iff_exists.mp hfound
    have hdaddr := List.find?_some hq
    have heq := hown q (mem_of_find?_eq_some hq) (by simpa using hdaddr)
    rw [hq, heq]

theorem Cached.cpage_isSome (h : Cached s file l) (he : e ∈ l) : (s.cpage e).isSome ↔ s.Live e := by
  rw [Option.isSome_iff_exists]
  constructor
  · rintro ⟨p, hp⟩
    exact ((cpage_eq_some (h.own e he)).mp hp).1
  · exact fun hl => ⟨e.cache, (cpage_eq_some (h.own e he)).mpr ⟨hl, rfl⟩⟩

theorem Cached.sublist (h : Cached s file l) (hr : r.Sublist l) : Cached s file r where
  len := fun e he => h.len e (hr.subset he)
  own := fun e he => h.own e (hr.subset he)
  bids := h.bids.sublist hr
  data := fun e he => h.data e (hr.subset he)

theorem Cached.perm (h : Cached s file l) (hr : l.Perm r) : Cached s file r where
  len := fun e he => h.len e (hr.mem_iff.mpr he)
  own := fun e he => h.own e (hr.mem_iff.mpr he)
  bids := (hr.pairwise_iff fun hab => hab.symm).mp h.bids
  data := fun e he => h.data e (hr.mem_iff.mpr he)

theorem Cached.cons (h : Cached s file l) (hlen : 0 < e.len ∧ e.len ≤ BIGPGSZ)
    (hown : ∀ p ∈ s.fscache, (s.page p).daddr = e.bid → p = e.cache) (hbid : ∀ a ∈ l, e.bid ≠ a.bid)
    (hdata : s.Live e → ∀ i < e.len, e.start + i < maxcache →
      (s.page e.cache).data i = file (e.start + i)) : Cached s file (e :: l) where
  len := forall_mem_cons.mpr ⟨hlen, h.len⟩
  own := forall_mem_cons.mpr ⟨hown, h.own⟩
  bids := pairwise_cons.mpr ⟨hbid, h.bids⟩
  data := forall_mem_cons.mpr ⟨hdata, h.data⟩

/-- The pages of `t` are those of `s`, or none of `l`. -/
def Apart (s t : Sys) (l : List Extent) : Prop :=
  ∀ p ∈ t.fscache, (∀ e ∈ l, (t.page p).daddr ≠ e.bid) ∨ p ∈ s.fscache ∧ t.page p = s.page p

theorem Apart.live (h : Apart s t l) (he : e ∈ l) (ht : t.Live e) :
    s.Live e ∧ t.page e.cache = s.page e.cache := by
  rcases h e.cache ht.1 with hne | ⟨hmem, hpage⟩
  · exact absurd ht.2 (hne e he)
  · exact ⟨⟨hmem, hpage ▸ ht.2⟩, hpage⟩

/-- **Other pages do not matter.** -/
theorem Cached.apart (h : Cached s file l) (hpages : Apart s t l) : Cached t file l where
  len := h.len
  own := fun e he p hp hd => by
    rcases hpages p hp with hne | ⟨hmem, hpage⟩
    · exact absurd hd (hne e he)
    · exact h.own e he p hmem (hpage ▸ hd)
  bids := h.bids
  data := fun e he ht i hi hmax => by
    obtain ⟨hs, hpage⟩ := hpages.live he ht
    rw [hpage]
    exact h.data e he hs i hi hmax

/-- What is written elsewhere in the file does not matter. -/
theorem Cached.memmove (h : Cached s file l)
    (hout : ∀ e ∈ l, s.Live e → e.start + e.len ≤ o ∨ o + buf.length ≤ e.start) :
    Cached s (memmove file o buf) l where
  len := h.len
  own := h.own
  bids := h.bids
  data := fun e he hlive i hi hmax => by
    have hapart := hout e he hlive
    rw [memmove_out (by omega)]
    exact h.data e he hlive i hi hmax

theorem uncachepage_page (hq : q ≠ p) : (s.uncachepage p).page q = s.page q := by
  rw [Sys.uncachepage]
  split
  next => exact Function.update_of_ne hq _ _
  next => rfl

theorem mem_uncachepage (h : q ∈ (s.uncachepage p).fscache) : q ∈ s.fscache ∧ q ≠ p := by
  rw [Sys.uncachepage] at h
  split at h
  next =>
    obtain ⟨hmem, hne⟩ := List.mem_filter.mp h
    exact ⟨hmem, by simpa using hne⟩
  next hp => exact ⟨h, fun heq => hp (heq ▸ h)⟩

theorem uncachepage_apart (s : Sys) (p : Addr) (l : List Extent) : Apart s (s.uncachepage p) l :=
  fun _ hq => Or.inr ⟨(mem_uncachepage hq).1, uncachepage_page (mem_uncachepage hq).2⟩

theorem cachepage_other (hq : q ≠ p) : (s.cachepage p buf).page q = s.page q :=
  (Function.update_of_ne hq _ _).trans (uncachepage_page hq)

theorem mem_cachepage (h : q ∈ (s.cachepage p buf).fscache) :
    q = p ∨ q ∈ s.fscache ∧ (s.cachepage p buf).page q = s.page q := by
  rcases mem_cons.mp h with rfl | hq
  · exact Or.inl rfl
  · obtain ⟨hmem, hne⟩ := mem_uncachepage hq
    exact Or.inr ⟨hmem, cachepage_other hne⟩

theorem cachepage_page : (s.cachepage p buf).page p =
    ⟨s.pgno, Mntcache.memmove ((s.uncachepage p).page p).data 0 buf⟩ := by
  have hpgno : (s.uncachepage p).pgno = s.pgno := by
    rw [Sys.uncachepage]
    split <;> rfl
  rw [Sys.cachepage, ← hpgno]
  exact Function.update_self _ _ _

theorem cachepage_apart (hfree : ∀ e ∈ l, e.bid ≠ s.pgno) : Apart s (s.cachepage p buf) l := by
  intro q hq
  rcases mem_cachepage hq with rfl | hold
  · left
    intro e he
    rw [cachepage_page]
    exact (hfree e he).symm
  · exact Or.inr hold

end Mntcache
