import NixKernel.Pages

/-!
# The free lists and the hash over whole runs

The pages without a reference are those on the free list of their size, and the pages that
cache something those in the hash chain of their `daddr`.  In the middle of a call one page
can be in hand: it has been taken off its list, or is about to be put on it, and what its
count says does not matter.
-/

namespace Pages

open LinkList StepSystem List Option
open Function (update update_self update_of_ne)

/-- The free lists are `free`, linked both ways, counted, one for each size. -/
structure Lists (s : Pga) (free : Nat → List Addr) : Prop where
  dll : ∀ si, Dll s.next s.prev (s.pgsza si).head (s.pgsza si).tail (free si)
  count : ∀ si, (s.pgsza si).freecount = (free si).length
  home : ∀ si, ∀ p ∈ free si, (s.page p).pgszi = si

/-- The hash chains hold the pages that cache something. -/
structure Hashed (s : Pga) : Prop where
  chain : ∀ b p, p ∈ s.hash b ↔
    s.live p = true ∧ (s.page p).image ≠ none ∧ pghash (s.page p).daddr = b
  once : ∀ b, (s.hash b).Nodup

/-- **The invariant**, with the page `q` in hand, if any. -/
structure Inv (s : Pga) (free : Nat → List Addr) (q : Option Addr) : Prop where
  lists : Lists s free
  hashed : Hashed s
  mem : ∀ p, q ≠ some p →
    (p ∈ free (s.page p).pgszi ↔ s.live p = true ∧ (s.page p).ref = 0)
  out : ∀ p, q = some p → s.live p = true ∧ p ∉ free (s.page p).pgszi

variable {s t : Pga} {free : Nat → List Addr} {q : Option Addr} {p a : Addr} {si : Nat}
  {f : Page → Page}

@[simp] theorem unchain_live : (pageunchain s p).live = s.live := rfl
@[simp] theorem unchain_page : (pageunchain s p).page = s.page := rfl
@[simp] theorem unchain_hash : (pageunchain s p).hash = s.hash := rfl
@[simp] theorem chainhead_live : (pagechainhead s p).live = s.live := rfl
@[simp] theorem chainhead_page : (pagechainhead s p).page = s.page := rfl
@[simp] theorem chainhead_hash : (pagechainhead s p).hash = s.hash := rfl
@[simp] theorem chaintail_live : (pagechaintail s p).live = s.live := rfl
@[simp] theorem chaintail_page : (pagechaintail s p).page = s.page := rfl
@[simp] theorem chaintail_hash : (pagechaintail s p).hash = s.hash := rfl

@[simp] theorem set_live : (s.set p f).live = s.live := rfl

theorem set_page_self : (s.set p f).page p = f (s.page p) := update_self ..

theorem set_page_of_ne (h : a ≠ p) : (s.set p f).page a = s.page a := update_of_ne h ..

/-- One list changes, with the links of its own pages. -/
theorem Lists.replace {k : Nat} {l : List Addr} (h : Lists s free)
    (hdll : Dll t.next t.prev (t.pgsza k).head (t.pgsza k).tail l)
    (hcount : (t.pgsza k).freecount = l.length) (hhome : ∀ a ∈ l, (s.page a).pgszi = k)
    (hpage : t.page = s.page) (hsame : ∀ si, si ≠ k → t.pgsza si = s.pgsza si)
    (hlinks : ∀ a, (s.page a).pgszi ≠ k → t.next a = s.next a ∧ t.prev a = s.prev a) :
    Lists t (update free k l) := by
  constructor
  · intro si
    by_cases hsi : si = k
    · subst hsi
      rwa [update_self]
    · rw [update_of_ne hsi, hsame si hsi]
      have hother : ∀ a ∈ free si, (s.page a).pgszi ≠ k := by
        intro a ha
        rw [h.home si a ha]
        exact hsi
      exact (h.dll si).frame (fun a ha => (hlinks a (hother a ha)).1)
        (fun a ha => (hlinks a (hother a ha)).2)
  · intro si
    by_cases hsi : si = k
    · subst hsi
      rwa [update_self]
    · rw [update_of_ne hsi, hsame si hsi, h.count si]
  · intro si a ha
    rw [hpage]
    by_cases hsi : si = k
    · subst hsi
      rw [update_self] at ha
      exact hhome a ha
    · rw [update_of_ne hsi] at ha
      exact h.home si a ha

/-- A page of another size is not on the list, and not the page itself. -/
theorem Lists.ne_of_mem {k : Nat} (h : Lists s free) {b : Addr} (hb : b ∈ free k)
    (ha : (s.page a).pgszi ≠ k) : b ≠ a := by
  rintro rfl
  exact ha (h.home k b hb)

/-- A page goes off its list. -/
theorem Lists.unchain (h : Lists s free) (hp : p ∈ free (s.page p).pgszi) :
    Lists (pageunchain s p) (update free (s.page p).pgszi ((free (s.page p).pgszi).erase p)) := by
  obtain ⟨A, B, hAB⟩ := append_of_mem hp
  have hdll := h.dll (s.page p).pgszi
  have hnodup := hdll.nodup
  have hmemA : ∀ b ∈ A, b ∈ free (s.page p).pgszi := by
    intro b hb
    rw [hAB]
    exact mem_append_left _ hb
  have hmemB : ∀ b ∈ B, b ∈ free (s.page p).pgszi := by
    intro b hb
    rw [hAB]
    exact mem_append_right _ (mem_cons_of_mem _ hb)
  rw [hAB] at hdll hnodup
  have hpA : p ∉ A := by
    rw [nodup_append_comm, cons_append, nodup_cons] at hnodup
    exact fun hmem => hnodup.1 (mem_append_right _ hmem)
  have herase : (free (s.page p).pgszi).erase p = A ++ B := by
    rw [hAB, erase_append_right _ hpA, erase_cons_head]
  have hnext : s.next p = B.head? := by
    obtain ⟨m, -, -, hB⟩ := path_append.mp hdll.fwd
    exact hB.head_eq
  apply h.replace
  · simp only [pageunchain, update_self, herase]
    exact hdll.unlink
  · simp only [pageunchain, update_self, h.count, length_erase_of_mem hp]
  · exact fun a ha => h.home _ a (mem_of_mem_erase ha)
  · rfl
  · exact fun si hsi => update_of_ne hsi ..
  · intro a ha
    -- a page of another size is neither the page nor one of its neighbours
    have hne : a ≠ p := (h.ne_of_mem hp ha).symm
    have hprev : s.prev p ≠ some a := by
      intro heq
      rw [hdll.prev_eq] at heq
      exact h.ne_of_mem (hmemA a (mem_of_getLast? heq)) ha rfl
    have hnext' : s.next p ≠ some a := by
      intro heq
      rw [hnext] at heq
      exact h.ne_of_mem (hmemB a (mem_of_head? heq)) ha rfl
    simp only [pageunchain]
    rw [update_of_ne hne, store_of_ne hprev, update_of_ne hne, store_of_ne hnext']
    exact ⟨rfl, rfl⟩

/-- A page goes to the head of its list. -/
theorem Lists.chainhead (h : Lists s free) (hp : p ∉ free (s.page p).pgszi) :
    Lists (pagechainhead s p) (update free (s.page p).pgszi (p :: free (s.page p).pgszi)) := by
  have hdll := h.dll (s.page p).pgszi
  apply h.replace
  · simp only [pagechainhead, update_self]
    exact hdll.push hp
  · simp only [pagechainhead, update_self, h.count, length_cons]
  · intro a ha
    rcases mem_cons.mp ha with rfl | ha
    · rfl
    · exact h.home _ a ha
  · rfl
  · exact fun si hsi => update_of_ne hsi ..
  · intro a ha
    have hne : a ≠ p := by
      rintro rfl
      exact ha rfl
    have hhead : (s.pgsza (s.page p).pgszi).head ≠ some a := by
      intro heq
      rw [hdll.head_eq] at heq
      exact h.ne_of_mem (mem_of_head? heq) ha rfl
    simp only [pagechainhead]
    rw [update_of_ne hne, update_of_ne hne, store_of_ne hhead]
    exact ⟨rfl, rfl⟩

/-- A page goes to the tail of its list. -/
theorem Lists.chaintail (h : Lists s free) (hp : p ∉ free (s.page p).pgszi) :
    Lists (pagechaintail s p) (update free (s.page p).pgszi (free (s.page p).pgszi ++ [p])) := by
  have hdll := h.dll (s.page p).pgszi
  apply h.replace
  · simp only [pagechaintail, update_self]
    exact hdll.snoc hp
  · simp only [pagechaintail, update_self, h.count, length_append, length_singleton]
  · intro a ha
    rcases mem_append.mp ha with ha | ha
    · exact h.home _ a ha
    · rw [mem_singleton.mp ha]
  · rfl
  · exact fun si hsi => update_of_ne hsi ..
  · intro a ha
    have hne : a ≠ p := by
      rintro rfl
      exact ha rfl
    have htail : (s.pgsza (s.page p).pgszi).tail ≠ some a := by
      intro heq
      rw [hdll.mirror.head_eq] at heq
      exact h.ne_of_mem (mem_reverse.mp (mem_of_head? heq)) ha rfl
    simp only [pagechaintail]
    rw [update_of_ne hne, update_of_ne hne, store_of_ne htail]
    exact ⟨rfl, rfl⟩

/-- What a page says apart from its size does not matter to the lists. -/
theorem Lists.congr (h : Lists s free) (hnext : ∀ si, ∀ a ∈ free si, t.next a = s.next a)
    (hprev : ∀ si, ∀ a ∈ free si, t.prev a = s.prev a)
    (hpgsza : ∀ si, (t.pgsza si).head = (s.pgsza si).head ∧ (t.pgsza si).tail = (s.pgsza si).tail ∧
      (t.pgsza si).freecount = (s.pgsza si).freecount)
    (hsize : ∀ si, ∀ a ∈ free si, (t.page a).pgszi = (s.page a).pgszi) : Lists t free := by
  refine ⟨fun si => ?_, fun si => ?_, fun si a ha => ?_⟩
  · rw [(hpgsza si).1, (hpgsza si).2.1]
    exact (h.dll si).frame (hnext si) (hprev si)
  · rw [(hpgsza si).2.2, h.count si]
  · rw [hsize si a ha, h.home si a ha]

theorem Lists.set (h : Lists s free) (hsize : (f (s.page p)).pgszi = (s.page p).pgszi) :
    Lists (s.set p f) free := by
  apply h.congr
  · exact fun si a ha => rfl
  · exact fun si a ha => rfl
  · exact fun si => ⟨rfl, rfl, rfl⟩
  · intro si a ha
    by_cases hap : a = p
    · subst hap
      rw [set_page_self, hsize]
    · rw [set_page_of_ne hap]

/-- Counts and colours do not matter to the hash. -/
theorem Hashed.set (h : Hashed s) (himage : (f (s.page p)).image = (s.page p).image)
    (hdaddr : (s.page p).image = none ∨ (f (s.page p)).daddr = (s.page p).daddr) :
    Hashed (s.set p f) := by
  refine ⟨fun b a => ?_, h.once⟩
  have hsame : ((s.set p f).page a).image ≠ none ∧ pghash ((s.set p f).page a).daddr = b ↔
      (s.page a).image ≠ none ∧ pghash (s.page a).daddr = b := by
    by_cases hap : a = p
    · subst hap
      rw [set_page_self, himage]
      rcases hdaddr with hnone | hdaddr
      · simp [hnone]
      · rw [hdaddr]
    · rw [set_page_of_ne hap]
  exact (h.chain b a).trans (and_congr_right fun _ => hsame.symm)

theorem Hashed.not_mem (h : Hashed s) {b : Nat} (hp : (s.page p).image = none) : p ∉ s.hash b :=
  fun hmem => ((h.chain b p).mp hmem).2.1 hp

/-- **`uncachepage`** does not panic for a page that there is. -/
theorem uncachepage_some (h : Hashed s) (hlive : s.live p = true) :
    ∃ t, uncachepage s p = some t := by
  unfold uncachepage
  by_cases himage : (s.page p).image = none
  · exact ⟨s, by simp only [if_pos himage]⟩
  · have hmem : p ∈ s.hash (pghash (s.page p).daddr) := (h.chain _ p).mpr ⟨hlive, himage, rfl⟩
    simp only [if_neg himage, if_pos hmem]
    exact ⟨_, rfl⟩

/-- What `uncachepage` keeps. -/
structure Uncached (s t : Pga) (p : Addr) : Prop where
  live : t.live = s.live
  next : t.next = s.next
  prev : t.prev = s.prev
  pgsza : t.pgsza = s.pgsza
  image : (t.page p).image = none
  ref : ∀ a, (t.page a).ref = (s.page a).ref
  pgszi : ∀ a, (t.page a).pgszi = (s.page a).pgszi

theorem uncachepage_spec (h : Hashed s) (hrun : uncachepage s p = some t) :
    Hashed t ∧ Uncached s t p := by
  unfold uncachepage at hrun
  by_cases himage : (s.page p).image = none
  · simp only [if_pos himage] at hrun
    cases hrun
    exact ⟨h, rfl, rfl, rfl, rfl, himage, fun _ => rfl, fun _ => rfl⟩
  · simp only [if_neg himage] at hrun
    split at hrun
    next hmem =>
      cases hrun
      have hself : (s.set p fun pg => { pg with image := none, daddr := 0xffffffff }).page p =
          { s.page p with image := none, daddr := 0xffffffff } := set_page_self
      refine ⟨⟨fun b a => ?_, fun b => ?_⟩, rfl, rfl, rfl, rfl, ?_, fun a => ?_, fun a => ?_⟩
      · by_cases hap : a = p
        · subst hap
          simp only [hself, ne_eq, not_true_eq_false, false_and, and_false, iff_false]
          by_cases hb : b = pghash (s.page a).daddr
          · subst hb
            rw [update_self, (h.once _).mem_erase_iff]
            exact fun hin => hin.1 rfl
          · rw [update_of_ne hb]
            exact fun hin => hb ((h.chain b a).mp hin).2.2.symm
        · simp only [set_page_of_ne hap, set_live]
          rw [← h.chain b a]
          by_cases hb : b = pghash (s.page p).daddr
          · subst hb
            rw [update_self, mem_erase_of_ne hap]
          · rw [update_of_ne hb]
      · dsimp only
        by_cases hb : b = pghash (s.page p).daddr
        · subst hb
          rw [update_self]
          exact (h.once _).erase p
        · rw [update_of_ne hb]
          exact h.once b
      · rw [hself]
      all_goals
        by_cases hap : a = p
        · subst hap
          rw [hself]
        · simp only [set_page_of_ne hap]
    next => cases hrun

theorem cachepage_hashed {i : Nat} (h : Hashed s) (hlive : s.live p = true)
    (hrun : cachepage s p i = some t) : Hashed t := by
  unfold cachepage at hrun
  by_cases himage : (s.page p).image = none
  · simp only [himage, ne_eq, not_true_eq_false, if_false] at hrun
    cases hrun
    have hself : (s.set p fun pg => { pg with image := some i }).page p =
        { s.page p with image := some i } := set_page_self
    have hnot := fun b => h.not_mem (b := b) himage
    refine ⟨fun b a => ?_, fun b => ?_⟩
    · dsimp only
      by_cases hb : b = pghash (s.page p).daddr
      · subst hb
        rw [update_self, mem_cons]
        by_cases hap : a = p
        · subst hap
          simp [hself, hlive]
        · simp only [set_page_of_ne hap, hap, false_or]
          exact h.chain _ a
      · rw [update_of_ne hb]
        by_cases hap : a = p
        · subst hap
          simp [hself, hnot b, Ne.symm hb]
        · simp only [set_page_of_ne hap]
          exact h.chain b a
    · dsimp only
      by_cases hb : b = pghash (s.page p).daddr
      · subst hb
        rw [update_self, nodup_cons]
        exact ⟨hnot _, h.once _⟩
      · rw [update_of_ne hb]
        exact h.once b
  · simp only [ne_eq, himage, not_false_eq_true, if_true] at hrun
    cases hrun

/-- A page with a reference is taken in hand. -/
theorem Inv.grab (h : Inv s free none) (hlive : s.live p = true) (href : (s.page p).ref ≠ 0) :
    Inv s free (some p) := by
  have hmem : ∀ a, a ∈ free (s.page a).pgszi ↔ s.live a = true ∧ (s.page a).ref = 0 :=
    fun a => h.mem a (by simp)
  refine ⟨h.lists, h.hashed, fun a _ => hmem a, fun a ha => ?_⟩
  cases ha
  exact ⟨hlive, fun hin => href ((hmem p).mp hin).2⟩

/-- A page with a reference is let go. -/
theorem Inv.drop (h : Inv s free (some p)) (href : (s.page p).ref ≠ 0) : Inv s free none := by
  refine ⟨h.lists, h.hashed, fun a _ => ?_, fun a ha => by cases ha⟩
  by_cases hap : a = p
  · subst hap
    exact iff_of_false (h.out a rfl).2 fun hin => href hin.2
  · exact h.mem a (by simpa using Ne.symm hap)

/-- What is said of the page in hand may change. -/
theorem Inv.set (h : Inv s free (some p)) (hsize : (f (s.page p)).pgszi = (s.page p).pgszi)
    (himage : (f (s.page p)).image = (s.page p).image)
    (hdaddr : (s.page p).image = none ∨ (f (s.page p)).daddr = (s.page p).daddr) :
    Inv (s.set p f) free (some p) := by
  refine ⟨h.lists.set hsize, h.hashed.set himage hdaddr, fun a ha => ?_, fun a ha => ?_⟩
  · have hap : a ≠ p := by
      rintro rfl
      exact ha rfl
    rw [set_page_of_ne hap]
    exact h.mem a ha
  · cases ha
    rw [set_page_self, hsize]
    exact h.out p rfl

/-- A free page goes off its list. -/
theorem Inv.unchain (h : Inv s free none) (hlive : s.live p = true) (href : (s.page p).ref = 0) :
    ∃ free', Inv (pageunchain s p) free' (some p) := by
  have hp : p ∈ free (s.page p).pgszi := (h.mem p (by simp)).mpr ⟨hlive, href⟩
  refine ⟨_, h.lists.unchain hp, ⟨h.hashed.chain, h.hashed.once⟩, fun a ha => ?_, fun a ha => ?_⟩
  · have hap : a ≠ p := by
      rintro rfl
      exact ha rfl
    have hold := h.mem a (by simp)
    rw [unchain_page, unchain_live, ← hold]
    by_cases hsize : (s.page a).pgszi = (s.page p).pgszi
    · rw [hsize, update_self, mem_erase_of_ne hap]
    · rw [update_of_ne hsize]
  · cases ha
    refine ⟨hlive, ?_⟩
    rw [unchain_page, update_self, (h.lists.dll _).nodup.mem_erase_iff]
    exact fun hin => hin.1 rfl

/-- The page in hand goes on its list, at either end. -/
theorem Inv.chain {l : List Addr} (h : Inv s free (some p)) (href : (s.page p).ref = 0)
    (hlists : Lists t (update free (s.page p).pgszi l))
    (hl : ∀ a, a ∈ l ↔ a = p ∨ a ∈ free (s.page p).pgszi) (hlive : t.live = s.live)
    (hpage : t.page = s.page) (hhash : t.hash = s.hash) :
    Inv t (update free (s.page p).pgszi l) none := by
  refine ⟨hlists, ⟨?_, ?_⟩, fun a _ => ?_, fun a ha => by cases ha⟩
  · rw [hhash, hlive, hpage]
    exact h.hashed.chain
  · rw [hhash]
    exact h.hashed.once
  · rw [hpage, hlive]
    by_cases hap : a = p
    · subst hap
      rw [update_self, hl]
      exact iff_of_true (Or.inl rfl) ⟨(h.out a rfl).1, href⟩
    · have hold := h.mem a (by simpa using Ne.symm hap)
      rw [← hold]
      by_cases hsize : (s.page a).pgszi = (s.page p).pgszi
      · rw [hsize, update_self, hl, or_iff_right hap]
      · rw [update_of_ne hsize]

theorem Inv.chainhead (h : Inv s free (some p)) (href : (s.page p).ref = 0) :
    ∃ free', Inv (pagechainhead s p) free' none := by
  refine ⟨_, h.chain href (h.lists.chainhead (h.out p rfl).2) (fun a => ?_) rfl rfl rfl⟩
  rw [mem_cons]

theorem Inv.chaintail (h : Inv s free (some p)) (href : (s.page p).ref = 0) :
    ∃ free', Inv (pagechaintail s p) free' none := by
  refine ⟨_, h.chain href (h.lists.chaintail (h.out p rfl).2) (fun a => ?_) rfl rfl rfl⟩
  rw [mem_append, mem_singleton, or_comm]

theorem Inv.uncache (h : Inv s free q) (hrun : uncachepage s p = some t) : Inv t free q := by
  obtain ⟨hhash, hkeep⟩ := uncachepage_spec h.hashed hrun
  refine ⟨?_, hhash, fun a ha => ?_, fun a ha => ?_⟩
  · apply h.lists.congr
    · exact fun si a _ => by rw [hkeep.next]
    · exact fun si a _ => by rw [hkeep.prev]
    · exact fun si => by rw [hkeep.pgsza]; exact ⟨rfl, rfl, rfl⟩
    · exact fun si a _ => hkeep.pgszi a
  · rw [hkeep.pgszi, hkeep.live, hkeep.ref]
    exact h.mem a ha
  · rw [hkeep.pgszi, hkeep.live]
    exact h.out a ha

/-- A page that caches nothing is given back. -/
theorem Inv.pgfree (h : Inv s free (some p)) (himage : (s.page p).image = none) :
    Inv (pgfree s p) free none := by
  refine ⟨?_, ⟨fun b a => ?_, h.hashed.once⟩, fun a _ => ?_, fun a ha => by cases ha⟩
  · apply h.lists.congr
    · exact fun si a _ => rfl
    · exact fun si a _ => rfl
    · intro si
      by_cases hsi : si = (s.page p).pgszi
      · subst hsi
        simp only [Pages.pgfree, update_self, and_self]
      · simp only [Pages.pgfree, update_of_ne hsi, and_self]
    · exact fun si a _ => rfl
  · by_cases hap : a = p
    · subst hap
      refine iff_of_false (h.hashed.not_mem himage) fun hin => ?_
      exact hin.2.1 himage
    · simp only [Pages.pgfree, update_of_ne hap]
      exact h.hashed.chain b a
  · by_cases hap : a = p
    · subst hap
      simp only [Pages.pgfree, update_self, Bool.false_eq_true, false_and, iff_false]
      exact (h.out a rfl).2
    · simp only [Pages.pgfree, update_of_ne hap]
      exact h.mem a (by simpa using Ne.symm hap)

/-- A new page. -/
theorem Inv.pgalloc {color : Int} (h : Inv s free none) (hnew : s.live p = false) :
    Inv (pgalloc s si (some (p, color))).1 free none := by
  have hnot : ∀ k, p ∉ free k := by
    intro k hin
    have hsize := h.lists.home k p hin
    have hlive := (h.mem p (by simp)).mp (by rwa [hsize])
    rw [hnew] at hlive
    cases hlive.1
  have hother : ∀ k, ∀ a ∈ free k, a ≠ p := by
    rintro k a ha rfl
    exact hnot k ha
  refine ⟨?_, ⟨fun b a => ?_, h.hashed.once⟩, fun a _ => ?_, fun a ha => by cases ha⟩
  · apply h.lists.congr
    · exact fun k a ha => update_of_ne (hother k a ha) ..
    · exact fun k a ha => update_of_ne (hother k a ha) ..
    · intro k
      by_cases hk : k = si
      · subst hk
        simp only [Pages.pgalloc, update_self, and_self]
      · simp only [Pages.pgalloc, update_of_ne hk, and_self]
    · intro k a ha
      simp only [Pages.pgalloc, update_of_ne (hother k a ha)]
  · by_cases hap : a = p
    · subst hap
      simp only [Pages.pgalloc, update_self, ne_eq, not_true_eq_false, false_and, and_false, iff_false]
      intro hin
      have hlive := ((h.hashed.chain b a).mp hin).1
      rw [hnew] at hlive
      cases hlive
    · simp only [Pages.pgalloc, update_of_ne hap]
      exact h.hashed.chain b a
  · by_cases hap : a = p
    · subst hap
      simp only [Pages.pgalloc, update_self, Nat.one_ne_zero, and_false, iff_false]
      exact hnot si
    · simp only [Pages.pgalloc, update_of_ne hap]
      exact h.mem a (by simp)

/-- The lists and the hash are in order, and no page is in hand. -/
def Good (s : Pga) : Prop := ∃ free, Inv s free none

variable {i : Nat} {daddr : UInt32} {color : Int}

theorem putpage_good (h : Good s) (hlive : s.live p = true) (href : (s.page p).ref ≠ 0) :
    ∃ t, putpage s p = some t ∧ Good t := by
  obtain ⟨free, hi⟩ := h
  have hhand := (hi.grab hlive href).set (f := fun pg => { pg with ref := pg.ref - 1 }) rfl rfl
    (Or.inr rfl)
  unfold putpage
  simp only [if_neg href]
  generalize s.set p (fun pg => { pg with ref := pg.ref - 1 }) = t at hhand ⊢
  by_cases hpos : (t.page p).ref > 0
  · rw [if_pos hpos]
    exact ⟨t, rfl, free, hhand.drop (Nat.pos_iff_ne_zero.mp hpos)⟩
  · have hzero : (t.page p).ref = 0 := Nat.eq_zero_of_not_pos hpos
    rw [if_neg hpos]
    by_cases himage : (t.page p).image = none
    · rw [if_neg (not_not_intro himage)]
      split
      next => exact ⟨_, rfl, free, hhand.pgfree himage⟩
      next => exact ⟨_, rfl, hhand.chainhead hzero⟩
    · rw [if_pos himage]
      exact ⟨_, rfl, hhand.chaintail hzero⟩

theorem retake_good (h : Good s) (hlive : s.live p = true) : Good (retake s p i daddr).1 := by
  unfold retake
  split
  next => exact h
  next =>
    obtain ⟨free, hi⟩ := h
    by_cases href : (s.page p).ref = 0
    · -- the page comes off the free list again
      have hself : ((s.set p fun pg => { pg with ref := pg.ref + 1 }).page p).ref = 1 := by
        rw [set_page_self, href]
      simp only [if_pos hself]
      have hcomm : pageunchain (s.set p fun pg => { pg with ref := pg.ref + 1 }) p =
          (pageunchain s p).set p fun pg => { pg with ref := pg.ref + 1 } := by
        unfold pageunchain
        simp only [set_page_self]
        rfl
      obtain ⟨free', hhand⟩ := hi.unchain hlive href
      rw [hcomm]
      have hset := hhand.set (f := fun pg => { pg with ref := pg.ref + 1 }) rfl rfl (Or.inr rfl)
      refine ⟨free', hset.drop ?_⟩
      rw [set_page_self]
      exact Nat.succ_ne_zero _
    · have hself : ((s.set p fun pg => { pg with ref := pg.ref + 1 }).page p).ref ≠ 1 := by
        rw [set_page_self]
        simpa using href
      simp only [if_neg hself]
      have hset := (hi.grab hlive href).set (f := fun pg => { pg with ref := pg.ref + 1 }) rfl rfl
        (Or.inr rfl)
      refine ⟨free, hset.drop ?_⟩
      rw [set_page_self]
      exact Nat.succ_ne_zero _

theorem lookpage_good (h : Good s) : Good (lookpage s i daddr).1 := by
  unfold lookpage
  split
  next => exact h
  next f hf =>
    obtain ⟨free, hi⟩ := id h
    have hmem := mem_of_find?_eq_some hf
    exact retake_good h ((hi.hashed.chain _ f).mp hmem).1

/-- What is found is on the list. -/
theorem findpg_mem {fuel : Nat} {ptr : Option Addr} {l : List Addr} (hl : Path s.next ptr l none)
    (h : findpg s color fuel ptr = some p) : p ∈ l := by
  induction fuel generalizing ptr l with
  | zero => cases h
  | succ fuel ih =>
    cases ptr with
    | none => cases h
    | some a =>
      obtain ⟨rest, rfl, hrest⟩ := hl.of_some
      rw [findpg] at h
      split at h
      next =>
        cases h
        exact mem_cons_self
      next => exact mem_cons_of_mem _ (ih hrest h)

/-- The pages of a free list. -/
theorem Inv.of_mem (h : Inv s free none) (hp : p ∈ free si) :
    s.live p = true ∧ (s.page p).ref = 0 ∧ (s.page p).pgszi = si := by
  have hsize := h.lists.home si p hp
  have hmem := (h.mem p (by simp)).mp (by rwa [hsize])
  exact ⟨hmem.1, hmem.2, hsize⟩

/-- A page that is taken off its list for use caches nothing any more. -/
theorem reuse_good (h : Good s) (si : Nat) (color : Int) :
    ∃ t r, reuse s si color = some (t, r) ∧ Good t := by
  obtain ⟨free, hi⟩ := id h
  unfold reuse
  cases hfind : findpg s color (s.pgsza si).freecount (s.pgsza si).head with
  | none => exact ⟨s, none, rfl, h⟩
  | some p =>
    obtain ⟨hlive, href, -⟩ := hi.of_mem (findpg_mem (hi.lists.dll si).fwd hfind)
    obtain ⟨free', hhand⟩ := hi.unchain hlive href
    obtain ⟨t, ht⟩ := uncachepage_some hhand.hashed (p := p) hlive
    obtain ⟨-, hkeep⟩ := uncachepage_spec hhand.hashed ht
    have hnot : ¬ ((pageunchain s p).page p).ref ≠ 0 := not_not_intro href
    refine ⟨t.set p fun pg => { pg with ref := pg.ref + 1, daddr := 0xffffffff }, some p, ?_, ?_⟩
    · simp only [if_neg hnot, ht, map_some]
    · have hset := (hhand.uncache ht).set
        (f := fun pg => { pg with ref := pg.ref + 1, daddr := 0xffffffff }) rfl rfl
        (Or.inl hkeep.image)
      refine ⟨free', hset.drop ?_⟩
      rw [set_page_self]
      exact Nat.succ_ne_zero _

theorem auxpage_good (h : Good s) (si : Nat) : ∃ t r, auxpage s si = some (t, r) ∧ Good t := by
  obtain ⟨free, hi⟩ := id h
  unfold auxpage
  by_cases hfew : (s.pgsza si).freecount < Nminfree
  · exact ⟨s, none, by rw [if_pos hfew], h⟩
  · rw [if_neg hfew]
    cases hhead : (s.pgsza si).head with
    | none =>
      -- there are three pages on the list at least
      exfalso
      have hnil : free si = [] := by
        have := (hi.lists.dll si).fwd
        rw [hhead] at this
        exact this.eq_nil
      rw [hi.lists.count, hnil] at hfew
      exact hfew (by decide)
    | some p =>
      have hmem : p ∈ free si := by
        have := (hi.lists.dll si).head_eq
        rw [hhead] at this
        exact mem_of_head? this.symm
      obtain ⟨hlive, href, -⟩ := hi.of_mem hmem
      obtain ⟨free', hhand⟩ := hi.unchain hlive href
      have hnot : ¬ ((pageunchain s p).page p).ref ≠ 0 := not_not_intro href
      have hset := hhand.set (f := fun pg => { pg with ref := pg.ref + 1 }) rfl rfl (Or.inr rfl)
      obtain ⟨t, ht⟩ := uncachepage_some hset.hashed (p := p) hlive
      obtain ⟨-, hkeep⟩ := uncachepage_spec hset.hashed ht
      refine ⟨t, some p, ?_, free', (hset.uncache ht).drop ?_⟩
      · simp only [if_neg hnot, ht, map_some]
      · rw [hkeep.ref, set_page_self]
        exact Nat.succ_ne_zero _

theorem reclaim_good (busy : List Addr) (lg n sz fuel : Nat) {ptr : Option Addr} {l : List Addr}
    (h : Good s) (hl : Path s.prev ptr l none) (hlive : ∀ a ∈ l, s.live a = true) :
    ∃ t r, reclaim busy lg n sz s fuel ptr = some (t, r) ∧ Good t := by
  induction fuel generalizing s ptr l n sz with
  | zero => exact ⟨s, (n, sz), rfl, h⟩
  | succ fuel ih =>
    cases ptr with
    | none => exact ⟨s, (n, sz), rfl, h⟩
    | some p =>
      obtain ⟨rest, rfl, hrest⟩ := hl.of_some
      have hlive' : ∀ a ∈ rest, s.live a = true := fun a ha => hlive a (mem_cons_of_mem _ ha)
      rw [reclaim]
      split
      next =>
        obtain ⟨free, hi⟩ := h
        obtain ⟨t, ht⟩ := uncachepage_some hi.hashed (hlive p mem_cons_self)
        obtain ⟨-, hkeep⟩ := uncachepage_spec hi.hashed ht
        have hgood : Good t := ⟨free, hi.uncache ht⟩
        simp only [ht]
        split
        next => exact ⟨t, _, rfl, hgood⟩
        next =>
          refine ih _ _ hgood (l := rest) ?_ ?_
          · rw [hkeep.prev]
            exact hrest
          · rw [hkeep.live]
            exact hlive'
      next =>
        split
        next => exact ⟨s, (n, sz), rfl, h⟩
        next => exact ih _ _ h hrest hlive'

theorem pagereclaim_good (busy : List Addr) (lg2 : List Nat) (si n sz : Nat) (h : Good s) :
    ∃ t r, pagereclaimFrom busy si n sz s lg2 = some (t, r) ∧ Good t := by
  induction lg2 generalizing s si n sz with
  | nil => exact ⟨s, sz, rfl, h⟩
  | cons lg lg2 ih =>
    obtain ⟨free, hi⟩ := id h
    have hlive : ∀ a ∈ (free si).reverse, s.live a = true := fun a ha =>
      (hi.of_mem (mem_reverse.mp ha)).1
    obtain ⟨t, ⟨n', sz'⟩, ht, hgood⟩ := reclaim_good busy lg n sz
      (s.pgsza si).freecount h (hi.lists.dll si).bwd hlive
    rw [pagereclaimFrom]
    simp only [ht]
    exact ih _ _ _ hgood

theorem freehead_good (h : Good s) (hquiet : Quiet s (.freehead si)) :
    ∃ t, freehead s si = some t ∧ Good t := by
  obtain ⟨free, hi⟩ := id h
  unfold freehead
  cases hhead : (s.pgsza si).head with
  | none => exact ⟨s, rfl, h⟩
  | some p =>
    have hmem : p ∈ free si := by
      have := (hi.lists.dll si).head_eq
      rw [hhead] at this
      exact mem_of_head? this.symm
    obtain ⟨hlive, href, -⟩ := hi.of_mem hmem
    obtain ⟨free', hhand⟩ := hi.unchain hlive href
    have hnot : ¬ ((pageunchain s p).page p).ref ≠ 0 := not_not_intro href
    refine ⟨pgfree (pageunchain s p) p, ?_, free', hhand.pgfree (hquiet p hhead)⟩
    simp only [if_neg hnot]

theorem chain_good (h : Good s) (hlive : s.live p = true) (href : (s.page p).ref ≠ 0) :
    Good (pagechainhead (s.set p fun pg => { pg with ref := 0 }) p) := by
  obtain ⟨free, hi⟩ := h
  have hset := (hi.grab hlive href).set (f := fun pg => { pg with ref := 0 }) rfl rfl (Or.inr rfl)
  apply hset.chainhead
  rw [set_page_self]

theorem setdaddr_good (h : Good s) (himage : (s.page p).image = none) :
    Good (s.set p fun pg => { pg with daddr }) := by
  obtain ⟨free, hi⟩ := h
  refine ⟨free, hi.lists.set rfl, hi.hashed.set rfl (Or.inl himage), fun a _ => ?_, fun a ha => by cases ha⟩
  have hmem := hi.mem a (by simp)
  by_cases hap : a = p
  · subst hap
    rw [set_page_self]
    exact hmem
  · rw [set_page_of_ne hap]
    exact hmem

theorem cachepage_good (h : Good s) (hlive : s.live p = true) (hrun : cachepage s p i = some t) :
    Good t := by
  obtain ⟨free, hi⟩ := h
  have hhash := cachepage_hashed hi.hashed hlive hrun
  unfold cachepage at hrun
  by_cases himage : (s.page p).image ≠ none
  · simp only [if_pos himage] at hrun
    cases hrun
  · simp only [if_neg himage] at hrun
    cases hrun
    have hlists : Lists (s.set p fun pg => { pg with image := some i }) free := hi.lists.set rfl
    refine ⟨free, ⟨hlists.dll, hlists.count, hlists.home⟩, hhash, fun a _ => ?_, fun a ha => by cases ha⟩
    have hmem := hi.mem a (by simp)
    dsimp only
    by_cases hap : a = p
    · subst hap
      rw [set_page_self]
      exact hmem
    · rw [set_page_of_ne hap]
      exact hmem

variable {lg2 : List Nat}

theorem start_good (h : Start s) : Good s := by
  obtain ⟨hlive, hpgsza, hhash⟩ := h
  refine ⟨fun _ => [], ⟨fun si => ?_, fun si => ?_, fun si a ha => ?_⟩, ⟨fun b a => ?_, fun b => ?_⟩,
    fun a _ => ?_, fun a ha => by cases ha⟩
  · rw [hpgsza]
    exact Dll.nil
  · rw [hpgsza]
    rfl
  · cases ha
  · simp [hhash, hlive]
  · rw [hhash]
    exact nodup_nil
  · simp [hlive]

/-- **One step** keeps lists and hash in order. -/
theorem act_good (h : Good s) {op : Op} (hproper : Proper s op) (hquiet : Quiet s op)
    (hrun : act lg2 s op = some t) : Good t := by
  cases op with
  | reuse si color =>
    obtain ⟨u, r, hu, hgood⟩ := reuse_good h si color
    simp only [act, hu, map_some] at hrun
    cases hrun
    exact hgood
  | pgalloc si mem =>
    cases hrun
    cases mem with
    | none => exact h
    | some m =>
      obtain ⟨free, hi⟩ := h
      exact ⟨free, hi.pgalloc (hproper m.1 m.2 rfl)⟩
  | freehead si =>
    obtain ⟨u, hu, hgood⟩ := freehead_good h hquiet
    cases hu.symm.trans hrun
    exact hgood
  | putpage p =>
    by_cases href : (s.page p).ref = 0
    · simp only [act, putpage, if_pos href] at hrun
      cases hrun
    · obtain ⟨u, hu, hgood⟩ := putpage_good h hproper href
      cases hu.symm.trans hrun
      exact hgood
  | auxpage si =>
    obtain ⟨u, r, hu, hgood⟩ := auxpage_good h si
    simp only [act, hu, map_some] at hrun
    cases hrun
    exact hgood
  | lookpage i daddr =>
    cases hrun
    exact lookpage_good h
  | retake f i daddr =>
    cases hrun
    exact retake_good h hproper
  | cachepage p i => exact cachepage_good h hproper hrun
  | uncachepage p =>
    obtain ⟨free, hi⟩ := h
    exact ⟨free, hi.uncache hrun⟩
  | setdaddr p daddr =>
    cases hrun
    exact setdaddr_good h hproper.2
  | chain p =>
    cases hrun
    exact chain_good h hproper.1 hproper.2
  | pagereclaim busy =>
    obtain ⟨u, r, hu, hgood⟩ := pagereclaim_good busy lg2 0 0 0 h
    simp only [act, pagereclaim, hu, map_some] at hrun
    cases hrun
    exact hgood

theorem Reach.step (h : Reach lg2 s) (op : Op) (hproper : Proper s op) (hquiet : Quiet s op)
    (hrun : act lg2 s op = some t) : Reach lg2 t := h.next ⟨hproper, hquiet, hrun⟩

theorem reach_good (h : Reach lg2 s) : Good s :=
  h.invariant Good (fun _ hs => start_good hs) fun _ _ _ hgood hstep =>
    act_good hgood hstep.1 hstep.2.1 hstep.2.2

/-- What the panics of `putpage`, `cachepage` and `uncachepage` ask of their callers. -/
def Granted (s : Pga) : Op → Prop
  | .putpage p => (s.page p).ref ≠ 0
  | .cachepage p _ => (s.page p).image = none
  | .uncachepage p => s.live p = true
  | _ => True

/-- No other step panics. -/
theorem act_some (lg2 : List Nat) (h : Good s) {op : Op} (hproper : Proper s op) (hquiet : Quiet s op)
    (hgranted : Granted s op) : ∃ t, act lg2 s op = some t := by
  cases op with
  | reuse si color =>
    obtain ⟨u, r, hu, -⟩ := reuse_good h si color
    exact ⟨u, by simp only [act, hu, map_some]⟩
  | freehead si =>
    obtain ⟨u, hu, -⟩ := freehead_good h hquiet
    exact ⟨u, hu⟩
  | putpage p =>
    obtain ⟨u, hu, -⟩ := putpage_good h hproper hgranted
    exact ⟨u, hu⟩
  | auxpage si =>
    obtain ⟨u, r, hu, -⟩ := auxpage_good h si
    exact ⟨u, by simp only [act, hu, map_some]⟩
  | cachepage p i =>
    have hnot : ¬ (s.page p).image ≠ none := not_not_intro hgranted
    exact ⟨_, if_neg hnot⟩
  | uncachepage p =>
    obtain ⟨free, hi⟩ := h
    exact uncachepage_some hi.hashed hgranted
  | pagereclaim busy =>
    obtain ⟨u, r, hu, -⟩ := pagereclaim_good busy lg2 0 0 0 h
    exact ⟨u, by simp only [act, pagereclaim, hu, map_some]⟩
  | pgalloc | lookpage | retake | setdaddr | chain => exact ⟨_, rfl⟩

/-- **Free lists and image hash.**  As long as no cached page is given back by the pager, the
free list of a size holds exactly the pages of that size without a reference, linked both ways
and counted; a page that there is has an image exactly if it hangs in the chain of its `daddr`;
no page hangs in a chain twice; and no step panics for another reason than its caller's. -/
theorem pages_ok (h : Reach lg2 s) :
    (∀ si, ∃ l, Dll s.next s.prev (s.pgsza si).head (s.pgsza si).tail l ∧ l.Nodup ∧
      (s.pgsza si).freecount = l.length ∧
      ∀ p, p ∈ l ↔ s.live p = true ∧ (s.page p).ref = 0 ∧ (s.page p).pgszi = si) ∧
    (∀ p, s.live p = true →
      ((s.page p).image ≠ none ↔ p ∈ s.hash (pghash (s.page p).daddr))) ∧
    (∀ b, ∀ p ∈ s.hash b, s.live p = true ∧ pghash (s.page p).daddr = b) ∧
    (∀ b, (s.hash b).Nodup) ∧
    ∀ op, Proper s op → Quiet s op → Granted s op → ∃ t, act lg2 s op = some t ∧ Reach lg2 t := by
  have hgood := reach_good h
  obtain ⟨free, hi⟩ := id hgood
  refine ⟨fun si => ⟨free si, hi.lists.dll si, (hi.lists.dll si).nodup, hi.lists.count si,
    fun p => ⟨hi.of_mem, ?_⟩⟩, fun p hlive => ?_, fun b p hp => ?_, hi.hashed.once, ?_⟩
  · rintro ⟨hlive, href, rfl⟩
    exact (hi.mem p (by simp)).mpr ⟨hlive, href⟩
  · rw [hi.hashed.chain]
    exact ⟨fun himage => ⟨hlive, himage, rfl⟩, fun hin => hin.2.1⟩
  · obtain ⟨hlive, -, hb⟩ := (hi.hashed.chain b p).mp hp
    exact ⟨hlive, hb⟩
  · intro op hproper hquiet hgranted
    obtain ⟨t, ht⟩ := act_some lg2 hgood hproper hquiet hgranted
    exact ⟨t, ht, h.step op hproper hquiet ht⟩

/-- What `newpage` relies on is not so: memory that is had is in use, a page that is put is not there,
or a cached page is given back. -/
def Slips (s : Pga) : Op → Prop
  | .pgalloc _ mem => mem.any (fun m => s.live m.1) = true
  | .putpage p => s.live p = false
  | .freehead si => (s.pgsza si).head.any (fun p => (s.page p).image.isSome) = true
  | _ => False

instance (s : Pga) : (op : Op) → Decidable (Slips s op)
  | .pgalloc _ mem => inferInstanceAs (Decidable (mem.any (fun m => s.live m.1) = true))
  | .putpage p => inferInstanceAs (Decidable (s.live p = false))
  | .freehead si => inferInstanceAs (Decidable ((s.pgsza si).head.any (fun p => (s.page p).image.isSome) = true))
  | .reuse .. | .auxpage _ | .lookpage .. | .retake .. | .cachepage .. | .uncachepage _ | .setdaddr .. | .chain _
  | .pagereclaim _ => isFalse id

/-- The steps `ops` lead from `s` to `t`, and to a state that runs reach unless one of them slips. -/
structure Runs (lg2 : List Nat) (s : Pga) (ops : List Op) (t : Pga) : Prop where
  run : StepSystem.exec (act lg2) s ops = some t
  reach : Reach lg2 s → StepSystem.Spared (act lg2) Slips s ops → Reach lg2 t

variable {ops ops' : List Op}

theorem Runs.refl : Runs lg2 s [] s := ⟨rfl, fun h _ => h⟩

theorem Runs.trans {u : Pga} (h : Runs lg2 s ops t) (h' : Runs lg2 t ops' u) : Runs lg2 s (ops ++ ops') u := by
  refine ⟨exec_append h.run h'.run, fun hs hspared => ?_⟩
  obtain ⟨hfirst, hrest⟩ := hspared.append h.run
  exact h'.reach (h.reach hs hfirst) hrest

theorem Runs.one (op : Op) (h : act lg2 s op = some t) (hproper : ¬Slips s op → Proper s op ∧ Quiet s op) :
    Runs lg2 s [op] t := by
  refine ⟨by rw [StepSystem.exec, h, bind_some, StepSystem.exec], fun hs hspared => ?_⟩
  obtain ⟨hp, hq⟩ := hproper hspared.1
  exact hs.step op hp hq h

theorem Runs.pgalloc (mem : Option (Addr × Int)) : Runs lg2 s [.pgalloc si mem] (pgalloc s si mem).1 := by
  refine Runs.one _ rfl fun hslips => ⟨fun p color hmem => ?_, trivial⟩
  rw [Slips, hmem] at hslips
  exact Bool.eq_false_of_not_eq_true hslips

theorem Runs.putpage {p : Addr} (h : Pages.putpage s p = some t) : Runs lg2 s [.putpage p] t :=
  Runs.one _ h fun hslips => ⟨Bool.eq_true_of_not_eq_false hslips, trivial⟩

theorem Runs.freehead (h : Pages.freehead s si = some t) : Runs lg2 s [.freehead si] t := by
  refine Runs.one _ h fun hslips => ⟨trivial, fun p hhead => ?_⟩
  rw [Slips, hhead] at hslips
  exact Option.not_isSome_iff_eq_none.mp hslips

/-- The steps of `freepages`. -/
def freepagesOps (once : Bool) (si : Nat) : Nat → Pga → List Op
  | 0, _ => []
  | n + 1, s =>
    if (s.pgsza si).freecount > 0 then
      match Pages.freehead s si with
      | none => []
      | some s => if once then [.freehead si] else [.freehead si] ++ freepagesOps once (si + 1) n s
    else freepagesOps once (si + 1) n s

/-- The steps of `tryalloc`. -/
def tryallocOps (si : Nat) (mem : Option (Addr × Int)) : List Op :=
  [.pgalloc si mem] ++ mem.toList.map fun m => .putpage m.1

/-- The steps of `kickfree`. -/
def kickfreeOps (lg2 : List Nat) (si : Nat) (k : Kick) (s : Pga) : List Op :=
  match freepages true (si + 1) (lg2.length - (si + 1)) s with
  | none => []
  | some s₁ =>
    freepagesOps true (si + 1) (lg2.length - (si + 1)) s ++ tryallocOps si k.mem₂ ++
      match tryalloc s₁ si k.mem₂ with
      | some (s₂, false) => freepagesOps false 0 lg2.length s₂ ++ tryallocOps si k.mem₃
      | _ => []

/-- The steps of `kickpager`. -/
def kickpagerOps (lg2 : List Nat) (si : Nat) (k : Kick) (s : Pga) : List Op :=
  if 2 ^ lg2.getD si 0 ≤ 2 * MiB then
    match (k.text.foldlM Pages.putpage s).bind fun s => tryalloc s si k.mem₁ with
    | none => []
    | some (s₁, ok) =>
      k.text.map .putpage ++ tryallocOps si k.mem₁ ++ if ok then [] else kickfreeOps lg2 si k s₁
  else kickfreeOps lg2 si k s

/-- The steps of a call of `newpage`. -/
def newpageOps (lg2 : List Nat) (si : Nat) (seg : Bool) (i : Nat) (color : Int) (s : Pga) :
    List (Option (Addr × Int) × Kick) → List Op
  | [] => []
  | (mem, k) :: turns =>
    let color := if i > 3 then NOCOLOR else color
    [.reuse si color] ++
      match reuse s si color with
      | some (s, none) =>
        [.pgalloc si mem] ++
          match Pages.pgalloc s si mem with
          | (_, some p) => [.setdaddr p 0xffffffff]
          | (s, none) =>
            kickpagerOps lg2 si k s ++
              match kickpager lg2 si color k s with
              | some s => if seg then [] else newpageOps lg2 si seg (i + 1) color s turns
              | none => []
      | _ => []

theorem freepages_runs {once : Bool} {n : Nat} (h : freepages once si n s = some t) :
    Runs lg2 s (freepagesOps once si n s) t := by
  induction n generalizing s si with
  | zero =>
    cases h
    exact Runs.refl
  | succ n ih =>
    rw [freepages] at h
    rw [freepagesOps]
    by_cases hfull : (s.pgsza si).freecount > 0
    · rw [if_pos hfull] at h ⊢
      cases hfree : Pages.freehead s si with
      | none =>
        rw [hfree] at h
        cases h
      | some u =>
        simp only [hfree] at h ⊢
        have hone : Runs lg2 s [.freehead si] u := Runs.freehead hfree
        by_cases honce : once = true
        · rw [if_pos honce] at h ⊢
          cases h
          exact hone
        · rw [if_neg honce] at h ⊢
          exact hone.trans (ih h)
    · rw [if_neg hfull] at h ⊢
      exact ih h

theorem tryalloc_runs {mem : Option (Addr × Int)} {ok : Bool} (h : tryalloc s si mem = some (t, ok)) :
    Runs lg2 s (tryallocOps si mem) t := by
  have halloc : Runs lg2 s [.pgalloc si mem] (Pages.pgalloc s si mem).1 := Runs.pgalloc mem
  unfold tryalloc at h
  cases mem with
  | none =>
    cases h
    exact halloc
  | some m =>
    obtain ⟨u, hu, heq⟩ := map_eq_some_iff.mp h
    cases heq
    exact halloc.trans (Runs.putpage hu)

theorem puttext_runs {text : List Addr} (h : text.foldlM Pages.putpage s = some t) :
    Runs lg2 s (text.map .putpage) t := by
  induction text generalizing s with
  | nil =>
    cases h
    exact Runs.refl
  | cons p text ih =>
    rw [foldlM_cons] at h
    obtain ⟨u, hu, hrest⟩ := bind_eq_some_iff.mp h
    exact (Runs.putpage hu).trans (ih hrest)

theorem kickfree_runs {k : Kick} (h : kickfree lg2 si color k s = some t) :
    Runs lg2 s (kickfreeOps lg2 si k s) t := by
  obtain ⟨s₁, h₁, h⟩ := bind_eq_some_iff.mp h
  obtain ⟨⟨s₂, ok⟩, h₂, h⟩ := bind_eq_some_iff.mp h
  have hrun := (freepages_runs h₁ : Runs lg2 _ _ _).trans (tryalloc_runs h₂)
  rw [kickfreeOps]
  simp only [h₁, h₂]
  cases ok with
  | true =>
    cases h
    rw [append_nil]
    exact hrun
  | false =>
    obtain ⟨s₃, h₃, h⟩ := bind_eq_some_iff.mp h
    obtain ⟨⟨s₄, ok'⟩, h₄, h⟩ := bind_eq_some_iff.mp h
    have hrun' := hrun.trans ((freepages_runs h₃).trans (tryalloc_runs h₄))
    dsimp only at h
    split at h
    next =>
      cases h
      exact hrun'
    next => cases h

theorem kickpager_runs {k : Kick} (h : kickpager lg2 si color k s = some t) :
    Runs lg2 s (kickpagerOps lg2 si k s) t := by
  unfold kickpager at h
  rw [kickpagerOps]
  by_cases hsmall : 2 ^ lg2.getD si 0 ≤ 2 * MiB
  · rw [if_pos hsmall] at h ⊢
    obtain ⟨s₁, h₁, h⟩ := bind_eq_some_iff.mp h
    obtain ⟨⟨s₂, ok⟩, h₂, h⟩ := bind_eq_some_iff.mp h
    have hrun := (puttext_runs h₁ : Runs lg2 _ _ _).trans (tryalloc_runs h₂)
    simp only [h₁, bind_some, h₂]
    cases ok with
    | true =>
      cases h
      rw [if_pos rfl, append_nil]
      exact hrun
    | false =>
      rw [if_neg Bool.false_ne_true]
      exact hrun.trans (kickfree_runs h)
  · rw [if_neg hsmall] at h ⊢
    exact kickfree_runs h

/-- The page that has been made caches nothing. -/
theorem setdaddr_runs (m : Addr × Int) :
    Runs lg2 s [.pgalloc si (some m), .setdaddr m.1 0xffffffff]
      ((Pages.pgalloc s si (some m)).1.set m.1 fun pg => { pg with daddr := 0xffffffff }) := by
  have halloc : Runs lg2 s [.pgalloc si (some m)] (Pages.pgalloc s si (some m)).1 := Runs.pgalloc _
  refine halloc.trans (Runs.one (.setdaddr m.1 0xffffffff) rfl fun _ => ⟨⟨?_, ?_⟩, trivial⟩)
  · exact Function.update_self m.1 true s.live
  · change (Function.update s.page m.1 _ m.1).image = none
    rw [Function.update_self]

theorem newpageFrom_runs {seg : Bool} {turns : List (Option (Addr × Int) × Kick)} {r : Result}
    (h : newpageFrom lg2 si seg i color s turns = some (t, r)) : Runs lg2 s (newpageOps lg2 si seg i color s turns) t := by
  induction turns generalizing s i color with
  | nil =>
    cases h
    exact Runs.refl
  | cons turn turns ih =>
    obtain ⟨mem, k⟩ := turn
    rw [newpageFrom] at h
    rw [newpageOps]
    obtain ⟨⟨s₁, found⟩, h₁, h⟩ := bind_eq_some_iff.mp h
    have hreuse : Runs lg2 s [.reuse si (if i > 3 then NOCOLOR else color)] s₁ := by
      refine Runs.one _ ?_ fun _ => ⟨trivial, trivial⟩
      rw [act, h₁, map_some]
    simp only [h₁]
    cases found with
    | some p =>
      cases h
      rw [append_nil]
      exact hreuse
    | none =>
      cases mem with
      | some m =>
        cases h
        exact hreuse.trans (setdaddr_runs m)
      | none =>
        have halloc : Runs lg2 s₁ [.pgalloc si none] s₁ := Runs.pgalloc none
        obtain ⟨s₂, h₂, h⟩ := bind_eq_some_iff.mp h
        have hkick := kickpager_runs h₂
        simp only [Pages.pgalloc, h₂]
        by_cases hseg : seg = true
        · rw [if_pos hseg] at h ⊢
          cases h
          rw [append_nil]
          exact hreuse.trans (halloc.trans hkick)
        · rw [if_neg hseg] at h ⊢
          exact hreuse.trans (halloc.trans (hkick.trans (ih h)))

/-- **A call of `newpage` is made of the steps**, and unless one of them slips it leaves a state that
runs reach. -/
theorem newpage_runs {seg : Bool} {size si : Nat} {turns : List (Option (Addr × Int) × Kick)} {r : Result}
    (hsize : getpgszi lg2 size = some si) (h : newpage lg2 s seg size color turns = some (t, r)) :
    StepSystem.exec (act lg2) s (newpageOps lg2 si seg 0 color s turns) = some t ∧
      (Reach lg2 s → StepSystem.Spared (act lg2) Slips s (newpageOps lg2 si seg 0 color s turns) → Reach lg2 t) := by
  unfold newpage at h
  rw [hsize] at h
  have hruns := newpageFrom_runs h
  exact ⟨hruns.run, hruns.reach⟩

/-- No pages. -/
def noPages : Pga :=
  ⟨fun _ => false, fun _ => ⟨0, 0, 0, 0, none⟩, fun _ => none, fun _ => none,
    fun _ => ⟨none, none, 0, 0⟩, fun _ => []⟩

/-- What a call finds that wants a page of 2M in another colour: there is no memory until the pager has
given a free page back. -/
def lowMemory : List (Option (Addr × Int) × Kick) :=
  [(none, ⟨[], none, none, some (8, 0)⟩), (none, ⟨[], none, none, none⟩)]

/-- The free page is given back, and the call returns the page that is had for it. -/
theorem newpage_runs_pager : ∃ s t, Reach [12, 21] s ∧ s.live 7 = true ∧
    newpage [12, 21] s false (2 ^ 21) 0 lowMemory = some (t, .page 8) ∧ t.live 7 = false ∧ Reach [12, 21] t := by
  have hstart : Reach [12, 21] noPages := Reach.start ⟨fun _ => rfl, fun _ => rfl, fun _ => rfl⟩
  have halloc := hstart.step (.pgalloc 1 (some (7, 1))) (fun _ _ _ => rfl) trivial rfl
  have hs := halloc.step (.putpage 7) rfl trivial rfl
  have hcall : ∀ {s t : Pga}, newpage [12, 21] s false (2 ^ 21) 0 lowMemory = some (t, .page 8) → Reach [12, 21] s →
      StepSystem.Spared (act [12, 21]) Slips s (newpageOps [12, 21] 1 false 0 0 s lowMemory) → Reach [12, 21] t :=
    fun hpage => (newpage_runs rfl hpage).2
  exact ⟨_, _, hs, rfl, rfl, rfl, hcall rfl hs (by decide)⟩

/-- A page of 2M that caches a piece of image 5 and is put on the free list. -/
def cachedPage : List Op := [.pgalloc 1 (some (7, 1)), .setdaddr 7 0x2000, .cachepage 7 5, .putpage 7]

/-- Such a page is found again. -/
theorem pages_ok_cached : ∃ s, Reach [12, 21] s ∧ (s.page 7).ref = 0 ∧
    7 ∈ s.hash (pghash (s.page 7).daddr) ∧ ∃ t, act [12, 21] s (.lookpage 5 0x2000) = some t ∧
    Reach [12, 21] t ∧ (t.page 7).ref = 1 ∧ (t.pgsza 1).freecount = 0 := by
  have hstart : Reach [12, 21] noPages := Reach.start ⟨fun _ => rfl, fun _ => rfl, fun _ => rfl⟩
  have halloc := hstart.step (.pgalloc 1 (some (7, 1))) (fun _ _ _ => rfl) trivial rfl
  have hdaddr := halloc.step (.setdaddr 7 0x2000) ⟨rfl, rfl⟩ trivial rfl
  have hcached := hdaddr.step (.cachepage 7 5) rfl trivial rfl
  have hs := hcached.step (.putpage 7) rfl trivial rfl
  obtain ⟨-, himage, -, -, hnext⟩ := pages_ok hs
  obtain ⟨t, ht, hreach'⟩ := hnext (.lookpage 5 0x2000) trivial trivial trivial
  refine ⟨_, hs, rfl, (himage 7 rfl).mp (by decide), t, ht, hreach', ?_⟩
  cases ht
  exact ⟨rfl, rfl⟩

/-- A process wants a page of another colour, and there is no memory.  The pager gives the
cached page back, its memory is had again, and the page that `newpage` returns hangs in a hash
chain although it caches nothing. -/
theorem freed_page_hashed : ∃ s t,
    StepSystem.exec (act [12, 21]) noPages cachedPage = some s ∧
    newpage [12, 21] s false (2 ^ 21) 0 [(none, ⟨[], none, none, some (7, 0)⟩), (none, ⟨[], none, none, none⟩)] =
      some (t, .page 7) ∧
    t.live 7 = true ∧ (t.page 7).image = none ∧ 7 ∈ t.hash (pghash 0x2000) :=
  ⟨_, _, rfl, rfl, rfl, rfl, by decide⟩

end Pages
