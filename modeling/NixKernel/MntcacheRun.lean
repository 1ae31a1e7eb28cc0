import NixKernel.MntcachePages

/-!
# Coherence of the mount cache

The list of extents is sorted, and an extent that has its page ends before the next one begins.
-/

namespace Mntcache

open List Option
open Function (update update_self update_of_ne)

variable {s t : Sys} {e a p : Extent} {l r before after chain : List Extent} {q : Addr}
  {file : Nat → UInt8} {buf : List UInt8} {pages rest : List Addr} {i k n o off offset : Nat}

/-- `a` comes before `b`. -/
def Before (s : Sys) (a b : Extent) : Prop :=
  a.start < b.start ∧ (s.Live a → a.start + a.len ≤ b.start)

/-- What `cchain` does not touch. -/
structure Frame (s t : Sys) : Prop where
  cdev : s.cdev → t.cdev
  file : t.file = s.file
  pgno : s.pgno < 2 ^ 32 → t.pgno < 2 ^ 32

/-- What a chain from `offset` must be. -/
structure Chain (chain : List Extent) (offset n : Nat) : Prop where
  within : ∀ e ∈ chain, offset ≤ e.start ∧ e.start + e.len ≤ offset + n
  apart : chain.Pairwise fun a b => a.start < b.start ∧ a.start + a.len ≤ b.start

theorem cachepage_pgno (s : Sys) (q : Addr) (buf : List UInt8) :
    (s.cachepage q buf).pgno = nextpgno s.pgno := by
  simp only [Sys.cachepage, Sys.uncachepage]
  split <;> rfl

theorem cachepage_frame (s : Sys) (q : Addr) (buf : List UInt8) : Frame s (s.cachepage q buf) where
  cdev := fun h => by
    simp only [Sys.cachepage, Sys.uncachepage]
    split <;> exact h
  file := by
    simp only [Sys.cachepage, Sys.uncachepage]
    split <;> rfl
  pgno := fun _ => by
    rw [cachepage_pgno]
    exact nextpgno_lt _

/-- **A new extent** for a piece of the file. -/
theorem Cached.cachepage (h : Cached s file l) (hfree : Free s l s.pgno) (hbuf : Holds file buf offset)
    (hpos : buf ≠ []) (hlen : buf.length ≤ BIGPGSZ) :
    Cached (s.cachepage q buf) file (⟨s.pgno, offset, buf.length, q⟩ :: l) := by
  refine (h.apart (cachepage_apart hfree.2)).cons ⟨length_pos_iff.mpr hpos, hlen⟩ ?_ ?_ ?_
  · intro q' hq' hdaddr
    rcases mem_cachepage hq' with rfl | ⟨hmem, hpage⟩
    · rfl
    · exact absurd (hpage ▸ hdaddr) (hfree.1 q' hmem)
  · exact fun a ha => (hfree.2 a ha).symm
  · intro _ i hi hmax
    have hi' : i < buf.length := hi
    rw [cachepage_page]
    exact (memmove_in (Nat.zero_le i) hi').trans (hbuf i hi' hmax)

/-- The numbers after the next one are free when it has been taken. -/
theorem Free.next (h : Free s l (nextpgno^[k + 1] s.pgno)) (hpgno : s.pgno < 2 ^ 32)
    (hk : k + 1 < 2 ^ 32) :
    Free (s.cachepage q buf) (⟨s.pgno, offset, n, q⟩ :: l)
      (nextpgno^[k] (s.cachepage q buf).pgno) := by
  have hnumber : nextpgno^[k] (s.cachepage q buf).pgno = nextpgno^[k + 1] s.pgno := by
    rw [cachepage_pgno, Function.iterate_succ_apply]
  rw [hnumber]
  have hne : s.pgno ≠ nextpgno^[k + 1] s.pgno := (iterate_ne hpgno (Nat.succ_pos k) hk).symm
  constructor
  · intro q' hq'
    rcases mem_cachepage hq' with rfl | ⟨hmem, hpage⟩
    · rw [cachepage_page]
      exact hne
    · rw [hpage]
      exact h.1 q' hmem
  · exact forall_mem_cons.mpr ⟨hne, h.2⟩

/-- **`cchain`** puts what it can of the buffer into new extents. -/
theorem cchain_spec (pages : List Addr) (s : Sys) (buf : List UInt8) (offset : Nat) (l : List Extent)
    (h : Cached s file l) (hpgno : s.pgno < 2 ^ 32) (hpages : pages.length < 2 ^ 32)
    (hfree : ∀ k < pages.length, Free s l (nextpgno^[k] s.pgno)) (hbuf : Holds file buf offset) :
    ∃ chain t rest, s.cchain pages buf offset = (chain, t, rest) ∧ Cached t file (chain ++ l) ∧
      (∀ e ∈ l, t.Live e → s.Live e) ∧ Chain chain offset buf.length ∧ Frame s t := by
  induction pages generalizing s buf offset l with
  | nil =>
    refine ⟨[], s, [], ?_, h, fun e _ he => he, ⟨fun e he => absurd he not_mem_nil,
      List.Pairwise.nil⟩, ⟨fun h => h, rfl, fun h => h⟩⟩
    cases buf <;> rfl
  | cons q pages ih =>
    cases buf with
    | nil =>
      exact ⟨[], s, q :: pages, rfl, h, fun e _ he => he, ⟨fun e he => absurd he not_mem_nil,
        List.Pairwise.nil⟩, ⟨fun h => h, rfl, fun h => h⟩⟩
    | cons b buf =>
      let n := min (b :: buf).length BIGPGSZ
      have hn : 0 < n := Nat.lt_min.mpr ⟨Nat.succ_pos _, by decide⟩
      have hle : n ≤ (b :: buf).length := Nat.min_le_left _ _
      have htake : ((b :: buf).take n).length = n := by
        rw [length_take]
        exact Nat.min_eq_left hle
      have hpiece : (b :: buf).take n ≠ [] := fun hnil => by
        rw [hnil] at htake
        exact absurd htake (Nat.ne_of_lt hn)
      have hfirst : Cached (s.cachepage q ((b :: buf).take n)) file (⟨s.pgno, offset, n, q⟩ :: l) := by
        have hnew := h.cachepage (q := q) (hfree 0 (Nat.succ_pos _)) (hbuf.take n) hpiece
          (by rw [htake]; exact Nat.min_le_right _ _)
        rwa [htake] at hnew
      have hframe := cachepage_frame s q ((b :: buf).take n)
      obtain ⟨chain, t, rest, hrun, hcached, hlive, hchain, ht⟩ := ih
        (s.cachepage q ((b :: buf).take n)) ((b :: buf).drop n) (offset + n) (⟨s.pgno, offset, n, q⟩ :: l)
        hfirst (hframe.pgno hpgno) (Nat.lt_of_succ_lt hpages)
        (fun k hk => (hfree (k + 1) (Nat.succ_lt_succ hk)).next hpgno
          (Nat.lt_of_lt_of_le (Nat.succ_lt_succ hk) (Nat.le_of_lt hpages)))
        (hbuf.drop n)
      refine ⟨⟨s.pgno, offset, n, q⟩ :: chain, t, rest, ?_, ?_, ?_, ⟨?_, ?_⟩, ?_⟩
      · rw [Sys.cchain]
        simp only [n] at hrun ⊢
        rw [hrun]
      · exact hcached.perm perm_middle
      · intro e he ht
        have hold := hlive e (mem_cons_of_mem _ he) ht
        exact ((cachepage_apart (hfree 0 (Nat.succ_pos _)).2).live he hold).1
      · intro e he
        rcases mem_cons.mp he with rfl | he
        · exact ⟨Nat.le_refl _, Nat.add_le_add_left hle _⟩
        · have hin := hchain.within e he
          rw [length_drop] at hin
          omega
      · refine pairwise_cons.mpr ⟨fun e he => ?_, hchain.apart⟩
        have hin := hchain.within e he
        change offset < e.start ∧ offset + n ≤ e.start
        omega
      · exact ⟨fun hd => ht.cdev (hframe.cdev hd), ht.file.trans hframe.file,
          fun hp => ht.pgno (hframe.pgno hp)⟩

/-- The pages that `cchain` takes have something to hold. -/
theorem cchain_taken (pages : List Addr) (s : Sys) (buf : List UInt8) (offset : Nat) :
    pages.length ≤ (s.cchain pages buf offset).2.2.length + buf.length := by
  induction pages generalizing s buf offset with
  | nil => exact Nat.zero_le _
  | cons q pages ih =>
    cases buf with
    | nil => exact Nat.le_refl _
    | cons b buf =>
      have hrest := ih (s.cachepage q ((b :: buf).take (min (b :: buf).length BIGPGSZ)))
        ((b :: buf).drop (min (b :: buf).length BIGPGSZ)) (offset + min (b :: buf).length BIGPGSZ)
      have hn : 0 < min (b :: buf).length BIGPGSZ := Nat.lt_min.mpr ⟨Nat.succ_pos _, by decide⟩
      rw [length_drop] at hrest
      have hle : min (b :: buf).length BIGPGSZ ≤ (b :: buf).length := Nat.min_le_left _ _
      change pages.length + 1 ≤ ((s.cachepage q _).cchain pages _ _).2.2.length + (b :: buf).length
      omega

/-- What holds after each call. -/
structure Inv (s : Sys) : Prop where
  cdev : s.cdev
  pgno : s.pgno < 2 ^ 32
  cached : Cached s s.file s.list
  order : s.list.Pairwise (Before s)

/-- A call that takes all the pages it is given keeps the invariant. -/
def Sound (r : Sys × List Addr) : Prop := r.2 = [] → Inv r.1

/-- The numbers for `pages` are free. -/
def Ready (s : Sys) (l : List Extent) (pages : List Addr) : Prop :=
  ∀ k < pages.length, Free s l (nextpgno^[k] s.pgno)

theorem Ready.sublist (h : Ready s l pages) (hr : r.Sublist l) : Ready s r pages :=
  fun k hk => ⟨(h k hk).1, fun e he => (h k hk).2 e (hr.subset he)⟩

/-- **Linking a chain in** between two pieces of the list that leave room for it. -/
theorem link_spec (hcdev : s.cdev) (hpgno : s.pgno < 2 ^ 32) (hc : Cached s s.file (before ++ after))
    (horder : (before ++ after).Pairwise (Before s)) (hready : Ready s (before ++ after) pages)
    (hbuf : Holds s.file buf offset) (hlen : buf.length < 2 ^ 31)
    (hbefore : buf ≠ [] → ∀ e ∈ before, e.start < offset ∧ (s.Live e → e.start + e.len ≤ offset))
    (hafter : ∀ e ∈ after, offset + buf.length ≤ e.start) :
    Sound (s.link before after buf offset pages) := by
  intro hrest
  have htaken := cchain_taken pages s buf offset
  have hpages : pages.length < 2 ^ 32 := by
    have hnone : (s.cchain pages buf offset).2.2 = [] := hrest
    rw [hnone, length_nil] at htaken
    omega
  obtain ⟨chain, t, rest, hrun, hcached, hlive, hchain, hframe⟩ :=
    cchain_spec pages s buf offset (before ++ after) hc hpgno hpages hready hbuf
  rw [Sys.link, hrun]
  have hmid : (chain ++ (before ++ after)).Perm (before ++ chain ++ after) := by
    rw [← append_assoc]
    exact List.perm_append_comm.append_right after
  have hcached' := hcached.perm hmid
  obtain ⟨hob, hoa, hoba⟩ := pairwise_append.mp horder
  have hold : ∀ e ∈ before ++ after, ∀ f, Before s e f → Before t e f := fun e he f hef =>
    ⟨hef.1, fun ht => hef.2 (hlive e he ht)⟩
  have hmem : ∀ e ∈ before, e ∈ before ++ after := fun e he => mem_append_left after he
  have hchain' : ∀ e ∈ chain, e.start < e.start + e.len ∧ offset ≤ e.start ∧
      e.start + e.len ≤ offset + buf.length := by
    intro e he
    have hpos := (hcached.len e (mem_append_left _ he)).1
    exact ⟨Nat.lt_add_of_pos_right hpos, hchain.within e he⟩
  rw [← hframe.file] at hcached'
  refine ⟨hframe.cdev hcdev, hframe.pgno hpgno, { hcached' with }, ?_⟩
  refine pairwise_append.mpr ⟨pairwise_append.mpr ⟨?_, ?_, ?_⟩, ?_, ?_⟩
  · exact hob.imp_of_mem fun he _ hef => hold _ (hmem _ he) _ hef
  · exact hchain.apart.imp fun hef => ⟨hef.1, fun _ => hef.2⟩
  · intro e he f hf
    obtain ⟨hpos, hlo, hhi⟩ := hchain' f hf
    have hne : buf ≠ [] := by
      rintro rfl
      rw [length_nil] at hhi
      omega
    obtain ⟨hstart, hend⟩ := hbefore hne e he
    exact ⟨Nat.lt_of_lt_of_le hstart hlo, fun ht => Nat.le_trans (hend (hlive e (hmem e he) ht)) hlo⟩
  · exact hoa.imp_of_mem fun he _ hef => hold _ (mem_append_right before he) _ hef
  · intro e he f hf
    rcases mem_append.mp he with he | he
    · exact hold e (hmem e he) f (hoba e he f hf)
    · obtain ⟨hpos, -, hhi⟩ := hchain' e he
      have hf' := Nat.le_trans hhi (hafter f hf)
      exact ⟨Nat.lt_of_lt_of_le hpos hf', fun _ => hf'⟩

/-- **Packing** into an extent that has its page: the bytes written are the file's, and those
around them still are. -/
theorem pack_spec {old : Nat → UInt8} (hrun : s.cpgmove p buf o = some t) (hold : Cached s old (p :: l))
    (hl : Cached s s.file l) (ho : o ≤ p.len) (hfit : o + buf.length ≤ BIGPGSZ)
    (hbuf : Holds s.file buf (p.start + o))
    (hrest : ∀ i < p.len, i < o ∨ o + buf.length ≤ i → s.file (p.start + i) = old (p.start + i)) :
    s.Live p ∧ Cached t t.file ({ p with len := max p.len (o + buf.length) } :: l) ∧
      (∀ e, t.Live e ↔ s.Live e) ∧ t.file = s.file ∧ t.pgno = s.pgno ∧ (s.cdev → t.cdev) ∧
      ∀ l n, Free s l n → Free t l n := by
  obtain ⟨q, hq, rfl⟩ := map_eq_some_iff.mp hrun
  obtain ⟨hlive, rfl⟩ := (cpage_eq_some (hold.own p mem_cons_self)).mp hq
  let page := update s.page p.cache
    { s.page p.cache with data := memmove (s.page p.cache).data o buf }
  have hpage : page p.cache = { s.page p.cache with data := memmove (s.page p.cache).data o buf } :=
    update_self _ _ _
  have hdaddr : ∀ q, (page q).daddr = (s.page q).daddr := by
    intro q
    by_cases hq : q = p.cache
    · rw [hq, hpage]
    · exact congrArg Page.daddr (update_of_ne hq _ _)
  obtain ⟨hbid, -⟩ := pairwise_cons.mp hold.bids
  have happ : Apart s { s with page } l := by
    intro q hq
    by_cases hqp : q = p.cache
    · left
      intro e he
      rw [hqp]
      exact fun heq => hbid e he ((hlive.2.symm.trans (hdaddr p.cache).symm).trans heq)
    · exact Or.inr ⟨hq, update_of_ne hqp _ _⟩
  refine ⟨hlive, ?_, ?_, rfl, rfl, fun h => h, ?_⟩
  · refine (hl.apart happ).cons ?_ ?_ hbid ?_
    · have hlen := hold.len p mem_cons_self
      exact ⟨Nat.lt_of_lt_of_le hlen.1 (Nat.le_max_left _ _), Nat.max_le.mpr ⟨hlen.2, hfit⟩⟩
    · intro q hq heq
      exact hold.own p mem_cons_self q hq ((hdaddr q).symm.trans heq)
    · intro _ i hi hmax
      have hmove : (page p.cache).data = memmove (s.page p.cache).data o buf := by rw [hpage]
      change i < max p.len (o + buf.length) at hi
      change p.start + i < maxcache at hmax
      change (page p.cache).data i = s.file (p.start + i)
      rw [hmove]
      by_cases hin : o ≤ i ∧ i < o + buf.length
      · have hsum : p.start + o + (i - o) = p.start + i := by omega
        rw [memmove_in hin.1 (by omega), hbuf (i - o) (by omega) (by omega), hsum]
      · have hout : i < o ∨ o + buf.length ≤ i := by omega
        rw [memmove_out hout, hrest i (by omega) hout]
        exact hold.data p mem_cons_self hlive i (by omega) hmax
  · intro e
    exact and_congr_right fun _ => by rw [← hdaddr e.cache]
  · intro l n hfree
    exact ⟨fun q hq => by rw [hdaddr]; exact hfree.1 q hq, hfree.2⟩

/-- The list with the predecessor packed, and without what has been freed behind it. -/
theorem packed_spec {old : Nat → UInt8} {init : List Extent} (hrun : s.cpgmove p buf o = some t)
    (hold : Cached s old (init ++ [p] ++ r)) (hsub : after.Sublist r)
    (hl : Cached s s.file (init ++ after)) (horder : (init ++ [p] ++ r).Pairwise (Before s))
    (hready : Ready s (init ++ [p] ++ r) pages) (ho : o ≤ p.len) (hfit : o + buf.length ≤ BIGPGSZ)
    (hbuf : Holds s.file buf (p.start + o))
    (hrest : ∀ i < p.len, i < o ∨ o + buf.length ≤ i → s.file (p.start + i) = old (p.start + i))
    (hend : ∀ e ∈ after, p.start + max p.len (o + buf.length) ≤ e.start) :
    (Cached t t.file (init ++ [{ p with len := max p.len (o + buf.length) }] ++ after) ∧
      (init ++ [{ p with len := max p.len (o + buf.length) }] ++ after).Pairwise (Before t) ∧
      Ready t (init ++ [{ p with len := max p.len (o + buf.length) }] ++ after) pages) ∧
      (∀ e, t.Live e ↔ s.Live e) ∧ t.file = s.file ∧ t.pgno = s.pgno ∧ (s.cdev → t.cdev) := by
  have hsub' : (init ++ [p] ++ after).Sublist (init ++ [p] ++ r) := (List.Sublist.refl _).append hsub
  have hmid : ∀ a : Extent, (a :: (init ++ after)).Perm (init ++ [a] ++ after) := by
    intro a
    rw [append_assoc]
    exact List.perm_middle.symm
  obtain ⟨-, hcached, hlive, hfile, hpgno, hcdev, hfree⟩ :=
    pack_spec hrun ((hold.sublist hsub').perm (hmid p).symm) hl ho hfit hbuf hrest
  refine ⟨⟨hcached.perm (hmid _), ?_, ?_⟩, hlive, hfile, hpgno, hcdev⟩
  · obtain ⟨hip, hafter, hia⟩ := pairwise_append.mp (horder.sublist hsub')
    obtain ⟨hinit, -, hp⟩ := pairwise_append.mp hip
    have hto : ∀ e f : Extent, Before s e f → Before t e f := fun e f hef =>
      ⟨hef.1, fun hl => hef.2 ((hlive e).mp hl)⟩
    refine pairwise_append.mpr ⟨pairwise_append.mpr ⟨?_, pairwise_singleton _ _, ?_⟩, ?_, ?_⟩
    · exact hinit.imp fun hef => hto _ _ hef
    · intro e he f hf
      rw [mem_singleton.mp hf]
      have hep := hto e p (hp e he p mem_cons_self)
      exact hep
    · exact hafter.imp fun hef => hto _ _ hef
    · intro e he f hf
      rcases mem_append.mp he with he | he
      · exact hto e f (hia e (mem_append_left _ he) f hf)
      · rw [mem_singleton.mp he]
        exact ⟨(hia p (mem_append_right _ mem_cons_self) f hf).1, fun _ => hend f hf⟩
  · intro k hk
    have hnumber := hfree _ _ ((hready.sublist hsub') k hk)
    rw [← hpgno] at hnumber
    refine ⟨hnumber.1, fun e he => ?_⟩
    rcases mem_append.mp he with he' | he'
    · rcases mem_append.mp he' with he' | he'
      · exact hnumber.2 e (mem_append_left _ (mem_append_left _ he'))
      · rw [mem_singleton.mp he']
        exact hnumber.2 p (mem_append_left _ (mem_append_right _ mem_cons_self))
    · exact hnumber.2 e (mem_append_right _ he')

theorem dropWhile_start {P : Extent → Bool} (h : l.Pairwise (Before s))
    (hP : ∀ a b : Extent, a.start < b.start → P b → P a) : ∀ e ∈ l.dropWhile P, P e = false := by
  induction l with
  | nil => exact fun e he => absurd he not_mem_nil
  | cons a l ih =>
    obtain ⟨ha, hl⟩ := pairwise_cons.mp h
    by_cases hPa : P a
    · rw [dropWhile_cons_of_pos hPa]
      exact ih hl
    · rw [dropWhile_cons_of_neg hPa]
      intro e he
      rcases mem_cons.mp he with rfl | he
      · exact Bool.eq_false_iff.mpr hPa
      · exact Bool.eq_false_iff.mpr fun hPe => hPa (hP a e (ha e he).1 hPe)

/-- What is left of the buffer ends before the successor. -/
theorem trim_spec (hne : buf ≠ []) (hafter : ∀ e ∈ after, off < e.start)
    (horder : after.Pairwise (Before s)) :
    ∃ n, trim buf off after = buf.take n ∧ trim buf off after ≠ [] ∧
      ∀ e ∈ after, off + (trim buf off after).length ≤ e.start := by
  cases after with
  | nil =>
    refine ⟨buf.length, ?_, hne, fun e he => absurd he not_mem_nil⟩
    rw [trim, take_length]
  | cons f l =>
    have hf := hafter f mem_cons_self
    have hpos := length_pos_iff.mpr hne
    have hfirst : ∀ n, off + n ≤ f.start → ∀ e ∈ f :: l, off + n ≤ e.start := by
      intro n hn e he
      rcases mem_cons.mp he with rfl | he
      · exact hn
      · exact Nat.le_trans hn (Nat.le_of_lt ((pairwise_cons.mp horder).1 e he).1)
    rw [trim]
    by_cases hlong : off + buf.length > f.start
    · rw [if_pos hlong]
      have hlen : (buf.take (f.start - off)).length = f.start - off := by
        rw [length_take]
        omega
      refine ⟨f.start - off, rfl, length_pos_iff.mp (by omega), ?_⟩
      rw [hlen]
      exact hfirst _ (by omega)
    · rw [if_neg hlong]
      exact ⟨buf.length, (take_length).symm, hne, hfirst _ (by omega)⟩

/-- **`cupdate`** with bytes of the file. -/
theorem cupdate_sound (h : Inv s) (hbuf : Holds s.file buf off) (hlen : buf.length < 2 ^ 31)
    (hready : Ready s s.list pages) : Sound (s.cupdate buf off pages) := by
  rw [Sys.cupdate]
  by_cases hskip : off > maxcache ∨ buf = []
  · rw [if_pos hskip]
    exact fun _ => h
  rw [if_neg hskip, if_neg (not_not.mpr h.cdev), span_eq_takeWhile_dropWhile]
  have hsplit := takeWhile_append_dropWhile (p := fun f => decide ¬ f.start > off) (l := s.list)
  have hbefore : ∀ e ∈ s.list.takeWhile (fun f => decide ¬ f.start > off), e.start ≤ off := by
    intro e he
    have hle := mem_takeWhile_imp he
    simpa using hle
  have hafter : ∀ e ∈ s.list.dropWhile (fun f => decide ¬ f.start > off), off < e.start := by
    intro e he
    have hgt := dropWhile_start h.order (fun a b hab hb => by simp at hb ⊢; omega) e he
    simpa using hgt
  dsimp only
  generalize s.list.takeWhile (fun f => decide ¬ f.start > off) = before at hsplit hbefore ⊢
  generalize s.list.dropWhile (fun f => decide ¬ f.start > off) = after at hsplit hafter ⊢
  have hc : Cached s s.file (before ++ after) := hsplit ▸ h.cached
  have horder : (before ++ after).Pairwise (Before s) := hsplit ▸ h.order
  have hready' : Ready s (before ++ after) pages := hsplit ▸ hready
  obtain ⟨hob, hoa, hoba⟩ := pairwise_append.mp horder
  obtain ⟨n, htrim, hne, hroom⟩ := trim_spec (fun hnil => hskip (Or.inr hnil)) hafter hoa
  have hbuf' : Holds s.file (trim buf off after) off := htrim ▸ hbuf.take n
  have hlen' : (trim buf off after).length < 2 ^ 31 := by
    rw [htrim, length_take]
    omega
  generalize trim buf off after = buf' at hne hroom hbuf' hlen' ⊢
  cases hlast : before.getLast? with
  | none =>
    rw [List.getLast?_eq_none_iff.mp hlast] at hc horder hready'
    exact link_spec h.cdev h.pgno hc horder hready' hbuf' hlen'
      (fun _ e he => absurd he not_mem_nil) hroom
  | some p =>
    obtain ⟨init, rfl⟩ := List.getLast?_eq_some_iff.mp hlast
    have hp : p.start ≤ off := hbefore p (mem_append_right _ mem_cons_self)
    have hpos := (hc.len p (mem_append_left _ (mem_append_right _ mem_cons_self))).1
    obtain ⟨-, -, hinit⟩ := pairwise_append.mp hob
    dsimp only
    by_cases hdone : off < p.start + p.len ∧ buf'.length ≤ p.start + p.len - off
    · rw [if_pos hdone]
      exact fun _ => h
    rw [if_neg hdone]
    -- the predecessor ends before what is left, and so does what comes before it
    have hdrop : off + (p.start + p.len - off) + (buf'.drop (p.start + p.len - off)).length ≤
        off + buf'.length := by
      rw [length_drop]
      omega
    have hroom' : ∀ e ∈ after, off + (p.start + p.len - off) +
        (buf'.drop (p.start + p.len - off)).length ≤ e.start := fun e he =>
      Nat.le_trans hdrop (hroom e he)
    have hdrop' : (buf'.drop (p.start + p.len - off)).length < 2 ^ 31 := by
      rw [length_drop]
      omega
    have hpred : ∀ e ∈ init ++ [p], e.start < off + (p.start + p.len - off) ∧
        (s.Live e → e.start + e.len ≤ off + (p.start + p.len - off)) := by
      intro e he
      rcases mem_append.mp he with he | he
      · obtain ⟨hlt, hend⟩ := hinit e he p mem_cons_self
        exact ⟨by omega, fun hl => by have := hend hl; omega⟩
      · rw [mem_singleton.mp he]
        omega
    have hholds := hbuf'.drop (p.start + p.len - off)
    generalize buf'.drop (p.start + p.len - off) = buf'' at hroom' hdrop' hholds ⊢
    generalize off + (p.start + p.len - off) = offset at hroom' hpred hholds ⊢
    have hunpacked : Sound (s.link (init ++ [p]) after buf'' offset pages) :=
      link_spec h.cdev h.pgno hc horder hready' hholds hdrop' (fun _ => hpred) hroom'
    split
    next hpack =>
      split
      next t hrun =>
        obtain ⟨hoffset, hspace⟩ := hpack
        generalize ho : min buf''.length (BIGPGSZ - p.len) = o at hrun ⊢
        have hle : o ≤ buf''.length := ho ▸ Nat.min_le_left _ _
        have htake : (buf''.take o).length = o := by
          rw [length_take]
          exact Nat.min_eq_left hle
        have hgrown : max p.len (p.len + (buf''.take o).length) = p.len + o := by
          rw [htake]
          omega
        have hsub : (init ++ after).Sublist (init ++ [p] ++ after) :=
          (sublist_append_left init [p]).append (List.Sublist.refl after)
        have hpacked := packed_spec hrun hc (List.Sublist.refl after) (hc.sublist hsub) horder hready'
          (Nat.le_refl _) (by rw [htake]; omega) (hoffset ▸ hholds.take o) (fun _ _ _ => rfl)
          (fun e he => by have := hroom' e he; rw [hgrown]; omega)
        rw [hgrown] at hpacked
        obtain ⟨⟨hct, hordert, hreadyt⟩, hlivet, hfilet, hpgnot, hcdevt⟩ := hpacked
        rw [dropLast_concat]
        refine link_spec (hcdevt h.cdev) (hpgnot ▸ h.pgno) hct hordert hreadyt
          (hfilet ▸ hholds.drop o) (by rw [length_drop]; omega) (fun _ e he => ?_)
          (fun e he => ?_)
        · rcases mem_append.mp he with he | he
          · obtain ⟨hlt, hend⟩ := hpred e (mem_append_left _ he)
            exact ⟨by omega, fun hl => by have := hend ((hlivet e).mp hl); omega⟩
          · rw [mem_singleton.mp he]
            change p.start < offset + o ∧ (_ → p.start + (p.len + o) ≤ offset + o)
            exact ⟨by omega, fun _ => by omega⟩
        · have := hroom' e he
          rw [length_drop]
          omega
      next => exact hunpacked
    next => exact hunpacked

/-- **`cwrite`** behind its checks: the list is right about what the file was before. -/
theorem overwrite_sound {old : Nat → UInt8} (hcdev : s.cdev) (hpgno : s.pgno < 2 ^ 32)
    (hold : Cached s old s.list) (horder : s.list.Pairwise (Before s)) (hready : Ready s s.list pages)
    (hfile : s.file = memmove old off buf) (hlen : buf.length < 2 ^ 31) :
    Sound (s.overwrite buf off pages) := by
  rw [Sys.overwrite, span_eq_takeWhile_dropWhile]
  have hsplit := takeWhile_append_dropWhile (p := fun f => decide ¬ f.start ≥ off) (l := s.list)
  have hbefore : ∀ e ∈ s.list.takeWhile (fun f => decide ¬ f.start ≥ off), e.start < off := by
    intro e he
    have hlt := mem_takeWhile_imp he
    simpa using hlt
  dsimp only
  generalize s.list.takeWhile (fun f => decide ¬ f.start ≥ off) = before at hsplit hbefore ⊢
  generalize s.list.dropWhile (fun f => decide ¬ f.start ≥ off) = after at hsplit ⊢
  rw [← hsplit] at hold horder hready
  obtain ⟨hob, hoa, hoba⟩ := pairwise_append.mp horder
  have hbuf : Holds s.file buf off := hfile ▸ memmove_holds old off buf
  have hkept : ∀ n, ∀ e ∈ after.dropWhile (fun f => decide (f.start < n)), n ≤ e.start := by
    intro n e he
    have hge := dropWhile_start hoa (fun a b hab hb => by simp at hb ⊢; omega) e he
    simpa using hge
  have hsub : ∀ n, (after.dropWhile fun f => decide (f.start < n)).Sublist after := fun n =>
    dropWhile_sublist _
  -- nothing has been packed: no extent that is left has bytes of the piece
  have hunpacked : (∀ e ∈ before, s.Live e → e.start + e.len ≤ off) →
      Sound (s.replace before after buf off pages) := by
    intro hend
    have hsub' := (List.Sublist.refl before).append (hsub (off + buf.length))
    have hc : Cached s s.file (before ++ after.dropWhile fun f => f.start < off + buf.length) := by
      rw [hfile]
      refine (hold.sublist hsub').memmove fun e he hl => ?_
      rcases mem_append.mp he with he | he
      · exact Or.inl (hend e he hl)
      · exact Or.inr (hkept _ e he)
    exact link_spec hcdev hpgno hc (horder.sublist hsub') (hready.sublist hsub') hbuf hlen
      (fun _ e he => ⟨hbefore e he, hend e he⟩) (hkept _)
  cases hlast : before.getLast? with
  | none =>
    have hnil := List.getLast?_eq_none_iff.mp hlast
    rw [hnil] at hunpacked
    exact hunpacked fun e he => absurd he not_mem_nil
  | some p =>
    obtain ⟨init, rfl⟩ := List.getLast?_eq_some_iff.mp hlast
    have hmem : p ∈ init ++ [p] ++ after :=
      mem_append_left _ (mem_append_right _ mem_cons_self)
    have hp : p.start < off := hbefore p (mem_append_right _ mem_cons_self)
    have hsize := (hold.len p hmem).2
    have hpage := fun q => cpage_eq_some (s := s) (p := q) (hold.own p hmem)
    obtain ⟨-, -, hinit⟩ := pairwise_append.mp hob
    have hpred : (s.Live p → p.start + p.len ≤ off) → ∀ e ∈ init ++ [p], s.Live e →
        e.start + e.len ≤ off := by
      intro hend e he hl
      rcases mem_append.mp he with he | he
      · exact Nat.le_trans ((hinit e he p mem_cons_self).2 hl) (Nat.le_of_lt hp)
      · rw [mem_singleton.mp he] at hl ⊢
        exact hend hl
    dsimp only
    split
    next hpack =>
      obtain ⟨hle, hspace⟩ := hpack
      split
      next t hrun =>
        obtain ⟨q, hq, -⟩ := map_eq_some_iff.mp hrun
        have hlive : s.Live p := ((hpage q).mp hq).1
        generalize ho : min buf.length (BIGPGSZ - (off - p.start)) = o at hrun ⊢
        have htake : (buf.take o).length = o := by
          rw [length_take]
          omega
        have hfits : off - p.start + o ≤ BIGPGSZ := by omega
        rw [Sys.replace]
        generalize hn : off + o + (buf.drop o).length = n
        have hn' : n = off + buf.length := by
          rw [← hn, length_drop]
          omega
        have hlist : (init ++ after.dropWhile fun f => decide (f.start < n)).Sublist
            (init ++ [p] ++ after) := (sublist_append_left init [p]).append (hsub n)
        have hl : Cached s s.file (init ++ after.dropWhile fun f => decide (f.start < n)) := by
          rw [hfile]
          refine (hold.sublist hlist).memmove fun e he hl => ?_
          rcases mem_append.mp he with he | he
          · exact Or.inl (Nat.le_trans ((hinit e he p mem_cons_self).2 hl) (Nat.le_of_lt hp))
          · exact Or.inr (hn' ▸ hkept n e he)
        have hoff : p.start + (off - p.start) = off := by omega
        have hpacked := packed_spec hrun hold (hsub n) hl horder hready (by omega)
          (by rw [htake]; omega) (hoff.symm ▸ hbuf.take o)
          (fun i hi hout => by rw [htake] at hout; rw [hfile, memmove_out (by omega)])
          (fun e he => by
            have hend := (hoba p (mem_append_right _ mem_cons_self) e ((hsub n).subset he)).2 hlive
            have hroom := hkept n e he
            rw [htake]
            omega)
        rw [htake] at hpacked
        obtain ⟨⟨hct, hordert, hreadyt⟩, hlivet, hfilet, hpgnot, hcdevt⟩ := hpacked
        rw [dropLast_concat]
        refine link_spec (hcdevt hcdev) (hpgnot ▸ hpgno) hct hordert hreadyt (hfilet ▸ hbuf.drop o)
          (by rw [length_drop]; omega) (fun hne e he => ?_) (fun e he => hn ▸ hkept n e he)
        rcases mem_append.mp he with he | he
        · obtain ⟨hlt, hend⟩ := hinit e he p mem_cons_self
          exact ⟨by omega, fun hl => by have := hend ((hlivet e).mp hl); omega⟩
        · have hleft : o < buf.length := by
            have hpos := length_pos_iff.mpr hne
            rw [length_drop] at hpos
            omega
          rw [mem_singleton.mp he]
          change p.start < off + o ∧ (_ → p.start + max p.len (off - p.start + o) ≤ off + o)
          exact ⟨by omega, fun _ => by omega⟩
      next hrun =>
        refine hunpacked (hpred fun hl => ?_)
        have hfound := (hpage p.cache).mpr ⟨hl, rfl⟩
        rw [Sys.cpgmove, hfound] at hrun
        exact nomatch hrun
    next hpack => exact hunpacked (hpred fun _ => by omega)

/-- **`cwrite`** after the server has written. -/
theorem cwrite_sound (h : Inv s) (hlen : buf.length < 2 ^ 31) (hready : Ready s s.list pages) :
    Sound (Sys.cwrite { s with file := memmove s.file off buf } buf off pages) := by
  rw [Sys.cwrite]
  by_cases hskip : off > maxcache ∨ buf = []
  · rw [if_pos hskip]
    refine fun _ => ⟨h.cdev, h.pgno, ⟨h.cached.len, h.cached.own, h.cached.bids, ?_⟩, h.order⟩
    intro e he hl i hi hmax
    have hout : e.start + i < off ∨ off + buf.length ≤ e.start + i := by
      rcases hskip with hfar | hnil
      · omega
      · rw [hnil, length_nil]
        omega
    exact (h.cached.data e he hl i hi hmax).trans (memmove_out hout).symm
  have hcdev : Sys.cdev { s with file := memmove s.file off buf } := h.cdev
  rw [if_neg hskip, if_neg (not_not.mpr hcdev)]
  obtain ⟨hpath, htype, hdevno, hdev, hvers⟩ := h.cdev
  refine overwrite_sound ⟨hpath, htype, hdevno, hdev, congrArg (· + 1) hvers⟩ h.pgno
    { h.cached with } h.order hready rfl hlen

/-- **The loop of `cread`** copies what the file has, and drops at most the extent whose page is
gone. -/
theorem creadloop_spec (l : List Extent) (offset n : Nat) (h : Cached s file l)
    (hmax : offset + n ≤ maxcache)
    (hhead : ∀ e ∈ l.head?, e.start ≤ offset ∧ offset < e.start + e.len) :
    (∃ m, (s.creadloop l offset n).1 = bytes file offset m) ∧ (s.creadloop l offset n).2.Sublist l := by
  induction l generalizing offset n with
  | nil => exact ⟨⟨0, rfl⟩, List.Sublist.refl []⟩
  | cons e l ih =>
    rw [Sys.creadloop.eq_def]
    dsimp only
    by_cases hn : n = 0
    · rw [if_pos hn]
      exact ⟨⟨0, rfl⟩, List.Sublist.refl _⟩
    rw [if_neg hn]
    cases hpage : s.cpage e with
    | none => exact ⟨⟨0, rfl⟩, sublist_cons_self e l⟩
    | some q =>
      obtain ⟨hlive, rfl⟩ := (cpage_eq_some (h.own e mem_cons_self)).mp hpage
      obtain ⟨hlo, hhi⟩ := hhead e rfl
      generalize hm : min n (e.len - (offset - e.start)) = m
      have hcopy : bytes (s.page e.cache).data (offset - e.start) m = bytes file offset m := by
        refine map_congr_left fun i hi => ?_
        have hi' := mem_range.mp hi
        have hsum : e.start + (offset - e.start + i) = offset + i := by omega
        rw [h.data e mem_cons_self hlive _ (by omega) (by omega), hsum]
      dsimp only
      rw [hcopy]
      cases l with
      | nil => exact ⟨⟨m, rfl⟩, List.Sublist.refl _⟩
      | cons f l =>
        have htail := h.sublist (sublist_cons_self e (f :: l))
        dsimp only
        by_cases hgap : f.start ≠ offset + m
        · rw [if_pos hgap]
          exact ⟨⟨m, rfl⟩, List.Sublist.refl _⟩
        · -- the next extent goes on where this one ends
          rw [if_neg hgap]
          have hf := (h.len f (mem_cons_of_mem e mem_cons_self)).1
          obtain ⟨⟨k, hmore⟩, hleft⟩ := ih (offset + m) (n - m) htail (by omega) (by
            intro f' hf'
            cases hf'
            omega)
          rw [hmore, ← bytes_append]
          exact ⟨⟨m + k, rfl⟩, hleft.cons_cons e⟩

/-- **`cread`** returns bytes of the file, and keeps the invariant. -/
theorem cread_spec (h : Inv s) (off n : Nat) :
    (∃ m, (s.cread off n).1 = bytes s.file off m) ∧ Inv (s.cread off n).2 := by
  rw [Sys.cread]
  by_cases hlong : off + n > maxcache
  · rw [if_pos hlong]
    exact ⟨⟨0, rfl⟩, h⟩
  rw [if_neg hlong, if_neg (not_not.mpr h.cdev), span_eq_takeWhile_dropWhile]
  have hsplit := takeWhile_append_dropWhile
    (p := fun e => decide ¬ (off ≥ e.start ∧ off < e.start + e.len)) (l := s.list)
  have hhead : ∀ e ∈ (s.list.dropWhile fun e => decide ¬ (off ≥ e.start ∧ off < e.start + e.len)).head?,
      e.start ≤ off ∧ off < e.start + e.len := by
    intro e he
    have hstop := List.head?_dropWhile_not (fun e => decide ¬ (off ≥ e.start ∧ off < e.start + e.len)) s.list
    rw [he] at hstop
    simpa using hstop
  dsimp only
  generalize (s.list.takeWhile fun e => decide ¬ (off ≥ e.start ∧ off < e.start + e.len)) = before at hsplit ⊢
  generalize (s.list.dropWhile fun e => decide ¬ (off ≥ e.start ∧ off < e.start + e.len)) = l at hsplit hhead ⊢
  have hl : Cached s s.file l := (hsplit ▸ h.cached).sublist (sublist_append_right before l)
  obtain ⟨hbytes, hleft⟩ := creadloop_spec l off n hl (by omega) hhead
  have hsub : (before ++ (s.creadloop l off n).2).Sublist s.list := by
    rw [← hsplit]
    exact (List.Sublist.refl before).append hleft
  have hc := h.cached.sublist hsub
  exact ⟨hbytes, h.cdev, h.pgno, { hc with }, h.order.sublist hsub⟩

/-- Pages that come and go leave the invariant as it is. -/
theorem Inv.apart (h : Inv s) (happ : Apart s t s.list) (hlist : t.list = s.list)
    (hfile : t.file = s.file) (hcdev : t.cdev) (hpgno : t.pgno = s.pgno) : Inv t where
  cdev := hcdev
  pgno := hpgno ▸ h.pgno
  cached := by
    rw [hlist, hfile]
    exact h.cached.apart happ
  order := by
    rw [hlist]
    exact h.order.imp_of_mem fun he _ hef => ⟨hef.1, fun hl => hef.2 (happ.live he hl).1⟩

theorem taken_eq_some {r : Sys × List Addr} (h : taken r = some t) (hr : Sound r) : Inv t := by
  obtain ⟨hrest, ht⟩ := ite_none_right_eq_some.mp h
  cases ht
  exact hr hrest

theorem start_inv (h : Start s) : Inv s where
  cdev := h.cdev
  pgno := h.pgno
  cached := by
    rw [h.list]
    exact ⟨fun e he => absurd he not_mem_nil, fun e he => absurd he not_mem_nil,
      List.Pairwise.nil, fun e he => absurd he not_mem_nil⟩
  order := by
    rw [h.list]
    exact List.Pairwise.nil

/-- **One step** whose numbers are free. -/
theorem act_inv {op : Op} (h : Inv s) (hclear : Clear s op) (hact : act s op = some t) : Inv t := by
  cases op with
  | read off n =>
    cases hact
    exact (cread_spec h off n).2
  | update off n pages =>
    obtain ⟨hn, hrun⟩ := ite_none_right_eq_some.mp hact
    exact taken_eq_some hrun (cupdate_sound h (bytes_holds s.file off n)
      (by rwa [bytes_length]) hclear.2)
  | write off buf pages =>
    obtain ⟨hn, hrun⟩ := ite_none_right_eq_some.mp hact
    exact taken_eq_some hrun (cwrite_sound h hn hclear.2)
  | evict p =>
    obtain ⟨hp, hrun⟩ := ite_none_right_eq_some.mp hact
    cases hrun
    refine h.apart (uncachepage_apart s p s.list) ?_ ?_ ?_ ?_ <;> rw [Sys.uncachepage, if_pos hp]
    exact h.cdev
  | use p page =>
    obtain ⟨hp, hrun⟩ := ite_none_left_eq_some.mp hact
    cases hrun
    refine h.apart (fun q hq => Or.inr ⟨hq, update_of_ne ?_ _ _⟩) rfl rfl h.cdev rfl
    exact fun heq => hp (heq ▸ hq)
  | release p page => exact absurd hclear.1 (by simp [Op.releases])

/-- The states of runs whose steps all find their numbers free, and their pages where they were. -/
def ReachClear : Sys → Prop :=
  StepSystem.Reach Start fun s op t => act s op = some t ∧ Clear s op

theorem Inv.coherent (h : Inv s) : Coherent s where
  cread := fun off n => by
    obtain ⟨m, hm⟩ := (cread_spec h off n).1
    rw [hm, bytes_length]
  sorted := h.order.imp fun hab => hab.1
  apart := h.order.imp_of_mem fun ha _ hab hl _ => hab.2 ((h.cached.cpage_isSome ha).mp hl)

/-- **The mount cache is coherent** as long as no number is given that is in use, and no cached page is
released. -/
theorem cache_coherent (h : ReachClear s) : Coherent s :=
  (h.invariant Inv (fun _ hs => start_inv hs) fun _ _ _ hs hstep => act_inv hs hstep.2 hstep.1).coherent

/-- A file that begins with the byte 1 has been opened. -/
def opened : Sys where
  qid := ⟨1, 0, 0⟩
  devno := 0
  dev := 0
  mcqid := ⟨1, 0, 0⟩
  mcdevno := 0
  mcdev := 0
  list := []
  page := fun _ => ⟨2 ^ 32 - 1, fun _ => 0⟩
  fscache := []
  pgno := 0
  file := fun i => if i = 0 then 1 else 0

theorem opened_start : Start opened := ⟨⟨rfl, rfl, rfl, rfl, rfl⟩, rfl, by decide⟩

/-- Four bytes are read, and the last two are written over with three. -/
theorem cache_coherent_packed : ∃ s,
    StepSystem.exec act opened [.update 0 4 [0], .write 2 [7, 8, 9] []] = some s ∧ Coherent s ∧
      (s.cread 0 5).1 = [1, 0, 7, 8, 9] := by
  refine ⟨_, rfl, ?_, by decide⟩
  have hfirst : Clear opened (.update 0 4 [0]) :=
    ⟨rfl, fun k _ => ⟨fun p hp => absurd hp not_mem_nil, fun e he => absurd he not_mem_nil⟩⟩
  have hnone : ∀ s, Clear s (.write 2 [7, 8, 9] []) := fun s => ⟨rfl, fun k hk => absurd hk (Nat.not_lt_zero k)⟩
  have hupdated : ReachClear (opened.cupdate (bytes opened.file 0 4) 0 [0]).1 :=
    (StepSystem.Reach.start opened_start).next (i := .update 0 4 [0]) ⟨rfl, hfirst⟩
  exact cache_coherent (hupdated.next (i := .write 2 [7, 8, 9] []) ⟨rfl, hnone _⟩)

/-- One byte at 10 has been written `k` times, each time into a new extent. -/
structure Wound (s : Sys) (k : Nat) : Prop where
  cdev : s.cdev
  file : s.file 0 = 1
  list : s.list = [⟨0, 0, 1, 0⟩, ⟨nextpgno^[k] 0, 10, 1, 1⟩]
  fscache : s.fscache = [1, 0]
  first : (s.page 0).daddr = 0
  second : (s.page 1).daddr = nextpgno^[k] 0
  data : (s.page 1).data 0 = 2
  pgno : s.pgno = nextpgno^[k + 1] 0

theorem Wound.next (h : Wound s k) : ∃ t, act s (.write 10 [2] [1]) = some t ∧ Wound t (k + 1) := by
  let u := { s with
    file := memmove s.file 10 [2]
    mcqid := { s.mcqid with vers := s.mcqid.vers + 1 }
    qid := { s.qid with vers := s.qid.vers + 1 } }
  have hover : u.overwrite [2] 10 [1] =
      ({ u.cachepage 1 [2] with list := [⟨0, 0, 1, 0⟩, ⟨s.pgno, 10, 1, 1⟩] }, []) := by
    have hlist : u.list = [⟨0, 0, 1, 0⟩, ⟨nextpgno^[k] 0, 10, 1, 1⟩] := h.list
    rw [Sys.overwrite, hlist]
    rfl
  have hlen : ([2] : List UInt8).length < 2 ^ 31 := by decide
  have hcdev : Sys.cdev { s with file := memmove s.file 10 [2] } := h.cdev
  have hskip : ¬ (10 > maxcache ∨ ([2] : List UInt8) = []) := by decide
  have hact : act s (.write 10 [2] [1]) =
      some { u.cachepage 1 [2] with list := [⟨0, 0, 1, 0⟩, ⟨s.pgno, 10, 1, 1⟩] } := by
    rw [act, if_pos hlen, Sys.cwrite, if_neg hskip, if_neg (not_not.mpr hcdev)]
    change taken (u.overwrite [2] 10 [1]) = _
    rw [hover, taken, if_pos rfl]
  obtain ⟨hpath, htype, hdevno, hdev, hvers⟩ := h.cdev
  have hu : u.cdev := ⟨hpath, htype, hdevno, hdev, congrArg (· + 1) hvers⟩
  have hframe := cachepage_frame u 1 [2]
  have hcached : u.uncachepage 1 = { u with
      fscache := u.fscache.filter (· ≠ 1)
      page := update u.page 1 { u.page 1 with daddr := 2 ^ 32 - 1 } } :=
    if_pos (show 1 ∈ s.fscache by rw [h.fscache]; exact mem_cons_self)
  refine ⟨_, hact, hframe.cdev hu, ?_, ?_, ?_, ?_, ?_, ?_, ?_⟩
  · exact (congrFun hframe.file 0).trans h.file
  · rw [h.pgno]
  · change 1 :: (u.uncachepage 1).fscache = [1, 0]
    rw [hcached]
    change 1 :: s.fscache.filter (· ≠ 1) = [1, 0]
    rw [h.fscache]
    rfl
  · have hpage : (u.cachepage 1 [2]).page 0 = u.page 0 := cachepage_other (by decide)
    exact (congrArg Page.daddr hpage).trans h.first
  · exact (congrArg Page.daddr cachepage_page).trans h.pgno
  · exact congrArg (fun page => page.data 0) (@cachepage_page u 1 [2])
  · exact (cachepage_pgno u 1 [2]).trans ((congrArg nextpgno h.pgno).trans
      (Function.iterate_succ_apply' nextpgno (k + 1) 0).symm)

/-- The states that runs reach, whatever numbers are given. -/
def Reach : Sys → Prop := StepSystem.Reach Start fun s op t => act s op = some t

theorem opened_reach {ops : List Op} (h : StepSystem.exec act opened ops = some s) : Reach s :=
  (StepSystem.Reach.start opened_start).exec h fun _ _ _ _ hact => hact

/-- A cached page is given back and filled by another: `cread` finds it in its chain. -/
theorem released_read : ∃ s, Reach s ∧ (s.cread 0 1).1 = [9] ∧ s.file 0 = 1 :=
  ⟨_, @opened_reach _ [.update 0 1 [0], .release 0 ⟨0, fun _ => 9⟩] rfl, by decide, rfl⟩

theorem wound_reach (k : Nat) : ∃ s, Reach s ∧ Wound s (k + 1) := by
  induction k with
  | zero =>
    have hrun : ∃ s, StepSystem.exec act opened [.update 0 1 [0], .write 10 [2] [1]] = some s ∧
        Wound s 1 := by
      refine ⟨_, rfl, ⟨rfl, rfl, rfl, rfl, rfl⟩, ?_, ?_, ?_, ?_, ?_, ?_, ?_⟩ <;> decide +kernel
    obtain ⟨s, hs, hw⟩ := hrun
    exact ⟨s, opened_reach hs, hw⟩
  | succ k ih =>
    obtain ⟨s, hs, hk⟩ := ih
    obtain ⟨t, hact, ht⟩ := hk.next
    exact ⟨t, hs.next hact, ht⟩

/-- After 2³² pages the first number comes again, and the first extent has another's page. -/
theorem numbers_wrap : ¬ ∀ s, Reach s → Coherent s := by
  intro hall
  obtain ⟨s, hs, hk⟩ := wound_reach (2 ^ 32 - 1)
  have hzero : nextpgno^[2 ^ 32 - 1 + 1] 0 = 0 := by
    refine place_inj (iterate_lt (by decide) _) (by decide) ?_
    rw [place_iterate (by decide)]
    rfl
  have hpage : s.cpage ⟨0, 0, 1, 0⟩ = some 1 := by
    rw [Sys.cpage, if_neg (not_not.mpr hk.first), Sys.lookpage, hk.fscache, List.find?_cons_of_pos]
    simpa using hk.second.trans hzero
  have hread : (s.cread 0 1).1 = [2] := by
    have hshort : ¬ 0 + 1 > maxcache := by decide
    rw [Sys.cread, if_neg hshort, if_neg (not_not.mpr hk.cdev), hk.list]
    change (s.creadloop [⟨0, 0, 1, 0⟩, ⟨_, 10, 1, 1⟩] 0 1).1 = [2]
    rw [Sys.creadloop.eq_def]
    dsimp only
    rw [hpage]
    change [(s.page 1).data 0] = [2]
    rw [hk.data]
  have hcoherent := (hall s hs).cread 0 1
  rw [hread] at hcoherent
  have hbyte : (2 : UInt8) = s.file 0 := (List.cons.inj hcoherent).1
  rw [hk.file] at hbyte
  exact absurd hbyte (by decide)

end Mntcache
