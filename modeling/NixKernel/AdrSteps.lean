import NixKernel.AdrMap

/-!
# Every call keeps the map in order

`Good` is the invariant of the array: its entries are laid out, none reaches the last address,
and no slot behind them could be taken for the neighbour of the last entry, because it begins
below that entry's end.

`Refines s s'` says that `s'` cuts the same map differently: every address has the type, use
and colour it had, and entries in use are still there.  The splits of `intadralloc` and the
merges of `adrfree` refine; the one change to the map is made to a single entry between them.
-/

namespace Adr

open Extents List

abbrev Laid : List Adrmap → Prop := Layout Adrmap.base Adrmap.fin

abbrev Covers (a : Adrmap) (p : Nat) : Prop := In Adrmap.base Adrmap.fin p a

abbrev viewOf : List Adrmap → Nat → Option (UInt8 × UInt8 × Int) :=
  view Adrmap.base Adrmap.fin Adrmap.attr

/-- A slot that begins below some entry's end. -/
def Stale (map : List Adrmap) (x : Adrmap) : Prop := x.base = 0 ∨ ∃ e ∈ map, x.base < e.fin

/-- **The array in order.** -/
structure Good (s : Tab) : Prop where
  laid : Laid s.map
  top : ∀ e ∈ s.map, e.fin < 2 ^ 64
  stale : ∀ x ∈ s.rest, Stale s.map x

/-- The same map, cut differently. -/
structure Refines (s s' : Tab) : Prop where
  good : Good s'
  attr : ∀ p, s'.attr p = s.attr p
  keep : ∀ e ∈ s.map, e.use ≠ mfree → e ∈ s'.map

variable {s s' t : Tab} {map map' l r : List Adrmap} {a b c e x : Adrmap} {p : Nat}

theorem Refines.refl (h : Good s) : Refines s s := ⟨h, fun _ => rfl, fun _ he _ => he⟩

theorem Refines.trans (h : Refines s s') (h' : Refines s' t) : Refines s t :=
  ⟨h'.good, fun p => (h'.attr p).trans (h.attr p),
    fun e he hu => h'.keep e (h.keep e he hu) hu⟩

/-- Slots stay below the end when no address gets lost. -/
theorem Stale.mono (h : Stale map x) (hlaid : Laid map)
    (hcov : ∀ p, viewOf map p ≠ none → viewOf map' p ≠ none) : Stale map' x := by
  rcases h with hzero | ⟨e, he, hlt⟩
  · exact Or.inl hzero
  · have hfull := hlaid.full e he
    have hlast : Covers e (e.fin - 1) := by
      unfold Covers In
      omega
    have hsome := hcov (e.fin - 1) (by
      rw [viewOf, hlaid.view_mem he hlast]
      exact Option.some_ne_none _)
    obtain ⟨v, hv⟩ := Option.ne_none_iff_exists'.mp hsome
    obtain ⟨e', he', hin, -⟩ := view_eq_some hv
    refine Or.inr ⟨e', he', ?_⟩
    unfold In at hin
    omega

/-- A slot that an entry has been in. -/
theorem Stale.of_mem (h : Laid map) (he : e ∈ map) : Stale map e :=
  Or.inr ⟨e, he, h.full e he⟩

/-- No slot begins where the last entry ends. -/
theorem Good.no_neighbour (h : Good ⟨l ++ [a], x :: r⟩) : uintmem a.fin ≠ x.base := by
  have hmem : a ∈ l ++ [a] := mem_append_right l mem_cons_self
  have htop := h.top a hmem
  have hfull := h.laid.full a hmem
  have hmod : uintmem a.fin = a.fin := Nat.mod_eq_of_lt htop
  rcases h.stale x mem_cons_self with hzero | ⟨e, he, hlt⟩
  · omega
  · obtain ⟨-, -, hle⟩ := layout_append.mp h.laid
    rcases mem_append.mp he with hel | hea
    · have hea := hle e hel a mem_cons_self
      omega
    · rw [mem_singleton.mp hea] at hlt
      omega

theorem upto_fin (l : Nat) : (a.upto l).fin = a.base + l := rfl

variable {k : Nat}

theorem behind_base (htop : a.fin < 2 ^ 64) (hk : k ≤ a.len) :
    (a.behind k).base = a.base + k := by
  unfold Adrmap.fin at htop
  exact Nat.mod_eq_of_lt (by omega)

theorem behind_len (htop : a.fin < 2 ^ 64) (hk : k ≤ a.len) :
    (a.behind k).len = a.len - k := by
  unfold Adrmap.fin at htop
  simp only [Adrmap.behind, uintmem]
  omega

theorem behind_fin (htop : a.fin < 2 ^ 64) (hk : k ≤ a.len) :
    (a.behind k).fin = a.fin := by
  rw [Adrmap.fin, behind_base htop hk, behind_len htop hk, Adrmap.fin]
  omega

/-- Cutting a free entry in two refines the map. -/
theorem Good.cut (h : Good ⟨l ++ a :: r, x :: map⟩) (hfree : a.use = mfree) (hk : 0 < k)
    (hlt : k < a.len) : Refines ⟨l ++ a :: r, x :: map⟩ ⟨l ++ a.upto k :: a.behind k :: r, map⟩ := by
  have htop := h.top a (mem_append_right l mem_cons_self)
  have hbase := behind_base htop (Nat.le_of_lt hlt)
  have hfin := behind_fin htop (Nat.le_of_lt hlt)
  have hleft : (a.upto k).base < (a.upto k).fin := by
    rw [upto_fin]
    simp only [Adrmap.upto]
    omega
  have hright : (a.behind k).base < (a.behind k).fin := by
    rw [hbase, hfin, Adrmap.fin]
    omega
  have hview : ∀ p, viewOf (l ++ a.upto k :: a.behind k :: r) p = viewOf (l ++ a :: r) p :=
    fun p => view_split rfl hbase.symm hfin hleft hright rfl rfl
  refine ⟨⟨h.laid.split rfl hbase.symm hfin hleft hright, ?_, ?_⟩, hview, ?_⟩
  · intro e he
    rcases mem_append.mp he with he | he
    · exact h.top e (mem_append_left _ he)
    · rcases mem_cons.mp he with rfl | he
      · rw [upto_fin]
        rw [Adrmap.fin] at htop
        omega
      · rcases mem_cons.mp he with rfl | he
        · omega
        · exact h.top e (mem_append_right l (mem_cons_of_mem a he))
  · intro x' hx'
    refine (h.stale x' (mem_cons_of_mem x hx')).mono h.laid fun p hp => ?_
    rw [hview]
    exact hp
  · intro e he hu
    rcases mem_append.mp he with he | he
    · exact mem_append_left _ he
    · rcases mem_cons.mp he with rfl | he
      · exact absurd hfree hu
      · exact mem_append_right l (mem_cons_of_mem _ (mem_cons_of_mem _ he))

theorem look_zero (pa len tab : Nat) : look map pa len tab 0 = none := by
  rw [look, if_pos rfl]

theorem look_none {pa len tab n : Nat} (hn : n ≠ 0) (hm : map[tab + n / 2]? = none) :
    look map pa len tab n = none := by
  rw [look, if_neg hn]
  simp only [hm]

/-- One probe of the search. -/
theorem look_some {pa len tab n : Nat} {m : Adrmap} (hn : n ≠ 0)
    (hm : map[tab + n / 2]? = some m) : look map pa len tab n =
      if m.base ≤ pa then
        if uintmem (pa + len - m.base) ≤ m.len then some (tab + n / 2)
        else look map pa len (tab + n / 2 + 1) (n - (n / 2 + 1))
      else look map pa len tab (n / 2) := by
  rw [look, if_neg hn]
  simp only [hm]

/-- What the search returns contains the range, but for an overflow. -/
theorem look_sound {pa len tab n j : Nat} (h : look map pa len tab n = some j) :
    ∃ m, map[j]? = some m ∧ m.base ≤ pa ∧ uintmem (pa + len - m.base) ≤ m.len := by
  induction tab, n using look.induct map pa len with
  | case1 tab =>
    rw [look_zero] at h
    cases h
  | case2 tab n hn i hnone =>
    rw [look_none hn hnone] at h
    cases h
  | case3 tab n hn i m hm hbase hlen =>
    rw [look_some hn hm, if_pos hbase, if_pos hlen] at h
    cases h
    exact ⟨m, hm, hbase, hlen⟩
  | case4 tab n hn i m hm hbase hlen ih =>
    rw [look_some hn hm, if_pos hbase, if_neg hlen] at h
    exact ih h
  | case5 tab n hn i m hm hbase ih =>
    rw [look_some hn hm, if_neg hbase] at h
    exact ih h

/-- Of two entries of a layout, the one with the smaller index ends before the other begins. -/
theorem Laid.fin_le {i j : Nat} (h : Laid map) (hi : map[i]? = some a) (hj : map[j]? = some b)
    (hij : i < j) : a.fin ≤ b.base := by
  obtain ⟨hilt, hia⟩ := List.getElem?_eq_some_iff.mp hi
  obtain ⟨hjlt, hjb⟩ := List.getElem?_eq_some_iff.mp hj
  have := pairwise_iff_getElem.mp h.apart i j hilt hjlt hij
  rwa [hia, hjb] at this

/-- **The binary search finds an entry that contains the range**, if there is one between the
bounds. -/
theorem look_complete {pa len tab n k : Nat} (hlaid : Laid map) (hk : map[k]? = some e)
    (htop : e.fin < 2 ^ 64) (hbase : e.base ≤ pa) (hfin : pa + len ≤ e.fin) (htab : tab ≤ k)
    (hn : k < tab + n) (hbound : tab + n ≤ map.length) : ∃ j, look map pa len tab n = some j := by
  obtain ⟨hklt, -⟩ := List.getElem?_eq_some_iff.mp hk
  induction tab, n using look.induct map pa len with
  | case1 tab => omega
  | case2 tab n hn' i hnone =>
    have := List.getElem?_eq_none_iff.mp hnone
    omega
  | case3 tab n hn' i m hm hmb hlen =>
    exact ⟨tab + i, by rw [look_some hn' hm, if_pos hmb, if_pos hlen]⟩
  | case4 tab n hn' i m hm hmb hlen ih =>
    -- the middle entry ends too early, so the range is in one behind it
    have hnowrap : uintmem (pa + len - m.base) = pa + len - m.base := Nat.mod_eq_of_lt (by omega)
    have hright : tab + i < k := by
      rcases Nat.lt_trichotomy k (tab + i) with hlt | heq | hgt
      · have := Laid.fin_le hlaid hk hm hlt
        omega
      · rw [← heq, hk] at hm
        cases hm
        unfold Adrmap.fin at hfin
        omega
      · exact hgt
    obtain ⟨j, hj⟩ := ih (by omega) (by omega) (by omega)
    exact ⟨j, by rw [look_some hn' hm, if_pos hmb, if_neg hlen]; exact hj⟩
  | case5 tab n hn' i m hm hmb ih =>
    have hfull := hlaid.full m (mem_of_getElem? hm)
    have hleft : k < tab + i := by
      rcases Nat.lt_trichotomy k (tab + i) with hlt | heq | hgt
      · exact hlt
      · rw [← heq, hk] at hm
        cases hm
        omega
      · have := Laid.fin_le hlaid hm hk hgt
        omega
    obtain ⟨j, hj⟩ := ih (by omega) (by omega) (by omega)
    exact ⟨j, by rw [look_some hn' hm, if_neg hmb]; exact hj⟩

theorem adrlook_finds {pa len : Nat} (h : Good s) (he : e ∈ s.map) (hbase : e.base ≤ pa)
    (hfin : pa + len ≤ e.fin) : ∃ j m, adrlook s pa len = some j ∧ s.map[j]? = some m ∧
      m.base ≤ pa ∧ pa + len ≤ m.fin ∧ (0 < len → m = e) := by
  have htop := h.top e he
  obtain ⟨k, hklt, hke⟩ := mem_iff_getElem.mp he
  have hk : s.map[k]? = some e := List.getElem?_eq_some_iff.mpr ⟨hklt, hke⟩
  obtain ⟨j, hj⟩ := look_complete (n := s.map.length) h.laid hk htop hbase hfin (Nat.zero_le k)
    (by omega) (by omega)
  obtain ⟨m, hm, hmb, hml⟩ := look_sound hj
  have hnowrap : uintmem (pa + len - m.base) = pa + len - m.base := Nat.mod_eq_of_lt (by omega)
  have hmfin : pa + len ≤ m.fin := by
    unfold Adrmap.fin
    omega
  refine ⟨j, m, hj, hm, hmb, hmfin, fun hpos => ?_⟩
  exact h.laid.eq_of_in (p := pa) (mem_of_getElem? hm) he ⟨hmb, by omega⟩ ⟨hbase, by omega⟩

/-- `insert` puts the new entry in its place among the others. -/
theorem insert_spec (h : Good ⟨map, x :: r⟩) (hfull : 0 < a.len) (htop : a.fin < 2 ^ 64)
    (hapart : ∀ e ∈ map, e.fin ≤ a.base ∨ a.fin ≤ e.base) :
    ∃ l t, map = l ++ t ∧ insert ⟨map, x :: r⟩ a = ⟨l ++ a :: t, r⟩ ∧ Good ⟨l ++ a :: t, r⟩ := by
  let above := fun e : Adrmap => decide (a.base ≤ e.base)
  have hsplit : map = map.rdropWhile above ++ map.rtakeWhile above :=
    (rdropWhile_append_rtakeWhile ..).symm
  refine ⟨map.rdropWhile above, map.rtakeWhile above, hsplit, rfl, ?_⟩
  have hlaid := h.laid
  have hafull : a.base < a.fin := by
    unfold Adrmap.fin
    omega
  have hright : ∀ e ∈ map.rtakeWhile above, a.fin ≤ e.base := by
    intro e he
    have hmem : e ∈ map := by
      rw [hsplit]
      exact mem_append_right _ he
    have hge : a.base ≤ e.base := by simpa [above] using mem_rtakeWhile_imp he
    have := hlaid.full e hmem
    rcases hapart e hmem with hlow | hhigh
    · omega
    · exact hhigh
  have hleft : ∀ e ∈ map.rdropWhile above, e.fin ≤ a.base := by
    intro e he
    have hmem : e ∈ map := by
      rw [hsplit]
      exact mem_append_left _ he
    -- the entry where the shifting stopped begins below the new one, and so do those before it
    have hne : map.rdropWhile above ≠ [] := ne_nil_of_mem he
    have hlast : ¬ above ((map.rdropWhile above).getLast hne) = true :=
      rdropWhile_last_not above map hne
    have hends := dropLast_concat_getLast hne
    generalize (map.rdropWhile above).getLast hne = z at hlast hends
    have hzmem : z ∈ map := by
      rw [hsplit, ← hends]
      exact mem_append_left _ (mem_append_right _ mem_cons_self)
    have hzbase : z.base < a.base := by simpa [above] using hlast
    have hzfin : z.fin ≤ a.base := (hapart z hzmem).resolve_right (by omega)
    rw [hsplit, ← hends] at hlaid
    obtain ⟨hdrop, -, -⟩ := layout_append.mp hlaid
    obtain ⟨-, -, hle⟩ := layout_append.mp hdrop
    rw [← hends] at he
    rcases mem_append.mp he with he | he
    · have hez := hle e he z mem_cons_self
      have hzfull := h.laid.full z hzmem
      omega
    · rw [mem_singleton.mp he]
      exact hzfin
  have hlaid' : Laid (map.rdropWhile above ++ a :: map.rtakeWhile above) := by
    rw [hsplit] at hlaid
    exact hlaid.insert hafull hleft hright
  refine ⟨hlaid', ?_, ?_⟩
  · intro e he
    rcases mem_append.mp he with he | he
    · exact h.top e (by rw [hsplit]; exact mem_append_left _ he)
    · rcases mem_cons.mp he with rfl | he
      · exact htop
      · exact h.top e (by rw [hsplit]; exact mem_append_right _ he)
  · intro x' hx'
    rcases h.stale x' (mem_cons_of_mem x hx') with hzero | ⟨e, he, hlt⟩
    · exact Or.inl hzero
    · refine Or.inr ⟨e, ?_, hlt⟩
      change e ∈ map at he
      rw [hsplit] at he
      rcases mem_append.mp he with he | he
      · exact mem_append_left _ he
      · exact mem_append_right _ (mem_cons_of_mem a he)

theorem ofInt_pred (align : Int) : ofInt (align - 1) = (ofInt align + 2 ^ 64 - 1) % 2 ^ 64 := by
  unfold ofInt
  omega

/-- An address rounded up is a multiple: the next one, or 0 after an overflow. -/
theorem roundup_spec (y : Nat) (align : Int) (hy : y < 2 ^ 64) :
    ofInt align ∣ roundup y align ∧
      (roundup y align = 0 ∨ y ≤ roundup y align ∧ roundup y align < y + ofInt align) := by
  have hm : ofInt align < 2 ^ 64 := by
    unfold ofInt
    omega
  rw [roundup, ofInt_pred]
  generalize ofInt align = m at hm
  have hdiv := Nat.div_add_mod' (uintmem (y + (m + 2 ^ 64 - 1) % 2 ^ 64)) m
  have hdvd : m ∣ uintmem (y + (m + 2 ^ 64 - 1) % 2 ^ 64) / m * m := Nat.dvd_mul_left m _
  generalize hq : uintmem (y + (m + 2 ^ 64 - 1) % 2 ^ 64) / m * m = q at hdiv hdvd
  rcases Nat.eq_zero_or_pos m with hzero | hpos
  · subst hzero
    rw [Nat.mul_zero] at hq
    subst hq
    exact ⟨hdvd, Or.inl rfl⟩
  · have hmod := Nat.mod_lt (uintmem (y + (m + 2 ^ 64 - 1) % 2 ^ 64)) hpos
    have hqlt : uintmem q = q := by
      apply Nat.mod_eq_of_lt
      unfold uintmem at hdiv
      omega
    rw [hqlt]
    refine ⟨hdvd, ?_⟩
    by_cases hwrap : y + m - 1 < 2 ^ 64
    · unfold uintmem at hdiv hmod
      omega
    · -- the sum overflowed and is less than the alignment
      left
      rw [← hq]
      have hlt : uintmem (y + (m + 2 ^ 64 - 1) % 2 ^ 64) < m := by
        unfold uintmem
        omega
      rw [Nat.div_eq_of_lt hlt, Nat.zero_mul]

/-- A range that fits its entry begins, behind the slop, at a multiple of the alignment. -/
theorem slop_spec {y len room : Nat} {align : Int} (hpos : 0 < len)
    (hfit : len + slop y align ≤ room) (htop : y + room < 2 ^ 64) :
    (align ≠ 0 → ofInt align ∣ y + slop y align) ∧ slop y align < max 1 (ofInt align) := by
  by_cases hzero : align = 0
  · refine ⟨fun hne => absurd hzero hne, ?_⟩
    rw [slop, if_neg (by simpa using hzero)]
    omega
  · have hslop : slop y align = uintmem (roundup y align + 2 ^ 64 - y) := if_pos hzero
    rw [hslop] at hfit ⊢
    obtain ⟨hdvd, hcases⟩ := roundup_spec y align (by omega)
    have hround : roundup y align < 2 ^ 64 := Nat.mod_lt _ (by decide)
    have hsum : y + uintmem (roundup y align + 2 ^ 64 - y) = roundup y align := by
      unfold uintmem at *
      omega
    refine ⟨fun _ => by rwa [hsum], ?_⟩
    omega

/-- What `intadralloc` does to the map: nothing but cutting, or cutting and taking one free
entry of the right type, the range with its slop, into use. -/
inductive Alloc (s s' : Tab) (len : Nat) (align type : Int) (use : UInt8) (memflags : Nat) :
    Nat → Prop
  | fail (h : Refines s s') : Alloc s s' len align type use memflags nomem
  | grant (l r : List Adrmap) (b : Adrmap) (h : Refines s ⟨l ++ b :: r, s'.rest⟩)
      (hfree : b.use = mfree) (htype : type = -1 ∨ (b.type.toNat : Int) = type)
      (hlen : b.len = len + slop b.base align) (hmap : s'.map = l ++ b.grant use cnone memflags :: r) :
      Alloc s s' len align type use memflags (b.base + slop b.base align)

variable {use : UInt8}

theorem Alloc.of_refines {s₀ : Tab} {len n : Nat} {align type : Int} {memflags : Nat}
    (h : Alloc s s' len align type use memflags n) (h₀ : Refines s₀ s) :
    Alloc s₀ s' len align type use memflags n := by
  cases h with
  | fail h => exact Alloc.fail (h₀.trans h)
  | grant l r b h hfree htype hlen hmap =>
    exact Alloc.grant l r b (h₀.trans h) hfree htype hlen hmap

/-- One round of the loop. -/
theorem intadralloc_cons (base len : Nat) (align type : Int) (use : UInt8) (color : Int)
    (memflags : Nat) (front : List Adrmap) (a : Adrmap) (todo rest : List Adrmap) :
    intadralloc base len align type use color memflags front (a :: todo) rest =
      if (type ≠ -1 ∧ (a.type.toNat : Int) ≠ type) ∨ a.use ≠ mfree then
        intadralloc base len align type use color memflags (front ++ [a]) todo rest
      else if base ≠ 0 ∧ (uintmem a.fin < uintmem (base + len) ∨ base < a.base) then
        intadralloc base len align type use color memflags (front ++ [a]) todo rest
      else if base ≠ 0 ∧ a.base < base then
        match rest with
        | [] => none
        | _ :: rest => intadralloc base len align type use color memflags
            (front ++ [a.upto (base - a.base)]) (a.behind (base - a.base) :: todo) rest
      else if a.len < uintmem (len + slop a.base align) then
        intadralloc base len align type use color memflags (front ++ [a]) todo rest
      else if uintmem (len + slop a.base align) < a.len then
        match rest with
        | [] => none
        | _ :: rest => some (⟨front ++
            (a.upto (uintmem (len + slop a.base align))).grant use color memflags ::
              a.behind (uintmem (len + slop a.base align)) :: todo, rest⟩,
            uintmem (a.base + slop a.base align))
      else some (⟨front ++ a.grant use color memflags :: todo, rest⟩,
        uintmem (a.base + slop a.base align)) := by
  cases rest <;> rw [intadralloc]

variable {base len : Nat}

theorem intadralloc_spec {align type : Int} {memflags n : Nat} (hpos : 0 < len)
    (hover : base + len < 2 ^ 64) (hslop : len + slop base align < 2 ^ 64)
    {front todo rest : List Adrmap} (h : Good ⟨front ++ todo, rest⟩)
    (hslops : ∀ e ∈ todo, len + slop e.base align < 2 ^ 64)
    (hrun : intadralloc base len align type use cnone memflags front todo rest = some (s', n)) :
    Alloc ⟨front ++ todo, rest⟩ s' len align type use memflags n := by
  fun_induction intadralloc base len align type use cnone memflags front todo rest with
  | case1 front rest =>
    cases hrun
    rw [append_nil] at h ⊢
    exact Alloc.fail (Refines.refl h)
  | case2 front a todo rest hskip ih | case3 front a todo rest htype hbase ih
  | case6 front a todo rest htype hbase hsplit adjlen hshort ih =>
    simp only [append_assoc, singleton_append] at ih
    exact ih h (fun e he => hslops e (mem_cons_of_mem a he)) hrun
  | case4 front a todo htype hbase hsplit => cases hrun
  | case5 front a todo htype hbase hsplit x rest l ih =>
    -- the entry begins below the wanted address: cut it there, and go on with the second part
    simp only [append_assoc, singleton_append] at ih
    have hmem : a ∈ front ++ a :: todo := mem_append_right front mem_cons_self
    have htop := h.top a hmem
    have hfin : base + len ≤ a.fin := by
      simp only [uintmem, not_and, not_or] at hbase
      have := (hbase hsplit.1).1
      change a.fin < 2 ^ 64 at htop
      omega
    have hl : l < a.len := by
      unfold Adrmap.fin at hfin
      omega
    have hcut := h.cut (not_not.mp (not_or.mp htype).2) (by omega) hl
    refine (ih hcut.good ?_ hrun).of_refines hcut
    intro e he
    rcases mem_cons.mp he with rfl | he
    · have hbehind : (a.behind l).base = base := by
        rw [behind_base htop (Nat.le_of_lt hl)]
        omega
      rw [hbehind]
      exact hslop
    · exact hslops e (mem_cons_of_mem a he)
  | case7 front a todo htype hbase hsplit adjlen hshort hlong => cases hrun
  | case8 front a todo htype hbase hsplit adjlen hshort hlong x rest =>
    cases hrun
    have hadj : adjlen = len + slop a.base align :=
      Nat.mod_eq_of_lt (hslops a mem_cons_self)
    have htop := h.top a (mem_append_right front mem_cons_self)
    have hresult : uintmem (a.base + slop a.base align) = a.base + slop a.base align := by
      unfold Adrmap.fin at htop
      exact Nat.mod_eq_of_lt (by omega)
    have hcut := h.cut (not_not.mp (not_or.mp htype).2) (by omega) hlong
    rw [hresult]
    exact Alloc.grant front (a.behind adjlen :: todo) (a.upto adjlen) hcut
      (not_not.mp (not_or.mp htype).2) (by tauto) hadj rfl
  | case9 front a todo rest htype hbase hsplit adjlen hshort hlong =>
    cases hrun
    have hadj : adjlen = len + slop a.base align :=
      Nat.mod_eq_of_lt (hslops a mem_cons_self)
    have htop := h.top a (mem_append_right front mem_cons_self)
    have hresult : uintmem (a.base + slop a.base align) = a.base + slop a.base align := by
      unfold Adrmap.fin at htop
      exact Nat.mod_eq_of_lt (by omega)
    rw [hresult]
    exact Alloc.grant front todo a (Refines.refl h) (not_not.mp (not_or.mp htype).2) (by tauto)
      (by omega) rfl

/-- Once no entry begins below the wanted address, only the last cut may find the array
full. -/
theorem intadralloc_full {align type color : Int} {memflags : Nat} {front todo rest : List Adrmap}
    (hbase : base = 0 ∨ ∀ e ∈ todo, base ≤ e.base)
    (hrun : intadralloc base len align type use color memflags front todo rest = none) :
    rest = [] := by
  fun_induction intadralloc base len align type use color memflags front todo rest with
  | case1 front rest => cases hrun
  | case2 front a todo rest hskip ih | case3 front a todo rest htype hout ih
  | case6 front a todo rest htype hout hsplit adjlen hshort ih =>
    exact ih (hbase.imp_right fun h e he => h e (mem_cons_of_mem a he)) hrun
  | case4 front a todo htype hout hsplit => rfl
  | case5 front a todo htype hout hsplit x rest l ih =>
    rcases hbase with hzero | hle
    · exact absurd hzero hsplit.1
    · have := hle a mem_cons_self
      omega
  | case7 front a todo htype hout hsplit adjlen hshort hlong => rfl
  | case8 front a todo htype hout hsplit adjlen hshort hlong x rest => cases hrun
  | case9 front a todo rest htype hout hsplit adjlen hshort hlong => cases hrun

/-- `intadralloc` cuts at most twice: it panics only with less than two free slots. -/
theorem intadralloc_none {align type color : Int} {memflags : Nat} (hpos : 0 < len)
    (hover : base + len < 2 ^ 64) {front todo rest : List Adrmap} (h : Good ⟨front ++ todo, rest⟩)
    (hrun : intadralloc base len align type use color memflags front todo rest = none) :
    rest.length < 2 := by
  fun_induction intadralloc base len align type use color memflags front todo rest with
  | case1 front rest => cases hrun
  | case2 front a todo rest hskip ih | case3 front a todo rest htype hout ih
  | case6 front a todo rest htype hout hsplit adjlen hshort ih =>
    simp only [append_assoc, singleton_append] at ih
    exact ih h hrun
  | case4 front a todo htype hout hsplit => exact Nat.zero_lt_two
  | case5 front a todo htype hout hsplit x rest l ih =>
    have htop := h.top a (mem_append_right front mem_cons_self)
    obtain ⟨-, -, hfull, -, hbehind, -⟩ := layout_mid.mp h.laid
    have hfin : base + len ≤ a.fin := by
      simp only [uintmem, not_and, not_or] at hout
      have := (hout hsplit.1).1
      change a.fin < 2 ^ 64 at htop
      omega
    have hnil := intadralloc_full (Or.inr fun e he => ?_) hrun
    · rw [hnil]
      exact Nat.one_lt_two
    · rcases mem_cons.mp he with rfl | he
      · rw [behind_base htop (by unfold Adrmap.fin at hfin; omega)]
        omega
      · have := hbehind e he
        omega
  | case7 front a todo htype hout hsplit adjlen hshort hlong => exact Nat.zero_lt_two
  | case8 front a todo htype hout hsplit adjlen hshort hlong x rest => cases hrun
  | case9 front a todo rest htype hout hsplit adjlen hshort hlong => cases hrun

/-- Joining a free entry with the next one. -/
theorem Good.join (h : Good ⟨l ++ a :: b :: r, map⟩) (hfree : b.use = mfree)
    (htype : a.type = b.type) (huse : a.use = b.use) (hcolor : a.color = b.color)
    (hnext : uintmem a.fin = b.base) :
    Refines ⟨l ++ a :: b :: r, map⟩ ⟨l ++ { a with len := uintmem (a.len + b.len) } :: r,
      (l ++ a :: b :: r).drop ((l ++ a :: b :: r).length - 1) ++ map⟩ := by
  have hamem : a ∈ l ++ a :: b :: r := mem_append_right l mem_cons_self
  have hbmem : b ∈ l ++ a :: b :: r :=
    mem_append_right l (mem_cons_of_mem a mem_cons_self)
  have hatop := h.top a hamem
  have hbtop := h.top b hbmem
  have hafull := h.laid.full a hamem
  have hbfull := h.laid.full b hbmem
  have hmeet : a.fin = b.base := by
    rw [← hnext]
    exact (Nat.mod_eq_of_lt hatop).symm
  let c : Adrmap := { a with len := uintmem (a.len + b.len) }
  have hcfin : c.fin = b.fin := by
    simp only [c, Adrmap.fin, uintmem] at *
    omega
  have hview : ∀ p, viewOf (l ++ c :: r) p = viewOf (l ++ a :: b :: r) p := by
    intro p
    refine (view_split (a := c) (b := a) (c := b) rfl hmeet hcfin.symm hafull hbfull rfl ?_).symm
    simp only [Adrmap.attr, c, htype, huse, hcolor]
  have hlaid : Laid (l ++ c :: r) := h.laid.join rfl hcfin
  refine ⟨⟨hlaid, ?_, ?_⟩, hview, ?_⟩
  · intro e he
    rcases mem_append.mp he with he | he
    · exact h.top e (mem_append_left _ he)
    · rcases mem_cons.mp he with rfl | he
      · rw [hcfin]
        exact hbtop
      · exact h.top e (mem_append_right l (mem_cons_of_mem _ (mem_cons_of_mem _ he)))
  · intro x hx
    have hx' : Stale (l ++ a :: b :: r) x := by
      rcases mem_append.mp hx with hx | hx
      · exact Stale.of_mem h.laid (mem_of_mem_drop hx)
      · exact h.stale x hx
    refine hx'.mono h.laid fun p hp => ?_
    rw [hview]
    exact hp
  · intro e he hu
    rcases mem_append.mp he with he | he
    · exact mem_append_left _ he
    · rcases mem_cons.mp he with rfl | he
      · exact absurd (huse.trans hfree) hu
      · rcases mem_cons.mp he with rfl | he
        · exact absurd hfree hu
        · exact mem_append_right l (mem_cons_of_mem _ he)

/-- **`trymerge` of a free entry with the one before or behind it** refines the map, and never
takes a slot for an entry. -/
theorem trymerge_spec (h : Good s) (hmap : s.map = l ++ a :: r) (hrest : s.rest ≠ [])
    (hfree : a.use = mfree ∨ ∃ b t, r = b :: t ∧ b.use = mfree) :
    ∃ s' ok, trymerge s l.length = some (s', ok) ∧ Refines s s' ∧ s'.rest ≠ [] ∧
      (ok = false → s' = s) ∧
      (ok = true → ∃ b t c, r = b :: t ∧ s'.map = l ++ c :: t ∧ c.use = mfree) := by
  obtain ⟨map, rest⟩ := s
  change map = l ++ a :: r at hmap
  subst hmap
  obtain ⟨x, rest, rfl⟩ := exists_cons_of_ne_nil hrest
  have ha : ((l ++ a :: r) ++ x :: rest)[l.length]? = some a := by simp
  cases r with
  | nil =>
    have hx : ((l ++ [a]) ++ x :: rest)[l.length + 1]? = some x := by simp
    refine ⟨_, false, ?_, Refines.refl h, hrest, fun _ => rfl, fun hok => by cases hok⟩
    simp only [trymerge, ha, hx]
    rw [if_neg]
    rintro ⟨-, -, -, hnext⟩
    exact h.no_neighbour hnext
  | cons b t =>
    have hb : ((l ++ a :: b :: t) ++ x :: rest)[l.length + 1]? = some b := by simp
    by_cases hc : a.type = b.type ∧ a.use = b.use ∧ a.color = b.color ∧ uintmem a.fin = b.base
    · obtain ⟨htype, huse, hcolor, hnext⟩ := hc
      have hbfree : b.use = mfree := by
        rcases hfree with hfree | ⟨b', t', heq, hfree⟩
        · rw [← huse, hfree]
        · cases heq
          exact hfree
      have htake : (l ++ a :: b :: t).take l.length = l := by simp
      have hdrop : (l ++ a :: b :: t).drop (l.length + 2) = t := by simp
      refine ⟨_, true, ?_, h.join hbfree htype huse hcolor hnext, ?_, fun hok => absurd hok (by decide),
        fun _ => ⟨b, t, _, rfl, rfl, huse.trans hbfree⟩⟩
      · simp only [trymerge, ha, hb]
        rw [if_pos ⟨htype, huse, hcolor, hnext⟩, if_pos (by simp), htake, hdrop]
      · simp
    · refine ⟨_, false, ?_, Refines.refl h, hrest, fun _ => rfl, fun hok => by cases hok⟩
      simp only [trymerge, ha, hb]
      rw [if_neg hc]

theorem mergeLeft_spec (h : Good s) (hmap : s.map = l ++ a :: r) (hrest : s.rest ≠ [])
    (hfree : a.use = mfree) : ∃ s' l' c r', mergeLeft s l.length = some (s', l'.length) ∧
      Refines s s' ∧ s'.rest ≠ [] ∧ s'.map = l' ++ c :: r' ∧ c.use = mfree := by
  rcases eq_nil_or_concat l with rfl | ⟨l₀, z, rfl⟩
  · exact ⟨s, [], a, r, rfl, Refines.refl h, hrest, hmap, hfree⟩
  · have hmap' : s.map = l₀ ++ z :: (a :: r) := by
      rw [hmap]
      simp
    obtain ⟨s', ok, hrun, hrefines, hrest', hno, hyes⟩ :=
      trymerge_spec h hmap' hrest (Or.inr ⟨a, r, rfl, hfree⟩)
    have hindex : (l₀.concat z).length - 1 = l₀.length := by simp
    have hstart : mergeLeft s (l₀.concat z).length =
        some (s', if ok then (l₀.concat z).length - 1 else (l₀.concat z).length) := by
      rw [mergeLeft, if_pos (by simp), hindex, hrun]
      rfl
    cases ok with
    | false =>
      rw [hno rfl] at hstart
      exact ⟨s, l₀.concat z, a, r, hstart, Refines.refl h, hrest, hmap, hfree⟩
    | true =>
      obtain ⟨b, t, c, heq, hmap'', hcfree⟩ := hyes rfl
      rw [if_pos rfl, hindex] at hstart
      exact ⟨s', l₀, c, t, hstart, hrefines, hrest', hmap'', hcfree⟩

/-- The entry given back. -/
def Adrmap.freed (m : Adrmap) : Adrmap := { m with use := mfree, memflags := 0 }

/-- An entry in place of another one with the same range. -/
theorem Good.swap (h : Good ⟨l ++ a :: r, map⟩) (hbase : b.base = a.base) (hfin : b.fin = a.fin) :
    Good ⟨l ++ b :: r, map⟩ := by
  have hmem : a ∈ l ++ a :: r := mem_append_right l mem_cons_self
  have hfull := h.laid.full a hmem
  refine ⟨h.laid.replace (by omega) (by omega) (by omega), ?_, ?_⟩
  · intro e he
    rcases mem_append.mp he with he | he
    · exact h.top e (mem_append_left _ he)
    · rcases mem_cons.mp he with rfl | he
      · rw [hfin]
        exact h.top a hmem
      · exact h.top e (mem_append_right l (mem_cons_of_mem a he))
  · intro x hx
    rcases h.stale x hx with hzero | ⟨e, he, hlt⟩
    · exact Or.inl hzero
    · right
      rcases mem_append.mp he with he | he
      · exact ⟨e, mem_append_left _ he, hlt⟩
      · rcases mem_cons.mp he with rfl | he
        · exact ⟨b, mem_append_right l mem_cons_self, by omega⟩
        · exact ⟨e, mem_append_right l (mem_cons_of_mem b he), hlt⟩

/-- **`adrfree` of an entry in use** gives it back, and then only joins entries. -/
theorem adrfree_spec {m : Adrmap} (h : Good s) (hmap : s.map = l ++ m :: r) (hrest : s.rest ≠ [])
    (hlook : adrlook s base len = some l.length) (huse : m.use ≠ mfree) :
    ∃ s', adrfree s base len = some s' ∧ Refines ⟨l ++ m.freed :: r, s.rest⟩ s' := by
  obtain ⟨map, rest⟩ := s
  change map = l ++ m :: r at hmap
  subst hmap
  have hget : (l ++ m :: r)[l.length]? = some m := by simp
  have hset : (l ++ m :: r).set l.length m.freed = l ++ m.freed :: r := by simp
  have hgood : Good ⟨l ++ m.freed :: r, rest⟩ := h.swap rfl rfl
  obtain ⟨s₁, l', c, t, hleft, hrefines, hrest₁, hmap₁, hcfree⟩ :=
    mergeLeft_spec hgood rfl hrest rfl
  obtain ⟨s₂, ok, hright, hrefines₂, -, -, -⟩ :=
    trymerge_spec hrefines.good hmap₁ hrest₁ (Or.inl hcfree)
  refine ⟨s₂, ?_, hrefines.trans hrefines₂⟩
  have hlt : l'.length < s₁.map.length := by
    rw [hmap₁]
    simp
  simp only [adrfree, hlook, hget, if_neg huse]
  rw [show ({ m with use := mfree, memflags := 0 } : Adrmap) = m.freed from rfl, hset, hleft]
  simp only [Option.bind_eq_bind, Option.bind_some, if_pos hlt, hright]
  rfl

end Adr
