import NixKernel.Ip6fragRound

/-!
# Chains of IPv6 headers

`unfraglen` follows the lengths that a packet gives for its hop-by-hop and routing headers.  It stays in
the packet exactly when the bytes behind the header are such headers, each complete and begun in the first
block, and a fragment header that is complete, if one comes next.
-/

namespace Ip6

open List Option

variable {bp : Packet} {b c : List UInt8} {fuel p e : Nat} {nx n : UInt8} {q q0 : Option Nat}

/-- A hop-by-hop or routing header: "(hdrlen+1)*8" bytes. -/
structure Ext where
  next : UInt8
  len : UInt8
  rest : List UInt8
  size : rest.length = len.toNat * 8 + 6

def Ext.bytes (x : Ext) : List UInt8 := x.next :: x.len :: x.rest

theorem Ext.length_bytes (x : Ext) : x.bytes.length = (x.len.toNat + 1) * 8 := by
  rw [Ext.bytes, length_cons, length_cons, x.size]
  omega

/-- The headers announce one another, the first announced by `nx`, and what comes last is `n`. -/
def Chained : UInt8 → List Ext → UInt8 → Prop
  | nx, [], n => nx = n ∧ ¬IsExt n
  | nx, x :: xs, n => IsExt nx ∧ Chained x.next xs n

/-- What `unfraglen` is to do with a packet: it ends, it has read nothing behind the first block, and
the length lies in the packet, with the fragment header there if there is one. -/
def Inside (bp : Packet) : Prop := ∃ uflen n bp', unfraglen bp false = some (uflen, n, bp') ∧
  uflen ≤ ip6hdr + bp.blocks.flatten.length ∧
    (n = fh → uflen + ip6fhdr ≤ ip6hdr + bp.blocks.flatten.length)

/-- The bytes behind the header are headers that each begin in the first block. -/
def HoldsHeaders (bp : Packet) : Prop := ∃ xs n rest, Chained bp.hdr.proto xs n ∧
  bp.blocks.flatten = xs.flatMap Ext.bytes ++ rest ∧
    (∀ pre x post, xs = pre ++ x :: post → (pre.flatMap Ext.bytes).length + 2 ≤ bp.first.length) ∧
      (n = fh → (xs.flatMap Ext.bytes).length < bp.first.length ∧ ip6fhdr ≤ rest.length)

theorem skipExt_le (h : skipExt b fuel nx q0 p = some (n, q, e)) : p ≤ e := by
  rcases (skipExt_spec h).2 with ⟨-, rfl, -⟩ | ⟨-, j, -, -, hpos, hend⟩
  · exact Nat.le_refl _
  · omega

/-- **What has been walked over are headers**, where they lie in the bytes `c`. -/
theorem chained_of_skipExt (h : skipExt b fuel nx q0 p = some (n, q, e)) (hb : b <+: c) (he : e ≤ c.length) :
    ∃ xs, Chained nx xs n ∧ c.drop p = xs.flatMap Ext.bytes ++ c.drop e ∧ p + (xs.flatMap Ext.bytes).length = e ∧
      (∀ pre x post, xs = pre ++ x :: post → p + (pre.flatMap Ext.bytes).length + 2 ≤ b.length) ∧
        q = if xs = [] then q0 else some (p + (xs.dropLast.flatMap Ext.bytes).length) := by
  induction fuel generalizing nx q0 p with
  | zero => cases h
  | succ fuel ih =>
    rw [skipExt] at h
    split at h
    · next hext =>
      split at h
      · next m l hm hl =>
        obtain ⟨xs, hchain, hdrop, hlen, hstart, hq⟩ := ih h
        have hle := skipExt_le h
        obtain ⟨hp1, hl⟩ := List.getElem?_eq_some_iff.mp hl
        obtain ⟨hp, hm⟩ := List.getElem?_eq_some_iff.mp hm
        have hprefix := hb.length_le
        rw [hb.getElem hp] at hm
        rw [hb.getElem hp1] at hl
        -- the header at `p`, and what comes behind it
        have hsplit : c.drop p = m :: l :: ((c.drop (p + 2)).take (l.toNat * 8 + 6) ++ c.drop (p + (l.toNat + 1) * 8)) := by
          rw [drop_eq_getElem_cons (by omega : p < c.length), drop_eq_getElem_cons (by omega : p + 1 < c.length)]
          have hback : (c.drop (p + 2)).drop (l.toNat * 8 + 6) = c.drop (p + (l.toNat + 1) * 8) := by
            rw [drop_drop]
            congr 1
            omega
          rw [← hback, take_append_drop, hm, hl]
        have hsize : ((c.drop (p + 2)).take (l.toNat * 8 + 6)).length = l.toNat * 8 + 6 := by
          rw [length_take, length_drop]
          omega
        let x : Ext := ⟨m, l, (c.drop (p + 2)).take (l.toNat * 8 + 6), hsize⟩
        refine ⟨x :: xs, ⟨hext, hchain⟩, ?_, ?_, ?_, ?_⟩
        · rw [hsplit, hdrop, flatMap_cons, append_assoc]
          rfl
        · rw [flatMap_cons, length_append, x.length_bytes]
          change p + ((l.toNat + 1) * 8 + _) = e
          omega
        · intro pre y post heq
          cases pre with
          | nil =>
            rw [flatMap_nil, length_nil]
            omega
          | cons z pre =>
            obtain ⟨rfl, hxs⟩ := List.cons.inj heq
            have hrest := hstart pre y post hxs
            rw [flatMap_cons, length_append, x.length_bytes]
            change p + ((l.toNat + 1) * 8 + _) + 2 ≤ _
            omega
        · rw [hq, if_neg (cons_ne_nil x xs)]
          split
          · next hnil =>
            rw [hnil]
            rfl
          · next hcons =>
            rw [dropLast_cons_of_ne_nil hcons, flatMap_cons, length_append, x.length_bytes, Nat.add_assoc]
      · cases h
    · next hext =>
      cases h
      exact ⟨[], ⟨rfl, hext⟩, rfl, rfl, (fun pre x post heq => by cases pre <;> cases heq), rfl⟩

/-- **Headers are walked over**, where each begins in the block. -/
theorem skipExt_of_chained {xs : List Ext} {rest : List UInt8} (hchain : Chained nx xs n)
    (hdrop : c.drop p = xs.flatMap Ext.bytes ++ rest) (hb : b <+: c)
    (hstart : ∀ pre x post, xs = pre ++ x :: post → p + (pre.flatMap Ext.bytes).length + 2 ≤ b.length)
    (hfuel : xs.length < fuel) :
    ∃ q, skipExt b fuel nx q0 p = some (n, q, p + (xs.flatMap Ext.bytes).length) := by
  induction xs generalizing nx q0 p fuel with
  | nil =>
    obtain ⟨fuel, rfl⟩ : ∃ k, fuel = k + 1 := ⟨fuel - 1, by omega⟩
    obtain ⟨rfl, hext⟩ := hchain
    refine ⟨q0, ?_⟩
    rw [skipExt, if_neg (by exact hext)]
    rfl
  | cons x xs ih =>
    obtain ⟨fuel, rfl⟩ : ∃ k, fuel = k + 1 := ⟨fuel - 1, by omega⟩
    obtain ⟨hext, hchain⟩ := hchain
    have hfirst := hstart [] x xs rfl
    rw [flatMap_nil, length_nil] at hfirst
    rw [flatMap_cons, append_assoc] at hdrop
    have hget : ∀ i, i < 2 → b[p + i]? = x.bytes[i]? := by
      intro i hi
      have hlen := x.length_bytes
      have hc : (c)[p + i]? = b[p + i]? := by
        rw [List.getElem?_eq_getElem (by omega : p + i < b.length), hb.getElem]
        exact List.getElem?_eq_getElem _
      rw [← hc, ← List.getElem?_drop, hdrop, List.getElem?_append_left (by omega)]
    have hnext : c.drop (p + (x.len.toNat + 1) * 8) = xs.flatMap Ext.bytes ++ rest := by
      rw [← drop_drop, hdrop, ← x.length_bytes, drop_left]
    have hbehind : ∀ pre y post, xs = pre ++ y :: post →
        p + (x.len.toNat + 1) * 8 + (pre.flatMap Ext.bytes).length + 2 ≤ b.length := by
      intro pre y post heq
      have hcons := hstart (x :: pre) y post (by rw [heq, cons_append])
      rw [flatMap_cons, length_append, x.length_bytes] at hcons
      omega
    rw [length_cons] at hfuel
    obtain ⟨q, hskip⟩ := @ih fuel _ _ (some p) hchain hnext hbehind (by omega)
    refine ⟨q, ?_⟩
    rw [skipExt, if_pos (by exact hext)]
    have h0 := hget 0 (by decide)
    have h1 := hget 1 (by decide)
    rw [Nat.add_zero] at h0
    rw [h0, h1]
    change skipExt b fuel x.next (some p) (p + (x.len.toNat + 1) * 8) = _
    rw [hskip, flatMap_cons, length_append, x.length_bytes, Nat.add_assoc]

/-- As many headers as there are begin in the block. -/
theorem length_le_of_start {xs : List Ext}
    (hstart : ∀ pre x post, xs = pre ++ x :: post → (pre.flatMap Ext.bytes).length + 2 ≤ b.length) : xs.length ≤ b.length := by
  have hlong : ∀ xs : List Ext, xs.length ≤ (xs.flatMap Ext.bytes).length := by
    intro xs
    induction xs with
    | nil => exact Nat.le_refl _
    | cons x xs ih =>
      rw [flatMap_cons, length_append, x.length_bytes, length_cons]
      omega
  rcases eq_nil_or_concat xs with rfl | ⟨pre, x, rfl⟩
  · exact Nat.zero_le _
  · have hlast := hstart pre x [] (concat_eq_append ..)
    have hpre := hlong pre
    rw [length_concat]
    omega

theorem first_initial (bp : Packet) : bp.first <+: bp.blocks.flatten := by
  rw [← first_append_tail]
  exact prefix_append _ _

/-- What `unfraglen` finds, without a mark. -/
theorem unfraglen_iff {uflen : Nat} : (∃ bp', unfraglen bp false = some (uflen, n, bp')) ↔
    ∃ q e, skipExt bp.first (bp.first.length + 1) bp.hdr.proto none 0 = some (n, q, e) ∧ uflen = ip6hdr + e ∧
      (n = fh → e < bp.first.length) := by
  constructor
  · intro h
    obtain ⟨bp', h⟩ := h
    simp only [unfraglen, bind_eq_bind, bind_eq_some_iff] at h
    obtain ⟨⟨n', q, e⟩, hskip, hout⟩ := h
    split at hout
    · obtain ⟨bp'', hread, hout⟩ := bind_eq_some_iff.mp hout
      obtain ⟨v, hv, -⟩ := map_eq_some_iff.mp hread
      cases hout
      exact ⟨q, e, hskip, rfl, fun _ => (List.getElem?_eq_some_iff.mp hv).1⟩
    · next hne =>
      cases hout
      exact ⟨q, e, hskip, rfl, fun hfh => absurd hfh hne⟩
  · intro h
    obtain ⟨q, e, hskip, rfl, hread⟩ := h
    by_cases hfh : n = fh
    · refine ⟨bp.setNext q (bp.first.get ⟨e, hread hfh⟩), ?_⟩
      simp only [unfraglen, hskip, bind_eq_bind, bind_some, if_pos hfh,
        List.getElem?_eq_getElem (hread hfh), map_some]
      rfl
    · refine ⟨bp, ?_⟩
      simp only [unfraglen, hskip, bind_eq_bind, bind_some, if_neg hfh]
      rfl

/-- **`unfraglen` stays in the packet** exactly when the packet holds the headers that it announces. -/
theorem unfraglen_inside (bp : Packet) : Inside bp ↔ HoldsHeaders bp := by
  constructor
  · intro h
    obtain ⟨uflen, n, bp', hrun, hle, hfrag⟩ := h
    obtain ⟨q, e, hskip, rfl, hread⟩ := unfraglen_iff.mp ⟨bp', hrun⟩
    have he : e ≤ bp.blocks.flatten.length := by omega
    obtain ⟨xs, hchain, hdrop, hlen, hstart, -⟩ := chained_of_skipExt hskip (first_initial bp) he
    rw [drop_zero] at hdrop
    rw [Nat.zero_add] at hlen
    refine ⟨xs, n, bp.blocks.flatten.drop e, hchain, hdrop, fun pre x post heq => ?_, fun hfh => ⟨hlen ▸ hread hfh, ?_⟩⟩
    · have hpre := hstart pre x post heq
      rwa [Nat.zero_add] at hpre
    · have hfits := hfrag hfh
      rw [length_drop]
      omega
  · intro h
    obtain ⟨xs, n, rest, hchain, hbytes, hstart, hfrag⟩ := h
    have hfuel := length_le_of_start hstart
    obtain ⟨q, hskip⟩ := @skipExt_of_chained _ _ _ 0 _ _ none _ _ hchain hbytes (first_initial bp)
      (fun pre x post heq => by rw [Nat.zero_add]; exact hstart pre x post heq) (Nat.lt_succ_of_le hfuel)
    rw [Nat.zero_add] at hskip
    obtain ⟨bp', hrun⟩ := (@unfraglen_iff bp n _).mpr ⟨q, _, hskip, rfl, fun hfh => (hfrag hfh).1⟩
    refine ⟨_, n, bp', hrun, ?_, fun hfh => ?_⟩
    · rw [hbytes, length_append]
      omega
    · have hrest := (hfrag hfh).2
      rw [hbytes, length_append]
      omega

/-- A header of 40 bytes that announces a hop-by-hop header, and nothing behind it. -/
def bare : Packet := ⟨⟨0x60, 0, 0, 0, hbh, 64, 1, 2⟩, [[]]⟩

/-- **The walk leaves the packet** for the hop-by-hop header that is not there. -/
theorem unfraglen_leaves : ¬Inside bare := by
  intro h
  obtain ⟨uflen, n, bp', hrun, -⟩ := h
  have hnone : unfraglen bare false = none := by decide
  rw [hnone] at hrun
  cases hrun

end Ip6
