import NixKernel.Ip6Header

/-!
# Forwarding IPv6 packets

The part of `ipiput6` that forwards to an interface whose `reassemble` is 0: `pullupblock` for the first
block, `procxtns` without reassembly, and `ipoput6`.  A packet keeps its contents but for the hop limit
unless `unfraglen` takes the value FH out of its chain of headers, or it is shorter than it says.
-/

namespace Ip6

open List Option
open Ip4 (hnputs ipMax)

variable {bp p : Packet} {n nx : UInt8}

/-- "collecting up to the first 64 bytes in the first block", `m` of them behind the header. -/
def collect (m : Nat) : List (List UInt8) → List (List UInt8)
  | b :: c :: t =>
    if m ≤ b.length then b :: c :: t
    else if m - b.length < c.length then (b ++ c.take (m - b.length)) :: c.drop (m - b.length) :: t
    else collect m ((b ++ c) :: t)
  | bs => bs
termination_by bs => bs.length

/-- `procxtns` with doreasm == 0. -/
def passxtns (bp : Packet) : Option Packet := (unfraglen bp false).map fun r => r.2.2

/-- `IPV6CLASS` -/
def ipv6class (h : Hdr) : Nat := (h.vcf0.toNat &&& 0x0F) <<< 2 ||| (h.vcf1.toNat &&& 0xF0) >>> 2

/-- The end of `ipiput6` for a packet that is not for this host. -/
def forward (medialen : Option Int) (id6 : Nat) (bp : Packet) : Oput :=
  let bp : Packet := { bp with blocks := collect 24 bp.blocks }
  if bp.hdr.ttl < 1 then .discarded
  else
    match passxtns bp with
    | none => .overrun
    | some bp => ipoput6 medialen 0 id6 bp true (bp.hdr.ttl - 1) (ipv6class bp.hdr)

/-- The header, and the bytes of the payload. -/
def content (p : Packet) : Hdr × List UInt8 := (p.hdr, p.blocks.flatten.take p.hdr.ploadlen)

/-- The packet is what has been received but for the hop limit. -/
def Transparent (bp p : Packet) : Prop := content p = content { bp with hdr := { bp.hdr with ttl := bp.hdr.ttl - 1 } }

/-- The packet has all the bytes that it says; and the value FH that announces a fragment header is the
value in that header too, or lies behind the payload. -/
def Unmarked (bp : Packet) : Prop := bp.hdr.ploadlen ≤ bp.blocks.flatten.length ∧
  ∀ xs rest, Chained bp.hdr.proto xs fh → bp.blocks.flatten = xs.flatMap Ext.bytes ++ rest →
    rest.head? = some fh ∨ (xs ≠ [] ∧ bp.hdr.ploadlen ≤ (xs.dropLast.flatMap Ext.bytes).length)

theorem flatten_collect (m : Nat) (bs : List (List UInt8)) : (collect m bs).flatten = bs.flatten := by
  induction bs using collect.induct m with
  | case1 b c t hle => rw [collect, if_pos hle]
  | case2 b c t hle hlt =>
    rw [collect, if_neg hle, if_pos hlt]
    simp only [flatten_cons, append_assoc, take_append_drop, ← append_assoc (c.take _)]
  | case3 b c t hle hlt ih =>
    rw [collect, if_neg hle, if_neg hlt, ih]
    simp only [flatten_cons, append_assoc]
  | case4 bs hbs =>
    cases bs with
    | nil => rw [collect]; nofun
    | cons b t =>
      cases t with
      | nil => rw [collect]; nofun
      | cons c t => exact absurd rfl (hbs b c t)

/-- The bytes say where a chain of headers ends. -/
theorem Chained.unique {xs ys : List Ext} {n' : UInt8} {rest rest' : List UInt8} (hx : Chained nx xs n)
    (hy : Chained nx ys n') (heq : xs.flatMap Ext.bytes ++ rest = ys.flatMap Ext.bytes ++ rest') :
    xs = ys ∧ n = n' ∧ rest = rest' := by
  induction xs generalizing nx ys with
  | nil =>
    obtain ⟨rfl, hno⟩ := hx
    cases ys with
    | nil => exact ⟨rfl, hy.1, heq⟩
    | cons y ys => exact absurd hy.1 hno
  | cons x xs ih =>
    cases ys with
    | nil =>
      obtain ⟨rfl, hno⟩ := hy
      exact absurd hx.1 hno
    | cons y ys =>
      rw [flatMap_cons, flatMap_cons, append_assoc, append_assoc, Ext.bytes, Ext.bytes] at heq
      obtain ⟨hnext, heq⟩ := List.cons.inj heq
      obtain ⟨hlen, heq⟩ := List.cons.inj heq
      have hsize : x.rest.length = y.rest.length := by rw [x.size, y.size, hlen]
      obtain ⟨hrest, heq⟩ := append_inj heq hsize
      obtain ⟨rfl, hn, hr⟩ := ih hx.2 (hnext ▸ hy.2) heq
      obtain ⟨a, b, r, hxs⟩ := x
      obtain ⟨a', b', r', hys⟩ := y
      cases hnext
      cases hlen
      cases hrest
      exact ⟨rfl, hn, hr⟩

/-- The byte that says what comes behind the headers: `q` at the end of `unfraglen`. -/
def lastNext (xs : List Ext) : Option Nat := if xs = [] then none else some (xs.dropLast.flatMap Ext.bytes).length

/-- **What `procxtns` does to a packet**: where a fragment header is announced, the value FH is overwritten
with the one in that header. -/
theorem passxtns_spec {bp' : Packet} (h : passxtns bp = some bp') :
    (bp' = bp ∧ ∀ xs rest, Chained bp.hdr.proto xs fh → bp.blocks.flatten ≠ xs.flatMap Ext.bytes ++ rest) ∨
      ∃ xs v rest, Chained bp.hdr.proto xs fh ∧ bp.blocks.flatten = xs.flatMap Ext.bytes ++ v :: rest ∧
        bp' = bp.setNext (lastNext xs) v ∧ ∀ j, lastNext xs = some j → j < bp.first.length ∧ bp.first[j]? = some fh := by
  obtain ⟨⟨uflen, n, bp''⟩, hrun, rfl⟩ := map_eq_some_iff.mp h
  simp only [unfraglen, bind_eq_bind, bind_eq_some_iff] at hrun
  obtain ⟨⟨n', q, e⟩, hskip, hout⟩ := hrun
  split at hout
  · next hfh =>
    obtain rfl : n' = fh := hfh
    obtain ⟨bp₁, hread, hout⟩ := bind_eq_some_iff.mp hout
    obtain ⟨v, hv, rfl⟩ := map_eq_some_iff.mp hread
    cases hout
    obtain ⟨he, hv⟩ := List.getElem?_eq_some_iff.mp hv
    have hle := (first_initial bp).length_le
    obtain ⟨xs, hchain, hdrop, hlen, -, hq⟩ := chained_of_skipExt hskip (first_initial bp) (by omega)
    rw [drop_zero, drop_eq_getElem_cons (by omega), ← (first_initial bp).getElem he, hv] at hdrop
    have hlast : q = lastNext xs := by
      rw [hq, lastNext]
      simp only [Nat.zero_add]
    refine Or.inr ⟨xs, v, _, hchain, hdrop, by rw [← hlast]; rfl, fun j hj => ?_⟩
    rw [← hlast] at hj
    rcases (skipExt_spec hskip).2 with ⟨hnone, -, -⟩ | ⟨-, i, hi, hget, -, -⟩
    · rw [hnone] at hj
      cases hj
    · rw [hi] at hj
      cases hj
      exact ⟨(List.getElem?_eq_some_iff.mp hget).1, hget⟩
  · next hne =>
    cases hout
    refine Or.inl ⟨rfl, fun xs rest hchain hbytes => ?_⟩
    -- the last header may end behind the packet, whatever is there
    have hprefix : bp.first <+: bp.blocks.flatten ++ List.replicate e 0 :=
      (first_initial bp).trans (prefix_append _ _)
    obtain ⟨ys, hchain', hdrop, -, -, -⟩ := chained_of_skipExt hskip hprefix
      (by rw [length_append, length_replicate]; omega)
    rw [drop_zero, hbytes, append_assoc] at hdrop
    exact hne (hchain.unique hchain' hdrop).2.1.symm

/-- **What `ipoput6` sends** of a gated packet, where it sends it as it is. -/
theorem ipoput6_sent {medialen : Option Int} {reassemble : Int} {id6 ttl tos : Nat}
    (h : ipoput6 medialen reassemble id6 bp true ttl tos = .sent p) :
    p = { bp with hdr := { bp.hdr with ttl := ttl, ploadlen := min bp.hdr.ploadlen bp.blocks.flatten.length } } := by
  have hlen : outLen bp true = min bp.hdr.ploadlen bp.blocks.flatten.length + ip6hdr := by
    rw [outLen, if_pos rfl, Nat.add_comm ip6hdr, Nat.add_min_add_right]
  simp only [ipoput6] at h
  split at h
  · cases h
  · split at h
    · cases h
    · next hmax =>
      split at h
      · cases h
      · split at h
        · cases h
          have hfits : hnputs (outLen bp true - ip6hdr) = min bp.hdr.ploadlen bp.blocks.flatten.length := by
            rw [hlen] at hmax ⊢
            rw [Nat.add_sub_cancel, hnputs, Nat.mod_eq_of_lt]
            rw [ipMax] at hmax
            omega
          rw [hfits]
          rfl
        · split at h
          · cases h
          · split at h
            · cases h
            · split at h
              · cases h
              · split at h
                · cases h
                · split at h
                  · cases h
                  · split at h
                    · cases h
                    · cases h

theorem take_set_eq {l : List UInt8} {j : Nat} {v w : UInt8} (hj : l[j]? = some w) (m : Nat) :
    (l.set j v).take m = l.take m ↔ v = w ∨ m ≤ j := by
  obtain ⟨hlt, hw⟩ := List.getElem?_eq_some_iff.mp hj
  constructor
  · intro h
    by_cases hm : m ≤ j
    · exact Or.inr hm
    · have hget := congrArg (·[j]?) h
      simp only [List.getElem?_take_of_lt (Nat.lt_of_not_le hm), List.getElem?_set_self hlt, hj] at hget
      exact Or.inl (some.inj hget)
  · intro h
    rcases h with rfl | hm
    · rw [← hw, set_getElem_self]
    · rw [List.take_set, set_eq_of_length_le]
      rw [length_take]
      omega

/-- The packet that is sent, against the one that was received. -/
theorem transparent_iff {proto : UInt8} {blocks : List (List UInt8)} :
    Transparent bp ⟨{ bp.hdr with proto := proto, ttl := bp.hdr.ttl - 1,
                                  ploadlen := min bp.hdr.ploadlen bp.blocks.flatten.length }, blocks⟩ ↔
      bp.hdr.ploadlen ≤ bp.blocks.flatten.length ∧ proto = bp.hdr.proto ∧
        blocks.flatten.take bp.hdr.ploadlen = bp.blocks.flatten.take bp.hdr.ploadlen := by
  rw [Transparent, content, content, Prod.mk.injEq, Hdr.mk.injEq]
  constructor
  · intro h
    obtain ⟨⟨-, -, -, hlen, hproto, -, -, -⟩, hbytes⟩ := h
    dsimp only at hlen hbytes
    rw [hlen] at hbytes
    exact ⟨by omega, hproto, hbytes⟩
  · intro h
    obtain ⟨hle, hproto, hbytes⟩ := h
    dsimp only
    rw [Nat.min_eq_left hle]
    exact ⟨⟨rfl, rfl, rfl, rfl, hproto, rfl, rfl, rfl⟩, hbytes⟩

theorem unmarked_iff {xs : List Ext} {v : UInt8} {rest : List UInt8} (hchain : Chained bp.hdr.proto xs fh)
    (hbytes : bp.blocks.flatten = xs.flatMap Ext.bytes ++ v :: rest) : Unmarked bp ↔
      bp.hdr.ploadlen ≤ bp.blocks.flatten.length ∧
        (v = fh ∨ (xs ≠ [] ∧ bp.hdr.ploadlen ≤ (xs.dropLast.flatMap Ext.bytes).length)) := by
  rw [Unmarked]
  refine and_congr_right fun _ => ?_
  constructor
  · intro h
    rcases h xs (v :: rest) hchain hbytes with hv | hbehind
    · exact Or.inl (some.inj hv)
    · exact Or.inr hbehind
  · intro h ys rest' hchain' hbytes'
    obtain ⟨rfl, -, rfl⟩ := hchain.unique hchain' (hbytes.symm.trans hbytes')
    rcases h with hv | hbehind
    · exact Or.inl (congrArg some hv)
    · exact Or.inr hbehind

/-- **Forwarding is transparent** for the packets that are not marked, and for no others. -/
theorem forward_transparent {medialen : Option Int} {id6 : Nat} (h : forward medialen id6 bp = .sent p) :
    Transparent bp p ↔ Unmarked bp := by
  simp only [forward] at h
  split at h
  · cases h
  · split at h
    · cases h
    · next bp' hpass =>
      have hp := ipoput6_sent h
      have hsame : (collect 24 bp.blocks).flatten = bp.blocks.flatten := flatten_collect 24 _
      rcases passxtns_spec hpass with ⟨rfl, hno⟩ | ⟨xs, v, rest, hchain, hbytes, rfl, hlast⟩
      · rw [hsame] at hp
        subst hp
        rw [transparent_iff, hsame, Unmarked]
        dsimp only at hno
        rw [hsame] at hno
        exact ⟨fun h => ⟨h.1, fun xs rest hchain hbytes => absurd hbytes (hno xs rest hchain)⟩, fun h => ⟨h.1, rfl, rfl⟩⟩
      · dsimp only at hbytes
        rw [hsame] at hbytes
        have hunmarked : Unmarked bp ↔ _ := unmarked_iff hchain hbytes
        rw [hunmarked]
        by_cases hxs : xs = []
        · -- the value is in the header of the packet
          subst hxs
          have hproto : bp.hdr.proto = fh := hchain.1
          have hmark : ({ bp with blocks := collect 24 bp.blocks } : Packet).setNext (lastNext []) v =
              ⟨{ bp.hdr with proto := v }, collect 24 bp.blocks⟩ := rfl
          rw [hmark] at hp
          dsimp only at hp
          rw [hsame] at hp
          subst hp
          rw [transparent_iff, hsame, hproto]
          exact ⟨fun h => ⟨h.1, Or.inl h.2.1⟩, fun h => ⟨h.1, h.2.elim id fun h => absurd rfl h.1, rfl⟩⟩
        · -- the value is in the last of the headers
          have hj : lastNext xs = some (xs.dropLast.flatMap Ext.bytes).length := if_neg hxs
          obtain ⟨hlt, hget⟩ := hlast _ hj
          generalize (xs.dropLast.flatMap Ext.bytes).length = j at hj hlt hget ⊢
          have hset : ((⟨bp.hdr, collect 24 bp.blocks⟩ : Packet).first.set j v :: (collect 24 bp.blocks).tail).flatten =
              bp.blocks.flatten.set j v := by
            rw [flatten_cons, ← set_append_left _ _ hlt]
            exact congrArg (List.set · j v) ((first_append_tail ⟨bp.hdr, collect 24 bp.blocks⟩).trans hsame)
          have hget' : bp.blocks.flatten[j]? = some fh := by
            rw [← hsame, ← first_append_tail ⟨bp.hdr, collect 24 bp.blocks⟩, List.getElem?_append_left hlt, hget]
          have hmark : ({ bp with blocks := collect 24 bp.blocks } : Packet).setNext (lastNext xs) v =
              ⟨bp.hdr, (⟨bp.hdr, collect 24 bp.blocks⟩ : Packet).first.set j v :: (collect 24 bp.blocks).tail⟩ := by
            rw [hj]
            rfl
          rw [hmark] at hp
          dsimp only at hp
          rw [hset, length_set] at hp
          subst hp
          rw [transparent_iff, hset, take_set_eq hget']
          exact ⟨fun h => ⟨h.1, h.2.2.imp id fun hle => ⟨hxs, hle⟩⟩,
            fun h => ⟨h.1, rfl, h.2.imp id fun hboth => hboth.2⟩⟩

/-- A UDP packet behind a hop-by-hop header. -/
def plainHop : Packet := ⟨⟨0x60, 0, 0, 12, hbh, 64, 1, 2⟩, [[17, 0, 1, 4, 0, 0, 0, 0, 1, 2, 3, 4]]⟩

theorem collect_single (m : Nat) (b : List UInt8) : collect m [b] = [b] := by
  rw [collect]
  nofun

theorem forward_transparent_hop : ∃ p, forward (some 1500) 0 plainHop = .sent p ∧ (Transparent plainHop p ↔ Unmarked plainHop) ∧
    Transparent plainHop p := by
  have hrun : forward (some 1500) 0 plainHop = .sent ⟨{ plainHop.hdr with ttl := 63 }, plainHop.blocks⟩ := by
    rw [forward, plainHop]
    dsimp only
    rw [collect_single]
    decide
  exact ⟨_, hrun, forward_transparent hrun, rfl⟩

/-- The first fragment of a UDP packet. -/
def fragment : Packet := ⟨⟨0x60, 0, 0, 16, fh, 64, 1, 2⟩, [[17, 0, 0, 1, 0, 0, 0, 5, 1, 2, 3, 4, 5, 6, 7, 8]]⟩

/-- **A forwarded fragment is no longer one**: its header says UDP, with the fragment header as the data. -/
theorem fragment_marked : ∃ p, forward (some 1500) 0 fragment = .sent p ∧ p.hdr.proto = 17 ∧ ¬Transparent fragment p := by
  have hrun : forward (some 1500) 0 fragment = .sent ⟨{ fragment.hdr with proto := 17, ttl := 63 }, fragment.blocks⟩ := by
    rw [forward, fragment]
    dsimp only
    rw [collect_single]
    decide
  refine ⟨_, hrun, rfl, fun h => ?_⟩
  have hproto := congrArg (fun c => c.1.proto) h
  exact absurd hproto (by decide)

end Ip6
