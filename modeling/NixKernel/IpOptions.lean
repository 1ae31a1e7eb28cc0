import NixKernel.IpfragRound
import NixKernel.ReassemblyOverlap

/-!
# Fragments of a packet with options

`ipoput4` copies 20 bytes of the header into each fragment, and with them the `vihl` that announces options; the
options themselves it cuts up as the first bytes of the data.  `ipiput4` takes the announced options off every
fragment.  So each of them arrives with as many bytes too few, and `ip4reassemble` sees a gap behind it, or, when
a fragment is shorter than the options, a length that has gone below zero.
-/

namespace IpOptions

open Reassembly List
open Ip4 (Hdr Packet Key hnputs ip4hdr ipMf ipMbz ipMax fragHdr fragLoop ipoput4 and_two_pow_ne_zero or_ipMf)

/-- The length of the header, in bytes. -/
def headerLength (h : Hdr) : Nat := (h.vihl &&& 0xf) * 4

/-- A packet as it is received: `mem` is the memory behind the first 20 bytes, of which `len` bytes are its own. -/
structure Rcvd where
  hdr : Hdr
  mem : Nat → UInt8
  len : Nat

/-- "strip off the options": the 20 bytes are moved up. -/
def Rcvd.strip (p : Rcvd) : Rcvd :=
  let hl := headerLength p.hdr
  if p.hdr.vihl &&& 0xf ≠ 5 then
    ⟨{ p.hdr with vihl := 0x45, length := hnputs (p.hdr.length + 2 ^ 16 - hl + ip4hdr) },
      fun i => p.mem (i + (hl - ip4hdr)), p.len - (hl - ip4hdr)⟩
  else p

/-- The flag for more fragments goes to `tos`. -/
def Rcvd.mark (p : Rcvd) : Rcvd := { p with hdr := { p.hdr with tos := if p.hdr.frag &&& ipMf ≠ 0 then 1 else 0 } }

/-- A block on a queue. -/
structure Blk where
  hdr : Hdr
  mem : Nat → UInt8

/-- `BLKIP(bl)->frag[0]&(IP_MF>>8)`. -/
def Blk.more (b : Blk) : Bool := (b.hdr.frag / 2 ^ 8) &&& (ipMf / 2 ^ 8) ≠ 0

/-- "move up ih hdrs". -/
def Blk.up (n : Nat) (b : Blk) : Blk := { b with mem := fun i => b.mem (i + n) }

/-- What `ip4reassemble` reads from a packet. -/
def Rcvd.view (p : Rcvd) : View Key Blk where
  key := (p.hdr.src, p.hdr.dst, p.hdr.id)
  single := p.hdr.tos = 0 ∧ p.hdr.frag % ipMf = 0
  frag := ⟨hnputs (p.hdr.frag * 8), hnputs (p.hdr.length + 2 ^ 16 - ip4hdr), ⟨p.hdr, p.mem⟩⟩

/-- The first `n` bytes. -/
def bytes (mem : Nat → UInt8) (n : Nat) : List UInt8 := (List.range n).map mem

/-- "Pullup all the fragment headers and return a complete packet": its header, and the bytes of its blocks behind
the first 20.  The first block has as many bytes as its header says, the others have `flen` each. -/
def join : List (Frag Blk) → Option (Hdr × List UInt8)
  | [] => none
  | b :: t =>
    let len := b.blk.hdr.length
    some ({ b.blk.hdr with length := hnputs (len + (t.map Frag.flen).sum) },
      bytes b.blk.mem (len - ip4hdr) ++ (t.map fun c => bytes c.blk.mem c.flen).flatten.drop (ip4hdr - len))

/-- `ip4reassemble`. -/
def ip4reassemble (tab : Table Key Blk) (now : Nat) (p : Rcvd) : Table Key Blk × Option (Hdr × List UInt8) :=
  if p.hdr.frag &&& ipMbz ≠ 0 then (tab, none)
  else
    match enter Blk.up Blk.more tab now p.view.key p.view.single p.view.frag with
    | (tab, .passed) => (tab, some (p.hdr, bytes p.mem p.len))
    | (tab, .held) => (tab, none)
    | (tab, .done blist) => (tab, join blist)

/-- `ipiput4`, of a packet for this machine whose checksum is right: what goes up the stack. -/
def ipiput4 (tab : Table Key Blk) (now : Nat) (p : Rcvd) : Table Key Blk × Option (Hdr × List UInt8) :=
  if headerLength p.hdr < ip4hdr then (tab, none)
  else
    let p := p.strip
    if p.hdr.frag ≠ 0 then ip4reassemble tab now p.mark
    else (tab, some (p.hdr, bytes p.mem p.len))

/-- Packets that arrive one after the other, with the times. -/
def receive : Table Key Blk → List (Nat × Rcvd) → List (Option (Hdr × List UInt8))
  | _, [] => []
  | tab, (now, p) :: t =>
    let (tab, r) := ipiput4 tab now p
    r :: receive tab t

/-- The packet `p` arrives as `r`.  Its checksum and its `ttl` are left open, and so is the memory behind its
bytes. -/
structure Arrives (p : Packet) (r : Rcvd) : Prop where
  hdr : r.hdr = { p.hdr with ttl := r.hdr.ttl, cksum := r.hdr.cksum }
  len : r.len = p.blocks.flatten.length
  data : bytes r.mem r.len = p.blocks.flatten

/-- What is behind the options of a packet. -/
def payload (bp : Packet) : List UInt8 :=
  (bp.blocks.flatten.take (bp.hdr.length - ip4hdr)).drop (headerLength bp.hdr - ip4hdr)

variable {eh : Hdr} {lid seglen dlen o fuel u : Nat} {xp : List (List UInt8)} {p bp : Packet} {ps : List Packet}
  {r : Rcvd} {k : Key} {tab : Table Key Blk} {xs : List (Nat × Rcvd)}

/-- The fragments from `o` on: all have `seglen` bytes but the last. -/
inductive Sent (eh : Hdr) (lid seglen dlen : Nat) : Nat → List Packet → Prop
  | last {o : Nat} {p : Packet} {data : List UInt8} (hlt : o < dlen) (hle : dlen ≤ o + seglen)
      (hhdr : p.hdr = fragHdr eh lid (o / 8) (dlen - o) data) : Sent eh lid seglen dlen o [p]
  | more {o : Nat} {p : Packet} {ps : List Packet} {data : List UInt8} (hlt : o + seglen < dlen)
      (hhdr : p.hdr = fragHdr eh lid ((o / 8) ||| ipMf) seglen data)
      (hrest : Sent eh lid seglen dlen (o + seglen) ps) : Sent eh lid seglen dlen o (p :: ps)

theorem fragLoop_sent (hseg : 0 < seglen) (hlt : o < dlen) (hfuel : dlen - o ≤ fuel)
    (hrun : fragLoop eh lid seglen dlen fuel o xp = (ps, true)) : Sent eh lid seglen dlen o ps := by
  induction fuel generalizing o xp ps with
  | zero => omega
  | succ fuel ih =>
    rw [fragLoop, if_pos hlt] at hrun
    by_cases hlast : dlen ≤ o + seglen
    · simp only [hlast, decide_true, if_true] at hrun
      split at hrun
      · cases hrun
      · next data xp' hcopy =>
        have hdone : fragLoop eh lid (dlen - o) dlen fuel (o + (dlen - o)) xp' = ([], true) := by
          have hnot : ¬ o + (dlen - o) < dlen := by omega
          cases fuel with
          | zero => rfl
          | succ fuel => rw [fragLoop, if_neg hnot]
        rw [hdone] at hrun
        cases hrun
        exact .last hlt hlast rfl
    · simp only [hlast, decide_false, Bool.false_eq_true, if_false] at hrun
      split at hrun
      · cases hrun
      · next data xp' hcopy =>
        generalize hrest : fragLoop eh lid seglen dlen fuel (o + seglen) xp' = rest at hrun
        obtain ⟨qs, ok⟩ := rest
        cases hrun
        exact .more (by omega) rfl (ih (by omega) (by omega) hrest)

/-- What `ipoput4` sends of a gated packet that does not fit. -/
theorem ipoput4_sent {medialen : Option Int} {id4 ttl tos : Nat}
    (hrun : ipoput4 medialen id4 bp true ttl tos = .fragmented ps) :
    ∃ seglen, 8 ≤ seglen ∧ seglen % 8 = 0 ∧ bp.hdr.length < 2 ^ 16 ∧ seglen < bp.hdr.length - ip4hdr ∧
      Sent { bp.hdr with ttl } bp.hdr.id seglen (bp.hdr.length - ip4hdr + bp.hdr.frag * 8) (bp.hdr.frag * 8) ps := by
  rw [ipoput4] at hrun
  simp only [true_and, if_true] at hrun
  split at hrun
  · cases hrun
  · next hwhole =>
    rw [Nat.min_eq_left (by omega)] at hrun
    split at hrun
    · cases hrun
    · next hmax =>
      split at hrun
      · cases hrun
      · next medialen =>
        split at hrun
        · split at hrun
          · cases hrun
          · cases hrun
        · next hlarge =>
          split at hrun
          · cases hrun
          · split at hrun
            · cases hrun
            · next hseg =>
              simp only [ipMax, ip4hdr] at hmax hlarge hseg
              split at hrun
              · next hok =>
                cases hrun
                refine ⟨((medialen - 20) / 8 * 8).toNat, by omega, by omega, by omega, by simp only [ip4hdr]; omega, ?_⟩
                exact fragLoop_sent (by omega) (by simp only [ip4hdr]; omega) (Nat.le_refl _) (Prod.ext rfl hok)
              · cases hrun

/-- What `ip4reassemble` reads from a fragment of which `u` bytes were taken off. -/
structure Seen (k : Key) (u f len : Nat) (r : Rcvd) : Prop where
  key : r.view.key = k
  foff : r.view.frag.foff = f * 8 % 2 ^ 16
  flen : r.view.frag.flen = (len + 2 ^ 16 - u) % 2 ^ 16
  length : r.view.frag.blk.hdr.length = (len + ip4hdr + 2 ^ 16 - u) % 2 ^ 16
  frag : r.hdr.frag = hnputs f
  tos : r.hdr.tos = if r.hdr.frag &&& ipMf ≠ 0 then 1 else 0

theorem headerLength_le (h : Hdr) : headerLength h ≤ 60 := by
  have hand := Nat.and_le_right (n := h.vihl) (m := 0xf)
  rw [headerLength]
  omega

/-- **The options are taken off** each fragment. -/
theorem Arrives.seen {f len : Nat} {data : List UInt8} (h : Arrives p r) (hhdr : p.hdr = fragHdr eh lid f len data)
    (hopts : 5 < eh.vihl &&& 0xf) :
    Seen (eh.src, eh.dst, hnputs lid) (headerLength eh - ip4hdr) f len r.strip.mark := by
  have hle := headerLength_le eh
  have hge : ip4hdr < headerLength eh := by
    rw [headerLength, ip4hdr]
    omega
  have hr : r.hdr = { fragHdr eh lid f len data with ttl := r.hdr.ttl, cksum := r.hdr.cksum } := by
    rw [← hhdr]
    exact h.hdr
  have hvihl : r.hdr.vihl = eh.vihl := by
    rw [hr]
    rfl
  have hlength : r.hdr.length = hnputs (len + ip4hdr) := by
    rw [hr]
    rfl
  have hfrag : r.hdr.frag = hnputs f := by
    rw [hr]
    rfl
  have hkey : (r.hdr.src, r.hdr.dst, r.hdr.id) = (eh.src, eh.dst, hnputs lid) := by
    rw [hr]
    rfl
  have hhl : headerLength r.hdr = headerLength eh := by rw [headerLength, hvihl, headerLength]
  have hfive : r.hdr.vihl &&& 0xf ≠ 5 := by
    rw [hvihl]
    omega
  have hstrip : r.strip.mark.hdr.length = hnputs (r.hdr.length + 2 ^ 16 - headerLength r.hdr + ip4hdr) := by
    rw [Rcvd.strip, if_pos hfive]
    rfl
  have hsame : r.strip.mark.hdr.frag = r.hdr.frag ∧
      (r.strip.mark.hdr.src, r.strip.mark.hdr.dst, r.strip.mark.hdr.id) = (r.hdr.src, r.hdr.dst, r.hdr.id) := by
    rw [Rcvd.strip, if_pos hfive]
    exact ⟨rfl, rfl⟩
  rw [hlength, hhl] at hstrip
  simp only [hnputs, ip4hdr] at hstrip hge
  refine ⟨hsame.2.trans hkey, ?_, ?_, ?_, hsame.1.trans hfrag, rfl⟩
  · change hnputs (r.strip.mark.hdr.frag * 8) = f * 8 % 2 ^ 16
    rw [hsame.1, hfrag]
    simp only [hnputs]
    omega
  · change hnputs (r.strip.mark.hdr.length + 2 ^ 16 - ip4hdr) = _
    rw [hstrip]
    simp only [hnputs, ip4hdr]
    omega
  · change r.strip.mark.hdr.length = _
    rw [hstrip]
    simp only [ip4hdr]
    omega

/-- The flag for more fragments is out of the way of the offset. -/
theorem offset_or_ipMf (i : Nat) : (i ||| ipMf) * 8 % 2 ^ 16 = i * 8 % 2 ^ 16 := by
  have hlow : (i ||| ipMf) % 2 ^ 13 = i % 2 ^ 13 := by
    rw [Nat.or_mod_two_pow]
    exact Nat.or_zero _
  omega

theorem Sent.head (h : Sent eh lid seglen dlen o ps) (haligned : o % 8 = 0) :
    ∃ p t f len data, ps = p :: t ∧ p.hdr = fragHdr eh lid f len data ∧ f * 8 % 2 ^ 16 = o % 2 ^ 16 := by
  cases h with
  | last _ _ hhdr => exact ⟨_, _, _, _, _, rfl, hhdr, by omega⟩
  | more _ hhdr _ =>
    refine ⟨_, _, _, _, _, rfl, hhdr, ?_⟩
    rw [offset_or_ipMf]
    omega

/-- **Two fragments in succession do not meet.** -/
theorem Sent.gap {rs : List Rcvd} {e : Nat} (h : Sent eh lid seglen dlen o ps) (haligned : o % 8 = 0)
    (hseg : seglen % 8 = 0) (hmore : o + seglen < dlen) (hopts : 5 < eh.vihl &&& 0xf)
    (hrs : List.Forall₂ Arrives ps rs) :
    ¬ Tiles (o % 2 ^ 16) (rs.map fun r => r.strip.mark.view.frag) e := by
  have hle := headerLength_le eh
  have hge : ip4hdr < headerLength eh := by
    rw [headerLength, ip4hdr]
    omega
  cases h with
  | last hlt hlast => omega
  | more hlt hhdr hrest =>
    obtain ⟨q, t, f, len, data, rfl, hsecond, hfoff⟩ := hrest.head (by omega)
    obtain ⟨r, rs', hr, hrs', rfl⟩ := forall₂_cons_left_iff.mp hrs
    obtain ⟨r', rs'', hr', -, rfl⟩ := forall₂_cons_left_iff.mp hrs'
    have hseen := hr.seen hhdr hopts
    have hseen' := hr'.seen hsecond hopts
    rintro ⟨-, -, hnext, -⟩
    have hmeet : r'.strip.mark.view.frag.foff = o % 2 ^ 16 + r.strip.mark.view.frag.flen := hnext
    have hflen := hseen.flen
    have hfoff' := hseen'.foff
    simp only [ip4hdr] at hge hflen
    omega

/-- The fragment that `ip4reassemble` sees at `o`, with `u` bytes taken off. -/
structure Place (u o len : Nat) (m : Bool) (c : Frag Blk) : Prop where
  foff : c.foff = o
  flen : c.flen = (len + 2 ^ 16 - u) % 2 ^ 16
  more : c.blk.more = m
  length : c.blk.hdr.length = (len + ip4hdr + 2 ^ 16 - u) % 2 ^ 16

/-- What `ipiput4` returns when `enter` says what becomes of the fragment. -/
def returned (r : Rcvd) : Table Key Blk × Outcome Blk → Table Key Blk × Option (Hdr × List UInt8)
  | (tab, .passed) => (tab, some (r.hdr, bytes r.mem r.len))
  | (tab, .held) => (tab, none)
  | (tab, .done blist) => (tab, join blist)

/-- The flags of the field `frag`, at an offset that is not the last there is. -/
theorem frag_flags {f : Nat} {m : Bool} (hsmall : o < 2 ^ 16) (hpart : m = true ∨ 8 ≤ o)
    (hf : f = if m then (o / 8) ||| ipMf else o / 8) :
    hnputs f = f ∧ f &&& ipMbz = 0 ∧ f ≠ 0 ∧ (f &&& ipMf ≠ 0 ↔ m = true) ∧ ((f / 2 ^ 8) &&& (ipMf / 2 ^ 8) ≠ 0 ↔ m = true) ∧
      (m = false → f % ipMf ≠ 0) := by
  have hbound : o / 8 < ipMf := by
    simp only [ipMf]
    omega
  have hmbz := and_two_pow_ne_zero f 15
  have hmf := and_two_pow_ne_zero f 13
  have hmore := and_two_pow_ne_zero (f / 2 ^ 8) 5
  simp only [ipMf] at hbound
  cases m with
  | true =>
    rw [if_pos rfl, (or_ipMf hbound).1] at hf
    simp only [ipMf] at hf
    refine ⟨by simp only [hnputs]; omega, ?_, by omega, iff_of_true (hmf.mpr (by omega)) rfl,
      iff_of_true (hmore.mpr (by omega)) rfl, (by simp)⟩
    exact not_not.mp (fun hne => by have hbit := hmbz.mp hne; omega)
  | false =>
    rw [if_neg Bool.false_ne_true] at hf
    have hlow : 8 ≤ o := hpart.resolve_left Bool.false_ne_true
    refine ⟨by simp only [hnputs]; omega, ?_, by omega, iff_of_false (fun hne => ?_) Bool.false_ne_true,
      iff_of_false (fun hne => ?_) Bool.false_ne_true, fun _ => by simp only [ipMf]; omega⟩
    · exact not_not.mp (fun hne => by have hbit := hmbz.mp hne; omega)
    · have hbit := hmf.mp hne
      omega
    · have hbit := hmore.mp hne
      omega

theorem arrives_cons (h : List.Forall₂ Arrives (p :: ps) (xs.map Prod.snd)) :
    ∃ now r t, xs = (now, r) :: t ∧ Arrives p r ∧ List.Forall₂ Arrives ps (t.map Prod.snd) := by
  obtain ⟨r, rs, hr, hrs, hmap⟩ := forall₂_cons_left_iff.mp h
  obtain ⟨x, t, rfl, rfl, rfl⟩ := map_eq_cons_iff.mp hmap
  exact ⟨x.1, x.2, t, rfl, hr, hrs⟩

/-- **The arrival of one fragment** of a whole datagram. -/
theorem Arrives.enters {f len : Nat} {m : Bool} {data : List UInt8} (h : Arrives p r)
    (hhdr : p.hdr = fragHdr eh lid f len data) (hopts : 5 < eh.vihl &&& 0xf) (hsmall : o < 2 ^ 16) (haligned : o % 8 = 0) (hpart : m = true ∨ 8 ≤ o)
    (hf : f = if m then (o / 8) ||| ipMf else o / 8) :
    ∃ c, Place (headerLength eh - ip4hdr) o len m c ∧ ∀ tab now, ipiput4 tab now r =
      returned r.strip.mark (enter Blk.up Blk.more tab now (eh.src, eh.dst, hnputs lid) false c) := by
  obtain ⟨hkey, hfoff, hflen, hlength, hfrag, htos⟩ := h.seen hhdr hopts
  obtain ⟨hput, hmbz, hne, hmf, hmore, hlow⟩ := frag_flags hsmall hpart hf
  rw [hput] at hfrag
  have hfoff' : f * 8 % 2 ^ 16 = o := by
    rw [hf]
    split
    · rw [offset_or_ipMf]
      omega
    · omega
  have hbits : r.strip.mark.view.frag.blk.more = m := by
    change decide (((r.strip.mark.hdr.frag / 2 ^ 8) &&& (ipMf / 2 ^ 8)) ≠ 0) = m
    rw [hfrag]
    cases m with
    | true => exact decide_eq_true (hmore.mpr rfl)
    | false => exact decide_eq_false fun hbit => Bool.false_ne_true (hmore.mp hbit)
  have hsingle : r.strip.mark.view.single = false := by
    refine decide_eq_false ?_
    rintro ⟨hzero, hmod⟩
    rw [htos, hfrag] at hzero
    rw [hfrag] at hmod
    cases m with
    | true =>
      rw [if_pos (hmf.mpr rfl)] at hzero
      cases hzero
    | false => exact hlow rfl hmod
  have hheader : ¬ headerLength r.hdr < ip4hdr := by
    have hvihl : r.hdr.vihl = eh.vihl := by
      rw [h.hdr, hhdr]
      rfl
    rw [headerLength, hvihl, ip4hdr]
    omega
  have hstrip : r.strip.hdr.frag ≠ 0 := by
    have hsame : r.strip.mark.hdr.frag = r.strip.hdr.frag := rfl
    rw [← hsame, hfrag]
    exact hne
  refine ⟨r.strip.mark.view.frag, ⟨hfoff.trans hfoff', hflen, hbits, hlength⟩, fun tab now => ?_⟩
  rw [ipiput4, if_neg hheader]
  dsimp only
  rw [if_pos hstrip, ip4reassemble, if_neg (by rw [hfrag]; exact not_not.mpr hmbz), hkey, hsingle]
  rfl

/-- The queue before the fragment at `o`: there is a gap behind every fragment on it. -/
def Gapped (k : Key) (o : Nat) (tab : Table Key Blk) : Prop :=
  (o = 0 ∧ Absent tab k) ∨ ∃ L, Holding tab k L ∧ (L.Pairwise fun c d => c.foff + c.flen < d.foff) ∧
    (∀ c ∈ L, c.foff + c.flen < o) ∧ ∀ c ∈ L, c.foff = 0 → c.blk.more = true

theorem Gapped.enter {len : Nat} {m : Bool} {c : Frag Blk} (h : Gapped k o tab) (hc : Place u o len m c)
    (hpart : m = true ∨ 8 ≤ o) (now : Nat) :
    ∃ tab', enter Blk.up Blk.more tab now k false c = (tab', .held) ∧
      ∀ o', o + c.flen < o' → Gapped k o' tab' := by
  have hfoff := hc.foff
  have hmore : c.foff = 0 → c.blk.more = true := fun hzero => by
    rw [hc.more]
    exact hpart.resolve_right (by omega)
  rcases h with ⟨-, habs⟩ | ⟨L, hhold, hgaps, hbelow, hopen⟩
  · obtain ⟨tab', henter, hhold⟩ := enter_absent Blk.up Blk.more now habs c
    refine ⟨tab', henter, fun o' hlt => Or.inr ⟨[c], hhold, pairwise_singleton _ _, ?_, ?_⟩⟩
    · exact forall_mem_singleton.mpr (by omega)
    · exact forall_mem_singleton.mpr hmore
  · rw [← hfoff] at hbelow
    have hgaps' : (L ++ [c]).Pairwise fun c d => c.foff + c.flen < d.foff :=
      pairwise_append.mpr ⟨hgaps, pairwise_singleton _ _, fun b hb d hd => by
        rw [mem_singleton.mp hd]
        exact hbelow b hb⟩
    have hopen' : ∀ d ∈ L ++ [c], d.foff = 0 → d.blk.more = true :=
      forall_mem_append.mpr ⟨hopen, forall_mem_singleton.mpr hmore⟩
    have hlink := link_gap Blk.up hbelow
    have hnot := complete_gap hgaps' hopen'
    obtain ⟨tab', out, henter, ⟨-, -, hnone⟩ | ⟨blist, hsome, ⟨rfl, hhold', -⟩ | ⟨-, -, hdone⟩⟩⟩ :=
      enter_queue Blk.up Blk.more now hhold c
    · rw [hlink] at hnone
      cases hnone
    · rw [hlink] at hsome
      cases hsome
      refine ⟨tab', henter, fun o' hlt => Or.inr ⟨L ++ [c], hhold', hgaps', ?_, hopen'⟩⟩
      refine forall_mem_append.mpr ⟨fun b hb => ?_, forall_mem_singleton.mpr (by omega)⟩
      have hb' := hbelow b hb
      omega
    · rw [hlink] at hsome
      cases hsome
      rw [hnot] at hdone
      cases hdone

/-- **Nothing is returned** when the fragments are longer than the options. -/
theorem Sent.gapped (h : Sent eh lid seglen dlen o ps) (hopts : 5 < eh.vihl &&& 0xf)
    (hlong : headerLength eh - ip4hdr ≤ seglen) (hsize : dlen < 2 ^ 16) (haligned : o % 8 = 0) (hseg : seglen % 8 = 0)
    (hfirst : 8 ≤ o ∨ o + seglen < dlen) (hxs : List.Forall₂ Arrives ps (xs.map Prod.snd))
    (hgap : Gapped (eh.src, eh.dst, hnputs lid) o tab) : ∀ q, some q ∉ receive tab xs := by
  have hle := headerLength_le eh
  have hge : 4 ≤ headerLength eh - ip4hdr := by
    rw [headerLength, ip4hdr]
    omega
  induction h generalizing tab xs with
  | last hlt hlast hhdr =>
    obtain ⟨now, r, t, rfl, hr, hrs⟩ := arrives_cons hxs
    obtain rfl := map_eq_nil_iff.mp (forall₂_nil_left_iff.mp hrs)
    have hpart : false = true ∨ 8 ≤ _ := Or.inr (hfirst.resolve_right (by omega))
    obtain ⟨c, hc, hput⟩ := hr.enters hhdr hopts (by omega) haligned hpart rfl
    obtain ⟨tab', henter, -⟩ := hgap.enter hc hpart now
    intro q hq
    rw [receive, hput, henter] at hq
    rcases mem_cons.mp hq with hq | hq
    · cases hq
    · cases hq
  | more hlt hhdr hrest ih =>
    obtain ⟨now, r, t, rfl, hr, hrs⟩ := arrives_cons hxs
    obtain ⟨c, hc, hput⟩ := hr.enters hhdr hopts (by omega) haligned (Or.inl rfl) rfl
    obtain ⟨tab', henter, hnext⟩ := hgap.enter hc (Or.inl rfl) now
    have hflen := hc.flen
    intro q hq
    rw [receive, hput, henter] at hq
    rcases mem_cons.mp hq with hq | hq
    · cases hq
    · exact ih (by omega) (Or.inl (by omega)) hrs (hnext _ (by omega)) q hq

theorem length_bytes (mem : Nat → UInt8) (n : Nat) : (bytes mem n).length = n := by
  rw [bytes, length_map, length_range]

theorem join_length {b : Frag Blk} {t : List (Frag Blk)} {q : Hdr × List UInt8} (hjoin : join (b :: t) = some q) :
    q.2.length = b.blk.hdr.length - ip4hdr + ((t.map Frag.flen).sum - (ip4hdr - b.blk.hdr.length)) := by
  cases hjoin
  have hrest : (t.map fun c => bytes c.blk.mem c.flen).flatten.length = (t.map Frag.flen).sum := by
    rw [length_flatten, map_map]
    congr 1
    exact map_congr_left fun c _ => length_bytes c.blk.mem c.flen
  rw [length_append, length_bytes, length_drop, hrest]

/-- The queue before the fragment at `o`: those in front of the last one have been cut to `seglen` bytes each, and
the last one has a length that went below zero. -/
structure Piled (u seglen o : Nat) (pre : List (Frag Blk)) (c : Frag Blk) : Prop where
  tiles : Tiles 0 pre c.foff
  next : c.foff + seglen = o
  flen : c.flen = seglen + 2 ^ 16 - u
  more : ∀ d ∈ pre ++ [c], d.blk.more = true
  short : ∀ d ∈ pre, d.flen ≤ seglen
  first : ∀ d ∈ (pre ++ [c]).head?, d.blk.hdr.length = (seglen + ip4hdr + 2 ^ 16 - u) % 2 ^ 16

/-- The last one when its end is cut off by the next. -/
def cutTo (seglen : Nat) (c : Frag Blk) : Frag Blk := { c with flen := seglen }

theorem Piled.cut {pre : List (Frag Blk)} {c : Frag Blk} (h : Piled u seglen o pre c) (hseg : 0 < seglen) :
    Tiles 0 (pre ++ [cutTo seglen c]) o ∧ (∀ d ∈ pre ++ [cutTo seglen c], d.blk.more = true ∧ d.flen ≤ seglen) ∧
      ∀ d ∈ (pre ++ [cutTo seglen c]).head?, d.blk.hdr.length = (seglen + ip4hdr + 2 ^ 16 - u) % 2 ^ 16 := by
  obtain ⟨hmore, hlast⟩ := forall_mem_append.mp h.more
  refine ⟨tiles_append.mpr ⟨c.foff, h.tiles, rfl, hseg, h.next⟩, forall_mem_append.mpr ⟨fun d hd => ?_, ?_⟩, ?_⟩
  · exact ⟨hmore d hd, h.short d hd⟩
  · exact forall_mem_singleton.mpr ⟨hlast c mem_cons_self, Nat.le_refl _⟩
  · cases pre with
    | nil =>
      rintro d hd
      cases hd
      exact h.first c rfl
    | cons b t => exact h.first

/-- The next one is linked behind it. -/
theorem Piled.link {pre : List (Frag Blk)} {c p : Frag Blk} {len : Nat} {m : Bool} (h : Piled u seglen o pre c)
    (hp : Place u o len m p) (hlen : 0 < len) (hshort : seglen < u) (hseg : 0 < seglen) (hle : len ≤ seglen) (hu : u ≤ 40) :
    Reassembly.link Blk.up (pre ++ [c]) p = some (pre ++ [cutTo seglen c] ++ [p]) := by
  have hnext := h.next
  have hcflen := h.flen
  have hfoff := hp.foff
  have hpflen := hp.flen
  have hpre : ∀ d ∈ pre, d.foff < p.foff := fun d hd => by
    have hd' := h.tiles.mem hd
    omega
  have hlt : c.foff < p.foff := by omega
  have hin : p.foff < c.foff + c.flen := by omega
  have hbehind : c.foff + c.flen < p.foff + p.flen := by omega
  have hcut : p.foff - c.foff = seglen := by omega
  rw [link_last hpre hlt hin hbehind, hcut]
  rfl

/-- The queue before the fragment at `o`. -/
def Filling (k : Key) (u seglen o : Nat) (tab : Table Key Blk) : Prop :=
  (o = 0 ∧ Absent tab k) ∨ ∃ pre c, Holding tab k (pre ++ [c]) ∧ Piled u seglen o pre c

/-- A fragment that is not the last goes on the queue. -/
theorem Filling.more {c : Frag Blk} (h : Filling k u seglen o tab) (hc : Place u o seglen true c)
    (hshort : seglen < u) (hseg : 0 < seglen) (hu : u ≤ 40) (now : Nat) :
    ∃ tab', enter Blk.up Blk.more tab now k false c = (tab', .held) ∧ Filling k u seglen (o + seglen) tab' := by
  have hfoff := hc.foff
  have hflen := hc.flen
  have hmore := hc.more
  rcases h with ⟨rfl, habs⟩ | ⟨pre, d, hhold, hpiled⟩
  · obtain ⟨tab', henter, hhold⟩ := enter_absent Blk.up Blk.more now habs c
    refine ⟨tab', henter, Or.inr ⟨[], c, hhold, ⟨hfoff.symm, by omega, by omega, ?_, nofun, ?_⟩⟩⟩
    · exact forall_mem_singleton.mpr hmore
    · rintro d hd
      cases hd
      exact hc.length
  · obtain ⟨htiles, hcut, hfirst⟩ := hpiled.cut hseg
    have hlink := hpiled.link hc hseg hshort hseg (Nat.le_refl _) hu
    have hopen : ∀ e ∈ pre ++ [cutTo seglen d] ++ [c], e.blk.more = true :=
      forall_mem_append.mpr ⟨fun e he => (hcut e he).1, forall_mem_singleton.mpr hmore⟩
    obtain ⟨tab', out, henter, ⟨-, -, hnone⟩ | ⟨blist, hsome, ⟨rfl, hhold', -⟩ | ⟨-, -, hdone⟩⟩⟩ :=
      enter_queue Blk.up Blk.more now hhold c
    · rw [hlink] at hnone
      cases hnone
    · rw [hlink] at hsome
      cases hsome
      rw [← hfoff] at htiles
      refine ⟨tab', henter, Or.inr ⟨_, c, hhold', ⟨htiles, by omega, by omega, hopen, fun e he => (hcut e he).2, ?_⟩⟩⟩
      cases pre with
      | nil => exact hfirst
      | cons b t => exact hfirst
    · rw [hlink] at hsome
      cases hsome
      rw [complete_open hopen] at hdone
      cases hdone

/-- **The last one completes a packet that is too long.** -/
theorem Filling.last {c : Frag Blk} {len : Nat} (h : Filling k u seglen o tab) (hc : Place u o len false c)
    (hpos : 0 < o) (hlen : 0 < len) (hle : len ≤ seglen) (hshort : seglen < u) (hu : u ≤ 40) (now : Nat) :
    ∃ tab' blist, enter Blk.up Blk.more tab now k false c = (tab', .done blist) ∧
      ∀ q, join blist = some q → o + len < q.2.length := by
  have hfoff := hc.foff
  have hflen := hc.flen
  rcases h with ⟨rfl, -⟩ | ⟨pre, d, hhold, hpiled⟩
  · omega
  · obtain ⟨htiles, hcut, hfirst⟩ := hpiled.cut (by omega)
    have hlink := hpiled.link hc hlen hshort (by omega) hle hu
    rw [← hfoff] at htiles
    have hclosed : complete Blk.more 0 (pre ++ [cutTo seglen d] ++ [c]) = true :=
      complete_closed htiles (fun e he => (hcut e he).1) hc.more
    obtain ⟨tab', out, henter, ⟨-, -, hnone⟩ | ⟨blist, hsome, ⟨-, -, hnot⟩ | ⟨rfl, -, -⟩⟩⟩ :=
      enter_queue Blk.up Blk.more now hhold c
    · rw [hlink] at hnone
      cases hnone
    · rw [hlink] at hsome
      cases hsome
      rw [hclosed] at hnot
      cases hnot
    · rw [hlink] at hsome
      cases hsome
      refine ⟨tab', _, henter, fun q hjoin => ?_⟩
      have hsum := htiles.sum
      generalize hpre : pre ++ [cutTo seglen d] = front at htiles hcut hfirst hsum hjoin
      cases front with
      | nil => cases (append_ne_nil_of_right_ne_nil _ (cons_ne_nil _ _) hpre)
      | cons b t =>
        have hb := (hcut b mem_cons_self).2
        have hL := hfirst b rfl
        rw [cons_append] at hjoin
        rw [join_length hjoin, map_append, sum_append]
        simp only [map_cons, map_nil, sum_cons, sum_nil] at hsum ⊢
        simp only [ip4hdr] at hL ⊢
        omega

/-- **Too much is returned** when they are shorter. -/
theorem Sent.piled (h : Sent eh lid seglen dlen o ps) (hopts : 5 < eh.vihl &&& 0xf)
    (hshort : seglen < headerLength eh - ip4hdr) (hpos : 8 ≤ seglen) (hsize : dlen < 2 ^ 16) (haligned : o % 8 = 0)
    (hseg : seglen % 8 = 0) (hfirst : 8 ≤ o ∨ o + seglen < dlen) (hxs : List.Forall₂ Arrives ps (xs.map Prod.snd))
    (hfill : Filling (eh.src, eh.dst, hnputs lid) (headerLength eh - ip4hdr) seglen o tab) :
    ∀ q, some q ∈ receive tab xs → dlen < q.2.length := by
  have hle := headerLength_le eh
  simp only [ip4hdr] at hshort
  have hu : headerLength eh - ip4hdr ≤ 40 := by
    simp only [ip4hdr]
    omega
  induction h generalizing tab xs with
  | last hlt hlast hhdr =>
    obtain ⟨now, r, t, rfl, hr, hrs⟩ := arrives_cons hxs
    obtain rfl := map_eq_nil_iff.mp (forall₂_nil_left_iff.mp hrs)
    have hpart : false = true ∨ 8 ≤ _ := Or.inr (hfirst.resolve_right (by omega))
    obtain ⟨c, hc, hput⟩ := hr.enters hhdr hopts (by omega) haligned hpart rfl
    obtain ⟨tab', blist, henter, hlong⟩ := hfill.last hc (by omega) (by omega) (by omega) hshort hu now
    intro q hq
    rw [receive, hput, henter] at hq
    rcases mem_cons.mp hq with hq | hq
    · have hlen := hlong q hq.symm
      omega
    · cases hq
  | more hlt hhdr hrest ih =>
    obtain ⟨now, r, t, rfl, hr, hrs⟩ := arrives_cons hxs
    obtain ⟨c, hc, hput⟩ := hr.enters hhdr hopts (by omega) haligned (Or.inl rfl) rfl
    obtain ⟨tab', henter, hnext⟩ := hfill.more hc hshort (by omega) hu now
    intro q hq
    rw [receive, hput, henter] at hq
    rcases mem_cons.mp hq with hq | hq
    · cases hq
    · exact ih (by omega) (Or.inl (by omega)) hrs hnext q hq

/-- **Options are never forwarded right.**  A gated packet with options that `ipoput4` must fragment: its fragments
do not lie next to each other when `ipiput4` has taken the options off them.  If the packet is a whole datagram,
then nothing that `ip4reassemble` returns when its fragments arrive in order has the payload. -/
theorem options_lost {medialen : Option Int} {id4 ttl tos : Nat} (hopts : 5 < bp.hdr.vihl &&& 0xf)
    (hrun : ipoput4 medialen id4 bp true ttl tos = .fragmented ps) (hxs : List.Forall₂ Arrives ps (xs.map Prod.snd)) :
    (∀ e, ¬ Tiles (bp.hdr.frag * 8 % 2 ^ 16) (xs.map fun x => x.2.strip.mark.view.frag) e) ∧
      (bp.hdr.frag = 0 → ∀ tab, Absent tab (bp.hdr.src, bp.hdr.dst, hnputs bp.hdr.id) →
        ∀ q, some q ∈ receive tab xs → q.2 ≠ payload bp) := by
  obtain ⟨seglen, hpos, hseg, hsize, hmore, hsent⟩ := ipoput4_sent hrun
  constructor
  · intro e
    have hgap := hsent.gap (e := e) (by omega) hseg (by omega) hopts hxs
    rwa [List.map_map] at hgap
  · intro hwhole tab habs q hq
    rw [hwhole, Nat.zero_mul, Nat.add_zero] at hsent
    have hdlen : bp.hdr.length - ip4hdr < 2 ^ 16 := by omega
    by_cases hlong : headerLength bp.hdr - ip4hdr ≤ seglen
    · have hnone := hsent.gapped hopts hlong hdlen (Nat.zero_mod 8) hseg (Or.inr (by omega)) hxs (Or.inl ⟨rfl, habs⟩)
      exact absurd hq (hnone q)
    · have hlen := hsent.piled hopts (Nat.not_le.mp hlong) hpos hdlen (Nat.zero_mod 8) hseg (Or.inr (by omega)) hxs
        (Or.inl ⟨rfl, habs⟩) q hq
      intro heq
      rw [heq, payload, length_drop, length_take] at hlen
      omega

/-- A fragment as it arrives, with zeros behind it. -/
def arrival (p : Packet) : Rcvd := ⟨p.hdr, fun i => p.blocks.flatten.getD i 0, p.blocks.flatten.length⟩

theorem arrives_arrival (p : Packet) : Arrives p (arrival p) where
  hdr := rfl
  len := rfl
  data := by
    change (List.range p.blocks.flatten.length).map (fun i => p.blocks.flatten.getD i 0) = p.blocks.flatten
    refine ext_getElem (by rw [length_map, length_range]) fun i hi hi' => ?_
    rw [getElem_map, getElem_range, getD_eq_getElem _ _ hi']

/-- A datagram with `n` bytes of options and data. -/
def someGated (vihl n : Nat) : Packet :=
  ⟨⟨vihl, 0, ip4hdr + n, 7, 0, 9, 17, 0, 1, 2⟩, [(List.range n).map UInt8.ofNat]⟩

/-- With 40 bytes of options and fragments of 32 bytes. -/
theorem options_lost_short :
    ∃ p q, ipoput4 (some 52) 0 (someGated 0x4f 60) true 8 0 = .fragmented [p, q] ∧
      (∀ e, ¬ Tiles 0 [(arrival p).strip.mark.view.frag, (arrival q).strip.mark.view.frag] e) ∧
      ∀ r, some r ∈ receive ⟨1, []⟩ [(1, arrival p), (2, arrival q)] → r.2 ≠ payload (someGated 0x4f 60) := by
  obtain ⟨p, q, hrun⟩ : ∃ p q, ipoput4 (some 52) 0 (someGated 0x4f 60) true 8 0 = .fragmented [p, q] := ⟨_, _, rfl⟩
  have hxs : List.Forall₂ Arrives [p, q] ([(1, arrival p), (2, arrival q)].map Prod.snd) :=
    .cons (arrives_arrival p) (.cons (arrives_arrival q) .nil)
  obtain ⟨hgap, hlost⟩ := options_lost (by decide) hrun hxs
  exact ⟨p, q, hrun, hgap, hlost rfl ⟨1, []⟩ nofun⟩

/-- With four bytes of options and fragments of 16 bytes the first one ends at 12, and the second begins at 16. -/
theorem options_gap :
    ¬ ∀ (bp : Packet) (medialen : Int) (ps : List Packet) (tab : Table Key Blk) (xs : List (Nat × Rcvd)),
      5 < bp.hdr.vihl &&& 0xf → bp.hdr.frag = 0 → ipoput4 (some medialen) 0 bp true 8 0 = .fragmented ps →
      List.Forall₂ Arrives ps (xs.map Prod.snd) → Absent tab (bp.hdr.src, bp.hdr.dst, hnputs bp.hdr.id) →
      ∃ q, some q ∈ receive tab xs ∧ q.2 = payload bp := by
  intro hall
  obtain ⟨p, q, hrun, hnone⟩ : ∃ p q, ipoput4 (some 36) 0 (someGated 0x46 28) true 8 0 = .fragmented [p, q] ∧
      receive ⟨1, []⟩ [(1, arrival p), (2, arrival q)] = [none, none] := ⟨_, _, rfl, rfl⟩
  have hxs : List.Forall₂ Arrives [p, q] ([(1, arrival p), (2, arrival q)].map Prod.snd) :=
    .cons (arrives_arrival p) (.cons (arrives_arrival q) .nil)
  obtain ⟨r, hr, -⟩ := hall _ 36 _ ⟨1, []⟩ _ (by decide) rfl hrun hxs nofun
  rw [hnone] at hr
  rcases List.mem_cons.mp hr with hr | hr
  · cases hr
  · cases List.mem_singleton.mp hr

end IpOptions
