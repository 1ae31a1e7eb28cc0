import NixKernel.IpfragRound
import NixKernel.ReassemblyOverlap

/-!
# IPv4 fragments that overlap

Fragments of one datagram arrive, cut wherever it pleases the routers on the way.  What is on the
queue has the right bytes of the datagram at every moment.  The first fragment alone is measured
twice: `flen` shrinks when a later one takes over its end, the length in its header does not, and
`ip4reassemble` takes its data by the header.
-/

namespace Ip4

open Reassembly List Option

variable {k : Key} {D : List UInt8} {o len : Nat} {p q z : Packet} {b : Frag Blk} {L blist t : List (Frag Blk)}

/-- A block on the queue has the bytes of the datagram for its place.  The first fragment has those that its
header counts, which may be more than `flen`. -/
structure Held (D : List UInt8) (b : Frag Blk) : Prop where
  pos : 0 < b.flen
  fits : b.foff + b.flen ≤ D.length
  data : b.blk.data.take b.flen = (D.drop b.foff).take b.flen
  more : b.blk.more = decide (b.foff + b.flen < D.length)
  counted : b.foff = 0 → ip4hdr + b.flen ≤ b.blk.hdr.length ∧ b.blk.hdr.length ≤ ip4hdr + D.length ∧
    b.blk.data.take (b.blk.hdr.length - ip4hdr) = D.take (b.blk.hdr.length - ip4hdr)

theorem Piece.held (h : Piece k D o len p) (hsize : ip4hdr + D.length < 2 ^ 16) : Held D (view (markMore p)).frag := by
  obtain ⟨hoff, hlen⟩ := h.view_frag hsize
  obtain ⟨-, -, -, hmore⟩ := h.flags hsize
  have hlength : (view (markMore p)).frag.blk.hdr.length = ip4hdr + len := h.length
  have hdata : (view (markMore p)).frag.blk.data.take len = (D.drop o).take len := h.data
  refine ⟨?_, ?_, ?_, ?_, fun hzero => ?_⟩
  · rw [hlen]
    exact h.pos
  · rw [hoff, hlen]
    exact h.fits
  · rw [hoff, hlen]
    exact hdata
  · rw [hoff, hlen]
    exact decide_eq_decide.mpr hmore
  · have hfits := h.fits
    rw [hoff] at hzero
    rw [hlength, hlen]
    refine ⟨Nat.le_refl _, by omega, ?_⟩
    rw [Nat.add_sub_cancel_left, hdata, hzero, drop_zero]

/-- What is left of a block that another one covers in part has the right bytes still. -/
theorem held_cut (hsize : ip4hdr + D.length < 2 ^ 16) : Cut Blk.up (Held D) where
  last b p hb hp hlt hin hbehind := by
    have hend := hp.fits
    have hfits := hb.fits
    refine ⟨?_, ?_, ?_, ?_, fun hzero => ?_⟩
    · change 0 < p.foff - b.foff
      omega
    · change b.foff + (p.foff - b.foff) ≤ D.length
      omega
    · have hcut := congrArg (List.take (p.foff - b.foff)) hb.data
      rw [take_take, take_take, Nat.min_eq_left (by omega)] at hcut
      exact hcut
    · change b.blk.more = decide (b.foff + (p.foff - b.foff) < D.length)
      rw [hb.more, decide_eq_true (by omega : b.foff + b.flen < D.length),
        decide_eq_true (by omega : b.foff + (p.foff - b.foff) < D.length)]
    · obtain ⟨hlow, hhigh, hdata⟩ := hb.counted hzero
      refine ⟨?_, hhigh, hdata⟩
      change ip4hdr + (p.foff - b.foff) ≤ b.blk.hdr.length
      omega
  first b p hb hp hlt hin := by
    have hfits := hb.fits
    simp only [ip4hdr] at hsize
    generalize p.foff + p.flen = m at hlt hin
    have hm : m % 2 ^ 16 = m := Nat.mod_eq_of_lt (by omega)
    rw [hm]
    refine ⟨?_, ?_, ?_, ?_, fun hzero => ?_⟩
    · change 0 < b.foff + b.flen - m
      omega
    · change m + (b.foff + b.flen - m) ≤ D.length
      omega
    · have hcut := congrArg (List.drop (m - b.foff)) hb.data
      rw [drop_take, drop_take, drop_drop] at hcut
      change (b.blk.data.drop (m - b.foff)).take (b.foff + b.flen - m) = (D.drop m).take (b.foff + b.flen - m)
      have hlen : b.flen - (m - b.foff) = b.foff + b.flen - m := by omega
      have hoff : b.foff + (m - b.foff) = m := by omega
      rw [← hlen, hcut, hoff]
    · change b.blk.more = decide (m + (b.foff + b.flen - m) < D.length)
      rw [hb.more, (by omega : m + (b.foff + b.flen - m) = b.foff + b.flen)]
    · change m = 0 at hzero
      omega

/-- Blocks that are complete lie next to each other, up to the end of the datagram. -/
theorem complete_tiles {pos : Nat} (hheld : ∀ b ∈ L, Held D b) (hapart : Apart L)
    (hdone : complete Blk.more pos L = true) : Tiles pos L D.length := by
  induction L generalizing pos with
  | nil => cases hdone
  | cons b t ih =>
    obtain ⟨hb, ht⟩ := forall_mem_cons.mp hheld
    obtain ⟨hbt, happ⟩ := pairwise_cons.mp hapart
    rw [complete] at hdone
    split at hdone
    · cases hdone
    · next hpos =>
      have hoff : b.foff = pos := not_not.mp hpos
      subst hoff
      split at hdone
      · exact ⟨rfl, hb.pos, ih ht happ hdone⟩
      · next hmore =>
        -- the end of the datagram, and nothing fits behind it
        rw [hb.more, decide_eq_true_eq] at hmore
        have hfits := hb.fits
        have hend : b.foff + b.flen = D.length := by omega
        cases t with
        | nil => exact ⟨rfl, hb.pos, hend⟩
        | cons c t =>
          have hc := (forall_mem_cons.mp ht).1
          have hbc := hbt c mem_cons_self
          have hcpos := hc.pos
          have hcfits := hc.fits
          omega

theorem tiles_join {pos : Nat} (hheld : ∀ b ∈ L, Held D b) (htiles : Tiles pos L D.length) :
    (L.map Frag.flen).sum = D.length - pos ∧ (L.map fun c => c.blk.data.take c.flen).flatten = D.drop pos := by
  induction L generalizing pos with
  | nil =>
    have heq : pos = D.length := htiles
    simp [heq]
  | cons b t ih =>
    obtain ⟨hb, ht⟩ := forall_mem_cons.mp hheld
    obtain ⟨hoff, hpos, hrest⟩ := htiles
    obtain ⟨hsum, hdata⟩ := ih ht hrest
    have hfits := hb.fits
    constructor
    · rw [map_cons, sum_cons, hsum]
      omega
    · rw [map_cons, flatten_cons, hdata, hb.data, hoff, ← drop_drop, take_append_drop]

/-- The packet is the datagram, and its header says so. -/
def Right (D : List UInt8) (q : Packet) : Prop := q.blocks.flatten = D ∧ q.hdr.length = ip4hdr + q.blocks.flatten.length

/-- **What is put together is the datagram exactly when the first block is as long as its header says.** -/
theorem join_right (hsize : ip4hdr + D.length < 2 ^ 16) (hheld : ∀ c ∈ b :: t, Held D c)
    (htiles : Tiles 0 (b :: t) D.length) (hjoin : join (b :: t) = some q) :
    Right D q ↔ b.flen + ip4hdr = b.blk.hdr.length := by
  obtain ⟨hb, ht⟩ := forall_mem_cons.mp hheld
  obtain ⟨hoff, hpos, hrest⟩ := htiles
  obtain ⟨hsum, hdata⟩ := tiles_join ht hrest
  obtain ⟨hlow, hhigh, hfirst⟩ := hb.counted hoff
  have hfits := hb.fits
  rw [Nat.zero_add] at hdata hsum
  cases hjoin
  have hflat : (b.blk.data.take (b.blk.hdr.length - ip4hdr) :: t.map fun c => c.blk.data.take c.flen).flatten =
      D.take (b.blk.hdr.length - ip4hdr) ++ D.drop b.flen := by
    rw [flatten_cons, hfirst, hdata]
  rw [Right, hflat]
  dsimp only
  constructor
  · rintro ⟨hright, -⟩
    have hlen := congrArg List.length hright
    rw [length_append, length_take, length_drop] at hlen
    omega
  · intro hcount
    have htake : b.blk.hdr.length - ip4hdr = b.flen := by omega
    rw [htake, take_append_drop, hsum, hnputs]
    exact ⟨rfl, by rw [Nat.mod_eq_of_lt (by omega)]; omega⟩

/-- Not the first fragment. -/
def later (p : Packet) : Bool := decide ((view (markMore p)).frag.foff ≠ 0)

/-- The fragment `p` begins inside the first fragment `z` and ends behind it. -/
def Straddles (z p : Packet) : Prop :=
  (view (markMore p)).frag.foff < (view (markMore z)).frag.flen ∧
    (view (markMore z)).frag.flen < (view (markMore p)).frag.foff + (view (markMore p)).frag.flen

/-- No fragment that arrived behind the last first one begins inside it and ends behind it. -/
def Untrimmed (ps : List Packet) : Prop :=
  ∀ z ∈ (ps.rdropWhile later).getLast?, ∀ y ∈ ps.rtakeWhile later, ¬ Straddles z y

instance (z p : Packet) : Decidable (Straddles z p) := inferInstanceAs (Decidable (_ ∧ _))

/-- The first block on the queue, after the arrivals `ps`: the last first fragment, whose end is cut off exactly
when another fragment straddles it. -/
structure Foremost (ps : List Packet) (b : Frag Blk) (z : Packet) : Prop where
  last : (ps.rdropWhile later).getLast? = some z
  length : b.blk.hdr.length = ip4hdr + (view (markMore z)).frag.flen
  uncut : b.flen + ip4hdr = b.blk.hdr.length ↔ ∀ y ∈ ps.rtakeWhile later, ¬ Straddles z y

variable {ps : List Packet}

theorem Foremost.untrimmed (h : Foremost ps b z) :
    b.flen + ip4hdr = b.blk.hdr.length ↔ Untrimmed ps := by
  rw [h.uncut, Untrimmed, h.last]
  simp only [mem_def, some.injEq, forall_eq']

theorem foremost_first (hp : Piece k D 0 len p) (hsize : ip4hdr + D.length < 2 ^ 16) :
    Foremost (ps ++ [p]) (view (markMore p)).frag p := by
  obtain ⟨hoff, hlen⟩ := hp.view_frag hsize
  have hfirst : ¬ later p = true := by simp [later, hoff]
  have hlength : (view (markMore p)).frag.blk.hdr.length = ip4hdr + len := hp.length
  refine ⟨?_, ?_, iff_of_true ?_ ?_⟩
  · rw [rdropWhile_concat_neg _ _ _ hfirst, List.getLast?_concat]
  · rw [hlength, hlen]
  · rw [hlength, hlen, Nat.add_comm]
  · rw [rtakeWhile_concat_neg _ _ _ hfirst]
    nofun

/-- A later fragment that does not straddle the first block leaves it as it is. -/
theorem Foremost.kept (h : Foremost ps b z) (hb : Held D b) (hzero : b.foff = 0)
    (hlater : later p = true)
    (hapart : b.flen ≤ (view (markMore p)).frag.foff ∨ (view (markMore p)).frag.foff + (view (markMore p)).frag.flen ≤ b.flen) :
    Foremost (ps ++ [p]) b z := by
  obtain ⟨hlow, -, -⟩ := hb.counted hzero
  have hlength := h.length
  refine ⟨?_, hlength, ?_⟩
  · rw [rdropWhile_concat_pos _ _ _ hlater]
    exact h.last
  · rw [rtakeWhile_concat_pos _ _ _ hlater]
    constructor
    · intro hcount
      refine forall_mem_append.mpr ⟨h.uncut.mp hcount, forall_mem_singleton.mpr ?_⟩
      rintro ⟨hin, hbehind⟩
      omega
    · intro hall
      exact h.uncut.mpr (forall_mem_append.mp hall).1

/-- One that does cuts its end off. -/
theorem Foremost.trimmed (h : Foremost ps b z) (hb : Held D b) (hzero : b.foff = 0)
    (hlater : later p = true) (hin : (view (markMore p)).frag.foff < b.flen)
    (hbehind : b.flen < (view (markMore p)).frag.foff + (view (markMore p)).frag.flen) :
    Foremost (ps ++ [p]) { b with flen := (view (markMore p)).frag.foff - b.foff } z := by
  obtain ⟨hlow, -, -⟩ := hb.counted hzero
  have hlength := h.length
  refine ⟨?_, hlength, iff_of_false ?_ fun hall => ?_⟩
  · rw [rdropWhile_concat_pos _ _ _ hlater]
    exact h.last
  · change ¬ (view (markMore p)).frag.foff - b.foff + ip4hdr = b.blk.hdr.length
    omega
  · rw [rtakeWhile_concat_pos _ _ _ hlater] at hall
    obtain ⟨hbefore, hp⟩ := forall_mem_append.mp hall
    have hcount := h.uncut.mpr hbefore
    exact hp p mem_cons_self ⟨by omega, by omega⟩

/-- What holds of a queue after the arrivals `ps`. -/
structure Assembly (D : List UInt8) (ps : List Packet) (L : List (Frag Blk)) : Prop where
  held : ∀ b ∈ L, Held D b
  apart : Apart L
  first : ∀ b ∈ L.head?, b.foff = 0 → ∃ z, Foremost ps b z

theorem cut_behind : Cut Blk.up fun b => 0 < b.foff ∧ b.foff + b.flen < 2 ^ 16 where
  last b p hb _ hlt hin _ := by
    refine ⟨hb.1, ?_⟩
    change b.foff + (p.foff - b.foff) < 2 ^ 16
    omega
  first b p hb _ hlt hin := by
    generalize p.foff + p.flen = m at hlt hin
    have hm : m % 2 ^ 16 = m := Nat.mod_eq_of_lt (by omega)
    rw [hm]
    refine ⟨by change 0 < m; omega, ?_⟩
    change m + (b.foff + b.flen - m) < 2 ^ 16
    omega

/-- A queue that is begun. -/
theorem assembly_one (hp : Piece k D o len p) (hsize : ip4hdr + D.length < 2 ^ 16) :
    Assembly D (ps ++ [p]) [(view (markMore p)).frag] where
  held := forall_mem_singleton.mpr (hp.held hsize)
  apart := pairwise_singleton _ _
  first b hb hzero := by
    obtain ⟨hoff, -⟩ := hp.view_frag hsize
    rw [List.head?_cons, mem_some_iff] at hb
    rw [← hb, hoff] at hzero
    subst hzero hb
    exact ⟨p, foremost_first hp hsize⟩

/-- **Linking a fragment** keeps what holds of the queue. -/
theorem Assembly.link (h : Assembly D ps L) (hp : Piece k D o len p)
    (hsize : ip4hdr + D.length < 2 ^ 16)
    (hlink : link Blk.up L (view (markMore p)).frag = some blist) :
    Assembly D (ps ++ [p]) blist where
  held := link_all (held_cut hsize) h.held (hp.held hsize) hlink
  apart := link_apart h.apart (fun b hb => by
    have hfits := (h.held b hb).fits
    omega) hlink
  first c hc hzero := by
    obtain ⟨hoff, -⟩ := hp.view_frag hsize
    by_cases ho : o = 0
    · subst ho
      rw [link_front (fun b _ => by rw [hoff]; exact Nat.zero_le _)] at hlink
      cases hlink
      rw [List.head?_cons, mem_some_iff] at hc
      subst hc
      exact ⟨p, foremost_first hp hsize⟩
    · have hlater : later p = true := by simp [later, hoff, ho]
      have hpos : 0 < (view (markMore p)).frag.foff := by omega
      -- a block at the start of the datagram was the first one before
      cases L with
      | nil =>
        cases hlink
        rw [List.head?_cons, mem_some_iff] at hc
        subst hc
        omega
      | cons b t =>
        have hb := h.held b mem_cons_self
        by_cases hfirst : b.foff = 0
        · obtain ⟨z, hz⟩ := h.first b rfl hfirst
          obtain ⟨t', ⟨hend, rfl⟩ | ⟨hin, hbehind, rfl⟩⟩ := link_behind h.apart (by omega) hlink
          · rw [List.head?_cons, mem_some_iff] at hc
            subst hc
            exact ⟨z, hz.kept hb hfirst hlater (Or.inl (by omega))⟩
          · rw [List.head?_cons, mem_some_iff] at hc
            subst hc
            exact ⟨z, hz.trimmed hb hfirst hlater (by omega) (by omega)⟩
        · have hall : ∀ c ∈ b :: t, 0 < c.foff ∧ c.foff + c.flen < 2 ^ 16 := by
            intro c hc'
            have hfits := (h.held c hc').fits
            rcases mem_cons.mp hc' with rfl | hct
            · omega
            · have hbc := (pairwise_cons.mp h.apart).1 c hct
              have hbpos := hb.pos
              omega
          have hpfits := (hp.held hsize).fits
          have hcpos := link_all cut_behind hall ⟨hpos, by omega⟩ hlink c (mem_of_mem_head? hc)
          omega

/-- A fragment that is freed changes nothing. -/
theorem Assembly.covered (h : Assembly D ps L)
    (hlink : Reassembly.link Blk.up L (view (markMore p)).frag = none) :
    Assembly D (ps ++ [p]) L where
  held := h.held
  apart := h.apart
  first b hb hzero := by
    obtain ⟨c, hc, hlt, hin⟩ := link_covered hlink
    have hlater : later p = true := decide_eq_true (by omega)
    have hbL := mem_of_mem_head? hb
    obtain ⟨z, hz⟩ := h.first b hb hzero
    refine ⟨z, hz.kept (h.held b hbL) hzero hlater ?_⟩
    obtain ⟨t, rfl⟩ : ∃ t, L = b :: t := List.head?_eq_some_iff.mp hb
    rcases mem_cons.mp hc with rfl | hct
    · exact Or.inr (by omega)
    · have hbc := (pairwise_cons.mp h.apart).1 c hct
      exact Or.inl (by omega)

/-- The table while fragments of `D` arrive. -/
def Assembling (D : List UInt8) (k : Key) (ps : List Packet) (tab : Table Key Blk) : Prop :=
  Absent tab k ∨ ∃ L, Holding tab k L ∧ Assembly D ps L

theorem Piece.not_single (h : Piece k D o len p) (hsize : ip4hdr + D.length < 2 ^ 16) (hpart : p.hdr.frag ≠ 0) :
    (view (markMore p)).single = false := by
  obtain ⟨-, -, hmf, -⟩ := h.flags hsize
  have hfrag := h.frag
  have hfits := h.fits
  refine decide_eq_false ?_
  rintro ⟨htos, hzero⟩
  change (if p.hdr.frag &&& ipMf ≠ 0 then 1 else 0) = 0 at htos
  change p.hdr.frag % ipMf = 0 at hzero
  by_cases hlt : o + len < D.length
  · rw [if_pos (hmf.mpr hlt)] at htos
    cases htos
  · rw [if_neg hlt] at hfrag
    simp only [ip4hdr] at hsize
    simp only [ipMf] at hfrag hzero
    omega

/-- **What one arrival does.** -/
theorem Assembling.ip4reassemble {tab : Table Key Blk} (h : Assembling D k ps tab)
    (hp : Piece k D o len p) (hsize : ip4hdr + D.length < 2 ^ 16) (hpart : p.hdr.frag ≠ 0)
    (now : Nat) :
    Assembling D k (ps ++ [p]) (ip4reassemble tab now (markMore p)).1 ∧
      ∀ q, (Ip4.ip4reassemble tab now (markMore p)).2 = some q → (Right D q ↔ Untrimmed (ps ++ [p])) := by
  have hmbz : (markMore p).hdr.frag &&& ipMbz = 0 := (hp.flags hsize).1
  have hkey : (view (markMore p)).key = k := hp.key
  rw [Ip4.ip4reassemble, if_neg (not_not.mpr hmbz)]
  dsimp only
  rw [hkey, hp.not_single hsize hpart]
  rcases h with habs | ⟨L, hhold, hasm⟩
  · obtain ⟨tab', henter, hhold⟩ := enter_absent Blk.up Blk.more now habs (view (markMore p)).frag
    rw [henter]
    exact ⟨Or.inr ⟨_, hhold, assembly_one hp hsize⟩, (by simp)⟩
  · obtain ⟨tab', out, henter, ⟨rfl, hhold', hlink⟩ | ⟨blist, hlink, ⟨rfl, hhold', -⟩ | ⟨rfl, habs, hdone⟩⟩⟩ :=
      enter_queue Blk.up Blk.more now hhold (view (markMore p)).frag
    · rw [henter]
      exact ⟨Or.inr ⟨L, hhold', hasm.covered hlink⟩, (by simp)⟩
    · rw [henter]
      exact ⟨Or.inr ⟨blist, hhold', hasm.link hp hsize hlink⟩, (by simp)⟩
    · rw [henter]
      refine ⟨Or.inl habs, fun q hq => ?_⟩
      have hfull := hasm.link hp hsize hlink
      have htiles := complete_tiles hfull.held hfull.apart hdone
      cases blist with
      | nil => cases hdone
      | cons b t =>
        obtain ⟨z, hz⟩ := hfull.first b rfl htiles.1
        rw [join_right hsize hfull.held htiles hq]
        exact hz.untrimmed

/-- The table after fragments have arrived, each at its time. -/
def arrive (tab : Table Key Blk) (xs : List (Nat × Packet)) : Table Key Blk :=
  xs.foldl (fun tab x => (ip4reassemble tab x.1 (markMore x.2)).1) tab

/-- A part of the datagram, wherever it was cut. -/
def Part (k : Key) (D : List UInt8) (p : Packet) : Prop := p.hdr.frag ≠ 0 ∧ ∃ o len, Piece k D o len p

theorem arrive_assembling {tab : Table Key Blk} {xs : List (Nat × Packet)} (hsize : ip4hdr + D.length < 2 ^ 16)
    (habs : Absent tab k) (hxs : ∀ x ∈ xs, Part k D x.2) : Assembling D k (xs.map Prod.snd) (arrive tab xs) := by
  induction xs using List.reverseRecOn with
  | nil => exact Or.inl habs
  | append_singleton xs x ih =>
    obtain ⟨hbefore, hx⟩ := forall_mem_append.mp hxs
    obtain ⟨hpart, o, len, hp⟩ := hx x mem_cons_self
    have hstep := ((ih hbefore).ip4reassemble hp hsize hpart x.1).1
    rw [map_append, arrive, foldl_append]
    exact hstep

/-- **Reassembly with overlap.**  Fragments of a datagram arrive, any of them, in any order and as often as they
please.  A packet that `ip4reassemble` returns has the payload of the datagram and a header that agrees with it
exactly when no fragment that came behind the last first one begins inside it and ends behind it. -/
theorem reassemble_overlap {tab : Table Key Blk} {xs : List (Nat × Packet)} {now : Nat}
    (hsize : ip4hdr + D.length < 2 ^ 16) (habs : Absent tab k) (hxs : ∀ x ∈ xs, Part k D x.2) (hp : Part k D p)
    (hret : (ip4reassemble (arrive tab xs) now (markMore p)).2 = some q) :
    Right D q ↔ Untrimmed (xs.map Prod.snd ++ [p]) := by
  obtain ⟨hpart, o, len, hpiece⟩ := hp
  exact ((arrive_assembling hsize habs hxs).ip4reassemble hpiece hsize hpart now).2 q hret

theorem part_someFragment {o len : Nat} (hpos : 0 < len) (hfits : o + len ≤ 48) (haligned : o % 8 = 0)
    (hpart : (someFragment o len).hdr.frag ≠ 0) : Part (1, 2, 7) someData (someFragment o len) :=
  ⟨hpart, o, len, piece_someFragment hpos hfits haligned⟩

/-- The first fragment comes last and takes the place of a part of the other. -/
theorem reassemble_overlap_behind :
    ∃ q, (ip4reassemble (arrive ⟨1, []⟩ [(1, someFragment 8 40)]) 2 (markMore (someFragment 0 16))).2 = some q ∧
      Right someData q := by
  have habs : Absent (⟨1, []⟩ : Table Key Blk) (1, 2, 7) := nofun
  have hlast : ∀ x ∈ [(1, someFragment 8 40)], Part (1, 2, 7) someData x.2 := by
    refine List.forall_mem_singleton.mpr ?_
    exact part_someFragment (by decide) (by decide) (by decide) (by decide)
  have hfirst : Part (1, 2, 7) someData (someFragment 0 16) :=
    part_someFragment (by decide) (by decide) (by decide) (by decide)
  obtain ⟨q, hq⟩ := Option.isSome_iff_exists.mp (show (ip4reassemble (arrive ⟨1, []⟩ [(1, someFragment 8 40)]) 2
    (markMore (someFragment 0 16))).2.isSome = true by decide +kernel)
  refine ⟨q, hq, (reassemble_overlap (by decide) habs hlast hfirst hq).mpr ?_⟩
  have hbehind : List.rtakeWhile later ([(1, someFragment 8 40)].map Prod.snd ++ [someFragment 0 16]) = [] := by
    decide +kernel
  intro z _ y hy
  rw [hbehind] at hy
  cases hy

/-- The first fragment comes first, and the eight bytes that both have are in the packet twice. -/
theorem overlap_doubled :
    ¬ ∀ (xs : List (Nat × Packet)) (now : Nat) (p q : Packet), (∀ x ∈ xs, Part (1, 2, 7) someData x.2) →
      Part (1, 2, 7) someData p → (ip4reassemble (arrive ⟨1, []⟩ xs) now (markMore p)).2 = some q →
      Right someData q := by
  intro hall
  have hfirst : ∀ x ∈ [(1, someFragment 0 16)], Part (1, 2, 7) someData x.2 := by
    refine List.forall_mem_singleton.mpr ?_
    exact part_someFragment (by decide) (by decide) (by decide) (by decide)
  have hlast : Part (1, 2, 7) someData (someFragment 8 40) :=
    part_someFragment (by decide) (by decide) (by decide) (by decide)
  obtain ⟨q, hq, hlen⟩ : ∃ q, (ip4reassemble (arrive ⟨1, []⟩ [(1, someFragment 0 16)]) 2
      (markMore (someFragment 8 40))).2 = some q ∧ q.blocks.flatten.length = 56 :=
    Option.map_eq_some_iff.mp (show Option.map (fun q : Packet => q.blocks.flatten.length) (ip4reassemble
      (arrive ⟨1, []⟩ [(1, someFragment 0 16)]) 2 (markMore (someFragment 8 40))).2 = some 56 by decide +kernel)
  obtain ⟨hdata, -⟩ := hall _ 2 _ q hfirst hlast hq
  rw [hdata] at hlen
  exact absurd hlen (by decide)

end Ip4
