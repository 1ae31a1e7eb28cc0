import NixKernel.TcpCodecRound

/-!
# A TCP header in several blocks

`ntohtcp4` and `ntohtcp6` pull the fixed part of the header up into the first block, and
once they know how long the header is, all of it.  The second `pullupblock` may have to
allocate a new first block and free the old one, and the pointer into it is still in use for the
options.
-/

namespace TcpCodec

/-- The bytes from `rp` to `lim` of the first block. -/
def space : List Block → Nat
  | [] => 0
  | b :: _ => b.data.length + b.tail.length

/-- The space of the first block behind a `pullupblock` of `n` bytes. -/
def room (al : Allocb) (n : Nat) (bp : List Block) : Nat :=
  if space bp < n then (al n).val.tail.length else space bp

/-- The header length that a TCP header behind `pkt` bytes gives. -/
def headlen (pkt : Nat) (l : List UInt8) : Nat := (l.getD (pkt + 12) 0).toNat / 2 ^ 2 / 4 * 4

/-- The header is refused, or the packet is shorter than it, or there is room for it in the first
block. -/
def Roomy (al : Allocb) (pkt hdrsize : Nat) (bp : List Block) : Prop :=
  headlen pkt (bytes bp) < hdrsize ∨ blocklen bp < headlen pkt (bytes bp) + pkt ∨
    headlen pkt (bytes bp) + pkt ≤ room al (pkt + hdrsize) bp

instance (al : Allocb) (pkt hdrsize : Nat) (bp : List Block) : Decidable (Roomy al pkt hdrsize bp) :=
  inferInstanceAs (Decidable (_ ∨ _ ∨ _))

/-- The first answer is the second, with these bytes left; or both are -1. -/
def Agree (l : List UInt8) : Except Drop (Tcp × Nat × List Block) → Except Drop (Tcp × Nat × List Block) → Prop
  | .ok (tcph, hdrlen, bp), .ok (tcph', hdrlen', _) => tcph = tcph' ∧ hdrlen = hdrlen' ∧ bytes bp = l
  | .error .hlenErrs, .error .hlenErrs => True
  | _, _ => False

/-- The decoder answers for these blocks as for one block with the same bytes. -/
def Seamless (ntohtcp : List Block → Except Drop (Tcp × Nat × List Block)) (bp : List Block) : Prop :=
  ∀ b : Block, b.data = bytes bp → Agree (bytes bp) (ntohtcp bp) (ntohtcp [b])

variable {al : Allocb}

theorem blocklen_cons (b : Block) (next : List Block) :
    blocklen (b :: next) = b.data.length + blocklen next := rfl

/-- The loop takes `n` bytes over from the blocks behind, if they have them. -/
theorem pullupLoop_spec {b : Block} {n : Nat} {next : List Block} (hn : 0 < n) (hroom : n ≤ b.tail.length) :
    (blocklen next < n → pullupLoop b n next = none) ∧
      (n ≤ blocklen next → ∃ b' next', pullupLoop b n next = some (b' :: next') ∧
        b'.data.length = b.data.length + n ∧
        b'.data.length + b'.tail.length = b.data.length + b.tail.length ∧
        bytes (b' :: next') = b.data ++ bytes next) := by
  induction next generalizing b n with
  | nil => exact ⟨fun _ => rfl, fun h => absurd h (by simp [blocklen]; omega)⟩
  | cons nbp next ih =>
    rw [blocklen_cons, pullupLoop]
    by_cases hlt : n < nbp.data.length
    · rw [if_pos hlt]
      refine ⟨fun h => absurd h (by omega), fun _ => ⟨_, _, rfl, ?_, ?_, ?_⟩⟩
      · simp only [List.length_append, List.length_take]
        omega
      · simp only [List.length_append, List.length_take, List.length_drop]
        omega
      · simp only [bytes_cons, List.append_assoc]
        rw [← List.append_assoc (nbp.data.take n), List.take_append_drop]
    · rw [if_neg hlt]
      by_cases h0 : n - nbp.data.length = 0
      · rw [if_pos h0]
        refine ⟨fun h => absurd h (by omega), fun _ => ⟨_, _, rfl, ?_, ?_, ?_⟩⟩
        · simp only [List.length_append]
          omega
        · simp only [List.length_append, List.length_drop]
          omega
        · simp only [bytes_cons, List.append_assoc]
      · rw [if_neg h0]
        have hrest := ih (b := { b with
          data := b.data ++ nbp.data
          tail := b.tail.drop nbp.data.length }) (n := n - nbp.data.length) (by omega)
          (by simp only [List.length_drop]; omega)
        refine ⟨fun h => hrest.1 (by omega), fun h => ?_⟩
        obtain ⟨b', next', hrun, hdata, hspace, hbytes⟩ := hrest.2 (by omega)
        refine ⟨b', next', hrun, ?_, ?_, ?_⟩
        · simp only [List.length_append] at hdata
          omega
        · simp only [List.length_append, List.length_drop] at hspace
          omega
        · rw [hbytes, bytes_cons, List.append_assoc]

/-- `pullupblock` gives the same bytes with the first `n` in the first block, or nil if there
are fewer; the first block is still the old one if that had the space. -/
theorem pullupblock_spec {n : Nat} {bp : List Block} (hn : 0 < n) :
    (blocklen bp < n → pullupblock al n bp = none) ∧
      (n ≤ blocklen bp → ∃ b next, pullupblock al n bp = some (decide (n ≤ space bp), b :: next) ∧
        n ≤ b.data.length ∧ b.data.length + b.tail.length = room al n bp ∧
        bytes (b :: next) = bytes bp) := by
  cases bp with
  | nil => exact ⟨fun _ => rfl, fun h => absurd h (by simp [blocklen]; omega)⟩
  | cons b next =>
    rw [blocklen_cons, pullupblock, room, space]
    by_cases hdata : n ≤ b.data.length
    · rw [if_pos hdata, if_neg (by omega)]
      exact ⟨fun h => absurd h (by omega), fun _ =>
        ⟨b, next, by rw [decide_eq_true (by omega)], hdata, rfl, rfl⟩⟩
    · rw [if_neg hdata]
      by_cases hspace : b.data.length + b.tail.length < n
      · rw [if_pos hspace, if_pos hspace, decide_eq_false (by omega)]
        have hfresh := (al n).property
        have hloop := @pullupLoop_spec (al n).val n (b :: next) hn hfresh.2
        rw [blocklen_cons] at hloop
        refine ⟨fun h => by rw [hloop.1 h]; rfl, fun h => ?_⟩
        obtain ⟨b', next', hrun, hlen, hroom, hbytes⟩ := hloop.2 h
        rw [hfresh.1] at hlen hroom hbytes
        refine ⟨b', next', by rw [hrun]; rfl, ?_, ?_, hbytes⟩
        · simp only [List.length_nil] at hlen
          omega
        · simpa using hroom
      · rw [if_neg hspace, if_neg hspace, decide_eq_true (by omega)]
        have hloop := @pullupLoop_spec b (n - b.data.length) next (by omega) (by omega)
        refine ⟨fun h => by rw [hloop.1 (by omega)]; rfl, fun h => ?_⟩
        obtain ⟨b', next', hrun, hlen, hroom, hbytes⟩ := hloop.2 (by omega)
        exact ⟨b', next', by rw [hrun]; rfl, by omega, hroom, by rw [hbytes, bytes_cons]⟩

/-- A string with the bytes of a fixed header has one, and the header length is in its byte 12. -/
theorem ofBytes_flag {l : List UInt8} (h : 20 ≤ l.length) :
    ∃ t, Tcphdr.ofBytes l = some t ∧ t.tcpflag[0] = l.getD 12 0 := by
  have hfield : ∀ n k, k + n ≤ 20 →
      ∃ v : Vector UInt8 n, field n (l.drop k) = some (v, l.drop (k + n)) ∧ v.toList = (l.drop k).take n := by
    intro n k hk
    have hle : n ≤ (l.drop k).length := by
      rw [List.length_drop]
      omega
    refine ⟨⟨((l.drop k).take n).toArray, by simpa using hle⟩, ?_, ?_⟩
    · rw [field, dif_pos hle, List.drop_drop]
    · simp
  obtain ⟨tcpsport, h₁, -⟩ := hfield 2 0 (by decide)
  obtain ⟨tcpdport, h₂, -⟩ := hfield 2 2 (by decide)
  obtain ⟨tcpseq, h₃, -⟩ := hfield 4 4 (by decide)
  obtain ⟨tcpack, h₄, -⟩ := hfield 4 8 (by decide)
  obtain ⟨tcpflag, h₅, hflag⟩ := hfield 2 12 (by decide)
  obtain ⟨tcpwin, h₆, -⟩ := hfield 2 14 (by decide)
  obtain ⟨tcpcksum, h₇, -⟩ := hfield 2 16 (by decide)
  obtain ⟨tcpurg, h₈, -⟩ := hfield 2 18 (by decide)
  rw [List.drop_zero] at h₁
  refine ⟨⟨tcpsport, tcpdport, tcpseq, tcpack, tcpflag, tcpwin, tcpcksum, tcpurg⟩, ?_, ?_⟩
  · simp only [Tcphdr.ofBytes, Option.bind_eq_bind, h₁, h₂, h₃, h₄, h₅, h₆, h₇, h₈, Option.bind_some,
      Option.pure_def, Nat.reduceAdd]
  · have hget : tcpflag[0] = tcpflag.toList.getD 0 0 := by simp
    change tcpflag[0] = _
    rw [hget, hflag]
    simp [List.getD_eq_getElem?_getD]

/-- On one block nothing moves. -/
theorem pullupblock_single {n : Nat} {b : Block} (hn : 0 < n) :
    pullupblock al n [b] = if n ≤ b.data.length then some (true, [b]) else none := by
  by_cases h : n ≤ b.data.length
  · rw [pullupblock, if_pos h, if_pos h]
  · have hlen : blocklen [b] < n := by
      rw [blocklen_cons]
      change b.data.length + 0 < n
      omega
    rw [if_neg h, (pullupblock_spec hn).1 hlen]

/-- A packet without a whole fixed header. -/
theorem ntohtcp_short {pkt hdrsize outer len : Nat} {bp : List Block} (hpos : 0 < hdrsize)
    (h : blocklen bp < pkt + hdrsize) : ntohtcp al pkt hdrsize outer len bp = .error .hlenErrs := by
  rw [ntohtcp, (pullupblock_spec (by omega)).1 h]

/-- **The decoder does not see the blocks** exactly if the first one has room for the header. -/
theorem ntohtcp_seamless (al : Allocb) (pkt outer len : Nat) (bp : List Block) :
    Seamless (ntohtcp al pkt 20 outer len) bp ↔ Roomy al pkt 20 bp := by
  have hlen := length_bytes bp
  by_cases hshort : blocklen bp < pkt + 20
  · refine iff_of_true (fun b hb => ?_) ?_
    · have hone : blocklen [b] < pkt + 20 := by
        rw [blocklen_cons, hb, hlen]
        exact hshort
      rw [ntohtcp_short (by decide) hshort, ntohtcp_short (by decide) hone]
      trivial
    · rw [Roomy]
      omega
  · obtain ⟨b₁, next₁, hpull, hdata, hspace, hbytes⟩ := (@pullupblock_spec al (pkt + 20) bp (by omega)).2
      (Nat.le_of_not_lt hshort)
    obtain ⟨t, hof, hflag⟩ := @ofBytes_flag ((bytes bp).drop pkt) (by rw [List.length_drop]; omega)
    have hhead : t.tcpflag[0].toNat / 2 ^ 2 / 4 * 4 = headlen pkt (bytes bp) := by
      rw [hflag, headlen, List.getD_eq_getElem?_getD, List.getElem?_drop, List.getD_eq_getElem?_getD]
    have hlen₁ : blocklen (b₁ :: next₁) = blocklen bp := by
      rw [← length_bytes, hbytes, hlen]
    have hspec := @pullupblock_spec al (headlen pkt (bytes bp) + pkt) (b₁ :: next₁)
    rw [hlen₁] at hspec
    -- one block with the same bytes is not touched
    have hone : ∀ b : Block, b.data = bytes bp → ∀ n, 0 < n → n ≤ blocklen bp →
        bytes [b] = bytes bp ∧ pullupblock al n [b] = some (true, [b]) := by
      intro b hb n hn hle
      refine ⟨by rw [bytes_cons, hb]; exact List.append_nil _, ?_⟩
      rw [pullupblock_single hn, if_pos (by rw [hb, hlen]; exact hle)]
    by_cases hbad : headlen pkt (bytes bp) < 20
    · refine iff_of_true (fun b hb => ?_) (Or.inl hbad)
      obtain ⟨hsame, hpull'⟩ := hone b hb (pkt + 20) (by omega) (by omega)
      simp only [ntohtcp, hpull, hpull', hbytes, hsame, hof, hhead, if_pos hbad]
      trivial
    by_cases hcut : blocklen bp < headlen pkt (bytes bp) + pkt
    · refine iff_of_true (fun b hb => ?_) (Or.inr (Or.inl hcut))
      obtain ⟨hsame, hpull'⟩ := hone b hb (pkt + 20) (by omega) (by omega)
      have hnone : pullupblock al (headlen pkt (bytes bp) + pkt) [b] = none := by
        rw [pullupblock_single (by omega), if_neg (by rw [hb, hlen]; omega)]
      simp only [ntohtcp, hpull, hpull', hbytes, hsame, hof, hhead, if_neg hbad, (hspec (by omega)).1 hcut, hnone]
      trivial
    obtain ⟨b₂, next₂, hpull₂, -, -, hbytes₂⟩ := (hspec (by omega)).2 (Nat.le_of_not_lt hcut)
    have hroom : space (b₁ :: next₁) = room al (pkt + 20) bp := hspace
    rw [hroom] at hpull₂
    rw [hbytes] at hbytes₂
    by_cases hfits : headlen pkt (bytes bp) + pkt ≤ room al (pkt + 20) bp
    · refine iff_of_true (fun b hb => ?_) (Or.inr (Or.inr hfits))
      obtain ⟨hsame, hpull'⟩ := hone b hb (pkt + 20) (by omega) (by omega)
      have hpull₂' := (hone b hb (headlen pkt (bytes bp) + pkt) (by omega) (by omega)).2
      rw [decide_eq_true hfits] at hpull₂
      simp only [ntohtcp, hpull, hpull', hbytes, hsame, hof, hhead, if_neg hbad, hpull₂, hpull₂', hbytes₂]
      exact ⟨rfl, rfl, hbytes₂⟩
    · -- the options are read from the block that was freed
      refine iff_of_false (fun hseam => ?_) (fun hroomy => ?_)
      · have hagree := hseam ⟨0, [], bytes bp, []⟩ rfl
        obtain ⟨hsame, hpull'⟩ := hone ⟨0, [], bytes bp, []⟩ rfl (pkt + 20) (by omega) (by omega)
        have hpull₂' := (hone ⟨0, [], bytes bp, []⟩ rfl (headlen pkt (bytes bp) + pkt) (by omega) (by omega)).2
        rw [decide_eq_false hfits] at hpull₂
        simp only [ntohtcp, hpull, hpull', hbytes, hsame, hof, hhead, if_neg hbad, hpull₂, hpull₂'] at hagree
        exact hagree
      · rw [Roomy] at hroomy
        omega

/-- **`ntohtcp4` and `ntohtcp6` answer for the bytes of a packet alone** exactly if the first block has
room for the header. -/
theorem ntohtcp_blocks (al : Allocb) (length : Nat) (bp : List Block) :
    (Seamless (ntohtcp4 al length) bp ↔ Roomy al tcp4Pkt tcp4Hdrsize bp) ∧
      (Seamless (ntohtcp6 al length) bp ↔ Roomy al tcp6Pkt tcp6Hdrsize bp) :=
  ⟨ntohtcp_seamless al tcp4Pkt tcp4Pkt length bp, ntohtcp_seamless al tcp6Pkt 0 length bp⟩

theorem exact_fits (size : Nat) : (⟨0, [], [], List.replicate size 0⟩ : Block).data = [] ∧
    size ≤ (⟨0, [], [], List.replicate size 0⟩ : Block).tail.length :=
  ⟨rfl, by simp⟩

/-- A block with just the room asked for. -/
def exact : Allocb := fun size =>
  ⟨⟨0, [], [], List.replicate size 0⟩, exact_fits size⟩

/-- The fixed headers in the first block, which is full, and an MSS option in the second. -/
def splitOption : List Block :=
  [⟨0, [], List.replicate 32 0 ++ [0x60, SYN, 0, 0, 0, 0, 0, 0], []⟩, ⟨0, [], [mssopt, 4, 5, 0xb4], []⟩]

/-- The option of a packet that is cut behind the fixed header is read from a freed block. -/
theorem ntohtcp_split : ¬ Seamless (ntohtcp4 exact 44) splitOption := by
  intro hseam
  have hroomy := (ntohtcp_seamless exact tcp4Pkt tcp4Pkt 44 splitOption).mp hseam
  revert hroomy
  decide

end TcpCodec
