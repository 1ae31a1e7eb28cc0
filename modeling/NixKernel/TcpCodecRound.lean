import NixKernel.TcpCodecSum

/-!
# A TCP segment survives the trip

What `htontcp4` or `htontcp6` built, with the fields of the IP header that IP itself writes
set to anything and any bytes behind it, passes the checksum test of `tcpiput`, and comes out
as the same header fields and the same data.
-/

namespace TcpCodec

open OnesSum Option

variable {little : Bool} {al : Allocb}

theorem nhgets_hnputs (n : Nat) : nhgets (hnputs n) = n % 2 ^ 16 := by
  simp only [nhgets, hnputs, Vector.getElem_mk, List.getElem_toArray, List.getElem_cons_zero,
    List.getElem_cons_succ, UInt8.toNat_ofNat']
  omega

theorem hnputs_zero : hnputs 0 = #v[0, 0] := by decide

theorem nhgetl_hnputl (n : Nat) : nhgetl (hnputl n) = n % 2 ^ 32 := by
  simp only [nhgetl, hnputl, Vector.getElem_mk, List.getElem_toArray, List.getElem_cons_zero,
    List.getElem_cons_succ, UInt8.toNat_ofNat']
  omega

variable {n : Nat}

theorem field_append (v : Vector UInt8 n) (rest : List UInt8) :
    field n (v.toList ++ rest) = some (v, rest) := by
  have hlen : v.toList.length = n := by simp
  have hle : n ≤ (v.toList ++ rest).length := by simp
  rw [field, dif_pos hle]
  have htake : (v.toList ++ rest).take n = v.toList := by
    rw [List.take_append_of_le_length (by omega), List.take_of_length_le (by omega)]
  have hdrop : (v.toList ++ rest).drop n = rest := by
    rw [List.drop_append_of_le_length (by omega), List.drop_of_length_le (by omega)]
    rfl
  simp only [htake, hdrop]
  congr 2

theorem field_two (a b : UInt8) (rest : List UInt8) :
    field 2 (a :: b :: rest) = some (#v[a, b], rest) := field_append #v[a, b] rest

theorem Tcphdr.ofBytes_bytes (h : Tcphdr) (rest : List UInt8) :
    Tcphdr.ofBytes (h.bytes ++ rest) = some h := by
  simp only [Tcphdr.bytes, Tcphdr.front, List.append_assoc, Tcphdr.ofBytes, field_append,
    bind_eq_bind, bind_some, pure_def]

theorem Tcp4hdr.ofBytes_bytes (h : Tcp4hdr) (rest : List UInt8) :
    Tcp4hdr.ofBytes (h.bytes ++ rest) = some h := by
  simp only [Tcp4hdr.bytes, Tcp4hdr.ip, Tcp4hdr.pseudo, List.append_assoc, List.cons_append,
    List.nil_append, Tcp4hdr.ofBytes, field_append, field_two, Tcphdr.ofBytes_bytes,
    bind_eq_bind, bind_some, pure_def]
  rfl

theorem Tcp6hdr.ofBytes_bytes (h : Tcp6hdr) (rest : List UInt8) :
    Tcp6hdr.ofBytes (h.bytes ++ rest) = some h := by
  simp only [Tcp6hdr.bytes, Tcp6hdr.pseudo, List.append_assoc, List.cons_append,
    List.nil_append, Tcp6hdr.ofBytes, field_append, field_two, Tcphdr.ofBytes_bytes,
    bind_eq_bind, bind_some, pure_def]
  rfl

@[simp] theorem Tcphdr.length_front (h : Tcphdr) : h.front.length = 16 := by simp [Tcphdr.front]

@[simp] theorem Tcphdr.length_bytes (h : Tcphdr) : h.bytes.length = 20 := by simp [Tcphdr.bytes]

@[simp] theorem Tcp4hdr.length_ip (h : Tcp4hdr) : h.ip.length = 8 := by simp [Tcp4hdr.ip]

@[simp] theorem Tcp4hdr.length_pseudo (h : Tcp4hdr) : h.pseudo.length = 12 := by
  simp [Tcp4hdr.pseudo]

@[simp] theorem Tcp4hdr.length_bytes (h : Tcp4hdr) : h.bytes.length = 40 := by
  simp [Tcp4hdr.bytes]

@[simp] theorem Tcp6hdr.length_pseudo (h : Tcp6hdr) : h.pseudo.length = 40 := by
  simp [Tcp6hdr.pseudo]

@[simp] theorem Tcp6hdr.length_bytes (h : Tcp6hdr) : h.bytes.length = 60 := by
  simp [Tcp6hdr.bytes]

theorem length_bytes (bp : List Block) : (bytes bp).length = blocklen bp := by
  simp [bytes, blocklen, List.length_flatten, Function.comp_def]

theorem firstlen_le_blocklen (bp : List Block) : firstlen bp ≤ blocklen bp := by
  cases bp with
  | nil => simp [firstlen]
  | cons b next => simp [firstlen, blocklen]

theorem bytes_cons (b : Block) (next : List Block) : bytes (b :: next) = b.data ++ bytes next := by
  simp [bytes]

variable {bp : List Block}

theorem bytes_store {l : List UInt8} (h : l.length ≤ firstlen bp) (hne : bp ≠ []) :
    bytes (store l bp) = l ++ (bytes bp).drop l.length := by
  cases bp with
  | nil => exact absurd rfl hne
  | cons b next =>
    simp only [firstlen] at h
    simp only [store, bytes_cons, List.append_assoc, List.drop_append_of_le_length h]

theorem firstlen_store {l : List UInt8} (h : l.length ≤ firstlen bp) :
    firstlen (store l bp) = firstlen bp := by
  cases bp with
  | nil => rfl
  | cons b next =>
    simp only [firstlen] at h
    simp only [store, firstlen, List.length_append, List.length_drop]
    omega

/-- What a packet is: the first block holds at least the `n` bytes of `hdr`. -/
structure Packed (bp : List Block) (hdr rest : List UInt8) : Prop where
  bytes : bytes bp = hdr ++ rest
  first : hdr.length ≤ firstlen bp
  pos : 0 < hdr.length

/-- Writing over the front of the header. -/
theorem Packed.store {hdr rest l m : List UInt8} (h : Packed bp hdr rest) (l' : List UInt8)
    (hhdr : hdr = l ++ m) (hlen : l'.length = l.length) :
    Packed (TcpCodec.store l' bp) (l' ++ m) rest := by
  have hfirst := h.first
  have hpos := h.pos
  have hne : bp ≠ [] := by
    intro hnil
    subst hnil
    simp only [firstlen] at hfirst
    omega
  rw [hhdr, List.length_append] at hfirst hpos
  constructor
  · rw [bytes_store (by omega) hne, h.bytes, hhdr, hlen]
    simp
  · rw [firstlen_store (by omega), List.length_append]
    omega
  · rw [List.length_append]
    omega

theorem Packed.first_cons {hdr rest : List UInt8} (h : Packed bp hdr rest) :
    ∃ b next more, bp = b :: next ∧ b.data = hdr ++ more := by
  have hfirst := h.first
  have hbytes := h.bytes
  cases bp with
  | nil =>
    have := h.pos
    simp only [firstlen] at hfirst
    omega
  | cons b next =>
    rw [bytes_cons] at hbytes
    simp only [firstlen] at hfirst
    have htake := congrArg (List.take hdr.length) hbytes
    rw [List.take_append_of_le_length hfirst, List.take_left] at htake
    have hsplit := List.take_append_drop hdr.length b.data
    rw [htake] at hsplit
    exact ⟨b, next, b.data.drop hdr.length, rfl, hsplit.symm⟩

theorem Packed.pullupblock (al : Allocb) {hdr rest : List UInt8} (h : Packed bp hdr rest)
    (hn : n ≤ hdr.length) : pullupblock al n bp = some (true, bp) := by
  obtain ⟨b, next, more, rfl, hdata⟩ := h.first_cons
  rw [TcpCodec.pullupblock, if_pos]
  rw [hdata, List.length_append]
  omega

theorem padblock_spec {bp bp' : List Block} (h : padblock al n bp = .ok bp') :
    ∃ junk, bytes bp' = junk ++ bytes bp ∧ junk.length = n ∧ n ≤ firstlen bp' := by
  cases bp with
  | nil => cases h
  | cons b next =>
    rw [padblock] at h
    split at h
    next hroom =>
      cases h
      refine ⟨b.head.drop (b.head.length - n), ?_, ?_, ?_⟩
      · simp [bytes_cons]
      · simp only [List.length_drop]
        omega
      · simp only [firstlen, List.length_append, List.length_drop]
        omega
    next hroom =>
      split at h
      next hnext =>
        cases h
        rw [List.isEmpty_iff] at hnext
        subst hnext
        have hfresh := (al (n + b.data.length)).property.2
        refine ⟨(al (n + b.data.length)).val.tail.take n, ?_, ?_, ?_⟩
        · simp [bytes]
        · simp only [List.length_take]
          omega
        · simp only [firstlen, List.length_append, List.length_take]
          omega
      next hnext => cases h

/-- The data to send, if any. -/
def payload (data : Option (List Block)) : List UInt8 := (data.map bytes).getD []

variable {data : Option (List Block)}

theorem headroom_spec {n dlen : Nat} (h : headroom al n data = .ok (dlen, bp)) :
    dlen = (payload data).length ∧ ∃ junk, bytes bp = junk ++ payload data ∧ junk.length = n ∧
      n ≤ firstlen bp := by
  cases data with
  | none =>
    cases h
    have hfresh := (al (n + 64)).property.2
    refine ⟨rfl, (al (n + 64)).val.tail.take n, ?_, ?_, ?_⟩
    · simp [payload, bytes, Fresh.take]
    · simp only [List.length_take]
      omega
    · simp only [firstlen, Fresh.take, List.length_take]
      omega
  | some data =>
    cases hpad : padblock al n data with
    | error e =>
      simp only [headroom, hpad] at h
      cases h
    | ok bp' =>
      simp only [headroom, hpad] at h
      cases h
      exact ⟨(length_bytes data).symm, padblock_spec hpad⟩

/-- The first write makes a packet of the data with its headroom. -/
theorem headroom_packed {n dlen : Nat} (h : headroom al n data = .ok (dlen, bp)) {hdr : List UInt8}
    (hlen : hdr.length = n) (hpos : 0 < n) : Packed (store hdr bp) hdr (payload data) := by
  obtain ⟨-, junk, hbytes, hjunk, hfirst⟩ := headroom_spec h
  have hpacked : Packed bp junk (payload data) := ⟨hbytes, by omega, by omega⟩
  have := hpacked.store (l := junk) (m := []) hdr (by simp) (by omega)
  rwa [List.append_nil] at this

/-- One block without room, or with it, always gets its header. -/
theorem headroom_isOk (al : Allocb) (n : Nat) (data : Option Block) :
    ∃ r, headroom al n (data.map fun b => [b]) = .ok r := by
  cases data with
  | none => exact ⟨_, rfl⟩
  | some b =>
    simp only [headroom, map_some, padblock, List.isEmpty_nil, if_true]
    split <;> exact ⟨_, rfl⟩

theorem bytes_trimFront {offset : Nat} (h : offset ≤ blocklen bp) :
    bytes (trimFront offset bp) = (bytes bp).drop offset := by
  induction bp generalizing offset with
  | nil => simp [trimFront, bytes]
  | cons b next ih =>
    simp only [blocklen, List.map_cons, List.sum_cons] at h
    rw [trimFront]
    split
    next hlt =>
      rw [ih (by simp only [blocklen]; omega), bytes_cons, List.drop_append,
        List.drop_of_length_le (Nat.le_of_lt hlt), List.nil_append]
    next hlt =>
      rw [bytes_cons, bytes_cons, List.drop_append_of_le_length (Nat.le_of_not_lt hlt)]

theorem bytes_trimBack (bp : List Block) (len : Nat) :
    bytes (trimBack len bp) = (bytes bp).take len := by
  induction bp generalizing len with
  | nil => simp [trimBack, bytes]
  | cons b next ih =>
    rw [trimBack]
    split
    next hlt =>
      rw [bytes_cons, bytes_cons, ih, List.take_append, List.take_of_length_le (Nat.le_of_lt hlt)]
    next hlt =>
      rw [bytes_cons, bytes_cons, List.take_append_of_le_length (Nat.le_of_not_lt hlt)]
      simp [bytes]

/-- `trimblock` cuts the bytes `[offset, offset + len)` out of the packet. -/
theorem trimblock_spec (bp : List Block) (offset len : Nat) (h : offset + len ≤ blocklen bp) :
    ∃ out, trimblock bp offset len = some out ∧
      bytes out = ((bytes bp).drop offset).take len := by
  refine ⟨_, if_neg (by omega), ?_⟩
  rw [bytes_trimBack, bytes_trimFront (by omega)]

theorem length_options (offer : Bool) (tcph : Tcp) :
    hdrlen 20 offer tcph = 20 + (options offer tcph).length := by
  unfold hdrlen options
  by_cases hsyn : tcph.syn
  · by_cases hmss : tcph.mss = 0 <;> cases offer <;> simp [hsyn, hmss, mssLength, wsLength]
  · simp [hsyn]

theorem hdrlen_range (offer : Bool) (tcph : Tcp) :
    hdrlen 20 offer tcph ≤ 28 ∧ hdrlen 20 offer tcph % 4 = 0 := by
  unfold hdrlen
  by_cases hsyn : tcph.syn
  · by_cases hmss : tcph.mss = 0 <;> cases offer <;> simp [hsyn, hmss, mssLength, wsLength]
  · simp [hsyn]

theorem tcpopt_zero (fuel : Nat) (optr : List UInt8) (tcph : Tcp) :
    tcpopt fuel 0 optr tcph = tcph := by
  cases fuel with
  | zero => rfl
  | succ fuel => cases optr <;> simp [tcpopt]

theorem tcpopt_noops (k fuel : Nat) (rest : List UInt8) (tcph : Tcp) :
    tcpopt (fuel + k) k (List.replicate k noopopt ++ rest) tcph = tcph := by
  induction k with
  | zero => exact tcpopt_zero _ _ _
  | succ k ih =>
    have hne : noopopt ≠ eolopt := by decide
    simp only [List.replicate_succ, List.cons_append, tcpopt, hne, or_false,
      Nat.add_one_ne_zero, if_false, if_true, Nat.add_sub_cancel]
    exact ih

theorem tcpopt_mss (fuel n : Nat) (p : Vector UInt8 2) (rest : List UInt8) (tcph : Tcp) :
    tcpopt (fuel + 1) (n + 4) ([mssopt, UInt8.ofNat mssLength] ++ p.toList ++ rest) tcph =
      tcpopt fuel n rest { tcph with mss := UInt16.ofNat (nhgets p) } := by
  obtain ⟨⟨l⟩, hl⟩ := p
  match l, hl with
  | [a, b], _ => simp [tcpopt, mssopt, eolopt, noopopt, mssLength]

/-- What the decoder makes of an offered scale: the option has one byte for it, and "if
greater than 14" it does not count. -/
def heardScale (ws : UInt16) : UInt16 :=
  if ws.toNat % 2 ^ 8 ≤ 14 then UInt16.ofNat (ws.toNat % 2 ^ 8) else 0

theorem tcpopt_ws (fuel n : Nat) (ws : UInt16) (rest : List UInt8) (tcph : Tcp) (h : tcph.ws = 0) :
    tcpopt (fuel + 1) (n + 3)
        ([wsopt, UInt8.ofNat wsLength, UInt8.ofNat ws.toNat] ++ rest) tcph =
      tcpopt fuel n rest { tcph with ws := heardScale ws } := by
  by_cases hle : ws.toNat % 256 ≤ 14
  · simp [tcpopt, wsopt, eolopt, noopopt, mssopt, wsLength, heardScale, hle]
  · have hself : { tcph with ws := 0 } = tcph := by rw [← h]
    simp [tcpopt, wsopt, eolopt, noopopt, mssopt, wsLength, heardScale, hle, hself]

/-- **The decoder finds what the options say**: none without SYN. -/
theorem tcpopt_options (offer : Bool) (tcph : Tcp) (hoffer : offer = false → tcph.ws = 0)
    (rest : List UInt8) (seg : Tcp) (hmss : seg.mss = 0) (hws : seg.ws = 0) :
    tcpopt (options offer tcph).length (options offer tcph).length (options offer tcph ++ rest) seg =
      { seg with
        mss := if tcph.syn then tcph.mss else 0
        ws := if tcph.syn then heardScale tcph.ws else 0 } := by
  obtain ⟨source, dest, seq, ack, flags, update, ws, wnd, urg, mss, len⟩ := seg
  change mss = 0 at hmss
  change ws = 0 at hws
  subst hmss hws
  have hscale : heardScale 0 = 0 := rfl
  have hput : UInt16.ofNat (nhgets (hnputs tcph.mss.toNat)) = tcph.mss := by
    rw [nhgets_hnputs, Nat.mod_eq_of_lt tcph.mss.toNat_lt, UInt16.ofNat_toNat]
  by_cases hsyn : tcph.syn
  · rw [if_pos hsyn, if_pos hsyn]
    by_cases hzero : tcph.mss = 0
    · cases offer with
      | true =>
        have hopt : options true tcph ++ rest =
            [wsopt, UInt8.ofNat wsLength, UInt8.ofNat tcph.ws.toNat] ++
              (List.replicate 1 noopopt ++ rest) := by
          simp [options, hsyn, hzero]
        have hlen : (options true tcph).length = 1 + 3 := by simp [options, hsyn, hzero]
        rw [hopt, hlen, tcpopt_ws 3 1 tcph.ws _ _ rfl, tcpopt_noops 1 2, hzero]
      | false =>
        have hopt : options false tcph = [] := by simp [options, hsyn, hzero]
        rw [hopt, List.length_nil, tcpopt_zero, hoffer rfl, hzero, hscale]
    · cases offer with
      | true =>
        have hopt : options true tcph ++ rest =
            [mssopt, UInt8.ofNat mssLength] ++ (hnputs tcph.mss.toNat).toList ++
              ([wsopt, UInt8.ofNat wsLength, UInt8.ofNat tcph.ws.toNat] ++
                (List.replicate 1 noopopt ++ rest)) := by
          simp [options, hsyn, hzero]
        have hlen : (options true tcph).length = 4 + 4 := by simp [options, hsyn, hzero]
        rw [hopt, hlen, tcpopt_mss 7 4, tcpopt_ws 6 1 tcph.ws _ _ rfl, tcpopt_noops 1 5, hput]
      | false =>
        have hopt : options false tcph ++ rest =
            [mssopt, UInt8.ofNat mssLength] ++ (hnputs tcph.mss.toNat).toList ++ rest := by
          simp [options, hsyn, hzero]
        have hlen : (options false tcph).length = 0 + 4 := by simp [options, hsyn, hzero]
        rw [hopt, hlen, tcpopt_mss 3 0, tcpopt_zero, hput, hoffer rfl, hscale]
  · have hopt : options offer tcph = [] := by simp [options, hsyn]
    rw [hopt, List.length_nil, tcpopt_zero, if_neg hsyn, if_neg hsyn]

theorem wordSum_hnputs (n : Nat) : wordSum (hnputs n).toList = n % 2 ^ 16 := by
  have h := nhgets_hnputs n
  simp only [nhgets, hnputs, Vector.getElem_mk, List.getElem_toArray, List.getElem_cons_zero,
    List.getElem_cons_succ] at h
  simp only [hnputs, Vector.toList_mk, wordSum]
  omega

variable {csum : Nat}

/-- A check word that was taken over itself as 0 makes the sum all ones. -/
theorem fold_hnputs {front back : List UInt8} (heven : front.length % 2 = 0)
    (hne : wordSum front ≠ 0)
    (hcsum : csum = 65535 - fold (wordSum (front ++ (hnputs 0).toList ++ back))) :
    fold (wordSum (front ++ (hnputs csum).toList ++ back)) = 65535 := by
  have heven' : ∀ n, (front ++ (hnputs n).toList).length % 2 = 0 := by
    intro n
    simp only [List.length_append, Vector.length_toList]
    omega
  rw [wordSum_append_even _ (heven' _), wordSum_append_even _ heven, wordSum_hnputs] at hcsum ⊢
  have hlt : csum % 2 ^ 16 = csum := by omega
  have := fold_check (s := wordSum front + wordSum back) (c := csum) (by simpa using hcsum) (by omega)
  rw [hlt, show wordSum front + csum + wordSum back = wordSum front + wordSum back + csum by omega]
  exact this

/-- The checksum of a packet from some place in its header to the end of its data. -/
theorem ptclcsum_packed (pre pad : List UInt8) {hdr data : List UInt8} {offset len : Nat}
    (hp : Packed bp (pre ++ hdr) (data ++ pad)) (hoff : offset = pre.length)
    (hlen : len = hdr.length + data.length) (hpos : 0 < hdr.length) :
    ptclcsum little bp offset len = 65535 - fold (wordSum (hdr ++ data)) := by
  have hfirst := hp.first
  have hle := firstlen_le_blocklen bp
  rw [List.length_append] at hfirst
  rw [ptclcsum_eq little len (by omega), hp.bytes, hoff, List.append_assoc, List.drop_left,
    ← List.append_assoc, List.take_append_of_le_length (by rw [List.length_append]; omega),
    List.take_of_length_le (by rw [List.length_append]; omega)]

/-- Trimming a packet to its data. -/
theorem trimblock_packed (offset len : Nat) {hdr data pad : List UInt8}
    (hp : Packed bp hdr (data ++ pad)) (hoff : offset = hdr.length) (hlen : len = data.length) :
    ∃ out, trimblock bp offset len = some out ∧ bytes out = data := by
  have hblocklen := length_bytes bp
  rw [hp.bytes] at hblocklen
  simp only [List.length_append] at hblocklen
  obtain ⟨out, htrim, hout⟩ := trimblock_spec bp offset len (by omega)
  refine ⟨out, htrim, ?_⟩
  rw [hout, hp.bytes, hoff, hlen, List.drop_left, List.take_left]

/-- The length of the header that its flag word gives. -/
def Tcphdr.hdrlen (h : Tcphdr) : Nat := ((getElem h.tcpflag 0 zero_lt_two).toNat / 2 ^ 2) / 4 * 4

/-- What `htontcp` writes of the header proper, but for the checksum. -/
def Tcphdr.Carries (h : Tcphdr) (lport rport : UInt16) (tcph : Tcp) (hdrlen : Nat)
    (tcb : Option Tcpctl) : Prop :=
  ∃ tcpcksum, h = { Tcphdr.setBits
    { tcpsport := hnputs lport.toNat, tcpdport := hnputs rport.toNat
      tcpseq := hnputl 0, tcpack := hnputl 0, tcpflag := hnputs 0, tcpwin := hnputs 0
      tcpcksum := hnputs 0, tcpurg := hnputs 0 } tcph hdrlen tcb with tcpcksum }

/-- The flag word: the header's length in the upper byte, the flags in the lower. -/
theorem tcpflag_eq (n : Nat) (flags : UInt8) :
    hnputs (n * 2 ^ 10 ||| flags.toNat) = #v[UInt8.ofNat (n * 4), flags] := by
  have hor : n * 2 ^ 10 ||| flags.toNat = n * 2 ^ 10 + flags.toNat := by
    have hlt : flags.toNat < 2 ^ 10 := Nat.lt_trans flags.toNat_lt (by decide)
    rw [Nat.mul_comm, Nat.two_pow_add_eq_or_of_lt hlt]
  have hhi : (n * 2 ^ 10 + flags.toNat) / 2 ^ 8 = n * 4 := by
    have := flags.toNat_lt
    omega
  have hlo : UInt8.ofNat (n * 2 ^ 10 + flags.toNat) = flags := by
    apply UInt8.toNat_inj.mp
    have := flags.toNat_lt
    rw [UInt8.toNat_ofNat']
    omega
  rw [hor, hnputs, hhi, hlo]

variable {lport rport : UInt16} {tcb : Option Tcpctl} {tcph : Tcp}

theorem Tcphdr.Carries.hdrlen {h : Tcphdr} (hc : h.Carries lport rport tcph n tcb) (hle : n ≤ 28)
    (hmod : n % 4 = 0) : h.hdrlen = n := by
  obtain ⟨c, rfl⟩ := hc
  simp only [Tcphdr.hdrlen, Tcphdr.setBits, tcpflag_eq, Vector.getElem_mk,
    List.getElem_toArray, List.getElem_cons_zero, UInt8.toNat_ofNat']
  omega

/-- What `ntohtcp` makes of a segment with `dlen` bytes of data. -/
def Tcp.heard (tcph : Tcp) (lport rport : UInt16) (tcb : Option Tcpctl) (dlen : Nat) : Tcp :=
  { source := lport
    dest := rport
    seq := tcph.seq
    ack := tcph.ack
    flags := tcph.flags
    update := 0
    ws := if tcph.syn then heardScale tcph.ws else 0
    wnd := UInt32.ofNat (tcph.wnd.toNat / 2 ^ (tcb.elim 0 Tcpctl.scale) % 2 ^ 16)
    urg := tcph.urg
    mss := if tcph.syn then tcph.mss else 0
    len := UInt16.ofNat dlen }

variable {rest : List UInt8}

/-- **Reading the header back**, for both versions: `ip` are the bytes of the IP header. -/
theorem ntohtcp_spec (al : Allocb) (ip : List UInt8) (pkt outer len : Nat) {h : Tcphdr}
    {offer : Bool} (hp : Packed bp (ip ++ h.bytes ++ options offer tcph) rest)
    (hip : ip.length = pkt) (hc : h.Carries lport rport tcph (TcpCodec.hdrlen 20 offer tcph) tcb)
    (hoffer : offer = false → tcph.ws = 0) (hlen : TcpCodec.hdrlen 20 offer tcph + outer ≤ len) :
    ntohtcp al pkt 20 outer len bp =
      .ok (tcph.heard lport rport tcb (len - (TcpCodec.hdrlen 20 offer tcph + outer)),
        TcpCodec.hdrlen 20 offer tcph, bp) := by
  obtain ⟨hle, hmod⟩ := hdrlen_range offer tcph
  have hopts := length_options offer tcph
  have hlength : (ip ++ h.bytes ++ options offer tcph).length =
      TcpCodec.hdrlen 20 offer tcph + pkt := by
    simp only [List.length_append, Tcphdr.length_bytes]
    omega
  have hn := hc.hdrlen hle hmod
  have hdrop : (bytes bp).drop pkt = h.bytes ++ (options offer tcph ++ rest) := by
    rw [hp.bytes, ← hip]
    simp
  have hdrop' : (bytes bp).drop (pkt + 20) = options offer tcph ++ rest := by
    rw [← List.drop_drop, hdrop, List.drop_append_of_le_length (by simp),
      List.drop_of_length_le (by simp), List.nil_append]
  have hsub : TcpCodec.hdrlen 20 offer tcph - 20 = (options offer tcph).length := by omega
  simp only [ntohtcp, hp.pullupblock al (n := pkt + 20) (by omega), hdrop, Tcphdr.ofBytes_bytes]
  rw [Tcphdr.hdrlen] at hn
  rw [hn, if_neg (by omega), hp.pullupblock al (by omega)]
  simp only [hdrop', hsub]
  rw [tcpopt_options offer tcph hoffer rest _ rfl rfl]
  obtain ⟨c, rfl⟩ := hc
  simp only [Tcphdr.setBits, tcpflag_eq, nhgets_hnputs, nhgetl_hnputl,
    Nat.mod_eq_of_lt (UInt16.toNat_lt _), Nat.mod_eq_of_lt (UInt32.toNat_lt _),
    UInt16.ofNat_toNat, UInt32.ofNat_toNat, Tcp.heard]
  have hlast : UInt16.ofNat len - UInt16.ofNat (TcpCodec.hdrlen 20 offer tcph + outer) =
      UInt16.ofNat (len - (TcpCodec.hdrlen 20 offer tcph + outer)) := by
    rw [UInt16.ofNat_sub hlen]
  rw [hlast]
  rfl

/-- The bytes of the header that the checksum covers. -/
def Tcp4hdr.summed (h : Tcp4hdr) : List UInt8 := h.pseudo ++ h.toTcphdr.bytes

theorem Tcp4hdr.bytes_eq (h : Tcp4hdr) (l : List UInt8) :
    h.bytes ++ l = h.ip ++ (h.summed ++ l) := by
  simp [Tcp4hdr.bytes, Tcp4hdr.summed]

@[simp] theorem Tcp4hdr.length_summed (h : Tcp4hdr) : h.summed.length = 32 := by
  simp [Tcp4hdr.summed]

variable {h : Tcp4hdr}

theorem Tcp4hdr.fold_summed (hproto : h.proto ≠ 0)
    (hcsum : csum = 65535 - fold (wordSum ({ h with tcpcksum := hnputs 0 }.summed ++ rest))) :
    fold (wordSum ({ h with tcpcksum := hnputs csum }.summed ++ rest)) = 65535 := by
  have hsplit : ∀ c, { h with tcpcksum := c }.summed ++ rest =
      (h.pseudo ++ h.front) ++ c.toList ++ (h.tcpurg.toList ++ rest) := by
    intro c
    simp [Tcp4hdr.summed, Tcphdr.bytes, Tcphdr.front, Tcp4hdr.pseudo]
  rw [hsplit] at hcsum ⊢
  apply fold_hnputs _ _ hcsum
  · simp
  · intro hzero
    rw [wordSum_eq_zero] at hzero
    exact hproto (UInt8.toNat_inj.mp (hzero h.proto (by simp [Tcp4hdr.pseudo])))

theorem hdrlen4_eq (tcph : Tcp) : hdrlen4 tcph = 20 + (options true tcph).length :=
  length_options true tcph

/-- The packets that `htontcp4` builds. -/
structure Built4 (bp : List Block) (h : Tcp4hdr) (src dst : Vector UInt8 4) (lport rport : UInt16)
    (tcph : Tcp) (tcb : Option Tcpctl) (data : List UInt8) : Prop where
  packed : Packed bp (h.bytes ++ options true tcph) data
  carries : h.toTcphdr.Carries lport rport tcph (hdrlen4 tcph) tcb
  src : h.tcpsrc = src
  dst : h.tcpdst = dst
  unused : h.unused = 0
  tcplen : h.tcplen = hnputs (hdrlen4 tcph + data.length)
  csum : h.tcpcksum = #v[0, 0] ∨ fold (wordSum (h.summed ++ (options true tcph ++ data))) = 65535

variable {src dst : Vector UInt8 4}

theorem htontcp4_built
    (h : htontcp4 little al tcph data (proto4hdr src dst lport rport) tcb = .ok bp) :
    ∃ hd, Built4 bp hd src dst lport rport tcph tcb (payload data) := by
  have hopts := hdrlen4_eq tcph
  cases hroom : headroom al (hdrlen4 tcph + tcp4Pkt) data with
  | error e =>
    simp only [htontcp4, hroom] at h
    cases h
  | ok r =>
    obtain ⟨dlen, bp₀⟩ := r
    simp only [htontcp4, hroom] at h
    cases h
    obtain ⟨hdlen, -⟩ := headroom_spec hroom
    let hd : Tcp4hdr := { proto4hdr src dst lport rport with
      toTcphdr := (proto4hdr src dst lport rport).toTcphdr.setBits tcph (hdrlen4 tcph) tcb
      tcplen := hnputs (hdrlen4 tcph + dlen) }
    have hhdr : (hd.bytes ++ options true tcph).length = hdrlen4 tcph + tcp4Pkt := by
      simp only [List.length_append, Tcp4hdr.length_bytes, tcp4Pkt, tcp4Iplen, tcp4Phdrsize]
      omega
    have hpacked := headroom_packed hroom hhdr (by simp [tcp4Pkt, tcp4Iplen])
    have hsum : ptclcsum little (store (hd.bytes ++ options true tcph) bp₀) tcp4Iplen
        (hdrlen4 tcph + dlen + tcp4Phdrsize) =
        65535 - fold (wordSum (hd.summed ++ (options true tcph ++ payload data))) := by
      rw [← List.append_assoc hd.summed]
      apply ptclcsum_packed hd.ip []
      · rw [List.append_nil, ← Tcp4hdr.bytes_eq]
        exact hpacked
      · simp [tcp4Iplen]
      · simp only [List.length_append, Tcp4hdr.length_summed, tcp4Phdrsize]
        omega
      · simp
    refine ⟨_, hpacked.store _ rfl (by simp), ⟨_, rfl⟩, rfl, rfl, rfl, by rw [← hdlen], ?_⟩
    cases hno : nochecksum tcb with
    | true => exact Or.inl hnputs_zero
    | false => exact Or.inr (Tcp4hdr.fold_summed (h := hd) (show ipTcpproto ≠ 0 by decide) hsum)

/-- The fields of an IPv4 header that IP writes, on the sending side and under way. -/
structure Ip4fields where
  vihl : UInt8
  tos : UInt8
  id : Vector UInt8 2
  frag : Vector UInt8 2
  ttl : UInt8
  cksum : Vector UInt8 2
  ver : vihl &&& 0xF0 = ipVer4

/-- The header with IP's own fields and the packet's length filled in. -/
def Tcp4hdr.fill (h : Tcp4hdr) (w : Ip4fields) (length : Nat) : Tcp4hdr :=
  { h with
    vihl := w.vihl, tos := w.tos, length := hnputs length, id := w.id, frag := w.frag
    unused := w.ttl, tcplen := w.cksum }

/-- What arrives of a packet: IP has filled in its fields, the medium may have added bytes at
the end, and header and options lie in the first block. -/
def Delivered4 (sent rcvd : List Block) : Prop :=
  ∃ (h : Tcp4hdr) (w : Ip4fields) (rest pad : List UInt8), bytes sent = h.bytes ++ rest ∧
    bytes rcvd = (h.fill w (blocklen sent)).bytes ++ (rest ++ pad) ∧
    tcp4Pkt + h.toTcphdr.hdrlen ≤ firstlen rcvd

theorem Built4.blocklen {data : List UInt8} (hb : Built4 bp h src dst lport rport tcph tcb data) :
    blocklen bp = tcp4Pkt + hdrlen4 tcph + data.length := by
  have hopts := hdrlen4_eq tcph
  rw [← length_bytes, hb.packed.bytes]
  simp only [List.length_append, Tcp4hdr.length_bytes, tcp4Pkt, tcp4Iplen, tcp4Phdrsize]
  omega

theorem tcpiput4_spec (little : Bool) (al : Allocb) {data pad : List UInt8}
    (hp : Packed bp (h.bytes ++ options true tcph) (data ++ pad))
    (hc : h.toTcphdr.Carries lport rport tcph (hdrlen4 tcph) tcb)
    (hlength : nhgets h.length = tcp4Pkt + hdrlen4 tcph + data.length)
    (hmax : nhgets h.length < ipMax)
    (hsum : h.tcpcksum = #v[0, 0] ∨ fold (wordSum (h.forSum.summed ++ (options true tcph ++ data))) = 65535)
    (btcpck : Bool) :
    ∃ out, tcpiput4 little al btcpck h bp =
      .ok ⟨v4tov6 h.tcpsrc, v4tov6 h.tcpdst, tcph.heard lport rport tcb data.length,
        hdrlen4 tcph, out⟩ ∧ bytes out = data := by
  have hopts := hdrlen4_eq tcph
  have hp' : Packed (store h.forSum.bytes bp) (h.forSum.bytes ++ options true tcph) (data ++ pad) :=
    hp.store _ rfl (by simp)
  simp only [tcp4Pkt, tcp4Iplen, tcp4Phdrsize, ipMax] at hlength hmax
  -- the sum is over the bytes that the sender summed
  have hcsum : ptclcsum little (store h.forSum.bytes bp) tcp4Iplen (nhgets h.length - tcp4Iplen) =
      65535 - fold (wordSum (h.forSum.summed ++ (options true tcph ++ data))) := by
    rw [← List.append_assoc h.forSum.summed]
    apply ptclcsum_packed h.forSum.ip pad
    · rw [← Tcp4hdr.bytes_eq]
      exact hp'
    · simp [tcp4Iplen]
    · simp only [List.length_append, Tcp4hdr.length_summed, tcp4Iplen]
      omega
    · simp
  have hpass : ¬ ((!btcpck) = true ∧ h.tcpcksum ≠ #v[0, 0] ∧
      ptclcsum little (store h.forSum.bytes bp) tcp4Iplen (nhgets h.length - tcp4Iplen) ≠ 0) := by
    intro hbad
    rcases hsum with hzero | hones
    · exact hbad.2.1 hzero
    · rw [hcsum, hones] at hbad
      exact hbad.2.2 rfl
  have hnto : ntohtcp4 al (nhgets h.length) (store h.forSum.bytes bp) =
      .ok (tcph.heard lport rport tcb (nhgets h.length - (hdrlen4 tcph + tcp4Pkt)), hdrlen4 tcph,
        store h.forSum.bytes bp) := by
    apply ntohtcp_spec al (h.forSum.ip ++ h.forSum.pseudo) _ _ _ hp'
      (by simp [tcp4Pkt, tcp4Iplen, tcp4Phdrsize]) hc (by simp)
    show hdrlen4 tcph + tcp4Pkt ≤ nhgets h.length
    simp only [tcp4Pkt, tcp4Iplen, tcp4Phdrsize]
    omega
  have hdlen : nhgets h.length - (hdrlen4 tcph + tcp4Pkt) = data.length := by
    simp only [tcp4Pkt, tcp4Iplen, tcp4Phdrsize]
    omega
  obtain ⟨out, htrim, hout⟩ := trimblock_packed (hdrlen4 tcph + tcp4Pkt)
    (ushortSub (nhgets h.length) (hdrlen4 tcph + tcp4Pkt)) hp'
    (by simp only [List.length_append, Tcp4hdr.length_bytes, tcp4Pkt, tcp4Iplen, tcp4Phdrsize]; omega)
    (by simp only [ushortSub, tcp4Pkt, tcp4Iplen, tcp4Phdrsize]; omega)
  refine ⟨out, ?_, hout⟩
  rw [hdlen] at hnto
  simp only [tcpiput4, if_neg hpass, hnto, trimmed, htrim]

/-- **The IPv4 trip.** -/
theorem Built4.tcpiput (little : Bool) (al : Allocb) {sent rcvd : List Block} {data : List UInt8}
    (hb : Built4 sent h src dst lport rport tcph tcb data) (hmax : TcpCodec.blocklen sent < ipMax)
    (hd : Delivered4 sent rcvd) (btcpck : Bool) :
    ∃ out, TcpCodec.tcpiput little al btcpck rcvd =
      .ok ⟨v4tov6 src, v4tov6 dst, tcph.heard lport rport tcb data.length, hdrlen4 tcph, out⟩ ∧
      bytes out = data := by
  obtain ⟨hle, hmod⟩ := hdrlen_range true tcph
  obtain ⟨h', w, rest, pad, hsent', hrcvd, hfirst⟩ := hd
  have hopts := hdrlen4_eq tcph
  have hlen := hb.blocklen
  have hsent := hb.packed.bytes
  rw [List.append_assoc] at hsent
  -- the header and the rest are those that were built
  have hhdr : h' = h := by
    have := congrArg Tcp4hdr.ofBytes (hsent'.symm.trans hsent)
    rwa [Tcp4hdr.ofBytes_bytes, Tcp4hdr.ofBytes_bytes, some_inj] at this
  subst hhdr
  have hrest : rest = options true tcph ++ data :=
    List.append_cancel_left (hsent'.symm.trans hsent)
  subst hrest
  have hn : h'.toTcphdr.hdrlen = hdrlen4 tcph := hb.carries.hdrlen hle hmod
  rw [hn] at hfirst
  have hp : Packed rcvd ((h'.fill w (TcpCodec.blocklen sent)).bytes ++ options true tcph)
      (data ++ pad) := by
    constructor
    · rw [hrcvd]
      simp
    · simp only [List.length_append, Tcp4hdr.length_bytes, tcp4Pkt, tcp4Iplen, tcp4Phdrsize] at *
      omega
    · simp
  have hfield : nhgets (h'.fill w (TcpCodec.blocklen sent)).length = TcpCodec.blocklen sent := by
    simp only [Tcp4hdr.fill, nhgets_hnputs, ipMax] at *
    omega
  have hforSum : (h'.fill w (TcpCodec.blocklen sent)).forSum.summed = h'.summed := by
    have hsub : ushortSub (TcpCodec.blocklen sent) tcp4Pkt = hdrlen4 tcph + data.length := by
      simp only [ushortSub, tcp4Pkt, tcp4Iplen, tcp4Phdrsize, ipMax] at *
      omega
    simp only [Tcp4hdr.forSum, hfield, hsub]
    simp only [Tcp4hdr.fill, Tcp4hdr.summed, Tcp4hdr.pseudo, hb.unused, hb.tcplen]
  have hsum := hb.csum
  rw [← hforSum] at hsum
  obtain ⟨out, hrun, hout⟩ := tcpiput4_spec little al hp hb.carries
    (hfield.trans hlen) (lt_of_eq_of_lt hfield hmax) hsum btcpck
  refine ⟨out, ?_, hout⟩
  obtain ⟨b, next, more, rfl, hdata⟩ := hp.first_cons
  have hcast : Tcp4hdr.ofBytes b.data = some (h'.fill w (TcpCodec.blocklen sent)) := by
    rw [hdata, List.append_assoc, Tcp4hdr.ofBytes_bytes]
  obtain ⟨l, hver⟩ : ∃ l, b.data = w.vihl :: l := ⟨_, by rw [hdata]; rfl⟩
  have hdispatch : TcpCodec.tcpiput little al btcpck (b :: next) =
      tcpiput4 little al btcpck (h'.fill w (TcpCodec.blocklen sent)) (b :: next) := by
    simp only [TcpCodec.tcpiput, hver, w.ver, if_true]
    rw [hver] at hcast
    rw [hcast]
  rw [hdispatch, hrun, ← hb.src, ← hb.dst]
  rfl

theorem Tcp6hdr.fold_summed {h : Tcp6hdr} (hproto : h.ttl ≠ 0)
    (hcsum : csum = 65535 - fold (wordSum ({ h with tcpcksum := hnputs 0 }.bytes ++ rest))) :
    fold (wordSum ({ h with tcpcksum := hnputs csum }.bytes ++ rest)) = 65535 := by
  have hsplit : ∀ c, { h with tcpcksum := c }.bytes ++ rest =
      (h.pseudo ++ h.front) ++ c.toList ++ (h.tcpurg.toList ++ rest) := by
    intro c
    simp [Tcp6hdr.bytes, Tcphdr.bytes, Tcphdr.front, Tcp6hdr.pseudo]
  rw [hsplit] at hcsum ⊢
  apply fold_hnputs _ _ hcsum
  · simp
  · intro hzero
    rw [wordSum_eq_zero] at hzero
    exact hproto (UInt8.toNat_inj.mp (hzero h.ttl (by simp [Tcp6hdr.pseudo])))

theorem hdrlen6_eq (tcph : Tcp) :
    hdrlen6 tcph = 20 + (options (tcph.ws ≠ 0) tcph).length :=
  length_options (tcph.ws ≠ 0) tcph

/-- The packets that `htontcp6` builds. -/
structure Built6 (bp : List Block) (h : Tcp6hdr) (src dst : Vector UInt8 16) (lport rport : UInt16)
    (tcph : Tcp) (tcb : Option Tcpctl) (data : List UInt8) : Prop where
  packed : Packed bp (h.bytes ++ options (tcph.ws ≠ 0) tcph) data
  carries : h.toTcphdr.Carries lport rport tcph (hdrlen6 tcph) tcb
  src : h.tcpsrc = src
  dst : h.tcpdst = dst
  ploadlen : h.ploadlen = hnputs (hdrlen6 tcph + data.length)
  csum : h.tcpcksum = #v[0, 0] ∨ fold (wordSum ((h.forSum (hdrlen6 tcph + data.length)).bytes ++
    (options (tcph.ws ≠ 0) tcph ++ data))) = 65535

theorem htontcp6_built {src dst : Vector UInt8 16}
    (h : htontcp6 little al tcph data (proto6hdr src dst lport rport) tcb = .ok bp) :
    ∃ hd, Built6 bp hd src dst lport rport tcph tcb (payload data) := by
  have hopts := hdrlen6_eq tcph
  cases hroom : headroom al (hdrlen6 tcph + tcp6Pkt) data with
  | error e =>
    simp only [htontcp6, hroom] at h
    cases h
  | ok r =>
    obtain ⟨dlen, bp₀⟩ := r
    simp only [htontcp6, hroom] at h
    cases h
    obtain ⟨hdlen, -⟩ := headroom_spec hroom
    let hd : Tcp6hdr := { proto6hdr src dst lport rport with
      toTcphdr := (proto6hdr src dst lport rport).toTcphdr.setBits tcph (hdrlen6 tcph) tcb
      vcf := hnputl (hdrlen6 tcph + dlen)
      ploadlen := #v[0, 0]
      proto := 0
      ttl := (proto6hdr src dst lport rport).proto }
    have hhdr : (hd.bytes ++ options (tcph.ws ≠ 0) tcph).length = hdrlen6 tcph + tcp6Pkt := by
      simp only [List.length_append, Tcp6hdr.length_bytes, tcp6Pkt, tcp6Iplen, tcp6Phdrsize]
      omega
    have hpacked := headroom_packed hroom hhdr (by simp [tcp6Pkt, tcp6Phdrsize])
    have hsum : ptclcsum little (store (hd.bytes ++ options (tcph.ws ≠ 0) tcph) bp₀) tcp6Iplen
        (hdrlen6 tcph + dlen + tcp6Phdrsize) =
        65535 - fold (wordSum (hd.bytes ++ (options (tcph.ws ≠ 0) tcph ++ payload data))) := by
      rw [← List.append_assoc hd.bytes]
      apply ptclcsum_packed [] []
      · rw [List.append_nil]
        exact hpacked
      · simp [tcp6Iplen]
      · simp only [List.length_append, Tcp6hdr.length_bytes, tcp6Phdrsize]
        omega
      · simp
    refine ⟨_, hpacked.store _ rfl (by simp), ⟨_, rfl⟩, rfl, rfl, by rw [← hdlen], ?_⟩
    rw [← hdlen]
    cases hno : nochecksum tcb with
    | true => exact Or.inl hnputs_zero
    | false => exact Or.inr (Tcp6hdr.fold_summed (h := hd) (show ipTcpproto ≠ 0 by decide) hsum)

/-- The fields of an IPv6 header that IP writes. -/
structure Ip6fields where
  vcf : Vector UInt8 4
  ttl : UInt8
  ver : getElem vcf 0 zero_lt_four &&& 0xF0 = ipVer6

/-- The header with IP's own fields filled in; `ploadlen` is again what it was. -/
def Tcp6hdr.fill (h : Tcp6hdr) (w : Ip6fields) (length : Nat) : Tcp6hdr :=
  { h with vcf := w.vcf, ttl := w.ttl, ploadlen := hnputs (length - tcp6Pkt) }

/-- As `Delivered4`, for IPv6. -/
def Delivered6 (sent rcvd : List Block) : Prop :=
  ∃ (h : Tcp6hdr) (w : Ip6fields) (rest pad : List UInt8), bytes sent = h.bytes ++ rest ∧
    bytes rcvd = (h.fill w (blocklen sent)).bytes ++ (rest ++ pad) ∧
    tcp6Pkt + h.toTcphdr.hdrlen ≤ firstlen rcvd

theorem Built6.blocklen {h : Tcp6hdr} {src dst : Vector UInt8 16} {data : List UInt8}
    (hb : Built6 bp h src dst lport rport tcph tcb data) :
    blocklen bp = tcp6Pkt + hdrlen6 tcph + data.length := by
  have hopts := hdrlen6_eq tcph
  rw [← length_bytes, hb.packed.bytes]
  simp only [List.length_append, Tcp6hdr.length_bytes, tcp6Pkt, tcp6Iplen, tcp6Phdrsize]
  omega

theorem tcpiput6_spec (little : Bool) (al : Allocb) {h : Tcp6hdr} {data pad : List UInt8}
    (hp : Packed bp (h.bytes ++ options (tcph.ws ≠ 0) tcph) (data ++ pad))
    (hc : h.toTcphdr.Carries lport rport tcph (hdrlen6 tcph) tcb)
    (hlength : nhgets h.ploadlen = hdrlen6 tcph + data.length) (hmax : nhgets h.ploadlen < ipMax)
    (hsum : h.tcpcksum = #v[0, 0] ∨ fold (wordSum ((h.forSum (nhgets h.ploadlen)).bytes ++ (options (tcph.ws ≠ 0) tcph ++ data))) = 65535) :
    ∃ out, tcpiput6 little al h bp =
      .ok ⟨h.tcpsrc.toList, h.tcpdst.toList, tcph.heard lport rport tcb data.length,
        hdrlen6 tcph, out⟩ ∧ bytes out = data := by
  have hopts := hdrlen6_eq tcph
  have hp' := hp.store (h.forSum (nhgets h.ploadlen)).bytes rfl (by simp)
  have hp'' := hp'.store
    (Tcp6hdr.bytes { h with vcf := hnputl (nhgets h.ploadlen), ploadlen := hnputs (nhgets h.ploadlen) })
    rfl (by simp)
  simp only [ipMax] at hmax
  have hcsum : ptclcsum little (store (h.forSum (nhgets h.ploadlen)).bytes bp) tcp6Iplen
      (nhgets h.ploadlen + tcp6Phdrsize) =
      65535 - fold (wordSum ((h.forSum (nhgets h.ploadlen)).bytes ++
        (options (tcph.ws ≠ 0) tcph ++ data))) := by
    rw [← List.append_assoc (h.forSum (nhgets h.ploadlen)).bytes]
    apply ptclcsum_packed [] pad
    · exact hp'
    · simp [tcp6Iplen]
    · simp only [List.length_append, Tcp6hdr.length_bytes, tcp6Phdrsize]
      omega
    · simp
  have hpass : ¬ (h.tcpcksum ≠ #v[0, 0] ∧
      ptclcsum little (store (h.forSum (nhgets h.ploadlen)).bytes bp) tcp6Iplen
        (nhgets h.ploadlen + tcp6Phdrsize) ≠ 0) := by
    intro hbad
    rcases hsum with hzero | hones
    · exact hbad.1 hzero
    · rw [hcsum, hones] at hbad
      exact hbad.2 rfl
  have hnto := ntohtcp_spec al _ tcp6Pkt 0 (nhgets h.ploadlen) hp''
    (by simp [tcp6Pkt, tcp6Iplen, tcp6Phdrsize]) hc
    (fun hoff => by simpa using hoff) (show hdrlen6 tcph + 0 ≤ nhgets h.ploadlen by omega)
  have hdlen : nhgets h.ploadlen - (hdrlen6 tcph + 0) = data.length := by omega
  obtain ⟨out, htrim, hout⟩ := trimblock_packed (hdrlen6 tcph + tcp6Pkt)
    (ushortSub (nhgets h.ploadlen) (hdrlen6 tcph + 0)) hp''
    (by simp only [List.length_append, Tcp6hdr.length_bytes, tcp6Pkt, tcp6Iplen, tcp6Phdrsize]; omega)
    (by simp only [ushortSub]; omega)
  refine ⟨out, ?_, hout⟩
  change ntohtcp6 al (nhgets h.ploadlen) _ =
    .ok (tcph.heard lport rport tcb (nhgets h.ploadlen - (hdrlen6 tcph + 0)), hdrlen6 tcph, _) at hnto
  rw [hdlen] at hnto
  simp only [tcpiput6, if_neg hpass, hnto, trimmed, htrim]

/-- **The IPv6 trip.** -/
theorem Built6.tcpiput (little : Bool) (al : Allocb) {sent rcvd : List Block} {h : Tcp6hdr}
    {src dst : Vector UInt8 16} {data : List UInt8}
    (hb : Built6 sent h src dst lport rport tcph tcb data) (hmax : TcpCodec.blocklen sent < ipMax)
    (hd : Delivered6 sent rcvd) (btcpck : Bool) :
    ∃ out, TcpCodec.tcpiput little al btcpck rcvd =
      .ok ⟨src.toList, dst.toList, tcph.heard lport rport tcb data.length, hdrlen6 tcph, out⟩ ∧
      bytes out = data := by
  obtain ⟨hle, hmod⟩ := hdrlen_range (tcph.ws ≠ 0) tcph
  obtain ⟨h', w, rest, pad, hsent', hrcvd, hfirst⟩ := hd
  have hopts := hdrlen6_eq tcph
  have hlen := hb.blocklen
  have hsent := hb.packed.bytes
  rw [List.append_assoc] at hsent
  have hhdr : h' = h := by
    have := congrArg Tcp6hdr.ofBytes (hsent'.symm.trans hsent)
    rwa [Tcp6hdr.ofBytes_bytes, Tcp6hdr.ofBytes_bytes, some_inj] at this
  subst hhdr
  have hrest : rest = options (tcph.ws ≠ 0) tcph ++ data :=
    List.append_cancel_left (hsent'.symm.trans hsent)
  subst hrest
  have hn : h'.toTcphdr.hdrlen = hdrlen6 tcph := hb.carries.hdrlen hle hmod
  rw [hn] at hfirst
  have hp : Packed rcvd ((h'.fill w (TcpCodec.blocklen sent)).bytes ++ options (tcph.ws ≠ 0) tcph)
      (data ++ pad) := by
    constructor
    · rw [hrcvd]
      simp
    · simp only [List.length_append, Tcp6hdr.length_bytes, tcp6Pkt, tcp6Iplen, tcp6Phdrsize] at *
      omega
    · simp
  have hfield : nhgets (h'.fill w (TcpCodec.blocklen sent)).ploadlen =
      hdrlen6 tcph + data.length := by
    simp only [Tcp6hdr.fill, nhgets_hnputs, ipMax, tcp6Pkt, tcp6Iplen, tcp6Phdrsize] at *
    omega
  have hforSum : (h'.fill w (TcpCodec.blocklen sent)).forSum
      (nhgets (h'.fill w (TcpCodec.blocklen sent)).ploadlen) =
      h'.forSum (hdrlen6 tcph + data.length) := by
    rw [hfield]
    rfl
  have hsum := hb.csum
  rw [← hforSum] at hsum
  obtain ⟨out, hrun, hout⟩ := tcpiput6_spec little al hp hb.carries
    hfield (by rw [hfield]; simp only [ipMax, tcp6Pkt, tcp6Iplen, tcp6Phdrsize] at *; omega) hsum
  refine ⟨out, ?_, hout⟩
  obtain ⟨b, next, more, rfl, hdata⟩ := hp.first_cons
  have hcast : Tcp6hdr.ofBytes b.data = some (h'.fill w (TcpCodec.blocklen sent)) := by
    rw [hdata, List.append_assoc, Tcp6hdr.ofBytes_bytes]
  obtain ⟨l, hver⟩ : ∃ l, b.data = w.vcf[0] :: l := by
    obtain ⟨⟨⟨_ | ⟨a, v⟩⟩, hv⟩, ttl, hw⟩ := w
    · cases hv
    · exact ⟨_, by rw [hdata]; rfl⟩
  have hnot4 : ¬ w.vcf[0] &&& 0xF0 = ipVer4 := by
    rw [w.ver]
    decide
  have hdispatch : TcpCodec.tcpiput little al btcpck (b :: next) =
      tcpiput6 little al (h'.fill w (TcpCodec.blocklen sent)) (b :: next) := by
    simp only [TcpCodec.tcpiput, hver, if_neg hnot4]
    rw [hver] at hcast
    rw [hcast]
  rw [hdispatch, hrun, ← hb.src, ← hb.dst]
  rfl

theorem htontcp4_isOk (little : Bool) (al : Allocb) (tcph : Tcp) (data : Option Block) (ph : Tcp4hdr) (tcb : Option Tcpctl) :
    ∃ bp, htontcp4 little al tcph (data.map fun b => [b]) ph tcb = .ok bp := by
  obtain ⟨r, hr⟩ := headroom_isOk al (hdrlen4 tcph + tcp4Pkt) data
  simp only [htontcp4, hr]
  exact ⟨_, rfl⟩

theorem htontcp6_isOk (little : Bool) (al : Allocb) (tcph : Tcp) (data : Option Block) (ph : Tcp6hdr) (tcb : Option Tcpctl) :
    ∃ bp, htontcp6 little al tcph (data.map fun b => [b]) ph tcb = .ok bp := by
  obtain ⟨r, hr⟩ := headroom_isOk al (hdrlen6 tcph + tcp6Pkt) data
  simp only [htontcp6, hr]
  exact ⟨_, rfl⟩

/-- A packet can arrive as it was sent, with nothing but its length filled in. -/
theorem Built4.delivered {sent : List Block} {data : List UInt8}
    (hb : Built4 sent h src dst lport rport tcph tcb data) :
    ∃ rcvd, Delivered4 sent rcvd := by
  obtain ⟨hle, hmod⟩ := hdrlen_range true tcph
  have hopts := hdrlen4_eq tcph
  let w : Ip4fields := ⟨ipVer4, 0, hnputs 0, hnputs 0, 0, hnputs 0, by decide⟩
  have hp := hb.packed.store (h.fill w (TcpCodec.blocklen sent)).bytes rfl (by simp)
  have hfirst := hp.first
  have hn : h.toTcphdr.hdrlen = hdrlen4 tcph := hb.carries.hdrlen hle hmod
  refine ⟨TcpCodec.store (h.fill w (TcpCodec.blocklen sent)).bytes sent, h, w,
    options true tcph ++ data, [], ?_, ?_, ?_⟩
  · rw [hb.packed.bytes, List.append_assoc]
  · rw [hp.bytes, List.append_assoc, List.append_nil]
  · rw [hn]
    simp only [List.length_append, Tcp4hdr.length_bytes, tcp4Pkt, tcp4Iplen, tcp4Phdrsize] at *
    omega

theorem trimblock_length {bp out : List Block} {offset len : Nat}
    (h : trimblock bp offset len = some out) : (bytes out).length ≤ len := by
  rw [trimblock] at h
  split at h
  next => cases h
  next =>
    cases h
    rw [bytes_trimBack]
    exact List.length_take_le len _

theorem ushortSub_lt (a b : Nat) : ushortSub a b < 2 ^ 16 := Nat.mod_lt _ (by decide)

variable {r : Segment}

theorem trimmed_length {source dest : List UInt8} {pkt outer length : Nat}
    {x : Except Drop (Tcp × Nat × List Block)} (h : trimmed source dest pkt outer length x = .ok r) :
    (bytes r.bp).length < 2 ^ 16 := by
  cases x with
  | error e => cases h
  | ok x =>
    rw [trimmed] at h
    split at h
    next => cases h
    next out htrim =>
      cases h
      exact Nat.lt_of_le_of_lt (trimblock_length htrim) (ushortSub_lt _ _)

theorem tcpiput4_length {btcpck : Bool} {h4 : Tcp4hdr} (h : tcpiput4 little al btcpck h4 bp = .ok r) :
    (bytes r.bp).length < 2 ^ 16 := by
  simp only [tcpiput4] at h
  split at h
  next => cases h
  next => exact trimmed_length h

theorem tcpiput6_length {h6 : Tcp6hdr} (h : tcpiput6 little al h6 bp = .ok r) :
    (bytes r.bp).length < 2 ^ 16 := by
  simp only [tcpiput6] at h
  split at h
  next => cases h
  next => exact trimmed_length h

/-- The length field of an IP header bounds the data. -/
theorem tcpiput_length {btcpck : Bool} (h : tcpiput little al btcpck bp = .ok r) :
    (bytes r.bp).length < 2 ^ 16 := by
  cases bp with
  | nil => cases h
  | cons b next =>
    rw [tcpiput] at h
    split at h
    next => cases h
    next =>
      split at h
      next =>
        split at h
        next => cases h
        next h4 hcast => exact tcpiput4_length h
      next =>
        split at h
        next => cases h
        next h6 hcast => exact tcpiput6_length h

/-- **A segment survives the trip.**  For every header, data, pair of addresses and ports, what
`htontcp4` or `htontcp6` built and IP did not refuse for its size passes `tcpiput`, whatever IP
and the medium add: the addresses, the header fields, the header's length and the data are those
that went in.  Data in one block, or none, always gets its header. -/
theorem segment_round_trip (little : Bool) (al : Allocb) (tcph : Tcp) (tcb : Option Tcpctl)
    (lport rport : UInt16) :
    (∀ (data : Option (List Block)) (src dst : Vector UInt8 4) (bp : List Block),
      htontcp4 little al tcph data (proto4hdr src dst lport rport) tcb = .ok bp →
      blocklen bp = tcp4Pkt + hdrlen4 tcph + (payload data).length ∧
      (blocklen bp < ipMax → ∀ (rcvd : List Block) (btcpck : Bool), Delivered4 bp rcvd →
        ∃ out, tcpiput little al btcpck rcvd =
          .ok ⟨v4tov6 src, v4tov6 dst, tcph.heard lport rport tcb (payload data).length,
            hdrlen4 tcph, out⟩ ∧ bytes out = payload data)) ∧
    (∀ (data : Option (List Block)) (src dst : Vector UInt8 16) (bp : List Block),
      htontcp6 little al tcph data (proto6hdr src dst lport rport) tcb = .ok bp →
      blocklen bp = tcp6Pkt + hdrlen6 tcph + (payload data).length ∧
      (blocklen bp < ipMax → ∀ (rcvd : List Block) (btcpck : Bool), Delivered6 bp rcvd →
        ∃ out, tcpiput little al btcpck rcvd =
          .ok ⟨src.toList, dst.toList, tcph.heard lport rport tcb (payload data).length,
            hdrlen6 tcph, out⟩ ∧ bytes out = payload data)) ∧
    (∀ (data : Option Block) (ph4 : Tcp4hdr) (ph6 : Tcp6hdr),
      (∃ bp, htontcp4 little al tcph (data.map fun b => [b]) ph4 tcb = .ok bp) ∧
      ∃ bp, htontcp6 little al tcph (data.map fun b => [b]) ph6 tcb = .ok bp) := by
  refine ⟨?_, ?_, ?_⟩
  · intro data src dst bp hrun
    obtain ⟨h, hb⟩ := htontcp4_built hrun
    exact ⟨hb.blocklen, fun hmax rcvd btcpck hd => hb.tcpiput little al hmax hd btcpck⟩
  · intro data src dst bp hrun
    obtain ⟨h, hb⟩ := htontcp6_built hrun
    exact ⟨hb.blocklen, fun hmax rcvd btcpck hd => hb.tcpiput little al hmax hd btcpck⟩
  · intro data ph4 ph6
    exact ⟨htontcp4_isOk little al tcph data ph4 tcb, htontcp6_isOk little al tcph data ph6 tcb⟩

/-- An allocator that clears its memory. -/
def zeroAlloc : Allocb := fun size =>
  ⟨⟨0, [], [], List.replicate size 0⟩, rfl, (List.length_replicate).ge⟩

/-- A SYN with a segment size and a window scale. -/
def synSegment (ws : UInt16) : Tcp :=
  { source := 0, dest := 0, seq := 7, ack := 0, flags := SYN, update := 0, ws, wnd := 65535
    urg := 0, mss := 1460, len := 0 }

/-- A SYN of 28 header bytes goes through, with its size and its scale 4. -/
theorem segment_round_trip_syn : ∃ sent rcvd out,
    htontcp4 true zeroAlloc (synSegment 4) none
      (proto4hdr #v[10, 0, 0, 1] #v[10, 0, 0, 2] 5000 80) none = .ok sent ∧
    Delivered4 sent rcvd ∧
    tcpiput true zeroAlloc false rcvd =
      .ok ⟨v4tov6 #v[10, 0, 0, 1], v4tov6 #v[10, 0, 0, 2],
        { synSegment 4 with source := 5000, dest := 80 }, 28, out⟩ ∧ bytes out = [] := by
  obtain ⟨h4, -, hok⟩ := segment_round_trip true zeroAlloc (synSegment 4) none 5000 80
  obtain ⟨⟨sent, hsent⟩, -⟩ := hok none (proto4hdr #v[10, 0, 0, 1] #v[10, 0, 0, 2] 5000 80)
    (proto6hdr (Vector.replicate 16 0) (Vector.replicate 16 0) 0 0)
  obtain ⟨hd, hb⟩ := htontcp4_built hsent
  obtain ⟨rcvd, hrcvd⟩ := hb.delivered
  obtain ⟨hlen, hrun⟩ := h4 none _ _ sent hsent
  have hmax : blocklen sent < ipMax := by
    rw [hlen]
    decide
  obtain ⟨out, hput, hout⟩ := hrun hmax rcvd false hrcvd
  exact ⟨sent, rcvd, out, hsent, hrcvd, hput, hout⟩

/-- A scale beyond 14 is taken for none, and the data of a packet that is too long for IP does
not come back. -/
theorem scale_fifteen_lost :
    (∃ sent rcvd r, htontcp4 true zeroAlloc (synSegment 15) none
        (proto4hdr #v[10, 0, 0, 1] #v[10, 0, 0, 2] 5000 80) none = .ok sent ∧
      Delivered4 sent rcvd ∧ tcpiput true zeroAlloc false rcvd = .ok r ∧
      r.seg.ws ≠ (synSegment 15).ws) ∧
    (∀ rcvd r, tcpiput true zeroAlloc false rcvd = .ok r →
      bytes r.bp ≠ payload (some [⟨0, [], List.replicate (2 ^ 16) 0, []⟩])) := by
  constructor
  · obtain ⟨sent, hsent⟩ := htontcp4_isOk true zeroAlloc (synSegment 15) none
      (proto4hdr #v[10, 0, 0, 1] #v[10, 0, 0, 2] 5000 80) none
    obtain ⟨hd, hb⟩ := htontcp4_built hsent
    obtain ⟨rcvd, hrcvd⟩ := hb.delivered
    have hmax : blocklen sent < ipMax := by
      rw [hb.blocklen]
      decide
    obtain ⟨out, hput, -⟩ := hb.tcpiput true zeroAlloc hmax hrcvd false
    have hscale : (if (synSegment 15).syn then heardScale 15 else 0) ≠ (15 : UInt16) := by decide
    exact ⟨sent, rcvd, _, hsent, hrcvd, hput, hscale⟩
  · intro rcvd r hrun heq
    have hlt := tcpiput_length hrun
    have hlen := congrArg List.length heq
    simp only [payload, map_some, getD_some, length_bytes, blocklen, List.map_cons,
      List.map_nil, List.sum_cons, List.sum_nil, List.length_replicate] at hlen hlt
    omega

end TcpCodec
