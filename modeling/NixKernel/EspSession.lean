import NixKernel.EspRound

/-!
# The round trip of ESP

The lengths that the sender puts together are the ones that the receiver takes apart: the packet is
the IP header, the ESP header, whole blocks of cipher text, and the authenticator.
-/

namespace Esp

open Buffer List

variable {D : Type} {lib : Libsec D} {a b : Espcb D} {v : Version} {spi : UInt32}

/-- The padding fills a block, and four bytes. -/
theorem pad_spec (h : Ciphers a) (payload : Nat) : a.pad payload < 256 ∧
    (payload + (a.pad payload + Esptaillen)) % 4 = 0 ∧ (payload + (a.pad payload + Esptaillen)) % a.espblklen = 0 := by
  have hblk : a.espblklen = 1 ∨ a.espblklen = 8 ∨ a.espblklen = 16 := by
    rw [Ciphers] at h
    cases hc : a.cipher with
    | nullcipher => rw [hc] at h; exact Or.inl h.1
    | descipher => rw [hc] at h; exact Or.inr (Or.inl h.1)
    | des3cipher => rw [hc] at h; exact Or.inr (Or.inl h.1)
    | aescbccipher => rw [hc] at h; exact Or.inr (Or.inr h.1)
    | aesctrcipher => rw [hc] at h; exact Or.inr (Or.inr h.1)
  rw [Espcb.pad, Esptaillen]
  obtain hblk | hblk | hblk := hblk <;> rw [hblk] <;> simp only [Nat.reduceGT, if_true, if_false] <;> omega

/-- The padding and the trailer. -/
def trailer (padding : List UInt8) (nexthdr : UInt8) : List UInt8 :=
  padding ++ [UInt8.ofNat padding.length, nexthdr]

theorem length_trailer (padding : List UInt8) (nexthdr : UInt8) :
    (trailer padding nexthdr).length = padding.length + Esptaillen := length_append

/-- What is authenticated: the ESP header and the cipher text. -/
def covered (lib : Libsec D) (a : Espcb D) (text : List UInt8) : List UInt8 :=
  hnputl a.spi ++ hnputl (a.seq + 1) ++ (a.runcipher lib text).1

/-- The parts of a packet, of the data of `bp`, as the receiver `b` needs them. -/
structure Sealed (lib : Libsec D) (a b : Espcb D) (v : Version) (bp ip room rear mac : List UInt8) (ds : Option D) :
    Prop where
  ip : ip.length = v.iphdrlen ∧ ip.getD 0 0 &&& 0xf0 = v.nibble
  roomlen : room.length = a.espivlen
  blocks : (room ++ (bp ++ rear)).length % 4 = 0 ∧ (room ++ (bp ++ rear)).length % a.espblklen = 0
  deciphered : Deciphered lib a { b with ds } room (bp ++ rear)
  maclen : mac.length = a.ahlen
  auth : b.runauth lib (covered lib a (room ++ (bp ++ rear))) mac = (true, mac, { b with ds })

/-- **The packet** of `encap`, and the sender behind it. -/
theorem encap_spec (hlib : lib.Sound) (h : Session a b) {src dst : List UInt8}
    (hsrc : (v = .V4 → src.length = 4) ∧ (v = .V6 → src.length = 16))
    (hdst : (v = .V4 → dst.length = 4) ∧ (v = .V6 → dst.length = 16)) (front tail : Nat → UInt8) (nexthdr : UInt8)
    (bp : List UInt8) :
    ∃ ip room padding mac ivec ds, Sealed lib a b v bp ip room (trailer padding nexthdr) mac ds ∧
      padding.length < 256 ∧ Ciphers { a with ivec } ∧
      a.encap lib v src dst front tail nexthdr bp =
        (ip ++ covered lib a (room ++ (bp ++ trailer padding nexthdr)) ++ mac,
          { a with ivec, seq := a.seq + 1, ds }) := by
  obtain ⟨hpad, hfour, hblock⟩ := pad_spec h.ciphers (bp.length + a.espivlen)
  obtain ⟨head, room, hfront, hhead, hroom⟩ := exists_append (length_memory front (v.hdrlen + a.espivlen))
  obtain ⟨rest, auth, htail, hrest, hauth⟩ :=
    exists_append (length_memory tail (a.pad (bp.length + a.espivlen) + Esptaillen + a.ahlen))
  obtain ⟨padding, two, rfl, hpadding, htwo⟩ := exists_append hrest
  generalize hp : a.pad (bp.length + a.espivlen) = pad at *
  have hn : (room ++ (bp ++ trailer padding nexthdr)).length = bp.length + a.espivlen + pad + Esptaillen := by
    rw [length_append, length_append, length_trailer, hroom, hpadding]
    omega
  have hlen : (room ++ (bp ++ trailer padding nexthdr)).length = bp.length + a.espivlen + (pad + Esptaillen) := by
    rw [hn, Nat.add_assoc]
  rw [← hlen] at hfour hblock
  -- the trailer is put in place, and then the text is enciphered there
  have hdec : ∀ ds, Deciphered lib a { b with ds } room (bp ++ trailer padding nexthdr) := fun ds =>
    deciphered (b := { b with ds }) hlib { h with } hroom hblock
  obtain ⟨ivec, hcipher, hciphers⟩ := (hdec none).sender
  have henc := (hdec none).length
  have htext : write (head ++ room ++ bp ++ (padding ++ two ++ auth)) (v.hdrlen + (bp.length + a.espivlen) + pad)
      [UInt8.ofNat pad, nexthdr] = head ++ (room ++ (bp ++ trailer padding nexthdr)) ++ auth := by
    have hend : v.hdrlen + (bp.length + a.espivlen) + pad = (head ++ room ++ bp ++ padding).length := by
      simp only [length_append, hhead, hroom, hpadding]
      omega
    have hnew : [UInt8.ofNat pad, nexthdr].length = two.length := htwo.symm
    have hmid := write_mid (b := two) (c := auth) hend hnew
    rw [trailer, hpadding]
    simpa only [append_assoc] using hmid
  obtain ⟨ip, hfill, hip⟩ := fillhead_spec a.spi (a.seq + 1)
    ((a.runcipher lib (room ++ (bp ++ trailer padding nexthdr))).1 ++ auth) hsrc hdst hhead
  obtain ⟨r, mac, ds, hsend, hmac, hrecv⟩ := authenticated (a := { a with ivec, seq := a.seq + 1 }) hlib h.auth
    h.ahstate h.ds h.ahlen h.digest (covered lib a (room ++ (bp ++ trailer padding nexthdr))) auth hauth
  have hcov : (covered lib a (room ++ (bp ++ trailer padding nexthdr))).length =
      8 + (bp.length + a.espivlen + pad + Esptaillen) := by
    rw [covered, length_append, length_append, length_hnputl, length_hnputl, henc, hn]
  refine ⟨ip, room, padding, mac, ivec, ds, ⟨hip, hroom, ⟨hfour, hblock⟩, hdec ds, hmac, hrecv⟩, hpadding ▸ hpad,
    hciphers, ?_⟩
  have hwhole : ip ++ (hnputl a.spi ++ hnputl (a.seq + 1) ++
      ((a.runcipher lib (room ++ (bp ++ trailer padding nexthdr))).1 ++ auth)) =
      ip ++ covered lib a (room ++ (bp ++ trailer padding nexthdr)) ++ auth := by
    simp only [covered, append_assoc]
  have hend : v.hdrlen + (bp.length + a.espivlen + pad + Esptaillen) =
      (ip ++ covered lib a (room ++ (bp ++ trailer padding nexthdr))).length := by
    rw [length_append, hip.1, hcov, Version.hdrlen]
    omega
  rw [Espcb.encap]
  dsimp only
  rw [hp, hfront, htail, htext, slice_mid hhead.symm hn.symm, write_mid hhead.symm henc, hcipher]
  dsimp only
  rw [append_assoc head, hfill, hwhole, slice_mid hip.1.symm (by rw [hcov, Version.hdrlen]; omega),
    slice_last hend hauth.symm, hsend, write_last hend (hmac.trans hauth.symm)]

/-- What the reader gets. -/
def delivered (header full : Bool) (nexthdr : UInt8) (bp : List UInt8) : Outcome :=
  if full then .qfull else .pass (if header then [nexthdr, 0, 0, 0] ++ bp else bp)

/-- The trailer tells how much of the text is data. -/
theorem decap_spec {c : Espcb D} {front iv bp padding mac : List UInt8} {nexthdr : UInt8}
    (hfront : front.length = v.hdrlen) (hiv : iv.length = c.espivlen) (hbp : 0 < bp.length)
    (hpad : padding.length < 256) (full : Bool) :
    c.decap v (front ++ (iv ++ (bp ++ trailer padding nexthdr)) ++ mac)
      (iv ++ (bp ++ trailer padding nexthdr)).length full = delivered c.header full nexthdr bp := by
  have hn : (iv ++ (bp ++ trailer padding nexthdr)).length = c.espivlen + bp.length + padding.length + 2 := by
    rw [length_append, length_append, length_trailer, hiv, Esptaillen]
    omega
  have hat : v.hdrlen + (((iv ++ (bp ++ trailer padding nexthdr)).length : Int) - (Esptaillen : Nat)).toNat =
      (front ++ iv ++ bp ++ padding).length := by
    rw [hn, Esptaillen]
    simp only [length_append, hfront, hiv]
    omega
  have hpadbyte : (front ++ (iv ++ (bp ++ trailer padding nexthdr)) ++ mac).getD
      (front ++ iv ++ bp ++ padding).length 0 = UInt8.ofNat padding.length := by
    have hmid := getD_mid (a := front ++ iv ++ bp ++ padding) (x := UInt8.ofNat padding.length)
      (c := nexthdr :: mac) rfl 0
    rw [trailer]
    simpa only [append_assoc, cons_append, nil_append] using hmid
  have hnext : (front ++ (iv ++ (bp ++ trailer padding nexthdr)) ++ mac).getD
      ((front ++ iv ++ bp ++ padding).length + 1) 0 = nexthdr := by
    have hend : (front ++ iv ++ bp ++ padding).length + 1 =
        (front ++ iv ++ bp ++ padding ++ [UInt8.ofNat padding.length]).length := by
      simp only [length_append, length_cons, length_nil]
    have hmid := getD_mid (x := nexthdr) (c := mac) hend 0
    rw [trailer]
    simpa only [append_assoc, cons_append, nil_append] using hmid
  have hbyte : (UInt8.ofNat padding.length).toNat = padding.length := by
    rw [UInt8.toNat_ofNat', Nat.mod_eq_of_lt hpad]
  have hpayload : ((iv ++ (bp ++ trailer padding nexthdr)).length : Int) - (Esptaillen : Nat) -
      ((padding.length : Int) + (c.espivlen : Int)) = bp.length := by
    rw [hn, Esptaillen]
    omega
  have hdata : slice (front ++ (iv ++ (bp ++ trailer padding nexthdr)) ++ mac) (v.hdrlen + c.espivlen) bp.length =
      bp := by
    have hend : v.hdrlen + c.espivlen = (front ++ iv).length := by
      rw [length_append, hfront, hiv]
    have hmid := slice_mid (b := bp) (c := trailer padding nexthdr ++ mac) hend rfl
    simpa only [append_assoc] using hmid
  rw [Espcb.decap, delivered]
  dsimp only
  rw [hat, hpadbyte, hnext, hbyte, hpayload, if_neg (by omega), Int.toNat_natCast, hdata]

/-- **The packet** goes through every check, whatever the IP header in front of it has become. -/
theorem input_spec (h : Session a b) {bp ip room padding mac : List UInt8} {nexthdr : UInt8} {ds : Option D}
    (hs : Sealed lib a b v bp ip room (trailer padding nexthdr) mac ds) (hbp : 0 < bp.length)
    (hpad : padding.length < 256) {ip' : List UInt8} (hip : ip'.length = v.iphdrlen) (full : Bool) :
    ∃ ivec, b.input lib v (a.seq + 1) (ip' ++ covered lib a (room ++ (bp ++ trailer padding nexthdr)) ++ mac) full =
      (delivered a.header full nexthdr bp, { b with ds, ivec, w0set := true, w0 := a.seq + 1, w := 0 }) := by
  obtain ⟨iv, hiv, hplain⟩ := hs.deciphered.plain
  obtain ⟨ivec, hrecv⟩ := hs.deciphered.receiver
  have henc := hs.deciphered.length
  have hfour := hs.blocks.1
  have hblock := hs.blocks.2
  have hn : (room ++ (bp ++ trailer padding nexthdr)).length = a.espivlen + bp.length + padding.length + 2 := by
    rw [length_append, length_append, length_trailer, hs.roomlen, Esptaillen]
    omega
  have hplainlen : (iv ++ (bp ++ trailer padding nexthdr)).length =
      (room ++ (bp ++ trailer padding nexthdr)).length := by
    rw [length_append, hiv, ← hs.roomlen, ← length_append]
  have hauth := hs.auth
  generalize htext : room ++ (bp ++ trailer padding nexthdr) = text at *
  have hcov : (covered lib a text).length = 8 + text.length := by
    rw [covered, length_append, length_append, length_hnputl, length_hnputl, henc]
  have hlen : (ip' ++ covered lib a text ++ mac).length = v.iphdrlen + 8 + text.length + a.ahlen := by
    rw [length_append, length_append, hip, hcov, hs.maclen]
    omega
  have hat : (ip' ++ covered lib a text ++ mac).length - b.ahlen = (ip' ++ covered lib a text).length := by
    rw [hlen, h.ahlen, length_append, hip, hcov]
    omega
  have hsplit : ip' ++ covered lib a text ++ mac =
      ip' ++ (hnputl a.spi ++ hnputl (a.seq + 1)) ++ (a.runcipher lib text).1 ++ mac := by
    rw [covered]
    simp only [append_assoc]
  have hhead : (ip' ++ (hnputl a.spi ++ hnputl (a.seq + 1))).length = v.hdrlen := by
    rw [length_append, hip]
    rfl
  have hpayload : ((ip' ++ covered lib a text ++ mac).length : Int) - (v.hdrlen : Nat) - (b.ahlen : Nat) = text.length := by
    rw [hlen, h.ahlen, Version.hdrlen]
    omega
  have hprev : b.w0set = true → b.w0 = a.seq + 1 - 1 := by
    intro hset
    rw [h.window.2 hset]
    grind
  have hwindow := ckwindow_next (b := { b with ds, ivec }) h.window.1 hprev
  refine ⟨ivec, ?_⟩
  rw [Espcb.input, if_neg (by rw [hlen, h.espivlen, h.ahlen, Version.hdrlen, Esptaillen]; omega)]
  dsimp only
  rw [hat, slice_mid hip.symm (by rw [length_append, hip]; omega), slice_last rfl (by rw [h.ahlen, hs.maclen]),
    hauth]
  dsimp only
  rw [if_neg (by decide), write_last rfl rfl, hpayload, if_neg (by rw [h.espblklen]; omega), Int.toNat_natCast, hsplit,
    slice_mid hhead.symm henc.symm, hrecv, write_mid hhead.symm (by rw [hplain, hplainlen, henc])]
  rw [hplain, hwindow]
  dsimp only
  rw [← hplainlen, decap_spec (c := { b with ds, ivec, w0set := true, w0 := a.seq + 1, w := 0 }) hhead
    (hiv.trans h.espivlen.symm) hbp hpad, ← h.header]

theorem pktipvers_nibble {p : List UInt8} (h : p.getD 0 0 &&& 0xf0 = v.nibble) : pktipvers p = v := by
  rw [pktipvers, h]
  cases v with
  | V4 => rfl
  | V6 => rfl

/-- A conversation that keeps its direction and index is found where it was. -/
theorem convlookup_set {convs : List (Espcb D)} {i : Nat} {b' : Espcb D} (hb : convs[i]? = some b)
    (hsame : (b'.incoming && b'.spi == spi) = (b.incoming && b.spi == spi)) :
    convlookup (convs.set i b') spi = convlookup convs spi := by
  induction convs generalizing i with
  | nil => rfl
  | cons c convs ih =>
    rw [convlookup, convlookup]
    cases i with
    | zero =>
      obtain rfl := Option.some.inj hb
      rw [set_cons_zero, List.findIdx?_cons, List.findIdx?_cons, hsame]
    | succ i =>
      have hrest := ih (i := i) hb
      rw [convlookup, convlookup] at hrest
      rw [set_cons_succ, List.findIdx?_cons, List.findIdx?_cons, hrest]

/-- The receivers: the lookup finds one that is in session with the sender. -/
def Listening (a : Espcb D) (convs : List (Espcb D)) : Prop :=
  ∃ i b, convlookup convs a.spi = some i ∧ convs[i]? = some b ∧ Session a b

/-- **One message** goes through, and both ends are ready for the next. -/
theorem trip_delivers (hlib : lib.Sound) {convs : List (Espcb D)} (h : Listening a convs) {x : Send}
    (hx : x.Proper a.header) :
    ∃ a' convs', trip lib a convs x = some (some (x.expected a.header), a', convs') ∧
      a'.header = a.header ∧ Listening a' convs' := by
  obtain ⟨i, b, hfind, hget, hsession⟩ := h
  -- the message without its User header
  obtain ⟨bp, nexthdr, hbp, hkick, hexpected⟩ : ∃ bp nexthdr, 0 < bp.length ∧
      a.espkick lib x.v x.src x.dst x.front x.tail x.bp =
        some (some (a.encap lib x.v x.src x.dst x.front x.tail nexthdr bp).1,
          (a.encap lib x.v x.src x.dst x.front x.tail nexthdr bp).2) ∧
      x.expected a.header = delivered a.header x.full nexthdr bp := by
    have hdata := hx.data
    cases hh : a.header with
    | true =>
      rw [hh, if_pos rfl] at hdata
      refine ⟨x.bp.drop Userhdrlen, x.bp.getD 0 0, by rw [length_drop]; omega, ?_, rfl⟩
      rw [Espcb.espkick, hh, hsession.ahblklen, if_neg (by omega), if_pos rfl, if_pos rfl, if_neg (by omega)]
    | false =>
      rw [hh, if_neg Bool.false_ne_true] at hdata
      refine ⟨x.bp, 0, hdata, ?_, rfl⟩
      rw [Espcb.espkick, hh, hsession.ahblklen, if_neg (fun h => nomatch h.1), if_neg Bool.false_ne_true,
        if_neg Bool.false_ne_true, if_neg (by omega)]
  obtain ⟨ip, room, padding, mac, ivec, ds, hs, hpad, hciphers, hencap⟩ :=
    encap_spec hlib hsession hx.src hx.dst x.front x.tail nexthdr bp
  generalize htext : room ++ (bp ++ trailer padding nexthdr) = text at *
  generalize hp : ip ++ covered lib a text ++ mac = p at *
  -- IP leaves the version, and what stands behind its header
  obtain ⟨ip', hnet, hip', hnib⟩ : ∃ ip', x.net p = ip' ++ covered lib a text ++ mac ∧ ip'.length = x.v.iphdrlen ∧
      (x.net p).getD 0 0 &&& 0xf0 = x.v.nibble := by
    refine ⟨(x.net p).take x.v.iphdrlen, ?_, ?_, ?_⟩
    · have hrest : (x.net p).drop x.v.iphdrlen = covered lib a text ++ mac := by
        rw [hx.drop, ← hp, append_assoc, drop_left' hs.ip.1]
      rw [append_assoc, ← hrest, take_append_drop]
    · rw [length_take, hx.length, ← hp, length_append, length_append, hs.ip.1]
      omega
    · have hfirst : p.getD 0 0 = ip.getD 0 0 := by
        rw [← hp, append_assoc, getD_eq_getElem?_getD, List.getElem?_append_left
          (by rw [hs.ip.1]; cases x.v <;> decide), getD_eq_getElem?_getD]
      rw [hx.version, hfirst, hs.ip.2]
  obtain ⟨ivec', hinput⟩ := input_spec hsession hs hbp hpad hip' x.full
  rw [htext] at hinput
  have hshort : ¬(x.net p).length < x.v.hdrlen + Esptaillen := by
    rw [hnet, length_append, length_append, hip', covered, length_append, length_append,
      length_hnputl, length_hnputl, ← htext, hs.deciphered.length, length_append, length_append,
      length_trailer, Version.hdrlen]
    omega
  have hspi : slice (x.net p) x.v.iphdrlen 4 = hnputl a.spi := by
    rw [hnet, covered, append_assoc, append_assoc, append_assoc, ← append_assoc ip']
    exact slice_mid hip'.symm rfl
  have hseq : slice (x.net p) (x.v.iphdrlen + 4) 4 = hnputl (a.seq + 1) := by
    have hend : x.v.iphdrlen + 4 = (ip' ++ hnputl a.spi).length := by
      rw [length_append, hip', length_hnputl]
    have hmid := slice_mid (n := 4) (b := hnputl (a.seq + 1)) (c := (a.runcipher lib text).1 ++ mac) hend rfl
    rw [hnet, covered]
    simpa only [append_assoc] using hmid
  have hput : espiput lib convs (x.net p) x.full =
      (delivered a.header x.full nexthdr bp,
        convs.set i { b with ds, ivec := ivec', w0set := true, w0 := a.seq + 1, w := 0 }) := by
    rw [espiput]
    dsimp only
    rw [pktipvers_nibble hnib, if_neg hshort, hspi, hseq, nhgetl_hnputl, nhgetl_hnputl, hfind]
    dsimp only
    rw [hget]
    dsimp only
    rw [hnet, hinput]
  have hi : i < convs.length := (List.getElem?_eq_some_iff.mp hget).1
  refine ⟨{ a with ivec, seq := a.seq + 1, ds },
    convs.set i { b with ds, ivec := ivec', w0set := true, w0 := a.seq + 1, w := 0 }, ?_, rfl, i, _, ?_,
    List.getElem?_set_self hi, ?_⟩
  · rw [trip, hkick, hencap]
    dsimp only [Option.map_some]
    rw [hput, hexpected]
  · rw [convlookup_set hget]
    · exact hfind
    · rfl
  · exact ⟨⟨hsession.sends, hsession.receives, hsession.spi, hsession.header, hciphers, hsession.cipher,
      hsession.espblklen, hsession.espivlen, hsession.espkey, hsession.auth, hsession.ahlen, hsession.ahstate,
      hsession.ahblklen, hsession.digest⟩, rfl, rfl, fun _ => rfl⟩

/-- **Every message** of a session goes through. -/
theorem trips_deliver (hlib : lib.Sound) {convs : List (Espcb D)} (h : Listening a convs) {l : List Send}
    (hl : ∀ x ∈ l, x.Proper a.header) :
    trips lib a convs l = some (l.map fun x => some (x.expected a.header)) := by
  induction l generalizing a convs with
  | nil => rfl
  | cons x l ih =>
    obtain ⟨a', convs', htrip, hheader, hnext⟩ := trip_delivers hlib h (hl x mem_cons_self)
    have hrest := ih hnext fun y hy => hheader ▸ hl y (mem_cons_of_mem x hy)
    rw [trips, htrip]
    dsimp only [Option.bind_some]
    rw [hrest, hheader]
    rfl

/-- An `init` that is given to both ends, with the same key; it leaves the index. -/
def Pairs (al : Algorithm D) : Prop :=
  ∀ {a b : Espcb D}, Session a b → ∀ name key rand rand',
    Session (al.init a name key rand) (al.init b name key rand') ∧ (al.init a name key rand).spi = a.spi

theorem nullespinit_pairs : Pairs (D := D) ⟨"null", 0, nullespinit⟩ := fun h _ _ _ _ =>
  ⟨⟨⟨h.sends, h.receives, h.spi, h.header, ⟨rfl, rfl⟩, rfl, rfl, rfl, h.espkey, h.auth, h.ahlen, h.ahstate,
    h.ahblklen, h.digest⟩, h.ds, h.window⟩, rfl⟩

/-- A key that is short is filled up, and a long one is cut. -/
theorem length_blockkey (keysz : Nat) (k : List UInt8) :
    (k.take (if k.length > keysz then keysz else k.length) ++
      List.replicate (keysz - if k.length > keysz then keysz else k.length) 0).length = keysz := by
  rw [length_append, length_take, length_replicate]
  split <;> omega

theorem blockinit_pairs {blk keysz : Nat} {cipher : Cipher} {name : String} {keylen : Nat}
    (hciphers : ∀ c : Espcb D, c.cipher = cipher → c.espblklen = blk → c.espivlen = blk → c.espkey.length = keysz →
      c.ivec.length = blk → Ciphers c) :
    Pairs (D := D) ⟨name, keylen, blockinit blk keysz cipher⟩ := fun h _ key rand _ =>
  ⟨⟨⟨h.sends, h.receives, h.spi, h.header,
    hciphers _ rfl rfl rfl (length_blockkey keysz key) (length_memory rand blk), rfl, rfl, rfl, rfl, h.auth, h.ahlen,
    h.ahstate, h.ahblklen, h.digest⟩, h.ds, h.window⟩, rfl⟩

theorem nullahinit_pairs : Pairs (D := D) ⟨"null", 0, nullahinit⟩ := fun h _ _ _ _ =>
  ⟨⟨⟨h.sends, h.receives, h.spi, h.header, h.ciphers, h.cipher, h.espblklen, h.espivlen, h.espkey, rfl, rfl, h.ahstate,
    rfl, rfl⟩, h.ds, h.window⟩, rfl⟩

theorem hashinit_pairs {auth : Auth} {name : String} {keylen : Nat} (hauth : auth ≠ .nullauth) :
    Pairs (D := D) ⟨name, keylen, hashinit auth⟩ := fun h _ _ _ _ =>
  ⟨⟨⟨h.sends, h.receives, h.spi, h.header, h.ciphers, h.cipher, h.espblklen, h.espivlen, h.espkey, rfl, rfl, rfl,
    rfl, (if_neg hauth).symm⟩, h.ds, h.window⟩, rfl⟩

theorem espalg_pairs : ∀ al ∈ espalg (D := D), Pairs al := by
  intro al hal
  simp only [espalg, mem_cons, not_mem_nil, or_false] at hal
  obtain rfl | rfl | rfl | rfl | rfl := hal
  · exact nullespinit_pairs
  all_goals
    refine blockinit_pairs fun c hc hblk hiv hkey hivec => ?_
    rw [Ciphers, hc]
    exact ⟨hblk, hiv, hkey, hivec⟩

theorem ahalg_pairs : ∀ al ∈ ahalg (D := D), Pairs al := by
  intro al hal
  simp only [ahalg, mem_cons, not_mem_nil, or_false] at hal
  obtain rfl | rfl | rfl | rfl := hal
  · exact nullahinit_pairs
  all_goals exact hashinit_pairs (by decide)

/-- A request is refused at both ends, or leaves them in session with the index `spi`. -/
def Answers (spi : UInt32) (r r' : Except String (Espcb D)) : Prop :=
  (∃ e, r = .error e ∧ r' = .error e) ∨ ∃ a b, r = .ok a ∧ r' = .ok b ∧ Session a b ∧ a.spi = spi

theorem setalg_answers {alg : List (Algorithm D)} (halg : ∀ al ∈ alg, Pairs al) (h : Session a b) (f : List String)
    (rand rand' : Nat → UInt8) : Answers a.spi (setalg a f alg rand) (setalg b f alg rand') := by
  rw [setalg, setalg]
  split
  next => exact Or.inl ⟨_, rfl, rfl⟩
  next =>
    cases hfound : alg.find? fun al => al.name == f.getD 1 "" with
    | none => exact Or.inl ⟨_, rfl, rfl⟩
    | some al =>
      have hpair := fun name key => halg al (mem_of_find?_eq_some hfound) h name key rand rand'
      dsimp only
      split
      next => exact Or.inr ⟨_, _, rfl, rfl, hpair _ _⟩
      next =>
        split
        next => exact Or.inl ⟨_, rfl, rfl⟩
        next =>
          split
          next => exact Or.inl ⟨_, rfl, rfl⟩
          next =>
            cases unhex (f.getD 2 "").toList with
            | none => exact Or.inl ⟨_, rfl, rfl⟩
            | some key => exact Or.inr ⟨_, _, rfl, rfl, hpair _ _⟩

theorem espctl_answers (h : Session a b) (f : List String) (rand rand' : Nat → UInt8) :
    Answers a.spi (espctl a f rand) (espctl b f rand') := by
  unfold espctl
  split
  next => exact setalg_answers espalg_pairs h f rand rand'
  next => exact setalg_answers ahalg_pairs h f rand rand'
  iterate 2
    next =>
      exact Or.inr ⟨_, _, rfl, rfl, ⟨⟨h.sends, h.receives, h.spi, rfl, h.ciphers, h.cipher, h.espblklen, h.espivlen,
        h.espkey, h.auth, h.ahlen, h.ahstate, h.ahblklen, h.digest⟩, h.ds, h.window⟩, rfl⟩
  next => exact Or.inl ⟨_, rfl, rfl⟩

theorem connect_session (spi : UInt32) : Session (connect false spi : Espcb D) (connect true spi) :=
  ⟨⟨rfl, rfl, rfl, rfl, ⟨rfl, rfl⟩, rfl, rfl, rfl, rfl, rfl, rfl, rfl, rfl, rfl⟩, rfl, rfl, fun h => nomatch h⟩

/-- **Both ends** that are given the same requests are in session. -/
theorem setup_session (h : Session a b) {reqs reqs' : List (List String × (Nat → UInt8))}
    (hsame : reqs.map Prod.fst = reqs'.map Prod.fst) :
    Session (setup a reqs) (setup b reqs') ∧ (setup a reqs).spi = a.spi := by
  induction reqs generalizing a b reqs' with
  | nil =>
    obtain rfl := map_eq_nil_iff.mp hsame.symm
    exact ⟨h, rfl⟩
  | cons req reqs ih =>
    obtain _ | ⟨req', reqs'⟩ := reqs'
    · cases hsame
    · obtain ⟨f, rand⟩ := req
      obtain ⟨f', rand'⟩ := req'
      rw [map_cons, map_cons] at hsame
      obtain ⟨rfl, hrest⟩ := List.cons.inj hsame
      rw [setup, setup]
      obtain ⟨e, ha, hb⟩ | ⟨a', b', ha, hb, hnext, hspi⟩ := espctl_answers h f rand rand'
      · rw [ha, hb]
        exact ih h hrest
      · rw [ha, hb]
        exact ⟨(ih hnext hrest).1, (ih hnext hrest).2.trans hspi⟩

/-- **ESP round trip.**  Two ends that are given the same control requests, with any algorithms and
keys: every message with data reaches the reader as it was written, or finds its queue full. -/
theorem esp_round_trip (hlib : lib.Sound) (spi : UInt32) {reqs reqs' : List (List String × (Nat → UInt8))}
    (hsame : reqs.map Prod.fst = reqs'.map Prod.fst) {convs : List (Espcb D)} {i : Nat}
    (hfind : convlookup convs spi = some i) (hget : convs[i]? = some (setup (connect true spi) reqs'))
    {l : List Send} (hl : ∀ x ∈ l, x.Proper (setup (connect false spi : Espcb D) reqs).header) :
    trips lib (setup (connect false spi) reqs) convs l =
      some (l.map fun x => some (x.expected (setup (connect false spi : Espcb D) reqs).header)) := by
  obtain ⟨hsession, hspi⟩ := setup_session (connect_session (D := D) spi) hsame
  refine trips_deliver hlib ⟨i, _, ?_, hget, hsession⟩ hl
  rw [hspi]
  exact hfind

/-- Ciphers and hashes of one fixed result. -/
def plainLib : Libsec Unit where
  aes_encrypt _ b := b
  aes_decrypt _ b := b
  desCBCencrypt _ iv p := (p, iv)
  desCBCdecrypt _ iv p := (p, iv)
  des3CBCencrypt _ iv p := (p, iv)
  des3CBCdecrypt _ iv p := (p, iv)
  sha1 _ := List.replicate 20 0
  md5 _ := List.replicate 16 0
  hmac_aes _ _ s := (List.replicate 16 0, s)

theorem plainLib_sound : plainLib.Sound where
  aes_length _ _ _ h := h
  aes_inverse _ _ _ _ := rfl
  des := ⟨fun _ _ _ _ hiv _ => ⟨rfl, hiv⟩, fun _ _ _ _ _ _ => rfl⟩
  des3 := ⟨fun _ _ _ _ hiv _ => ⟨rfl, hiv⟩, fun _ _ _ _ _ _ => rfl⟩
  sha1_length _ := rfl
  md5_length _ := rfl
  hmac_aes_length _ _ _ := rfl

/-- A message of three bytes for the user datagram protocol, of a conversation with null algorithms. -/
def plainSend : Send :=
  ⟨.V4, [10, 0, 0, 1], [10, 0, 0, 2], fun _ => 0, fun _ => 0, [17, 0, 0, 0, 1, 2, 3], id, false⟩

theorem plainSend_proper : plainSend.Proper true where
  length _ := rfl
  version _ := rfl
  drop _ := rfl
  data := by decide
  src := ⟨fun _ => rfl, fun h => nomatch h⟩
  dst := ⟨fun _ => rfl, fun h => nomatch h⟩

theorem esp_round_trip_plain :
    trips plainLib (setup (connect false 1234) [(["header"], fun _ => 0)])
      [setup (connect true 1234) [(["header"], fun _ => 1)]] [plainSend] =
    some [some (.pass [17, 0, 0, 0, 1, 2, 3])] := by
  have hproper : ∀ x ∈ [plainSend], x.Proper true := fun x hx => List.mem_singleton.mp hx ▸ plainSend_proper
  have hsame : [(["header"], fun _ : Nat => (0 : UInt8))].map Prod.fst =
      [(["header"], fun _ : Nat => (1 : UInt8))].map Prod.fst := rfl
  exact esp_round_trip plainLib_sound 1234 hsame (i := 0) (by decide) rfl hproper

end Esp
