import NixKernel.Esp

/-!
# The parts of an ESP packet

What the sender does to each part of a packet and what the receiver makes of it: the header, the
cipher text, the authenticator, and the number.
-/

namespace Esp

open Buffer List

variable {D : Type} {lib : Libsec D} {a b : Espcb D} {v : Version}

theorem nhgetl_hnputl (n : UInt32) : nhgetl (hnputl n) = n := by
  have hlt := n.toNat_lt
  rw [nhgetl, hnputl]
  simp only [getD_cons_zero, getD_cons_succ, UInt8.toNat_ofNat']
  apply UInt32.toNat_inj.mp
  rw [UInt32.toNat_ofNat']
  omega

theorem length_hnputl (n : UInt32) : (hnputl n).length = 4 := rfl

theorem length_memory (m : Nat → UInt8) (n : Nat) : (memory m n).length = n := by
  rw [memory, length_map, length_range]

/-- What `pktipvers` reads of a version. -/
def Version.nibble : Version → UInt8
  | .V4 => IP_VER4
  | .V6 => IP_VER6

/-- A write into the header, behind its first byte. -/
theorem front_write {head : List UInt8} {n : Nat} (rest new : List UInt8) (off : Nat) (hhead : head.length = n) (hoff : 0 < off)
    (hnew : off + new.length ≤ n) :
    ∃ head', write (head ++ rest) off new = head' ++ rest ∧ head'.length = n ∧ head'.getD 0 0 = head.getD 0 0 :=
  ⟨write head off new, write_append (hhead ▸ hnew), (length_write (hhead ▸ hnew)).trans hhead,
    getD_write hoff (by omega) 0⟩

/-- The ESP header is written behind the IP header. -/
theorem esphdr_write {head rest : List UInt8} (v : Version) (spi seq : UInt32) (hhead : head.length = v.hdrlen)
    (hfirst : head.getD 0 0 = v.nibble) :
    ∃ ip, write (write (head ++ rest) v.iphdrlen (hnputl spi)) (v.iphdrlen + 4) (hnputl seq) =
      ip ++ (hnputl spi ++ hnputl seq ++ rest) ∧ ip.length = v.iphdrlen ∧ ip.getD 0 0 &&& 0xf0 = v.nibble := by
  have hsplit : head ++ rest = head.take v.iphdrlen ++ (head.drop v.iphdrlen).take 4 ++
      ((head.drop v.iphdrlen).drop 4 ++ rest) := by
    rw [append_assoc, ← append_assoc ((head.drop v.iphdrlen).take 4), take_append_drop,
      ← append_assoc, take_append_drop]
  have htake : (head.take v.iphdrlen).length = v.iphdrlen := by
    rw [length_take, hhead, Version.hdrlen]
    omega
  have hfour : (hnputl spi).length = ((head.drop v.iphdrlen).take 4).length := by
    rw [length_take, length_drop, hhead, Version.hdrlen, length_hnputl]
    omega
  have hlast : (hnputl seq).length = ((head.drop v.iphdrlen).drop 4).length := by
    rw [length_drop, length_drop, hhead, Version.hdrlen, length_hnputl]
    omega
  have hoff : v.iphdrlen + 4 = (head.take v.iphdrlen ++ hnputl spi).length := by
    rw [length_append, htake, length_hnputl]
  refine ⟨head.take v.iphdrlen, ?_, htake, ?_⟩
  · rw [hsplit, write_mid htake.symm hfour, ← append_assoc, write_mid hoff hlast]
    simp only [append_assoc]
  · have hzero : (head.take v.iphdrlen).getD 0 0 = head.getD 0 0 := by
      rw [getD_eq_getElem?_getD, List.getElem?_take_of_lt (by cases v <;> decide), getD_eq_getElem?_getD]
    rw [hzero, hfirst]
    cases v <;> rfl

/-- **The header** stays in its place, and ends with the index and the number of the packet. -/
theorem fillhead_spec {src dst head : List UInt8} (spi seq : UInt32) (rest : List UInt8)
    (hsrc : (v = .V4 → src.length = 4) ∧ (v = .V6 → src.length = 16))
    (hdst : (v = .V4 → dst.length = 4) ∧ (v = .V6 → dst.length = 16)) (hhead : head.length = v.hdrlen) :
    ∃ ip, fillhead v src dst spi seq (head ++ rest) = ip ++ (hnputl spi ++ hnputl seq ++ rest) ∧
      ip.length = v.iphdrlen ∧ ip.getD 0 0 &&& 0xf0 = v.nibble := by
  cases v with
  | V4 =>
    have hsrc' : (src.take 4).length = 4 := by rw [length_take, hsrc.1 rfl]; rfl
    have hdst' : (dst.take 4).length = 4 := by rw [length_take, hdst.1 rfl]; rfl
    have hhead' : head.length = 28 := hhead
    have hver : (write head 0 [IP_VER4]).length = 28 := (length_write (by simp; omega)).trans hhead'
    obtain ⟨h₁, hw₁, hl₁, hf₁⟩ := front_write rest (src.take 4) 12 hver (by decide) (by omega)
    obtain ⟨h₂, hw₂, hl₂, hf₂⟩ := front_write rest (dst.take 4) 16 hl₁ (by decide) (by omega)
    obtain ⟨h₃, hw₃, hl₃, hf₃⟩ := front_write rest [IP_ESPPROTO] 9 hl₂ (by decide) (by simp)
    obtain ⟨h₄, hw₄, hl₄, hf₄⟩ := front_write rest [0, 0] 6 hl₃ (by decide) (by simp)
    rw [fillhead, write_append (by simp; omega), hw₁, hw₂, hw₃, hw₄]
    exact esphdr_write .V4 spi seq hl₄ (by rw [hf₄, hf₃, hf₂, hf₁]; rfl)
  | V6 =>
    have hsrc' : (src.take 16).length = 16 := by rw [length_take, hsrc.2 rfl]; rfl
    have hdst' : (dst.take 16).length = 16 := by rw [length_take, hdst.2 rfl]; rfl
    have hhead' : head.length = 48 := hhead
    have hver : (write head 0 [IP_VER6]).length = 48 := (length_write (by simp; omega)).trans hhead'
    obtain ⟨h₁, hw₁, hl₁, hf₁⟩ := front_write rest (src.take 16) 8 hver (by decide) (by omega)
    obtain ⟨h₂, hw₂, hl₂, hf₂⟩ := front_write rest (dst.take 16) 24 hl₁ (by decide) (by omega)
    obtain ⟨h₃, hw₃, hl₃, hf₃⟩ := front_write rest [IP_ESPPROTO] 6 hl₂ (by decide) (by simp)
    rw [fillhead, write_append (by simp; omega), hw₁, hw₂, hw₃]
    exact esphdr_write .V6 spi seq hl₃ (by rw [hf₃, hf₂, hf₁]; rfl)

/-- The lengths of the cipher of a conversation. -/
def Ciphers (a : Espcb D) : Prop :=
  match a.cipher with
  | .nullcipher => a.espblklen = 1 ∧ a.espivlen = 0
  | .descipher => a.espblklen = Desblk ∧ a.espivlen = Desblk ∧ a.espkey.length = 8 ∧ a.ivec.length = Desblk
  | .des3cipher => a.espblklen = Desblk ∧ a.espivlen = Desblk ∧ a.espkey.length = 24 ∧ a.ivec.length = Desblk
  | _ => a.espblklen = Aesblk ∧ a.espivlen = Aesblk ∧ a.espkey.length = 16 ∧ a.ivec.length = Aesblk

/-- One end sends and the other receives, with the same algorithms and keys. -/
structure Alike (a b : Espcb D) : Prop where
  sends : a.incoming = false
  receives : b.incoming = true
  spi : b.spi = a.spi
  header : b.header = a.header
  ciphers : Ciphers a
  cipher : b.cipher = a.cipher
  espblklen : b.espblklen = a.espblklen
  espivlen : b.espivlen = a.espivlen
  espkey : b.espkey = a.espkey
  auth : b.auth = a.auth
  ahlen : b.ahlen = a.ahlen
  ahstate : b.ahstate = a.ahstate
  ahblklen : a.ahblklen = 1
  digest : a.ahlen = if a.auth = .nullauth then 0 else 12

/-- They have the same hash state too, and the receiver waits for the next number. -/
structure Session (a b : Espcb D) : Prop extends Alike a b where
  ds : b.ds = a.ds
  window : b.w = 0 ∧ (b.w0set = true → b.w0 = a.seq)

/-- What the receiver makes of what the sender has enciphered: the data, behind the room of the
vector. -/
structure Deciphered (lib : Libsec D) (a b : Espcb D) (room data : List UInt8) : Prop where
  length : (a.runcipher lib (room ++ data)).1.length = (room ++ data).length
  plain : ∃ iv, iv.length = a.espivlen ∧ (b.runcipher lib (a.runcipher lib (room ++ data)).1).1 = iv ++ data
  sender : ∃ ivec, (a.runcipher lib (room ++ data)).2 = { a with ivec } ∧ Ciphers { a with ivec }
  receiver : ∃ ivec, (b.runcipher lib (a.runcipher lib (room ++ data)).1).2 = { b with ivec }

theorem xor_cancel (x y : UInt8) : (x ^^^ y) ^^^ y = x := by
  rw [UInt8.xor_assoc, UInt8.xor_self, UInt8.xor_zero]

/-- A receiver drops the room of the vector, which the sender has filled with its own. -/
theorem drop_room {room data : List UInt8} {n : Nat} (h : room.length = n) :
    (room ++ data).drop n = data ∧ (room ++ data).take n = room :=
  ⟨drop_left' h, take_left' h⟩

theorem des_deciphers {keylen : Nat} {enc dec : List UInt8 → List UInt8 → List UInt8 → List UInt8 × List UInt8}
    (hchain : Chained keylen enc dec) (h : Alike a b) {room data : List UInt8}
    (hrun : ∀ p, a.runcipher lib p = des a enc dec p) (hrun' : ∀ p, b.runcipher lib p = des b enc dec p)
    (hkey : a.espkey.length = keylen) (hiv : a.ivec.length = Desblk) (hivlen : a.espivlen = Desblk)
    (hciphers : ∀ ivec : List UInt8, ivec.length = Desblk → Ciphers { a with ivec })
    (hroom : room.length = a.espivlen) (hdata : data.length % Desblk = 0) : Deciphered lib a b room data := by
  rw [hivlen] at hroom
  obtain ⟨hlen, hvec⟩ := hchain.length a.espkey a.ivec data hkey hiv hdata
  have hinv := hchain.inverse a.espkey a.ivec data hkey hiv hdata
  have henc : a.runcipher lib (room ++ data) =
      (a.ivec ++ (enc a.espkey a.ivec data).1, { a with ivec := (enc a.espkey a.ivec data).2 }) := by
    rw [hrun, des, h.sends, if_neg Bool.false_ne_true, (drop_room hroom).1]
  have hdec : b.runcipher lib (a.ivec ++ (enc a.espkey a.ivec data).1) =
      (a.ivec ++ data, { b with ivec := (dec a.espkey a.ivec (enc a.espkey a.ivec data).1).2 }) := by
    rw [hrun', des, h.receives, if_pos rfl, (drop_room hiv).1, (drop_room hiv).2, h.espkey]
    dsimp only
    rw [hinv]
  rw [← hivlen] at hiv hroom
  refine ⟨?_, ⟨a.ivec, hiv, ?_⟩, ⟨_, by rw [henc], hciphers _ hvec⟩, ⟨_, by rw [henc, hdec]⟩⟩
  · rw [henc, length_append, length_append, hlen, hiv, hroom]
  · rw [henc, hdec]

theorem aes_deciphers (hlib : lib.Sound) (h : Alike a b) {room data : List UInt8}
    (hrun : ∀ p, a.runcipher lib p = aes lib a p) (hrun' : ∀ p, b.runcipher lib p = aes lib b p)
    (hkey : a.espkey.length = Aesblk) (hiv : a.ivec.length = Aesblk) (hivlen : a.espivlen = Aesblk)
    (hciphers : ∀ ivec : List UInt8, ivec.length = Aesblk → Ciphers { a with ivec })
    (hroom : room.length = a.espivlen) (hdata : data.length % Aesblk = 0) : Deciphered lib a b room data := by
  rw [hivlen] at hroom
  obtain ⟨k, hk⟩ : ∃ k, data.length = Aesblk * k := ⟨data.length / Aesblk, by
    rw [Nat.mul_div_cancel' (Nat.dvd_of_mod_eq_zero hdata)]⟩
  -- as many turns as there are blocks behind the vector
  have hturns : ∀ p : List UInt8, p.length = Aesblk + data.length →
      (p.length - Aesblk + (Aesblk - 1)) / Aesblk = k := by
    intro p hp
    have hblk : Aesblk = 16 := rfl
    rw [hp, hk, hblk]
    omega
  have hone : ∀ blk : List UInt8, blk.length = Aesblk → (lib.aes_encrypt a.espkey blk).length = Aesblk :=
    fun blk => hlib.aes_length a.espkey blk hkey
  obtain ⟨hlen, hvec⟩ := Cbc.length_encrypt (f := (· ^^^ ·)) hone hiv hk
  have hinv := Cbc.decrypt_encrypt (f := (· ^^^ ·)) xor_cancel hone
    (fun blk => hlib.aes_inverse a.espkey blk hkey) hiv hk
  rw [← hk] at hlen
  have hroomlen : (room ++ data).length = Aesblk + data.length := by rw [length_append, hroom]
  have henc : a.runcipher lib (room ++ data) =
      (a.ivec ++ (Cbc.encrypt Aesblk (· ^^^ ·) (lib.aes_encrypt a.espkey) k a.ivec data).1,
        { a with ivec := (Cbc.encrypt Aesblk (· ^^^ ·) (lib.aes_encrypt a.espkey) k a.ivec data).2 }) := by
    rw [hrun, aes, h.sends, if_neg Bool.false_ne_true, (drop_room hroom).1, hturns _ hroomlen]
  generalize hq : Cbc.encrypt Aesblk (· ^^^ ·) (lib.aes_encrypt a.espkey) k a.ivec data = q at henc hlen hvec hinv
  have houtlen : (a.ivec ++ q.1).length = Aesblk + data.length := by rw [length_append, hiv, hlen]
  have hdec : b.runcipher lib (a.ivec ++ q.1) = (a.ivec ++ data,
      { b with ivec := (Cbc.decrypt Aesblk (· ^^^ ·) (lib.aes_decrypt a.espkey) k a.ivec q.1).2 }) := by
    rw [hrun', aes, h.receives, if_pos rfl, (drop_room hiv).1, (drop_room hiv).2, hturns _ houtlen, h.espkey]
    dsimp only
    rw [hinv]
  rw [← hivlen] at hiv hroom
  refine ⟨?_, ⟨a.ivec, hiv, ?_⟩, ⟨_, by rw [henc], hciphers _ hvec⟩, ⟨_, by rw [henc, hdec]⟩⟩
  · rw [henc, length_append, length_append, hlen, hiv, hroom]
  · rw [henc, hdec]

/-- **Every cipher** of the table is undone by the other end. -/
theorem deciphered (hlib : lib.Sound) (h : Alike a b) {room data : List UInt8}
    (hroom : room.length = a.espivlen) (hdata : (room ++ data).length % a.espblklen = 0) :
    Deciphered lib a b room data := by
  have hciphers := h.ciphers
  have hsame := h.cipher
  -- the room is a block, so the data is whole blocks too
  have hrest : a.espivlen = a.espblklen → data.length % a.espblklen = 0 := by
    intro heq
    rw [length_append, hroom, heq, Nat.add_mod_left] at hdata
    exact hdata
  rw [Ciphers] at hciphers
  cases hc : a.cipher with
  | nullcipher =>
    rw [hc] at hciphers hsame
    have hnil : room = [] := eq_nil_of_length_eq_zero (hroom.trans hciphers.2)
    have hrun : ∀ p, a.runcipher lib p = (p, a) := fun p => by rw [Espcb.runcipher, hc]
    have hrun' : ∀ p, b.runcipher lib p = (p, b) := fun p => by rw [Espcb.runcipher, hsame]
    refine ⟨by rw [hrun], ⟨[], hciphers.2.symm, by rw [hrun, hrun', hnil]⟩, ⟨a.ivec, by rw [hrun], h.ciphers⟩,
      ⟨b.ivec, by rw [hrun, hrun']⟩⟩
  | descipher =>
    rw [hc] at hciphers hsame
    obtain ⟨hblk, hivlen, hkey, hiv⟩ := hciphers
    refine des_deciphers hlib.des h (fun p => by rw [Espcb.runcipher, hc]) (fun p => by rw [Espcb.runcipher, hsame])
      hkey hiv hivlen (fun ivec hlen => ?_) hroom (hblk ▸ hrest (hivlen.trans hblk.symm))
    rw [Ciphers, hc]
    exact ⟨hblk, hivlen, hkey, hlen⟩
  | des3cipher =>
    rw [hc] at hciphers hsame
    obtain ⟨hblk, hivlen, hkey, hiv⟩ := hciphers
    refine des_deciphers hlib.des3 h (fun p => by rw [Espcb.runcipher, hc]) (fun p => by rw [Espcb.runcipher, hsame])
      hkey hiv hivlen (fun ivec hlen => ?_) hroom (hblk ▸ hrest (hivlen.trans hblk.symm))
    rw [Ciphers, hc]
    exact ⟨hblk, hivlen, hkey, hlen⟩
  | aescbccipher | aesctrcipher =>
    rw [hc] at hciphers hsame
    obtain ⟨hblk, hivlen, hkey, hiv⟩ := hciphers
    refine aes_deciphers hlib h (fun p => by rw [Espcb.runcipher, hc]) (fun p => by rw [Espcb.runcipher, hsame])
      hkey hiv hivlen (fun ivec hlen => ?_) hroom (hblk ▸ hrest (hivlen.trans hblk.symm))
    rw [Ciphers, hc]
    exact ⟨hblk, hivlen, hkey, hlen⟩

/-- What a hash computes, and the state that it leaves, of what it reads. -/
def digest (lib : Libsec D) (auth : Auth) (key : List UInt8) (ds : Option D) (t : List UInt8) :
    List UInt8 × Option D :=
  match auth with
  | .nullauth => ([], ds)
  | .shaauth => (seanq_hmac lib.sha1 t (key.take 16), ds)
  | .md5auth => (seanq_hmac lib.md5 t (key.take 16), ds)
  | .aesahauth => lib.hmac_aes t (key.take 12) ds

theorem hash_digest (c : Espcb D) (t : List UInt8) : c.hash lib t =
    ((digest lib c.auth c.ahstate c.ds t).1, { c with ds := (digest lib c.auth c.ahstate c.ds t).2 }) := by
  obtain ⟨_, _, _, _, _, _, _, _, _, _, _, _, _, _, _, _, _, auth, _⟩ := c
  cases auth <;> rfl

theorem length_digest (hlib : lib.Sound) {auth : Auth} (hauth : auth ≠ .nullauth) (key : List UInt8)
    (ds : Option D) (t : List UInt8) : 12 ≤ (digest lib auth key ds t).1.length := by
  cases auth with
  | nullauth => exact absurd rfl hauth
  | shaauth =>
    rw [digest, seanq_hmac, hlib.sha1_length]
    decide
  | aesahauth =>
    rw [digest, hlib.hmac_aes_length]
    decide
  | md5auth =>
    rw [digest, seanq_hmac, hlib.md5_length]
    decide

theorem runauth_null {c : Espcb D} (h : c.auth = .nullauth) (t auth : List UInt8) :
    c.runauth lib t auth = (true, auth, c) := by
  unfold Espcb.runauth
  split
  next => rfl
  next hne => exact absurd h hne

/-- Only the null algorithm does not hash. -/
theorem runauth_hash {c : Espcb D} (h : c.auth ≠ .nullauth) (t auth : List UInt8) :
    c.runauth lib t auth =
      (auth == (c.hash lib t).1.take c.ahlen, (c.hash lib t).1.take c.ahlen, (c.hash lib t).2) := by
  unfold Espcb.runauth
  split
  next hnull => exact absurd hnull h
  next => rfl

/-- **The authenticator** that the sender puts behind the packet is the one that the receiver expects. -/
theorem authenticated (hlib : lib.Sound) (hauth : b.auth = a.auth) (hkey : b.ahstate = a.ahstate)
    (hds : b.ds = a.ds) (hlen : b.ahlen = a.ahlen) (hdigest : a.ahlen = if a.auth = .nullauth then 0 else 12)
    (t room : List UInt8) (hroom : room.length = a.ahlen) :
    ∃ r mac ds, a.runauth lib t room = (r, mac, { a with ds }) ∧ mac.length = a.ahlen ∧
      b.runauth lib t mac = (true, mac, { b with ds }) := by
  by_cases hnull : a.auth = .nullauth
  · rw [if_pos hnull] at hdigest
    have hnil : room = [] := eq_nil_of_length_eq_zero (hroom.trans hdigest)
    exact ⟨true, room, a.ds, runauth_null hnull t room, hroom, by rw [runauth_null (hauth.trans hnull), ← hds]⟩
  · rw [if_neg hnull] at hdigest
    have hlong := length_digest hlib hnull a.ahstate a.ds t
    let mac := (digest lib a.auth a.ahstate a.ds t).1.take a.ahlen
    refine ⟨room == mac, mac, (digest lib a.auth a.ahstate a.ds t).2, ?_, ?_, ?_⟩
    · rw [runauth_hash hnull, hash_digest]
    · rw [length_take, hdigest]
      exact Nat.min_eq_left hlong
    · rw [runauth_hash (hauth ▸ hnull), hash_digest, hauth, hkey, hds, hlen, beq_self_eq_true]

/-- The next number is in the window, and the window moves up to it. -/
theorem ckwindow_next {seq : UInt32} (hw : b.w = 0) (hw0 : b.w0set = true → b.w0 = seq - 1) :
    b.ckwindow seq = some { b with w0set := true, w0 := seq, w := 0 } := by
  have hstart : (if b.w0set = true then b.w0 else seq - 1) = seq - 1 := by
    split
    next h => exact hw0 h
    next => rfl
  have hδ : seq - (seq - 1) - 1 = 0 := by grind
  have hback : seq - 1 + 1 = seq := by grind
  rw [Espcb.ckwindow, hstart, hδ, hw]
  have hslide : slide 128 (seq - 1) (0 ||| ((1 : UInt64) <<< (63 - (0 : UInt32).toUInt64))) 0 = some (seq, 0) := by
    rw [slide, if_pos (Or.inl (by decide)), slide, if_neg (by decide), hback]
    rfl
  rw [hslide, if_neg (by decide)]
  rfl

end Esp
