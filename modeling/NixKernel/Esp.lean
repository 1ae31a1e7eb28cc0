import NixKernel.Buffer
import NixKernel.Cbc

/-!
# ESP: `ip/esp.c`

A conversation that sends puts what the user writes into an ESP packet: room for the IP and the ESP
header, the vector of the cipher, the data, padding and a trailer, and the authenticator.  One that
receives takes the packet apart again.

A packet is the list of its bytes.  What memory holds that nobody has written is given with the
call.  The ciphers and the hashes of libsec are parameters; a hash is its own state but for
`hmac_aes`, which hands one on.  Statistics and the log are left out.
-/

namespace Esp

open Buffer

inductive Version
  | V4 | V6
deriving Repr, DecidableEq

def Version.iphdrlen : Version → Nat
  | .V4 => 20
  | .V6 => 40

/-- "iphdrlen + esp hdr len" -/
def Version.hdrlen (v : Version) : Nat := v.iphdrlen + 8

def Esptaillen : Nat := 2
def Userhdrlen : Nat := 4
def Desblk : Nat := 8
def Aesblk : Nat := 16
def Hmacblksz : Nat := 64
def IP_VER4 : UInt8 := 0x40
def IP_VER6 : UInt8 := 0x60
def IP_ESPPROTO : UInt8 := 50

def hnputl (v : UInt32) : List UInt8 :=
  [UInt8.ofNat (v.toNat / 2 ^ 24), UInt8.ofNat (v.toNat / 2 ^ 16), UInt8.ofNat (v.toNat / 2 ^ 8),
    UInt8.ofNat v.toNat]

def nhgetl (p : List UInt8) : UInt32 :=
  UInt32.ofNat ((p.getD 0 0).toNat * 2 ^ 24 + (p.getD 1 0).toNat * 2 ^ 16 + (p.getD 2 0).toNat * 2 ^ 8 +
    (p.getD 3 0).toNat)

/-- What libsec is used for; `D` is its `DigestState`.  A cipher is given the key, and in the chain
of DES the vector. -/
structure Libsec (D : Type) where
  aes_encrypt : List UInt8 → List UInt8 → List UInt8
  aes_decrypt : List UInt8 → List UInt8 → List UInt8
  desCBCencrypt : List UInt8 → List UInt8 → List UInt8 → List UInt8 × List UInt8
  desCBCdecrypt : List UInt8 → List UInt8 → List UInt8 → List UInt8 × List UInt8
  des3CBCencrypt : List UInt8 → List UInt8 → List UInt8 → List UInt8 × List UInt8
  des3CBCdecrypt : List UInt8 → List UInt8 → List UInt8 → List UInt8 × List UInt8
  sha1 : List UInt8 → List UInt8
  md5 : List UInt8 → List UInt8
  hmac_aes : List UInt8 → List UInt8 → Option D → List UInt8 × Option D

/-- A chain of DES: whole blocks come back with the vector that they were enciphered from. -/
structure Chained (keylen : Nat) (enc dec : List UInt8 → List UInt8 → List UInt8 → List UInt8 × List UInt8) :
    Prop where
  length : ∀ k iv p, k.length = keylen → iv.length = Desblk → p.length % Desblk = 0 →
    (enc k iv p).1.length = p.length ∧ (enc k iv p).2.length = Desblk
  inverse : ∀ k iv p, k.length = keylen → iv.length = Desblk → p.length % Desblk = 0 →
    (dec k iv (enc k iv p).1).1 = p

/-- What is used of libsec: deciphering is the inverse, and a digest has its length. -/
structure Libsec.Sound {D : Type} (lib : Libsec D) : Prop where
  aes_length : ∀ k b, k.length = Aesblk → b.length = Aesblk → (lib.aes_encrypt k b).length = Aesblk
  aes_inverse : ∀ k b, k.length = Aesblk → b.length = Aesblk → lib.aes_decrypt k (lib.aes_encrypt k b) = b
  des : Chained 8 lib.desCBCencrypt lib.desCBCdecrypt
  des3 : Chained 24 lib.des3CBCencrypt lib.des3CBCdecrypt
  sha1_length : ∀ t, (lib.sha1 t).length = 20
  md5_length : ∀ t, (lib.md5 t).length = 16
  hmac_aes_length : ∀ t k s, (lib.hmac_aes t k s).1.length = 16

inductive Cipher
  | nullcipher | descipher | des3cipher | aescbccipher | aesctrcipher
deriving Repr, DecidableEq

inductive Auth
  | nullauth | shaauth | aesahauth | md5auth
deriving Repr, DecidableEq

structure Espcb (D : Type) where
  incoming : Bool
  header : Bool
  spi : UInt32
  seq : UInt32
  w0set : Bool
  w0 : UInt32
  w : UInt64
  espalg : String
  /-- The key and the vector of `espstate`. -/
  espkey : List UInt8
  ivec : List UInt8
  espivlen : Nat
  espblklen : Nat
  cipher : Cipher
  ahalg : String
  ahstate : List UInt8
  ahlen : Nat
  ahblklen : Nat
  auth : Auth
  ds : Option D

section Model

variable {D : Type} (lib : Libsec D) (ecb : Espcb D)

/-- The loop of `aescbccipher` and of `aesctrcipher`, which is the same; `n` bytes are in place. -/
def aes (p : List UInt8) : List UInt8 × Espcb D :=
  let turns := (p.length - Aesblk + (Aesblk - 1)) / Aesblk
  if ecb.incoming then
    let ivec := p.take Aesblk
    let r := Cbc.decrypt Aesblk (· ^^^ ·) (lib.aes_decrypt ecb.espkey) turns ivec (p.drop Aesblk)
    (p.take Aesblk ++ r.1, { ecb with ivec := r.2 })
  else
    let r := Cbc.encrypt Aesblk (· ^^^ ·) (lib.aes_encrypt ecb.espkey) turns ecb.ivec (p.drop Aesblk)
    (ecb.ivec ++ r.1, { ecb with ivec := r.2 })

/-- `descipher` and `des3cipher`, of the functions that they call. -/
def des (encrypt decrypt : List UInt8 → List UInt8 → List UInt8 → List UInt8 × List UInt8) (p : List UInt8) :
    List UInt8 × Espcb D :=
  if ecb.incoming then
    let r := decrypt ecb.espkey (p.take Desblk) (p.drop Desblk)
    (p.take Desblk ++ r.1, { ecb with ivec := r.2 })
  else
    let r := encrypt ecb.espkey ecb.ivec (p.drop Desblk)
    (ecb.ivec ++ r.1, { ecb with ivec := r.2 })

/-- "ecb->cipher(ecb, p, n)", which is always 1: what it leaves in place of `p`. -/
def Espcb.runcipher (p : List UInt8) : List UInt8 × Espcb D :=
  match ecb.cipher with
  | .nullcipher => (p, ecb)
  | .descipher => des ecb lib.desCBCencrypt lib.desCBCdecrypt p
  | .des3cipher => des ecb lib.des3CBCencrypt lib.des3CBCdecrypt p
  | .aescbccipher => aes lib ecb p
  | .aesctrcipher => aes lib ecb p

/-- "memset(pad, c, Hmacblksz)", with the key added. -/
def hmacpad (c : UInt8) (key : List UInt8) : List UInt8 :=
  List.zipWith (· ^^^ ·) (List.replicate Hmacblksz c) (key ++ List.replicate (Hmacblksz - key.length) 0)

/-- `seanq_hmac_sha1` and `seanq_hmac_md5`, of the hash that they call. -/
def seanq_hmac (hash : List UInt8 → List UInt8) (t key : List UInt8) : List UInt8 :=
  hash (hmacpad 0x5c key ++ hash (hmacpad 0x36 key ++ t))

/-- The hash of `t`, with the state that it leaves. -/
def Espcb.hash (t : List UInt8) : List UInt8 × Espcb D :=
  match ecb.auth with
  | .nullauth => ([], ecb)
  | .shaauth => (seanq_hmac lib.sha1 t (ecb.ahstate.take 16), ecb)
  | .md5auth => (seanq_hmac lib.md5 t (ecb.ahstate.take 16), ecb)
  | .aesahauth =>
    let r := lib.hmac_aes t (ecb.ahstate.take 12) ecb.ds
    (r.1, { ecb with ds := r.2 })

/-- "ecb->auth(ecb, t, tlen, auth)": the result, what it leaves in `auth`, and the state. -/
def Espcb.runauth (t auth : List UInt8) : Bool × List UInt8 × Espcb D :=
  match ecb.auth with
  | .nullauth => (true, auth, ecb)
  | _ =>
    let r := ecb.hash lib t
    (auth == r.1.take ecb.ahlen, r.1.take ecb.ahlen, r.2)

/-- The new IP and ESP header; `src` and `dst` are the addresses as the version has them. -/
def fillhead (v : Version) (src dst : List UInt8) (spi seq : UInt32) (buf : List UInt8) : List UInt8 :=
  match v with
  | .V4 =>
    let buf := write buf 0 [IP_VER4]
    let buf := write (write buf 12 (src.take 4)) 16 (dst.take 4)
    let buf := write buf 9 [IP_ESPPROTO]
    let buf := write buf 6 [0, 0]
    write (write buf 20 (hnputl spi)) 24 (hnputl seq)
  | .V6 =>
    let buf := write buf 0 [IP_VER6]
    let buf := write (write buf 8 (src.take 16)) 24 (dst.take 16)
    let buf := write buf 6 [IP_ESPPROTO]
    write (write buf 40 (hnputl spi)) 44 (hnputl seq)

/-- `n` bytes of memory that `m` holds. -/
def memory (m : Nat → UInt8) (n : Nat) : List UInt8 := (List.range n).map m

/-- The length of the padding of `payload` bytes. -/
def Espcb.pad (payload : Nat) : Nat :=
  let align := if ecb.espblklen > 4 then ecb.espblklen else 4
  (align - 1) - (payload + Esptaillen - 1) % align

/-- `espkick` behind the User header. -/
def Espcb.encap (v : Version) (src dst : List UInt8) (front tail : Nat → UInt8) (nexthdr : UInt8)
    (bp : List UInt8) : List UInt8 × Espcb D :=
  let ulen := bp.length
  let payload := ulen + ecb.espivlen
  let buf := memory front (v.hdrlen + ecb.espivlen) ++ bp
  let pad := ecb.pad payload
  let buf := buf ++ memory tail (pad + Esptaillen + ecb.ahlen)
  let buf := write buf (v.hdrlen + payload + pad) [UInt8.ofNat pad, nexthdr]
  -- encrypt the payload
  let n := payload + pad + Esptaillen
  let r := ecb.runcipher lib (slice buf v.hdrlen n)
  let buf := write buf v.hdrlen r.1
  let ecb := r.2
  let ecb := { ecb with seq := ecb.seq + 1 }
  let buf := fillhead v src dst ecb.spi ecb.seq buf
  -- compute secure hash
  let r := ecb.runauth lib (slice buf v.iphdrlen ((v.hdrlen - v.iphdrlen) + n)) (slice buf (v.hdrlen + n) ecb.ahlen)
  (write buf (v.hdrlen + n) r.2.1, r.2.2)

/-- `espkick`: the packet, if the message is one.  No result is a panic. -/
def Espcb.espkick (v : Version) (src dst : List UInt8) (front tail : Nat → UInt8) (bp : List UInt8) :
    Option (Option (List UInt8) × Espcb D) :=
  if ecb.header ∧ bp.length < Userhdrlen then some (none, ecb)
  else
    let nexthdr := if ecb.header then bp.getD 0 0 else 0
    let bp := if ecb.header then bp.drop Userhdrlen else bp
    let align := if ecb.espblklen > 4 then ecb.espblklen else 4
    if align % ecb.ahblklen ≠ 0 then none
    else
      let r := ecb.encap lib v src dst front tail nexthdr bp
      some (some r.1, r.2)

/-- "while(w->w & 1ull<<63 || δ >= 32 && δ <= 63)" -/
def slide : Nat → UInt32 → UInt64 → UInt32 → Option (UInt32 × UInt64)
  | 0, _, _, _ => none
  | turns + 1, w0, w, δ =>
    if w &&& ((1 : UInt64) <<< 63) ≠ 0 ∨ (δ ≥ 32 ∧ δ ≤ 63) then slide turns (w0 + 1) (w <<< 1) (δ - 1)
    else some (w0, w)

/-- `ckwindow`; nothing is -1. -/
def Espcb.ckwindow (seq : UInt32) : Option (Espcb D) :=
  let w0 := if ecb.w0set then ecb.w0 else seq - 1
  let δ := seq - w0 - 1
  if δ > 63 ∨ ecb.w &&& ((1 : UInt64) <<< (63 - δ.toUInt64)) ≠ 0 then none
  else
    (slide 128 w0 (ecb.w ||| ((1 : UInt64) <<< (63 - δ.toUInt64))) δ).map fun r =>
      { ecb with w0set := true, w0 := r.1, w := r.2 }

/-- What becomes of a packet. -/
inductive Outcome
  | short | noconv | shortblock | badauth | badlength | windowfail | badpad | qfull
  | pass (bp : List UInt8)
deriving Repr, DecidableEq

/-- `espiput` behind the cipher and the window: the trailer, and what goes up. -/
def Espcb.decap (v : Version) (bp : List UInt8) (payload : Int) (full : Bool) : Outcome :=
  let payload := payload - Esptaillen
  let at' := v.hdrlen + payload.toNat
  let pad := bp.getD at' 0
  let nexthdr := bp.getD (at' + 1) 0
  let payload := payload - (pad.toNat + ecb.espivlen)
  if payload ≤ 0 then .badpad
  else
    let data := slice bp (v.hdrlen + ecb.espivlen) payload.toNat
    let data := if ecb.header then [nexthdr, 0, 0, 0] ++ data else data
    if full then .qfull else .pass data

/-- `espiput` from the conversation on. -/
def Espcb.input (v : Version) (seq : UInt32) (bp : List UInt8) (full : Bool) : Outcome × Espcb D :=
  if bp.length < v.hdrlen + ecb.espivlen + Esptaillen + ecb.ahlen then (.shortblock, ecb)
  else
    let auth := bp.length - ecb.ahlen
    let r := ecb.runauth lib (slice bp v.iphdrlen (auth - v.iphdrlen)) (slice bp auth ecb.ahlen)
    let ecb := r.2.2
    if r.1 = false then (.badauth, ecb)
    else
      let bp := write bp auth r.2.1
      let payload : Int := (bp.length : Int) - v.hdrlen - ecb.ahlen
      if payload ≤ 0 ∨ payload % 4 ≠ 0 ∨ payload % ecb.espblklen ≠ 0 then (.badlength, ecb)
      else
        let r := ecb.runcipher lib (slice bp v.hdrlen payload.toNat)
        let bp := write bp v.hdrlen r.1
        match r.2.ckwindow seq with
        | none => (.windowfail, r.2)
        | some ecb => (ecb.decap v bp payload full, ecb)

/-- `pktipvers` -/
def pktipvers (bp : List UInt8) : Version := if bp.getD 0 0 &&& 0xf0 = IP_VER4 then .V4 else .V6

/-- `convlookup` -/
def convlookup (convs : List (Espcb D)) (spi : UInt32) : Option Nat :=
  convs.findIdx? fun c => c.incoming && c.spi == spi

/-- `espiput`; `full` is whether the read queue is. -/
def espiput (convs : List (Espcb D)) (bp : List UInt8) (full : Bool) : Outcome × List (Espcb D) :=
  let v := pktipvers bp
  if bp.length < v.hdrlen + Esptaillen then (.short, convs)
  else
    let spi := nhgetl (slice bp v.iphdrlen 4)
    let seq := nhgetl (slice bp (v.iphdrlen + 4) 4)
    match convlookup convs spi with
    | none => (.noconv, convs)
    | some i =>
      match convs[i]? with
      | none => (.noconv, convs)
      | some c =>
        let r := c.input lib v seq bp full
        (r.1, convs.set i r.2)

end Model

structure Algorithm (D : Type) where
  name : String
  /-- In bits. -/
  keylen : Nat
  init : Espcb D → String → List UInt8 → (Nat → UInt8) → Espcb D

section Setup

variable {D : Type}

def nullespinit (ecb : Espcb D) (name : String) (_ : List UInt8) (_ : Nat → UInt8) : Espcb D :=
  { ecb with espalg := name, espblklen := 1, espivlen := 0, cipher := .nullcipher }

/-- The ciphers' `init`, of block length, key length and function; `rand` is what `nrand` returns. -/
def blockinit (blk keysz : Nat) (cipher : Cipher) (ecb : Espcb D) (name : String) (k : List UInt8)
    (rand : Nat → UInt8) : Espcb D :=
  let n := if k.length > keysz then keysz else k.length
  { ecb with
    espalg := name
    espblklen := blk
    espivlen := blk
    cipher
    espkey := k.take n ++ List.replicate (keysz - n) 0
    ivec := memory rand blk }

def des3espinit : Espcb D → String → List UInt8 → (Nat → UInt8) → Espcb D := blockinit Desblk 24 .des3cipher
def aescbcespinit : Espcb D → String → List UInt8 → (Nat → UInt8) → Espcb D := blockinit Aesblk 16 .aescbccipher
def aesctrespinit : Espcb D → String → List UInt8 → (Nat → UInt8) → Espcb D := blockinit Aesblk 16 .aesctrcipher
def desespinit : Espcb D → String → List UInt8 → (Nat → UInt8) → Espcb D := blockinit Desblk 8 .descipher

def nullahinit (ecb : Espcb D) (name : String) (_ : List UInt8) (_ : Nat → UInt8) : Espcb D :=
  { ecb with ahalg := name, ahblklen := 1, ahlen := 0, auth := .nullauth }

/-- The hashes' `init`, of the function; the authenticator has 96 bits. -/
def hashinit (auth : Auth) (ecb : Espcb D) (name : String) (key : List UInt8) (_ : Nat → UInt8) : Espcb D :=
  { ecb with ahalg := name, ahblklen := 1, ahlen := 12, auth, ahstate := key.take 16 }

def shaahinit : Espcb D → String → List UInt8 → (Nat → UInt8) → Espcb D := hashinit .shaauth
def aesahinit : Espcb D → String → List UInt8 → (Nat → UInt8) → Espcb D := hashinit .aesahauth
def md5ahinit : Espcb D → String → List UInt8 → (Nat → UInt8) → Espcb D := hashinit .md5auth

def espalg : List (Algorithm D) :=
  [⟨"null", 0, nullespinit⟩, ⟨"des3_cbc", 192, des3espinit⟩, ⟨"aes_128_cbc", 128, aescbcespinit⟩,
    ⟨"aes_ctr", 128, aesctrespinit⟩, ⟨"des_56_cbc", 64, desespinit⟩]

def ahalg : List (Algorithm D) :=
  [⟨"null", 0, nullahinit⟩, ⟨"hmac_sha1_96", 128, shaahinit⟩, ⟨"aes_xcbc_mac_96", 128, aesahinit⟩,
    ⟨"hmac_md5_96", 128, md5ahinit⟩]

def hexdigit (c : Char) : Option UInt8 :=
  if '0' ≤ c ∧ c ≤ '9' then some (UInt8.ofNat (c.toNat - '0'.toNat))
  else if 'a' ≤ c ∧ c ≤ 'f' then some (UInt8.ofNat (c.toNat - 'a'.toNat + 10))
  else if 'A' ≤ c ∧ c ≤ 'F' then some (UInt8.ofNat (c.toNat - 'A'.toNat + 10))
  else none

/-- "key[i>>1] |= c<<4*(i&1);" -/
def unhex : List Char → Option (List UInt8)
  | [] => some []
  | [c] => (hexdigit c).map fun d => [d]
  | c :: d :: p => do
      let low ← hexdigit c
      let high ← hexdigit d
      let rest ← unhex p
      return (low ||| high <<< 4) :: rest

/-- `setalg`, of the fields of a control message. -/
def setalg (ecb : Espcb D) (f : List String) (alg : List (Algorithm D)) (rand : Nat → UInt8) :
    Except String (Espcb D) :=
  if f.length ≠ 2 ∧ f.length ≠ 3 then .error "bad format"
  else
    match alg.find? fun a => a.name == f.getD 1 "" with
    | none => .error "unknown algorithm"
    | some a =>
      let nbyte := (a.keylen + 7) / 8
      if nbyte = 0 then .ok (a.init ecb a.name [] rand)
      else if f.length ≠ 3 then .error "bad format"
      else
        let p := (f.getD 2 "").toList
        if p.length ≠ nbyte * 2 then .error "bad keylength"
        else
          match unhex p with
          | none => .error "bad character in key"
          | some key => .ok (a.init ecb a.name key rand)

/-- `espctl` -/
def espctl (ecb : Espcb D) (f : List String) (rand : Nat → UInt8) : Except String (Espcb D) :=
  match f.getD 0 "" with
  | "esp" => setalg ecb f espalg rand
  | "ah" => setalg ecb f ahalg rand
  | "header" => .ok { ecb with header := true }
  | "noheader" => .ok { ecb with header := false }
  | _ => .error "unknown control request"

/-- `espconnect`: null algorithms. -/
def connect (incoming : Bool) (spi : UInt32) : Espcb D :=
  let ecb : Espcb D :=
    ⟨incoming, false, spi, 0, false, 0, 0, "", [], [], 0, 0, .nullcipher, "", [], 0, 0, .nullauth, none⟩
  nullahinit (nullespinit ecb "null" [] fun _ => 0) "null" [] fun _ => 0

/-- The conversation after control requests, each with what `nrand` returns for it; an error
leaves it as it was. -/
def setup (ecb : Espcb D) : List (List String × (Nat → UInt8)) → Espcb D
  | [] => ecb
  | (f, rand) :: reqs =>
    match espctl ecb f rand with
    | .error _ => setup ecb reqs
    | .ok ecb => setup ecb reqs

end Setup

section Ends

variable {D : Type}

/-- What the user writes, and what becomes of the packet on its way. -/
structure Send where
  v : Version
  src : List UInt8
  dst : List UInt8
  /-- The memory in front of the data and behind it. -/
  front : Nat → UInt8
  tail : Nat → UInt8
  bp : List UInt8
  /-- What IP delivers of the packet. -/
  net : List UInt8 → List UInt8
  /-- Whether the reader has let the queue fill. -/
  full : Bool

/-- IP changes its own header only, and not the version in it. -/
structure Send.Carried (x : Send) : Prop where
  length : ∀ p, (x.net p).length = p.length
  version : ∀ p, (x.net p).getD 0 0 &&& 0xf0 = p.getD 0 0 &&& 0xf0
  drop : ∀ p, (x.net p).drop x.v.iphdrlen = p.drop x.v.iphdrlen

/-- One message from the sender to the receivers. -/
def trip (lib : Libsec D) (ecb : Espcb D) (convs : List (Espcb D)) (x : Send) :
    Option (Option Outcome × Espcb D × List (Espcb D)) :=
  (ecb.espkick lib x.v x.src x.dst x.front x.tail x.bp).map fun r =>
    match r.1 with
    | none => (none, r.2, convs)
    | some p =>
      let o := espiput lib convs (x.net p) x.full
      (some o.1, r.2, o.2)

/-- One message after the other. -/
def trips (lib : Libsec D) : Espcb D → List (Espcb D) → List Send → Option (List (Option Outcome))
  | _, _, [] => some []
  | ecb, convs, x :: l =>
    (trip lib ecb convs x).bind fun r => (trips lib r.2.1 r.2.2 l).map fun o => r.1 :: o

/-- What the reader gets of a message: the next header, where it has asked for it, and the data. -/
def Send.expected (x : Send) (header : Bool) : Outcome :=
  if x.full then .qfull
  else if header then .pass ([x.bp.getD 0 0, 0, 0, 0] ++ x.bp.drop Userhdrlen)
  else .pass x.bp

/-- There is data, behind a User header where there has to be one; the addresses have their length. -/
structure Send.Proper (x : Send) (header : Bool) : Prop extends x.Carried where
  data : (if header then Userhdrlen else 0) < x.bp.length
  src : (x.v = .V4 → x.src.length = 4) ∧ (x.v = .V6 → x.src.length = 16)
  dst : (x.v = .V4 → x.dst.length = 4) ∧ (x.v = .V6 → x.dst.length = 16)

end Ends

end Esp
