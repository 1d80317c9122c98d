import BeeC.Net
import BeeC.Wire.Base64
import BeeC.Wire.SecureHash

namespace BeeC

open BeeC.Wire
open BeeC.Wire.Memory
open BeeC.Wire.Loop
open BeeC.Wire.MessagePack
open BeeC.Wire.Encoding

/-- The hash function and the decoder that the client is built with (`sha1.c`, `base64.c`). The
decoder is given the room it may store to. -/
structure Crypt where
  sha1 : Bytes → Bytes
  sha1_length : ∀ data, (sha1 data).length = beerScrambleSize
  base64Decode : Bytes → Nat → Bytes
  base64_length : ∀ data room, (base64Decode data room).length ≤ room

/-- The standard hash function, and the decoder. -/
def builtCrypt : Crypt where
  sha1 := SecureHash.sha1
  sha1_length := SecureHash.sha1_length
  base64Decode text room := (Base64.decode text).take room
  base64_length _ room := List.length_take_le room _

def beerXor (left right : Bytes) : Bytes := List.zipWith (· ^^^ ·) left right

def beerScramblePrepare (crypt : Crypt) (salt pass : Bytes) : Bytes :=
  let hash1 := crypt.sha1 pass
  let hash2 := crypt.sha1 hash1
  let out := crypt.sha1 (salt.take beerScrambleSize ++ hash2)
  beerXor hash1 out

/-- The array `salt[64]`, which is not initialised, after `base64_decode`. -/
def decodeSalt (crypt : Crypt) (garbage : Nat → UInt8) (base64Salt : Bytes) : Bytes :=
  let decoded := crypt.base64Decode (base64Salt.take beerSaltSize) 64
  decoded ++ ((List.range 64).map garbage).drop decoded.length

/-- What a pointer to the array `scramble`, which stands behind `salt[64]`, finds when the block of
both has ended. It need not be what the array held. -/
def endedBlock (garbage : Nat → UInt8) (scramble : Bytes) : Bytes :=
  (List.range scramble.length).map fun i => garbage (64 + i)

/-- `"guest"`. -/
def guestName : Bytes := [0x67, 0x75, 0x65, 0x73, 0x74]

/-- `"chap-sha1"`. -/
def chapSha1 : Bytes := [0x63, 0x68, 0x61, 0x70, 0x2d, 0x73, 0x68, 0x61, 0x31]

/-- As many bytes behind a pointer as a length says. There are none for a negative one. -/
def pointee (data : Bytes) (length : Int) : Except Fault Bytes :=
  if 0 ≤ length ∧ length ≤ data.length then .ok (data.take length.toNat)
  else .error .outOfBounds

/-- The name is absent, or the one of a guest. -/
def isGuest (user : Option Bytes) (ulen : Int32) : Bool :=
  user.isNone || (ulen = 5 && (user.getD []).take 5 = guestName)

section Builder

variable {σ : Type} (mp : Msgpuck) (crypt : Crypt) (garbage : Nat → UInt8)

/-- `beer_auth_raw`. The length of the password is an `int` that `SHA1Update` takes as a
`uint32_t`. The scramble is sent when the block that it is declared in has ended. -/
def beerAuthRaw (s : Stream σ) (user : Option Bytes) (ulen : Int32) (pass : Bytes) (plen : Int32)
    (base64Salt : Bytes) : Except Fault (Ssize × Stream σ) := do
  let guest := isGuest user ulen
  let (user, ulen) := if guest then (guestName, 5) else (user.getD [], ulen)
  let hdr ← encodeHeader mp RequestType.auth.id s.reqid
  let s := { s with reqid := s.reqid + 1 }
  let data ← emit (uninitialised garbage 64) [
    mp.mpEncodeMap 2,
    encodeKey mp .username, mp.mpEncodeStrl ulen.toUInt32]
  let bodyStart := data.pos
  let name ← pointee user ulen.toInt
  if guest then
    let data ← emit data [encodeKey mp .tuple, mp.mpEncodeArray 0]
    sendPackage mp garbage s [hdr.slice 0 hdr.pos, data.slice 0 bodyStart, name,
      data.slice bodyStart data.pos]
  else
    let data ← emit data [
      encodeKey mp .tuple, mp.mpEncodeArray 2,
      mp.mpEncodeStrl (UInt32.ofNat chapSha1.length), chapSha1,
      mp.mpEncodeStrl (UInt32.ofNat beerScrambleSize)]
    let pass ← pointee pass plen.toUInt32.toNat
    let scramble := beerScramblePrepare crypt (decodeSalt crypt garbage base64Salt) pass
    sendPackage mp garbage s [hdr.slice 0 hdr.pos, data.slice 0 bodyStart, name,
      data.slice bodyStart data.pos, endedBlock garbage scramble]

def beerAuth {τ : Type} (s : Stream (Net τ)) (user : Option Bytes) (ulen : Int32) (pass : Bytes)
    (plen : Int32) : Except Fault (Ssize × Stream (Net τ)) :=
  beerAuthRaw mp crypt garbage s user ulen pass plen (s.io.greeting.drop beerVersionSize)

end Builder

/-- The parts of a frame: the length of a payload, and the payload. -/
def framed (v : List Bytes) : List Bytes := lengthPrefix v.flatten.length :: v

/-- The name in the request. -/
def authName (user : Option Bytes) (ulen : Int32) : Bytes :=
  if isGuest user ulen then guestName else (user.getD []).take ulen.toInt.toNat

/-- The proof of the password in the request; there is none for a guest. -/
def authProof (crypt : Crypt) (garbage : Nat → UInt8) (pass : Bytes) (plen : Int32)
    (base64Salt : Bytes) : Bool → List Bytes
  | true => [encodeUint BodyKey.tuple.id.toNat ++ arrayHeader 0]
  | false =>
      [encodeUint BodyKey.tuple.id.toNat ++
          (arrayHeader 2 ++ (strHeader chapSha1.length ++ (chapSha1 ++ strHeader beerScrambleSize))),
        endedBlock garbage (beerScramblePrepare crypt (decodeSalt crypt garbage base64Salt)
          (pass.take plen.toUInt32.toNat))]

/-- The parts of the payload that logs a user in. -/
def authPayload (crypt : Crypt) (garbage : Nat → UInt8) (reqid : UInt64) (user : Option Bytes)
    (ulen : Int32) (pass : Bytes) (plen : Int32) (base64Salt : Bytes) : List Bytes :=
  encodeHeaderMap RequestType.auth.id.toNat reqid.toNat ::
    (mapHeader 2 ++ (encodeUint BodyKey.username.id.toNat ++
      strHeader (authName user ulen).length)) ::
    authName user ulen ::
    authProof crypt garbage pass plen base64Salt (isGuest user ulen)

/-- The parts of the frame that logs a user in. -/
def authParts (crypt : Crypt) (garbage : Nat → UInt8) (reqid : UInt64) (user : Option Bytes)
    (ulen : Int32) (pass : Bytes) (plen : Int32) (base64Salt : Bytes) : List Bytes :=
  framed (authPayload crypt garbage reqid user ulen pass plen base64Salt)

variable {mp : Msgpuck} {crypt : Crypt} {σ : Type}

theorem beerXor_length (left right : Bytes) :
    (beerXor left right).length = min left.length right.length := List.length_zipWith

theorem beerScramblePrepare_length (salt pass : Bytes) :
    (beerScramblePrepare crypt salt pass).length = beerScrambleSize := by
  unfold beerScramblePrepare
  rw [beerXor_length, crypt.sha1_length, crypt.sha1_length, Nat.min_self]

theorem endedBlock_length (garbage : Nat → UInt8) (scramble : Bytes) :
    (endedBlock garbage scramble).length = scramble.length := by
  rw [endedBlock, List.length_map, List.length_range]

theorem pointee_eq_ok {data out : Bytes} {length : Int} (h : pointee data length = .ok out) :
    0 ≤ length ∧ length ≤ data.length ∧ out = data.take length.toNat := by
  unfold pointee at h
  split at h
  · rename_i hbounds
    cases h
    exact ⟨hbounds.1, hbounds.2, rfl⟩
  · cases h

theorem authName_length_lt (user : Option Bytes) (ulen : Int32) :
    (authName user ulen).length < 2 ^ 31 := by
  unfold authName
  split
  · decide
  · have hlt := ulen.toInt_lt
    have hle := List.length_take_le ulen.toInt.toNat (user.getD [])
    omega

theorem authProof_length_le (garbage : Nat → UInt8) (pass : Bytes) (plen : Int32)
    (base64Salt : Bytes) (guest : Bool) :
    (authProof crypt garbage pass plen base64Salt guest).flatten.length ≤ 64 := by
  cases guest with
  | true =>
      have hlength : (encodeUint BodyKey.tuple.id.toNat ++ arrayHeader 0).length = 2 := by decide
      rw [authProof, List.flatten_singleton, hlength]
      omega
  | false =>
      have hshort : (encodeUint BodyKey.tuple.id.toNat ++ (arrayHeader 2 ++
          (strHeader chapSha1.length ++ (chapSha1 ++ strHeader beerScrambleSize)))).length ≤ 44 := by
        decide
      simp only [authProof, List.length_flatten, List.map_cons, List.map_nil, List.sum_cons,
        List.sum_nil, endedBlock_length, beerScramblePrepare_length]
      exact Nat.add_le_add hshort (show beerScrambleSize + 0 ≤ 20 by decide)

theorem authPayload_length_lt (garbage : Nat → UInt8) (reqid : UInt64) (user : Option Bytes)
    (ulen : Int32) (pass : Bytes) (plen : Int32) (base64Salt : Bytes) :
    (authPayload crypt garbage reqid user ulen pass plen base64Salt).flatten.length < 2 ^ 64 := by
  have hlead := encodeHeaderMap_length_le (show RequestType.auth.id.toNat < 0x80 by decide)
    reqid.toNat
  have hname := authName_length_lt user ulen
  have hstrl := strHeader_length_le (authName user ulen).length
  have hproof := @authProof_length_le crypt garbage pass plen base64Salt (isGuest user ulen)
  have hkey : (mapHeader 2 ++ encodeUint BodyKey.username.id.toNat).length = 2 := by decide
  simp only [List.length_append] at hkey
  simp only [authPayload, List.flatten_cons, List.length_append]
  omega

/-- What a request that logs a user in reads of what it is given: nothing for a guest. -/
def authReads (user : Option Bytes) (ulen : Int32) (pass : Bytes) (plen : Int32) :
    Except Fault Unit := do
  if isGuest user ulen then return
  let _ ← pointee (user.getD []) ulen.toInt
  let _ ← pointee pass plen.toUInt32.toNat

theorem beerAuthRaw_eq (hmp : mp.Lawful) (garbage : Nat → UInt8) (s : Stream σ)
    (user : Option Bytes) (ulen : Int32) (pass : Bytes) (plen : Int32) (base64Salt : Bytes) :
    beerAuthRaw mp crypt garbage s user ulen pass plen base64Salt =
      (authReads user ulen pass plen).map fun _ => { s with reqid := s.reqid + 1 }.send
        (authParts crypt garbage s.reqid user ulen pass plen base64Salt) := by
  have hauth : RequestType.auth.id.toNat < 0x80 := by decide
  obtain ⟨hdr, hheader, hhdr⟩ := encodeHeader_ok hmp hauth s.reqid
  have hlead := encodeHeaderMap_length_le hauth s.reqid.toNat
  have hlength := @authPayload_length_lt crypt garbage s.reqid user ulen pass plen base64Salt
  unfold authReads
  cases hguest : isGuest user ulen with
  | true =>
      obtain ⟨data, data', hemit, hemit', hfirst, hsecond⟩ := @emit_two garbage 64
        [mp.mpEncodeMap 2, encodeKey mp .username, mp.mpEncodeStrl (5 : Int32).toUInt32]
        [encodeKey mp .tuple, mp.mpEncodeArray 0]
        (by simp [hmp.encodeMap_eq, encodeKey_length hmp, hmp.encodeStrl_eq, hmp.encodeArray_eq]
            decide)
      have hname : pointee guestName (5 : Int32).toInt = .ok guestName := rfl
      have hparts : [encodeHeaderMap RequestType.auth.id.toNat s.reqid.toNat,
          [mp.mpEncodeMap 2, encodeKey mp .username, mp.mpEncodeStrl (5 : Int32).toUInt32].flatten,
          guestName, [encodeKey mp .tuple, mp.mpEncodeArray 0].flatten] =
          authPayload crypt garbage s.reqid user ulen pass plen base64Salt := by
        simp only [List.flatten_cons, List.flatten_nil, List.append_nil, hmp.encodeMap_eq,
          encodeKey_eq hmp, hmp.encodeStrl_eq, hmp.encodeArray_eq, authPayload, authName,
          authProof, hguest, if_true]
        rfl
      simp only [beerAuthRaw, hguest, if_true, hheader, hemit, hemit', hname, ok_bind,
        hhdr.slice_pos, hfirst, hsecond]
      rw [hparts, sendPackage_ok hmp _ _ hlength]
      rfl
  | false =>
      have hstrl := strHeader_length_le ulen.toUInt32.toNat
      have hfixed : (mapHeader 2).length + ((arrayHeader 2).length +
          ((strHeader (chapSha1.length % 4294967296)).length + (chapSha1.length +
            (strHeader (beerScrambleSize % 4294967296)).length))) = 13 := by decide
      obtain ⟨data, data', hemit, hemit', hfirst, hsecond⟩ := @emit_two garbage 64
        [mp.mpEncodeMap 2, encodeKey mp .username, mp.mpEncodeStrl ulen.toUInt32]
        [encodeKey mp .tuple, mp.mpEncodeArray 2,
          mp.mpEncodeStrl (UInt32.ofNat chapSha1.length), chapSha1,
          mp.mpEncodeStrl (UInt32.ofNat beerScrambleSize)]
        (by simp [hmp.encodeMap_eq, encodeKey_length hmp, hmp.encodeStrl_eq, hmp.encodeArray_eq]
            omega)
      simp only [beerAuthRaw, hguest, hheader, hemit, hemit', ok_bind, Bool.false_eq_true, if_false,
        hhdr.slice_pos, hfirst, hsecond]
      cases hname : pointee (user.getD []) ulen.toInt with
      | error reason => rfl
      | ok name =>
          cases hpass : pointee pass plen.toUInt32.toNat with
          | error reason => rfl
          | ok bytes =>
              obtain ⟨hpos, hle, rfl⟩ := pointee_eq_ok hname
              obtain ⟨-, -, rfl⟩ := pointee_eq_ok hpass
              have htake : ((user.getD []).take ulen.toInt.toNat).length =
                  ulen.toUInt32.toNat := by
                rw [List.length_take, Int32.toNat_toUInt32_of_le (Int32.le_iff_toInt_le.mpr hpos)]
                exact Nat.min_eq_left (Int.toNat_le.mpr hle)
              have hparts : [encodeHeaderMap RequestType.auth.id.toNat s.reqid.toNat,
                  [mp.mpEncodeMap 2, encodeKey mp .username,
                    mp.mpEncodeStrl ulen.toUInt32].flatten,
                  (user.getD []).take ulen.toInt.toNat,
                  [encodeKey mp .tuple, mp.mpEncodeArray 2,
                    mp.mpEncodeStrl (UInt32.ofNat chapSha1.length), chapSha1,
                    mp.mpEncodeStrl (UInt32.ofNat beerScrambleSize)].flatten,
                  endedBlock garbage (beerScramblePrepare crypt
                    (decodeSalt crypt garbage base64Salt) (pass.take plen.toUInt32.toNat))] =
                  authPayload crypt garbage s.reqid user ulen pass plen base64Salt := by
                simp only [List.flatten_cons, List.flatten_nil, List.append_nil, hmp.encodeMap_eq,
                  encodeKey_eq hmp, hmp.encodeStrl_eq, hmp.encodeArray_eq, authPayload, authName,
                  authProof, hguest, Bool.false_eq_true, if_false, htake]
                rfl
              simp only [ok_bind]
              rw [Int.toNat_natCast, hparts, sendPackage_ok hmp _ _ hlength]
              rfl

theorem beerAuthRaw_eq_ok (hmp : mp.Lawful) {garbage : Nat → UInt8} {s : Stream σ}
    {user : Option Bytes} {ulen : Int32} {pass : Bytes} {plen : Int32} {base64Salt : Bytes}
    {out : Ssize × Stream σ}
    (h : beerAuthRaw mp crypt garbage s user ulen pass plen base64Salt = .ok out) :
    out = { s with reqid := s.reqid + 1 }.send
      (authParts crypt garbage s.reqid user ulen pass plen base64Salt) := by
  rw [beerAuthRaw_eq hmp] at h
  cases hreads : authReads user ulen pass plen with
  | error reason =>
      rw [hreads] at h
      cases h
  | ok reads =>
      rw [hreads] at h
      cases h
      rfl

end BeeC
