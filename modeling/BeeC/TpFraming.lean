import BeeC.ReplyReading
import BeeC.Tp

namespace BeeC

open BeeC.Wire
open BeeC.Wire.BigEndian
open BeeC.Wire.Encoding
open BeeC.Wire.Loop
open BeeC.Wire.MessagePack

variable {τ : Type}

/-- The reserve function gives a block that keeps the bytes in use and has the room that is asked
for. No block is larger than a difference of pointers can be. -/
def KeepsBytes (reserve : Option (TpReserve τ)) : Prop :=
  ∀ f ∈ reserve, ∀ (t : Tp τ) (required np : Nat) (mem : Bytes) (obj : τ),
    f t required = (some (np, mem), obj) →
      t.used <+: mem ∧ t.used.length + required ≤ mem.length ∧ mem.length < 2 ^ 63

/-- The buffer starts with the bytes in use, and the pointers to the two fields are at their
offsets. -/
structure Tp.Holds (t : Tp τ) (used : Bytes) (size sync : Option Nat) : Prop where
  mem_eq : ∃ room, t.mem = used ++ room
  p_eq : t.p = t.s + used.length
  e_eq : t.e = t.s + t.mem.length
  size_eq : t.size = size.map (t.s + ·)
  sync_eq : t.sync = sync.map (t.s + ·)
  length_lt : t.mem.length < 2 ^ 63

namespace Tp

theorem holds_tpInit (s : Nat) {buf : Bytes} (hbuf : buf.length < 2 ^ 63) (obj : τ) :
    (tpInit s buf obj).Holds [] none none :=
  ⟨⟨buf, rfl⟩, rfl, rfl, rfl, rfl, hbuf⟩

theorem Holds.used_eq {t : Tp τ} {used : Bytes} {size sync : Option Nat}
    (h : t.Holds used size sync) : t.used = used := by
  obtain ⟨room, hmem⟩ := h.mem_eq
  rw [Tp.used, h.p_eq, Nat.add_sub_cancel_left, hmem, List.take_left]

theorem map_rebase (np s : Nat) (offset : Option Nat) :
    (offset.map (s + ·)).map (fun ptr => np + (ptr - s)) = offset.map (np + ·) := by
  cases offset <;> simp

theorem Holds.move {t : Tp τ} {used : Bytes} {size sync : Option Nat}
    (h : t.Holds used size sync) {mem room : Bytes} (hmem : mem = used ++ room)
    (hlength : mem.length < 2 ^ 63) (np : Nat) (obj : τ) :
    Holds { t with
      size := t.size.map fun size => np + (size - t.s)
      sync := t.sync.map fun sync => np + (sync - t.s)
      p := np + (t.p - t.s)
      s := np
      e := np + mem.length
      mem
      obj } used size sync := by
  refine ⟨⟨room, hmem⟩, ?_, rfl, ?_, ?_, hlength⟩
  · rw [h.p_eq, Nat.add_sub_cancel_left]
  · dsimp only
    rw [h.size_eq, map_rebase]
  · dsimp only
    rw [h.sync_eq, map_rebase]

/-- Wherever the buffer goes, it holds the same. After success there is the room. -/
theorem Holds.tpEnsure {reserve : Option (TpReserve τ)} (hreserve : KeepsBytes reserve) {t : Tp τ}
    {used : Bytes} {size sync : Option Nat} (h : t.Holds used size sync) (required : Nat) :
    (t.tpEnsure reserve required).2.Holds used size sync ∧
      ((t.tpEnsure reserve required).1 ≠ -1 →
        required ≤ (t.tpEnsure reserve required).2.mem.length - used.length) := by
  have hroom : t.e - t.p = t.mem.length - used.length := by
    rw [h.e_eq, h.p_eq, Nat.add_sub_add_left]
  unfold Tp.tpEnsure
  split
  · exact ⟨h, fun _ => by rwa [← hroom]⟩
  · split
    · exact ⟨h, fun hrc => absurd rfl hrc⟩
    · rename_i f
      rcases hf : f t required with ⟨_ | ⟨np, mem⟩, obj⟩
      · exact ⟨⟨h.mem_eq, h.p_eq, h.e_eq, h.size_eq, h.sync_eq, h.length_lt⟩,
          fun hrc => absurd rfl hrc⟩
      · obtain ⟨⟨room, hkept⟩, hlength, hlt⟩ := hreserve f rfl t required np mem obj hf
        rw [h.used_eq] at hkept hlength
        refine ⟨h.move hkept.symm hlt np obj, fun _ => ?_⟩
        dsimp only
        omega

theorem store_eq {t : Tp τ} {before old bytes after : Bytes}
    (hmem : t.mem = before ++ (old ++ after)) (hold : old.length = bytes.length) :
    t.store (t.s + before.length) bytes = .ok { t with mem := before ++ (bytes ++ after) } := by
  rw [store, if_neg (by omega), Nat.add_sub_cancel_left, hmem, Memory.poke_append hold]

theorem encode_eq {t : Tp τ} {before room : Bytes} {parts : List Bytes}
    (hmem : t.mem = before ++ room) (hroom : parts.flatten.length ≤ room.length) :
    t.encode (t.s + before.length) parts =
      .ok (t.s + (before ++ parts.flatten).length,
        { t with mem := before ++ (parts.flatten ++ room.drop parts.flatten.length) }) := by
  induction parts generalizing t before room with
  | nil =>
      rw [encode, List.flatten_nil, List.append_nil, List.length_nil, List.drop_zero,
        List.nil_append, ← hmem]
  | cons part parts ih =>
      rw [List.flatten_cons, List.length_append] at hroom
      have hfirst : (room.take part.length).length = part.length := by
        rw [List.length_take]
        omega
      have hstore := @store_eq _ t before (room.take part.length) part (room.drop part.length)
        (by rw [hmem, List.take_append_drop]) hfirst
      have hnext : t.s + before.length + part.length = t.s + (before ++ part).length := by
        rw [List.length_append, Nat.add_assoc]
      have hrest := @ih { t with mem := before ++ (part ++ room.drop part.length) }
        (before ++ part) (room.drop part.length) (by rw [List.append_assoc])
        (by rw [List.length_drop]; omega)
      rw [encode, hstore, ok_bind, hnext]
      refine hrest.trans ?_
      simp only [List.flatten_cons, List.append_assoc, List.drop_drop, List.length_append]

theorem Holds.replace {t : Tp τ} {used used' after : Bytes} {size sync : Option Nat}
    (h : t.Holds used size sync) (hlength : (used' ++ after).length = t.mem.length) :
    Holds { t with p := t.s + used'.length, mem := used' ++ after } used' size sync := by
  refine ⟨⟨after, rfl⟩, rfl, ?_, h.size_eq, h.sync_eq, ?_⟩
  · dsimp only
    rw [hlength, h.e_eq]
  · dsimp only
    rw [hlength]
    exact h.length_lt

theorem storeUint32_eq {t : Tp τ} {before old after : Bytes}
    (hmem : t.mem = before ++ (old ++ after)) (hold : old.length = 5) (n : UInt32) :
    t.storeUint32 (t.s + before.length) n =
      .ok { t with mem := before ++ ((0xce :: BigEndian.store 4 n.toNat) ++ after) } := by
  obtain ⟨first, rest, rfl⟩ := List.exists_cons_of_length_eq_add_one hold
  have hrest : rest.length = (BigEndian.store 4 n.toNat).length := by
    rw [store_length]
    simpa using hold
  have hfirst := @store_eq _ t before [first] [0xce] (rest ++ after) (by rw [hmem]; rfl) rfl
  have hsecond := @store_eq _ { t with mem := before ++ ([0xce] ++ (rest ++ after)) }
    (before ++ [0xce]) rest (BigEndian.store 4 n.toNat) after (by simp) hrest
  rw [storeUint32, hfirst, ok_bind]
  refine Eq.trans ?_ (hsecond.trans ?_)
  · rw [List.length_append, Nat.add_assoc]
    rfl
  · simp

theorem tpAdd_stamp {t : Tp τ} {before field after : Bytes} (size : Nat)
    (hmem : t.mem = before ++ (field ++ after)) (hfield : field.length = 5)
    (hsize : t.size = some (t.s + before.length)) :
    t.tpAdd size = .ok (some t.p, { t with
      p := t.p + size
      mem := before ++ ((0xce :: BigEndian.store 4
        (UInt32.ofNat (t.p + size - (t.s + before.length) - 5)).toNat) ++ after) }) := by
  have hlong := @storeUint32_eq _ { t with p := t.p + size } before field after hmem hfield
    (UInt32.ofNat (t.p + size - (t.s + before.length) - 5))
  simp only [hsize] at hlong
  simp only [tpAdd, hsize, hlong, ok_bind, pure_eq]

theorem tpAdd_eq {t : Tp τ} {done field payload room : Bytes} {size : Nat}
    (hmem : t.mem = done ++ (field ++ (payload ++ room))) (hfield : field.length = 5)
    (hsize : t.size = some (t.s + done.length))
    (hp : t.p + size = t.s + (done ++ frame payload).length) (hlength : payload.length < 2 ^ 32) :
    t.tpAdd size = .ok (some t.p, { t with
      p := t.s + (done ++ frame payload).length
      mem := (done ++ frame payload) ++ room }) := by
  have hcount : t.s + (done ++ frame payload).length - (t.s + done.length) - 5 =
      payload.length := by
    rw [List.length_append, frame, List.length_append, List.length_cons, store_length]
    omega
  have hframe : (done ++ frame payload) ++ room =
      done ++ ((0xce :: BigEndian.store 4 payload.length) ++ (payload ++ room)) := by
    rw [frame, List.append_assoc, List.append_assoc]
  rw [tpAdd_stamp size hmem hfield hsize, hp, hcount, UInt32.toNat_ofNat_of_lt' hlength, hframe]

end Tp

/-- The bytes that every request of the type starts with, up to the number of the request. -/
def tpHeader (type : TpRequestType) : Bytes :=
  mapHeader 2 ++ (encodeUint TpHeaderKey.code.id.toNat ++ (encodeUint type.id.toNat ++
    encodeUint TpHeaderKey.sync.id.toNat))

/-- What follows the length field of a request. -/
def tpPayload (type : TpRequestType) (sync : UInt32) (body : Bytes) : Bytes :=
  tpHeader type ++ ((0xce :: store 4 sync.toNat) ++ body)

theorem length_tpPayload (type : TpRequestType) (sync : UInt32) (body : Bytes) :
    (tpPayload type sync body).length = (tpHeader type).length + 5 + body.length := by
  simp only [tpPayload, List.length_append, List.length_cons, store_length]
  omega

theorem tpPayload_append (type : TpRequestType) (sync : UInt32) (body bytes : Bytes) :
    tpPayload type sync body ++ bytes = tpPayload type sync (body ++ bytes) := by
  simp only [tpPayload, List.append_assoc]

/-- The last frame of the buffer is that of the current request. -/
structure Tp.Building (t : Tp τ) (done : Bytes) (type : TpRequestType) (sync : UInt32)
    (body : Bytes) : Prop where
  holds : t.Holds (done ++ frame (tpPayload type sync body)) (some done.length)
    (some (done.length + 5 + (tpHeader type).length))

theorem sizeOfInt_eq_iff {n m : Nat} (hm : m < 2 ^ 63) :
    sizeOfInt (UInt32.ofNat n) = m ↔ n % 2 ^ 32 = m ∧ m < 2 ^ 31 := by
  have htoNat : (UInt32.ofNat n).toNat = n % 2 ^ 32 := UInt32.toNat_ofNat'
  have hlimit : (0x80000000 : UInt32).toNat = 2 ^ 31 := rfl
  simp only [sizeOfInt, UInt32.lt_iff_toNat_lt, htoNat, hlimit]
  split
  · omega
  · omega

theorem sizeOfInt_eq {n : Nat} (hn : n < 2 ^ 32) (hsize : sizeOfInt (UInt32.ofNat n) < 2 ^ 63) :
    sizeOfInt (UInt32.ofNat n) = n := by
  rw [← ((sizeOfInt_eq_iff hsize).mp rfl).1, Nat.mod_eq_of_lt hn]

theorem sizeOfInt_of_lt {n : Nat} (h : n < 2 ^ 31) : sizeOfInt (UInt32.ofNat n) = n :=
  (sizeOfInt_eq_iff (by omega)).mpr ⟨Nat.mod_eq_of_lt (by omega), h⟩

def TpStart.type : TpStart → TpRequestType
  | ping => .ping
  | select .. => .select
  | insert _ => .insert
  | replace _ => .replace
  | update _ => .update
  | call .. => .call
  | eval .. => .eval

/-- What a request starts with behind its header. -/
def TpStart.body : TpStart → Bytes
  | ping => mapHeader 0
  | select space index offset iterator limit =>
      [mapHeader 6, encodeUint TpBodyKey.space.id.toNat, encodeUint space.toNat,
        encodeUint TpBodyKey.index.id.toNat, encodeUint index.toNat,
        encodeUint TpBodyKey.offset.id.toNat, encodeUint offset.toNat,
        encodeUint TpBodyKey.limit.id.toNat, encodeUint limit.toNat,
        encodeUint TpBodyKey.iterator.id.toNat, encodeUint iterator.id.toNat,
        encodeUint TpBodyKey.key.id.toNat].flatten
  | insert space | replace space =>
      [mapHeader 2, encodeUint TpBodyKey.space.id.toNat, encodeUint space.toNat,
        encodeUint TpBodyKey.tuple.id.toNat].flatten
  | update space =>
      [mapHeader 3, encodeUint TpBodyKey.space.id.toNat, encodeUint space.toNat,
        encodeUint TpBodyKey.key.id.toNat].flatten
  | call function _ =>
      [mapHeader 2, encodeUint TpBodyKey.function.id.toNat, strHeader function.bytes.length,
        function.bytes, encodeUint TpBodyKey.tuple.id.toNat].flatten
  | eval expr _ =>
      [mapHeader 2, encodeUint TpBodyKey.expression.id.toNat, strHeader expr.bytes.length,
        expr.bytes, encodeUint TpBodyKey.tuple.id.toNat].flatten

/-- What a call adds to the current request. -/
def TpCall.bytes : TpCall → Bytes
  | encodeNil => Encoding.encodeNil
  | encodeUint num => Encoding.encodeUint num.toNat
  | encodeInt num _ => Encoding.encodeInt num.toInt
  | encodeStr str => strHeader str.bytes.length ++ str.bytes
  | encodeBin str => binHeader str.bytes.length ++ str.bytes
  | encodeArray size => arrayHeader size.toNat
  | encodeMap size => mapHeader size.toNat
  | encodeBool val => Encoding.encodeBool val
  | encodeFloat bits => Encoding.encodeFloat bits.toNat
  | encodeDouble bits => Encoding.encodeDouble bits.toNat
  | updatebegin opCount => Encoding.encodeUint TpBodyKey.tuple.id.toNat ++ arrayHeader opCount.toNat
  | op code fieldNo =>
      [arrayHeader 3, strHeader 1, [code], Encoding.encodeUint fieldNo.toNat].flatten
  | reqid _ => []

/-- The last number that the calls give, or else the one that there is. -/
def lastReqid (sync : UInt32) : List TpCall → UInt32
  | [] => sync
  | .reqid id :: calls => lastReqid id calls
  | _ :: calls => lastReqid sync calls

theorem lastReqid_cons (sync : UInt32) (call : TpCall) (calls : List TpCall) :
    lastReqid sync (call :: calls) = lastReqid (lastReqid sync [call]) calls := by
  cases call <;> rfl

/-- The frame of a request: its length, its number, and its body. -/
def TpRequest.frame (r : TpRequest) : Bytes :=
  BeeC.frame (tpPayload r.start.type (lastReqid 0 r.calls)
    (r.start.body ++ (r.calls.map TpCall.bytes).flatten))

section Requests

variable {mp : Msgpuck} {sz : MsgpuckSizes} {reserve : Option (TpReserve τ)} (hmp : mp.Lawful)
  (hsz : sz.Lawful) (hreserve : KeepsBytes reserve)

include hmp hsz in
theorem tpiSizeofHeader_eq (type : TpRequestType) :
    Tp.tpiSizeofHeader mp sz type.id = UInt32.ofNat (10 + (tpHeader type).length) := by
  have hfive : (5 : UInt32) = UInt32.ofNat 5 := rfl
  simp only [Tp.tpiSizeofHeader, mpSizeofMap, hmp.sizeofMap_eq, hsz.uint_eq, hfive,
    ← UInt32.ofNat_add, tpHeader, List.length_append, UInt32.toNat_toUInt64]
  congr 1
  simp only [UInt32.reduceToNat]
  omega

include hreserve in
/-- What a call does once it has room: it returns `NULL` before, or it goes on in a buffer that
holds the same and has the room. -/
theorem Tp.Holds.withRoom {t : Tp τ} {used : Bytes} {size sync : Option Nat}
    (h : t.Holds used size sync) {n : Nat} (hn : n < 2 ^ 32)
    {next : Tp τ → Except Fault (Option Nat × Tp τ)} {P : Tp τ → Prop}
    (hnext : ∀ t' room, t'.Holds used size sync → t'.mem = used ++ room → n ≤ room.length →
      sizeOfInt (UInt32.ofNat n) = n → ∃ ptr t'', next t' = .ok (some ptr, t'') ∧ P t'') :
    ∃ result, Tp.accepted <$> t.withRoom reserve (sizeOfInt (UInt32.ofNat n)) next = .ok result ∧
      ∀ t', result = some t' → P t' := by
  have hensure := h.tpEnsure hreserve (sizeOfInt (UInt32.ofNat n))
  unfold Tp.withRoom
  rcases hmade : t.tpEnsure reserve (sizeOfInt (UInt32.ofNat n)) with ⟨rc, t'⟩
  rw [hmade] at hensure
  obtain ⟨hholds, hroom⟩ := hensure
  dsimp only at hholds hroom
  by_cases hrc : rc = -1
  · exact ⟨none, by simp only [if_pos hrc]; rfl, fun _ h => nomatch h⟩
  · obtain ⟨room, hmem⟩ := hholds.mem_eq
    have hlength := hroom hrc
    have hlt := hholds.length_lt
    have hsize := sizeOfInt_eq hn (by omega)
    rw [hsize, hmem, List.length_append, Nat.add_sub_cancel_left] at hlength
    obtain ⟨ptr, t'', hrun, hP⟩ := hnext t' room hholds hmem hlength hsize
    refine ⟨some t'', by simp only [if_neg hrc, hrun]; rfl, fun _ h => ?_⟩
    cases h
    exact hP

include hreserve in
theorem Tp.Building.tpAppend {t : Tp τ} {done body bytes : Bytes} {type : TpRequestType}
    {sync : UInt32} (h : t.Building done type sync body) {size : UInt32} {parts : List Bytes}
    (hparts : parts.flatten = bytes) (hsize : size = UInt32.ofNat bytes.length)
    (hsmall : (frame (tpPayload type sync (body ++ bytes))).length < 2 ^ 32) :
    ∃ result, Tp.accepted <$> t.tpAppend reserve size parts = .ok result ∧
      ∀ t', result = some t' → t'.Building done type sync (body ++ bytes) := by
  rw [length_frame, ← tpPayload_append, List.length_append] at hsmall
  subst hsize
  refine h.holds.withRoom hreserve (by omega : bytes.length < 2 ^ 32) ?_
  intro t' room hholds hmem hroom hsize
  have hencode := Tp.encode_eq hmem (by rw [hparts]; exact hroom : parts.flatten.length ≤ _)
  rw [hparts, ← hholds.p_eq] at hencode
  have hmem' : (done ++ frame (tpPayload type sync body)) ++ (bytes ++ room.drop bytes.length) =
      done ++ ((0xce :: BigEndian.store 4 (tpPayload type sync body).length) ++
        (tpPayload type sync (body ++ bytes) ++ room.drop bytes.length)) := by
    simp only [frame, ← tpPayload_append, List.append_assoc]
  have hstop : t'.p + bytes.length =
      t'.s + (done ++ frame (tpPayload type sync (body ++ bytes))).length := by
    rw [hholds.p_eq, ← tpPayload_append]
    simp only [List.length_append, length_frame]
    omega
  have hadd := @Tp.tpAdd_eq _ { t' with
      mem := (done ++ frame (tpPayload type sync body)) ++ (bytes ++ room.drop bytes.length) }
    done _ _ _ bytes.length hmem' (by simp) hholds.size_eq hstop
    (by rw [← tpPayload_append, List.length_append]; omega)
  refine ⟨t'.p, _, ?_, ⟨@Tp.Holds.replace _ _ _ _ (room.drop bytes.length) _ _ hholds ?_⟩⟩
  · rw [hencode, ok_bind, hsize]
    exact hadd
  · rw [hmem, ← tpPayload_append]
    simp only [List.length_append, length_frame, List.length_drop]
    omega

include hmp in
theorem tpHeader_parts {type : TpRequestType} :
    [mp.mpEncodeMap 2, mp.mpEncodeUint TpHeaderKey.code.id, mp.mpEncodeUint type.id.toUInt64,
      mp.mpEncodeUint TpHeaderKey.sync.id].flatten = tpHeader type := by
  simp [hmp.encodeMap_eq, hmp.encodeUint_eq, tpHeader]

include hmp in
theorem Tp.tpiEncodeHeader_eq {t : Tp τ} {done gap room : Bytes} {type : TpRequestType}
    (hp : t.p = t.s + done.length) (hmem : t.mem = done ++ (gap ++ room)) (hgap : gap.length = 5)
    (hroom : (tpHeader type).length + 5 ≤ room.length) :
    t.tpiEncodeHeader mp type.id =
      .ok (t.s + (done ++ (gap ++ (tpHeader type ++ (0xce :: BigEndian.store 4 0)))).length,
        { t with
          size := some (t.s + done.length)
          sync := some (t.s + (done.length + 5 + (tpHeader type).length))
          mem := (done ++ (gap ++ (tpHeader type ++ (0xce :: BigEndian.store 4 0)))) ++
            room.drop ((tpHeader type).length + 5) }) := by
  have hparts := @tpHeader_parts mp hmp type
  have hstart : t.s + done.length + 5 = t.s + (done ++ gap).length := by
    rw [List.length_append, hgap, Nat.add_assoc]
  have hencode := @Tp.encode_eq _ { t with size := some (t.s + done.length) } (done ++ gap) room
    [mp.mpEncodeMap 2, mp.mpEncodeUint TpHeaderKey.code.id, mp.mpEncodeUint type.id.toUInt64,
      mp.mpEncodeUint TpHeaderKey.sync.id] (by rw [hmem, List.append_assoc])
    (by rw [hparts]; omega)
  rw [hparts] at hencode
  have hold : ((room.drop (tpHeader type).length).take 5).length = 5 := by
    rw [List.length_take, List.length_drop]
    omega
  have hstamp := @Tp.storeUint32_eq _ { t with
      size := some (t.s + done.length)
      sync := some (t.s + ((done ++ gap) ++ tpHeader type).length)
      mem := (done ++ gap) ++ (tpHeader type ++ room.drop (tpHeader type).length) }
    ((done ++ gap) ++ tpHeader type) _ (room.drop ((tpHeader type).length + 5))
    (by rw [← List.drop_drop, List.take_append_drop, List.append_assoc (done ++ gap)]) hold 0
  have hsync : t.s + ((done ++ gap) ++ tpHeader type).length =
      t.s + (done.length + 5 + (tpHeader type).length) := by
    rw [List.length_append, List.length_append, hgap]
  have hstop : t.s + ((done ++ gap) ++ tpHeader type).length + 5 =
      t.s + (done ++ (gap ++ (tpHeader type ++ (0xce :: BigEndian.store 4 0)))).length := by
    simp only [List.length_append, List.length_cons, store_length]
    omega
  have hmem' : ((done ++ gap) ++ tpHeader type) ++ ((0xce :: BigEndian.store 4 0) ++
      room.drop ((tpHeader type).length + 5)) =
        (done ++ (gap ++ (tpHeader type ++ (0xce :: BigEndian.store 4 0)))) ++
          room.drop ((tpHeader type).length + 5) := by
    simp only [List.append_assoc]
  simp only [hp] at hencode hstamp
  simp only [Tp.tpiEncodeHeader, hp, hstart, hencode, ok_bind]
  rw [hstamp, ok_bind, hstop, pure_eq]
  simp only [UInt32.toNat_zero, hmem', hsync]

include hmp hsz hreserve in
theorem Tp.Holds.tpRequest {t : Tp τ} {done bytes : Bytes} {fieldSize fieldSync : Option Nat}
    (h : t.Holds done fieldSize fieldSync) {type : TpRequestType} {size : UInt32}
    {body : List Bytes} (hbody : body.flatten = bytes) (hsize : size = UInt32.ofNat bytes.length)
    (hsmall : (frame (tpPayload type 0 bytes)).length < 2 ^ 32) :
    ∃ result, Tp.accepted <$> t.tpRequest reserve mp sz type size body = .ok result ∧
      ∀ t', result = some t' → t'.Building done type 0 bytes := by
  rw [length_frame, length_tpPayload] at hsmall
  have htotal : size + Tp.tpiSizeofHeader mp sz type.id =
      UInt32.ofNat (frame (tpPayload type 0 bytes)).length := by
    rw [hsize, tpiSizeofHeader_eq hmp hsz, ← UInt32.ofNat_add, length_frame, length_tpPayload]
    congr 1
    omega
  unfold Tp.tpRequest
  rw [htotal]
  refine h.withRoom hreserve (by rw [length_frame, length_tpPayload]; exact hsmall) ?_
  intro t' room hholds hmem hroom hsize
  rw [length_frame, length_tpPayload] at hroom
  have hgap : (room.take 5).length = 5 := by
    rw [List.length_take]
    omega
  have hheader := @Tp.tpiEncodeHeader_eq _ _ hmp t' done (room.take 5) (room.drop 5) type
    hholds.p_eq (by rw [hmem, List.take_append_drop]) hgap (by rw [List.length_drop]; omega)
  have hencode := @Tp.encode_eq _ { t' with
      size := some (t'.s + done.length)
      sync := some (t'.s + (done.length + 5 + (tpHeader type).length))
      mem := (done ++ (room.take 5 ++ (tpHeader type ++ (0xce :: BigEndian.store 4 0)))) ++
        (room.drop 5).drop ((tpHeader type).length + 5) } _ _ body rfl
    (by rw [hbody, List.length_drop, List.length_drop]; omega)
  rw [hbody, List.drop_drop, List.drop_drop] at hencode
  rw [List.drop_drop] at hheader
  have hmem' : (done ++ (room.take 5 ++ (tpHeader type ++ (0xce :: BigEndian.store 4 0)))) ++
      (bytes ++ room.drop (5 + ((tpHeader type).length + 5) + bytes.length)) =
        done ++ (room.take 5 ++ (tpPayload type 0 bytes ++
          room.drop (5 + ((tpHeader type).length + 5) + bytes.length))) := by
    simp only [tpPayload, UInt32.toNat_zero, List.append_assoc]
  have hadd := @Tp.tpAdd_eq _ { t' with
      size := some (t'.s + done.length)
      sync := some (t'.s + (done.length + 5 + (tpHeader type).length))
      mem := (done ++ (room.take 5 ++ (tpHeader type ++ (0xce :: BigEndian.store 4 0)))) ++
        (bytes ++ room.drop (5 + ((tpHeader type).length + 5) + bytes.length)) }
    done _ _ _ (frame (tpPayload type 0 bytes)).length hmem' hgap rfl
    (by rw [hholds.p_eq, List.length_append, Nat.add_assoc])
    (by rw [length_tpPayload]; omega)
  have hfields : Tp.Holds { t' with
      size := some (t'.s + done.length)
      sync := some (t'.s + (done.length + 5 + (tpHeader type).length)) } done (some done.length)
      (some (done.length + 5 + (tpHeader type).length)) :=
    ⟨hholds.mem_eq, hholds.p_eq, hholds.e_eq, rfl, rfl, hholds.length_lt⟩
  refine ⟨t'.p, _, ?_, ⟨@Tp.Holds.replace _ _ _ _
    (room.drop (5 + ((tpHeader type).length + 5) + bytes.length)) _ _ hfields ?_⟩⟩
  · rw [hheader]
    dsimp only [ok_bind]
    rw [hencode, ok_bind, hsize]
    exact hadd
  · rw [hmem]
    simp only [List.length_append, length_frame, length_tpPayload, List.length_drop]
    omega

theorem Tp.Building.tpReqid {t : Tp τ} {done body : Bytes} {type : TpRequestType} {sync : UInt32}
    (h : t.Building done type sync body) (reqid : UInt32) :
    ∃ t', t.tpReqid reqid = .ok t' ∧ t'.Building done type reqid body := by
  obtain ⟨room, hmem⟩ := h.holds.mem_eq
  have hsync : t.sync = some (t.s + (done ++ ((0xce :: BigEndian.store 4
      (tpPayload type sync body).length) ++ tpHeader type)).length) := by
    rw [h.holds.sync_eq]
    simp only [Option.map_some, List.length_append, List.length_cons, store_length]
    congr 2
    omega
  have hlength : (tpPayload type reqid body).length = (tpPayload type sync body).length := by
    rw [length_tpPayload, length_tpPayload]
  have hframe : ∀ sync', (tpPayload type sync' body).length = (tpPayload type sync body).length →
      (done ++ frame (tpPayload type sync' body)) ++ room =
        (done ++ ((0xce :: BigEndian.store 4 (tpPayload type sync body).length) ++ tpHeader type)) ++
          ((0xce :: BigEndian.store 4 sync'.toNat) ++ (body ++ room)) := by
    intro sync' hlength
    simp only [frame, tpPayload, List.append_assoc] at hlength ⊢
    rw [hlength]
  have hstamp := @Tp.storeUint32_eq _ t _ _ (body ++ room) (by rw [hmem, hframe sync rfl])
    (by simp) reqid
  rw [← hframe reqid hlength] at hstamp
  have hstop : t.p = t.s + (done ++ frame (tpPayload type reqid body)).length := by
    rw [h.holds.p_eq, List.length_append, List.length_append, length_frame, length_frame, hlength]
  have hreplaced := @Tp.Holds.replace _ t _ (done ++ frame (tpPayload type reqid body)) room _ _
    h.holds (by
      rw [hmem]
      simp only [List.length_append, length_frame, hlength])
  rw [← hstop] at hreplaced
  refine ⟨_, ?_, ⟨hreplaced⟩⟩
  have hreqid : t.tpReqid reqid = t.storeUint32 (t.s + (done ++ ((0xce :: BigEndian.store 4
      (tpPayload type sync body).length) ++ tpHeader type)).length) reqid := by
    rw [Tp.tpReqid, hsync]
  rw [hreqid]
  exact hstamp

include hmp hsz hreserve in
theorem TpStart.run_holds {t : Tp τ} {done : Bytes} {fieldSize fieldSync : Option Nat}
    (h : t.Holds done fieldSize fieldSync) (start : TpStart)
    (hsmall : (BeeC.frame (tpPayload start.type 0 start.body)).length < 2 ^ 32) :
    ∃ result, start.run reserve mp sz t = .ok result ∧
      ∀ t', result = some t' → t'.Building done start.type 0 start.body := by
  have hone : ∀ n, mpSizeofMap mp n = UInt32.ofNat (mapHeader n.toNat).length := by
    intro n
    rw [mpSizeofMap, hmp.sizeofMap_eq]
  cases start with
  | ping =>
      exact h.tpRequest hmp hsz hreserve (by simp [hmp.encodeMap_eq, body]) (hone 0) hsmall
  | select space index offset iterator limit =>
      refine h.tpRequest hmp hsz hreserve (by simp [hmp.encodeMap_eq, hmp.encodeUint_eq, body]) ?_
        hsmall
      simp only [hone, hsz.uint_eq, ← UInt32.ofNat_add, body, List.length_flatten]
      refine congrArg UInt32.ofNat ?_
      simp [Nat.add_assoc]
  | insert space | replace space | update space =>
      refine h.tpRequest hmp hsz hreserve (by simp [hmp.encodeMap_eq, hmp.encodeUint_eq, body]) ?_
        hsmall
      simp only [hone, hsz.uint_eq, ← UInt32.ofNat_add, body, List.length_flatten]
      refine congrArg UInt32.ofNat ?_
      simp [Nat.add_assoc]
  | call text hlt | eval text hlt =>
      have htext : (UInt32.ofNat text.bytes.length).toNat = text.bytes.length :=
        UInt32.toNat_ofNat_of_lt' text.length_lt
      refine h.tpRequest hmp hsz hreserve (by
        simp [hmp.encodeMap_eq, hmp.encodeUint_eq, hmp.encodeStrl_eq, mpEncodeStr, htext, body]) ?_
        hsmall
      simp only [hone, hsz.uint_eq, hsz.str_eq, htext, ← UInt32.ofNat_add, body,
        List.length_flatten]
      refine congrArg UInt32.ofNat ?_
      simp [Nat.add_assoc, TpBodyKey.id, encodeUint]

include hmp hsz hreserve in
theorem TpCall.run_building {t : Tp τ} {done body : Bytes} {type : TpRequestType} {sync : UInt32}
    (h : t.Building done type sync body) (call : TpCall)
    (hsmall : (BeeC.frame (tpPayload type sync (body ++ call.bytes))).length < 2 ^ 32) :
    ∃ result, call.run reserve mp sz t = .ok result ∧
      ∀ t', result = some t' →
        t'.Building done type (lastReqid sync [call]) (body ++ call.bytes) := by
  cases call with
  | reqid id =>
      obtain ⟨t', hrun, ht'⟩ := h.tpReqid id
      refine ⟨some t', by rw [TpCall.run, hrun]; rfl, fun _ h => ?_⟩
      cases h
      rwa [bytes, List.append_nil]
  | encodeNil => exact h.tpAppend hreserve (by simp [hmp.encodeNil_eq, bytes]) hsz.nil_eq hsmall
  | encodeUint num =>
      exact h.tpAppend hreserve (by simp [hmp.encodeUint_eq, bytes]) (hsz.uint_eq num) hsmall
  | encodeInt num neg =>
      have hneg : num.toInt < 0 := by simpa using Int64.lt_iff_toInt_lt.mp neg
      exact h.tpAppend hreserve (by simp [hmp.encodeInt_eq num hneg, bytes])
        (hsz.int_eq num hneg) hsmall
  | encodeStr str =>
      have hstr : (UInt32.ofNat str.bytes.length).toNat = str.bytes.length :=
        UInt32.toNat_ofNat_of_lt' str.length_lt
      exact h.tpAppend hreserve (by simp [hmp.encodeStrl_eq, mpEncodeStr, hstr, bytes])
        (by rw [hsz.str_eq, hstr, bytes, List.length_append]) hsmall
  | encodeBin str =>
      have hstr : (UInt32.ofNat str.bytes.length).toNat = str.bytes.length :=
        UInt32.toNat_ofNat_of_lt' str.length_lt
      exact h.tpAppend hreserve (by simp [hmp.encodeBinl_eq, mpEncodeBin, hstr, bytes])
        (by rw [hsz.bin_eq, hstr, bytes, List.length_append]) hsmall
  | encodeArray size =>
      exact h.tpAppend hreserve (by simp [hmp.encodeArray_eq, bytes])
        (by rw [mpSizeofArray, hmp.sizeofArray_eq, bytes]) hsmall
  | encodeMap size =>
      exact h.tpAppend hreserve (by simp [hmp.encodeMap_eq, bytes])
        (by rw [mpSizeofMap, hmp.sizeofMap_eq, bytes]) hsmall
  | encodeBool val =>
      exact h.tpAppend hreserve (by simp [hmp.encodeBool_eq, bytes]) (hsz.bool_eq val) hsmall
  | encodeFloat bits =>
      exact h.tpAppend hreserve (by simp [hmp.encodeFloat_eq, bytes]) (hsz.float_eq bits) hsmall
  | encodeDouble bits =>
      exact h.tpAppend hreserve (by simp [hmp.encodeDouble_eq, bytes]) (hsz.double_eq bits) hsmall
  | updatebegin opCount =>
      exact h.tpAppend hreserve (by simp [hmp.encodeUint_eq, hmp.encodeArray_eq, bytes])
        (by rw [mpSizeofArray, hmp.sizeofArray_eq, hsz.uint_eq, ← UInt32.ofNat_add, bytes,
          List.length_append]) hsmall
  | op code fieldNo =>
      refine h.tpAppend hreserve (by
        simp [hmp.encodeUint_eq, hmp.encodeArray_eq, hmp.encodeStrl_eq, mpEncodeStr, bytes]) ?_
        hsmall
      simp only [mpSizeofArray, hmp.sizeofArray_eq, hsz.uint_eq, hsz.str_eq, ← UInt32.ofNat_add,
        bytes, List.length_flatten]
      congr 1
      simp [Nat.add_assoc]

include hmp hsz hreserve in
theorem TpCall.runAll_building {t : Tp τ} {done body : Bytes} {type : TpRequestType}
    {sync : UInt32} (h : t.Building done type sync body) (calls : List TpCall)
    (hsmall : (BeeC.frame (tpPayload type sync
      (body ++ (calls.map TpCall.bytes).flatten))).length < 2 ^ 32) :
    ∃ result, TpCall.runAll reserve mp sz calls t = .ok result ∧
      ∀ t', result = some t' → t'.Building done type (lastReqid sync calls)
        (body ++ (calls.map TpCall.bytes).flatten) := by
  induction calls generalizing t sync body with
  | nil =>
      refine ⟨some t, rfl, fun _ h => ?_⟩
      cases h
      simpa [lastReqid] using h
  | cons call calls ih =>
      rw [List.map_cons, List.flatten_cons, ← List.append_assoc] at hsmall ⊢
      have hfirst : (BeeC.frame (tpPayload type sync (body ++ call.bytes))).length < 2 ^ 32 := by
        rw [length_frame, length_tpPayload, List.length_append] at hsmall
        rw [length_frame, length_tpPayload]
        omega
      obtain ⟨result, hrun, hbuilding⟩ := run_building hmp hsz hreserve h call hfirst
      rw [runAll, hrun, ok_bind, lastReqid_cons]
      cases result with
      | none => exact ⟨none, rfl, fun _ h => nomatch h⟩
      | some t' => exact ih (hbuilding t' rfl) (by rwa [length_frame, length_tpPayload] at hsmall ⊢)

include hmp hsz hreserve in
theorem TpRequest.run_holds {t : Tp τ} {done : Bytes} {fieldSize fieldSync : Option Nat}
    (h : t.Holds done fieldSize fieldSync) (r : TpRequest) (hsmall : r.frame.length < 2 ^ 32) :
    ∃ result, r.run reserve mp sz t = .ok result ∧
      ∀ t', result = some t' →
        ∃ fieldSize fieldSync, t'.Holds (done ++ r.frame) fieldSize fieldSync := by
  rw [TpRequest.frame, length_frame, length_tpPayload, List.length_append] at hsmall
  obtain ⟨result, hrun, hstarted⟩ := TpStart.run_holds hmp hsz hreserve h r.start (by
    rw [length_frame, length_tpPayload]
    omega)
  rw [TpRequest.run, hrun, ok_bind]
  cases result with
  | none => exact ⟨none, rfl, fun _ h => nomatch h⟩
  | some t' =>
      obtain ⟨result, hcalls, hbuilding⟩ := TpCall.runAll_building hmp hsz hreserve
        (hstarted t' rfl) r.calls (by
          rw [length_frame, length_tpPayload, List.length_append]
          omega)
      exact ⟨result, hcalls, fun t'' h => ⟨_, _, (hbuilding t'' h).holds⟩⟩

include hmp hsz hreserve in
theorem TpRequest.runAll_holds {t : Tp τ} {done : Bytes} {fieldSize fieldSync : Option Nat}
    (h : t.Holds done fieldSize fieldSync) (requests : List TpRequest)
    (hsmall : ∀ r ∈ requests, r.frame.length < 2 ^ 32) :
    ∃ result, TpRequest.runAll reserve mp sz requests t = .ok result ∧
      ∀ t', result = some t' →
        t'.used = done ++ (requests.map TpRequest.frame).flatten := by
  induction requests generalizing t done fieldSize fieldSync with
  | nil =>
      refine ⟨some t, rfl, fun _ ht => ?_⟩
      cases ht
      simpa using h.used_eq
  | cons r requests ih =>
      obtain ⟨result, hrun, hframed⟩ := run_holds hmp hsz hreserve h r
        (hsmall r List.mem_cons_self)
      rw [runAll, hrun, ok_bind]
      cases result with
      | none => exact ⟨none, rfl, fun _ h => nomatch h⟩
      | some t' =>
          obtain ⟨_, _, hholds⟩ := hframed t' rfl
          obtain ⟨result, hrest, hused⟩ := ih hholds fun r' hr' =>
            hsmall r' (List.mem_cons_of_mem _ hr')
          refine ⟨result, hrest, fun t'' h => ?_⟩
          rw [hused t'' h, List.map_cons, List.flatten_cons, List.append_assoc]

include hmp hsz hreserve in
/-- Requests that are built one after the other leave their frames in the buffer, one behind the
other, wherever and whenever the buffer is moved. No call writes outside the buffer; one may return
`NULL` for want of room. -/
theorem tp_framed (s : Nat) {buf : Bytes} (hbuf : buf.length < 2 ^ 63) (obj : τ)
    {requests : List TpRequest} (hsmall : ∀ r ∈ requests, r.frame.length < 2 ^ 32) :
    ∃ result, TpRequest.runAll reserve mp sz requests (Tp.tpInit s buf obj) = .ok result ∧
      ∀ t, result = some t → t.used = (requests.map TpRequest.frame).flatten := by
  have hinit := Tp.holds_tpInit s hbuf obj
  simpa using TpRequest.runAll_holds hmp hsz hreserve hinit requests hsmall

end Requests

/-- A reserve function that moves the buffer up by one at every call, and gives just the room that
is asked for. -/
def movingReserve : TpReserve Unit := fun t required =>
  if t.used.length + required < 2 ^ 63 then
    (some (t.s + 1, t.used ++ List.replicate required 0), ())
  else (none, ())

theorem keepsBytes_movingReserve : KeepsBytes (some movingReserve) := by
  rintro f hf t required np mem obj hrun
  cases hf
  unfold movingReserve at hrun
  split at hrun
  · cases hrun
    simp only [List.length_append, List.length_replicate]
    exact ⟨List.prefix_append _ _, le_refl _, ‹_›⟩
  · cases hrun

/-- A ping, and a selection with a key of one number and the number seven. -/
def pipelined : List TpRequest :=
  [⟨.ping, []⟩, ⟨.select 512 0 0 .eq 100, [.encodeArray 1, .reqid 6, .encodeUint 300, .reqid 7]⟩]

theorem tp_framed_pipelined :
    ∃ t, TpRequest.runAll (some movingReserve) Msgpuck.reference MsgpuckSizes.reference
        pipelined (Tp.tpInit 64 [] ()) = .ok (some t) ∧
      t.used = (pipelined.map TpRequest.frame).flatten := by
  have hsmall : ∀ r ∈ pipelined, r.frame.length < 2 ^ 32 := by decide
  obtain ⟨result, hrun, hused⟩ :=
    tp_framed Msgpuck.reference_lawful MsgpuckSizes.reference_lawful keepsBytes_movingReserve 64
      (show ([] : Bytes).length < 2 ^ 63 by decide) () hsmall
  have hsome : (TpRequest.runAll (some movingReserve) Msgpuck.reference MsgpuckSizes.reference
      pipelined (Tp.tpInit 64 [] ())).toOption.any Option.isSome = true := by decide
  rw [hrun] at hsome
  obtain ⟨t, rfl⟩ := Option.isSome_iff_exists.mp hsome
  exact ⟨t, hrun, hused t rfl⟩

end BeeC
