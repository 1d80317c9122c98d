import BeeC.TpEncoder

namespace BeeC

open BeeC.Wire
open BeeC.Wire.BigEndian
open BeeC.Wire.Encoding
open BeeC.Wire.Loop
open BeeC.Wire.MessagePack

namespace Tp

variable {τ : Type}

/-- The state of a buffer between two calls: the field of the length, once there is a request, is
among the bytes in use. -/
structure Settled (t : Tp τ) : Prop where
  s_le : t.s ≤ t.p
  p_le : t.p ≤ t.e
  e_eq : t.e = t.s + t.mem.length
  size_le : ∀ size ∈ t.size, t.s ≤ size ∧ size + 5 ≤ t.p
  sync_le : ∀ sync ∈ t.sync, t.s ≤ sync
  length_lt : t.mem.length < 2 ^ 63

/-- The call returns `NULL`, or the assertion of `tp_add` stops it. -/
def Refused (result : Except Fault (Option TpAdded × Tp τ)) : Prop :=
  result = .error .assertion ∨ ∃ t', result = .ok (none, t')

/-- From the end of the bytes in use, the call has moved the position to the end of what it has
stored, which is in the room it has reserved and is just these bytes. -/
structure Delivers (t : Tp τ) (a : TpAdded) (t' : Tp τ) (bytes : Bytes) : Prop where
  ptr_eq : a.ptr = t'.s + t.tpUsed
  p_eq : t'.p = a.stop
  stop_le : a.stop ≤ a.ptr + a.reserved
  stored_eq : (t'.mem.drop t.tpUsed).take (a.stop - a.ptr) = bytes

/-- The call comes to an end, and delivers these bytes. -/
def Fulfils (t : Tp τ) (result : Except Fault (Option TpAdded × Tp τ)) (bytes : Bytes) : Prop :=
  ∃ a t', result = .ok (some a, t') ∧ t.Delivers a t' bytes

end Tp

/-- The value that `tp_op_splice` is to add. -/
def spliceBytes (fieldNo offset cutLimit : UInt32) (paste : Chunk) : Bytes :=
  [arrayHeader 5, strHeader 1, [0x3a], encodeUint fieldNo.toNat, encodeUint offset.toNat,
    encodeUint cutLimit.toNat, strHeader paste.bytes.length, paste.bytes].flatten

/-- What the sizes of `tp_op_splice` add up to. -/
def spliceSize (fieldNo : UInt32) (paste : Chunk) : Nat :=
  3 + 3 * (encodeUint fieldNo.toNat).length + (strHeader paste.bytes.length).length +
    paste.bytes.length

/-- The body of a request that logs in. -/
def tpAuthBody (user proof : Bytes) : Bytes :=
  [mapHeader 2, encodeUint TpBodyKey.username.id.toNat, strHeader user.length, user,
    encodeUint TpBodyKey.tuple.id.toNat, proof].flatten

namespace TpEncoder

variable {τ α : Type}

/-- The complete head of the request, or the complete value. -/
def bytes (crypt : Crypt) (garbage : Nat → UInt8) (encoding : Bytes → α → Bytes) :
    TpEncoder α → Bytes
  | delete space =>
      frame (tpPayload .delete 0 [mapHeader 2, encodeUint TpBodyKey.space.id.toNat,
        encodeUint space.toNat, encodeUint TpBodyKey.key.id.toNat].flatten)
  | opSplice fieldNo offset cutLimit paste => spliceBytes fieldNo offset cutLimit paste
  | auth saltBase64 user pass =>
      frame (tpPayload .auth 0 (tpAuthBody user.bytes [arrayHeader 2, strHeader chapSha1.length,
        chapSha1, strHeader beerScrambleSize,
        tpiScramblePrepare crypt (decodeSalt crypt garbage saltBase64) pass.bytes].flatten))
  | deauth => frame (tpPayload .auth 0 (tpAuthBody guestName (arrayHeader 0)))
  | format fmt args => encoding fmt args

/-- The size is that of what is stored, and the room is there. -/
def Sized (reserve : Option (TpReserve τ)) (encoding : Bytes → α → Bytes) (t : Tp τ) :
    TpEncoder α → Prop
  | delete _ | auth .. | deauth => False
  | opSplice fieldNo offset cutLimit paste =>
      (encodeUint offset.toNat).length + (encodeUint cutLimit.toNat).length =
          2 * (encodeUint fieldNo.toNat).length ∧ spliceSize fieldNo paste < 2 ^ 31 ∧
        spliceSize fieldNo paste ≤ (t.tpEnsure reserve (spliceSize fieldNo paste)).2.tpUnused
  | format fmt args => (encoding fmt args).length ≤ t.tpUnused

end TpEncoder

namespace Tp

variable {τ : Type}

theorem store_ok {t t' : Tp τ} {ptr : Nat} {bytes : Bytes} (h : t.store ptr bytes = .ok t') :
    ∃ mem, t' = { t with mem } ∧ mem.length = t.mem.length := by
  unfold store at h
  split at h
  · cases h
  · split at h
    · cases h
    · rename_i mem hmem
      cases h
      exact ⟨mem, rfl, Memory.poke_length hmem⟩

theorem store_le {t t' : Tp τ} {ptr : Nat} {bytes : Bytes} (h : t.store ptr bytes = .ok t') :
    ptr + bytes.length ≤ t.s + t.mem.length := by
  unfold store Memory.poke at h
  split at h
  · cases h
  · by_cases hle : ptr - t.s + bytes.length ≤ t.mem.length
    · omega
    · rw [if_neg hle] at h
      cases h

theorem storeUint32_ok {t t' : Tp τ} {ptr : Nat} {n : UInt32} (h : t.storeUint32 ptr n = .ok t') :
    ∃ mem, t' = { t with mem } ∧ mem.length = t.mem.length := by
  obtain ⟨t₁, hfirst, hrest⟩ := bind_eq_ok.mp h
  obtain ⟨mem₁, rfl, hlength₁⟩ := store_ok hfirst
  obtain ⟨mem, rfl, hlength⟩ := store_ok hrest
  exact ⟨mem, rfl, hlength.trans hlength₁⟩

theorem encode_ok {t t' : Tp τ} {ptr stop : Nat} {parts : List Bytes}
    (h : t.encode ptr parts = .ok (stop, t')) :
    stop = ptr + parts.flatten.length ∧ ∃ mem, t' = { t with mem } ∧ mem.length = t.mem.length := by
  induction parts generalizing t ptr with
  | nil =>
      cases h
      exact ⟨rfl, _, rfl, rfl⟩
  | cons part parts ih =>
      obtain ⟨t₁, hstore, hrest⟩ := bind_eq_ok.mp h
      obtain ⟨mem₁, rfl, hlength₁⟩ := store_ok hstore
      obtain ⟨rfl, mem, rfl, hlength⟩ := ih hrest
      refine ⟨?_, mem, rfl, hlength.trans hlength₁⟩
      rw [List.flatten_cons, List.length_append, Nat.add_assoc]

/-- Nothing is stored behind the block. -/
theorem encode_le {t t' : Tp τ} {ptr stop : Nat} {parts : List Bytes}
    (h : t.encode ptr parts = .ok (stop, t')) (hparts : parts ≠ []) :
    stop ≤ t.s + t.mem.length := by
  induction parts generalizing t ptr with
  | nil => exact absurd rfl hparts
  | cons part parts ih =>
      obtain ⟨t₁, hstore, hrest⟩ := bind_eq_ok.mp h
      have hle := store_le hstore
      obtain ⟨mem₁, rfl, hlength₁⟩ := store_ok hstore
      cases parts with
      | nil =>
          cases hrest
          exact hle
      | cons next parts => exact (ih hrest (List.cons_ne_nil _ _)).trans_eq (by rw [hlength₁])

theorem tpiEncodeHeader_ok {mp : Msgpuck} (hmp : mp.Lawful) {t t' : Tp τ} {type : TpRequestType}
    {h : Nat} (hrun : t.tpiEncodeHeader mp type.id = .ok (h, t')) :
    h = t.p + (10 + (tpHeader type).length) ∧ ∃ mem sync, t.p ≤ sync ∧
      t' = { t with size := some t.p, sync := some sync, mem } ∧ mem.length = t.mem.length := by
  obtain ⟨⟨stop, t₁⟩, hencode, hrest⟩ := bind_eq_ok.mp hrun
  obtain ⟨rfl, mem₁, rfl, hlength₁⟩ := encode_ok hencode
  obtain ⟨t₂, hstamp, hrest⟩ := bind_eq_ok.mp hrest
  obtain ⟨mem, rfl, hlength⟩ := storeUint32_ok hstamp
  rw [tpHeader_parts hmp] at hrest
  cases hrest
  refine ⟨?_, mem, _, ?_, rfl, hlength.trans hlength₁⟩
  · dsimp only
    omega
  · dsimp only
    omega

theorem added_ok {t t' : Tp τ} {size stop : Nat} {r : Option TpAdded}
    (h : t.added size stop = .ok (r, t')) :
    r = some ⟨t.p, size, stop⟩ ∧ ∃ mem, t' = { t with p := t.p + size, mem } ∧
      mem.length = t.mem.length := by
  obtain ⟨⟨ptr, t₁⟩, hadd, hrest⟩ := bind_eq_ok.mp h
  unfold tpAdd at hadd
  dsimp only at hadd
  split at hadd
  · cases hadd
  · obtain ⟨t₂, hstore, hadd⟩ := bind_eq_ok.mp hadd
    obtain ⟨mem, rfl, hlength⟩ := storeUint32_ok hstore
    cases hadd
    cases hrest
    exact ⟨rfl, mem, rfl, hlength⟩

theorem Settled.holds {t : Tp τ} (h : t.Settled) :
    t.Holds t.used (t.size.map (· - t.s)) (t.sync.map (· - t.s)) := by
  have hs := h.s_le
  have hp := h.p_le
  have he := h.e_eq
  have hlength : t.used.length = t.p - t.s := by
    rw [Tp.used, List.length_take]
    omega
  refine ⟨⟨t.mem.drop (t.p - t.s), (List.take_append_drop _ _).symm⟩, by omega, he, ?_, ?_,
    h.length_lt⟩
  · cases hsize : t.size with
    | none => rfl
    | some size => exact congrArg some (Nat.add_sub_cancel' (h.size_le size hsize).1).symm
  · cases hsync : t.sync with
    | none => rfl
    | some sync => exact congrArg some (Nat.add_sub_cancel' (h.sync_le sync hsync)).symm

theorem Settled.field_le {t : Tp τ} (h : t.Settled) :
    ∀ field ∈ t.size.map (· - t.s), field + 5 ≤ t.used.length := by
  intro field hfield
  obtain ⟨size, hsize, rfl⟩ := Option.map_eq_some_iff.mp hfield
  obtain ⟨hs, hp⟩ := h.size_le size hsize
  rw [← h.holds.sizes.2.1, tpUsed]
  omega

theorem Holds.settled {t : Tp τ} {used : Bytes} {size sync : Option Nat}
    (h : t.Holds used size sync) (hfield : ∀ field ∈ size, field + 5 ≤ used.length) :
    t.Settled := by
  obtain ⟨room, hmem⟩ := h.mem_eq
  have hp := h.p_eq
  have he := h.e_eq
  have hlength : used.length ≤ t.mem.length := by
    rw [hmem, List.length_append]
    exact Nat.le_add_right _ _
  refine ⟨by omega, by omega, he, fun ptr hptr => ?_, fun ptr hptr => ?_, h.length_lt⟩
  · rw [h.size_eq] at hptr
    obtain ⟨field, hsize, rfl⟩ := Option.map_eq_some_iff.mp hptr
    have hle := hfield field hsize
    omega
  · rw [h.sync_eq] at hptr
    obtain ⟨field, hsync, rfl⟩ := Option.map_eq_some_iff.mp hptr
    exact Nat.le_add_right _ _

theorem settled_tpInit (s : Nat) {buf : Bytes} (hbuf : buf.length < 2 ^ 63) (obj : τ) :
    (tpInit s buf obj).Settled :=
  (holds_tpInit s hbuf obj).settled fun _ h => nomatch h

theorem Building.settled {t : Tp τ} {done body : Bytes} {type : TpRequestType} {sync : UInt32}
    (h : t.Building done type sync body) : t.Settled := by
  refine h.holds.settled fun field hfield => ?_
  cases hfield
  rw [List.length_append, length_frame]
  omega

theorem Settled.tpEnsure_moved {t : Tp τ} (h : t.Settled) (reserve : Option (TpReserve τ))
    (n : Nat) : (t.tpEnsure reserve n).2.p = (t.tpEnsure reserve n).2.s + t.tpUsed ∧
      (t.tpEnsure reserve n).2.e =
        (t.tpEnsure reserve n).2.s + (t.tpEnsure reserve n).2.mem.length ∧
      (t.tpEnsure reserve n).2.size =
        (t.size.map (· - t.s)).map ((t.tpEnsure reserve n).2.s + ·) := by
  have hstays : t.p = t.s + t.tpUsed ∧ t.e = t.s + t.mem.length ∧
      t.size = (t.size.map (· - t.s)).map (t.s + ·) :=
    ⟨(Nat.add_sub_cancel' h.s_le).symm, h.e_eq, h.holds.size_eq⟩
  unfold tpEnsure
  split
  · exact hstays
  · split
    · exact hstays
    · split
      · exact hstays
      · exact ⟨rfl, rfl, (Option.map_map _ _ _).symm⟩

theorem delivers {t t₁ : Tp τ} {used room bytes : Bytes} {field : Nat}
    (hused : t.tpUsed = used.length) (hp : t₁.p = t₁.s + used.length)
    (hsize : t₁.size = some (t₁.s + field)) (hfield : field + 5 ≤ used.length)
    (hmem : t₁.mem = used ++ room) {parts : List Bytes} (hparts : parts.flatten = bytes)
    (hroom : bytes.length ≤ room.length) :
    t.Fulfils (do
      let (stop, t₂) ← t₁.encode t₁.p parts
      t₂.added bytes.length stop) bytes := by
  have hencode := encode_eq hmem (by rw [hparts]; exact hroom : parts.flatten.length ≤ _)
  rw [hparts, ← hp] at hencode
  -- The field of the length is among the bytes in use.
  obtain ⟨before, old, after, hsplit, hbefore, hold⟩ : ∃ before old after : Bytes,
      used = before ++ (old ++ after) ∧ before.length = field ∧ old.length = 5 := by
    refine ⟨used.take field, (used.drop field).take 5, (used.drop field).drop 5, ?_, ?_, ?_⟩
    · rw [List.take_append_drop, List.take_append_drop]
    · rw [List.length_take]
      omega
    · rw [List.length_take, List.length_drop]
      omega
  have hmem₂ : used ++ (bytes ++ room.drop bytes.length) =
      before ++ (old ++ (after ++ (bytes ++ room.drop bytes.length))) := by
    rw [hsplit]
    simp only [List.append_assoc]
  rw [← hbefore] at hsize
  obtain ⟨stamp, hstamp, hadd⟩ : ∃ stamp : Bytes, stamp.length = 5 ∧
      tpAdd { t₁ with mem := used ++ (bytes ++ room.drop bytes.length) } bytes.length =
        .ok (some t₁.p, { t₁ with
          p := t₁.p + bytes.length
          mem := before ++ (stamp ++ (after ++ (bytes ++ room.drop bytes.length))) }) :=
    ⟨_, by simp, tpAdd_stamp bytes.length hmem₂ hold hsize⟩
  have hfront : used.length = ((before ++ stamp) ++ after).length := by
    rw [hsplit]
    simp only [List.length_append, hold, hstamp]
    omega
  have hstop : t₁.s + (used ++ bytes).length = t₁.p + bytes.length := by
    rw [hp, List.length_append, Nat.add_assoc]
  refine ⟨⟨t₁.p, bytes.length, t₁.p + bytes.length⟩, { t₁ with
    p := t₁.p + bytes.length
    mem := before ++ (stamp ++ (after ++ (bytes ++ room.drop bytes.length))) }, ?_, ?_, rfl,
    le_refl _, ?_⟩
  · rw [hencode, ok_bind, hstop]
    dsimp only
    rw [added, hadd]
    rfl
  · rw [hused]
    exact hp
  · dsimp only
    rw [hused, Nat.add_sub_cancel_left, ← List.append_assoc, ← List.append_assoc, hfront,
      List.drop_left, List.take_left]

theorem added_none {t : Tp τ} (hsize : t.size = none) (size stop : Nat) :
    t.added size stop = .error .assertion := by
  simp only [added, tpAdd, hsize, error_bind]

theorem encode_added_ok {t t' : Tp τ} {parts : List Bytes} {size : Nat} {a : TpAdded}
    (hok : (do
      let (stop, t₁) ← t.encode t.p parts
      t₁.added size stop) = .ok (some a, t')) :
    t'.p = t.p + size ∧ a.stop = t.p + parts.flatten.length ∧
      (parts ≠ [] → a.stop ≤ t.s + t.mem.length) := by
  obtain ⟨⟨stop, t₁⟩, hencode, hadd⟩ := bind_eq_ok.mp hok
  have hle := encode_le hencode
  obtain ⟨rfl, mem₁, rfl, -⟩ := encode_ok hencode
  obtain ⟨ha, mem', rfl, -⟩ := added_ok hadd
  cases ha
  exact ⟨rfl, rfl, hle⟩

/-- `return tp_add(p, size);` behind the encoders: the bytes are delivered exactly if the size is
theirs and there is the room. -/
theorem fulfils_iff {t t₁ : Tp τ} {used room bytes : Bytes} {fieldSize : Option Nat}
    (hused : t.tpUsed = used.length) (hp : t₁.p = t₁.s + used.length)
    (hsize : t₁.size = fieldSize.map (t₁.s + ·))
    (hfield : ∀ field ∈ fieldSize, field + 5 ≤ used.length) (hmem : t₁.mem = used ++ room)
    {parts : List Bytes} (hparts : parts.flatten = bytes) {size : Nat}
    (hrun : ¬Refused (do
      let (stop, t₂) ← t₁.encode t₁.p parts
      t₂.added size stop)) :
    t.Fulfils (do
      let (stop, t₂) ← t₁.encode t₁.p parts
      t₂.added size stop) bytes ↔ size = bytes.length ∧ bytes.length ≤ room.length := by
  constructor
  · rintro ⟨a, t', hok, hdelivers⟩
    obtain ⟨hend, hstop, hle⟩ := encode_added_ok hok
    have hstopped := hdelivers.p_eq
    rw [hparts] at hstop
    refine ⟨by omega, ?_⟩
    by_cases hnil : parts = []
    · rw [← hparts, hnil]
      exact Nat.zero_le _
    · have hblock := hle hnil
      rw [hmem, List.length_append] at hblock
      omega
  · rintro ⟨rfl, hroom⟩
    cases fieldSize with
    | none =>
        refine absurd (.inl ?_) hrun
        rw [hp, encode_eq hmem (by rw [hparts]; exact hroom), ok_bind]
        exact @added_none _ { t₁ with
          mem := used ++ (parts.flatten ++ room.drop parts.flatten.length) } hsize _ _
    | some field => exact delivers hused hp hsize (hfield field rfl) hmem hparts hroom

variable {reserve : Option (TpReserve τ)}

theorem Settled.append_fulfils_iff {t : Tp τ} (h : t.Settled) {size : UInt32} {parts : List Bytes}
    {bytes : Bytes} (hparts : parts.flatten = bytes) (hbytes : 0 < bytes.length)
    (hrun : ¬Refused (t.append reserve size parts)) :
    t.Fulfils (t.append reserve size parts) bytes ↔ sizeOfInt size = bytes.length ∧
      bytes.length ≤ (t.tpEnsure reserve (sizeOfInt size)).2.tpUnused := by
  obtain ⟨hp, he, hsize⟩ := h.tpEnsure_moved reserve (sizeOfInt size)
  unfold append ensuring at hrun ⊢
  dsimp only at hrun ⊢
  split at hrun
  · exact absurd (.inr ⟨_, rfl⟩) hrun
  rename_i hrc
  rw [if_neg hrc]
  generalize (t.tpEnsure reserve (sizeOfInt size)).2 = t₁ at hp he hsize hrun ⊢
  have hunused : t₁.tpUnused = t₁.mem.length - t.tpUsed := by
    rw [tpUnused, hp, he, Nat.add_sub_add_left]
  rw [hunused]
  by_cases hle : t.tpUsed ≤ t₁.mem.length
  · have hused : (t₁.mem.take t.tpUsed).length = t.tpUsed := by
      rw [List.length_take, Nat.min_eq_left hle]
    rw [← List.length_drop]
    refine fulfils_iff hused.symm (by rw [hused]; exact hp) hsize (fun field hfield => ?_)
      (List.take_append_drop _ _).symm hparts hrun
    rw [hused, h.holds.sizes.2.1]
    exact h.field_le field hfield
  · refine iff_of_false ?_ fun hroom => by omega
    rintro ⟨a, t', hok, hdelivers⟩
    obtain ⟨-, hstop, hblock⟩ := encode_added_ok hok
    rw [hparts] at hstop
    have hend := hblock (by rintro rfl; simp [← hparts] at hbytes)
    omega

variable (hreserve : KeepsBytes reserve) {mp : Msgpuck} {sz : MsgpuckSizes} (hmp : mp.Lawful)
  (hsz : sz.Lawful)

include hmp in
theorem request_ok {t t' : Tp τ} {type : TpRequestType} {size : UInt32} {body : List Bytes}
    {a : TpAdded} (hok : t.request reserve mp sz type size body = .ok (some a, t')) :
    t'.p = a.ptr + sizeOfInt (size + tpiSizeofHeader mp sz type.id) ∧
      a.reserved = sizeOfInt (size + tpiSizeofHeader mp sz type.id) ∧
      a.stop = a.ptr + (10 + (tpHeader type).length + body.flatten.length) := by
  unfold request ensuring at hok
  dsimp only at hok
  split at hok
  · cases hok
  · obtain ⟨⟨start, t₁⟩, hheader, hok⟩ := bind_eq_ok.mp hok
    obtain ⟨rfl, mem₁, sync, -, rfl, -⟩ := tpiEncodeHeader_ok hmp hheader
    obtain ⟨⟨stop, t₂⟩, hencode, hadd⟩ := bind_eq_ok.mp hok
    obtain ⟨rfl, mem₂, rfl, -⟩ := encode_ok hencode
    obtain ⟨ha, mem', rfl, -⟩ := added_ok hadd
    cases ha
    exact ⟨rfl, rfl, Nat.add_assoc _ _ _⟩

theorem Settled.tpFormat_fulfils_iff {α : Type} {vformat : MpVformat α}
    {encoding : Bytes → α → Bytes} (hvformat : vformat.Lawful encoding) {t : Tp τ} (h : t.Settled)
    (format : Bytes) (args : α) (hrun : ¬Refused (t.tpFormat reserve vformat format args)) :
    t.Fulfils (t.tpFormat reserve vformat format args) (encoding format args) ↔
      (encoding format args).length ≤ t.tpUnused := by
  have hsize := hvformat.size_eq t.tpUnused format args
  by_cases hfits : (encoding format args).length ≤ t.tpUnused
  · have hstored := hvformat.stored_eq _ format args hfits
    have hformat : t.tpFormat reserve vformat format args = (do
        let (stop, t₁) ← t.encode t.p [encoding format args]
        t₁.added (encoding format args).length stop) := by
      unfold tpFormat
      simp only [hsize, hstored, gt_iff_lt, Nat.not_lt.mpr hfits, if_false]
    obtain ⟨room, hmem⟩ := h.holds.mem_eq
    have hroom : (encoding format args).length ≤ room.length := by
      rw [h.holds.sizes.2.2.1, hmem, List.length_append, Nat.add_sub_cancel_left] at hfits
      exact hfits
    rw [hformat] at hrun ⊢
    exact iff_of_true ((fulfils_iff h.holds.sizes.2.1 h.holds.p_eq h.holds.size_eq h.field_le hmem
      (by simp) hrun).mpr ⟨rfl, hroom⟩) hfits
  · -- The second time no more is stored than the first time, and the whole size is accepted.
    refine iff_of_false ?_ hfits
    rintro ⟨a, t', hok, hdelivers⟩
    unfold tpFormat at hok
    dsimp only at hok
    obtain ⟨⟨stop, t₁⟩, -, hok⟩ := bind_eq_ok.mp hok
    simp only [hsize, gt_iff_lt, Nat.not_le.mp hfits, if_true] at hok
    unfold ensuring at hok
    dsimp only at hok
    split at hok
    · cases hok
    · obtain ⟨hend, hstop, -⟩ := encode_added_ok hok
      have hle := hvformat.length_le t.tpUnused format (vformat t.tpUnused format args).2.2
      have hp := hdelivers.p_eq
      rw [hend, hstop, List.flatten_singleton] at hp
      exact hfits ((Nat.add_left_cancel hp).trans_le hle)

include hmp hsz in
theorem Settled.tpOpSplice_fulfils_iff {t : Tp τ} (h : t.Settled)
    (fieldNo offset cutLimit : UInt32) (paste : Chunk)
    (hrun : ¬Refused (t.tpOpSplice reserve mp sz fieldNo offset cutLimit paste)) :
    t.Fulfils (t.tpOpSplice reserve mp sz fieldNo offset cutLimit paste)
        (spliceBytes fieldNo offset cutLimit paste) ↔
      (encodeUint offset.toNat).length + (encodeUint cutLimit.toNat).length =
          2 * (encodeUint fieldNo.toNat).length ∧ spliceSize fieldNo paste < 2 ^ 31 ∧
        spliceSize fieldNo paste ≤ (t.tpEnsure reserve (spliceSize fieldNo paste)).2.tpUnused := by
  have hpaste : (UInt32.ofNat paste.bytes.length).toNat = paste.bytes.length :=
    UInt32.toNat_ofNat_of_lt' paste.length_lt
  have hheaders : (arrayHeader 5).length = 1 ∧ (strHeader 1).length = 1 := by decide
  have hsize : mpSizeofArray mp 5 + sz.mpSizeofStr 1 + sz.mpSizeofUint fieldNo.toUInt64 +
      sz.mpSizeofUint fieldNo.toUInt64 + sz.mpSizeofUint fieldNo.toUInt64 +
        sz.mpSizeofStr (UInt32.ofNat paste.bytes.length) =
      UInt32.ofNat (spliceSize fieldNo paste) := by
    simp only [mpSizeofArray, hmp.sizeofArray_eq, hsz.str_eq, hsz.uint_eq, hpaste,
      UInt32.toNat_toUInt64, ← UInt32.ofNat_add]
    rw [spliceSize]
    congr 1
    simp only [UInt32.reduceToNat, hheaders]
    omega
  have hparts : ([mp.mpEncodeArray 5] ++ mpEncodeStr mp [0x3a] ++
      [mp.mpEncodeUint fieldNo.toUInt64, mp.mpEncodeUint offset.toUInt64,
        mp.mpEncodeUint cutLimit.toUInt64] ++ mpEncodeStr mp paste.bytes).flatten =
      spliceBytes fieldNo offset cutLimit paste := by
    simp [hmp.encodeArray_eq, hmp.encodeStrl_eq, hmp.encodeUint_eq, mpEncodeStr, hpaste,
      spliceBytes]
  have hlength : (spliceBytes fieldNo offset cutLimit paste).length =
      3 + (encodeUint fieldNo.toNat).length + (encodeUint offset.toNat).length +
        (encodeUint cutLimit.toNat).length + (strHeader paste.bytes.length).length +
          paste.bytes.length := by
    simp only [spliceBytes, List.length_flatten, List.map_cons, List.map_nil, List.sum_cons,
      List.sum_nil, List.length_cons, List.length_nil, hheaders]
    omega
  have hfieldNo := encodeUint_length_le fieldNo.toNat
  have hoffset := encodeUint_length_pos offset.toNat
  have hcutLimit := encodeUint_length_pos cutLimit.toNat
  have hless := paste.length_lt
  have hsmall := strHeader_length_le paste.bytes.length
  have hoffset' := encodeUint_length_le offset.toNat
  have hcutLimit' := encodeUint_length_le cutLimit.toNat
  unfold tpOpSplice at hrun ⊢
  rw [hsize] at hrun ⊢
  rw [h.append_fulfils_iff hparts (by omega) hrun]
  constructor
  · rintro ⟨hsame, hroom⟩
    obtain ⟨hmod, hint⟩ := (sizeOfInt_eq_iff (by omega)).mp hsame
    have htotal : (spliceBytes fieldNo offset cutLimit paste).length = spliceSize fieldNo paste := by
      unfold spliceSize at hmod ⊢
      omega
    rw [hsame, htotal] at hroom
    rw [htotal] at hint
    refine ⟨?_, hint, hroom⟩
    rw [hlength, spliceSize] at htotal
    omega
  · rintro ⟨hbalance, hint, hroom⟩
    have htotal : (spliceBytes fieldNo offset cutLimit paste).length = spliceSize fieldNo paste := by
      rw [hlength, spliceSize]
      omega
    rw [htotal, sizeOfInt_of_lt hint]
    exact ⟨rfl, hroom⟩

theorem length_tpHeader (type : TpRequestType) : (tpHeader type).length = 4 := by
  cases type <;> decide

include hmp hsz in
theorem request_size {type : TpRequestType} {n : Nat} (hn : n < 2 ^ 30) :
    sizeOfInt (UInt32.ofNat n + tpiSizeofHeader mp sz type.id) = n + 14 := by
  rw [tpiSizeofHeader_eq hmp hsz, ← UInt32.ofNat_add, length_tpHeader]
  exact sizeOfInt_of_lt (by omega)

include hmp hsz in
theorem request_size_eq {t : Tp τ} {type : TpRequestType} {n : Nat} (hn : n < 2 ^ 30)
    {body : List Bytes} {bytes : Bytes}
    (h : t.Fulfils (t.request reserve mp sz type (UInt32.ofNat n) body) bytes) :
    n = body.flatten.length := by
  obtain ⟨a, t', hok, hdelivers⟩ := h
  obtain ⟨hp, -, hstop⟩ := request_ok hmp hok
  have hstopped := hdelivers.p_eq
  rw [request_size hmp hsz hn] at hp
  rw [length_tpHeader] at hstop
  omega

include hmp hsz hreserve in
theorem Settled.request_fulfils_iff {t : Tp τ} (h : t.Settled) {type : TpRequestType} {n : Nat}
    (hn : n < 2 ^ 30) {body : List Bytes} {bytes : Bytes} (hbody : body.flatten = bytes)
    (hrun : ¬Refused (t.request reserve mp sz type (UInt32.ofNat n) body)) :
    t.Fulfils (t.request reserve mp sz type (UInt32.ofNat n) body)
      (frame (tpPayload type 0 bytes)) ↔ n = bytes.length := by
  constructor
  · intro hfulfils
    rw [← hbody]
    exact request_size_eq hmp hsz hn hfulfils
  · rintro rfl
    have hlength : (frame (tpPayload type 0 bytes)).length = bytes.length + 14 := by
      rw [length_frame, length_tpPayload, length_tpHeader]
      omega
    obtain ⟨result, hresult, hbuilding⟩ := h.holds.tpRequest hmp hsz hreserve hbody rfl
      (show (frame (tpPayload type 0 bytes)).length < 2 ^ 32 by omega)
    rw [← request_ptr] at hresult
    rcases hok : t.request reserve mp sz type (UInt32.ofNat bytes.length) body with
      fault | ⟨_ | a, t'⟩
    · rw [hok] at hresult
      cases hresult
    · exact absurd (.inr ⟨t', hok⟩) hrun
    · rw [hok] at hresult
      cases hresult
      have hholds := (hbuilding t' rfl).holds
      obtain ⟨hp, hreserved, hstop⟩ := request_ok hmp hok
      obtain ⟨room, hmem⟩ := hholds.mem_eq
      have hused := h.holds.sizes.2.1
      have hptr : a.ptr = t'.s + t.tpUsed := by
        have hend := hholds.p_eq
        rw [request_size hmp hsz hn] at hp
        rw [List.length_append, hlength] at hend
        omega
      rw [request_size hmp hsz hn] at hp hreserved
      rw [hbody, length_tpHeader] at hstop
      refine ⟨a, t', rfl, hptr, by omega, by omega, ?_⟩
      rw [hused, hmem, List.append_assoc, List.drop_left, hstop,
        show a.ptr + (10 + 4 + bytes.length) - a.ptr = (frame (tpPayload type 0 bytes)).length by
          omega, List.take_left]

include hmp hsz in
theorem tpDelete_size (space : UInt32) :
    mpSizeofMap mp 2 + sz.mpSizeofUint TpBodyKey.space.id + sz.mpSizeofUint space.toUInt64 +
      sz.mpSizeofUint TpBodyKey.key.id = UInt32.ofNat (3 + (encodeUint space.toNat).length) := by
  simp only [mpSizeofMap, hmp.sizeofMap_eq, hsz.uint_eq, UInt32.toNat_toUInt64,
    ← UInt32.ofNat_add]
  congr 1
  have hheads : (mapHeader (UInt32.toNat 2)).length = 1 ∧
      (encodeUint TpBodyKey.space.id.toNat).length = 1 ∧
        (encodeUint TpBodyKey.key.id.toNat).length = 1 := by decide
  omega

include hmp hsz in
theorem tpAuth_size : mpSizeofArray mp 2 + sz.mpSizeofStr 0 +
    sz.mpSizeofStr (UInt32.ofNat beerScrambleSize) = UInt32.ofNat 23 := by
  simp only [mpSizeofArray, hmp.sizeofArray_eq, hsz.str_eq, ← UInt32.ofNat_add]
  decide

include hmp in
theorem tpDeauth_size : mpSizeofArray mp 0 = UInt32.ofNat 1 := by
  rw [mpSizeofArray, hmp.sizeofArray_eq]
  decide

include hmp hsz in
theorem not_tpDelete_fulfils {t : Tp τ} (space : UInt32) (bytes : Bytes) :
    ¬t.Fulfils (t.tpDelete reserve mp sz space) bytes := by
  intro h
  have hspace := encodeUint_length_le space.toNat
  have hkeys : (encodeUint TpBodyKey.space.id.toNat).length = 1 ∧
      (encodeUint TpBodyKey.key.id.toNat).length = 1 := by decide
  rw [tpDelete, tpDelete_size hmp hsz] at h
  have hstored := request_size_eq hmp hsz (by omega) h
  simp only [hmp.encodeUint_eq, UInt32.toNat_toUInt64, List.length_flatten, List.map_cons,
    List.map_nil, List.sum_cons, List.sum_nil, hkeys] at hstored
  omega

include hmp hsz in
theorem not_tpAuth_fulfils {crypt : Crypt} {garbage : Nat → UInt8} {t : Tp τ} (saltBase64 : Bytes)
    (user pass : Chunk) (bytes : Bytes) :
    ¬t.Fulfils (t.tpAuth reserve mp sz crypt garbage saltBase64 user pass) bytes := by
  intro h
  have hscramble : (tpiScramblePrepare crypt (decodeSalt crypt garbage saltBase64)
      pass.bytes).length = 20 := beerScramblePrepare_length _ _
  have hname : chapSha1.length = 9 := rfl
  rw [tpAuth, tpAuth_size hmp hsz] at h
  have hstored := request_size_eq hmp hsz (by decide) h
  simp only [mpEncodeStr, List.flatten_append, List.length_append, List.length_flatten,
    List.map_cons, List.map_nil, List.sum_cons, List.sum_nil, hscramble, hname] at hstored
  omega

include hmp hsz in
theorem not_tpDeauth_fulfils {t : Tp τ} (bytes : Bytes) :
    ¬t.Fulfils (t.tpDeauth reserve mp sz) bytes := by
  intro h
  have hname : guestName.length = 5 := rfl
  rw [tpDeauth, tpDeauth_size hmp] at h
  have hstored := request_size_eq hmp hsz (by decide) h
  simp only [mpEncodeStr, List.flatten_append, List.length_append, List.length_flatten,
    List.map_cons, List.map_nil, List.sum_cons, List.sum_nil, hname] at hstored
  omega

theorem Settled.accept {t : Tp τ} (h : t.Settled) {size : Nat} (hroom : size ≤ t.tpUnused)
    {mem : Bytes} (hlength : mem.length = t.mem.length) :
    Settled { t with p := t.p + size, mem } := by
  have hp := h.p_le
  unfold tpUnused at hroom
  refine ⟨h.s_le.trans (Nat.le_add_right _ _), ?_, ?_, fun field hfield => ?_, h.sync_le, ?_⟩
  · dsimp only
    omega
  · dsimp only
    rw [hlength, h.e_eq]
  · exact ⟨(h.size_le field hfield).1, (h.size_le field hfield).2.trans (Nat.le_add_right _ _)⟩
  · dsimp only
    rw [hlength]
    exact h.length_lt

theorem Settled.start {t : Tp τ} (h : t.Settled) {size : Nat} (hfield : 5 ≤ size)
    (hroom : size ≤ t.tpUnused) {mem : Bytes} (hlength : mem.length = t.mem.length) {sync : Nat}
    (hsync : t.p ≤ sync) :
    Settled { t with p := t.p + size, size := some t.p, sync := some sync, mem } := by
  obtain ⟨hs, hp, he, -, -, hlt⟩ := h.accept hroom hlength
  refine ⟨hs, hp, he, fun field hstart => ?_, fun field hstart => ?_, hlt⟩
  · cases hstart
    exact ⟨h.s_le, Nat.add_le_add_left hfield _⟩
  · cases hstart
    exact h.s_le.trans hsync

include hreserve in
/-- After `tp_ensure` the buffer is settled too, and has the room: a call leaves it settled if what
comes next does. -/
theorem Settled.ensuring {t t' : Tp τ} (h : t.Settled) {n : Nat}
    {next : Tp τ → Except Fault (Option TpAdded × Tp τ)} {r : Option TpAdded}
    (hok : t.ensuring reserve n next = .ok (r, t'))
    (hnext : ∀ t₁, t₁.Settled → n ≤ t₁.tpUnused → next t₁ = .ok (r, t') → t'.Settled) :
    t'.Settled := by
  obtain ⟨hholds, hroom⟩ := h.holds.tpEnsure hreserve n
  have hsettled := hholds.settled h.field_le
  unfold Tp.ensuring at hok
  dsimp only at hok
  split at hok
  · cases hok
    exact hsettled
  · rename_i hrc
    refine hnext _ hsettled ?_ hok
    rw [hholds.sizes.2.2.1]
    exact hroom hrc

theorem Settled.encode_added {t t' : Tp τ} (h : t.Settled) {size : Nat} (hroom : size ≤ t.tpUnused)
    {parts : List Bytes} {r : Option TpAdded}
    (hok : (do
      let (stop, t₁) ← t.encode t.p parts
      t₁.added size stop) = .ok (r, t')) : t'.Settled := by
  obtain ⟨⟨stop, t₁⟩, hencode, hadd⟩ := bind_eq_ok.mp hok
  obtain ⟨-, mem₁, rfl, hlength₁⟩ := encode_ok hencode
  obtain ⟨-, mem', rfl, hlength'⟩ := added_ok hadd
  exact h.accept hroom (hlength'.trans hlength₁)

include hreserve in
theorem Settled.append_settled {t t' : Tp τ} (h : t.Settled) {size : UInt32} {parts : List Bytes}
    {r : Option TpAdded} (hok : t.append reserve size parts = .ok (r, t')) : t'.Settled :=
  h.ensuring hreserve hok fun _ ht₁ hroom hok => ht₁.encode_added hroom hok

include hreserve hmp hsz in
theorem Settled.request_settled {t t' : Tp τ} (h : t.Settled) {type : TpRequestType} {n : Nat}
    (hn : n < 2 ^ 30) {body : List Bytes} {r : Option TpAdded}
    (hok : t.request reserve mp sz type (UInt32.ofNat n) body = .ok (r, t')) : t'.Settled := by
  unfold request at hok
  dsimp only at hok
  rw [request_size hmp hsz hn] at hok
  refine h.ensuring hreserve hok fun t₁ ht₁ hroom hok => ?_
  obtain ⟨⟨start, t₂⟩, hstart, hrest⟩ := bind_eq_ok.mp hok
  obtain ⟨-, mem₂, sync, hsync, rfl, hlength₂⟩ := tpiEncodeHeader_ok hmp hstart
  obtain ⟨⟨stop, t₃⟩, hencode, hadd⟩ := bind_eq_ok.mp hrest
  obtain ⟨-, mem₃, rfl, hlength₃⟩ := encode_ok hencode
  obtain ⟨-, mem', rfl, hlength'⟩ := added_ok hadd
  exact ht₁.start (by omega) hroom (hlength'.trans (hlength₃.trans hlength₂)) hsync

include hreserve in
theorem Settled.tpFormat_settled {α : Type} {vformat : MpVformat α} {t t' : Tp τ} (h : t.Settled)
    {format : Bytes} {args : α} {r : Option TpAdded}
    (hok : t.tpFormat reserve vformat format args = .ok (r, t')) : t'.Settled := by
  unfold tpFormat at hok
  dsimp only at hok
  obtain ⟨⟨stop, t₁⟩, hencode, hrest⟩ := bind_eq_ok.mp hok
  obtain ⟨-, mem₁, rfl, hlength₁⟩ := encode_ok hencode
  have ht₁ := h.accept (Nat.zero_le _) hlength₁
  dsimp only at hrest
  split at hrest
  · exact ht₁.ensuring hreserve hrest fun _ ht₂ hroom hok => ht₂.encode_added hroom hok
  · rename_i hfits
    obtain ⟨-, mem', rfl, hlength'⟩ := added_ok hrest
    exact h.accept (Nat.le_of_not_gt hfits) (hlength'.trans hlength₁)

end Tp

variable {τ α : Type} {reserve : Option (TpReserve τ)} {mp : Msgpuck} {sz : MsgpuckSizes}

theorem TpEncoder.run_settled (hmp : mp.Lawful) (hsz : sz.Lawful) (hreserve : KeepsBytes reserve)
    {vformat : MpVformat α} {crypt : Crypt} {garbage : Nat → UInt8} {t t' : Tp τ} (h : t.Settled)
    (call : TpEncoder α) {r : Option TpAdded}
    (hok : call.run reserve mp sz crypt garbage vformat t = .ok (r, t')) : t'.Settled := by
  cases call with
  | delete space =>
      have hspace := encodeUint_length_le space.toNat
      rw [run, Tp.tpDelete, Tp.tpDelete_size hmp hsz] at hok
      exact h.request_settled hreserve hmp hsz (by omega) hok
  | opSplice fieldNo offset cutLimit paste => exact h.append_settled hreserve hok
  | auth saltBase64 user pass =>
      rw [run, Tp.tpAuth, Tp.tpAuth_size hmp hsz] at hok
      exact h.request_settled hreserve hmp hsz (by decide) hok
  | deauth =>
      rw [run, Tp.tpDeauth, Tp.tpDeauth_size hmp] at hok
      exact h.request_settled hreserve hmp hsz (by decide) hok
  | format fmt args => exact h.tpFormat_settled hreserve hok

/-- In every state of the buffer, where the call is not refused: it moves the position by just what
it stores, in the room it has reserved, and has stored the complete head or value, exactly if its
size is right. The sizes of `tp_delete`, `tp_auth` and `tp_deauth` never are. -/
theorem tpEncoder_fulfils_iff (hmp : mp.Lawful) (hsz : sz.Lawful) {vformat : MpVformat α}
    {encoding : Bytes → α → Bytes} (hvformat : vformat.Lawful encoding) (crypt : Crypt)
    (garbage : Nat → UInt8) {t : Tp τ} (h : t.Settled) (call : TpEncoder α)
    (hrun : ¬Tp.Refused (call.run reserve mp sz crypt garbage vformat t)) :
    t.Fulfils (call.run reserve mp sz crypt garbage vformat t)
      (call.bytes crypt garbage encoding) ↔ call.Sized reserve encoding t := by
  cases call with
  | delete space => exact iff_of_false (Tp.not_tpDelete_fulfils hmp hsz space _) not_false
  | opSplice fieldNo offset cutLimit paste =>
      exact h.tpOpSplice_fulfils_iff hmp hsz fieldNo offset cutLimit paste hrun
  | auth saltBase64 user pass =>
      exact iff_of_false (Tp.not_tpAuth_fulfils hmp hsz saltBase64 user pass _) not_false
  | deauth => exact iff_of_false (Tp.not_tpDeauth_fulfils hmp hsz _) not_false
  | format fmt args => exact h.tpFormat_fulfils_iff hvformat fmt args hrun

/-- `mp_vformat` of the format `"NIL"`. -/
def vformatNil : MpVformat Unit := fun n _ args => (if 1 ≤ n then encodeNil else [], 1, args)

theorem vformatNil_lawful : vformatNil.Lawful fun _ _ => encodeNil where
  size_eq _ _ _ := rfl
  stored_eq _ _ _ h := if_pos h
  length_le n _ _ := by
    unfold vformatNil
    dsimp only
    split
    · assumption
    · exact Nat.zero_le _

/-- Sixteen bytes, the first five of them the field of the length. -/
def begun : Tp Unit := { Tp.tpInit 0 (List.replicate 16 0) () with p := 5, size := some 0 }

theorem settled_begun : begun.Settled where
  s_le := by decide
  p_le := by decide
  e_eq := by decide
  size_le := by
    intro size hsize
    cases hsize
    decide
  sync_le := by
    intro sync hsync
    cases hsync
  length_lt := by decide

/-- Three numbers of one byte, and a text of one byte. -/
def shortSplice : TpEncoder Unit := .opSplice 1 2 3 ⟨[0x61], by decide⟩

theorem tpEncoder_fulfils_iff_short :
    begun.Fulfils (shortSplice.run none Msgpuck.reference MsgpuckSizes.reference builtCrypt
        (fun _ => 0) vformatNil begun)
      [0x95, 0xa1, 0x3a, 0x01, 0x02, 0x03, 0xa1, 0x61] :=
  (tpEncoder_fulfils_iff Msgpuck.reference_lawful MsgpuckSizes.reference_lawful
    vformatNil_lawful builtCrypt (fun _ => 0) settled_begun shortSplice
    (by rintro (h | ⟨t', h⟩) <;> cases h)).mpr ⟨by decide, by decide, by decide⟩

/-- The head of a deletion in an empty buffer with room enough: it is not refused, nineteen bytes
are stored, and the position is moved by twenty. -/
theorem not_tpEncoder_fulfils :
    (Tp.tpInit 0 (List.replicate 32 0) ()).Settled ∧
      ¬Tp.Refused ((.delete 512 : TpEncoder Unit).run none Msgpuck.reference
        MsgpuckSizes.reference builtCrypt (fun _ => 0) vformatNil
        (Tp.tpInit 0 (List.replicate 32 0) ())) ∧
      ¬(Tp.tpInit 0 (List.replicate 32 0) ()).Fulfils
        ((.delete 512 : TpEncoder Unit).run none Msgpuck.reference MsgpuckSizes.reference
          builtCrypt (fun _ => 0) vformatNil (Tp.tpInit 0 (List.replicate 32 0) ()))
        ((.delete 512 : TpEncoder Unit).bytes builtCrypt (fun _ => 0) fun _ _ => encodeNil) := by
  refine ⟨Tp.settled_tpInit 0 (by decide) (), ?_, ?_⟩
  · rintro (h | ⟨t', h⟩) <;> cases h
  · rintro ⟨a, t', h, hdelivers⟩
    cases h
    exact absurd hdelivers.p_eq (by decide)

end BeeC
