import Mathlib.Data.List.Nodup
import BeeC.DirectRoundTrip
import BeeC.Request

namespace BeeC

open BeeC.Wire.Memory
open BeeC.Wire.Loop
open BeeC.Wire.Gather
open BeeC.Wire.MessagePack
open BeeC.Wire.Encoding

variable {mp : Msgpuck} {l : Layout} {lead body : Bytes}

/-- The parts so far gather, with what is pending, to the header map, one byte for the header of
the body, and the body; whatever that byte is, and whatever stands around the encoded bytes. -/
structure Gathers (l : Layout) (lead body : Bytes) : Prop where
  start_le : l.start ≤ l.pos.pos
  contiguous : Contiguous l.start 9 l.v
  total : ((l.v ++ [l.pending]).map Part.length).sum = lead.length + 1 + body.length
  gathers : ∃ before gap tail, before.length = 9 ∧
    l.pos.Holds (before ++ (lead ++ gap :: tail)) 128 ∧
    ∀ before gap after, before.length = 9 →
      gather (before ++ (lead ++ gap :: (tail ++ after))) (l.v ++ [l.pending]) =
        lead ++ gap :: body

namespace Gathers

theorem write (h : Gathers l lead body) (parts : List Bytes)
    (hroom : l.pos.pos + parts.flatten.length ≤ 128) :
    ∃ pos, l.write parts = .ok { l with pos } ∧
      pos.pos = l.pos.pos + parts.flatten.length ∧
      Gathers { l with pos } lead (body ++ parts.flatten) := by
  obtain ⟨before, gap, tail, hbefore, hpos, hgather⟩ := h.gathers
  rw [hpos.pos_eq] at hroom
  obtain ⟨pos, hemit, hpos'⟩ := emit_ok hpos parts hroom
  have hmove : pos.pos = l.pos.pos + parts.flatten.length := by
    rw [hpos'.pos_eq, hpos.pos_eq, List.length_append]
  have hstart := h.start_le
  have hsplit : pos.pos - l.start = (l.pos.pos - l.start) + parts.flatten.length := by omega
  refine ⟨pos, ?_, hmove, ?_, h.contiguous, ?_, before, gap, tail ++ parts.flatten, hbefore, ?_, ?_⟩
  · simp only [Layout.write, hemit, ok_bind, pure_eq]
  · simp only [hmove]
    omega
  · have htotal := h.total
    simp only [List.map_append, List.map_cons, List.map_nil, List.sum_append, List.sum_cons,
      List.sum_nil, Layout.pending, Part.length, hsplit, List.length_append] at htotal ⊢
    omega
  · simpa using hpos'
  · intro before gap after hbefore'
    have hold := hgather before gap (parts.flatten ++ after) hbefore'
    have hnew : gather (before ++ (lead ++ gap :: (tail ++ (parts.flatten ++ after))))
        [.scratch l.pos.pos parts.flatten.length] = parts.flatten := by
      have := @gather_scratch (before ++ (lead ++ gap :: tail)) parts.flatten after l.pos.pos _
        (by rw [hpos.pos_eq]; simp [hbefore, hbefore']) rfl
      simpa using this
    rw [gather_append, Layout.pending] at hold ⊢
    rw [List.append_assoc, hsplit, gather_scratch_add, ← List.append_assoc, hold,
      Nat.add_sub_cancel' hstart, hnew]
    simp

theorem attach (h : Gathers l lead body) (value : Bytes) :
    Gathers { l with v := l.v ++ [l.pending, .outside value], start := l.pos.pos } lead
      (body ++ value) := by
  obtain ⟨before, gap, tail, hbefore, hpos, hgather⟩ := h.gathers
  have hstart := h.start_le
  refine ⟨le_refl _, h.contiguous.append ⟨rfl, ?_⟩, ?_, before, gap, tail, hbefore, hpos, ?_⟩
  · exact Nat.add_sub_cancel' hstart
  · have htotal := h.total
    simp only [List.map_append, List.map_cons, List.map_nil, List.sum_append, List.sum_cons,
      List.sum_nil, Layout.pending, Part.length, List.length_append] at htotal ⊢
    omega
  · intro before gap after hbefore'
    have hold := hgather before gap after hbefore'
    simp only [gather_append] at hold
    simp only [gather_append, gather_cons, gather_nil, Layout.pending, Part.bytes,
      Nat.sub_self, List.take_zero, List.append_nil] at hold ⊢
    rw [← List.append_assoc, hold]
    simp

theorem counted (h : Gathers l lead body) (nd : Nat) : Gathers { l with nd } lead body :=
  ⟨h.start_le, h.contiguous, h.total, h.gathers⟩

end Gathers

/-- A layout that has encoded a number of entries, of at most ten scratch bytes each. -/
structure Lays (l : Layout) (lead : Bytes) (entries : List (BodyKey × Bytes)) (most : Nat) :
    Prop where
  gathers : Gathers l lead (encodeEntries entries)
  nd_eq : l.nd = entries.length
  v_le : l.v.length ≤ most
  pos_le : l.pos.pos ≤ 9 + lead.length + 1 + 10 * entries.length

/-- An entry that is there under a condition. -/
def entryWhen (when : Bool) (entry : BodyKey × Bytes) : List (BodyKey × Bytes) :=
  if when then [entry] else []

namespace Request

/-- The entries in front of the key. -/
def numbers (req : Request) : List (BodyKey × Bytes) :=
  entryWhen (req.type.id < RequestType.call16.id) (numberEntry .space req.spaceId.toUInt64) ++
  entryWhen (req.indexId ≠ 0 ∧ (req.type = .select ∨ req.type = .update ∨ req.type = .delete))
    (numberEntry .index req.indexId.toUInt64) ++
  entryWhen (req.type = .select) (numberEntry .limit req.limit.toUInt64) ++
  entryWhen (req.offset ≠ 0 ∧ req.type = .select) (numberEntry .offset req.offset.toUInt64) ++
  entryWhen (req.iterator ≠ 0 ∧ req.type = .select) (numberEntry .iterator req.iterator.toUInt64)

/-- The entry for a key, for the types that have one. -/
def keyEntry (type : RequestType) (key : Bytes) : Option (BodyKey × Bytes) :=
  match type with
  | .eval => some (textEntry .expression key)
  | .call16 | .call => some (textEntry .function key)
  | .select | .update | .delete => some (.key, key)
  | .upsert => some (.ops, key)
  | _ => none

/-- The entry as it is encoded. Of the length of a text that is 32 bits. -/
def rawKeyEntry (type : RequestType) (key : Bytes) : Option (BodyKey × Bytes) :=
  match type with
  | .eval => some (.expression, strHeader (key.length % 2 ^ 32) ++ key)
  | .call16 | .call => some (.function, strHeader (key.length % 2 ^ 32) ++ key)
  | .select | .update | .delete => some (.key, key)
  | .upsert => some (.ops, key)
  | _ => none

def keyEntries (req : Request) : List (BodyKey × Bytes) :=
  (req.key.bind (keyEntry req.type)).toList

def rawKeyEntries (req : Request) : List (BodyKey × Bytes) :=
  (req.key.bind (rawKeyEntry req.type)).toList

def tupleEntries (req : Request) : List (BodyKey × Bytes) :=
  (req.tuple.map fun tuple => (.tuple, tuple)).toList

def indexBaseEntries (req : Request) : List (BodyKey × Bytes) :=
  entryWhen (req.indexBase ≠ 0 ∧ (req.type = .update ∨ req.type = .upsert))
    (numberEntry .indexBase req.indexBase.toInt64.toUInt64)

/-- The entries of the body. -/
def entries (req : Request) : List (BodyKey × Bytes) :=
  req.numbers ++ req.keyEntries ++ req.tupleEntries ++ req.indexBaseEntries

/-- The entries of the body, as they are encoded. -/
def rawEntries (req : Request) : List (BodyKey × Bytes) :=
  req.numbers ++ req.rawKeyEntries ++ req.tupleEntries ++ req.indexBaseEntries

/-- The request has a key, and its type has none. -/
def Refused (req : Request) : Prop := ∃ key, req.key = some key ∧ keyEntry req.type key = none

/-- A key is a text that is not too long or a value, as the type of the request has it. -/
def KeyFits : RequestType → Bytes → Prop
  | .call, key | .call16, key | .eval, key => key.length < 2 ^ 32
  | .select, key | .update, key | .delete, key | .upsert, key => IsValue key
  | _, _ => True

/-- The key and the tuple are unset, or they are what the request is for. No block of memory has
`2 ^ 62` bytes. -/
structure Valid (req : Request) : Prop where
  key : ∀ {key}, req.key = some key → KeyFits req.type key ∧ key.length < 2 ^ 62
  tuple : ∀ {tuple}, req.tuple = some tuple → IsValue tuple ∧ tuple.length < 2 ^ 62

/-- No block of memory has `2 ^ 62` bytes. -/
structure Sized (req : Request) : Prop where
  key : ∀ {key}, req.key = some key → key.length < 2 ^ 62
  tuple : ∀ {tuple}, req.tuple = some tuple → tuple.length < 2 ^ 62

theorem Valid.sized {req : Request} (h : req.Valid) : req.Sized :=
  ⟨fun hkey => (h.key hkey).2, fun htuple => (h.tuple htuple).2⟩

theorem rawKeyEntry_eq {type : RequestType} {key : Bytes} (h : KeyFits type key) :
    rawKeyEntry type key = keyEntry type key := by
  cases type with
  | call | call16 | eval =>
      have hlength : key.length % 2 ^ 32 = key.length := Nat.mod_eq_of_lt h
      simp only [rawKeyEntry, keyEntry, textEntry, hlength]
  | _ => rfl

theorem Valid.rawEntries_eq {req : Request} (h : req.Valid) : req.rawEntries = req.entries := by
  have hkey : req.rawKeyEntries = req.keyEntries := by
    unfold rawKeyEntries keyEntries
    cases hkey : req.key with
    | none => rfl
    | some key => rw [Option.bind_some, Option.bind_some, rawKeyEntry_eq (h.key hkey).1]
  rw [rawEntries, entries, hkey]

end Request

theorem entryWhen_length_le (when : Bool) (entry : BodyKey × Bytes) :
    (entryWhen when entry).length ≤ 1 := by
  cases when <;> simp [entryWhen]

theorem mem_entryWhen {when : Bool} {entry found : BodyKey × Bytes}
    (h : found ∈ entryWhen when entry) : found = entry := by
  cases when with
  | false => simp [entryWhen] at h
  | true => simpa [entryWhen] using h

section Lawful

variable (hmp : mp.Lawful) {entries : List (BodyKey × Bytes)} {most : Nat}

theorem Lays.attach (h : Lays l lead entries most) (hlead : lead.length ≤ 13)
    (hfew : entries.length < 10) (hmost : most < 8) {parts : List Bytes} {value : Bytes}
    {entry : BodyKey × Bytes}
    (hparts : parts.flatten ++ value = encodeUint entry.1.id.toNat ++ entry.2)
    (hshort : parts.flatten.length ≤ 10) :
    ∃ l', l.attach parts value = .ok l' ∧ Lays l' lead (entries ++ [entry]) (most + 2) := by
  have hpos := h.pos_le
  have hv := h.v_le
  have hbody : encodeEntries (entries ++ [entry]) =
      encodeEntries entries ++ parts.flatten ++ value := by
    rw [encodeEntries_append, encodeEntries_cons, encodeEntries_nil, List.append_nil, ← hparts,
      List.append_assoc]
  obtain ⟨pos, hwrite, hmove, hgathers⟩ := h.gathers.write parts (by omega)
  have hattach := (hgathers.attach value).counted (l.nd + 1)
  rw [← hbody] at hattach
  refine ⟨_, ?_, ⟨hattach, ?_, ?_, ?_⟩⟩
  · have hfirst : l.v.length + 1 < 10 := by omega
    have hsecond : l.v.length + 1 + 1 < 10 := by omega
    simp only [Layout.attach, hwrite, ok_bind, Layout.push, Layout.pending, hfirst, if_true,
      List.length_append, List.length_singleton, hsecond, pure_eq, List.append_assoc,
      List.cons_append, List.nil_append]
  · simp [h.nd_eq]
  · simp only [List.length_append, List.length_cons, List.length_nil]
    omega
  · simp only [hmove, List.length_append, List.length_singleton]
    omega

theorem Lays.flush (h : Lays l lead entries most) (hmost : most < 9) :
    ∃ v, l.flush = .ok { l with v } ∧ v.length ≤ most + 1 ∧ Contiguous l.pos.pos 9 v ∧
      (v.map Part.length).sum = lead.length + 1 + (encodeEntries entries).length ∧
      ∀ mem, gather mem v = gather mem (l.v ++ [l.pending]) := by
  have hv := h.v_le
  have hstart := h.gathers.start_le
  rw [← h.gathers.total]
  by_cases hempty : l.pos.pos = l.start
  · refine ⟨l.v, by simp [Layout.flush, hempty], by omega, ?_, ?_, fun mem => ?_⟩
    · rw [hempty]
      exact h.gathers.contiguous
    · simp [Layout.pending, hempty, Part.length]
    · simp [Layout.pending, hempty, Part.bytes]
  · refine ⟨l.v ++ [l.pending], ?_, by simpa using hv, ?_, rfl, fun _ => rfl⟩
    · have hroom : l.v.length + 1 < 10 := by omega
      simp [Layout.flush, hempty, Layout.push, hroom]
    · exact h.gathers.contiguous.append ⟨rfl, Nat.add_sub_cancel' hstart⟩

include hmp

theorem Lays.numberWhen (h : Lays l lead entries most) (hlead : lead.length ≤ 13)
    (hfew : entries.length < 10) (when : Bool) (field : BodyKey) (n : UInt64) :
    ∃ l', l.numberWhen mp when field n = .ok l' ∧
      Lays l' lead (entries ++ entryWhen when (numberEntry field n)) most := by
  cases when with
  | false => exact ⟨l, rfl, by simpa [entryWhen] using h⟩
  | true =>
      have hpos := h.pos_le
      have hkey := encodeKey_length hmp field
      have hnumber : (mp.mpEncodeUint n).length ≤ 9 := by
        rw [hmp.encodeUint_eq]
        exact encodeUint_length_le _
      have hlen : [encodeKey mp field, mp.mpEncodeUint n].flatten.length ≤ 10 := by
        simp [hkey]
        omega
      have hbody : encodeEntries (entries ++ [numberEntry field n]) =
          encodeEntries entries ++ [encodeKey mp field, mp.mpEncodeUint n].flatten := by
        simp [encodeEntries_append, numberEntry, encodeKey_eq hmp, hmp.encodeUint_eq]
      obtain ⟨pos, hwrite, hmove, hgathers⟩ := h.gathers.write
        [encodeKey mp field, mp.mpEncodeUint n] (by omega)
      rw [← hbody] at hgathers
      refine ⟨{ l with pos, nd := l.nd + 1 }, ?_, ⟨?_, ?_, h.v_le, ?_⟩⟩
      · simp only [Layout.numberWhen, if_true, hwrite, ok_bind, pure_eq]
      · simpa only [entryWhen, if_true] using hgathers.counted (l.nd + 1)
      · simp [entryWhen, h.nd_eq]
      · simp only [hmove, entryWhen, if_true, List.length_append, List.length_singleton]
        omega

theorem layHeader_lays (garbage : Nat → UInt8) (req : Request) :
    ∃ l, req.layHeader mp garbage =
        .ok (l, 9 + (encodeHeaderMap req.type.id.toNat req.sync.toNat).length) ∧
      Lays l (encodeHeaderMap req.type.id.toNat req.sync.toNat) [] 0 := by
  have htype : req.type.id.toNat < 0x80 := by cases req.type <;> decide
  have hlead := encodeHeaderMap_length_le htype req.sync.toNat
  have hflatten : [mp.mpEncodeMap 2, mp.mpEncodeUint HeaderKey.code.id.toUInt64,
      mp.mpEncodeUint req.type.id.toUInt64, mp.mpEncodeUint HeaderKey.sync.id.toUInt64,
      mp.mpEncodeUint req.sync].flatten = encodeHeaderMap req.type.id.toNat req.sync.toNat := by
    simp [hmp.encodeMap_eq, hmp.encodeUint_eq, encodeHeaderMap, unpair, HeaderKey.id]
  generalize encodeHeaderMap req.type.id.toNat req.sync.toNat = lead at *
  obtain ⟨before, hbefore, hstart⟩ := uninitialised_holds_at garbage (show 9 ≤ 128 by decide)
  obtain ⟨pos, hemit, hpos⟩ := emit_ok hstart _ (by rw [hflatten]; omega)
  rw [hflatten] at hpos
  obtain ⟨gap, hskip⟩ := hpos.skip (by rw [List.length_append]; omega)
  have hat : pos.pos = 9 + lead.length := by rw [hpos.pos_eq, List.length_append, hbefore]
  have hlength : 9 + lead.length + 1 - 9 = lead.length + 1 := by omega
  refine ⟨⟨⟨pos.mem, 9 + lead.length + 1⟩, 9, [], 0⟩, ?_, ?_, rfl, le_refl _, le_refl _⟩
  · simp only [Request.layHeader, hemit, ok_bind, pure_eq, hat]
  refine ⟨by simp only; omega, rfl, by simp [Layout.pending, Part.length, hlength], before, gap, [],
    hbefore, by simpa [hat] using hskip, ?_⟩
  intro before gap after hbefore'
  have hpending := @gather_scratch before (lead ++ [gap]) after 9 (lead.length + 1)
    hbefore'.symm (by simp)
  simpa [Layout.pending, hlength] using hpending

theorem layFrame_ok (h : Lays l lead entries most) (hlead : lead.length ≤ 13)
    (hmost : most ≤ 8) (hfew : entries.length ≤ 8)
    (hlength : lead.length + 1 + (encodeEntries entries).length < 2 ^ 64) :
    ∃ header v start stop, Request.layFrame mp (9 + lead.length) l = .ok (header, v) ∧
      header.length = 128 ∧ v.length ≤ 10 ∧ stop ≤ 128 ∧ Contiguous stop start v ∧
      Framed (gather header v) (lead ++ (mapHeader entries.length ++ encodeEntries entries)) := by
  obtain ⟨before, gap, tail, hbefore, ⟨room, hpos, hroom⟩, hgather⟩ := h.gathers.gathers
  obtain ⟨v, hflush, hv, hcontiguous, htotal, hpending⟩ := h.flush (by omega)
  -- the header of the body takes the one byte that was skipped for it
  have hcount : (UInt32.ofNat l.nd).toNat = entries.length := by
    rw [UInt32.toNat_ofNat', h.nd_eq]
    omega
  obtain ⟨count, hheader⟩ : ∃ count, mapHeader entries.length = [count] :=
    ⟨_, if_pos (by omega)⟩
  have hsize : mp.mpSizeofMap (UInt32.ofNat l.nd) = 1 := by
    rw [hmp.sizeofMap_eq, hcount, hheader]
    rfl
  have hcounted : emit ⟨l.pos.mem, 9 + lead.length⟩ [mp.mpEncodeMap (UInt32.ofNat l.nd)] =
      .ok ⟨before ++ (lead ++ count :: (tail ++ room)), 9 + lead.length + 1⟩ := by
    have := @emit_eq (before ++ lead) (gap :: (tail ++ room)) [[count]] (by simp)
    rw [hpos, hmp.encodeMap_eq, hcount, hheader]
    simpa [hbefore, Nat.add_assoc] using this
  generalize hpayload : lead ++ (mapHeader entries.length ++ encodeEntries entries) = payload
  have hbody : lead ++ count :: encodeEntries entries = payload := by
    rw [← hpayload, hheader]
    rfl
  have hlen : payload.length = lead.length + 1 + (encodeEntries entries).length := by
    rw [← hbody, List.length_append, List.length_cons]
    omega
  rw [← hlen] at htotal hlength
  -- the prefix ends where the header map starts
  obtain ⟨parts, hparts, hencode⟩ := mpEncodeLuint32_eq hmp hlength
  have hnine := lengthPrefix_length_le payload.length
  generalize hfirst : lengthPrefix payload.length = first at *
  obtain ⟨front, behind, rfl, hfront⟩ : ∃ front behind, before = front ++ behind ∧
      front.length = 9 - first.length :=
    ⟨before.take (9 - first.length), before.drop (9 - first.length),
      (List.take_append_drop _ _).symm, by rw [List.length_take]; omega⟩
  rw [List.length_append] at hbefore
  have hframed : emit ⟨(front ++ behind) ++ (lead ++ count :: (tail ++ room)), front.length⟩
      parts = .ok ⟨(front ++ first) ++ (lead ++ count :: (tail ++ room)), 9⟩ := by
    have hbehind : behind.length = first.length := by omega
    have := @emit_eq front (behind ++ (lead ++ count :: (tail ++ room))) parts
      (by rw [hparts, List.length_append]; omega)
    rw [List.append_assoc, this, hparts, ← hbehind, List.drop_left, List.length_append]
    simp only [Except.ok.injEq, Cursor.mk.injEq, true_and]
    omega
  have hnine' : (front ++ first).length = 9 := by rw [List.length_append]; omega
  refine ⟨(front ++ first) ++ (lead ++ count :: (tail ++ room)),
    .scratch front.length first.length :: v, front.length, l.pos.pos, ?_, ?_,
    by rw [List.length_cons]; omega, ?_, ⟨rfl, ?_⟩, hlength, ?_⟩
  · simp only [Request.layFrame, hsize, hflush, hcounted, htotal, ne_eq, not_true_eq_false,
      if_false, ok_bind, pure_eq, mpSizeofLuint32_eq hlength, hfirst, ← hfront, hencode, hframed]
  · simp only [List.length_append, List.length_cons] at hroom hnine' ⊢
    omega
  · have := h.pos_le
    omega
  · rw [hfront, Nat.sub_add_cancel hnine]
    exact hcontiguous
  · have hscratch := @gather_scratch front first (lead ++ count :: (tail ++ room)) _ _ rfl rfl
    rw [gather_cons, gather_nil, List.append_nil, ← List.append_assoc] at hscratch
    rw [gather_cons, hscratch, hpending, hgather _ count room hnine', hbody, hfirst]

theorem layNumbers_lays (req : Request) (h : Lays l lead [] most) (hlead : lead.length ≤ 13) :
    ∃ l', req.layNumbers mp l = .ok l' ∧ Lays l' lead req.numbers most := by
  have hle := entryWhen_length_le
  have step := fun {l entries} (h : Lays l lead entries most) (hfew : entries.length < 10) =>
    h.numberWhen hmp hlead hfew
  obtain ⟨l₁, h₁, hl₁⟩ := step h (by simp) (req.type.id < RequestType.call16.id) .space
    req.spaceId.toUInt64
  obtain ⟨l₂, h₂, hl₂⟩ := step hl₁ (by simp; grind) (req.indexId ≠ 0 ∧ (req.type = .select ∨
    req.type = .update ∨ req.type = .delete)) .index req.indexId.toUInt64
  obtain ⟨l₃, h₃, hl₃⟩ := step hl₂ (by simp; grind) (req.type = .select) .limit
    req.limit.toUInt64
  obtain ⟨l₄, h₄, hl₄⟩ := step hl₃ (by simp; grind) (req.offset ≠ 0 ∧ req.type = .select) .offset
    req.offset.toUInt64
  obtain ⟨l₅, h₅, hl₅⟩ := step hl₄ (by simp; grind) (req.iterator ≠ 0 ∧ req.type = .select)
    .iterator req.iterator.toUInt64
  exact ⟨l₅, by simp only [Request.layNumbers, h₁, h₂, h₃, h₄, h₅, ok_bind], hl₅⟩

theorem keyHead_eq (type : RequestType) (key : Bytes) :
    Request.keyHead mp type key.length = none ∧ Request.keyEntry type key = none ∨
      ∃ parts entry, Request.keyHead mp type key.length = some parts ∧
        Request.rawKeyEntry type key = some entry ∧
        parts.flatten ++ key = encodeUint entry.1.id.toNat ++ entry.2 ∧
        parts.flatten.length ≤ 10 := by
  have htext : ∀ field,
      [encodeKey mp field, mp.mpEncodeStrl (UInt32.ofNat key.length)].flatten ++ key =
        encodeUint field.id.toNat ++ (strHeader (key.length % 2 ^ 32) ++ key) ∧
      [encodeKey mp field, mp.mpEncodeStrl (UInt32.ofNat key.length)].flatten.length ≤ 10 := by
    intro field
    have hstrl : mp.mpEncodeStrl (UInt32.ofNat key.length) = strHeader (key.length % 2 ^ 32) := by
      rw [hmp.encodeStrl_eq, UInt32.toNat_ofNat']
    have hle := strHeader_length_le (key.length % 2 ^ 32)
    constructor
    · simp only [hstrl, encodeKey_eq hmp, List.flatten_cons, List.flatten_nil, List.append_nil,
        List.append_assoc]
    · simp only [hstrl, List.flatten_cons, List.flatten_nil, List.append_nil, List.length_append,
        encodeKey_length hmp]
      omega
  have hvalue : ∀ field,
      [encodeKey mp field].flatten ++ key = encodeUint field.id.toNat ++ key ∧
      [encodeKey mp field].flatten.length ≤ 10 :=
    fun field => ⟨by simp [encodeKey_eq hmp], by simp [encodeKey_length hmp]⟩
  cases type with
  | eval => exact .inr ⟨_, _, rfl, rfl, htext .expression⟩
  | call | call16 => exact .inr ⟨_, _, rfl, rfl, htext .function⟩
  | select | update | delete => exact .inr ⟨_, _, rfl, rfl, hvalue .key⟩
  | upsert => exact .inr ⟨_, _, rfl, rfl, hvalue .ops⟩
  | _ => exact .inl ⟨rfl, rfl⟩

theorem layKey_lays (req : Request) (h : Lays l lead entries most) (hlead : lead.length ≤ 13)
    (hfew : entries.length < 10) (hmost : most < 8) :
    req.Refused ∧ req.layKey mp l = .ok none ∨ ∃ l', req.layKey mp l = .ok (some l') ∧
      Lays l' lead (entries ++ req.rawKeyEntries) (most + 2) := by
  unfold Request.layKey Request.rawKeyEntries
  cases hkey : req.key with
  | none => exact .inr ⟨l, rfl, by simpa using ⟨h.gathers, h.nd_eq, h.v_le.trans (by omega), h.pos_le⟩⟩
  | some key =>
      rcases keyHead_eq hmp req.type key with ⟨hhead, hnone⟩ | ⟨parts, entry, hhead, hentry,
        hparts, hshort⟩
      · exact .inl ⟨⟨key, hkey, hnone⟩, by simp only [hhead]⟩
      · obtain ⟨l', hattach, hl'⟩ := h.attach hlead hfew hmost hparts hshort
        refine .inr ⟨l', ?_, by simpa [hentry] using hl'⟩
        simp only [hhead, hattach]
        rfl

theorem layTuple_lays (req : Request) (h : Lays l lead entries most) (hlead : lead.length ≤ 13)
    (hfew : entries.length < 10) (hmost : most < 8) :
    ∃ l', req.layTuple mp l = .ok l' ∧ Lays l' lead (entries ++ req.tupleEntries) (most + 2) := by
  unfold Request.layTuple Request.tupleEntries
  cases req.tuple with
  | none => exact ⟨l, rfl, by simpa using ⟨h.gathers, h.nd_eq, h.v_le.trans (by omega), h.pos_le⟩⟩
  | some tuple =>
      exact h.attach hlead hfew hmost (by simp [encodeKey_eq hmp]) (by simp [encodeKey_length hmp])

omit hmp in
theorem entries_length_le (req : Request) : req.numbers.length ≤ 5 ∧ req.keyEntries.length ≤ 1 ∧
    req.rawKeyEntries.length ≤ 1 ∧ req.tupleEntries.length ≤ 1 ∧
    req.indexBaseEntries.length ≤ 1 := by
  have hle := entryWhen_length_le
  have htoList : ∀ entry : Option (BodyKey × Bytes), entry.toList.length ≤ 1 := by
    intro entry
    cases entry <;> simp
  refine ⟨?_, htoList _, htoList _, htoList _, hle _ _⟩
  simp [Request.numbers]
  grind

omit hmp in
theorem keyEntry_isValue {type : RequestType} {key : Bytes} (h : Request.KeyFits type key)
    {entry : BodyKey × Bytes} (hentry : Request.keyEntry type key = some entry) :
    IsValue entry.2 := by
  cases type with
  | call | call16 | eval =>
      cases hentry
      exact isValue_str h
  | select | update | delete | upsert =>
      cases hentry
      exact h
  | _ => cases hentry

omit hmp in
theorem keyEntries_isValue {req : Request} (hvalid : req.Valid) {entry : BodyKey × Bytes}
    (h : entry ∈ req.keyEntries) : IsValue entry.2 := by
  simp only [Request.keyEntries, Option.mem_toList, Option.bind_eq_some_iff] at h
  obtain ⟨key, hkey, hentry⟩ := h
  exact keyEntry_isValue (hvalid.key hkey).1 hentry

omit hmp in
theorem entries_isValue {req : Request} (hvalid : req.Valid) :
    ∀ entry ∈ req.entries, IsValue entry.2 := by
  have hnumber := fun {when field n entry} (h : entry ∈ entryWhen when (numberEntry field n)) =>
    show IsValue entry.2 from mem_entryWhen h ▸ isValue_numberEntry field n
  intro entry hentry
  simp only [Request.entries, Request.numbers, List.mem_append] at hentry
  rcases hentry with ((((((h | h) | h) | h) | h) | hkey) | htuple) | h
  · exact hnumber h
  · exact hnumber h
  · exact hnumber h
  · exact hnumber h
  · exact hnumber h
  · exact keyEntries_isValue hvalid hkey
  · simp only [Request.tupleEntries, Option.mem_toList, Option.map_eq_some_iff] at htuple
    obtain ⟨tuple, htuple, rfl⟩ := htuple
    exact (hvalid.tuple htuple).1
  · exact hnumber h

omit hmp in
theorem encodeEntries_length_le {entries : List (BodyKey × Bytes)} {most : Nat}
    (h : ∀ entry ∈ entries, entry.2.length ≤ most) :
    (encodeEntries entries).length ≤ entries.length * (most + 1) := by
  induction entries with
  | nil => simp
  | cons entry entries ih =>
      have hkey : (encodeUint entry.1.id.toNat).length = 1 := by cases entry.1 <;> rfl
      have hentry := h entry (by simp)
      have hentries := ih fun e he => h e (by simp [he])
      rw [encodeEntries_cons, List.length_append, List.length_append, List.length_cons,
        Nat.add_mul, hkey]
      omega

omit hmp in
theorem encodeEntries_rawEntries_lt {req : Request} (hsized : req.Sized) :
    (encodeEntries req.rawEntries).length + 0x100 < 2 ^ 64 := by
  obtain ⟨hnumbers, -, hkeys, htuples, hbases⟩ := entries_length_le req
  have hnumber := fun {when field n entry} (h : entry ∈ entryWhen when (numberEntry field n)) =>
    show entry.2.length ≤ 9 from mem_entryWhen h ▸ encodeUint_length_le _
  have hnumbers' : (encodeEntries req.numbers).length ≤ 5 * 10 := by
    refine (@encodeEntries_length_le _ 9 ?_).trans (Nat.mul_le_mul_right _ hnumbers)
    intro entry hentry
    simp only [Request.numbers, List.mem_append] at hentry
    rcases hentry with (((h | h) | h) | h) | h <;> exact hnumber h
  have hkeys' : (encodeEntries req.rawKeyEntries).length ≤ 1 * (2 ^ 62 + 5 + 1) := by
    refine (encodeEntries_length_le ?_).trans (Nat.mul_le_mul_right _ hkeys)
    intro entry hentry
    simp only [Request.rawKeyEntries, Option.mem_toList, Option.bind_eq_some_iff] at hentry
    obtain ⟨key, hkey, hentry⟩ := hentry
    have hlt := hsized.key hkey
    have htext := strHeader_length_le (key.length % 2 ^ 32)
    unfold Request.rawKeyEntry at hentry
    split at hentry <;> cases hentry <;> simp only [List.length_append] <;> omega
  have htuples' : (encodeEntries req.tupleEntries).length ≤ 1 * (2 ^ 62 + 1) := by
    refine (encodeEntries_length_le ?_).trans (Nat.mul_le_mul_right _ htuples)
    intro entry hentry
    simp only [Request.tupleEntries, Option.mem_toList, Option.map_eq_some_iff] at hentry
    obtain ⟨tuple, htuple, rfl⟩ := hentry
    exact (hsized.tuple htuple).le
  have hbases' : (encodeEntries req.indexBaseEntries).length ≤ 1 * 10 :=
    (encodeEntries_length_le fun entry h => hnumber h).trans (Nat.mul_le_mul_right _ hbases)
  simp only [Request.rawEntries, encodeEntries_append, List.length_append]
  omega

theorem iovecs_refused (garbage : Nat → UInt8) {req : Request} (hrefused : req.Refused) :
    req.iovecs mp garbage = .ok none := by
  have htype : req.type.id.toNat < 0x80 := by cases req.type <;> decide
  have hlead := encodeHeaderMap_length_le htype req.sync.toNat
  obtain ⟨l₁, h₁, hl₁⟩ := layHeader_lays hmp garbage req
  obtain ⟨l₂, h₂, hl₂⟩ := layNumbers_lays hmp req hl₁ hlead
  obtain ⟨key, hkey, hnone⟩ := hrefused
  have hhead : Request.keyHead mp req.type key.length = none := by
    cases htype : req.type <;> rw [htype] at hnone <;> first | rfl | cases hnone
  simp only [Request.iovecs, h₁, h₂, Request.layKey, hkey, hhead, ok_bind, pure_eq]

theorem iovecs_sized (garbage : Nat → UInt8) {req : Request} (hsized : req.Sized) :
    req.Refused ∧ req.iovecs mp garbage = .ok none ∨
      ∃ header v start stop, req.iovecs mp garbage = .ok (some (header, v)) ∧
        header.length = 128 ∧ v.length ≤ 10 ∧ stop ≤ 128 ∧ Contiguous stop start v ∧
        Framed (gather header v) (encodeHeaderMap req.type.id.toNat req.sync.toNat ++
          (mapHeader req.rawEntries.length ++ encodeEntries req.rawEntries)) := by
  have htype : req.type.id.toNat < 0x80 := by cases req.type <;> decide
  have hlead := encodeHeaderMap_length_le htype req.sync.toNat
  obtain ⟨hnumbers, -, hkeys, htuples, hbases⟩ := entries_length_le req
  have hlength := encodeEntries_rawEntries_lt hsized
  obtain ⟨l₁, h₁, hl₁⟩ := layHeader_lays hmp garbage req
  obtain ⟨l₂, h₂, hl₂⟩ := layNumbers_lays hmp req hl₁ hlead
  rcases layKey_lays hmp req hl₂ hlead (by omega) (by omega) with ⟨hrefused, h₃⟩ | ⟨l₃, h₃, hl₃⟩
  · refine .inl ⟨hrefused, ?_⟩
    simp only [Request.iovecs, h₁, h₂, h₃, ok_bind, pure_eq]
  obtain ⟨l₄, h₄, hl₄⟩ := layTuple_lays hmp req hl₃ hlead
    (by rw [List.length_append]; omega) (by omega)
  obtain ⟨l₅, h₅, hl₅⟩ := hl₄.numberWhen hmp hlead (by simp only [List.length_append]; omega)
    (req.indexBase ≠ 0 ∧ (req.type = .update ∨ req.type = .upsert)) .indexBase
    req.indexBase.toInt64.toUInt64
  replace hl₅ : Lays l₅ _ req.rawEntries 4 := hl₅
  have hfew : req.rawEntries.length ≤ 8 := by
    simp only [Request.rawEntries, List.length_append]
    omega
  obtain ⟨header, v, start, stop, hframe, hframed⟩ := layFrame_ok hmp hl₅ hlead (by omega) hfew
    (by omega)
  refine .inr ⟨header, v, start, stop, ?_, hframed⟩
  simp only [Request.iovecs, h₁, h₂, h₃, h₄, Request.layIndexBase, h₅, hframe, ok_bind]
  rfl

theorem iovecs_ok (garbage : Nat → UInt8) {req : Request} (hvalid : req.Valid) :
    req.Refused ∧ req.iovecs mp garbage = .ok none ∨
      ∃ header v start stop, req.iovecs mp garbage = .ok (some (header, v)) ∧
        header.length = 128 ∧ v.length ≤ 10 ∧ stop ≤ 128 ∧ Contiguous stop start v ∧
        Framed (gather header v) (encodeHeaderMap req.type.id.toNat req.sync.toNat ++
          (mapHeader req.entries.length ++ encodeEntries req.entries)) := by
  rw [← hvalid.rawEntries_eq]
  exact iovecs_sized hmp garbage hvalid.sized

end Lawful

theorem entryWhen_sublist (when : Bool) (entry : BodyKey × Bytes) :
    List.Sublist ((entryWhen when entry).map Prod.fst) [entry.1] := by
  cases when <;> simp [entryWhen]

theorem keyEntries_sublist (req : Request) :
    ∃ field, List.Sublist (req.keyEntries.map Prod.fst) [field] ∧
      field ∈ [BodyKey.expression, .function, .key, .ops] := by
  unfold Request.keyEntries
  cases hentry : req.key.bind (Request.keyEntry req.type) with
  | none => exact ⟨.key, by simp, by decide⟩
  | some entry =>
      refine ⟨entry.1, by simp, ?_⟩
      obtain ⟨key, -, hentry⟩ := Option.bind_eq_some_iff.mp hentry
      unfold Request.keyEntry at hentry
      split at hentry <;> cases hentry <;> simp [textEntry]

theorem entries_nodup (req : Request) : (req.entries.map Prod.fst).Nodup := by
  obtain ⟨field, hkey, hfield⟩ := keyEntries_sublist req
  have htuple : List.Sublist (req.tupleEntries.map Prod.fst) [BodyKey.tuple] := by
    unfold Request.tupleEntries
    cases req.tuple <;> simp
  have hnumbers : List.Sublist (req.numbers.map Prod.fst)
      ([BodyKey.space] ++ [BodyKey.index] ++ [BodyKey.limit] ++ [BodyKey.offset] ++
        [BodyKey.iterator]) := by
    simp only [Request.numbers, List.map_append]
    exact ((((entryWhen_sublist _ _).append (entryWhen_sublist _ _)).append
      (entryWhen_sublist _ _)).append (entryWhen_sublist _ _)).append (entryWhen_sublist _ _)
  have hbase : List.Sublist (req.indexBaseEntries.map Prod.fst) [BodyKey.indexBase] :=
    entryWhen_sublist _ _
  have hsublist := ((hnumbers.append hkey).append htuple).append hbase
  simp only [← List.map_append] at hsublist
  apply hsublist.nodup
  simp only [List.mem_cons, List.not_mem_nil, or_false] at hfield
  rcases hfield with rfl | rfl | rfl | rfl <;> decide

theorem BodyKey.id_injective : Function.Injective fun field : BodyKey => field.id.toNat := by
  intro a b h
  cases a <;> cases b <;> first | rfl | exact absurd h (by decide)

/-- The scratch array and the parts of a request: the parts are few, those from the array follow
one another in it, and together they are a length prefix and as many bytes as it says, which are
decoded to the type and the number of the request and to fields of different keys. -/
structure WellLaid (req : Request) (header : Bytes) (v : List Part) : Prop where
  header_length : header.length = 128
  parts_le : v.length ≤ 10
  contiguous : ∃ start stop, stop ≤ 128 ∧ Contiguous stop start v
  framed : ∃ payload package, Framed (gather header v) payload ∧
    decodePackage payload = some package ∧ package.code = req.type.id.toNat ∧
    package.sync = req.sync.toNat ∧ (package.body.map Prod.fst).Nodup

theorem decodePackage_entries {req : Request} (hvalid : req.Valid) :
    decodePackage (encodeHeaderMap req.type.id.toNat req.sync.toNat ++
      (mapHeader req.entries.length ++ encodeEntries req.entries)) =
        some ⟨req.type.id.toNat, req.sync.toNat, req.entries.map readEntry⟩ := by
  have hcode : req.type.id.toNat < 2 ^ 64 := lt_trans req.type.id.toNat_lt (by decide)
  obtain ⟨hnumbers, hkeys, -, htuples, hbases⟩ := entries_length_le req
  have hcount : req.entries.length < 2 ^ 32 := by
    simp only [Request.entries, List.length_append]
    omega
  exact decodePackage_eq hcode req.sync.toNat_lt hcount (entries_isValue hvalid)

theorem wellLaid_of_iovecs (hmp : mp.Lawful) (garbage : Nat → UInt8) {req : Request}
    (hvalid : req.Valid) {header : Bytes} {v : List Part}
    (h : req.iovecs mp garbage = .ok (some (header, v))) : WellLaid req header v := by
  rcases iovecs_ok hmp garbage hvalid with ⟨-, hnone⟩ | ⟨header', v', start, stop, hiovecs, hlength,
    hparts, hstop, hcontiguous, hframed⟩
  · rw [hnone] at h
    cases h
  rw [hiovecs] at h
  cases h
  refine ⟨hlength, hparts, ⟨start, stop, hstop, hcontiguous⟩, _, _, hframed,
    decodePackage_entries hvalid, rfl, rfl, ?_⟩
  have hread : (req.entries.map readEntry).map Prod.fst =
      (req.entries.map Prod.fst).map fun field => field.id.toNat := by
    simp [readEntry]
  rw [hread]
  exact List.Nodup.map BodyKey.id_injective (entries_nodup req)

theorem beerRequestWriteout_framed (hmp : mp.Lawful) {σ : Type} (garbage : Nat → UInt8)
    (s : Stream σ) {req : Request} (hsized : req.Sized) (hkey : ¬req.Refused)
    (sync : Option UInt64) :
    ∃ (rv : Int) (s' : Stream σ) (req' : Request) (sync' : Option UInt64) (v : List Bytes),
      beerRequestWriteout mp garbage s req sync = .ok (rv, s', req', sync') ∧
      s'.handed = s.handed ++ [v] ∧
      Framed v.flatten (encodeHeaderMap req.type.id.toNat (requestNumber s sync).toNat ++
        (mapHeader req.rawEntries.length ++ encodeEntries req.rawEntries)) := by
  have hsized' : Request.Sized { req with sync := requestNumber s sync } :=
    ⟨hsized.key, hsized.tuple⟩
  rcases iovecs_sized hmp garbage hsized' with ⟨hrefused, -⟩ | ⟨header, v, start, stop, hiovecs, -,
    -, -, -, hframed⟩
  · exact absurd hrefused hkey
  unfold beerRequestWriteout
  simp only [hiovecs, ok_bind, pure_eq]
  split
  · exact ⟨_, _, _, _, _, rfl, rfl, hframed⟩
  · exact ⟨_, _, _, _, _, rfl, rfl, hframed⟩

/-- Every run of `beer_request_writeout` on a valid request ends without leaving its arrays, and
where it returns zero it has handed one well-formed frame to the stream. -/
theorem beerRequestWriteout_wellLaid (hmp : mp.Lawful) {σ : Type} (garbage : Nat → UInt8)
    (s : Stream σ) {req : Request} (hvalid : req.Valid) (sync : Option UInt64) :
    ∃ rv s' req' sync', beerRequestWriteout mp garbage s req sync = .ok (rv, s', req', sync') ∧
      (rv = 0 → ∃ header v, WellLaid { req with sync := requestNumber s sync } header v ∧
        s' = ({ s with reqid := requestNumber s sync + 1 }.send (v.map (Part.bytes header))).2) := by
  have hvalid' : Request.Valid { req with sync := requestNumber s sync } :=
    ⟨hvalid.key, hvalid.tuple⟩
  unfold beerRequestWriteout
  rcases iovecs_ok hmp garbage hvalid' with ⟨-, hnone⟩ | ⟨header, v, start, stop, hiovecs, -⟩
  · simp only [hnone, ok_bind, pure_eq]
    exact ⟨-1, _, _, sync, rfl, fun h => absurd h (by decide)⟩
  · have hlaid := wellLaid_of_iovecs hmp garbage hvalid' hiovecs
    simp only [hiovecs, ok_bind, pure_eq]
    split
    · exact ⟨-1, _, _, sync, rfl, fun h => absurd h (by decide)⟩
    · exact ⟨0, _, _, _, rfl, fun _ => ⟨header, v, hlaid, rfl⟩⟩

/-- The request for all tuples of a space. -/
def selectAll : Request := { type := .select, spaceId := 512, key := some [0x90] }

theorem beerRequestWriteout_wellLaid_selectAll :
    Msgpuck.reference.Lawful ∧ selectAll.Valid ∧
      ∃ rv s' req' sync', beerRequestWriteout .reference (fun _ => 0) (collecting 7) selectAll
          none = .ok (rv, s', req', sync') ∧
        (rv = 0 → ∃ header v, WellLaid { selectAll with sync := requestNumber (collecting 7) none }
            header v ∧
          s' = ({ collecting 7 with reqid := requestNumber (collecting 7) none + 1 }.send
            (v.map (Part.bytes header))).2) := by
  have hvalid : selectAll.Valid := by
    constructor <;> intro value h <;> cases h
    exact ⟨show IsValue [0x90] by decide, by decide⟩
  exact ⟨Msgpuck.reference_lawful, hvalid, beerRequestWriteout_wellLaid Msgpuck.reference_lawful
    (fun _ => 0) (collecting 7) hvalid none⟩

end BeeC
