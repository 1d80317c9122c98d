import BeeC.RequestPaths

namespace BeeC

open BeeC.Wire.Memory
open BeeC.Wire.Loop
open BeeC.Wire.Gather
open BeeC.Wire.MessagePack
open BeeC.Wire.Encoding

variable {mp : Msgpuck} {σ : Type}

/-- The package has the three fields of an upsert. -/
def Package.DescribesUpsert (p : Package) (space : UInt32) (tuple ops : Bytes) : Prop :=
  p.body.lookup BodyKey.space.id.toNat = some (.number space.toNat) ∧
    p.body.lookup BodyKey.tuple.id.toNat = some (.value tuple) ∧
    p.body.lookup BodyKey.ops.id.toNat = some (.value ops)

/-- What `beer_upsert` sends is decoded to an upsert with its arguments. -/
def DirectUpsert (mp : Msgpuck) (garbage : Nat → UInt8) (s : Stream σ) (space : UInt32)
    (tuple ops : ArrayObject) : Prop :=
  ∃ package, Sends (beerUpsert mp garbage s space tuple.object ops.object) s package ∧
    package.DescribesUpsert space tuple.bytes ops.bytes

/-- What is written for a `beer_request_upsert` with the three setters is decoded to an upsert
with their arguments. -/
def RequestUpsert (mp : Msgpuck) (garbage : Nat → UInt8) (s : Stream σ) (space : UInt32)
    (tuple ops : ArrayObject) : Prop :=
  ∃ req package, configure [(·.setSpace space), (·.setTuple tuple.object), (·.setOps ops.object)]
      (beerRequest .upsert) = some req ∧
    WritesOut (beerRequestWriteout mp garbage s req none) s package ∧
    package.DescribesUpsert space tuple.bytes ops.bytes

theorem mapOf_short {count : Nat} (hcount : count < 2 ^ 32) {entries : List (BodyKey × Bytes)}
    (h : ∀ entry ∈ entries, IsValue entry.2) (hshort : entries.length < count) :
    mapOf (mapHeader count ++ encodeEntries entries) = none := by
  have hvalues := isValue_of_mem_entries h
  have hlength : (unpair (entries.map entryPair)).length = 2 * entries.length := by simp
  cases hitems : items (2 * count) (encodeEntries entries) with
  | none => simp [mapOf, head_append (head_mapHeader hcount), hitems]
  | some p =>
      obtain ⟨xs, rest⟩ := p
      obtain ⟨hxs, hflatten, hxvalues⟩ := items_eq_some hitems
      have hskip := skip_flatten hxvalues rest
      rw [← hflatten, hxs] at hskip
      -- the entries there are leave nothing for the others
      obtain ⟨more, hmore⟩ : ∃ more, 2 * count = 2 * entries.length + (more + 1) :=
        ⟨2 * count - 2 * entries.length - 1, by omega⟩
      have hend := skip_flatten hvalues []
      rw [List.append_nil, hlength] at hend
      rw [hmore, skip_add, encodeEntries, hend, Option.bind_some, skip_succ] at hskip
      cases hskip

theorem not_directUpsert (hmp : mp.Lawful) (garbage : Nat → UInt8) (s : Stream σ)
    (space : UInt32) (tuple ops : ArrayObject) : ¬DirectUpsert mp garbage s space tuple ops := by
  rintro ⟨package, ⟨payload, hhands, hdecode⟩, -⟩
  have hentries : ∀ entry ∈ [numberEntry .space space.toUInt64, (.tuple, tuple.bytes),
      (.ops, ops.bytes)], IsValue entry.2 := by
    simp [isValue_numberEntry, tuple.isValue_bytes, ops.isValue_bytes]
  have hsent : Hands (beerUpsert mp garbage s space tuple.object ops.object) s
      (encodeHeaderMap RequestType.upsert.id.toNat s.reqid.toNat ++
        (mapHeader 4 ++ encodeEntries [numberEntry .space space.toUInt64, (.tuple, tuple.bytes),
          (.ops, ops.bytes)])) := by
    simp only [beerUpsert, tuple.verify hmp, ops.verify hmp, ok_bind, ne_eq, not_true_eq_false,
      if_false]
    have hbody : mapHeader 4 ++ encodeEntries [numberEntry .space space.toUInt64,
        (.tuple, tuple.bytes), (.ops, ops.bytes)] =
          [mp.mpEncodeMap 4, encodeKey mp .space, mp.mpEncodeUint space.toUInt64,
            encodeKey mp .tuple].flatten ++ tuple.bytes ++ encodeEntries [(.ops, ops.bytes)] := by
      simp [hmp.encodeMap_eq, encodeKey_eq hmp, hmp.encodeUint_eq, numberEntry]
    rw [hbody]
    refine hands_two hmp garbage .ops ?_ (by simp) tuple.bytes_length_lt ops.bytes_length_lt
    simp [encodeKey_length hmp, encodeUint32_length_le hmp, hmp.encodeMap_eq, mapHeader]
  rw [hhands.unique hsent] at hdecode
  have hheader := mapOf_encodeHeaderMap (show RequestType.upsert.id.toNat < 2 ^ 64 by decide)
    s.reqid.toNat_lt
  have hnone := mapOf_short (show 4 < 2 ^ 32 by decide) hentries (by simp)
  simp only [decodePackage, hheader, hnone] at hdecode
  cases hdecode

theorem not_requestUpsert (hmp : mp.Lawful) (garbage : Nat → UInt8) (s : Stream σ)
    (space : UInt32) (tuple ops : ArrayObject) : ¬RequestUpsert mp garbage s space tuple ops := by
  rintro ⟨req, package, hconfigure, hwrites, hspace, -⟩
  have hreq : req = ⟨0, .upsert, space, 0, 0, 0xffffffff, 0, some ops.bytes, some tuple.bytes, 0⟩ := by
    simpa [configure, beerRequest, Request.setSpace, Request.setTuple, Request.setOps,
      ArrayObject.span_eq, eq_comm] using hconfigure
  have hvalid : req.Valid := by
    subst hreq
    constructor <;> intro value h <;> cases h
    · exact ⟨ops.isValue_bytes, ops.bytes_length_lt⟩
    · exact ⟨tuple.isValue_bytes, tuple.bytes_length_lt⟩
  have hrefused : ¬req.Refused := by
    rintro ⟨key, hkey, hentry⟩
    subst hreq
    cases hkey
    cases hentry
  rw [hwrites.unique (beerRequestWriteout_writesOut hmp garbage s hvalid hrefused)] at hspace
  subst hreq
  simp [Request.entries, Request.numbers, Request.keyEntries, Request.keyEntry,
    Request.tupleEntries, Request.indexBaseEntries, entryWhen, RequestType.id, BodyKey.id,
    readEntry, List.lookup_cons] at hspace

/-- No upsert is sent as a request with its space, tuple and operations, on either path. -/
theorem upsert_incomplete (hmp : mp.Lawful) (garbage : Nat → UInt8) (s : Stream σ)
    (space : UInt32) (tuple ops : ArrayObject) :
    ¬DirectUpsert mp garbage s space tuple ops ∧ ¬RequestUpsert mp garbage s space tuple ops :=
  ⟨not_directUpsert hmp garbage s space tuple ops, not_requestUpsert hmp garbage s space tuple ops⟩

theorem upsert_incomplete_empty :
    Msgpuck.reference.Lawful ∧
      ¬DirectUpsert .reference (fun _ => 0) (collecting 1) 512 .empty .empty ∧
      ¬RequestUpsert .reference (fun _ => 0) (collecting 1) 512 .empty .empty :=
  ⟨Msgpuck.reference_lawful, upsert_incomplete Msgpuck.reference_lawful (fun _ => 0)
    (collecting 1) 512 .empty .empty⟩

/-- An upsert of an empty tuple with no operations into the space 512. -/
theorem not_upsert_empty :
    ¬(DirectUpsert .reference (fun _ => 0) (collecting 1) 512 .empty .empty ∧
      RequestUpsert .reference (fun _ => 0) (collecting 1) 512 .empty .empty) :=
  fun h => not_directUpsert Msgpuck.reference_lawful _ _ _ _ _ h.1

end BeeC
