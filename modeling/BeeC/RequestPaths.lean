import BeeC.RequestLayout

namespace BeeC

open BeeC.Wire.Memory
open BeeC.Wire.Loop
open BeeC.Wire.Gather
open BeeC.Wire.MessagePack
open BeeC.Wire.Encoding

variable {mp : Msgpuck} {σ : Type}

/-- Make the calls of some setters, if all of them return zero. -/
def configure : List (Request → Int × Request) → Request → Option Request
  | [], req => some req
  | set :: sets, req => if (set req).1 = 0 then configure sets (set req).2 else none

/-- The setters that are given the arguments of a call. -/
def DirectCall.setters : DirectCall → List (Request → Int × Request)
  | ping => []
  | select space index limit offset iterator key =>
      [(·.setSpace space), (·.setIndex index), (·.setLimit limit), (·.setOffset offset),
        (·.setIterator iterator.toUInt32), (·.setKey key.object)]
  | insert space tuple | replace space tuple => [(·.setSpace space), (·.setTuple tuple.object)]
  | delete space index key => [(·.setSpace space), (·.setIndex index), (·.setKey key.object)]
  | update space index key ops =>
      [(·.setSpace space), (·.setIndex index), (·.setKey key.object), (·.setOps ops.object)]
  | call proc args | call16 proc args =>
      [(·.setFunc (some proc.bytes)), (·.setTuple args.object)]
  | eval expr args => [(·.setExpr (some expr.bytes)), (·.setTuple args.object)]

/-- A run of `beer_request_writeout` without a place for the number hands the parts of one frame
to the stream, leaves the next request number behind, and the payload of the frame is decoded to
the given package. -/
def WritesOut (run : Except Fault (Int × Stream σ × Request × Option UInt64)) (s : Stream σ)
    (package : Package) : Prop :=
  ∃ rv req v payload,
    run = .ok (rv, ({ s with reqid := s.reqid + 1 }.send v).2, req, none) ∧
    Framed v.flatten payload ∧ decodePackage payload = some package

theorem WritesOut.unique {run : Except Fault (Int × Stream σ × Request × Option UInt64)}
    {s : Stream σ} {package package' : Package} (h : WritesOut run s package)
    (h' : WritesOut run s package') : package = package' := by
  obtain ⟨rv, req, v, payload, hrun, hframed, hdecode⟩ := h
  obtain ⟨rv', req', v', payload', hrun', hframed', hdecode'⟩ := h'
  rw [hrun, Except.ok.injEq, Prod.mk.injEq, Prod.mk.injEq] at hrun'
  rw [Stream.send_inj hrun'.2.1] at hframed
  rw [hframed.unique hframed', hdecode', Option.some.injEq] at hdecode
  exact hdecode.symm

/-- The keys that are read as zero where they are absent. -/
def defaultKeys : List Nat :=
  [BodyKey.index.id.toNat, BodyKey.offset.id.toNat, BodyKey.iterator.id.toNat]

/-- What a server reads for a key of the body. -/
def fieldAt (body : List (Nat × Field)) (key : Nat) : Option Field :=
  match body.lookup key with
  | some field => some field
  | none => if key ∈ defaultKeys then some (.number 0) else none

/-- A server reads the two packages alike. -/
def Alike (p p' : Package) : Prop :=
  p.code = p'.code ∧ p.sync = p'.sync ∧ ∀ key, fieldAt p.body key = fieldAt p'.body key

theorem fieldAt_cons (entry : Nat × Field) (body : List (Nat × Field)) (key : Nat) :
    fieldAt (entry :: body) key = if key = entry.1 then some entry.2 else fieldAt body key := by
  obtain ⟨found, field⟩ := entry
  by_cases hkey : key = found
  · simp [fieldAt, hkey]
  · have hbeq : (key == found) = false := by simpa using hkey
    simp [fieldAt, List.lookup_cons, hbeq, hkey]

theorem fieldAt_cons_congr (entry : Nat × Field) {body body' : List (Nat × Field)}
    (h : ∀ key, fieldAt body key = fieldAt body' key) (key : Nat) :
    fieldAt (entry :: body) key = fieldAt (entry :: body') key := by
  rw [fieldAt_cons, fieldAt_cons, h]

theorem fieldAt_entryWhen {field : BodyKey} (hdefault : field.id.toNat ∈ defaultKeys)
    {n : UInt64} {when : Bool} (hwhen : when = false → n = 0) {body body' : List (Nat × Field)}
    (habsent : body'.lookup field.id.toNat = none)
    (h : ∀ key, fieldAt body key = fieldAt body' key) (key : Nat) :
    fieldAt ((field.id.toNat, .number n.toNat) :: body) key =
      fieldAt ((entryWhen when (numberEntry field n)).map readEntry ++ body') key := by
  rw [fieldAt_cons]
  cases when with
  | true =>
      simp only [entryWhen, if_true, List.map_cons, readEntry_numberEntry, List.map_nil,
        List.singleton_append, fieldAt_cons, h]
  | false =>
      rw [hwhen rfl]
      by_cases hkey : key = field.id.toNat
      · simp [entryWhen, hkey, fieldAt, habsent, hdefault]
      · simp [entryWhen, hkey, h]

theorem ArrayObject.span_eq (a : ArrayObject) : Request.span a.object = some a.bytes := by
  have hpos := a.isValue.length_pos
  unfold Request.span
  cases hdata : a.object.data with
  | none => simp [Object.contents, hdata] at hpos
  | some mem => rfl

/-- The request that the setters for a call fill in. -/
def DirectCall.request : DirectCall → Request
  | ping => { type := .ping }
  | select space index limit offset iterator key =>
      { type := .select, spaceId := space, indexId := index, limit, offset,
        iterator := iterator.toUInt32, key := some key.bytes }
  | insert space tuple => { type := .insert, spaceId := space, tuple := some tuple.bytes }
  | replace space tuple => { type := .replace, spaceId := space, tuple := some tuple.bytes }
  | delete space index key =>
      { type := .delete, spaceId := space, indexId := index, key := some key.bytes }
  | update space index key ops =>
      { type := .update, spaceId := space, indexId := index, key := some key.bytes,
        tuple := some ops.bytes }
  | call proc args => { type := .call, key := some proc.bytes, tuple := some args.bytes }
  | call16 proc args => { type := .call16, key := some proc.bytes, tuple := some args.bytes }
  | eval expr args => { type := .eval, key := some expr.bytes, tuple := some args.bytes }

theorem DirectCall.configure_eq (call : DirectCall) :
    configure call.setters (beerRequest call.op) = some call.request := by
  have hspan := ArrayObject.span_eq
  cases call <;>
    simp [setters, configure, request, op, beerRequest, Request.setSpace, Request.setIndex,
      Request.setLimit, Request.setOffset, Request.setIterator, Request.setKey, Request.setTuple,
      Request.setOps, Request.setFunc, Request.setExpr, isCall, hspan]

theorem DirectCall.request_valid (call : DirectCall) : call.request.Valid := by
  have hvalue := ArrayObject.isValue_bytes
  have hlength := ArrayObject.bytes_length_lt
  constructor
  · intro key hkey
    cases call with
    | call proc args | call16 proc args | eval proc args =>
        cases hkey
        have hproc := proc.length_lt
        exact ⟨hproc, lt_trans hproc (by decide)⟩
    | _ => cases hkey <;> exact ⟨hvalue _, hlength _⟩
  · intro tuple htuple
    cases call <;> cases htuple <;> exact ⟨hvalue _, hlength _⟩

theorem lookup_entryWhen {field found : BodyKey} (h : found ≠ field) (when : Bool) (n : UInt64)
    (body : List (Nat × Field)) :
    ((entryWhen when (numberEntry field n)).map readEntry ++ body).lookup found.id.toNat =
      body.lookup found.id.toNat := by
  have hbeq : (found.id.toNat == field.id.toNat) = false :=
    beq_eq_false_iff_ne.mpr fun heq => h (BodyKey.id_injective heq)
  cases when <;> simp [entryWhen, List.lookup_cons, hbeq]

theorem entryWhen_zero {n : UInt32} (h : decide (n ≠ 0) = false) : n.toUInt64 = 0 := by
  simp only [ne_eq, decide_not, Bool.not_eq_false', decide_eq_true_eq] at h
  rw [h]
  rfl

theorem DirectCall.fieldAt_request (call : DirectCall) :
    ∀ key, fieldAt (call.entries.map readEntry) key =
      fieldAt (call.request.entries.map readEntry) key := by
  cases call with
  | ping => exact fun _ => rfl
  | select space index limit offset iterator key =>
      have hiterator : iterator.toUInt64 = iterator.toUInt32.toUInt64 := by simp
      have hentries : (select space index limit offset iterator key).request.entries =
          numberEntry .space space.toUInt64 ::
            (entryWhen (index ≠ 0) (numberEntry .index index.toUInt64) ++
              (numberEntry .limit limit.toUInt64 ::
                (entryWhen (offset ≠ 0) (numberEntry .offset offset.toUInt64) ++
                  (entryWhen (iterator.toUInt32 ≠ 0)
                    (numberEntry .iterator iterator.toUInt32.toUInt64) ++
                      [(.key, key.bytes)])))) := by
        simp [request, Request.entries, Request.numbers, Request.keyEntries, Request.keyEntry,
          Request.tupleEntries, Request.indexBaseEntries, entryWhen, RequestType.id]
      rw [hentries, entries, hiterator]
      simp only [List.map_cons, List.map_append, readEntry_numberEntry, List.map_nil]
      refine fieldAt_cons_congr _ (fieldAt_entryWhen (by decide) entryWhen_zero ?_ ?_)
      · exact (lookup_entryWhen (by decide) _ _ _).trans (lookup_entryWhen (by decide) _ _ _)
      refine fieldAt_cons_congr _ (fieldAt_entryWhen (by decide) entryWhen_zero ?_ ?_)
      · exact lookup_entryWhen (by decide) _ _ _
      exact fieldAt_entryWhen (by decide) entryWhen_zero rfl fun _ => rfl
  | insert space tuple | replace space tuple =>
      intro key
      simp [entries, request, Request.entries, Request.numbers, Request.keyEntries,
        Request.tupleEntries, Request.indexBaseEntries, entryWhen, RequestType.id]
  | delete space index key =>
      have hentries : (delete space index key).request.entries =
          numberEntry .space space.toUInt64 ::
            (entryWhen (index ≠ 0) (numberEntry .index index.toUInt64) ++ [(.key, key.bytes)]) := by
        simp [request, Request.entries, Request.numbers, Request.keyEntries, Request.keyEntry,
          Request.tupleEntries, Request.indexBaseEntries, entryWhen, RequestType.id]
      rw [hentries, entries]
      simp only [List.map_cons, List.map_append, readEntry_numberEntry, List.map_nil]
      exact fieldAt_cons_congr _ (fieldAt_entryWhen (by decide) entryWhen_zero rfl fun _ => rfl)
  | update space index key ops =>
      have hentries : (update space index key ops).request.entries =
          numberEntry .space space.toUInt64 ::
            (entryWhen (index ≠ 0) (numberEntry .index index.toUInt64) ++
              [(.key, key.bytes), (.tuple, ops.bytes)]) := by
        simp [request, Request.entries, Request.numbers, Request.keyEntries, Request.keyEntry,
          Request.tupleEntries, Request.indexBaseEntries, entryWhen, RequestType.id]
      rw [hentries, entries]
      simp only [List.map_cons, List.map_append, readEntry_numberEntry, List.map_nil]
      exact fieldAt_cons_congr _ (fieldAt_entryWhen (by decide) entryWhen_zero rfl fun _ => rfl)
  | call proc args | call16 proc args | eval proc args =>
      intro key
      simp [entries, request, Request.entries, Request.numbers, Request.keyEntries,
        Request.keyEntry, Request.tupleEntries, Request.indexBaseEntries, entryWhen,
        RequestType.id]

theorem beerRequestWriteout_writesOut (hmp : mp.Lawful) (garbage : Nat → UInt8) (s : Stream σ)
    {req : Request} (hvalid : req.Valid) (hkey : ¬req.Refused) :
    WritesOut (beerRequestWriteout mp garbage s req none) s
      ⟨req.type.id.toNat, s.reqid.toNat, req.entries.map readEntry⟩ := by
  have hvalid' : Request.Valid { req with sync := s.reqid } := ⟨hvalid.key, hvalid.tuple⟩
  have hnumber : requestNumber s none = s.reqid := if_neg (by simp)
  rcases iovecs_ok hmp garbage hvalid' with ⟨hrefused, -⟩ | ⟨header, v, start, stop, hiovecs, -, -,
    -, -, hframed⟩
  · exact absurd hrefused hkey
  have hdecode := decodePackage_entries hvalid'
  unfold beerRequestWriteout
  simp only [hnumber, hiovecs, ok_bind, pure_eq]
  split
  · exact ⟨_, _, _, _, rfl, hframed, hdecode⟩
  · exact ⟨_, _, _, _, rfl, hframed, hdecode⟩

theorem DirectCall.request_type (call : DirectCall) : call.request.type = call.op := by
  cases call <;> rfl

theorem DirectCall.request_not_refused (call : DirectCall) : ¬call.request.Refused := by
  rintro ⟨key, hkey, hentry⟩
  cases call <;> cases hkey <;> cases hentry

/-- For every call and every state of the stream, the builder and the request object configured
with the same values send frames that are read alike, and leave the same number behind. -/
theorem DirectCall.paths_agree (hmp : mp.Lawful) (garbage garbage' : Nat → UInt8) (s : Stream σ)
    (call : DirectCall) :
    ∃ req package package', configure call.setters (beerRequest call.op) = some req ∧
      Sends (call.run mp garbage s) s package ∧
      WritesOut (beerRequestWriteout mp garbage' s req none) s package' ∧
      Alike package package' :=
  ⟨call.request, _, _, call.configure_eq, call.run_entries hmp garbage s,
    beerRequestWriteout_writesOut hmp garbage' s call.request_valid call.request_not_refused,
    by rw [call.request_type], rfl, call.fieldAt_request⟩

theorem DirectCall.paths_agree_select :
    Msgpuck.reference.Lawful ∧
      ∃ req package package',
        configure (DirectCall.select 512 0 10 0 2 .empty).setters (beerRequest .select) =
          some req ∧
        Sends ((DirectCall.select 512 0 10 0 2 .empty).run .reference (fun _ => 0)
          (collecting 7)) (collecting 7) package ∧
        WritesOut (beerRequestWriteout .reference (fun _ => 1) (collecting 7) req none)
          (collecting 7) package' ∧
        Alike package package' :=
  ⟨Msgpuck.reference_lawful, DirectCall.paths_agree Msgpuck.reference_lawful (fun _ => 0)
    (fun _ => 1) (collecting 7) (.select 512 0 10 0 2 .empty)⟩

end BeeC
