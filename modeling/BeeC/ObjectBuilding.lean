import BeeC.Object

/-!
Building a value tree call by call. As long as the stack of open containers does not grow, the
buffer gains exactly the encoding of the tree, with the number of a map's pairs taken modulo
`2 ^ 31`. Once the stack grows, the outermost container has lost its kind and its count.
-/

namespace BeeC

open BeeC.Wire
open BeeC.Wire.Memory
open BeeC.Wire.MessagePack
open BeeC.Wire.Encoding

mutual

/-- The calls that emit a tree in order: each container is closed after its last child. The size
that is passed for a container depends on the path to it. -/
def calls (hint : List Nat → UInt32) : Value → List ObjectCall
  | .nil => [.addNil]
  | .bool value => [.addBool value]
  | .uint value => [.addUint value]
  | .int value => [.addInt value]
  | .float bits => [.addFloat bits]
  | .double bits => [.addDouble bits]
  | .str text => [.addStr text]
  | .bin data => [.addBin data]
  | .array elements =>
      .addArray (hint []) :: (elementCalls hint 0 elements ++ [.containerClose])
  | .map pairs => .addMap (hint []) :: (pairCalls hint 0 pairs ++ [.containerClose])

def elementCalls (hint : List Nat → UInt32) (index : Nat) : List Value → List ObjectCall
  | [] => []
  | x :: xs => calls (fun path => hint (index :: path)) x ++ elementCalls hint (index + 1) xs

def pairCalls (hint : List Nat → UInt32) (index : Nat) : List (Value × Value) → List ObjectCall
  | [] => []
  | (key, value) :: ps =>
      calls (fun path => hint (index :: path)) key ++
        (calls (fun path => hint ((index + 1) :: path)) value ++ pairCalls hint (index + 2) ps)

end

theorem pairCalls_eq (hint : List Nat → UInt32) (index : Nat) (ps : List (Value × Value)) :
    pairCalls hint index ps = elementCalls hint index (unpair ps) := by
  induction ps generalizing index with
  | nil => rfl
  | cons p ps ih => rw [pairCalls, unpair_cons, elementCalls, elementCalls, ih]

theorem perform_append (mp : Msgpuck) (first second : List ObjectCall) (o : Object) :
    Object.perform mp (first ++ second) o =
      (Object.perform mp first o).bind (Object.perform mp second) := by
  induction first generalizing o with
  | nil => rfl
  | cons call first ih =>
      simp only [List.cons_append, Object.perform]
      split
      · split
        · rfl
        · exact ih _
      · rfl

theorem perform_cons {mp : Msgpuck} {call : ObjectCall} {calls : List ObjectCall} {o o' : Object}
    {rv : Ssize} (hcall : call.run mp o = .ok (rv, o')) (hrv : rv ≠ -1) :
    Object.perform mp (call :: calls) o = Object.perform mp calls o' := by
  simp only [Object.perform, hcall, hrv, ite_false]

theorem perform_cons_eq_some {mp : Msgpuck} {call : ObjectCall} {calls : List ObjectCall}
    {o o'' : Object} (h : Object.perform mp (call :: calls) o = some o'') :
    ∃ rv o', call.run mp o = .ok (rv, o') ∧ rv ≠ -1 ∧
      Object.perform mp calls o' = some o'' := by
  simp only [Object.perform] at h
  split at h
  · rename_i rv o' hcall
    split at h
    · cases h
    · exact ⟨rv, o', hcall, ‹_›, h⟩
  · cases h

/-- What an object under construction amounts to: the bytes in use, the open containers with the
innermost first, the mode, and the room on the stack. -/
structure Draft where
  bytes : Bytes
  stack : List SboStack
  type : SboType
  stackAlloc : Nat

/-- The object is in the state of the draft. -/
structure Object.Drafts (o : Object) (d : Draft) : Prop where
  contents_eq : o.contents = d.bytes
  size_eq : o.size = d.bytes.length
  as_eq : o.as = false
  stack_eq : o.stack = d.stack
  type_eq : o.type = d.type
  stackAlloc_eq : o.stackAlloc = d.stackAlloc

/-- One more child of the innermost container. -/
def bump (stack : List SboStack) (count : Nat) : List SboStack :=
  match stack with
  | [] => []
  | top :: rest => { top with size := top.size + UInt32.ofNat count } :: rest

@[simp] theorem bump_length (stack : List SboStack) (count : Nat) :
    (bump stack count).length = stack.length := by
  cases stack <;> rfl

/-- The calls succeed in every object in the first state, and leave it in the second. -/
def Builds (mp : Msgpuck) (calls : List ObjectCall) (d d' : Draft) : Prop :=
  ∀ o : Object, o.Drafts d → ∃ o', Object.perform mp calls o = some o' ∧ o'.Drafts d'

theorem Builds.append {mp : Msgpuck} {first second : List ObjectCall} {d d' d'' : Draft}
    (h : Builds mp first d d') (h' : Builds mp second d' d'') :
    Builds mp (first ++ second) d d'' := by
  intro o ho
  obtain ⟨o', hfirst, ho'⟩ := h o ho
  obtain ⟨o'', hsecond, ho''⟩ := h' o' ho'
  exact ⟨o'', by rw [perform_append, hfirst, Option.bind_some, hsecond], ho''⟩

theorem Builds.single {mp : Msgpuck} {call : ObjectCall} {d d' : Draft}
    (h : ∀ o : Object, o.Drafts d →
      ∃ rv o', call.run mp o = .ok (rv, o') ∧ rv ≠ -1 ∧ o'.Drafts d') :
    Builds mp [call] d d' := by
  intro o ho
  obtain ⟨rv, o', hcall, hrv, ho'⟩ := h o ho
  exact ⟨o', by rw [perform_cons hcall hrv, Object.perform], ho'⟩

section Operations

variable {o : Object} {d : Draft}

theorem Object.Drafts.data_eq (h : o.Drafts d) : ∃ room, o.data.getD [] = d.bytes ++ room :=
  ⟨(o.data.getD []).drop o.size, by rw [← h.contents_eq, Object.contents, List.take_append_drop]⟩

theorem Object.Drafts.of_data {room : Bytes} (hdata : o.data = some (d.bytes ++ room))
    (hsize : o.size = d.bytes.length) (has : o.as = false) (hstack : o.stack = d.stack)
    (htype : o.type = d.type) (halloc : o.stackAlloc = d.stackAlloc) : o.Drafts d :=
  ⟨by rw [Object.contents, hdata, Option.getD_some, hsize, List.take_left], hsize, has, hstack,
    htype, halloc⟩

theorem Object.Drafts.resize (h : o.Drafts d) {more : Nat} (hmore : 0 < more) :
    ∃ o' room, o.resize more = .ok o' ∧ o'.data = some (d.bytes ++ room) ∧
      more ≤ room.length ∧ o'.Drafts d := by
  obtain ⟨room, hdata⟩ := h.data_eq
  have halloc : o.alloc = d.bytes.length + room.length := by
    rw [Object.alloc, hdata, List.length_append]
  by_cases hroom : o.alloc < o.size + more
  · refine ⟨{ o with data := some (o.data.getD [] ++
      List.replicate (max (2 * o.alloc) (o.size + more) - o.alloc) 0) },
      room ++ List.replicate (max (2 * o.alloc) (o.size + more) - o.alloc) 0, ?_, ?_, ?_, ?_⟩
    · simp [Object.resize, hroom, h.as_eq]
    · simp [hdata]
    · have hsize := h.size_eq
      simp only [List.length_append, List.length_replicate]
      omega
    · exact .of_data (by rw [hdata, List.append_assoc]) h.size_eq h.as_eq h.stack_eq h.type_eq
        h.stackAlloc_eq
  · have hsize := h.size_eq
    cases hblock : o.data with
    | none =>
        simp only [hblock, Object.alloc, Option.getD_none, List.length_nil] at hroom
        omega
    | some mem =>
        rw [hblock, Option.getD_some] at hdata
        refine ⟨o, room, by simp [Object.resize, hroom], by rw [hblock, hdata], by omega, h⟩

theorem Object.Drafts.write (h : o.Drafts d) {buf : Bytes} (hbuf : 0 < buf.length) :
    ∃ rv o', o.write buf = .ok (rv, o') ∧ rv ≠ -1 ∧
      o'.Drafts { d with bytes := d.bytes ++ buf } := by
  obtain ⟨o₁, room, hresize, hdata, hroom, h₁⟩ := h.resize hbuf
  have hold : (room.take buf.length).length = buf.length := by rw [List.length_take]; omega
  have hpoke : poke (d.bytes ++ room) o₁.size buf =
      some (d.bytes ++ (buf ++ room.drop buf.length)) := by
    rw [h₁.size_eq, ← List.take_append_drop buf.length room, poke_append hold,
      List.take_append_drop]
  have hwrite : o.write buf = .ok ((buf.length : Nat),
      { o₁ with
        data := some (d.bytes ++ (buf ++ room.drop buf.length))
        size := o₁.size + buf.length
        wrcnt := o₁.wrcnt + 1 }) := by
    simp [Object.write, h.as_eq, hresize, hdata, Object.store, hpoke, bind, Except.bind, pure,
      Except.pure]
  have hrv : ((buf.length : Nat) : Int) ≠ -1 := by omega
  exact ⟨_, _, hwrite, hrv, .of_data (by rw [List.append_assoc]) (by simp [h₁.size_eq])
    h₁.as_eq h₁.stack_eq h₁.type_eq h₁.stackAlloc_eq⟩

theorem Object.Drafts.countChild (h : o.Drafts d) :
    o.countChild.Drafts { d with stack := bump d.stack 1 } := by
  obtain ⟨hcontents, hsize, has, hstack, htype, halloc⟩ := h
  unfold Object.countChild
  split
  · rename_i hnil
    exact ⟨hcontents, hsize, has, by rw [hnil, ← hstack, hnil]; rfl, htype, halloc⟩
  · rename_i top rest hcons
    exact ⟨hcontents, hsize, has, by rw [← hstack, hcons]; rfl, htype, halloc⟩

theorem Object.Drafts.addBytes (h : o.Drafts d) {bytes : Bytes} (hbytes : 0 < bytes.length) :
    ∃ rv o', o.addBytes bytes = .ok (rv, o') ∧ rv ≠ -1 ∧
      o'.Drafts { d with bytes := d.bytes ++ bytes, stack := bump d.stack 1 } :=
  h.countChild.write hbytes

theorem Object.Drafts.store (h : o.Drafts d) {before old after data : Bytes}
    (hbytes : d.bytes = before ++ (old ++ after)) (hold : old.length = data.length)
    (hdata : 0 < data.length) :
    ∃ o', o.store before.length data = .ok o' ∧
      o'.Drafts { d with bytes := before ++ (data ++ after) } := by
  obtain ⟨room, hblock⟩ := h.data_eq
  cases hsome : o.data with
  | none =>
      have hlength := congrArg List.length hblock
      rw [hsome, hbytes] at hlength
      simp only [Option.getD_none, List.length_nil, List.length_append] at hlength
      omega
  | some mem =>
      rw [hsome, Option.getD_some, hbytes, List.append_assoc, List.append_assoc] at hblock
      have hpoke : poke mem before.length data = some (before ++ (data ++ (after ++ room))) := by
        rw [hblock, poke_append hold]
      refine ⟨{ o with data := some (before ++ (data ++ (after ++ room))) },
        by simp [Object.store, hsome, hpoke], ?_⟩
      have hblock' : some (before ++ (data ++ (after ++ room))) =
          some ((before ++ (data ++ after)) ++ room) := by simp only [List.append_assoc]
      exact .of_data hblock' (by simp [h.size_eq, hbytes, hold]) h.as_eq h.stack_eq h.type_eq
        h.stackAlloc_eq

end Operations

/-- The header that a container gets when it is closed. -/
def closingHeader (type : SboType) (kind : Kind) (size : UInt32) : Bytes :=
  match type with
  | .sparse =>
      if kind = .map then mapHeader32 (size / 2).toNat else arrayHeader32 size.toNat
  | _ => if kind = .map then mapHeader (size / 2).toNat else arrayHeader size.toNat

theorem arrayHeader_length_pos (count : Nat) : 0 < (Encoding.arrayHeader count).length := by
  unfold arrayHeader
  repeat' split
  all_goals simp

theorem mapHeader_length_pos (count : Nat) : 0 < (mapHeader count).length := by
  unfold mapHeader
  repeat' split
  all_goals simp

/-- The array header of a mode. -/
def SboType.arrayHeader : SboType → Nat → Bytes
  | sparse => arrayHeader32
  | _ => Encoding.arrayHeader

/-- The map header of a mode. -/
def SboType.mapHeader : SboType → Nat → Bytes
  | sparse => mapHeader32
  | _ => Encoding.mapHeader

/-- The encoding of a tree that a mode stands for: canonical, or canonical but for five-byte
headers. -/
def encodeFor (type : SboType) (v : Value) : Bytes :=
  v.encodeWith type.arrayHeader type.mapHeader

/-- What the builder counts: the pairs of a map modulo `2 ^ 31`. -/
def encodeCounted (type : SboType) (v : Value) : Bytes :=
  v.encodeWith type.arrayHeader fun count => type.mapHeader (count % 2 ^ 31)

theorem encodeCounted_array (type : SboType) (elements : List Value) :
    encodeCounted type (.array elements) =
      type.arrayHeader elements.length ++ (elements.map (encodeCounted type)).flatten := by
  rw [encodeCounted, Value.encodeWith, Value.encodeElements_eq]
  rfl

theorem encodeCounted_map (type : SboType) (pairs : List (Value × Value)) :
    encodeCounted type (.map pairs) = type.mapHeader (pairs.length % 2 ^ 31) ++
      ((unpair pairs).map (encodeCounted type)).flatten := by
  rw [encodeCounted, Value.encodeWith, Value.encodePairs_eq, Value.encodeElements_eq]
  rfl

theorem closingHeader_array (type : SboType) {count : Nat} (h : count < 2 ^ 32) :
    closingHeader type .array (UInt32.ofNat count) = type.arrayHeader count := by
  have hcount : (UInt32.ofNat count).toNat = count := UInt32.toNat_ofNat_of_lt' h
  cases type <;> simp only [closingHeader, reduceCtorEq, ite_false, hcount] <;> rfl

theorem closingHeader_map (type : SboType) (count : Nat) :
    closingHeader type .map (UInt32.ofNat (2 * count)) = type.mapHeader (count % 2 ^ 31) := by
  have hcount : (UInt32.ofNat (2 * count) / 2).toNat = count % 2 ^ 31 := by
    rw [UInt32.toNat_div, UInt32.toNat_ofNat']
    simp only [UInt32.reduceToNat]
    omega
  cases type <;> simp only [closingHeader, ite_true, hcount] <;> rfl

theorem closingHeader_length_pos (type : SboType) (kind : Kind) (size : UInt32) :
    0 < (closingHeader type kind size).length := by
  unfold closingHeader
  repeat' split
  all_goals
    first
    | exact arrayHeader_length_pos _
    | exact mapHeader_length_pos _
    | simp [mapHeader32, arrayHeader32]

section Containers

variable {mp : Msgpuck} (hmp : mp.Lawful) {o : Object} {d : Draft}

include hmp

omit hmp in
theorem Object.Drafts.addContainer (h : o.Drafts d) (hroom : d.stack.length ≠ d.stackAlloc)
    {kind : Kind} {header : SboType → Bytes}
    (hheader : header d.type = closingHeader d.type kind 0) :
    ∃ rv o', o.addContainer kind header = .ok (rv, o') ∧ rv ≠ -1 ∧
      o'.Drafts { d with
        bytes := d.bytes ++ closingHeader d.type kind 0
        stack := ⟨d.bytes.length, 0, kind⟩ :: bump d.stack 1 } := by
  obtain ⟨hcontents, hsize, has, hstack, htype, halloc⟩ := h.countChild
  have hfree : o.countChild.stack.length ≠ o.countChild.stackAlloc := by
    rw [show o.countChild.stack = bump d.stack 1 from hstack,
      show o.countChild.stackAlloc = d.stackAlloc from halloc, bump_length]
    exact hroom
  have hheader' : header o.countChild.type = closingHeader d.type kind 0 := by
    rw [show o.countChild.type = d.type from htype, hheader]
  have hpushed : Object.Drafts
      { o.countChild with
        stack := ⟨o.countChild.size, 0, kind⟩ :: o.countChild.stack }
      { d with stack := ⟨d.bytes.length, 0, kind⟩ :: bump d.stack 1 } :=
    ⟨hcontents, hsize, has, by rw [hstack, hsize], htype, halloc⟩
  have hwritten := hpushed.write (closingHeader_length_pos d.type kind 0)
  simp only [Object.addContainer, hfree, ite_false, hheader']
  exact hwritten

theorem sparseHeader_eq (kind : Kind) (size : UInt32) :
    (if kind = .map then mpEncodeMap32 mp (size / 2) else mpEncodeArray32 mp size) =
      closingHeader .sparse kind size := by
  simp only [mpEncodeMap32, mpEncodeArray32, hmp.storeU8_eq, hmp.storeU32_eq, closingHeader]
  rfl

theorem packedHeader_eq (kind : Kind) (size : UInt32) :
    (if kind = .map then mp.mpEncodeMap (size / 2) else mp.mpEncodeArray size) =
      closingHeader .packed kind size := by
  simp only [hmp.encodeMap_eq, hmp.encodeArray_eq, closingHeader]

theorem packedHeader_length (kind : Kind) (size : UInt32) :
    (if kind = .map then mp.mpSizeofMap (size / 2) else mp.mpSizeofArray size) =
      (closingHeader .packed kind size).length := by
  simp only [hmp.sizeofMap_eq, hmp.sizeofArray_eq, closingHeader]
  split <;> rfl

theorem Object.Drafts.containerClose (h : o.Drafts d) (hmode : d.type ≠ .simple)
    {before elements : Bytes} {size : UInt32} {kind : Kind} {rest : List SboStack}
    (hstack : d.stack = ⟨before.length, size, kind⟩ :: rest)
    (hbytes : d.bytes = before ++ (closingHeader d.type kind 0 ++ elements))
    (heven : kind = .map → size % 2 = 0) :
    ∃ rv o', o.containerClose mp = .ok (rv, o') ∧ rv ≠ -1 ∧
      o'.Drafts { d with
        bytes := before ++ (closingHeader d.type kind size ++ elements)
        stack := rest } := by
  have hpopped : Object.Drafts { o with stack := rest } { d with stack := rest } :=
    ⟨h.contents_eq, h.size_eq, h.as_eq, rfl, h.type_eq, h.stackAlloc_eq⟩
  have hsize : o.size = before.length + ((closingHeader d.type kind 0).length +
      elements.length) := by
    rw [h.size_eq, hbytes, List.length_append, List.length_append]
  have hodd : ¬(kind = .map ∧ size % 2 ≠ 0) := fun hodd => hodd.2 (heven hodd.1)
  cases htype : d.type with
  | simple => exact absurd htype hmode
  | sparse =>
      rw [htype] at hbytes
      have hheader := sparseHeader_eq hmp kind size
      have hlength : (closingHeader .sparse kind 0).length =
          (closingHeader .sparse kind size).length := by
        simp only [closingHeader]
        split <;> simp [mapHeader32, arrayHeader32]
      obtain ⟨o', hstore, ho'⟩ := hpopped.store hbytes hlength
        (closingHeader_length_pos .sparse kind size)
      refine ⟨0, o', ?_, by decide, htype ▸ ho'⟩
      simp only [h.type_eq, htype] at hstore
      simp only [Object.containerClose, h.stack_eq, hstack, hodd, ite_false, h.type_eq, htype,
        hheader, hstore, bind, Except.bind, pure, Except.pure]
  | packed =>
      rw [htype] at hbytes hsize
      have hheader := packedHeader_eq hmp kind size
      have hsz := packedHeader_length hmp kind size
      obtain ⟨byte, hbyte⟩ : ∃ byte, closingHeader .packed kind 0 = [byte] := by
        simp only [closingHeader]
        split <;> exact ⟨_, rfl⟩
      rw [hbyte] at hbytes hsize
      have hpos := closingHeader_length_pos .packed kind size
      by_cases hlong : 1 < (closingHeader .packed kind size).length
      · obtain ⟨o₁, room, hresize, hdata, hroom, h₁⟩ :=
          hpopped.resize (by omega : 0 < (closingHeader .packed kind size).length - 1)
        simp only [h.type_eq, htype] at hresize
        have hsize₁ : o₁.size = before.length + 1 + elements.length := by
          rw [h₁.size_eq, hbytes, List.length_append, List.length_append, List.length_singleton]
          omega
        have hmem : o₁.data = some (before ++ (byte :: (elements ++ room))) := by
          rw [hdata, hbytes]
          simp
        obtain ⟨gap, hgap, hmove⟩ := @move_up before elements room byte _ hroom
        rw [Nat.sub_add_cancel (by omega)] at hgap hmove
        have hcount : o₁.size - before.length - 1 = elements.length := by omega
        have hinside : ¬o₁.size < before.length + 1 := by omega
        refine ⟨0, { o₁ with
          data := some (before ++ (closingHeader .packed kind size ++
            (elements ++ room.drop ((closingHeader .packed kind size).length - 1))))
          size := o₁.size + ((closingHeader .packed kind size).length - 1) }, ?_, by decide, ?_⟩
        · simp only [Object.containerClose, h.stack_eq, hstack, hodd, ite_false, h.type_eq,
            htype, hsz, hlong, ite_true, hresize, hinside, hcount, Object.memmove, hmem, hmove,
            hheader, Object.store, poke_append hgap, bind, Except.bind, pure, Except.pure]
        · have hroom' : some (before ++ (closingHeader .packed kind size ++
              (elements ++ room.drop ((closingHeader .packed kind size).length - 1)))) =
              some ((before ++ (closingHeader .packed kind size ++ elements)) ++
                room.drop ((closingHeader .packed kind size).length - 1)) := by
            simp only [List.append_assoc]
          refine .of_data hroom' ?_ h₁.as_eq h₁.stack_eq (h₁.type_eq.trans htype) h₁.stackAlloc_eq
          simp only [List.length_append]
          omega
      · have hone : (closingHeader .packed kind size).length = 1 := by omega
        obtain ⟨o', hstore, ho'⟩ := hpopped.store hbytes hone.symm hpos
        refine ⟨0, { o' with size := o'.size + ((closingHeader .packed kind size).length - 1) },
          ?_, by decide, ?_⟩
        · simp only [h.type_eq, htype] at hstore
          simp only [Object.containerClose, h.stack_eq, hstack, hodd, ite_false, h.type_eq,
            htype, hsz, hlong, hheader, hstore, bind, Except.bind, pure, Except.pure]
        · rw [hone]
          exact htype ▸ ho'

end Containers

@[simp] theorem bump_bump (stack : List SboStack) (count more : Nat) :
    bump (bump stack count) more = bump stack (count + more) := by
  cases stack with
  | nil => rfl
  | cons top rest => simp [bump, UInt32.ofNat_add, UInt32.add_assoc]

@[simp] theorem bump_zero (stack : List SboStack) : bump stack 0 = stack := by
  cases stack <;> simp [bump]

theorem builds_addBytes {mp : Msgpuck} {call : ObjectCall} {bytes : Bytes} (d : Draft)
    (hcall : ∀ o, call.run mp o = o.addBytes bytes) (hbytes : 0 < bytes.length) :
    Builds mp [call] d { d with bytes := d.bytes ++ bytes, stack := bump d.stack 1 } :=
  Builds.single fun o ho => by
    rw [hcall]
    exact ho.addBytes hbytes

theorem strHeader_length_pos (length : Nat) : 0 < (strHeader length).length := by
  unfold strHeader
  repeat' split
  all_goals simp

theorem binHeader_length_pos (length : Nat) : 0 < (binHeader length).length := by
  unfold binHeader
  repeat' split
  all_goals simp

theorem encodeSigned_length_pos (z : Int) : 0 < (Value.encodeSigned z).length := by
  unfold Value.encodeSigned
  split
  · exact encodeInt_length_pos _
  · exact encodeUint_length_pos _

section Emission

variable {mp : Msgpuck} (hmp : mp.Lawful)

include hmp

theorem encodeSigned_eq (value : Int64) :
    (if value < 0 then mp.mpEncodeInt value else mp.mpEncodeUint value.toUInt64) =
      Value.encodeSigned value.toInt := by
  unfold Value.encodeSigned
  by_cases hneg : value < 0
  · have hneg' : value.toInt < 0 := by simpa using Int64.lt_iff_toInt_lt.mp hneg
    rw [if_pos hneg, if_pos hneg', hmp.encodeInt_eq value hneg']
  · have hneg' : ¬value.toInt < 0 := fun h => hneg (Int64.lt_iff_toInt_lt.mpr (by simpa using h))
    have hnat : value.toUInt64.toNat = value.toInt.toNat :=
      Int64.toNat_toUInt64_of_le (Int64.not_lt.mp hneg)
    rw [if_neg hneg, if_neg hneg', hmp.encodeUint_eq, hnat]

theorem addInt_eq (o : Object) (value : Int64) :
    o.addInt mp value = o.addBytes (Value.encodeSigned value.toInt) := by
  rw [Object.addInt, encodeSigned_eq hmp]

theorem addStr_eq (text : Chunk) (o : Object) : (ObjectCall.addStr text).run mp o =
    o.addBytes (strHeader text.bytes.length ++ text.bytes) := by
  simp [ObjectCall.run, Object.addStr, Object.writev, Object.addBytes, hmp.encodeStrl_eq,
    UInt32.toNat_ofNat_of_lt' text.length_lt]

theorem addBin_eq (data : Chunk) (o : Object) : (ObjectCall.addBin data).run mp o =
    o.addBytes (binHeader data.bytes.length ++ data.bytes) := by
  simp [ObjectCall.run, Object.addBin, Object.writev, Object.addBytes, hmp.encodeBinl_eq,
    UInt32.toNat_ofNat_of_lt' data.length_lt]

theorem openingArray_eq {type : SboType} (hmode : type ≠ .simple) (size : UInt32) :
    Object.openingArray mp size type = closingHeader type .array 0 := by
  cases type with
  | simple => exact absurd rfl hmode
  | sparse =>
      simp [Object.openingArray, mpEncodeArray32, closingHeader, arrayHeader32, hmp.storeU8_eq,
        hmp.storeU32_eq]
  | packed => simp [Object.openingArray, closingHeader, hmp.encodeArray_eq]

theorem openingMap_eq {type : SboType} (hmode : type ≠ .simple) (size : UInt32) :
    Object.openingMap mp size type = closingHeader type .map 0 := by
  cases type with
  | simple => exact absurd rfl hmode
  | sparse =>
      simp [Object.openingMap, mpEncodeMap32, closingHeader, mapHeader32, hmp.storeU8_eq,
        hmp.storeU32_eq]
  | packed => simp [Object.openingMap, closingHeader, hmp.encodeMap_eq]

omit hmp in
theorem builds_elements {type : SboType} {stackAlloc : Nat} {element : Value → Bytes}
    {xs : List Value}
    (hxs : ∀ x ∈ xs, ∀ (hint : List Nat → UInt32) (bytes : Bytes) (stack : List SboStack),
      stack.length + x.nesting ≤ stackAlloc →
        Builds mp (calls hint x) ⟨bytes, stack, type, stackAlloc⟩
          ⟨bytes ++ element x, bump stack 1, type, stackAlloc⟩)
    (hint : List Nat → UInt32) (index : Nat) (bytes : Bytes) (stack : List SboStack)
    (hroom : stack.length + Value.nestingOfElements xs ≤ stackAlloc) :
    Builds mp (elementCalls hint index xs) ⟨bytes, stack, type, stackAlloc⟩
      ⟨bytes ++ (xs.map element).flatten, bump stack xs.length, type, stackAlloc⟩ := by
  induction xs generalizing index bytes stack with
  | nil =>
      intro o ho
      refine ⟨o, rfl, ?_⟩
      simpa using ho
  | cons x xs ih =>
      rw [Value.nestingOfElements] at hroom
      have hfirst := hxs x (by simp) (fun path => hint (index :: path)) bytes stack (by omega)
      have hrest := ih (fun y hy => hxs y (by simp [hy])) (index + 1) (bytes ++ element x)
        (bump stack 1) (by rw [bump_length]; omega)
      have hboth := hfirst.append hrest
      rw [bump_bump, Nat.add_comm 1, List.append_assoc] at hboth
      exact hboth

theorem builds_container {type : SboType} {stackAlloc : Nat} (hmode : type ≠ .simple)
    {kind : Kind} {opening : ObjectCall} {header : SboType → Bytes} {filling : List ObjectCall}
    {bytes elements : Bytes} {stack : List SboStack} {count : Nat}
    (hopening : ∀ o, opening.run mp o = o.addContainer kind header)
    (hheader : header type = closingHeader type kind 0)
    (heven : kind = .map → UInt32.ofNat count % 2 = 0) (hroom : stack.length < stackAlloc)
    (hfilling : ∀ (before : Bytes) (top : SboStack),
      Builds mp filling ⟨before, top :: bump stack 1, type, stackAlloc⟩
        ⟨before ++ elements, bump (top :: bump stack 1) count, type, stackAlloc⟩) :
    Builds mp (opening :: (filling ++ [.containerClose])) ⟨bytes, stack, type, stackAlloc⟩
      ⟨bytes ++ (closingHeader type kind (UInt32.ofNat count) ++ elements), bump stack 1, type,
        stackAlloc⟩ := by
  have hopen : Builds mp [opening] ⟨bytes, stack, type, stackAlloc⟩
      ⟨bytes ++ closingHeader type kind 0, ⟨bytes.length, 0, kind⟩ :: bump stack 1, type,
        stackAlloc⟩ :=
    Builds.single fun o ho => by
      rw [hopening]
      exact ho.addContainer hroom.ne hheader
  have hclose : Builds mp [.containerClose]
      ⟨bytes ++ closingHeader type kind 0 ++ elements,
        bump (⟨bytes.length, 0, kind⟩ :: bump stack 1) count, type, stackAlloc⟩
      ⟨bytes ++ (closingHeader type kind (UInt32.ofNat count) ++ elements), bump stack 1, type,
        stackAlloc⟩ :=
    Builds.single fun o ho => by
      have hstack : bump (⟨bytes.length, 0, kind⟩ :: bump stack 1) count =
          ⟨bytes.length, UInt32.ofNat count, kind⟩ :: bump stack 1 := by
        simp [bump]
      exact ho.containerClose hmp hmode hstack (List.append_assoc _ _ _) heven
  exact (hopen.append (hfilling _ _)).append hclose

/-- Emitting a tree appends its encoding, and counts one child of the innermost container. -/
theorem builds_calls {type : SboType} (hmode : type ≠ .simple) {stackAlloc : Nat} (v : Value)
    (hcounts : v.CountsBelow (2 ^ 32) (2 ^ 32)) (hint : List Nat → UInt32) (bytes : Bytes)
    (stack : List SboStack) (hroom : stack.length + v.nesting ≤ stackAlloc) :
    Builds mp (calls hint v) ⟨bytes, stack, type, stackAlloc⟩
      ⟨bytes ++ encodeCounted type v, bump stack 1, type, stackAlloc⟩ := by
  induction v using Value.induct generalizing hint bytes stack with
  | nil =>
      exact builds_addBytes _ (fun o => congrArg o.addBytes hmp.encodeNil_eq) (Nat.succ_pos _)
  | bool value =>
      exact builds_addBytes _ (fun o => congrArg o.addBytes (hmp.encodeBool_eq value))
        (Nat.succ_pos _)
  | uint value =>
      exact builds_addBytes _ (fun o => congrArg o.addBytes (hmp.encodeUint_eq value))
        (encodeUint_length_pos _)
  | int value =>
      exact builds_addBytes _ (fun o => addInt_eq hmp o value) (encodeSigned_length_pos _)
  | float bits =>
      exact builds_addBytes _ (fun o => congrArg o.addBytes (hmp.encodeFloat_eq bits))
        (Nat.succ_pos _)
  | double bits =>
      exact builds_addBytes _ (fun o => congrArg o.addBytes (hmp.encodeDouble_eq bits))
        (Nat.succ_pos _)
  | str text =>
      have hlength : 0 < (strHeader text.bytes.length ++ text.bytes).length := by
        rw [List.length_append]
        exact Nat.add_pos_left (strHeader_length_pos _) _
      exact builds_addBytes _ (addStr_eq hmp text) hlength
  | bin data =>
      have hlength : 0 < (binHeader data.bytes.length ++ data.bytes).length := by
        rw [List.length_append]
        exact Nat.add_pos_left (binHeader_length_pos _) _
      exact builds_addBytes _ (addBin_eq hmp data) hlength
  | array elements ih =>
      rw [Value.nesting] at hroom
      have hfilling := builds_elements
        (fun x hx hint bytes stack => ih x hx (hcounts.2.of_mem hx) hint bytes stack) hint 0
      have hcontainer := @builds_container mp hmp type stackAlloc hmode .array
        (.addArray (hint [])) _ _ bytes _ stack elements.length (fun o => rfl)
        (openingArray_eq hmp hmode _) (by simp) (by omega)
        (fun before top => hfilling before (top :: bump stack 1) (by simp; omega))
      rw [closingHeader_array type hcounts.1, ← encodeCounted_array] at hcontainer
      exact hcontainer
  | map pairs ih =>
      rw [Value.nesting, Value.nestingOfPairs_eq] at hroom
      have hbelow := (Value.pairCountsBelow_iff _ _ _).mp hcounts.2
      have hfilling := builds_elements
        (fun x hx hint bytes stack => ih x hx (hbelow.of_mem hx) hint bytes stack) hint 0
      have heven : UInt32.ofNat (2 * pairs.length) % 2 = 0 := by
        apply UInt32.toNat_inj.mp
        rw [UInt32.toNat_mod, UInt32.toNat_ofNat']
        simp only [UInt32.reduceToNat]
        omega
      have hcontainer := @builds_container mp hmp type stackAlloc hmode .map
        (.addMap (hint [])) _ _ bytes _ stack (2 * pairs.length) (fun o => rfl)
        (openingMap_eq hmp hmode _) (fun _ => heven) (by omega)
        (fun before top => by
          rw [← unpair_length]
          exact hfilling before (top :: bump stack 1) (by simp; omega))
      rw [closingHeader_map, ← encodeCounted_map, ← pairCalls_eq] at hcontainer
      exact hcontainer

end Emission

end BeeC
