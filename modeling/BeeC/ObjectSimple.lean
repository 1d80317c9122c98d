import BeeC.ObjectBuilding

namespace BeeC

open BeeC.Wire
open BeeC.Wire.MessagePack
open BeeC.Wire.Encoding

mutual

/-- The calls that emit a tree in order, with the true number of elements of each container, and
that leave all containers open. -/
def openCalls : Value → List ObjectCall
  | .nil => [.addNil]
  | .bool value => [.addBool value]
  | .uint value => [.addUint value]
  | .int value => [.addInt value]
  | .float bits => [.addFloat bits]
  | .double bits => [.addDouble bits]
  | .str text => [.addStr text]
  | .bin data => [.addBin data]
  | .array elements => .addArray (UInt32.ofNat elements.length) :: openElementCalls elements
  | .map pairs => .addMap (UInt32.ofNat pairs.length) :: openPairCalls pairs

def openElementCalls : List Value → List ObjectCall
  | [] => []
  | x :: xs => openCalls x ++ openElementCalls xs

def openPairCalls : List (Value × Value) → List ObjectCall
  | [] => []
  | (key, value) :: ps => openCalls key ++ (openCalls value ++ openPairCalls ps)

end

theorem openPairCalls_eq (ps : List (Value × Value)) :
    openPairCalls ps = openElementCalls (unpair ps) := by
  induction ps with
  | nil => rfl
  | cons p ps ih => rw [openPairCalls, unpair_cons, openElementCalls, openElementCalls, ih]

/-- An object in the simple mode, with so many containers on its stack. The stack has doubled its
room a few times. -/
structure Object.Simple (o : Object) (bytes : Bytes) (pushed : Nat) : Prop where
  drafts : ∃ stack, o.Drafts ⟨bytes, stack, .simple, o.stackAlloc⟩ ∧ stack.length = pushed
  pushed_le : pushed ≤ o.stackAlloc
  stackAlloc_mem : o.stackAlloc ∈ [8, 16, 32, 64, 128]

theorem simple_beerObject : beerObject.Simple [] 0 :=
  ⟨⟨[], ⟨rfl, rfl, rfl, rfl, rfl, rfl⟩, rfl⟩, Nat.zero_le _, by decide⟩

namespace Object.Simple

variable {o : Object} {bytes : Bytes} {pushed : Nat}

theorem contents_eq (h : o.Simple bytes pushed) : o.contents = bytes := by
  obtain ⟨stack, hdrafts, -⟩ := h.drafts
  exact hdrafts.contents_eq

theorem pushed_le_limit (h : o.Simple bytes pushed) : pushed ≤ 128 := by
  have hroom := h.stackAlloc_mem
  have hle := h.pushed_le
  simp only [List.mem_cons, List.not_mem_nil, or_false] at hroom
  omega

theorem of_drafts {o' : Object} {bytes' : Bytes} {stack : List SboStack} {stackAlloc : Nat}
    (hdrafts : o'.Drafts ⟨bytes', stack, .simple, stackAlloc⟩) (hle : stack.length ≤ stackAlloc)
    (hmem : stackAlloc ∈ [8, 16, 32, 64, 128]) : o'.Simple bytes' stack.length := by
  have halloc : o'.stackAlloc = stackAlloc := hdrafts.stackAlloc_eq
  subst halloc
  exact ⟨⟨stack, hdrafts, rfl⟩, hle, hmem⟩

theorem addBytes (h : o.Simple bytes pushed) {more : Bytes} (hmore : 0 < more.length) :
    ∃ rv o', o.addBytes more = .ok (rv, o') ∧ rv ≠ -1 ∧ o'.Simple (bytes ++ more) pushed := by
  obtain ⟨⟨stack, hdrafts, rfl⟩, hle, hmem⟩ := h
  obtain ⟨rv, o', hcall, hrv, ho'⟩ := hdrafts.addBytes hmore
  have hsimple := of_drafts ho' (by rw [bump_length]; exact hle) hmem
  rw [bump_length] at hsimple
  exact ⟨rv, o', hcall, hrv, hsimple⟩

theorem addContainer (h : o.Simple bytes pushed) (hroom : pushed < 128) (type : Kind)
    {header : SboType → Bytes} (hheader : 0 < (header .simple).length) :
    ∃ rv o', o.addContainer type header = .ok (rv, o') ∧ rv ≠ -1 ∧
      o'.Simple (bytes ++ header .simple) (pushed + 1) := by
  obtain ⟨⟨stack, hdrafts, rfl⟩, hle, hmem⟩ := h
  have hcounted := hdrafts.countChild
  obtain ⟨hcontents, hsize, has, hstack, htype, halloc⟩ := id hcounted
  dsimp only at hstack htype halloc
  obtain ⟨o₁, stack₁, hgrown, hdrafts₁, hlength, hfree, hmem₁⟩ : ∃ o₁ stack₁,
      (if o.countChild.stack.length = o.countChild.stackAlloc then o.countChild.growStack
        else some o.countChild) = some o₁ ∧
      o₁.Drafts ⟨bytes, stack₁, .simple, o₁.stackAlloc⟩ ∧ stack₁.length = stack.length ∧
      stack.length < o₁.stackAlloc ∧ o₁.stackAlloc ∈ [8, 16, 32, 64, 128] := by
    by_cases hfull : stack.length = o.stackAlloc
    · have hgrow : o.countChild.stackAlloc ≠ 128 := by rw [halloc]; omega
      refine ⟨{ o.countChild with
        stackAlloc := 2 * o.countChild.stackAlloc
        stack := o.countChild.stack.map fun _ => SboStack.cleared }, _, ?_,
        ⟨hcontents, hsize, has, rfl, htype, rfl⟩, ?_, ?_, ?_⟩
      · rw [if_pos (by rw [hstack, halloc, bump_length, hfull]), Object.growStack, if_neg hgrow]
      · rw [List.length_map, hstack, bump_length]
      · dsimp only
        rw [halloc]
        simp only [List.mem_cons, List.not_mem_nil, or_false] at hmem
        omega
      · dsimp only
        rw [halloc]
        simp only [List.mem_cons, List.not_mem_nil, or_false] at hmem ⊢
        omega
    · refine ⟨o.countChild, bump stack 1, ?_, by rw [halloc]; exact hcounted, bump_length _ _, ?_,
        by rwa [halloc]⟩
      · rw [hstack, halloc, bump_length, if_neg hfull]
      · rw [halloc]
        omega
  have hpushed : Object.Drafts { o₁ with stack := ⟨o₁.size, 0, type⟩ :: o₁.stack }
      ⟨bytes, ⟨o₁.size, 0, type⟩ :: stack₁, .simple, o₁.stackAlloc⟩ :=
    ⟨hdrafts₁.contents_eq, hdrafts₁.size_eq, hdrafts₁.as_eq, by rw [hdrafts₁.stack_eq],
      hdrafts₁.type_eq, rfl⟩
  obtain ⟨rv, o', hwrite, hrv, ho'⟩ := hpushed.write hheader
  refine ⟨rv, o', ?_, hrv, ?_⟩
  · simp only [Object.addContainer, hgrown]
    rw [hdrafts₁.type_eq] at *
    exact hwrite
  · have hsimple := of_drafts ho' (by rw [List.length_cons, hlength]; exact hfree) hmem₁
    rwa [List.length_cons, hlength] at hsimple

theorem addContainer_full (h : o.Simple bytes 128) (type : Kind) (header : SboType → Bytes) :
    o.addContainer type header = .ok (-1, o.countChild) := by
  obtain ⟨⟨stack, hdrafts, hlength⟩, hle, hmem⟩ := h
  obtain ⟨-, -, -, hstack, -, halloc⟩ := hdrafts.countChild
  dsimp only at hstack halloc
  have hlimit : o.stackAlloc = 128 := by
    simp only [List.mem_cons, List.not_mem_nil, or_false] at hmem
    omega
  rw [hlimit] at halloc
  simp only [Object.addContainer, hstack, bump_length, hlength, halloc, if_true, Object.growStack]

end Object.Simple

/-- The calls append the bytes and leave so many containers on the stack. If the stack has no room
for them, one of the calls fails. -/
def Emits (mp : Msgpuck) (calls : List ObjectCall) (bytes : Bytes) (containers : Nat) : Prop :=
  ∀ o before pushed, Object.Simple o before pushed →
    if pushed + containers ≤ 128 then
      ∃ o', Object.perform mp calls o = some o' ∧ o'.Simple (before ++ bytes) (pushed + containers)
    else Object.perform mp calls o = none

namespace Emits

variable {mp : Msgpuck}

theorem nil : Emits mp [] [] 0 := by
  intro o before pushed h
  rw [Nat.add_zero, if_pos h.pushed_le_limit]
  exact ⟨o, rfl, by rwa [List.append_nil]⟩

theorem append {first second : List ObjectCall} {bytes bytes' : Bytes}
    {containers containers' : Nat} (h : Emits mp first bytes containers)
    (h' : Emits mp second bytes' containers') :
    Emits mp (first ++ second) (bytes ++ bytes') (containers + containers') := by
  intro o before pushed ho
  have hfirst := h o before pushed ho
  rw [perform_append, ← List.append_assoc, ← Nat.add_assoc]
  split at hfirst
  · obtain ⟨o', hperform, ho'⟩ := hfirst
    have hsecond := h' o' _ _ ho'
    rwa [hperform, Option.bind_some]
  · rw [if_neg (by omega), hfirst]
    rfl

theorem addBytes {call : ObjectCall} {bytes : Bytes}
    (hcall : ∀ o, call.run mp o = o.addBytes bytes) (hbytes : 0 < bytes.length) :
    Emits mp [call] bytes 0 := by
  intro o before pushed ho
  obtain ⟨rv, o', hrun, hrv, ho'⟩ := ho.addBytes hbytes
  rw [Nat.add_zero, if_pos ho.pushed_le_limit]
  exact ⟨o', by rw [perform_cons ((hcall o).trans hrun) hrv, Object.perform], ho'⟩

theorem addContainer {call : ObjectCall} {type : Kind} {header : SboType → Bytes}
    (hcall : ∀ o, call.run mp o = o.addContainer type header)
    (hheader : 0 < (header .simple).length) : Emits mp [call] (header .simple) 1 := by
  intro o before pushed ho
  split
  · obtain ⟨rv, o', hrun, hrv, ho'⟩ := ho.addContainer (by omega) type hheader
    exact ⟨o', by rw [perform_cons ((hcall o).trans hrun) hrv, Object.perform], ho'⟩
  · have hlimit := ho.pushed_le_limit
    obtain rfl : pushed = 128 := by omega
    simp only [Object.perform, hcall, ho.addContainer_full, if_true]

theorem elements {element : Value → Bytes} {xs : List Value}
    (hxs : ∀ x ∈ xs, Emits mp (openCalls x) (element x) x.containers) :
    Emits mp (openElementCalls xs) (xs.map element).flatten (Value.containersOfElements xs) := by
  induction xs with
  | nil => exact nil
  | cons x xs ih =>
      have hrest := ih fun y hy => hxs y (List.mem_cons_of_mem _ hy)
      exact (hxs x List.mem_cons_self).append hrest

end Emits

theorem isValue_encodeFor {v : Value} (hcounts : v.CountsBelow (2 ^ 32) (2 ^ 32)) :
    IsValue (encodeFor .simple v) :=
  Value.isValue_encodeWith (fun _ h => head_arrayHeader h) (fun _ h => head_mapHeader h) v hcounts

theorem emits_openCalls {mp : Msgpuck} (hmp : mp.Lawful) (v : Value)
    (hcounts : v.CountsBelow (2 ^ 32) (2 ^ 32)) :
    Emits mp (openCalls v) (encodeFor .simple v) v.containers := by
  have hpos := (isValue_encodeFor hcounts).length_pos
  induction v using Value.induct with
  | nil => exact .addBytes (fun o => congrArg o.addBytes hmp.encodeNil_eq) hpos
  | bool value => exact .addBytes (fun o => congrArg o.addBytes (hmp.encodeBool_eq value)) hpos
  | uint value => exact .addBytes (fun o => congrArg o.addBytes (hmp.encodeUint_eq value)) hpos
  | int value => exact .addBytes (fun o => addInt_eq hmp o value) hpos
  | float bits => exact .addBytes (fun o => congrArg o.addBytes (hmp.encodeFloat_eq bits)) hpos
  | double bits => exact .addBytes (fun o => congrArg o.addBytes (hmp.encodeDouble_eq bits)) hpos
  | str text => exact .addBytes (addStr_eq hmp text) hpos
  | bin data => exact .addBytes (addBin_eq hmp data) hpos
  | array elements ih =>
      have hopen : Emits mp [.addArray (UInt32.ofNat elements.length)]
          (arrayHeader elements.length) 1 := by
        have hheader : Object.openingArray mp (UInt32.ofNat elements.length) .simple =
            arrayHeader elements.length := by
          rw [Object.openingArray, hmp.encodeArray_eq, UInt32.toNat_ofNat_of_lt' hcounts.1]
        rw [← hheader]
        exact .addContainer (fun o => rfl) (by rw [hheader]; exact arrayHeader_length_pos _)
      have hall := hopen.append (.elements fun x hx =>
        ih x hx (hcounts.2.of_mem hx) (isValue_encodeFor (hcounts.2.of_mem hx)).length_pos)
      rw [encodeFor, Value.encodeWith, Value.encodeElements_eq, Value.containers, Nat.add_comm]
      exact hall
  | map pairs ih =>
      have hbelow := (Value.pairCountsBelow_iff _ _ _).mp hcounts.2
      have hopen : Emits mp [.addMap (UInt32.ofNat pairs.length)] (mapHeader pairs.length) 1 := by
        have hheader : Object.openingMap mp (UInt32.ofNat pairs.length) .simple =
            mapHeader pairs.length := by
          rw [Object.openingMap, hmp.encodeMap_eq, UInt32.toNat_ofNat_of_lt' hcounts.1]
        rw [← hheader]
        exact .addContainer (fun o => rfl) (by rw [hheader]; exact mapHeader_length_pos _)
      have hall := hopen.append (.elements fun x hx =>
        ih x hx (hbelow.of_mem hx) (isValue_encodeFor (hbelow.of_mem hx)).length_pos)
      rw [encodeFor, Value.encodeWith, Value.encodePairs_eq, Value.encodeElements_eq,
        Value.containers, Value.containersOfPairs_eq, Nat.add_comm, openCalls, openPairCalls_eq]
      exact hall

theorem beerObjectVerify_eq {mp : Msgpuck} (hmp : mp.Lawful) {o : Object} {d : Draft}
    (h : o.Drafts d) (hvalue : IsValue d.bytes) {type : Option Kind}
    (htype : type = none ∨ type = kindOf d.bytes) : beerObjectVerify mp o type = .ok 0 := by
  obtain ⟨room, hdata⟩ := h.data_eq
  obtain ⟨hd, rest, hhead, -, -⟩ := hvalue.head
  have hroom : ¬o.alloc < o.size := by
    rw [Object.alloc, hdata, h.size_eq, List.length_append]
    omega
  have hcheck : mp.mpCheck o.contents = some o.contents.length := by
    have hnext := next_append hvalue []
    rw [List.append_nil] at hnext
    rw [hmp.check_eq, h.contents_eq, hnext]
    rfl
  cases hbytes : d.bytes with
  | nil =>
      rw [hbytes] at hhead
      cases hhead
  | cons first more =>
      rw [hbytes] at hhead
      have hkind : mp.mpTypeof first = hd.kind := hmp.typeof_eq (typeOf_of_head hhead)
      cases hsome : o.data with
      | none =>
          rw [hsome, hbytes] at hdata
          cases hdata
      | some mem =>
          rw [hsome, hbytes, Option.getD_some, List.cons_append] at hdata
          rw [hdata] at hsome
          rcases htype with rfl | rfl
          · simp [beerObjectVerify, hroom, hcheck, pure, Except.pure]
          · simp [beerObjectVerify, hbytes, kindOf, hhead, hsome, hkind, hroom, hcheck, pure,
              Except.pure]

/-- The calls for a tree, without closing any container, all succeed on a fresh object, and leave
its canonical encoding there, which verifies. -/
def BuildsOpen (mp : Msgpuck) (v : Value) : Prop :=
  ∃ o, Object.perform mp (openCalls v) beerObject = some o ∧ o.contents = encodeFor .simple v ∧
    ∀ type, type = none ∨ type = kindOf (encodeFor .simple v) → beerObjectVerify mp o type = .ok 0

/-- A value tree is built in the simple mode exactly when it has at most 128 containers, however
little they are nested. -/
theorem buildsOpen_iff {mp : Msgpuck} (hmp : mp.Lawful) {v : Value}
    (hcounts : v.CountsBelow (2 ^ 32) (2 ^ 32)) : BuildsOpen mp v ↔ v.containers ≤ 128 := by
  have hrun := emits_openCalls hmp v hcounts beerObject [] 0 simple_beerObject
  rw [Nat.zero_add, List.nil_append] at hrun
  split at hrun
  · rename_i hfits
    obtain ⟨o, hperform, ho⟩ := hrun
    obtain ⟨stack, hdrafts, -⟩ := ho.drafts
    refine iff_of_true ⟨o, hperform, ho.contents_eq, fun type htype => ?_⟩ hfits
    exact beerObjectVerify_eq hmp hdrafts (isValue_encodeFor hcounts) htype
  · rename_i hfull
    refine iff_of_false ?_ hfull
    rintro ⟨o, hperform, -⟩
    rw [hrun] at hperform
    cases hperform

theorem buildsOpen_iff_pair :
    BuildsOpen .reference (.array [.uint 1, .map [(.uint 2, .nil)]]) ↔
      (Value.array [.uint 1, .map [(.uint 2, .nil)]]).containers ≤ 128 :=
  buildsOpen_iff Msgpuck.reference_lawful (by
    simp [Value.CountsBelow, Value.ElementCountsBelow, Value.PairCountsBelow])

/-- An array of empty arrays, of which there are 128. -/
def wide : Value := .array (List.replicate 128 (.array []))

/-- The array that holds the others is a container too, and the last of them does not fit. -/
theorem not_buildsOpen_wide : wide.nesting ≤ 128 ∧ ¬BuildsOpen .reference wide := by
  refine ⟨by decide +kernel, ?_⟩
  rintro ⟨o, hperform, -⟩
  have hfails : Object.perform .reference (openCalls wide) beerObject = none := by decide +kernel
  rw [hfails] at hperform
  cases hperform

end BeeC
