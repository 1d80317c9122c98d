import BeeC.SchemaExact

namespace BeeC

open BeeC.Wire.BigEndian
open BeeC.Wire.MessagePack
open BeeC.Wire.Directory
open BeeC.Wire.Loop

variable {mp : Msgpuck}

/-- What `beer_schema_add_spaces` and `beer_schema_add_indexes` do with a row, when the cursor is at
the given values: the row's own and those of the rows behind it. -/
abbrev RowReader := Schema → List Bytes → Except Stop Schema

/-- A name, read at some values. -/
def nameFrom : List Bytes → Except Stop Bytes
  | [] => .error (.fault .outOfBounds)
  | name :: _ =>
      match textOf name with
      | none => .error .fail
      | some text => if text = [] then .error .fail else .ok text

/-- A space, read at some values. -/
def spaceFrom : RowReader
  | _, [] => .error (.fault .outOfBounds)
  | schema, id :: more =>
      match uintOf id with
      | none => .error .fail
      | some number => do
          let name ← nameFrom more.tail
          return schema.putSpace { name, number := UInt32.ofNat number }

/-- An index, read at some values. The number of its space is decoded whatever it is. -/
def indexFrom : RowReader
  | _, [] => .error (.fault .outOfBounds)
  | schema, spaceId :: more =>
      match uintOf spaceId with
      | none => .error (.fault .wrongType)
      | some spaceNumber =>
          match more with
          | [] => .error (.fault .outOfBounds)
          | id :: more =>
              match uintOf id with
              | none => .error .fail
              | some number =>
                  match schema.spaceHash.find (numberKey (UInt32.ofNat spaceNumber)) with
                  | none => .error .fail
                  | some ref => do
                      let name ← nameFrom more
                      return schema.putIndex ref { name, number := UInt32.ofNat number }

/-- A row is taken from the first of its values on, if it is an array. -/
def takeRow (reader : RowReader) (schema : Schema) (row : Bytes) (after : List Bytes) :
    Except Stop Schema :=
  match arrayOf row with
  | none => .error .fail
  | some (fields, _) => reader schema (fields ++ after)

section Cursor

variable (hmp : mp.Lawful)

include hmp

theorem readName_flatten {values : List Bytes} (hvalues : ∀ x ∈ values, IsValue x) :
    readName mp values.flatten = nameFrom values := by
  cases values with
  | nil => rfl
  | cons name more =>
      rw [List.flatten_cons, nameFrom]
      rcases (hvalues name List.mem_cons_self).text_or with ⟨text, -, htext⟩ |
        ⟨hd, rest, hhead, hkind, htext⟩
      · rw [htext]
        exact readName_eq hmp htext more.flatten
      · have hexpect := expect_wrongType hmp (head_append hhead more.flatten) hkind
        rw [htext]
        simp only [readName, hexpect, error_bind]

theorem nextThenName_flatten {values : List Bytes} (hvalues : ∀ x ∈ values, IsValue x) :
    (mp.nextValue values.flatten >>= readName mp) = nameFrom values.tail := by
  cases values with
  | nil =>
      rw [List.flatten_nil, Msgpuck.nextValue, Msgpuck.advance, List.drop_nil]
      split <;> rfl
  | cons owner more =>
      rw [List.forall_mem_cons] at hvalues
      rw [List.flatten_cons, Msgpuck.nextValue_append hmp hvalues.1, ok_bind, List.tail_cons,
        readName_flatten hmp hvalues.2]

theorem readSpace_flatten {row : Bytes} {after : List Bytes} (hrow : IsValue row)
    (hafter : ∀ x ∈ after, IsValue x) (schema : Schema) :
    schema.putSpace <$> readSpace mp (row ++ after.flatten) =
      takeRow spaceFrom schema row after := by
  rcases hrow.array_or with ⟨fields, hfields⟩ | ⟨hd, rest, hhead, hkind, hnone⟩
  · obtain ⟨hexpect, hdecode⟩ := array_at hmp hfields after.flatten
    have hall : ∀ x ∈ fields ++ after, IsValue x :=
      List.forall_mem_append.mpr ⟨(arrayOf_eq_some hfields).2, hafter⟩
    simp only [takeRow, hfields, readSpace, hexpect, hdecode, ok_bind, ← List.flatten_append]
    generalize fields ++ after = values at hall
    cases values with
    | nil => rfl
    | cons id more =>
        rw [List.forall_mem_cons] at hall
        rw [spaceFrom, List.flatten_cons]
        rcases hall.1.uint_or with ⟨n, -, hnumber⟩ | ⟨hd, rest, hid, hkind, hnumber⟩
        · obtain ⟨hexpect, hdecode⟩ := number_at hmp hnumber more.flatten
          simp only [hnumber, hexpect, hdecode, ok_bind, ofNat_toUInt32]
          rw [← nextThenName_flatten hmp hall.2]
          cases mp.nextValue more.flatten with
          | error stop => rfl
          | ok tuple => rw [ok_bind, ok_bind]; cases readName mp tuple <;> rfl
        · have hexpect := expect_wrongType hmp (head_append hid more.flatten) hkind
          rw [hnumber, hexpect]
          rfl
  · have hexpect := expect_wrongType hmp (head_append hhead after.flatten) hkind
    rw [takeRow, hnone, readSpace, hexpect]
    rfl

theorem readIndex_flatten {row : Bytes} {after : List Bytes} (hrow : IsValue row)
    (hafter : ∀ x ∈ after, IsValue x) (schema : Schema) :
    (readIndex mp schema (row ++ after.flatten) >>= fun
      | none => .error .fail
      | some (ref, index) => .ok (schema.putIndex ref index)) =
      takeRow indexFrom schema row after := by
  rcases hrow.array_or with ⟨fields, hfields⟩ | ⟨hd, rest, hhead, hkind, hnone⟩
  · obtain ⟨hexpect, hdecode⟩ := array_at hmp hfields after.flatten
    have hall : ∀ x ∈ fields ++ after, IsValue x :=
      List.forall_mem_append.mpr ⟨(arrayOf_eq_some hfields).2, hafter⟩
    simp only [takeRow, hfields, readIndex, hexpect, hdecode, ok_bind, ← List.flatten_append]
    generalize fields ++ after = values at hall
    cases values with
    | nil => rfl
    | cons spaceId more =>
        rw [List.forall_mem_cons] at hall
        rw [indexFrom, List.flatten_cons]
        rcases hall.1.uint_or with ⟨n, -, hnumber⟩ | ⟨hd, rest, hspaceId, hkind, hnumber⟩
        · obtain ⟨-, hdecode⟩ := number_at hmp hnumber more.flatten
          simp only [hnumber, hdecode, ok_bind, ofNat_toUInt32]
          replace hall := hall.2
          cases more with
          | nil => rfl
          | cons id more =>
              rw [List.forall_mem_cons] at hall
              rw [List.flatten_cons]
              rcases hall.1.uint_or with ⟨m, -, hnumber⟩ | ⟨hd, rest, hid, hkind, hnumber⟩
              · obtain ⟨hexpect, hdecode⟩ := number_at hmp hnumber more.flatten
                simp only [hnumber, hexpect, hdecode, ok_bind, ofNat_toUInt32]
                cases schema.spaceHash.find (numberKey (UInt32.ofNat n)) with
                | none => rfl
                | some ref =>
                    rw [readName_flatten hmp hall.2]
                    cases nameFrom more <;> rfl
              · have hexpect := expect_wrongType hmp (head_append hid more.flatten) hkind
                simp only [hnumber, hexpect, error_bind]
        · have hwrong : mp.decodeUint (spaceId ++ more.flatten) = .error (.fault .wrongType) :=
            Msgpuck.decodeAs_wrongType hmp (head_append hspaceId more.flatten) hkind
          rw [hnumber, hwrong]
          rfl
  · have hexpect := expect_wrongType hmp (head_append hhead after.flatten) hkind
    rw [takeRow, hnone, readIndex, hexpect]
    rfl

/-- What adding a row comes to, wherever the cursor goes. -/
def Takes (reader : RowReader)
    (add : Schema → Bytes → Except Fault (Int × Schema × Bytes)) : Prop :=
  ∀ schema row after, IsValue row → (∀ x ∈ after, IsValue x) →
    match takeRow reader schema row after with
    | .ok schema' => add schema (row ++ after.flatten) = .ok (0, schema', after.flatten)
    | .error .fail => ∃ data, add schema (row ++ after.flatten) = .ok (-1, schema, data)
    | .error (.fault reason) => add schema (row ++ after.flatten) = .error reason

theorem beerSchemaAddSpace_takes : Takes spaceFrom (beerSchemaAddSpace mp) := by
  intro schema row after hrow hafter
  have hnext := nextRow_append hmp hrow after.flatten
  rw [← readSpace_flatten hmp hrow hafter, beerSchemaAddSpace]
  rcases readSpace mp (row ++ after.flatten) with (_ | reason) | space
  · exact ⟨after.flatten, by simp only [attempt, ok_bind, hnext, pure_eq]⟩
  · rfl
  · simp only [attempt, ok_bind, hnext, pure_eq, Functor.map, Except.map]

theorem beerSchemaAddIndex_takes : Takes indexFrom (beerSchemaAddIndex mp) := by
  intro schema row after hrow hafter
  have hnext := nextRow_append hmp hrow after.flatten
  rw [← readIndex_flatten hmp hrow hafter, beerSchemaAddIndex]
  rcases readIndex mp schema (row ++ after.flatten) with (_ | reason) | (_ | ⟨ref, index⟩)
  · exact ⟨after.flatten, by simp only [attempt, ok_bind, hnext, pure_eq]⟩
  · rfl
  · exact ⟨row ++ after.flatten, rfl⟩
  · simp only [attempt, ok_bind, hnext, pure_eq]

end Cursor

/-- What a kind of row is read from, and what it does to a schema. -/
structure RowKind (ρ : Type) where
  Encoded : Bytes → ρ → Prop
  load : Schema → ρ → Option Schema
  reader : RowReader
  /-- A row that has all of its fields is loaded, or it is refused. -/
  takeRow_eq : ∀ {row x}, Encoded row x → ∀ schema after,
    takeRow reader schema row after = (load schema x).elim (.error .fail) .ok
  /-- A row that lacks fields is loaded from those behind it, of which one is no row. -/
  strays : ∀ {schema schema' row after}, IsValue row →
    takeRow reader schema row after = .ok schema' →
      (∃ x, Encoded row x) ∨ ∃ y ∈ after, arrayOf y = none
  /-- Which rows are loaded and which are refused does not depend on those before them. -/
  steady : ∀ {schema schema' x}, load schema x = some schema' → ∀ row after,
    (takeRow reader schema' row after = .error .fail ↔
      takeRow reader schema row after = .error .fail) ∧
    ∀ y, (load schema' y).isSome = (load schema y).isSome

namespace RowKind

variable {ρ : Type} (kind : RowKind ρ)

/-- The row has all of its fields, and is loaded. -/
def Accepted (schema : Schema) (row : Bytes) : Prop :=
  ∃ x, kind.Encoded row x ∧ (kind.load schema x).isSome

/-- Loading the rows returns, with zero or `-1`. With `-1` all rows before one are loaded, and
nothing of that one is. -/
def LoadsSafely (add : Schema → Bytes → Except Fault (Int × Schema × Bytes)) (schema : Schema)
    (xs : List Bytes) (result : Except Fault (Int × Schema)) : Prop :=
  ∃ rc schema', result = .ok (rc, schema') ∧ (rc = 0 ∨ rc = -1) ∧
    (rc = -1 → ∃ before row after rows, xs = before ++ row :: after ∧
      addRows add before.length schema xs.flatten = .ok (0, schema') ∧
      addRows add (before.length + 1) schema xs.flatten = .ok (-1, schema') ∧
      List.Forall₂ kind.Encoded before rows ∧
      Schema.loadRows kind.load schema rows = (0, schema'))

/-- The first row that is not loaded, if there is one, is refused before the cursor leaves the
data. -/
def Stops (schema : Schema) (xs : List Bytes) : Prop :=
  ∀ before row after, xs = before ++ row :: after → (∀ y ∈ before, kind.Accepted schema y) →
    ¬kind.Accepted schema row → takeRow kind.reader schema row after = .error .fail

variable {kind} {add : Schema → Bytes → Except Fault (Int × Schema × Bytes)}

theorem load_of_takeRow {schema schema' : Schema} {row : Bytes} {x : ρ} {after : List Bytes}
    (hrow : kind.Encoded row x) (h : takeRow kind.reader schema row after = .ok schema') :
    kind.load schema x = some schema' := by
  rw [kind.takeRow_eq hrow] at h
  cases hx : kind.load schema x with
  | none =>
      rw [hx] at h
      cases h
  | some schema'' =>
      rw [hx] at h
      cases h
      rfl

theorem accepted_iff {schema schema' : Schema} {x : ρ} (h : kind.load schema x = some schema')
    (row : Bytes) : kind.Accepted schema' row ↔ kind.Accepted schema row := by
  unfold Accepted
  simp only [fun y => ((kind.steady h row []).2 y)]

theorem stops_cons_of_accepted {schema schema' : Schema} {x : ρ} {row : Bytes} {xs : List Bytes}
    (hrow : kind.Encoded row x) (h : kind.load schema x = some schema') :
    kind.Stops schema (row :: xs) ↔ kind.Stops schema' xs := by
  have haccepted : kind.Accepted schema row := ⟨x, hrow, by rw [h]; rfl⟩
  constructor
  · intro hstops before row' after heq hbefore hnot
    refine (kind.steady h row' after).1.mpr (hstops (row :: before) row' after (by rw [heq]; rfl) ?_
      (mt (accepted_iff h row').mpr hnot))
    exact List.forall_mem_cons.mpr ⟨haccepted, fun y hy => (accepted_iff h y).mp (hbefore y hy)⟩
  · intro hstops before row' after heq hbefore hnot
    cases before with
    | nil =>
        cases heq
        exact absurd haccepted hnot
    | cons first before =>
        cases heq
        refine (kind.steady h row' after).1.mp (hstops before row' after rfl (fun y hy => ?_)
          (mt (accepted_iff h row').mp hnot))
        exact (accepted_iff h y).mpr (hbefore y (List.mem_cons_of_mem _ hy))

theorem arrays_of_zero (htakes : Takes kind.reader add) {xs : List Bytes}
    (hxs : ∀ x ∈ xs, IsValue x) {schema schema' : Schema}
    (h : addRows add xs.length schema xs.flatten = .ok (0, schema')) :
    ∀ x ∈ xs, arrayOf x ≠ none := by
  induction xs generalizing schema with
  | nil => exact fun x hx => nomatch hx
  | cons row xs ih =>
      rw [List.forall_mem_cons] at hxs
      have htake := htakes schema row xs hxs.1 hxs.2
      rw [List.length_cons, List.flatten_cons, addRows] at h
      rcases heq : takeRow kind.reader schema row xs with (_ | reason) | schema₁
      · rw [heq] at htake
        obtain ⟨data, hadd⟩ := htake
        rw [hadd] at h
        cases h
      · rw [heq] at htake
        rw [show add schema (row ++ xs.flatten) = _ from htake] at h
        cases h
      · rw [heq] at htake
        rw [show add schema (row ++ xs.flatten) = _ from htake, ok_bind] at h
        refine List.forall_mem_cons.mpr ⟨fun hnone => ?_, ih hxs.2 h⟩
        rw [takeRow, hnone] at heq
        cases heq

theorem addRows_refused {schema : Schema} {row : Bytes} {xs : List Bytes}
    (hadd : ∃ data, add schema (row ++ xs.flatten) = .ok (-1, schema, data)) (count : Nat) :
    addRows add (count + 1) schema (row ++ xs.flatten) = .ok (-1, schema) := by
  obtain ⟨data, hdata⟩ := hadd
  rw [addRows, hdata]
  rfl

theorem loadsSafely_of_refused {schema : Schema} {row : Bytes} {xs : List Bytes}
    (hadd : ∃ data, add schema (row ++ xs.flatten) = .ok (-1, schema, data)) :
    kind.LoadsSafely add schema (row :: xs)
      (addRows add (row :: xs).length schema (row :: xs).flatten) := by
  have hstop := addRows_refused hadd
  exact ⟨-1, schema, hstop _, .inr rfl, fun _ => ⟨[], row, xs, [], rfl, rfl, hstop 0, .nil, rfl⟩⟩

theorem stops_of_refused {schema : Schema} {row : Bytes} {xs : List Bytes}
    (h : takeRow kind.reader schema row xs = .error .fail) : kind.Stops schema (row :: xs) := by
  intro before row' after hsplit hbefore _
  cases before with
  | nil =>
      cases hsplit
      exact h
  | cons first before =>
      cases hsplit
      obtain ⟨x, hrow, hload⟩ := hbefore row List.mem_cons_self
      obtain ⟨schema', hschema'⟩ := Option.isSome_iff_exists.mp hload
      rw [kind.takeRow_eq hrow, hschema'] at h
      cases h

theorem loadsSafely_cons {schema schema' : Schema} {row : Bytes} {x : ρ} {xs : List Bytes}
    (hrow : kind.Encoded row x) (hload : kind.load schema x = some schema')
    (hadd : add schema (row ++ xs.flatten) = .ok (0, schema', xs.flatten)) :
    kind.LoadsSafely add schema (row :: xs)
        (addRows add (row :: xs).length schema (row :: xs).flatten) ↔
      kind.LoadsSafely add schema' xs (addRows add xs.length schema' xs.flatten) := by
  have hstep : ∀ count, addRows add (count + 1) schema (row :: xs).flatten =
      addRows add count schema' xs.flatten := by
    intro count
    rw [List.flatten_cons, addRows, hadd]
    rfl
  unfold LoadsSafely
  rw [List.length_cons, hstep]
  refine exists_congr fun rc => exists_congr fun schema₂ => and_congr_right fun _ =>
    and_congr_right fun _ => imp_congr_right fun _ => ?_
  constructor
  · rintro ⟨before, row', after, rows, hsplit, hzero, hminus, hrows, hloads⟩
    cases hrows with
    | nil =>
        -- the first row has not been the one to end it
        rw [List.length_nil, hstep] at hminus
        cases hminus
    | @cons first y before rows hfirst hrows =>
        cases hsplit
        rw [List.length_cons, hstep] at hzero hminus
        have htake := kind.takeRow_eq hrow schema []
        rw [hload] at htake
        rw [Schema.loadRows, load_of_takeRow hfirst htake] at hloads
        exact ⟨before, row', after, rows, rfl, hzero, hminus, hrows, hloads⟩
  · rintro ⟨before, row', after, rows, rfl, hzero, hminus, hrows, hloads⟩
    refine ⟨row :: before, row', after, x :: rows, rfl, ?_, ?_, .cons hrow hrows, ?_⟩
    · rw [List.length_cons, hstep]
      exact hzero
    · rw [List.length_cons, hstep]
      exact hminus
    · rw [Schema.loadRows, hload]
      exact hloads

/-- A row that is loaded without having its fields is not refused when the loading comes to the one
it took them from. -/
theorem not_loadsSafely_of_stray (htakes : Takes kind.reader add) {schema schema' : Schema}
    {row : Bytes} {xs : List Bytes} (hvalues : ∀ x ∈ row :: xs, IsValue x)
    (htake : takeRow kind.reader schema row xs = .ok schema')
    (hlacks : ∀ x, ¬kind.Encoded row x) :
    ¬kind.LoadsSafely add schema (row :: xs)
      (addRows add (row :: xs).length schema (row :: xs).flatten) := by
  have hrow := hvalues row List.mem_cons_self
  rintro ⟨rc, schema₂, hrun, rfl | rfl, hminus⟩
  · have harrays := arrays_of_zero htakes hvalues hrun
    rcases kind.strays hrow htake with ⟨x, hx⟩ | ⟨y, hy, hnone⟩
    · exact hlacks x hx
    · exact harrays y (List.mem_cons_of_mem _ hy) hnone
  · obtain ⟨before, row', after, rows, hsplit, -, hend, hrows, -⟩ := hminus rfl
    cases hrows with
    | nil =>
        have hadd := htakes schema row xs hrow fun x hx => hvalues x (List.mem_cons_of_mem _ hx)
        rw [htake] at hadd
        dsimp only at hadd
        rw [List.length_nil, List.flatten_cons, addRows, hadd] at hend
        cases hend
    | cons hfirst _ =>
        cases hsplit
        exact hlacks _ hfirst

/-- Loading is safe exactly if the first row that cannot be loaded is refused before the cursor
leaves the data. -/
theorem loadsSafely_iff (htakes : Takes kind.reader add) {xs : List Bytes}
    (hxs : ∀ x ∈ xs, IsValue x) (schema : Schema) :
    kind.LoadsSafely add schema xs (addRows add xs.length schema xs.flatten) ↔
      kind.Stops schema xs := by
  induction xs generalizing schema with
  | nil =>
      refine iff_of_true ⟨0, schema, rfl, .inl rfl, fun h => absurd h (by decide)⟩ ?_
      intro before row after heq
      simp at heq
  | cons row xs ih =>
      have hadd := htakes schema row xs (hxs row List.mem_cons_self)
        fun x hx => hxs x (List.mem_cons_of_mem _ hx)
      rcases htake : takeRow kind.reader schema row xs with (_ | reason) | schema'
      · rw [htake] at hadd
        exact iff_of_true (loadsSafely_of_refused hadd) (stops_of_refused htake)
      · rw [htake] at hadd
        refine iff_of_false ?_ fun hstops => ?_
        · rintro ⟨rc, schema', hrun, -⟩
          rw [List.length_cons, List.flatten_cons, addRows, show add schema _ = _ from hadd] at hrun
          cases hrun
        · have hstray : ¬∃ x, kind.Encoded row x ∧ (kind.load schema x).isSome := by
            rintro ⟨x, hrow, hload⟩
            obtain ⟨schema', hschema'⟩ := Option.isSome_iff_exists.mp hload
            rw [kind.takeRow_eq hrow, hschema'] at htake
            cases htake
          have hfail := hstops [] row xs rfl (fun _ h => absurd h List.not_mem_nil) hstray
          rw [htake] at hfail
          cases hfail
      · by_cases hrow : ∃ x, kind.Encoded row x
        · obtain ⟨x, hrow⟩ := hrow
          have hload := load_of_takeRow hrow htake
          rw [htake] at hadd
          rw [loadsSafely_cons hrow hload hadd, stops_cons_of_accepted hrow hload]
          exact ih (fun x hx => hxs x (List.mem_cons_of_mem _ hx)) schema'
        · refine iff_of_false
            (not_loadsSafely_of_stray htakes hxs htake (not_exists.mp hrow)) fun hstops => ?_
          have hstray : ¬∃ x, kind.Encoded row x ∧ (kind.load schema x).isSome := by
            rintro ⟨x, hx, -⟩
            exact hrow ⟨x, hx⟩
          have hfail := hstops [] row xs rfl (fun _ h => absurd h List.not_mem_nil) hstray
          rw [htake] at hfail
          cases hfail

end RowKind

/-- There is something to read, and it is no text, or an empty one. -/
def NoName : List Bytes → Prop
  | [] => False
  | name :: _ => ∀ text, textOf name = some text → text = []

theorem nameFrom_eq_fail (values : List Bytes) :
    nameFrom values = .error .fail ↔ NoName values := by
  cases values with
  | nil => exact iff_of_false (fun h => nomatch h) not_false
  | cons name more =>
      rw [nameFrom, NoName]
      cases textOf name with
      | none => simp
      | some text => by_cases htext : text = [] <;> simp [htext]

theorem nameFrom_eq_ok {values : List Bytes} {text : Bytes} (h : nameFrom values = .ok text) :
    ∃ name more, values = name :: more ∧ textOf name = some text := by
  cases values with
  | nil => cases h
  | cons name more =>
      rw [nameFrom] at h
      cases hname : textOf name with
      | none =>
          rw [hname] at h
          cases h
      | some found =>
          rw [hname] at h
          dsimp only at h
          split at h <;> cases h
          exact ⟨name, more, rfl, hname⟩

theorem nameFrom_text {name text : Bytes} (h : textOf name = some text) (more : List Bytes) :
    nameFrom (name :: more) = if text = [] then .error .fail else .ok text := by
  rw [nameFrom, h]

theorem arrayOf_of_textOf {bytes text : Bytes} (h : textOf bytes = some text) :
    arrayOf bytes = none := by
  rw [arrayOf, head_of_textOf h]

theorem third_of_append {fields after more : List Bytes} {first second third : Bytes}
    (h : fields ++ after = first :: second :: third :: more) :
    (∃ own, fields = first :: second :: third :: own) ∨ third ∈ after := by
  rcases fields with _ | ⟨a, _ | ⟨b, _ | ⟨c, own⟩⟩⟩ <;> cases h
  · exact .inr (by simp)
  · exact .inr (by simp)
  · exact .inr (by simp)
  · exact .inl ⟨own, rfl⟩

namespace SpaceRow

/-- The values at which the first number and the name of a space are read are not these. -/
def Refused : List Bytes → Prop
  | [] => False
  | id :: more => uintOf id = none ∨ NoName more.tail

theorem spaceFrom_eq_fail (schema : Schema) (values : List Bytes) :
    spaceFrom schema values = .error .fail ↔ Refused values := by
  cases values with
  | nil => exact iff_of_false (fun h => nomatch h) not_false
  | cons id more =>
      rw [spaceFrom, Refused, ← nameFrom_eq_fail]
      cases uintOf id with
      | none => simp
      | some number => cases nameFrom more.tail <;> simp

theorem spaceFrom_eq_ok {schema schema' : Schema} {values : List Bytes}
    (h : spaceFrom schema values = .ok schema') :
    ∃ id owner name more number text, values = id :: owner :: name :: more ∧
      uintOf id = some number ∧ textOf name = some text := by
  cases values with
  | nil => cases h
  | cons id more =>
      rw [spaceFrom] at h
      cases hid : uintOf id with
      | none =>
          rw [hid] at h
          cases h
      | some number =>
          rw [hid] at h
          obtain ⟨text, htext, -⟩ := bind_eq_ok.mp h
          obtain ⟨name, rest, hmore, hname⟩ := nameFrom_eq_ok htext
          cases more with
          | nil => cases hmore
          | cons owner more =>
              cases hmore
              exact ⟨id, owner, name, rest, number, text, rfl, hid, hname⟩

/-- The rows of a space reply. -/
def kind : RowKind SpaceRow where
  Encoded := Encoded
  load := Schema.loadSpace
  reader := spaceFrom
  takeRow_eq := by
    rintro row x ⟨id, owner, name, more, harray, hid, hname⟩ schema after
    simp only [takeRow, harray, List.cons_append, spaceFrom, hid, List.tail_cons,
      nameFrom_text hname, Schema.loadSpace]
    split <;> rfl
  strays := by
    intro schema schema' row after hrow h
    rcases hrow.array_or with ⟨fields, hfields⟩ | ⟨-, -, -, -, hnone⟩
    · rw [takeRow, hfields] at h
      obtain ⟨id, owner, name, more, number, text, hvalues, hid, hname⟩ := spaceFrom_eq_ok h
      rcases third_of_append hvalues with ⟨own, rfl⟩ | hafter
      · exact .inl ⟨⟨number, text⟩, id, owner, name, own, hfields, hid, hname⟩
      · exact .inr ⟨name, hafter, arrayOf_of_textOf hname⟩
    · rw [takeRow, hnone] at h
      cases h
  steady := by
    intro schema schema' x _ row after
    refine ⟨?_, fun y => ?_⟩
    · unfold takeRow
      split
      · exact Iff.rfl
      · rw [spaceFrom_eq_fail, spaceFrom_eq_fail]
    · unfold Schema.loadSpace
      split <;> rfl

end SpaceRow

namespace IndexRow

/-- The values at which an index is read start with the number of a space, and then there is no
number of an index, or no such space, or no name. -/
def Refused (schema : Schema) : List Bytes → Prop
  | spaceId :: id :: more => ∃ number, uintOf spaceId = some number ∧
      (uintOf id = none ∨ schema.spaceHash.find (numberKey (UInt32.ofNat number)) = none ∨
        NoName more)
  | _ => False

theorem indexFrom_eq_fail (schema : Schema) (values : List Bytes) :
    indexFrom schema values = .error .fail ↔ Refused schema values := by
  rcases values with _ | ⟨spaceId, _ | ⟨id, more⟩⟩
  · exact iff_of_false (fun h => nomatch h) not_false
  · refine iff_of_false (fun h => ?_) not_false
    rw [indexFrom] at h
    cases hspaceId : uintOf spaceId <;> rw [hspaceId] at h <;> cases h
  · rw [indexFrom, Refused]
    cases uintOf spaceId with
    | none => simp
    | some number =>
        cases hid : uintOf id with
        | none => simp [hid]
        | some m =>
            cases hfind : schema.spaceHash.find (numberKey (UInt32.ofNat number)) with
            | none => simp [hid, hfind]
            | some ref =>
                simp only [← nameFrom_eq_fail, Option.some.injEq, exists_eq_left', hid, hfind,
                  reduceCtorEq, false_or]
                cases nameFrom more <;> simp

theorem indexFrom_eq_ok {schema schema' : Schema} {values : List Bytes}
    (h : indexFrom schema values = .ok schema') :
    ∃ spaceId id name more spaceNumber number text, values = spaceId :: id :: name :: more ∧
      uintOf spaceId = some spaceNumber ∧ uintOf id = some number ∧ textOf name = some text := by
  rcases values with _ | ⟨spaceId, _ | ⟨id, more⟩⟩
  · cases h
  · rw [indexFrom] at h
    cases hspaceId : uintOf spaceId <;> rw [hspaceId] at h <;> cases h
  · rw [indexFrom] at h
    cases hspaceId : uintOf spaceId with
    | none =>
        rw [hspaceId] at h
        cases h
    | some spaceNumber =>
        cases hid : uintOf id with
        | none =>
            simp only [hspaceId, hid] at h
            cases h
        | some number =>
            cases hfind : schema.spaceHash.find (numberKey (UInt32.ofNat spaceNumber)) with
            | none =>
                simp only [hspaceId, hid, hfind] at h
                cases h
            | some ref =>
                simp only [hspaceId, hid, hfind] at h
                obtain ⟨text, htext, -⟩ := bind_eq_ok.mp h
                obtain ⟨name, rest, rfl, hname⟩ := nameFrom_eq_ok htext
                exact ⟨spaceId, id, name, rest, spaceNumber, number, text, rfl, hspaceId, hid,
                  hname⟩

/-- The rows of an index reply. -/
def kind : RowKind IndexRow where
  Encoded := Encoded
  load := Schema.loadIndex
  reader := indexFrom
  takeRow_eq := by
    rintro row x ⟨spaceId, id, name, more, harray, hspaceId, hid, hname⟩ schema after
    simp only [takeRow, harray, List.cons_append, indexFrom, hspaceId, hid, nameFrom_text hname,
      Schema.loadIndex, IndexRow.spaceKey]
    cases schema.spaceHash.find (numberKey (UInt32.ofNat x.spaceId)) with
    | none => rfl
    | some ref => dsimp only; split <;> rfl
  strays := by
    intro schema schema' row after hrow h
    rcases hrow.array_or with ⟨fields, hfields⟩ | ⟨-, -, -, -, hnone⟩
    · rw [takeRow, hfields] at h
      obtain ⟨spaceId, id, name, more, spaceNumber, number, text, hvalues, hspaceId, hid, hname⟩ :=
        indexFrom_eq_ok h
      rcases third_of_append hvalues with ⟨own, rfl⟩ | hafter
      · exact .inl ⟨⟨spaceNumber, number, text⟩, spaceId, id, name, own, hfields, hspaceId, hid,
          hname⟩
      · exact .inr ⟨name, hafter, arrayOf_of_textOf hname⟩
    · rw [takeRow, hnone] at h
      cases h
  steady := by
    intro schema schema' x hload row after
    have hhash : schema'.spaceHash = schema.spaceHash := by
      unfold Schema.loadIndex at hload
      split at hload
      · cases hload
      · split at hload <;> cases hload
        rfl
    refine ⟨?_, fun y => ?_⟩
    · unfold takeRow
      split
      · exact Iff.rfl
      · rw [indexFrom_eq_fail, indexFrom_eq_fail]
        unfold Refused
        rw [hhash]
    · unfold Schema.loadIndex
      rw [hhash]
      cases schema.spaceHash.find y.spaceKey with
      | none => rfl
      | some ref => dsimp only; split <;> rfl

end IndexRow

/-- The values that the cursor can come to from the first row on that is not loaded are refused. -/
def StopsInside (Accepted : Bytes → Prop) (Refused : List Bytes → Prop) (xs : List Bytes) : Prop :=
  ∀ before row after, xs = before ++ row :: after → (∀ y ∈ before, Accepted y) → ¬Accepted row →
    ∀ fields, arrayOf row = some (fields, []) → Refused (fields ++ after)

theorem StopsInside.pair {Accepted : Bytes → Prop} {Refused : List Bytes → Prop} {x y : Bytes}
    {fields : List Bytes} (hx : Accepted x) (hy : arrayOf y = some (fields, []))
    (hrefused : Refused fields) : StopsInside Accepted Refused [x, y] := by
  intro before row after hsplit _ hrow fields' hfields
  match before with
  | [] =>
      cases hsplit
      exact absurd hx hrow
  | [_] =>
      cases hsplit
      rw [hy] at hfields
      cases hfields
      rwa [List.append_nil]
  | _ :: _ :: _ => simp at hsplit

theorem RowKind.stops_iff {ρ : Type} {kind : RowKind ρ} {schema : Schema}
    {Refused : List Bytes → Prop}
    (hrefused : ∀ values, kind.reader schema values = .error .fail ↔ Refused values)
    {xs : List Bytes} (hxs : ∀ x ∈ xs, IsValue x) :
    kind.Stops schema xs ↔ StopsInside (kind.Accepted schema) Refused xs := by
  refine forall_congr' fun before => forall_congr' fun row => forall_congr' fun after =>
    forall_congr' fun hsplit => forall_congr' fun _ => forall_congr' fun _ => ?_
  have hrow : IsValue row := hxs row (by simp [hsplit])
  rcases hrow.array_or with ⟨fields, hfields⟩ | ⟨-, -, -, -, hnone⟩
  · simp only [takeRow, hfields, hrefused, Option.some.injEq, Prod.mk.injEq, and_true,
      forall_eq']
  · simp [takeRow, hnone]

theorem SpaceRow.accepted_iff (schema : Schema) (row : Bytes) :
    kind.Accepted schema row ↔ ∃ x, SpaceRow.Encoded row x ∧ x.name ≠ [] := by
  refine exists_congr fun x => and_congr_right fun _ => ?_
  show (schema.loadSpace x).isSome ↔ _
  unfold Schema.loadSpace
  split <;> simp [*]

theorem IndexRow.accepted_iff (schema : Schema) (row : Bytes) :
    kind.Accepted schema row ↔ ∃ x, IndexRow.Encoded row x ∧ x.name ≠ [] ∧
      schema.spaceHash.find x.spaceKey ≠ none := by
  refine exists_congr fun x => and_congr_right fun _ => ?_
  show (schema.loadIndex x).isSome ↔ _
  unfold Schema.loadIndex
  cases schema.spaceHash.find x.spaceKey with
  | none => simp
  | some ref => dsimp only; split <;> simp [*]

/-- For every array of values, and every schema, loading it as spaces and as indexes is safe exactly
if the first row that is no complete row, if there is one, is refused at the values that are there:
for spaces because the first of them is no number or the third no name, for indexes because the
first is a number, and the second none, or there is no such space, or the third is no name. -/
theorem schema_loadsSafely_iff (hmp : mp.Lawful) {r : Reply} {xs : List Bytes}
    (hdata : r.dataBytes.bind arrayOf = some (xs, [])) (schema : Schema) :
    (SpaceRow.kind.LoadsSafely (beerSchemaAddSpace mp) schema xs
        (beerSchemaAddSpaces mp schema r) ↔
      StopsInside (fun row => ∃ x, SpaceRow.Encoded row x ∧ x.name ≠ []) SpaceRow.Refused xs) ∧
    (IndexRow.kind.LoadsSafely (beerSchemaAddIndex mp) schema xs
        (beerSchemaAddIndexes mp schema r) ↔
      StopsInside (fun row => ∃ x, IndexRow.Encoded row x ∧ x.name ≠ [] ∧
        schema.spaceHash.find x.spaceKey ≠ none) (IndexRow.Refused schema) xs) := by
  obtain ⟨data, hbytes, harray⟩ := Option.bind_eq_some_iff.mp hdata
  have hxs := (arrayOf_eq_some harray).2
  have hspaces := @RowKind.loadsSafely_iff _ SpaceRow.kind _ (beerSchemaAddSpace_takes hmp) _ hxs
    schema
  have hindexes := @RowKind.loadsSafely_iff _ IndexRow.kind _ (beerSchemaAddIndex_takes hmp) _ hxs
    schema
  have hspaceRows : SpaceRow.kind.Accepted schema =
      fun row => ∃ x, SpaceRow.Encoded row x ∧ x.name ≠ [] :=
    funext fun row => propext (SpaceRow.accepted_iff schema row)
  have hindexRows : IndexRow.kind.Accepted schema =
      fun row => ∃ x, IndexRow.Encoded row x ∧ x.name ≠ [] ∧
        schema.spaceHash.find x.spaceKey ≠ none :=
    funext fun row => propext (IndexRow.accepted_iff schema row)
  rw [beerSchemaAddSpaces, beerSchemaAddIndexes, addReply_rows hmp hbytes harray,
    addReply_rows hmp hbytes harray, hspaces, hindexes,
    RowKind.stops_iff (SpaceRow.spaceFrom_eq_fail schema) hxs,
    RowKind.stops_iff (IndexRow.indexFrom_eq_fail schema) hxs, hspaceRows, hindexRows]
  exact ⟨Iff.rfl, Iff.rfl⟩

/-- The space 1, "a". -/
def knowsOne : Schema := Schema.new.putSpace { name := [0x61], number := 1 }

/-- A row of three fields with a name, and one whose name is empty. -/
def namedAndNot : List Bytes := [[0x93, 1, 0, 0xa1, 0x61], [0x93, 2, 0, 0xa0]]

theorem schema_loadsSafely_iff_named :
    SpaceRow.kind.LoadsSafely (beerSchemaAddSpace .reference) knowsOne namedAndNot
        (beerSchemaAddSpaces .reference knowsOne (Reply.withData (0x92 :: namedAndNot.flatten))) ∧
      IndexRow.kind.LoadsSafely (beerSchemaAddIndex .reference) knowsOne namedAndNot
        (beerSchemaAddIndexes .reference knowsOne
          (Reply.withData (0x92 :: namedAndNot.flatten))) := by
  have hdata : (Reply.withData (0x92 :: namedAndNot.flatten)).dataBytes.bind arrayOf =
      some (namedAndNot, []) := by decide
  have hfields : arrayOf [0x93, 1, 0, 0xa1, 0x61] = some ([[1], [0], [0xa1, 0x61]], []) := by decide
  have hrefused : arrayOf [0x93, 2, 0, 0xa0] = some ([[2], [0], [0xa0]], []) := by decide
  have hempty : NoName [[0xa0]] := fun text htext => by
    have h : textOf [0xa0] = some [] := by decide
    rw [h] at htext
    cases htext
    rfl
  have hiff := schema_loadsSafely_iff Msgpuck.reference_lawful hdata knowsOne
  constructor
  · refine hiff.1.mpr (StopsInside.pair ?_ hrefused (.inr hempty))
    exact ⟨⟨1, [0x61]⟩, ⟨_, _, _, _, hfields, by decide, by decide⟩, by decide⟩
  · refine hiff.2.mpr (StopsInside.pair ?_ hrefused ⟨2, by decide, .inr (.inr hempty)⟩)
    exact ⟨⟨1, 0, [0x61]⟩, ⟨_, _, _, _, hfields, by decide, by decide, by decide⟩, by decide,
      by decide⟩

/-- A row without fields at the end of the data is read behind it, and where the number of a space
should be, a text is decoded as one. -/
theorem not_schema_loadsSafely :
    (Reply.withData [0x91, 0x90]).dataBytes.bind arrayOf = some ([[0x90]], []) ∧
      beerSchemaAddSpaces .reference .new (Reply.withData [0x91, 0x90]) = .error .outOfBounds ∧
      beerSchemaAddIndexes .reference .new (Reply.withData [0x91, 0x90]) = .error .outOfBounds ∧
      beerSchemaAddIndexes .reference .new (Reply.withData [0x91, 0x93, 0xa1, 0x61, 0, 0xa1, 0x62]) =
        .error .wrongType ∧
      ¬SpaceRow.kind.LoadsSafely (beerSchemaAddSpace .reference) .new [[0x90]]
        (beerSchemaAddSpaces .reference .new (Reply.withData [0x91, 0x90])) := by
  have hfault : beerSchemaAddSpaces .reference .new (Reply.withData [0x91, 0x90]) =
      .error .outOfBounds := rfl
  refine ⟨by decide, hfault, rfl, rfl, ?_⟩
  rintro ⟨rc, schema, hrun, -⟩
  rw [hfault] at hrun
  cases hrun

end BeeC
