import BeeC.Iter
import BeeC.TpReply

namespace BeeC

open BeeC.Wire.Loop
open BeeC.Wire.MessagePack

/-- `tp_array_itr_next`. -/
def tpArrayItrNext (mp : Msgpuck) (buf : Bytes) (itr : TpArrayItr) :
    Except Stop (Bool × TpArrayItr) := do
  let curIndex ← increment itr.curIndex.toInt
  let itr := { itr with curIndex := Int32.ofInt curIndex }
  if unsigned curIndex ≥ itr.elemCount.toNat then return (false, itr)
  let elem := if curIndex = 0 then itr.firstElem else itr.elemEnd
  let elemEnd ← nextAt mp buf elem
  return (true, { itr with elem, elemEnd })

/-- `tp_array_itr_reset`. -/
def tpArrayItrReset (itr : TpArrayItr) : TpArrayItr :=
  { itr with curIndex := -1, elem := none, elemEnd := none }

/-- `(uint32_t)(cur_index + 1) < elem_count`. -/
def tpArrayItrMore (itr : TpArrayItr) : Except Stop Bool := do
  let curIndex ← increment itr.curIndex.toInt
  return unsigned curIndex < itr.elemCount.toNat

/-- The two iterators of a `struct tpresponse`. -/
structure TpRows where
  tupleItr : TpArrayItr
  fieldItr : TpArrayItr := {}

namespace TpRows

variable (mp : Msgpuck) (buf : Bytes)

/-- `tp_rewind`. -/
def tpRewind (s : TpRows) : TpRows := ⟨tpArrayItrReset s.tupleItr, {}⟩

/-- `tp_gettuple` and `tp_tuplesize`. -/
def tpGettuple (s : TpRows) : Option Bytes := slice buf s.tupleItr.elem s.tupleItr.elemEnd

/-- `tp_getfield` and `tp_getfieldsize`. -/
def tpGetfield (s : TpRows) : Option Bytes := slice buf s.fieldItr.elem s.fieldItr.elemEnd

/-- `tp_next`. The result of `tp_array_itr_init` is not looked at: where it fails, the iterator over
the fields is zero. -/
def tpNext (s : TpRows) : Except Stop (Bool × TpRows) := do
  let (more, tupleItr) ← tpArrayItrNext mp buf s.tupleItr
  if more then
    match tpArrayItrInit mp buf (tupleItr.elem.getD 0) (tupleItr.elemEnd.getD 0) with
    | .ok fieldItr => return (true, ⟨tupleItr, fieldItr⟩)
    | .error .fail => return (true, ⟨tupleItr, {}⟩)
    | .error (.fault reason) => throw (.fault reason)
  else return (false, ⟨tupleItr, {}⟩)

/-- `tp_hasnext`. -/
def tpHasnext (s : TpRows) : Except Stop Bool := tpArrayItrMore s.tupleItr

/-- `tp_hasnextfield`. -/
def tpHasnextfield (s : TpRows) : Except Stop Bool := tpArrayItrMore s.fieldItr

/-- `tp_rewindfield`. -/
def tpRewindfield (s : TpRows) : TpRows := { s with fieldItr := tpArrayItrReset s.fieldItr }

/-- `tp_nextfield`. -/
def tpNextfield (s : TpRows) : Except Stop (Bool × TpRows) := do
  let (more, fieldItr) ← tpArrayItrNext mp buf s.fieldItr
  return (more, { s with fieldItr })

/-- `while (tp_nextfield(r))`, for at most so many fields. -/
def fieldsFrom : (limit : Nat) → TpRows → Except Stop (List (Option Bytes) × TpRows)
  | 0, s => return ([], s)
  | limit + 1, s => do
      let (more, s) ← s.tpNextfield mp buf
      if more then
        let field := s.tpGetfield buf
        let (fields, s) ← fieldsFrom limit s
        return (field :: fields, s)
      else return ([], s)

/-- `while (tp_next(r))`, for at most so many tuples, with `tp_gettuple` and a loop over the fields
of each. The inner loop makes one call more than there are fields. -/
def tuplesFrom : (limit : Nat) → TpRows → Except Stop (List (Option Bytes × List (Option Bytes)))
  | 0, _ => return []
  | limit + 1, s => do
      let (more, s) ← s.tpNext mp buf
      if more then
        let tuple := s.tpGettuple buf
        let (fields, s) ← s.fieldsFrom mp buf (s.fieldItr.elemCount.toNat + 1)
        let tuples ← tuplesFrom limit s
        return (tuple, fields) :: tuples
      else return []

end TpRows

/-- The tuples of a reply that `tp_reply` has decoded, each with its fields. -/
def TpResponse.tuples (mp : Msgpuck) (buf : Bytes) (r : TpResponse) :
    Except Stop (List (Option Bytes × List (Option Bytes))) :=
  TpRows.tuplesFrom mp buf (r.tupleItr.elemCount.toNat + 1) ⟨r.tupleItr, {}⟩

/-- The elements of an array; there are none of another value. -/
def elementsOf (bytes : Bytes) : List Bytes := ((arrayOf bytes).map Prod.fst).getD []

/-- The iterator has come to a place among the elements that stand behind the first bytes. -/
structure TpArrayItr.Stands (before : Bytes) (elems : List Bytes) (place : Nat) (itr : TpArrayItr) :
    Prop where
  curIndex_eq : itr.curIndex.toInt = (place : Int) - 1
  elemCount_eq : itr.elemCount.toNat = elems.length
  firstElem_eq : itr.firstElem = some before.length
  elemEnd_eq : 0 < place → itr.elemEnd = some (before.length + (elems.take place).flatten.length)

section Next

variable {mp : Msgpuck} {before rest : Bytes} {elems : List Bytes} {place : Nat} {itr : TpArrayItr}

theorem TpArrayItr.Stands.increment (h : itr.Stands before elems place) (hplace : place < 2 ^ 31) :
    BeeC.increment itr.curIndex.toInt = .ok place ∧ unsigned place = place ∧
      (Int32.ofInt place).toInt = ((place + 1 : Nat) : Int) - 1 := by
  refine ⟨?_, unsigned_natCast (by omega), ?_⟩
  · rw [h.curIndex_eq, increment_eq hplace]
  · rw [Int32.toInt_ofInt_of_le (by omega) (by omega)]
    omega

theorem TpArrayItr.Stands.more (h : itr.Stands before elems place) (hplace : place < 2 ^ 31) :
    tpArrayItrMore itr = .ok (decide (place < elems.length)) := by
  obtain ⟨hincrement, hunsigned, -⟩ := h.increment hplace
  simp only [tpArrayItrMore, hincrement, ok_bind, hunsigned, h.elemCount_eq, pure_eq]

theorem TpArrayItr.Stands.last (h : itr.Stands before elems elems.length)
    (hsmall : elems.length < 2 ^ 31) (mp : Msgpuck) (buf : Bytes) :
    ∃ itr', tpArrayItrNext mp buf itr = .ok (false, itr') := by
  obtain ⟨hincrement, hunsigned, -⟩ := h.increment hsmall
  refine ⟨{ itr with curIndex := Int32.ofInt elems.length }, ?_⟩
  simp only [tpArrayItrNext, hincrement, ok_bind, hunsigned, h.elemCount_eq, ge_iff_le, le_refl,
    if_true, pure_eq]

theorem TpArrayItr.Stands.reset (h : itr.Stands before elems place) :
    (tpArrayItrReset itr).Stands before elems 0 :=
  ⟨rfl, h.elemCount_eq, h.firstElem_eq, fun hpos => absurd hpos (Nat.lt_irrefl 0)⟩

theorem elems_split (before rest : Bytes) (hplace : place < elems.length) :
    before ++ (elems.flatten ++ rest) = (before ++ (elems.take place).flatten) ++
      (elems[place] ++ ((elems.drop (place + 1)).flatten ++ rest)) := by
  have hsplit : elems.flatten =
      (elems.take place).flatten ++ (elems[place] ++ (elems.drop (place + 1)).flatten) := by
    rw [← List.flatten_cons, ← List.drop_eq_getElem_cons hplace, ← List.flatten_append,
      List.take_append_drop]
  rw [hsplit]
  simp only [List.append_assoc]

theorem TpArrayItr.Stands.next (hmp : mp.Lawful) (h : itr.Stands before elems place)
    (hvalues : ∀ x ∈ elems, IsValue x) (hsmall : elems.length < 2 ^ 31)
    (hplace : place < elems.length) :
    ∃ itr', tpArrayItrNext mp (before ++ (elems.flatten ++ rest)) itr = .ok (true, itr') ∧
      itr'.Stands before elems (place + 1) ∧
      itr'.elem = some (before ++ (elems.take place).flatten).length ∧
      itr'.elemEnd =
        some ((before ++ (elems.take place).flatten).length + elems[place].length) := by
  obtain ⟨hincrement, hunsigned, hindex⟩ := h.increment (Nat.lt_trans hplace hsmall)
  have hstart : (if (place : Int) = 0 then itr.firstElem else itr.elemEnd) =
      some (before ++ (elems.take place).flatten).length := by
    split
    · rename_i hzero
      have hzero : place = 0 := by omega
      rw [h.firstElem_eq, hzero, List.take_zero, List.flatten_nil, List.append_nil]
    · rw [h.elemEnd_eq (by omega), List.length_append]
  have hnext := @nextAt_eq _ hmp (before ++ (elems.take place).flatten) elems[place]
    ((elems.drop (place + 1)).flatten ++ rest) (hvalues _ (List.getElem_mem hplace))
  rw [← elems_split before rest hplace] at hnext
  have hmore : ¬unsigned place ≥ itr.elemCount.toNat := by
    rw [hunsigned, h.elemCount_eq]
    omega
  refine ⟨{ itr with
    curIndex := Int32.ofInt place
    elem := some (before ++ (elems.take place).flatten).length
    elemEnd := some ((before ++ (elems.take place).flatten).length + elems[place].length) }, ?_,
    ⟨hindex, h.elemCount_eq, h.firstElem_eq, fun _ => ?_⟩, rfl, rfl⟩
  · simp only [tpArrayItrNext, hincrement, ok_bind, hmore, if_false, hstart, hnext, pure_eq]
  · dsimp only
    rw [List.take_succ_eq_append_getElem hplace, List.flatten_append, List.flatten_singleton,
      List.length_append, List.length_append, Nat.add_assoc]

theorem slice_elem (before rest : Bytes) (hplace : place < elems.length) :
    slice (before ++ (elems.flatten ++ rest)) (some (before ++ (elems.take place).flatten).length)
      (some ((before ++ (elems.take place).flatten).length + elems[place].length)) =
        some elems[place] := by
  rw [elems_split before rest hplace, slice, List.drop_left, Nat.add_sub_cancel_left,
    List.take_left]

theorem tpArrayItrInit_stands (hmp : mp.Lawful) {buf : Bytes} {start stop : Nat}
    (harray : arrayOf ((buf.drop start).take (stop - start)) = some (elems, rest)) :
    ∃ itr before after, tpArrayItrInit mp buf start stop = .ok itr ∧
      buf = before ++ (elems.flatten ++ after) ∧ itr.Stands before elems 0 := by
  obtain ⟨hhead, hvalues⟩ := arrayOf_eq_some harray
  obtain ⟨value, hnext⟩ := next_of_arrayOf harray
  obtain ⟨used, hused, hpos, -⟩ := head_suffix hhead
  generalize hdata : (buf.drop start).take (stop - start) = data at *
  have hbuf : buf.drop start = data ++ (buf.drop start).drop (stop - start) := by
    rw [← hdata, List.take_append_drop]
  have hlength : data.length ≠ 0 := by
    rw [hused, List.length_append]
    omega
  have hstart : (buf.take start).length = start := by
    have hdrop := congrArg List.length hbuf
    rw [List.length_drop, List.length_append] at hdrop
    rw [List.length_take]
    omega
  have hexpect : expect mp .array data = .ok () := expect_eq hmp hhead rfl
  have hcheck : (mp.mpCheck data).isNone = false := by
    rw [hmp.check_eq, hnext]
    rfl
  have hcount : (UInt32.ofNat elems.length).toNat = elems.length :=
    UInt32.toNat_ofNat_of_lt' (fits_of_head hhead)
  refine ⟨{
    data := some start
    firstElem := some (start + (data.length - (elems.flatten ++ rest).length))
    elemCount := UInt32.ofNat elems.length
    curIndex := -1 }, buf.take start ++ used, rest ++ (buf.drop start).drop (stop - start), ?_, ?_,
    ⟨rfl, hcount, ?_, fun h => absurd h (Nat.lt_irrefl 0)⟩⟩
  · simp only [tpArrayItrInit, hdata, hlength, if_false, hexpect, ok_bind, hcheck,
      Bool.false_eq_true, Msgpuck.decodeArray_eq hmp hhead, pure_eq]
  · conv_lhs => rw [← List.take_append_drop start buf, hbuf, hused]
    simp only [List.append_assoc]
  · have hfront : data.length - (elems.flatten ++ rest).length = used.length := by
      rw [hused, List.length_append, Nat.add_sub_cancel]
    dsimp only
    rw [hfront, List.length_append, hstart]

theorem tpArrayItrInit_fails (hmp : mp.Lawful) {buf : Bytes} {start stop : Nat}
    (hvalue : IsValue ((buf.drop start).take (stop - start)))
    (hnone : arrayOf ((buf.drop start).take (stop - start)) = none) :
    tpArrayItrInit mp buf start stop = .error .fail := by
  have hlength := hvalue.length_pos.ne'
  rcases hvalue.array_or with ⟨xs, hxs⟩ | ⟨hd, after, hhead, hkind, -⟩
  · rw [hxs] at hnone
    cases hnone
  · have hexpect := expect_wrongType hmp hhead hkind
    simp only [tpArrayItrInit, hlength, if_false, hexpect, error_bind]

end Next

namespace TpRows

variable {mp : Msgpuck} (hmp : mp.Lawful) {before after : Bytes} {elems : List Bytes}

include hmp

/-- The inner loop: the induction is on the calls that may be left. -/
theorem fieldsFrom_spec (hvalues : ∀ x ∈ elems, IsValue x) (hsmall : elems.length < 2 ^ 31)
    (limit : Nat) {place : Nat} {s : TpRows} (h : s.fieldItr.Stands before elems place)
    (hplace : place ≤ elems.length) (hlimit : elems.length < place + limit) :
    ∃ s', s.fieldsFrom mp (before ++ (elems.flatten ++ after)) limit =
        .ok ((elems.drop place).map some, s') ∧ s'.tupleItr = s.tupleItr := by
  induction limit generalizing place s with
  | zero => omega
  | succ limit ih =>
      by_cases hmore : place < elems.length
      · obtain ⟨itr', hnext, hstands, helem, hend⟩ := @TpArrayItr.Stands.next _ _ after _ _ _ hmp h
          hvalues hsmall hmore
        obtain ⟨s', hrest, hsame⟩ := @ih (place + 1) { s with fieldItr := itr' } hstands hmore
          (by omega)
        refine ⟨s', ?_, hsame⟩
        have hfield := slice_elem before after hmore
        rw [← hend, ← helem] at hfield
        simp only [fieldsFrom, tpNextfield, hnext, ok_bind, pure_eq, if_true, tpGetfield, hfield,
          hrest]
        rw [List.drop_eq_getElem_cons hmore, List.map_cons]
      · obtain rfl : place = elems.length := by omega
        obtain ⟨itr', hlast⟩ := h.last hsmall mp (before ++ (elems.flatten ++ after))
        refine ⟨{ s with fieldItr := itr' }, ?_, rfl⟩
        simp only [fieldsFrom, tpNextfield, hlast, ok_bind, pure_eq, Bool.false_eq_true, if_false,
          List.drop_length, List.map_nil]

omit hmp in
theorem length_lt {buf : Bytes} (hbuf : buf = before ++ (elems.flatten ++ after))
    (hsmall : buf.length < 2 ^ 31) (hvalues : ∀ x ∈ elems, IsValue x) : elems.length < 2 ^ 31 := by
  have hle := length_le_flatten hvalues
  rw [hbuf, List.length_append, List.length_append] at hsmall
  omega

omit hmp in
theorem fieldsFrom_none (mp : Msgpuck) (buf : Bytes) (itr : TpArrayItr) :
    fieldsFrom mp buf 1 ⟨itr, {}⟩ = .ok ([], ⟨itr, { curIndex := 1 }⟩) := rfl

theorem tpNext_spec {buf : Bytes} (hbuf : buf = before ++ (elems.flatten ++ after))
    (hsmall : buf.length < 2 ^ 31) (hvalues : ∀ x ∈ elems, IsValue x) {place : Nat} {s : TpRows}
    (h : s.tupleItr.Stands before elems place) (hplace : place < elems.length) :
    ∃ s' s'', s.tpNext mp buf = .ok (true, s') ∧ s'.tpGettuple buf = some elems[place] ∧
      s'.fieldsFrom mp buf (s'.fieldItr.elemCount.toNat + 1) =
        .ok ((elementsOf elems[place]).map some, s'') ∧
      s''.tupleItr.Stands before elems (place + 1) := by
  have hvalue := hvalues _ (List.getElem_mem hplace)
  obtain ⟨itr', hnext, hstands, helem, hend⟩ := @TpArrayItr.Stands.next _ _ after _ _ _ hmp h
    hvalues (length_lt hbuf hsmall hvalues) hplace
  have hslice := slice_elem before after hplace
  rw [← hbuf] at hnext hslice
  have hrow := Option.some.inj hslice
  rw [← hend, ← helem] at hslice
  rcases hvalue.array_or with ⟨xs, hxs⟩ | ⟨-, -, -, -, hnone⟩
  · have harray := hxs
    rw [← hrow] at harray
    obtain ⟨fieldItr, front, back, hinit, hsplit, hfields⟩ := tpArrayItrInit_stands hmp harray
    have hall := (arrayOf_eq_some hxs).2
    obtain ⟨s'', hloop, hsame⟩ := @fieldsFrom_spec _ hmp front back xs hall
      (length_lt hsplit hsmall hall) (xs.length + 1) 0 ⟨itr', fieldItr⟩ hfields (Nat.zero_le _)
      (by omega)
    refine ⟨⟨itr', fieldItr⟩, s'', ?_, hslice, ?_, hsame ▸ hstands⟩
    · simp only [tpNext, hnext, ok_bind, if_true, helem, hend, Option.getD_some, hinit, pure_eq]
    · have helements : elementsOf elems[place] = xs := by
        rw [elementsOf, hxs]
        rfl
      rw [hfields.elemCount_eq, helements, ← List.drop_zero (l := xs)]
      rw [← hsplit] at hloop
      exact hloop
  · have hfails : tpArrayItrInit mp buf _ _ = .error .fail :=
      tpArrayItrInit_fails hmp (hrow.symm ▸ hvalue) (hrow.symm ▸ hnone)
    refine ⟨⟨itr', {}⟩, ⟨itr', { curIndex := 1 }⟩, ?_, hslice, ?_, hstands⟩
    · simp only [tpNext, hnext, ok_bind, if_true, helem, hend, Option.getD_some, hfails, pure_eq]
    · have helements : elementsOf elems[place] = [] := by
        rw [elementsOf, hnone]
        rfl
      rw [helements]
      exact fieldsFrom_none mp buf itr'

theorem tpHasnext_eq {buf : Bytes} (hbuf : buf = before ++ (elems.flatten ++ after))
    (hsmall : buf.length < 2 ^ 31) (hvalues : ∀ x ∈ elems, IsValue x) {place : Nat} {s : TpRows}
    (h : s.tupleItr.Stands before elems place) (hplace : place ≤ elems.length) :
    s.tpHasnext = (s.tpNext mp buf).map Prod.fst := by
  have hcount := length_lt hbuf hsmall hvalues
  rw [tpHasnext, h.more (by omega)]
  by_cases hmore : place < elems.length
  · obtain ⟨s', s'', hnext, -⟩ := tpNext_spec hmp hbuf hsmall hvalues h hmore
    rw [hnext, decide_eq_true hmore]
    rfl
  · obtain rfl : place = elems.length := by omega
    obtain ⟨itr', hlast⟩ := h.last hcount mp buf
    simp only [tpNext, hlast, ok_bind, pure_eq, Bool.false_eq_true, if_false, decide_eq_false hmore,
      Except.map]

theorem tuplesFrom_spec {buf : Bytes} (hbuf : buf = before ++ (elems.flatten ++ after))
    (hsmall : buf.length < 2 ^ 31) (hvalues : ∀ x ∈ elems, IsValue x) (limit : Nat) {place : Nat}
    {s : TpRows} (h : s.tupleItr.Stands before elems place) (hplace : place ≤ elems.length)
    (hlimit : elems.length < place + limit) :
    tuplesFrom mp buf limit s =
      .ok ((elems.drop place).map fun tuple => (some tuple, (elementsOf tuple).map some)) := by
  induction limit generalizing place s with
  | zero => omega
  | succ limit ih =>
      by_cases hmore : place < elems.length
      · obtain ⟨s', s'', hnext, htuple, hfields, hstands⟩ :=
          tpNext_spec hmp hbuf hsmall hvalues h hmore
        simp only [tuplesFrom, hnext, ok_bind, if_true, htuple, hfields,
          ih hstands hmore (by omega), pure_eq]
        rw [List.drop_eq_getElem_cons hmore, List.map_cons]
      · obtain rfl : place = elems.length := by omega
        obtain ⟨itr', hlast⟩ := h.last (length_lt hbuf hsmall hvalues) mp buf
        simp only [tuplesFrom, tpNext, hlast, ok_bind, pure_eq, Bool.false_eq_true, if_false,
          List.drop_length, List.map_nil]

theorem tuplesFrom_rewind {buf : Bytes} (hbuf : buf = before ++ (elems.flatten ++ after))
    (hsmall : buf.length < 2 ^ 31) (hvalues : ∀ x ∈ elems, IsValue x) {place : Nat} {s : TpRows}
    (h : s.tupleItr.Stands before elems place) :
    tuplesFrom mp buf (elems.length + 1) s.tpRewind =
      .ok (elems.map fun tuple => (some tuple, (elementsOf tuple).map some)) := by
  have hloop := tuplesFrom_spec hmp hbuf hsmall hvalues (elems.length + 1) (s := s.tpRewind) h.reset
    (Nat.zero_le _) (by omega)
  rw [List.drop_zero] at hloop
  exact hloop

theorem fieldsFrom_rewindfield (hvalues : ∀ x ∈ elems, IsValue x) (hsmall : elems.length < 2 ^ 31)
    {place : Nat} {s : TpRows} (h : s.fieldItr.Stands before elems place) :
    ∃ s', s.tpRewindfield.fieldsFrom mp (before ++ (elems.flatten ++ after)) (elems.length + 1) =
      .ok (elems.map some, s') := by
  obtain ⟨s', hloop, -⟩ := @fieldsFrom_spec _ hmp before after elems hvalues hsmall
    (elems.length + 1) 0 s.tpRewindfield h.reset (Nat.zero_le _) (by omega)
  rw [List.drop_zero] at hloop
  exact ⟨s', hloop⟩

end TpRows

/-! What `tp_reply` leaves in the iterator over the tuples. -/

section Reply

variable {mp : Msgpuck} {buf : Bytes}

/-- The response has no data, and its iterator is zero, or it is the one over the data. -/
def TpResponse.Iterates (mp : Msgpuck) (buf : Bytes) (r : TpResponse) : Prop :=
  (r.data = none ∧ r.tupleItr = {}) ∨ ∃ start stop, r.data = some start ∧
    r.dataEnd = some stop ∧ tpArrayItrInit mp buf start stop = .ok r.tupleItr

theorem TpResponse.mark_keeps {r r' : TpResponse} {key : UInt32} (h : r.mark key = .ok r') :
    r'.data = r.data ∧ r'.dataEnd = r.dataEnd ∧ r'.tupleItr = r.tupleItr := by
  unfold TpResponse.mark at h
  split at h
  · cases h
    exact ⟨rfl, rfl, rfl⟩
  · cases h

theorem tpHeaderPair_keeps {s s' : TpResponse × Bytes} (h : tpHeaderPair mp s = .ok s') :
    s'.1.data = s.1.data ∧ s'.1.dataEnd = s.1.dataEnd ∧ s'.1.tupleItr = s.1.tupleItr := by
  obtain ⟨r, p⟩ := s
  unfold tpHeaderPair at h
  dsimp only at h
  obtain ⟨-, -, h⟩ := bind_eq_ok.mp h
  obtain ⟨⟨key, p⟩, -, h⟩ := bind_eq_ok.mp h
  obtain ⟨-, -, h⟩ := bind_eq_ok.mp h
  dsimp only at h
  split at h
  · obtain ⟨-, -, h⟩ := bind_eq_ok.mp h
    obtain ⟨⟨value, p⟩, -, h⟩ := bind_eq_ok.mp h
    obtain ⟨r', hmark, h⟩ := bind_eq_ok.mp h
    cases h
    have hkeeps := TpResponse.mark_keeps hmark
    exact hkeeps
  · split at h
    · obtain ⟨-, -, h⟩ := bind_eq_ok.mp h
      obtain ⟨⟨value, p⟩, -, h⟩ := bind_eq_ok.mp h
      obtain ⟨r', hmark, h⟩ := bind_eq_ok.mp h
      cases h
      have hkeeps := TpResponse.mark_keeps hmark
      exact hkeeps
    · obtain ⟨p, -, h⟩ := bind_eq_ok.mp h
      obtain ⟨r', hmark, h⟩ := bind_eq_ok.mp h
      cases h
      have hkeeps := TpResponse.mark_keeps hmark
      exact hkeeps

/-- The ends of the data are set together, and the iterator is not touched. -/
def Unset (r : TpResponse) : Prop := r.data.isSome = r.dataEnd.isSome ∧ r.tupleItr = {}

theorem Unset.of_mark {r r' : TpResponse} {key : UInt32} (h : Unset r)
    (hmark : r.mark key = .ok r') : Unset r' := by
  obtain ⟨hdata, hend, hitr⟩ := TpResponse.mark_keeps hmark
  exact ⟨by rw [hdata, hend]; exact h.1, hitr.trans h.2⟩

theorem tpBodyPair_unset {size : Nat} {s s' : TpResponse × Bytes} (hunset : Unset s.1)
    (h : tpBodyPair mp size s = .ok s') : Unset s'.1 := by
  obtain ⟨r, p⟩ := s
  unfold tpBodyPair at h
  dsimp only at h
  obtain ⟨⟨key, p⟩, -, h⟩ := bind_eq_ok.mp h
  dsimp only at h
  split at h
  · obtain ⟨-, -, h⟩ := bind_eq_ok.mp h
    obtain ⟨⟨elen, p⟩, -, h⟩ := bind_eq_ok.mp h
    obtain ⟨rest, -, h⟩ := bind_eq_ok.mp h
    obtain ⟨r', hmark, h⟩ := bind_eq_ok.mp h
    cases h
    refine Unset.of_mark ?_ hmark
    exact hunset
  · split at h
    · obtain ⟨-, -, h⟩ := bind_eq_ok.mp h
      obtain ⟨rest, -, h⟩ := bind_eq_ok.mp h
      obtain ⟨r', hmark, h⟩ := bind_eq_ok.mp h
      cases h
      refine Unset.of_mark ?_ hmark
      exact ⟨rfl, hunset.2⟩
    · obtain ⟨p, -, h⟩ := bind_eq_ok.mp h
      obtain ⟨r', hmark, h⟩ := bind_eq_ok.mp h
      cases h
      exact hunset.of_mark hmark

theorem tpReplyBody_iterates {r r' : TpResponse} {p : Bytes} {size : Nat} (hunset : Unset r)
    (h : tpReplyBody mp buf r p = .ok (size, r')) : r'.Iterates mp buf := by
  unfold tpReplyBody at h
  obtain ⟨⟨n, p⟩, -, h⟩ := bind_eq_ok.mp h
  obtain ⟨⟨read, rest⟩, hloop, h⟩ := bind_eq_ok.mp h
  have hread : Unset read := @loop_preserves _ _ (tpBodyPair mp buf.length) (fun s => Unset s.1)
    (fun _ _ hs hstep => tpBodyPair_unset hs hstep) _ (r, p) (read, rest) hunset hloop
  dsimp only at h
  cases hdata : read.data with
  | none =>
      simp only [hdata] at h
      cases h
      exact .inl ⟨hdata, hread.2⟩
  | some start =>
      simp only [hdata] at h
      obtain ⟨itr, hinit, h⟩ := bind_eq_ok.mp h
      cases h
      have hpaired := hread.1
      rw [hdata, Option.isSome_some] at hpaired
      obtain ⟨stop, hstop⟩ := Option.isSome_iff_exists.mp hpaired.symm
      rw [hstop, Option.getD_some] at hinit
      exact .inr ⟨start, stop, rfl, hstop, hinit⟩

theorem tpReply_iterates {size : Nat} {r : TpResponse} (h : tpReply mp buf = .ok (size, r)) :
    r.Iterates mp buf := by
  unfold tpReply at h
  split at h
  · cases h
    exact .inl ⟨rfl, rfl⟩
  · split at h
    · cases h
    · obtain ⟨-, -, h⟩ := bind_eq_ok.mp h
      obtain ⟨⟨len, p⟩, -, h⟩ := bind_eq_ok.mp h
      dsimp only at h
      split at h
      · cases h
        exact .inl ⟨rfl, rfl⟩
      · unfold tpReplyHeader at h
        obtain ⟨⟨n, p⟩, -, h⟩ := bind_eq_ok.mp h
        obtain ⟨⟨read, rest⟩, hloop, h⟩ := bind_eq_ok.mp h
        have hread : read.data = none ∧ read.dataEnd = none ∧ read.tupleItr = {} :=
          @loop_preserves _ _ (tpHeaderPair mp)
            (fun s => s.1.data = none ∧ s.1.dataEnd = none ∧ s.1.tupleItr = {})
            (fun s s' hs hstep => by
              obtain ⟨hdata, hend, hitr⟩ := tpHeaderPair_keeps hstep
              exact ⟨hdata.trans hs.1, hend.trans hs.2.1, hitr.trans hs.2.2⟩)
            _ ({}, p) (read, rest) ⟨rfl, rfl, rfl⟩ hloop
        dsimp only at h
        split at h
        · cases h
          exact .inl ⟨hread.1, hread.2.2⟩
        · exact tpReplyBody_iterates ⟨by rw [hread.1, hread.2.1], hread.2.2⟩ h

theorem arrayOf_of_init (hmp : mp.Lawful) {start stop : Nat} {itr : TpArrayItr}
    (h : tpArrayItrInit mp buf start stop = .ok itr) :
    ∃ elems rest, arrayOf ((buf.drop start).take (stop - start)) = some (elems, rest) := by
  unfold tpArrayItrInit at h
  generalize (buf.drop start).take (stop - start) = data at h ⊢
  dsimp only at h
  split at h
  · cases h
  · obtain ⟨⟨⟩, hexpect, h⟩ := bind_eq_ok.mp h
    split at h
    · cases h
    · rename_i hcheck
      rw [hmp.check_eq] at hcheck
      obtain ⟨⟨value, rest⟩, hnext⟩ : ∃ p, next data = some p := by
        refine Option.ne_none_iff_exists'.mp fun hnone => ?_
        rw [hnone] at hcheck
        exact hcheck rfl
      obtain ⟨hdata, hvalue⟩ := next_eq_some hnext
      rcases hvalue.array_or with ⟨xs, hxs⟩ | ⟨hd, after, hhead, hkind, -⟩
      · obtain ⟨hhead, hvalues⟩ := arrayOf_eq_some hxs
        rw [List.append_nil] at hhead
        refine ⟨xs, rest, ?_⟩
        rw [hdata, arrayOf, head_append hhead]
        exact items_flatten hvalues rest
      · have hwrong := expect_wrongType hmp (head_append hhead rest) hkind
        rw [← hdata, hexpect] at hwrong
        cases hwrong

/-- The loops over a reply that `tp_reply` has decoded come to the tuples of its data in order, and
in each tuple to its fields, when the buffer has less than 2^31 bytes. A tuple that is not an array
has no fields. -/
theorem tpReply_tuples (hmp : mp.Lawful) {size : Nat} {r : TpResponse}
    (hreply : tpReply mp buf = .ok (size, r)) (hsmall : buf.length < 2 ^ 31) :
    r.tuples mp buf = .ok ((elementsOf ((r.dataBytes buf).getD [])).map
      fun tuple => (some tuple, (elementsOf tuple).map some)) := by
  rcases tpReply_iterates hreply with ⟨hdata, hitr⟩ | ⟨start, stop, hdata, hstop, hinit⟩
  · rw [TpResponse.tuples, hitr, TpResponse.dataBytes, hdata]
    rfl
  · obtain ⟨elems, rest, harray⟩ := arrayOf_of_init hmp hinit
    obtain ⟨itr, before, after, hinit', hbuf, hstands⟩ := tpArrayItrInit_stands hmp harray
    rw [hinit, Except.ok.injEq] at hinit'
    subst hinit'
    have hbytes : elementsOf ((r.dataBytes buf).getD []) = elems := by
      rw [TpResponse.dataBytes, hdata, hstop, slice, Option.getD_some, elementsOf, harray]
      rfl
    have hloop := TpRows.tuplesFrom_spec hmp hbuf hsmall (arrayOf_eq_some harray).2
      (elems.length + 1) (s := ⟨r.tupleItr, {}⟩) hstands (Nat.zero_le _) (by omega)
    rw [List.drop_zero] at hloop
    rw [hbytes, TpResponse.tuples, hstands.elemCount_eq]
    exact hloop

end Reply

/-- A reply with a tuple of two fields, and a number in the place of a tuple. -/
def twoTuples : Bytes := [0xce, 0, 0, 0, 12, 0x82, 0, 0, 1, 7, 0x81, 0x30, 0x92, 0x92, 1, 2, 5]

theorem tpReply_tuples_two :
    ∃ size r, tpReply .reference twoTuples = .ok (size, r) ∧
      r.tuples .reference twoTuples =
        .ok [(some [0x92, 1, 2], [some [1], some [2]]), (some [5], [])] :=
  ⟨17, _, rfl, tpReply_tuples Msgpuck.reference_lawful rfl (by decide)⟩

end BeeC
