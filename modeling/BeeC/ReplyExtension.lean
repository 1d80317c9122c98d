import BeeC.ReplyReading

/-!
What becomes of a reply when its body has pairs the decoder does not know. The body loop does
not skip the value of such a pair, so a pair is without effect in one place only: where the
loop has read as many entries as the body had pairs.
-/

namespace BeeC

open BeeC.Wire.MessagePack
open BeeC.Wire.Loop
open BeeC.Wire.Encoding

/-- A pair with a key below 64 that is neither `DATA` nor `ERROR`, and any value. -/
structure Extra where
  key : Bytes
  number : Nat
  value : Bytes
  key_eq : uintOf key = some number
  number_lt : number < 64
  not_data : number ≠ ResponseKey.data.id.toNat
  not_error : number ≠ ResponseKey.error.id.toNat
  isValue : IsValue value

/-- A body with places between its pairs. -/
abbrev Places := List (Option (Bytes × Bytes))

namespace Places

/-- The pairs without the places. -/
def base (places : Places) : List (Bytes × Bytes) := places.filterMap id

def count (places : Places) : Nat := places.countP Option.isNone

/-- The pairs, with one extra pair in each place. -/
def fill : Places → List Extra → List (Bytes × Bytes)
  | [], _ => []
  | some pair :: places, extras => pair :: fill places extras
  | none :: places, extra :: extras => (extra.key, extra.value) :: fill places extras
  | none :: places, [] => fill places []

end Places

/-- The items that are left when the body loop has taken some turns. -/
def itemsAfter : (turns : Nat) → List Bytes → List Bytes
  | 0, items => items
  | _ + 1, [] => []
  | turns + 1, item :: rest =>
      if keyOf item = some ResponseKey.data.id ∨ keyOf item = some ResponseKey.error.id then
        itemsAfter turns rest.tail
      else itemsAfter turns rest

/-- There is no place, or the only one is where the body loop stops when it reads the pairs. -/
def OnlyAtStop (places : Places) : Prop :=
  places.count = 0 ∨ ∃ before after : List (Bytes × Bytes),
    places = before.map some ++ none :: after.map some ∧
      itemsAfter (before.length + after.length) (unpair (before ++ after)) = unpair after

/-- The payload is a header map, a body map, and what follows. -/
def Parses (payload : Bytes) (header body : List (Bytes × Bytes)) (tail : Bytes) : Prop :=
  ∃ rest, mapOf payload = some (header, rest) ∧ mapOf rest = some (body, tail)

/-- Two decodings have one result, and replies that differ in the bits of the keys only. -/
def Undisturbed (keys : List Nat) (out out' : Except Fault (Int × Reply)) : Prop :=
  ∃ rc r r', out = .ok (rc, r) ∧ out' = .ok (rc, r') ∧ r'.sync = r.sync ∧ r'.code = r.code ∧
    r'.schemaId = r.schemaId ∧ r'.errorText = r.errorText ∧ r'.dataBytes = r.dataBytes ∧
    ∀ i, r'.bitmap.toNat.testBit i = (r.bitmap.toNat.testBit i || decide (i ∈ keys))

/-- However the places are filled, the reply is undisturbed. -/
def Indifferent (decode : Bytes → Except Fault (Int × Reply)) (payload : Bytes)
    (header : List (Bytes × Bytes)) (places : Places) (tail : Bytes) : Prop :=
  ∀ (extras : List Extra) (payload' : Bytes), extras.length = places.count →
    payload'.length < 2 ^ 32 → Parses payload' header (places.fill extras) tail →
      Undisturbed (extras.map Extra.number) (decode payload) (decode payload')

/-- The same for fields. -/
def Fields.Gains (keys : List Nat) (f f' : Fields) : Prop :=
  f'.sync = f.sync ∧ f'.code = f.code ∧ f'.schemaId = f.schemaId ∧ f'.error = f.error ∧
    f'.data = f.data ∧
    ∀ i, f'.bitmap.toNat.testBit i = (f.bitmap.toNat.testBit i || decide (i ∈ keys))

theorem Extra.isValues {pairs : List (Bytes × Bytes)} (h : ∀ x ∈ unpair pairs, IsValue x)
    (extra : Extra) : ∀ x ∈ unpair ((extra.key, extra.value) :: pairs), IsValue x := by
  simp only [unpair, List.flatMap_cons, List.cons_append, List.nil_append, List.mem_cons,
    forall_eq_or_imp]
  exact ⟨isValue_of_uintOf extra.key_eq, extra.isValue, h⟩

theorem bodyItem_extra (extra : Extra) (f : Fields) (rest : List Bytes) :
    bodyItem (f, extra.key :: rest) = .ok (f.setBit (UInt32.ofNat extra.number), rest) := by
  have hnumber : (UInt32.ofNat extra.number).toNat = extra.number :=
    UInt32.toNat_ofNat_of_lt' (lt_trans extra.number_lt (by decide))
  have hkey : keyOf extra.key = some (UInt32.ofNat extra.number) := by
    rw [keyOf, extra.key_eq, Option.map_some]
  have herror : UInt32.ofNat extra.number ≠ ResponseKey.error.id := fun h =>
    extra.not_error (by rw [← hnumber, h])
  have hdata : UInt32.ofNat extra.number ≠ ResponseKey.data.id := fun h =>
    extra.not_data (by rw [← hnumber, h])
  have hlt : UInt32.ofNat extra.number < 64 := by
    rw [UInt32.lt_iff_toNat_lt, hnumber]
    exact extra.number_lt
  simp only [bodyItem, hkey, herror, hdata, ite_false, Fields.mark_eq _ hlt]
  rfl

theorem testBit_setBit_extra (extra : Extra) (f : Fields) (i : Nat) :
    (f.setBit (UInt32.ofNat extra.number)).bitmap.toNat.testBit i =
      (f.bitmap.toNat.testBit i || decide (i = extra.number)) := by
  have hnumber : (UInt32.ofNat extra.number).toNat = extra.number :=
    UInt32.toNat_ofNat_of_lt' (lt_trans extra.number_lt (by decide))
  have hlt : UInt32.ofNat extra.number < 64 := by
    rw [UInt32.lt_iff_toNat_lt, hnumber]
    exact extra.number_lt
  rw [Fields.testBit_setBit hlt, hnumber]

theorem mark_map_eq_ok {α : Type} {f : Fields} {key : UInt32} {g : Fields → α} {a : α}
    (h : (f.mark key).map g = .ok a) : g (f.setBit key) = a := by
  unfold Fields.mark at h
  split at h
  · exact Except.ok.inj h
  · cases h

theorem bodyItem_front {f f' : Fields} {items rest : List Bytes}
    (h : bodyItem (f, items) = .ok (f', rest)) :
    rest = itemsAfter 1 items ∧
      ∃ used, items = used ++ rest ∧ ∀ tail, bodyItem (f, used ++ tail) = .ok (f', tail) := by
  cases items with
  | nil => cases h
  | cons item items =>
      cases hkey : keyOf item with
      | none => simp [bodyItem, hkey] at h
      | some key =>
          by_cases herror : key = ResponseKey.error.id
          · subst key
            cases items with
            | nil => simp [bodyItem, hkey] at h
            | cons value items =>
                cases htext : textOf value with
                | none => simp [bodyItem, hkey, htext] at h
                | some text =>
                    have hstep : ∀ tail, bodyItem (f, [item, value] ++ tail) =
                        ((f.withError text).mark ResponseKey.error.id).map
                          fun f => (f, tail) := by
                      intro tail
                      simp [bodyItem, hkey, htext]
                    have h' := mark_map_eq_ok ((hstep items).symm.trans h)
                    cases h'
                    exact ⟨by simp [itemsAfter, hkey], [item, value], rfl,
                      fun tail => (hstep tail).trans rfl⟩
          by_cases hdata : key = ResponseKey.data.id
          · subst key
            cases items with
            | nil => simp [bodyItem, hkey, ResponseKey.id] at h
            | cons value items =>
                by_cases hkind : kindOf value = some .array
                · have hstep : ∀ tail, bodyItem (f, [item, value] ++ tail) =
                      ((f.withData value).mark ResponseKey.data.id).map
                        fun f => (f, tail) := by
                    intro tail
                    simp [bodyItem, hkey, hkind, ResponseKey.id]
                  have h' := mark_map_eq_ok ((hstep items).symm.trans h)
                  cases h'
                  exact ⟨by simp [itemsAfter, hkey], [item, value], rfl,
                    fun tail => (hstep tail).trans rfl⟩
                · simp [bodyItem, hkey, hkind, ResponseKey.id] at h
          · have hstep : ∀ tail, bodyItem (f, item :: tail) =
                (f.mark key).map fun f => (f, tail) := by
              intro tail
              simp [bodyItem, hkey, herror, hdata]
            rw [hstep] at h
            unfold Fields.mark at h
            split at h
            · rename_i hlt
              cases h
              refine ⟨by simp [itemsAfter, hkey, herror, hdata], [item], rfl, fun tail => ?_⟩
              rw [List.singleton_append, hstep, Fields.mark_eq key hlt]
              rfl
            · cases h

theorem itemsAfter_succ (turns : Nat) (items : List Bytes) :
    itemsAfter (turns + 1) items = itemsAfter turns (itemsAfter 1 items) := by
  cases items with
  | nil => cases turns <;> rfl
  | cons item items =>
      simp only [itemsAfter]
      split <;> rfl

theorem bodyLoop_front {turns : Nat} {f f' : Fields} {items rest : List Bytes}
    (h : loop bodyItem turns (f, items) = .ok (f', rest)) :
    rest = itemsAfter turns items ∧
      ∃ used, items = used ++ rest ∧
        ∀ tail, loop bodyItem turns (f, used ++ tail) = .ok (f', tail) := by
  induction turns generalizing f items with
  | zero =>
      cases h
      exact ⟨rfl, [], rfl, fun tail => rfl⟩
  | succ turns ih =>
      rw [loop_succ] at h
      cases hstep : bodyItem (f, items) with
      | error stop => simp [hstep] at h
      | ok s =>
          obtain ⟨g, between⟩ := s
          rw [hstep, ok_bind] at h
          obtain ⟨hbetween, first, hfirst, hturn⟩ := bodyItem_front hstep
          obtain ⟨hrest, used, hused, hturns⟩ := ih h
          refine ⟨by rw [itemsAfter_succ, ← hbetween]; exact hrest, first ++ used, ?_, ?_⟩
          · rw [hfirst, hused, List.append_assoc]
          · intro tail
            rw [List.append_assoc, loop_succ, hturn, ok_bind, hturns]

theorem Extra.kindOf_key (extra : Extra) : kindOf extra.key = some .uint := by
  rw [kindOf, head_of_uintOf extra.key_eq]
  rfl

theorem Extra.textOf_key (extra : Extra) : textOf extra.key = none := by
  simp [textOf, head_of_uintOf extra.key_eq]

/-- An extra key is not taken for the value of an entry that starts in front of it. -/
theorem bodyItem_before_extra {extra : Extra} {f g : Fields} {item : Bytes}
    {items rest between : List Bytes}
    (h : bodyItem (f, item :: items ++ extra.key :: rest) = .ok (g, between)) :
    ∃ items', bodyItem (f, item :: items) = .ok (g, items') ∧
      between = items' ++ extra.key :: rest := by
  obtain ⟨hbetween, used, hused, hturn⟩ := bodyItem_front h
  have hsplit : ∀ used' {after}, between = after →
      item :: items ++ extra.key :: rest = used' ++ after → used = used' := by
    rintro used' _ rfl h
    exact List.append_cancel_right (hused.symm.trans h)
  by_cases hkey : keyOf item = some ResponseKey.data.id ∨ keyOf item = some ResponseKey.error.id
  · cases items with
    | nil =>
        have hafter : between = rest := by simpa [itemsAfter, hkey] using hbetween
        have hnil := hturn []
        rw [hsplit [item, extra.key] hafter rfl] at hnil
        rcases hkey with hkey | hkey
        · simp [bodyItem, hkey, extra.kindOf_key, ResponseKey.id] at hnil
        · simp [bodyItem, hkey, extra.textOf_key] at hnil
    | cons value items =>
        have hafter : between = items ++ extra.key :: rest := by
          simpa [itemsAfter, hkey] using hbetween
        have hitems := hturn items
        rw [hsplit [item, value] hafter rfl] at hitems
        exact ⟨items, hitems, hafter⟩
  · have hafter : between = items ++ extra.key :: rest := by
      simpa [itemsAfter, hkey] using hbetween
    have hitems := hturn items
    rw [hsplit [item] hafter rfl] at hitems
    exact ⟨items, hitems, hafter⟩

theorem bodyLoop_before_extra {extra : Extra} {turns : Nat} {f : Fields}
    {items rest : List Bytes} {s : Fields × List Bytes}
    (h : loop bodyItem turns (f, items ++ extra.key :: rest) = .ok s) :
    (∃ items', loop bodyItem turns (f, items) = .ok (s.1, items')) ∨
      ∃ t g, t < turns ∧ loop bodyItem t (f, items) = .ok (g, []) := by
  induction turns generalizing f items with
  | zero =>
      cases h
      exact .inl ⟨items, rfl⟩
  | succ turns ih =>
      cases items with
      | nil => exact .inr ⟨0, f, by omega, rfl⟩
      | cons item items =>
          rw [loop_succ] at h
          cases hstep : bodyItem (f, item :: items ++ extra.key :: rest) with
          | error stop =>
              rw [hstep] at h
              cases h
          | ok s' =>
              obtain ⟨g, between⟩ := s'
              rw [hstep, ok_bind] at h
              obtain ⟨items', hitem, rfl⟩ := bodyItem_before_extra hstep
              rcases ih h with ⟨after, hafter⟩ | ⟨t, g', ht, hafter⟩
              · exact .inl ⟨after, by rw [loop_succ, hitem, ok_bind, hafter]⟩
              · exact .inr ⟨t + 1, g', by omega, by rw [loop_succ, hitem, ok_bind, hafter]⟩

namespace Places

theorem eq_of_count_eq_zero {places : Places} (h : places.count = 0) :
    places = places.base.map some := by
  induction places with
  | nil => rfl
  | cons place places ih =>
      cases place with
      | none => simp [count] at h
      | some pair =>
          have hrest : count places = 0 := by simpa [count] using h
          have := ih hrest
          simpa [base] using this

theorem exists_first {places : Places} (h : places.count ≠ 0) :
    ∃ (before : List (Bytes × Bytes)) (places' : Places),
      places = before.map some ++ none :: places' := by
  induction places with
  | nil => exact absurd rfl h
  | cons place places ih =>
      cases place with
      | none => exact ⟨[], places, rfl⟩
      | some pair =>
          have hrest : count places ≠ 0 := by simpa [count] using h
          obtain ⟨before, places', hplaces⟩ := ih hrest
          exact ⟨pair :: before, places', by rw [hplaces]; rfl⟩

@[simp] theorem base_first (before : List (Bytes × Bytes)) (places : Places) :
    base (before.map some ++ none :: places) = before ++ places.base := by
  simp [base, List.filterMap_append, List.filterMap_map]

@[simp] theorem base_some (pairs : List (Bytes × Bytes)) : base (pairs.map some) = pairs := by
  simp [base, List.filterMap_map]

@[simp] theorem count_first (before : List (Bytes × Bytes)) (places : Places) :
    count (before.map some ++ none :: places) = places.count + 1 := by
  simp [count, List.countP_append, List.countP_map]

@[simp] theorem count_some (pairs : List (Bytes × Bytes)) : count (pairs.map some) = 0 := by
  simp [count, List.countP_map]

@[simp] theorem fill_some (pairs : List (Bytes × Bytes)) (extras : List Extra) :
    fill (pairs.map some) extras = pairs := by
  induction pairs with
  | nil => rfl
  | cons pair pairs ih => exact congrArg (pair :: ·) ih

@[simp] theorem fill_first (before : List (Bytes × Bytes)) (places : Places) (extra : Extra)
    (extras : List Extra) :
    fill (before.map some ++ none :: places) (extra :: extras) =
      before ++ (extra.key, extra.value) :: fill places extras := by
  induction before with
  | nil => rfl
  | cons pair before ih => exact congrArg (pair :: ·) ih

theorem fill_length (places : Places) {extras : List Extra} (h : extras.length = places.count) :
    (places.fill extras).length = places.base.length + places.count := by
  induction places generalizing extras with
  | nil => rfl
  | cons place places ih =>
      cases place with
      | some pair =>
          have hrest : extras.length = count places := by simpa [count] using h
          have := ih hrest
          simp [fill, base, count] at this ⊢
          omega
      | none =>
          cases extras with
          | nil => simp [count] at h
          | cons extra extras =>
              have hrest : extras.length = count places := by simpa [count] using h
              have := ih hrest
              simp [fill, base, count] at this ⊢
              omega

theorem fill_isValues {places : Places} (h : ∀ x ∈ unpair places.base, IsValue x)
    (extras : List Extra) : ∀ x ∈ unpair (places.fill extras), IsValue x := by
  induction places generalizing extras with
  | nil => exact h
  | cons place places ih =>
      cases place with
      | some pair =>
          have hbase : base (some pair :: places) = pair :: base places := rfl
          simp only [hbase, unpair_cons, List.mem_cons, forall_eq_or_imp] at h
          simp only [fill, unpair_cons, List.mem_cons, forall_eq_or_imp]
          exact ⟨h.1, h.2.1, ih h.2.2 extras⟩
      | none =>
          have hbase : base (none :: places) = base places := rfl
          rw [hbase] at h
          cases extras with
          | nil => exact ih h []
          | cons extra extras => exact extra.isValues (ih h extras)

end Places

theorem readBody_eq_ok {f f' : Fields} {pairs : List (Bytes × Bytes)}
    (h : readBody f pairs = .ok f') :
    ∃ rest, loop bodyItem pairs.length (f, unpair pairs) = .ok (f', rest) := by
  rw [readBody] at h
  cases hloop : loop bodyItem pairs.length (f, unpair pairs) with
  | error stop => simp [hloop, Except.map] at h
  | ok s =>
      rw [hloop] at h
      cases h
      exact ⟨s.2, rfl⟩

theorem readBody_of_loop {f f' : Fields} {pairs : List (Bytes × Bytes)} {rest : List Bytes}
    (h : loop bodyItem pairs.length (f, unpair pairs) = .ok (f', rest)) :
    readBody f pairs = .ok f' := by
  rw [readBody, h]
  rfl

theorem gains_of_onlyAtStop {places : Places} (h : OnlyAtStop places) {f₀ f : Fields}
    (hbase : readBody f₀ places.base = .ok f) {extras : List Extra}
    (hextras : extras.length = places.count) :
    ∃ f', readBody f₀ (places.fill extras) = .ok f' ∧ f.Gains (extras.map Extra.number) f' := by
  rcases h with hzero | ⟨before, after, rfl, hstop⟩
  · rw [hzero, List.length_eq_zero_iff] at hextras
    subst extras
    rw [Places.eq_of_count_eq_zero hzero] at hbase ⊢
    rw [Places.base_some] at hbase
    exact ⟨f, by rw [Places.fill_some, hbase], rfl, rfl, rfl, rfl, rfl, by simp⟩
  · rw [Places.count_first, Places.count_some, Nat.zero_add] at hextras
    obtain ⟨extra, rfl⟩ := List.length_eq_one_iff.mp hextras
    rw [Places.base_first, Places.base_some] at hbase
    obtain ⟨rest, hloop⟩ := readBody_eq_ok hbase
    obtain ⟨hrest, used, hused, hturns⟩ := bodyLoop_front hloop
    rw [List.length_append] at hrest hturns
    rw [hstop] at hrest
    subst rest
    rw [unpair_append] at hused
    have hbefore : unpair before = used := List.append_cancel_right hused
    rw [Places.fill_first, Places.fill_some]
    refine ⟨f.setBit (UInt32.ofNat extra.number), ?_, rfl, rfl, rfl, rfl, rfl, ?_⟩
    · suffices loop bodyItem _ (f₀, unpair (before ++ _ :: after)) =
          .ok (_, extra.value :: unpair after) from readBody_of_loop this
      rw [List.length_append, List.length_cons, ← Nat.add_assoc, loop_add, unpair_append,
        unpair_cons, hbefore, hturns, ok_bind, loop_succ, bodyItem_extra]
      rfl
    · intro i
      rw [testBit_setBit_extra]
      simp

/-- The shortest extra pair with a given key: its value is nil. -/
def Extra.small (number : Nat) (hlt : number < 64) (hdata : number ≠ ResponseKey.data.id.toNat)
    (herror : number ≠ ResponseKey.error.id.toNat) : Extra where
  key := encodeUint number
  number := number
  value := encodeNil
  key_eq := by
    have hhead := head_encodeUint (lt_trans hlt (by decide))
    simp [uintOf, hhead]
  number_lt := hlt
  not_data := hdata
  not_error := herror
  isValue := by decide

/-- If the loop returns although the pair's value is nil, its last turn took the pair's key or an
entry before it. -/
theorem bodyLoop_small {extra : Extra} (hnil : extra.value = encodeNil) {turns : Nat}
    {f : Fields} {items rest : List Bytes} {s : Fields × List Bytes}
    (h : loop bodyItem turns (f, items ++ extra.key :: extra.value :: rest) = .ok s) :
    (∃ items', loop bodyItem turns (f, items) = .ok (s.1, items')) ∨
      ∃ t g, turns = t + 1 ∧ loop bodyItem t (f, items) = .ok (g, []) ∧
        s.1 = g.setBit (UInt32.ofNat extra.number) := by
  rcases bodyLoop_before_extra h with hwithin | ⟨t, g, ht, hreach⟩
  · exact .inl hwithin
  · obtain ⟨more, rfl⟩ : ∃ more, turns = t + (more + 1) := ⟨turns - t - 1, by omega⟩
    obtain ⟨-, used, hused, hturns⟩ := bodyLoop_front hreach
    rw [List.append_nil] at hused
    subst used
    rw [loop_add, hturns, ok_bind, loop_succ, bodyItem_extra, ok_bind, hnil] at h
    cases more with
    | zero =>
        cases h
        exact .inr ⟨t, g, rfl, hreach, rfl⟩
    | succ more =>
        have hfault : ∀ g' : Fields,
            bodyItem (g', encodeNil :: rest) = .error (.fault .wrongType) := fun _ => rfl
        rw [loop_succ, hfault] at h
        cases h

theorem readBody_small {before : List (Bytes × Bytes)} {places : Places} {f₀ f' : Fields}
    {extra : Extra} (hnil : extra.value = encodeNil) {extras : List Extra}
    (hextras : extras.length = places.count)
    (h : readBody f₀ (Places.fill (before.map some ++ none :: places) (extra :: extras)) = .ok f') :
    (∃ items', loop bodyItem ((before ++ places.base).length + places.count + 1)
        (f₀, unpair before) = .ok (f', items')) ∨
      ∃ g, loop bodyItem ((before ++ places.base).length + places.count)
          (f₀, unpair before) = .ok (g, []) ∧
        f' = g.setBit (UInt32.ofNat extra.number) := by
  obtain ⟨rest, hloop⟩ := readBody_eq_ok h
  rw [Places.fill_first, unpair_append, unpair_cons, List.length_append, List.length_cons,
    Places.fill_length places hextras] at hloop
  have hturns : before.length + (places.base.length + places.count + 1) =
      (before ++ places.base).length + places.count + 1 := by
    rw [List.length_append]
    omega
  rw [hturns] at hloop
  rcases bodyLoop_small hnil hloop with hwithin | ⟨t, g, ht, hreach, hf'⟩
  · exact .inl hwithin
  · rw [Nat.succ.inj ht]
    exact .inr ⟨g, hreach, hf'⟩

theorem bodyLoop_no_more {turns : Nat} {f g f' : Fields} {items items' : List Bytes}
    (h : loop bodyItem turns (f, items) = .ok (g, [])) :
    loop bodyItem (turns + 1) (f, items) ≠ .ok (f', items') := by
  rw [loop_add, h, ok_bind]
  exact fun h => by cases h

/-- If every way to fill the places leaves the reply undisturbed, and the reply has a bit clear,
the places are at the loop's stop. Short pairs with the value nil are enough to tell. -/
theorem onlyAtStop_of_gains {places : Places} {f₀ f : Fields}
    (hbase : readBody f₀ places.base = .ok f) {clear : Nat} (hlt : clear < 64)
    (hdata : clear ≠ ResponseKey.data.id.toNat) (herror : clear ≠ ResponseKey.error.id.toNat)
    (hclear : f.bitmap.toNat.testBit clear = false)
    (h : ∀ extras : List Extra, (∀ extra ∈ extras, extra.value = encodeNil ∧
        extra.key.length = 1) → extras.length = places.count →
      ∃ f', readBody f₀ (places.fill extras) = .ok f' ∧ f.Gains (extras.map Extra.number) f') :
    OnlyAtStop places := by
  by_cases hzero : places.count = 0
  · exact .inl hzero
  obtain ⟨before, places', rfl⟩ := Places.exists_first hzero
  rw [Places.count_first] at h
  rw [Places.base_first] at hbase
  obtain ⟨other, hne, hother, hotherData, hotherError⟩ : ∃ other, clear ≠ other ∧ other < 64 ∧
      other ≠ ResponseKey.data.id.toNat ∧ other ≠ ResponseKey.error.id.toNat := by
    by_cases hclear : clear = 0
    · exact ⟨1, by omega, by decide, by decide, by decide⟩
    · exact ⟨0, by omega, by decide, by decide, by decide⟩
  let c := Extra.small clear hlt hdata herror
  let o := Extra.small other hother hotherData hotherError
  have hshort : ∀ extra ∈ [c, o], extra.value = encodeNil ∧ extra.key.length = 1 := by
    simp only [List.mem_cons, List.not_mem_nil, or_false, forall_eq_or_imp, forall_eq]
    refine ⟨⟨rfl, ?_⟩, rfl, ?_⟩
    · simp [c, Extra.small, encodeUint, lt_trans hlt (by decide : 64 < 128)]
    · simp [o, Extra.small, encodeUint, lt_trans hother (by decide : 64 < 128)]
  have hfill : ∀ first ∈ [c, o], ∀ others ∈ [c, o],
      ∃ f', readBody f₀ (Places.fill (before.map some ++ none :: places')
          (first :: List.replicate places'.count others)) = .ok f' ∧
        f'.bitmap.toNat.testBit clear =
          decide (clear ∈ first.number :: List.replicate places'.count others.number) := by
    intro first hfirst others hothers
    obtain ⟨f', hf', -, -, -, -, -, hbits⟩ :=
      h (first :: List.replicate places'.count others) (by
        intro extra hextra
        rcases List.mem_cons.mp hextra with rfl | hextra
        · exact hshort _ hfirst
        · rw [List.eq_of_mem_replicate hextra]
          exact hshort _ hothers) (by simp)
    refine ⟨f', hf', ?_⟩
    rw [hbits, hclear, Bool.false_or, List.map_cons, List.map_replicate]
  have hlength : ∀ others : Extra,
      (List.replicate places'.count others).length = places'.count := by simp
  obtain ⟨f₁, hf₁, hbit₁⟩ := hfill o (by simp) o (by simp)
  have hbit₁ : f₁.bitmap.toNat.testBit clear = false := by
    rw [hbit₁]
    simp [o, Extra.small, hne]
  rcases readBody_small rfl (hlength o) hf₁ with ⟨items₁, hrun₁⟩ | ⟨g, hrun, rfl⟩
  · obtain ⟨f₂, hf₂, hbit₂⟩ := hfill c (by simp) c (by simp)
    rcases readBody_small rfl (hlength c) hf₂ with ⟨items₂, hrun₂⟩ | ⟨g, hrun, -⟩
    · rw [hrun₁] at hrun₂
      cases hrun₂
      rw [hbit₁] at hbit₂
      simp [c, Extra.small] at hbit₂
    · exact absurd hrun₁ (bodyLoop_no_more hrun)
  · by_cases hone : places'.count = 0
    · rw [hone, Nat.add_zero] at hrun
      rw [Places.eq_of_count_eq_zero hone] at hbase hrun ⊢
      rw [Places.base_some] at hbase hrun
      refine .inr ⟨before, places'.base, rfl, ?_⟩
      obtain ⟨-, used, hused, hturns⟩ := bodyLoop_front hrun
      rw [List.append_nil] at hused
      subst used
      have hwhole := hturns (unpair places'.base)
      rw [unpair_append, ← List.length_append]
      exact (bodyLoop_front hwhole).1.symm
    · obtain ⟨f₃, hf₃, hbit₃⟩ := hfill o (by simp) c (by simp)
      rcases readBody_small rfl (hlength c) hf₃ with ⟨items₃, hrun₃⟩ | ⟨g', hrun', rfl⟩
      · exact absurd hrun₃ (bodyLoop_no_more hrun)
      · rw [hrun] at hrun'
        cases hrun'
        rw [hbit₁] at hbit₃
        simp [c, Extra.small, hone] at hbit₃

theorem readPayload_parses {payload : Bytes} {header body : List (Bytes × Bytes)} {tail : Bytes}
    (h : Parses payload header body tail) :
    readPayload payload = header.foldlM headerField {} >>= fun f => readBody f body := by
  obtain ⟨rest, hheader, hbody⟩ := h
  simp only [readPayload, hheader, hbody]

theorem fill_small_length (places : Places) {extras : List Extra}
    (hshort : ∀ extra ∈ extras, extra.value = encodeNil ∧ extra.key.length = 1)
    (hextras : extras.length = places.count) :
    (unpair (places.fill extras)).flatten.length =
      (unpair places.base).flatten.length + 2 * places.count := by
  induction places generalizing extras with
  | nil => rfl
  | cons place places ih =>
      cases place with
      | some pair =>
          have := ih hshort (by simpa [Places.count] using hextras)
          simp [Places.fill, Places.base, Places.count] at this ⊢
          omega
      | none =>
          cases extras with
          | nil => simp [Places.count] at hextras
          | cons extra extras =>
              obtain ⟨hvalue, hkey⟩ := hshort extra (by simp)
              have := ih (fun x hx => hshort x (List.mem_cons_of_mem _ hx))
                (by simpa [Places.count] using hextras)
              simp [Places.fill, Places.base, Places.count, hvalue, hkey, encodeNil] at this ⊢
              omega

theorem exists_extended {payload : Bytes} {header : List (Bytes × Bytes)} {places : Places}
    {tail : Bytes} (h : Parses payload header places.base tail)
    (hroom : payload.length + 2 * places.count + 5 ≤ 2 ^ 32) {extras : List Extra}
    (hshort : ∀ extra ∈ extras, extra.value = encodeNil ∧ extra.key.length = 1)
    (hextras : extras.length = places.count) :
    ∃ payload', payload'.length < 2 ^ 32 ∧ Parses payload' header (places.fill extras) tail := by
  obtain ⟨rest, hheader, hbody⟩ := h
  obtain ⟨hdr, hpayload, -, -, hread⟩ := mapOf_front hheader
  obtain ⟨bodyHdr, hrest, hpos, hvalues, -⟩ := mapOf_front hbody
  have hpairs := length_le_flatten hvalues
  rw [unpair_length] at hpairs
  have hlength := fill_small_length places hshort hextras
  have hcount := places.fill_length hextras
  have hmap : (mapHeader (places.fill extras).length).length ≤ 5 := by
    unfold mapHeader
    repeat' split
    all_goals simp
  rw [hpayload, hrest] at hroom
  simp only [List.length_append] at hroom
  refine ⟨hdr ++ ((unpair header).flatten ++ (mapHeader (places.fill extras).length ++
    ((unpair (places.fill extras)).flatten ++ tail))), ?_, _, hread _,
    mapOf_append (head_mapHeader (by omega)) (Places.fill_isValues hvalues extras) tail⟩
  simp only [List.length_append]
  omega

theorem Parses.length_pos {payload tail : Bytes} {header body : List (Bytes × Bytes)}
    (h : Parses payload header body tail) : 0 < payload.length := by
  obtain ⟨rest, hheader, -⟩ := h
  obtain ⟨hdr, rfl, hpos, -, -⟩ := mapOf_front hheader
  rw [List.length_append]
  omega

section Decoding

variable {mp : Msgpuck} (hmp : mp.Lawful) {σ : Type} {rcv : Nat → σ → Option Bytes × σ}
  {load unload : Bytes → σ}
  (hdelivers : ∀ payload, payload.length < 2 ^ 32 →
    Delivers rcv (load payload) payload (unload payload))

include hmp hdelivers

theorem reading_of_decoded {r r₀ : Reply} {payload : Bytes} (hpos : 0 < payload.length)
    (hlength : payload.length < 2 ^ 32)
    (h : (beerReplyFrom mp rcv r (load payload)).1 = .ok (0, r₀)) :
    ∃ f, readPayload payload = .ok f ∧ Reading payload r₀ f := by
  cases hread : readPayload payload with
  | ok f =>
      obtain ⟨r', hreply, hreading⟩ :=
        beerReplyFrom_ok hmp (hdelivers payload hlength) hpos hlength r hread
      rw [hreply] at h
      cases h
      exact ⟨f, rfl, hreading⟩
  | error stop =>
      rw [beerReplyFrom_error hmp (hdelivers payload hlength) hpos hlength r hread] at h
      cases stop <;> cases h

theorem undisturbed_iff {r r₀ : Reply} {payload payload' : Bytes} {f : Fields}
    (hreading : Reading payload r₀ f) (hpos : 0 < payload'.length)
    (hlength : payload'.length < 2 ^ 32) (keys : List Nat) :
    Undisturbed keys (.ok (0, r₀)) (beerReplyFrom mp rcv r (load payload')).1 ↔
      ∃ f', readPayload payload' = .ok f' ∧ f.Gains keys f' := by
  have hf := hreading.fields_eq
  constructor
  · rintro ⟨rc, r₁, r', hok, hdecoded, hsync, hcode, hschema, herror, hdata, hbits⟩
    cases hok
    obtain ⟨f', hread, hreading'⟩ := reading_of_decoded hmp hdelivers hpos hlength hdecoded
    have hf' := hreading'.fields_eq
    subst hf hf'
    exact ⟨_, hread, hsync, hcode, hschema, herror, hdata, hbits⟩
  · rintro ⟨f', hread, hsync, hcode, hschema, herror, hdata, hbits⟩
    obtain ⟨r', hreply, hreading'⟩ :=
      beerReplyFrom_ok hmp (hdelivers payload' hlength) hpos hlength r hread
    have hf' := hreading'.fields_eq
    subst hf hf'
    exact ⟨0, r₀, r', rfl, by rw [hreply], hsync, hcode, hschema, herror, hdata, hbits⟩

/-- Extra pairs are without effect when the only one is where the body loop stops. As long as the
reply leaves a bit clear, and short pairs have room in it, there are no other places where every
filling is without effect. -/
theorem beerReplyFrom_indifferent (r : Reply) {payload : Bytes}
    {header : List (Bytes × Bytes)} {places : Places} {tail : Bytes} {r₀ : Reply}
    (hparses : Parses payload header places.base tail)
    (hlength : payload.length < 2 ^ 32)
    (hdecodes : (beerReplyFrom mp rcv r (load payload)).1 = .ok (0, r₀)) :
    (OnlyAtStop places →
      Indifferent (fun p => (beerReplyFrom mp rcv r (load p)).1) payload header places tail) ∧
    (payload.length + 2 * places.count + 5 ≤ 2 ^ 32 →
      (∃ clear < 64, clear ≠ ResponseKey.data.id.toNat ∧ clear ≠ ResponseKey.error.id.toNat ∧
        r₀.bitmap.toNat.testBit clear = false) →
      Indifferent (fun p => (beerReplyFrom mp rcv r (load p)).1) payload header places tail →
        OnlyAtStop places) := by
  obtain ⟨f, hread, hreading⟩ :=
    reading_of_decoded hmp hdelivers hparses.length_pos hlength hdecodes
  rw [readPayload_parses hparses] at hread
  cases hheader : header.foldlM headerField {} with
  | error stop =>
      rw [hheader] at hread
      cases hread
  | ok f₀ =>
      rw [hheader, ok_bind] at hread
      have hextended : ∀ {extras : List Extra} {payload' : Bytes},
          Parses payload' header (places.fill extras) tail →
            readPayload payload' = readBody f₀ (places.fill extras) := by
        intro extras payload' hparses'
        rw [readPayload_parses hparses', hheader, ok_bind]
      constructor
      · intro hstop extras payload' hextras hlength hparses'
        simp only [hdecodes]
        rw [undisturbed_iff hmp hdelivers hreading hparses'.length_pos hlength,
          hextended hparses']
        exact gains_of_onlyAtStop hstop hread hextras
      · rintro hroom ⟨clear, hlt, hdata, herror, hclear⟩ hindifferent
        rw [show r₀.bitmap = f.bitmap from congrArg Fields.bitmap hreading.fields_eq] at hclear
        refine onlyAtStop_of_gains hread hlt hdata herror hclear ?_
        intro extras hshort hextras
        obtain ⟨payload', hlength, hparses'⟩ := exists_extended hparses hroom hshort hextras
        have hundisturbed := hindifferent extras payload' hextras hlength hparses'
        simp only [hdecodes] at hundisturbed
        rwa [undisturbed_iff hmp hdelivers hreading hparses'.length_pos hlength,
          hextended hparses'] at hundisturbed

end Decoding

theorem decoded_data :
    (beerReplyFrom Msgpuck.reference beerReplyCb (Reply.init false)
      (frame [0x80, 0x81, 0x30, 0x90] ++ [])).1 =
        .ok (0, { alloc := false, bitmap := 0x1000000000000, buf := some [0x80, 0x81, 0x30, 0x90],
                  bufSize := 4, data := some 3, dataEnd := some 4 }) := by
  rfl

theorem parses_data : Parses [0x80, 0x81, 0x30, 0x90] []
    (Places.base [some ([0x30], [0x90]), none]) [] :=
  ⟨[0x81, 0x30, 0x90], by decide, by decide⟩

theorem onlyAtStop_data : OnlyAtStop [some ([0x30], [0x90]), none] :=
  .inr ⟨[([0x30], [0x90])], [], rfl, by decide⟩

theorem beerReplyFrom_indifferent_data :
    Indifferent (fun p => (beerReplyFrom Msgpuck.reference beerReplyCb (Reply.init false)
        (frame p ++ [])).1) [0x80, 0x81, 0x30, 0x90] [] [some ([0x30], [0x90]), none] [] :=
  (beerReplyFrom_indifferent Msgpuck.reference_lawful
    (fun payload _ => delivers_beerReplyCb payload []) (Reply.init false) parses_data
    (by decide) decoded_data).1 onlyAtStop_data

/-- In front of the data, the pair `2 : 3` hides the data. -/
theorem beerReplyFrom_disturbed :
    ¬Undisturbed [0x02]
      (beerReplyFrom Msgpuck.reference beerReplyCb (Reply.init false)
        (frame [0x80, 0x81, 0x30, 0x90])).1
      (beerReplyFrom Msgpuck.reference beerReplyCb (Reply.init false)
        (frame [0x80, 0x82, 0x02, 0x03, 0x30, 0x90])).1 := by
  rintro ⟨rc, r, r', hout, hout', -, -, -, -, hdata, -⟩
  rw [← List.append_nil (frame _), decoded_data] at hout
  have hhidden : (beerReplyFrom Msgpuck.reference beerReplyCb (Reply.init false)
      (frame [0x80, 0x82, 0x02, 0x03, 0x30, 0x90])).1 =
        .ok (0, { alloc := false, bitmap := 0xc,
                  buf := some [0x80, 0x82, 0x02, 0x03, 0x30, 0x90], bufSize := 6 }) := by
    rfl
  rw [hhidden] at hout'
  cases hout
  cases hout'
  revert hdata
  decide

end BeeC
