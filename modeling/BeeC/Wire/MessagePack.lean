import BeeC.Wire.BigEndian

/-!
The MessagePack format, read one head at a time. A head is everything of a value that stands
before its text or its elements; a value is well formed when the heads it consists of are all
there. Nothing here refers to a program.
-/

namespace BeeC.Wire.MessagePack

open BeeC.Wire.BigEndian

abbrev Bytes := List UInt8

inductive Kind where
  | nil | uint | int | str | bin | array | map | bool | float | double | ext
  deriving DecidableEq, Repr

inductive Head where
  | nil
  | bool (value : Bool)
  | uint (value : Nat)
  | int (value : Int)
  | float (bits : Nat)
  | double (bits : Nat)
  | str (length : Nat)
  | bin (length : Nat)
  | ext (length : Nat)
  | array (count : Nat)
  | map (count : Nat)
  deriving DecidableEq, Repr

namespace Head

def kind : Head → Kind
  | nil => .nil
  | bool _ => .bool
  | uint _ => .uint
  | int _ => .int
  | float _ => .float
  | double _ => .double
  | str _ => .str
  | bin _ => .bin
  | ext _ => .ext
  | array _ => .array
  | map _ => .map

/-- Bytes of text that directly follow the head. An extension has its type byte there too. -/
def payload : Head → Nat
  | str length => length
  | bin length => length
  | ext length => length + 1
  | _ => 0

/-- Values that follow the head as its elements. -/
def children : Head → Nat
  | array count => count
  | map count => 2 * count
  | _ => 0

end Head

/-- What a first byte says: how many big-endian bytes follow it, and the head that the number
in them makes. -/
def layout (first : Nat) : Option (Nat × (Nat → Head)) :=
  if first < 0x80 then some (0, fun _ => .uint first)
  else if first < 0x90 then some (0, fun _ => .map (first - 0x80))
  else if first < 0xa0 then some (0, fun _ => .array (first - 0x90))
  else if first < 0xc0 then some (0, fun _ => .str (first - 0xa0))
  else if first < 0xe0 then
    match first with
    | 0xc0 => some (0, fun _ => .nil)
    | 0xc2 => some (0, fun _ => .bool false)
    | 0xc3 => some (0, fun _ => .bool true)
    | 0xc4 => some (1, .bin)
    | 0xc5 => some (2, .bin)
    | 0xc6 => some (4, .bin)
    | 0xc7 => some (1, .ext)
    | 0xc8 => some (2, .ext)
    | 0xc9 => some (4, .ext)
    | 0xca => some (4, .float)
    | 0xcb => some (8, .double)
    | 0xcc => some (1, .uint)
    | 0xcd => some (2, .uint)
    | 0xce => some (4, .uint)
    | 0xcf => some (8, .uint)
    | 0xd0 => some (1, fun n => .int (Int.bmod n (256 ^ 1)))
    | 0xd1 => some (2, fun n => .int (Int.bmod n (256 ^ 2)))
    | 0xd2 => some (4, fun n => .int (Int.bmod n (256 ^ 4)))
    | 0xd3 => some (8, fun n => .int (Int.bmod n (256 ^ 8)))
    | 0xd4 => some (0, fun _ => .ext 1)
    | 0xd5 => some (0, fun _ => .ext 2)
    | 0xd6 => some (0, fun _ => .ext 4)
    | 0xd7 => some (0, fun _ => .ext 8)
    | 0xd8 => some (0, fun _ => .ext 16)
    | 0xd9 => some (1, .str)
    | 0xda => some (2, .str)
    | 0xdb => some (4, .str)
    | 0xdc => some (2, .array)
    | 0xdd => some (4, .array)
    | 0xde => some (2, .map)
    | 0xdf => some (4, .map)
    | _ => none
  else some (0, fun _ => .int (Int.bmod first 256))

/-- The kind a first byte announces; the byte `0xc1` announces none. -/
def typeOf (first : UInt8) : Option Kind :=
  (layout first.toNat).map fun l => (l.2 0).kind

/-- Read one head, and return what follows it. -/
def head : Bytes → Option (Head × Bytes)
  | [] => none
  | first :: bytes =>
      match layout first.toNat with
      | none => none
      | some (width, mk) =>
          if width ≤ bytes.length then
            some (mk (load (bytes.take width)), bytes.drop width)
          else none

theorem kind_of_layout {first width : Nat} {mk : Nat → Head}
    (h : layout first = some (width, mk)) (a b : Nat) : (mk a).kind = (mk b).kind := by
  unfold layout at h
  repeat' split at h
  all_goals simp only [Option.some.injEq, Prod.mk.injEq, reduceCtorEq] at h
  all_goals
    obtain ⟨-, rfl⟩ := h
    simp only [Head.kind]

/-- The number a head carries, and how large it can be. -/
def Head.Fits : Head → Prop
  | uint value => value < 2 ^ 64
  | str length => length < 2 ^ 32
  | bin length => length < 2 ^ 32
  | ext length => length < 2 ^ 32
  | array count => count < 2 ^ 32
  | map count => count < 2 ^ 32
  | _ => True

theorem fits_of_layout {first width : Nat} {mk : Nat → Head}
    (h : layout first = some (width, mk)) {n : Nat} (hn : n < 256 ^ width) : (mk n).Fits := by
  unfold layout at h
  repeat' split at h
  all_goals simp only [Option.some.injEq, Prod.mk.injEq, reduceCtorEq] at h
  all_goals
    obtain ⟨rfl, rfl⟩ := h
    simp only [Head.Fits]
  all_goals omega

theorem fits_of_head {bytes rest : Bytes} {hd : Head} (h : head bytes = some (hd, rest)) :
    hd.Fits := by
  cases bytes with
  | nil => cases h
  | cons first bytes =>
      simp only [head] at h
      split at h
      · cases h
      · rename_i width mk hlayout
        split at h
        · rename_i hwidth
          cases h
          have hload := load_lt (bytes.take width)
          rw [List.length_take, min_eq_left hwidth] at hload
          exact fits_of_layout hlayout hload
        · cases h

theorem typeOf_of_head {first : UInt8} {bytes rest : Bytes} {hd : Head}
    (h : head (first :: bytes) = some (hd, rest)) : typeOf first = some hd.kind := by
  simp only [head] at h
  split at h
  · cases h
  · rename_i width mk hlayout
    split at h
    · cases h
      simp only [typeOf, hlayout, Option.map_some, Option.some.injEq]
      exact kind_of_layout hlayout _ _
    · cases h

theorem head_append {bytes rest : Bytes} {hd : Head} (h : head bytes = some (hd, rest))
    (tail : Bytes) : head (bytes ++ tail) = some (hd, rest ++ tail) := by
  cases bytes with
  | nil => cases h
  | cons first bytes =>
      simp only [head, List.cons_append] at h ⊢
      split at h
      · cases h
      · rename_i width mk hlayout
        split at h
        · rename_i hwidth
          cases h
          have hlong : width ≤ (bytes ++ tail).length := by
            rw [List.length_append]; omega
          simp only [hlong, ite_true]
          rw [List.take_append_of_le_length hwidth, List.drop_append_of_le_length hwidth]
        · cases h

theorem head_suffix {bytes rest : Bytes} {hd : Head} (h : head bytes = some (hd, rest)) :
    ∃ used, bytes = used ++ rest ∧ 0 < used.length ∧ head used = some (hd, []) := by
  cases bytes with
  | nil => cases h
  | cons first bytes =>
      simp only [head] at h
      split at h
      · cases h
      · rename_i width mk hlayout
        split at h
        · rename_i hwidth
          cases h
          refine ⟨first :: bytes.take width, by simp, by simp, ?_⟩
          simp only [head, hlayout, List.length_take, min_eq_left hwidth, le_refl, ite_true]
          simp [List.take_take]
        · cases h

/-- One head together with its text: the number of elements still to come, and what follows. -/
def item (bytes : Bytes) : Option (Nat × Bytes) :=
  match head bytes with
  | none => none
  | some (hd, rest) =>
      if hd.payload ≤ rest.length then some (hd.children, rest.drop hd.payload) else none

theorem item_append {bytes rest : Bytes} {count : Nat} (h : item bytes = some (count, rest))
    (tail : Bytes) : item (bytes ++ tail) = some (count, rest ++ tail) := by
  simp only [item] at h ⊢
  split at h
  · cases h
  · rename_i hd after hhead
    split at h
    · rename_i hpayload
      cases h
      have hlong : hd.payload ≤ (after ++ tail).length := by
        rw [List.length_append]; omega
      simp only [head_append hhead tail, hlong, ite_true]
      rw [List.drop_append_of_le_length hpayload]
    · cases h

theorem item_suffix {bytes rest : Bytes} {count : Nat} (h : item bytes = some (count, rest)) :
    ∃ used, bytes = used ++ rest ∧ 0 < used.length ∧ item used = some (count, []) := by
  simp only [item] at h
  split at h
  · cases h
  · rename_i hd after hhead
    split at h
    · rename_i hpayload
      cases h
      obtain ⟨used, rfl, hpos, hused⟩ := head_suffix hhead
      refine ⟨used ++ after.take hd.payload, by simp, by simp; omega, ?_⟩
      simp only [item, head_append hused, List.nil_append, List.length_take,
        min_eq_left hpayload, le_refl, ite_true]
      simp
    · cases h

/-- Read `count` values one item after the other. The first argument bounds the items read. -/
def values : Nat → (count : Nat) → Bytes → Option Bytes
  | _, 0, bytes => some bytes
  | 0, _ + 1, _ => none
  | fuel + 1, count + 1, bytes =>
      match item bytes with
      | none => none
      | some (more, rest) => values fuel (count + more) rest

/-- Read `count` values and return what follows them. Every item takes a byte, so no more items
are read than there are bytes. -/
def skip (count : Nat) (bytes : Bytes) : Option Bytes :=
  values bytes.length count bytes

theorem values_fuel {fuel fuel' : Nat} (count : Nat) {bytes : Bytes}
    (h : bytes.length ≤ fuel) (h' : bytes.length ≤ fuel') :
    values fuel count bytes = values fuel' count bytes := by
  induction fuel generalizing fuel' count bytes with
  | zero =>
      have hnil : bytes = [] := List.eq_nil_of_length_eq_zero (by omega)
      subst bytes
      cases count <;> cases fuel' <;> simp [values, item, head]
  | succ fuel ih =>
      cases count with
      | zero => cases fuel' <;> rfl
      | succ count =>
          cases fuel' with
          | zero =>
              have hnil : bytes = [] := List.eq_nil_of_length_eq_zero (by omega)
              subst bytes
              simp [values, item, head]
          | succ fuel' =>
              simp only [values]
              cases hitem : item bytes with
              | none => rfl
              | some p =>
                  obtain ⟨used, rfl, hpos, -⟩ := item_suffix hitem
                  rw [List.length_append] at h h'
                  exact ih _ (by omega) (by omega)

@[simp] theorem skip_zero (bytes : Bytes) : skip 0 bytes = some bytes := by
  cases bytes <;> rfl

theorem skip_succ (count : Nat) (bytes : Bytes) :
    skip (count + 1) bytes =
      (item bytes).bind fun p => skip (count + p.1) p.2 := by
  cases bytes with
  | nil => rfl
  | cons first bytes =>
      simp only [skip, values, List.length_cons]
      cases hitem : item (first :: bytes) with
      | none => rfl
      | some p =>
          obtain ⟨used, hsplit, hpos, -⟩ := item_suffix hitem
          have hlen := congrArg List.length hsplit
          rw [List.length_cons, List.length_append] at hlen
          exact values_fuel _ (by omega) (le_refl _)

theorem skip_add (count more : Nat) (bytes : Bytes) :
    skip (count + more) bytes = (skip count bytes).bind (skip more) := by
  induction hlen : bytes.length using Nat.strongRecOn generalizing count bytes with
  | ind len ih =>
      cases count with
      | zero => simp
      | succ count =>
          rw [Nat.add_right_comm, skip_succ, skip_succ]
          cases hitem : item bytes with
          | none => rfl
          | some p =>
              obtain ⟨used, rfl, hpos, -⟩ := item_suffix hitem
              rw [List.length_append] at hlen
              simp only [Option.bind_some]
              rw [Nat.add_right_comm]
              exact ih p.2.length (by omega) (count + p.1) p.2 rfl

theorem skip_append {count : Nat} {bytes rest : Bytes} (h : skip count bytes = some rest)
    (tail : Bytes) : skip count (bytes ++ tail) = some (rest ++ tail) := by
  induction hlen : bytes.length using Nat.strongRecOn generalizing count bytes with
  | ind len ih =>
      cases count with
      | zero =>
          rw [skip_zero, Option.some.injEq] at h
          simp [h]
      | succ count =>
          rw [skip_succ] at h ⊢
          cases hitem : item bytes with
          | none => simp [hitem] at h
          | some p =>
              obtain ⟨used, rfl, hpos, -⟩ := item_suffix hitem
              rw [List.length_append] at hlen
              rw [hitem, Option.bind_some] at h
              rw [item_append hitem, Option.bind_some]
              exact ih p.2.length (by omega) h rfl

theorem skip_suffix {count : Nat} {bytes rest : Bytes} (h : skip count bytes = some rest) :
    ∃ used, bytes = used ++ rest ∧ count ≤ used.length ∧ skip count used = some [] := by
  induction hlen : bytes.length using Nat.strongRecOn generalizing count bytes with
  | ind len ih =>
      cases count with
      | zero =>
          rw [skip_zero, Option.some.injEq] at h
          exact ⟨[], by simp [h], by simp, by simp⟩
      | succ count =>
          rw [skip_succ] at h
          cases hitem : item bytes with
          | none => simp [hitem] at h
          | some p =>
              obtain ⟨first, rfl, hpos, hfirst⟩ := item_suffix hitem
              rw [List.length_append] at hlen
              rw [hitem, Option.bind_some] at h
              obtain ⟨others, hsplit, hcount, hothers⟩ := ih p.2.length (by omega) h rfl
              refine ⟨first ++ others, by rw [hsplit, List.append_assoc],
                by rw [List.length_append]; omega, ?_⟩
              rw [skip_succ, item_append hfirst, Option.bind_some, List.nil_append, hothers]

/-- The bytes are exactly one well-formed value. -/
def IsValue (bytes : Bytes) : Prop := skip 1 bytes = some []

instance (bytes : Bytes) : Decidable (IsValue bytes) :=
  inferInstanceAs (Decidable (skip 1 bytes = some []))

theorem IsValue.skip_append {bytes : Bytes} (h : IsValue bytes) (tail : Bytes) :
    skip 1 (bytes ++ tail) = some tail :=
  MessagePack.skip_append h tail

theorem IsValue.length_pos {bytes : Bytes} (h : IsValue bytes) : 0 < bytes.length := by
  cases bytes with
  | nil => cases h
  | cons => simp

theorem IsValue.of_item {bytes : Bytes} (h : item bytes = some (0, [])) : IsValue bytes := by
  rw [IsValue, skip_succ, h]
  rfl

theorem IsValue.head {bytes : Bytes} (h : IsValue bytes) :
    ∃ hd rest, MessagePack.head bytes = some (hd, rest) ∧ hd.payload ≤ rest.length ∧
      skip hd.children (rest.drop hd.payload) = some [] := by
  simp only [IsValue, skip_succ 0, Nat.zero_add, item] at h
  split at h
  · simp at h
  · rename_i hd rest hhead
    split at h
    · rename_i hpayload
      exact ⟨hd, rest, hhead, hpayload, by simpa using h⟩
    · simp at h

/-- A value's bytes and what follows it. -/
def next (bytes : Bytes) : Option (Bytes × Bytes) :=
  (skip 1 bytes).map fun rest => (bytes.take (bytes.length - rest.length), rest)

theorem next_append {bytes : Bytes} (h : IsValue bytes) (tail : Bytes) :
    next (bytes ++ tail) = some (bytes, tail) := by
  simp [next, h.skip_append]

theorem next_eq_some {bytes value rest : Bytes} (h : next bytes = some (value, rest)) :
    bytes = value ++ rest ∧ IsValue value := by
  simp only [next, Option.map_eq_some_iff, Prod.mk.injEq] at h
  obtain ⟨after, hskip, hvalue, rfl⟩ := h
  obtain ⟨used, rfl, -, hused⟩ := skip_suffix hskip
  have : value = used := by simpa using hvalue.symm
  exact ⟨by rw [this], by rw [this]; exact hused⟩

theorem next_incomplete {value bytes missing : Bytes} (h : IsValue value)
    (hcut : value = bytes ++ missing) (hmissing : missing ≠ []) : next bytes = none := by
  cases hnext : next bytes with
  | none => rfl
  | some found =>
      obtain ⟨front, rest⟩ := found
      obtain ⟨rfl, hfront⟩ := next_eq_some hnext
      have hwhole := next_append h []
      rw [List.append_nil, hcut, List.append_assoc, next_append hfront, Option.some.injEq,
        Prod.mk.injEq] at hwhole
      exact absurd (List.append_eq_nil_iff.mp hwhole.2).2 hmissing

/-- The bytes of `count` values in a row, and what follows them. -/
def items : (count : Nat) → Bytes → Option (List Bytes × Bytes)
  | 0, bytes => some ([], bytes)
  | count + 1, bytes =>
      (next bytes).bind fun p => (items count p.2).map fun q => (p.1 :: q.1, q.2)

theorem items_flatten {xs : List Bytes} (h : ∀ x ∈ xs, IsValue x) (tail : Bytes) :
    items xs.length (xs.flatten ++ tail) = some (xs, tail) := by
  induction xs with
  | nil => rfl
  | cons x xs ih =>
      rw [List.length_cons, items, List.flatten_cons, List.append_assoc,
        next_append (h x (by simp)), Option.bind_some, ih fun y hy => h y (by simp [hy])]
      rfl

theorem items_eq_some {count : Nat} {bytes tail : Bytes} {xs : List Bytes}
    (h : items count bytes = some (xs, tail)) :
    xs.length = count ∧ bytes = xs.flatten ++ tail ∧ ∀ x ∈ xs, IsValue x := by
  induction count generalizing bytes xs with
  | zero =>
      cases h
      simp
  | succ count ih =>
      simp only [items, Option.bind_eq_some_iff, Option.map_eq_some_iff, Prod.mk.injEq] at h
      obtain ⟨⟨x, rest⟩, hnext, ⟨ys, after⟩, hitems, rfl, rfl⟩ := h
      obtain ⟨hlen, hrest, hvalues⟩ := ih hitems
      obtain ⟨hbytes, hvalue⟩ := next_eq_some hnext
      refine ⟨by simp [hlen], by simpa [hbytes] using hrest, ?_⟩
      simpa [hvalue] using hvalues

theorem items_of_skip {count : Nat} {bytes rest : Bytes} (h : skip count bytes = some rest) :
    ∃ xs, items count bytes = some (xs, rest) := by
  induction count generalizing bytes with
  | zero =>
      rw [skip_zero, Option.some.injEq] at h
      exact ⟨[], by simp [items, h]⟩
  | succ count ih =>
      rw [Nat.add_comm, skip_add] at h
      cases hfirst : skip 1 bytes with
      | none => simp [hfirst] at h
      | some after =>
          rw [hfirst, Option.bind_some] at h
          obtain ⟨xs, hxs⟩ := ih h
          exact ⟨_, by simp [items, next, hfirst, hxs]; rfl⟩

theorem skip_flatten {xs : List Bytes} (h : ∀ x ∈ xs, IsValue x) (tail : Bytes) :
    skip xs.length (xs.flatten ++ tail) = some tail := by
  induction xs with
  | nil => simp
  | cons x xs ih =>
      rw [List.length_cons, Nat.add_comm, skip_add, List.flatten_cons, List.append_assoc,
        (h x (by simp)).skip_append, Option.bind_some]
      exact ih fun y hy => h y (by simp [hy])

/-- Neighbours taken together, first with second. -/
def pairUp {α : Type} : List α → List (α × α)
  | a :: b :: rest => (a, b) :: pairUp rest
  | _ => []

/-- Neighbours taken apart again. -/
def unpair {α : Type} (ps : List (α × α)) : List α := ps.flatMap fun p => [p.1, p.2]

@[simp] theorem pairUp_unpair {α : Type} (ps : List (α × α)) : pairUp (unpair ps) = ps := by
  induction ps with
  | nil => rfl
  | cons p ps ih => simpa [unpair, pairUp] using ih

@[simp] theorem unpair_length {α : Type} (ps : List (α × α)) :
    (unpair ps).length = 2 * ps.length := by
  induction ps with
  | nil => rfl
  | cons p ps ih =>
      simp only [unpair, List.flatMap_cons, List.length_append, List.length_cons] at ih ⊢
      rw [ih]
      simp
      omega

@[simp] theorem unpair_cons {α : Type} (p : α × α) (ps : List (α × α)) :
    unpair (p :: ps) = p.1 :: p.2 :: unpair ps := rfl

@[simp] theorem unpair_append {α : Type} (ps qs : List (α × α)) :
    unpair (ps ++ qs) = unpair ps ++ unpair qs := List.flatMap_append

theorem unpair_pairUp {α : Type} {count : Nat} {xs : List α} (h : xs.length = 2 * count) :
    unpair (pairUp xs) = xs := by
  induction count generalizing xs with
  | zero =>
      rw [List.eq_nil_of_length_eq_zero h]
      rfl
  | succ count ih =>
      match xs with
      | [] => simp at h
      | [_] => simp at h; omega
      | a :: b :: rest =>
          have hrest : rest.length = 2 * count := by simp at h; omega
          simpa [unpair, pairUp] using ih hrest

/-- A map's keys and values as they stand in the bytes, and what follows the map. -/
def mapOf (bytes : Bytes) : Option (List (Bytes × Bytes) × Bytes) :=
  match head bytes with
  | some (.map count, rest) =>
      (items (2 * count) rest).map fun p => (pairUp p.1, p.2)
  | _ => none

theorem mapOf_append {hdr : Bytes} {ps : List (Bytes × Bytes)}
    (hhdr : head hdr = some (.map ps.length, []))
    (h : ∀ x ∈ unpair ps, IsValue x) (tail : Bytes) :
    mapOf (hdr ++ ((unpair ps).flatten ++ tail)) = some (ps, tail) := by
  rw [mapOf, head_append hhdr, List.nil_append]
  simp only
  rw [← unpair_length, items_flatten h]
  simp

theorem mapOf_front {bytes rest : Bytes} {ps : List (Bytes × Bytes)}
    (h : mapOf bytes = some (ps, rest)) :
    ∃ hdr, bytes = hdr ++ ((unpair ps).flatten ++ rest) ∧ 0 < hdr.length ∧
      (∀ x ∈ unpair ps, IsValue x) ∧
      ∀ tail, mapOf (hdr ++ ((unpair ps).flatten ++ tail)) = some (ps, tail) := by
  rw [mapOf] at h
  split at h
  · rename_i count after hhead
    simp only [Option.map_eq_some_iff, Prod.mk.injEq] at h
    obtain ⟨⟨xs, tail⟩, hitems, rfl, rfl⟩ := h
    obtain ⟨hlen, hafter, hvalues⟩ := items_eq_some hitems
    have hpairs : unpair (pairUp xs) = xs := unpair_pairUp hlen
    obtain ⟨hdr, rfl, hpos, hhdr⟩ := head_suffix hhead
    have hcount : (pairUp xs).length = count := by
      have := unpair_length (pairUp xs)
      rw [hpairs] at this
      omega
    rw [hpairs]
    refine ⟨hdr, by rw [hafter], hpos, hvalues, fun tail => ?_⟩
    have hvalues' : ∀ x ∈ unpair (pairUp xs), IsValue x := by rwa [hpairs]
    have := mapOf_append (by rw [hcount]; exact hhdr) hvalues' tail
    rwa [hpairs] at this
  · cases h

theorem length_le_flatten {xs : List Bytes} (h : ∀ x ∈ xs, IsValue x) :
    xs.length ≤ xs.flatten.length := by
  induction xs with
  | nil => simp
  | cons x xs ih =>
      have hx := (h x (by simp)).length_pos
      have hxs := ih fun y hy => h y (by simp [hy])
      rw [List.length_cons, List.flatten_cons, List.length_append]
      omega

theorem items_of_next {bytes after value rest : Bytes} {hd : Head}
    (hhead : head bytes = some (hd, after)) (h : next bytes = some (value, rest))
    (hpayload : hd.payload = 0) :
    ∃ xs, items hd.children after = some (xs, rest) := by
  obtain ⟨rfl, hvalue⟩ := next_eq_some h
  obtain ⟨hd', after', hhead', -, hskip⟩ := hvalue.head
  have happend := head_append hhead' rest
  rw [hhead, Option.some.injEq, Prod.mk.injEq] at happend
  obtain ⟨rfl, rfl⟩ := happend
  rw [hpayload, List.drop_zero] at hskip
  obtain ⟨xs, hxs⟩ := items_of_skip (skip_append hskip rest)
  exact ⟨xs, hxs⟩

theorem mapOf_of_next {bytes value rest : Bytes} (h : next bytes = some (value, rest)) :
    (∃ ps after, head bytes = some (.map ps.length, after) ∧ mapOf bytes = some (ps, rest) ∧
        after = (unpair ps).flatten ++ rest ∧ ∀ x ∈ unpair ps, IsValue x) ∨
      ∃ hd after, head bytes = some (hd, after) ∧ hd.kind ≠ .map ∧ mapOf bytes = none := by
  obtain ⟨hbytes, hvalue⟩ := next_eq_some h
  obtain ⟨hd, after, hhead, -⟩ := hvalue.head
  have hhead := head_append hhead rest
  rw [← hbytes] at hhead
  cases hd with
  | map count =>
      obtain ⟨xs, hxs⟩ := items_of_next hhead h rfl
      rw [Head.children] at hxs
      obtain ⟨hlen, hflat, hvalues⟩ := items_eq_some hxs
      have hpairs : unpair (pairUp xs) = xs := unpair_pairUp hlen
      have hcount : (pairUp xs).length = count := by
        have := unpair_length (pairUp xs)
        rw [hpairs] at this
        omega
      refine .inl ⟨pairUp xs, after ++ rest, by rw [hcount, hhead], ?_, by rw [hpairs, hflat],
        by rwa [hpairs]⟩
      simp [mapOf, hhead, hxs]
  | _ => exact .inr ⟨_, _, hhead, by simp [Head.kind], by simp [mapOf, hhead]⟩

theorem next_of_mapOf {bytes rest : Bytes} {ps : List (Bytes × Bytes)}
    (h : mapOf bytes = some (ps, rest)) : ∃ value, next bytes = some (value, rest) := by
  rw [mapOf] at h
  split at h
  · rename_i count after hhead
    simp only [Option.map_eq_some_iff, Prod.mk.injEq] at h
    obtain ⟨⟨xs, tail⟩, hitems, -, rfl⟩ := h
    obtain ⟨hlen, hafter, hvalues⟩ := items_eq_some hitems
    have hskip : skip 1 bytes = some tail := by
      simp only [skip_succ 0, item, hhead, Head.payload, Head.children, Nat.zero_le, ite_true,
        Option.bind_some, List.drop_zero, Nat.zero_add]
      rw [← hlen, hafter, skip_flatten hvalues]
    exact ⟨_, by rw [next, hskip]; rfl⟩
  · cases h

/-- An array's elements as they stand in the bytes, and what follows the array. -/
def arrayOf (bytes : Bytes) : Option (List Bytes × Bytes) :=
  match head bytes with
  | some (.array count, rest) => items count rest
  | _ => none

theorem arrayOf_elements {header : Bytes} {xs : List Bytes}
    (hheader : head header = some (.array xs.length, [])) (h : ∀ x ∈ xs, IsValue x) :
    arrayOf (header ++ xs.flatten) = some (xs, []) := by
  have hitems := items_flatten h []
  rw [List.append_nil] at hitems
  rw [arrayOf, head_append hheader, List.nil_append]
  exact hitems

theorem arrayOf_eq_some {bytes rest : Bytes} {xs : List Bytes}
    (h : arrayOf bytes = some (xs, rest)) :
    head bytes = some (.array xs.length, xs.flatten ++ rest) ∧ ∀ x ∈ xs, IsValue x := by
  rw [arrayOf] at h
  split at h
  · rename_i count after hhead
    obtain ⟨hlen, hafter, hvalues⟩ := items_eq_some h
    exact ⟨by rw [hhead, hlen, hafter], hvalues⟩
  · cases h

theorem next_of_arrayOf {bytes rest : Bytes} {xs : List Bytes}
    (h : arrayOf bytes = some (xs, rest)) : ∃ value, next bytes = some (value, rest) := by
  obtain ⟨hhead, hvalues⟩ := arrayOf_eq_some h
  have hskip : skip 1 bytes = some rest := by
    simp only [skip_succ 0, item, hhead, Head.payload, Head.children, Nat.zero_le, ite_true,
      Option.bind_some, List.drop_zero, Nat.zero_add]
    exact skip_flatten hvalues rest
  exact ⟨_, by rw [next, hskip]; rfl⟩

/-- The kind of the value that starts the bytes. -/
def kindOf (bytes : Bytes) : Option Kind := (head bytes).map fun p => p.1.kind

/-- The number that the bytes are, when they are an unsigned integer. -/
def uintOf (bytes : Bytes) : Option Nat :=
  match head bytes with
  | some (.uint n, []) => some n
  | _ => none

/-- The text that the bytes hold, when they are a string. -/
def textOf (bytes : Bytes) : Option Bytes :=
  match head bytes with
  | some (.str length, text) => if text.length = length then some text else none
  | _ => none

theorem IsValue.uint_or {bytes : Bytes} (h : IsValue bytes) :
    (∃ n, MessagePack.head bytes = some (.uint n, []) ∧ uintOf bytes = some n) ∨
      ∃ hd rest, MessagePack.head bytes = some (hd, rest) ∧ hd.kind ≠ .uint ∧
        uintOf bytes = none := by
  obtain ⟨hd, rest, hhead, -, hskip⟩ := h.head
  cases hd with
  | uint n =>
      simp only [Head.children, Head.payload, List.drop_zero, skip_zero,
        Option.some.injEq] at hskip
      subst rest
      exact .inl ⟨n, hhead, by simp [uintOf, hhead]⟩
  | _ => exact .inr ⟨_, rest, hhead, by simp [Head.kind], by simp [uintOf, hhead]⟩

theorem IsValue.text_or {bytes : Bytes} (h : IsValue bytes) :
    (∃ text, MessagePack.head bytes = some (.str text.length, text) ∧
        textOf bytes = some text) ∨
      ∃ hd rest, MessagePack.head bytes = some (hd, rest) ∧ hd.kind ≠ .str ∧
        textOf bytes = none := by
  obtain ⟨hd, rest, hhead, hpayload, hskip⟩ := h.head
  cases hd with
  | str length =>
      simp only [Head.children, Head.payload, skip_zero, Option.some.injEq,
        List.drop_eq_nil_iff] at hskip hpayload
      have hlength : length = rest.length := by omega
      subst length
      exact .inl ⟨rest, hhead, by simp [textOf, hhead]⟩
  | _ => exact .inr ⟨_, rest, hhead, by simp [Head.kind], by simp [textOf, hhead]⟩

theorem IsValue.array_or {bytes : Bytes} (h : IsValue bytes) :
    (∃ xs, arrayOf bytes = some (xs, [])) ∨
      ∃ hd rest, MessagePack.head bytes = some (hd, rest) ∧ hd.kind ≠ .array ∧
        arrayOf bytes = none := by
  have hnext := next_append h []
  rw [List.append_nil] at hnext
  obtain ⟨hd, rest, hhead, -⟩ := h.head
  cases hd with
  | array count =>
      obtain ⟨xs, hxs⟩ := items_of_next hhead hnext rfl
      rw [Head.children] at hxs
      exact .inl ⟨xs, by rw [arrayOf, hhead]; exact hxs⟩
  | _ => exact .inr ⟨_, rest, hhead, by simp [Head.kind], by simp [arrayOf, hhead]⟩

theorem head_of_uintOf {bytes : Bytes} {n : Nat} (h : uintOf bytes = some n) :
    MessagePack.head bytes = some (.uint n, []) := by
  unfold uintOf at h
  split at h
  · rename_i m hhead
    cases h
    exact hhead
  · cases h

theorem isValue_of_uintOf {bytes : Bytes} {n : Nat} (h : uintOf bytes = some n) :
    IsValue bytes :=
  .of_item (by simp [item, head_of_uintOf h, Head.payload, Head.children])

theorem head_of_textOf {bytes text : Bytes} (h : textOf bytes = some text) :
    MessagePack.head bytes = some (.str text.length, text) := by
  unfold textOf at h
  split at h
  · rename_i length after hhead
    split at h
    · rename_i hlength
      cases h
      rw [hhead, hlength]
    · cases h
  · cases h

theorem isValue_of_textOf {bytes text : Bytes} (h : textOf bytes = some text) :
    IsValue bytes :=
  .of_item (by simp [item, head_of_textOf h, Head.payload, Head.children])

end BeeC.Wire.MessagePack
