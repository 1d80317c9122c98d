import BeeC.Msgpuck
import BeeC.ReplyReading
import BeeC.Wire.Tiling
import BeeC.Wire.Walk

/-!
Iterators over the elements of an array and the pairs of a map (`beer_iter.c`). Their pointers are
offsets into the buffer that the iterator has been made for.
-/

namespace BeeC

open BeeC.Wire.Loop
open BeeC.Wire.MessagePack
open BeeC.Wire.Tiling
open BeeC.Wire.Walk

/-- `enum beer_iter_type`, the containers. -/
inductive IterType where
  | array | map
  deriving DecidableEq, Repr

/-- `enum beer_iter_status`. -/
inductive IterStatus where
  | ok | fail
  deriving DecidableEq, Repr

/-- `struct beer_iter_array`. -/
structure IterArray where
  data : Option Nat := none
  firstElem : Option Nat := none
  elem : Option Nat := none
  elemEnd : Option Nat := none
  elemCount : UInt32 := 0
  curIndex : Int := 0
  deriving DecidableEq, Repr

/-- `struct beer_iter_map`. -/
structure IterMap where
  data : Option Nat := none
  firstKey : Option Nat := none
  key : Option Nat := none
  keyEnd : Option Nat := none
  value : Option Nat := none
  valueEnd : Option Nat := none
  pairCount : UInt32 := 0
  curIndex : Int := 0
  deriving DecidableEq, Repr

/-- The data of an iterator. They determine its type and its callbacks. -/
inductive IterData where
  | array (itr : IterArray)
  | map (itr : IterMap)
  deriving DecidableEq, Repr

/-- `struct beer_iter`. -/
structure BeerIter where
  status : IterStatus := .ok
  alloc : Bool
  data : IterData
  deriving DecidableEq, Repr

/-- `cur_index++`, on an `int`. -/
def increment (curIndex : Int) : Except Stop Int :=
  if curIndex = 2 ^ 31 - 1 then .error (.fault .overflow) else .ok (curIndex + 1)

/-- `(uint32_t)cur_index`. -/
def unsigned (curIndex : Int) : Nat := (curIndex % 2 ^ 32).toNat

/-- `mp_next(&p)`, on a pointer into the buffer. -/
def nextAt (mp : Msgpuck) (buf : Bytes) : Option Nat → Except Stop (Option Nat)
  | none => .error (.fault .nullPointer)
  | some start => do
      let rest ← mp.nextValue (buf.drop start)
      return some (buf.length - rest.length)

def beerIterArrayNext (mp : Msgpuck) (buf : Bytes) (itr : IterArray) (i : BeerIter) :
    Except Stop (Int × BeerIter) := do
  let curIndex ← increment itr.curIndex
  if unsigned curIndex ≥ itr.elemCount.toNat then
    return (0, { i with status := .fail, data := .array { itr with curIndex } })
  let elem := if curIndex = 0 then itr.firstElem else itr.elemEnd
  let elemEnd ← nextAt mp buf elem
  return (1, { i with data := .array { itr with curIndex, elem, elemEnd } })

def beerIterArrayRewind (itr : IterArray) (i : BeerIter) : BeerIter :=
  { i with
    status := .ok
    data := .array { itr with curIndex := -1, elem := none, elemEnd := none } }

/-- `beer_iter_array`. Its error exit returns `NULL`; otherwise it allocates the iterator, unless
one is given. -/
def beerIterArray (mp : Msgpuck) (given : Bool) (data : Bytes) : Except Stop BeerIter := do
  if (mp.mpCheck data).isNone then throw .fail
  if data.length = 0 then throw .fail
  expect mp .array data
  let (elemCount, rest) ← mp.decodeArray data
  return {
    alloc := !given
    data := .array {
      data := some 0
      firstElem := some (data.length - rest.length)
      elemCount
      curIndex := -1 } }

def beerIterMapNext (mp : Msgpuck) (buf : Bytes) (itr : IterMap) (i : BeerIter) :
    Except Stop (Int × BeerIter) := do
  let curIndex ← increment itr.curIndex
  if unsigned curIndex ≥ itr.pairCount.toNat then
    return (0, { i with status := .fail, data := .map { itr with curIndex } })
  let key := if curIndex = 0 then itr.firstKey else itr.valueEnd
  let keyEnd ← nextAt mp buf key
  let value := keyEnd
  let valueEnd ← nextAt mp buf value
  return (1, { i with data := .map { itr with curIndex, key, keyEnd, value, valueEnd } })

def beerIterMapRewind (itr : IterMap) (i : BeerIter) : BeerIter :=
  { i with
    status := .ok
    data := .map {
      itr with curIndex := -1, key := none, keyEnd := none, value := none, valueEnd := none } }

def beerIterMap (mp : Msgpuck) (given : Bool) (data : Bytes) : Except Stop BeerIter := do
  if (mp.mpCheck data).isNone then throw .fail
  if data.length = 0 then throw .fail
  expect mp .map data
  let (pairCount, rest) ← mp.decodeMap data
  return {
    alloc := !given
    data := .map {
      data := some 0
      firstKey := some (data.length - rest.length)
      pairCount
      curIndex := -1 } }

def beerNext (mp : Msgpuck) (buf : Bytes) (i : BeerIter) : Except Stop (Int × BeerIter) :=
  match i.data with
  | .array itr => beerIterArrayNext mp buf itr i
  | .map itr => beerIterMapNext mp buf itr i

def beerRewind (i : BeerIter) : BeerIter :=
  match i.data with
  | .array itr => beerIterArrayRewind itr { i with status := .ok }
  | .map itr => beerIterMapRewind itr { i with status := .ok }

/-- The constructor for a type of containers. -/
def beerIter (mp : Msgpuck) : IterType → (given : Bool) → (data : Bytes) → Except Stop BeerIter
  | .array => beerIterArray mp
  | .map => beerIterMap mp

/-- The head of a container with `n` elements or pairs. -/
def IterType.head : IterType → (n : Nat) → Head
  | array => .array
  | map => .map

/-- How many values an iterator visits at once. -/
def IterType.width : IterType → Nat
  | array => 1
  | map => 2

namespace BeerIter

/-- The ranges that an iterator points to: those of an element, or of a key and a value. -/
def current (i : BeerIter) : Option (List Range) :=
  match i.data with
  | .array itr => do
      let start ← itr.elem
      let stop ← itr.elemEnd
      return [(start, stop)]
  | .map itr => do
      let start ← itr.key
      let stop ← itr.keyEnd
      let start' ← itr.value
      let stop' ← itr.valueEnd
      return [(start, stop), (start', stop')]

/-- A call of `beer_next`: its result, and what the iterator points to if the result is one. -/
def visit (mp : Msgpuck) (buf : Bytes) (i : BeerIter) :
    Except Stop ((Int × Option (List Range)) × BeerIter) := do
  let (rc, i) ← beerNext mp buf i
  return ((rc, if rc = 1 then i.current else none), i)

/-- The result of `beer_next` in front of some ranges, or behind all. -/
def told : Option (List Range) → Int × Option (List Range)
  | some ranges => (1, some ranges)
  | none => (0, none)

end BeerIter

/-- An iterator is made for a container whose elements stand in groups behind a header. After some
calls of `beer_next` it points to the group it has come to. -/
structure IterArray.Stands (start : Nat) (groups : List (List Bytes)) (place : Nat)
    (itr : IterArray) : Prop where
  place_le : place ≤ 2 ^ 31
  curIndex_eq : itr.curIndex = place - 1
  elemCount_eq : itr.elemCount.toNat = groups.length
  firstElem_eq : itr.firstElem = some start
  elemEnd_eq : 0 < place → place ≤ groups.length →
    itr.elemEnd = some (start + (groups.take place).flatten.flatten.length)

structure IterMap.Stands (start : Nat) (groups : List (List Bytes)) (place : Nat)
    (itr : IterMap) : Prop where
  place_le : place ≤ 2 ^ 31
  curIndex_eq : itr.curIndex = place - 1
  pairCount_eq : itr.pairCount.toNat = groups.length
  firstKey_eq : itr.firstKey = some start
  valueEnd_eq : 0 < place → place ≤ groups.length →
    itr.valueEnd = some (start + (groups.take place).flatten.flatten.length)

theorem increment_eq {place : Nat} (h : place < 2 ^ 31) :
    increment ((place : Int) - 1) = .ok place := by
  rw [increment, if_neg (by omega)]
  exact congrArg Except.ok (by omega)

theorem increment_overflow : increment (((2 ^ 31 : Nat) : Int) - 1) = .error (.fault .overflow) :=
  if_pos (by decide)

theorem unsigned_natCast {n : Nat} (h : n < 2 ^ 32) : unsigned n = n := by
  unfold unsigned
  omega

theorem nextAt_eq {mp : Msgpuck} (hmp : mp.Lawful) {before value rest : Bytes}
    (h : IsValue value) : nextAt mp (before ++ (value ++ rest)) (some before.length) =
      .ok (some (before.length + value.length)) := by
  have hstop : (before ++ (value ++ rest)).length - rest.length =
      before.length + value.length := by
    simp only [List.length_append]
    omega
  rw [nextAt, List.drop_left, Msgpuck.nextValue_append hmp h, ok_bind, hstop, pure_eq]

theorem groups_split {groups : List (List Bytes)} {group : List Bytes} {place : Nat}
    (h : groups[place]? = some group) (before rest : Bytes) :
    before ++ (groups.flatten.flatten ++ rest) =
        (before ++ (groups.take place).flatten.flatten) ++
          (group.flatten ++ ((groups.drop (place + 1)).flatten.flatten ++ rest)) ∧
      (groups.take (place + 1)).flatten.flatten =
        (groups.take place).flatten.flatten ++ group.flatten ∧
      (tileGroups before.length groups)[place]? =
        some (tile (before ++ (groups.take place).flatten.flatten).length group) := by
  obtain ⟨hplace, rfl⟩ := List.getElem?_eq_some_iff.mp h
  have hsplit : groups = groups.take place ++ groups[place] :: groups.drop (place + 1) := by
    rw [← List.drop_eq_getElem_cons hplace, List.take_append_drop]
  have hlength : (groups.take place).length = place := by
    rw [List.length_take]
    omega
  refine ⟨?_, ?_, ?_⟩
  · conv_lhs => rw [hsplit]
    simp only [List.flatten_append, List.flatten_cons, List.append_assoc]
  · rw [List.take_succ_eq_append_getElem hplace]
    simp only [List.flatten_append, List.flatten_cons, List.flatten_nil, List.append_nil]
  · have htile := tileGroups_getElem? before.length (groups.take place) groups[place]
      (groups.drop (place + 1))
    rwa [← hsplit, hlength, ← List.length_append] at htile

theorem told_behind {groups : List (List Bytes)} {place : Nat} (h : groups.length ≤ place)
    (start : Nat) : BeerIter.told (tileGroups start groups)[place]? = (0, none) := by
  rw [List.getElem?_eq_none (by rw [tileGroups_length]; exact h)]
  rfl

section Next

variable {mp : Msgpuck} (hmp : mp.Lawful) {before rest : Bytes} {groups : List (List Bytes)}
variable {place : Nat} {i : BeerIter}

theorem start_of_group {first stop : Option Nat} (hfirst : first = some before.length)
    (hstop : 0 < place → place ≤ groups.length →
      stop = some (before.length + (groups.take place).flatten.flatten.length))
    (hmore : place < groups.length) :
    (if (place : Int) = 0 then first else stop) =
      some (before ++ (groups.take place).flatten.flatten).length := by
  split
  · have hzero : place = 0 := by omega
    rw [hfirst, hzero]
    simp
  · rw [hstop (by omega) (by omega), List.length_append]

include hmp

theorem IterArray.Stands.next {itr : IterArray} (h : itr.Stands before.length groups place)
    (hgroups : ∀ group ∈ groups, ∃ elem, group = [elem] ∧ IsValue elem) (hplace : place < 2 ^ 31)
    (hdata : i.data = .array itr) :
    ∃ i' itr', i.visit mp (before ++ (groups.flatten.flatten ++ rest)) =
        .ok (BeerIter.told (tileGroups before.length groups)[place]?, i') ∧
      i'.data = .array itr' ∧ itr'.Stands before.length groups (place + 1) := by
  obtain ⟨-, hindex, hcount, hfirst, hend⟩ := h
  have hindex' : ((place : Int) : Int) = ((place + 1 : Nat) : Int) - 1 := by omega
  have hunsigned : unsigned place = place := unsigned_natCast (by omega)
  simp only [BeerIter.visit, beerNext, hdata, beerIterArrayNext, hindex, increment_eq hplace,
    ok_bind, hunsigned, hcount]
  by_cases hmore : place < groups.length
  · have hgroup := List.getElem?_eq_getElem hmore
    obtain ⟨elem, helem, hvalue⟩ := hgroups _ (List.getElem_mem hmore)
    rw [helem] at hgroup
    obtain ⟨hsplit, htake, htile⟩ := groups_split hgroup before rest
    simp only [List.flatten_cons, List.flatten_nil, List.append_nil] at hsplit htake
    have hstart := start_of_group hfirst hend hmore
    rw [if_neg (by omega), hstart, hsplit, nextAt_eq hmp hvalue, ok_bind, pure_eq, ok_bind, htile]
    refine ⟨_, _, rfl, rfl, hplace, hindex', hcount, hfirst, fun _ _ => ?_⟩
    dsimp only
    rw [htake, List.length_append, List.length_append, Nat.add_assoc]
  · rw [if_pos (by omega), pure_eq, ok_bind, told_behind (by omega)]
    exact ⟨_, _, rfl, rfl, hplace, hindex', hcount, hfirst, fun _ _ => by omega⟩

theorem IterMap.Stands.next {itr : IterMap} (h : itr.Stands before.length groups place)
    (hgroups : ∀ group ∈ groups, ∃ key value, group = [key, value] ∧ IsValue key ∧ IsValue value)
    (hplace : place < 2 ^ 31) (hdata : i.data = .map itr) :
    ∃ i' itr', i.visit mp (before ++ (groups.flatten.flatten ++ rest)) =
        .ok (BeerIter.told (tileGroups before.length groups)[place]?, i') ∧
      i'.data = .map itr' ∧ itr'.Stands before.length groups (place + 1) := by
  obtain ⟨-, hindex, hcount, hfirst, hend⟩ := h
  have hindex' : ((place : Int) : Int) = ((place + 1 : Nat) : Int) - 1 := by omega
  have hunsigned : unsigned place = place := unsigned_natCast (by omega)
  simp only [BeerIter.visit, beerNext, hdata, beerIterMapNext, hindex, increment_eq hplace,
    ok_bind, hunsigned, hcount]
  by_cases hmore : place < groups.length
  · have hgroup := List.getElem?_eq_getElem hmore
    obtain ⟨key, value, hpair, hkey, hvalue⟩ := hgroups _ (List.getElem_mem hmore)
    rw [hpair] at hgroup
    obtain ⟨hsplit, htake, htile⟩ := groups_split hgroup before rest
    simp only [List.flatten_cons, List.flatten_nil, List.append_nil] at hsplit htake
    have hstart := start_of_group hfirst hend hmore
    have hkeyAt := @nextAt_eq _ hmp (before ++ (groups.take place).flatten.flatten) key
      (value ++ ((groups.drop (place + 1)).flatten.flatten ++ rest)) hkey
    have hvalueAt := @nextAt_eq _ hmp ((before ++ (groups.take place).flatten.flatten) ++ key) value
      ((groups.drop (place + 1)).flatten.flatten ++ rest) hvalue
    have hlength : ((before ++ (groups.take place).flatten.flatten) ++ key).length =
        (before ++ (groups.take place).flatten.flatten).length + key.length := List.length_append
    rw [← List.append_assoc key, ← hsplit] at hkeyAt
    rw [List.append_assoc _ key, ← List.append_assoc key, ← hsplit, hlength] at hvalueAt
    rw [if_neg (by omega), hstart, hkeyAt, ok_bind, hvalueAt, ok_bind, pure_eq, ok_bind, htile]
    refine ⟨_, _, rfl, rfl, hplace, hindex', hcount, hfirst, fun _ _ => ?_⟩
    dsimp only
    rw [htake]
    simp only [List.length_append, Nat.add_assoc]
  · rw [if_pos (by omega), pure_eq, ok_bind, told_behind (by omega)]
    exact ⟨_, _, rfl, rfl, hplace, hindex', hcount, hfirst, fun _ _ => by omega⟩

end Next

/-- The state of either kind of iterator. -/
def BeerIter.Stands (start : Nat) (groups : List (List Bytes)) (place : Nat) (i : BeerIter) : Prop :=
  (∃ itr : IterArray, i.data = .array itr ∧ itr.Stands start groups place ∧
      ∀ group ∈ groups, ∃ elem, group = [elem] ∧ IsValue elem) ∨
    ∃ itr : IterMap, i.data = .map itr ∧ itr.Stands start groups place ∧
      ∀ group ∈ groups, ∃ key value, group = [key, value] ∧ IsValue key ∧ IsValue value

namespace BeerIter

theorem Stands.visit {mp : Msgpuck} (hmp : mp.Lawful) {before rest : Bytes}
    {groups : List (List Bytes)} {place : Nat} {i : BeerIter}
    (h : i.Stands before.length groups place) (hplace : place < 2 ^ 31) :
    ∃ i', i.visit mp (before ++ (groups.flatten.flatten ++ rest)) =
        .ok (told (tileGroups before.length groups)[place]?, i') ∧
      i'.Stands before.length groups (place + 1) := by
  rcases h with ⟨itr, hdata, hstands, hgroups⟩ | ⟨itr, hdata, hstands, hgroups⟩
  · obtain ⟨i', itr', hvisit, hdata', hstands'⟩ := hstands.next hmp hgroups hplace hdata
    exact ⟨i', hvisit, .inl ⟨itr', hdata', hstands', hgroups⟩⟩
  · obtain ⟨i', itr', hvisit, hdata', hstands'⟩ := hstands.next hmp hgroups hplace hdata
    exact ⟨i', hvisit, .inr ⟨itr', hdata', hstands', hgroups⟩⟩

/-- The call that would increase the largest `int` is undefined. -/
theorem Stands.overflow (mp : Msgpuck) (buf : Bytes) {start : Nat} {groups : List (List Bytes)}
    {place : Nat} {i : BeerIter} (h : i.Stands start groups place) (hplace : ¬place < 2 ^ 31) :
    ∃ e, i.visit mp buf = .error e := by
  rcases h with ⟨itr, hdata, hstands, -⟩ | ⟨itr, hdata, hstands, -⟩
  all_goals
    have hlast : place = 2 ^ 31 := le_antisymm hstands.place_le (Nat.not_lt.mp hplace)
    have hindex := hstands.curIndex_eq
    rw [hlast] at hindex
    refine ⟨.fault .overflow, ?_⟩
  · simp only [BeerIter.visit, beerNext, hdata, beerIterArrayNext, hindex, increment_overflow,
      error_bind]
  · simp only [BeerIter.visit, beerNext, hdata, beerIterMapNext, hindex, increment_overflow,
      error_bind]

theorem Stands.rewind {start : Nat} {groups : List (List Bytes)} {place : Nat} {i : BeerIter}
    (h : i.Stands start groups place) : (beerRewind i).Stands start groups 0 := by
  rcases h with ⟨itr, hdata, ⟨-, -, hcount, hfirst, -⟩, hgroups⟩ |
    ⟨itr, hdata, ⟨-, -, hcount, hfirst, -⟩, hgroups⟩
  · refine .inl ⟨_, by rw [beerRewind, hdata]; rfl, ?_, hgroups⟩
    exact ⟨Nat.zero_le _, rfl, hcount, hfirst, fun h => absurd h (Nat.lt_irrefl 0)⟩
  · refine .inr ⟨_, by rw [beerRewind, hdata]; rfl, ?_, hgroups⟩
    exact ⟨Nat.zero_le _, rfl, hcount, hfirst, fun h => absurd h (Nat.lt_irrefl 0)⟩

end BeerIter

theorem exists_groups {buf after container rest : Bytes} {type : IterType} {n : Nat}
    (hhead : head buf = some (type.head n, after)) (hnext : next buf = some (container, rest)) :
    ∃ groups : List (List Bytes), after = groups.flatten.flatten ++ rest ∧ groups.length = n ∧
      (∀ x ∈ groups.flatten, IsValue x) ∧ ∀ group ∈ groups, group.length = type.width := by
  have hpayload : (type.head n).payload = 0 := by cases type <;> rfl
  obtain ⟨xs, hitems⟩ := items_of_next hhead hnext hpayload
  obtain ⟨hlength, hafter, hvalues⟩ := items_eq_some hitems
  cases type with
  | array =>
      have hflatten : (xs.map fun x => [x]).flatten = xs := by
        rw [← List.flatMap_def, List.flatMap_singleton']
      refine ⟨xs.map fun x => [x], by rw [hflatten, hafter], ?_, by rwa [hflatten], ?_⟩
      · rw [List.length_map]
        exact hlength
      · intro group hgroup
        obtain ⟨x, -, rfl⟩ := List.mem_map.mp hgroup
        rfl
  | map =>
      have hlength' : xs.length = 2 * n := hlength
      have hflatten : ((pairUp xs).map fun pair => [pair.1, pair.2]).flatten = xs := by
        rw [← List.flatMap_def]
        exact unpair_pairUp hlength'
      refine ⟨(pairUp xs).map fun pair => [pair.1, pair.2], by rw [hflatten, hafter], ?_,
        by rwa [hflatten], ?_⟩
      · have hpairs := unpair_length (pairUp xs)
        rw [unpair_pairUp hlength'] at hpairs
        rw [List.length_map]
        omega
      · intro group hgroup
        obtain ⟨pair, -, rfl⟩ := List.mem_map.mp hgroup
        rfl

section Container

variable {mp : Msgpuck} (hmp : mp.Lawful)

include hmp

theorem checked_of_next {buf : Bytes} {value : Bytes × Bytes} (h : next buf = some value) :
    (mp.mpCheck buf).isNone = false ∧ ¬buf.length = 0 := by
  obtain ⟨hbuf, hvalue⟩ := next_eq_some h
  refine ⟨by rw [hmp.check_eq, h]; rfl, fun hlength => ?_⟩
  obtain ⟨hd, after, hhead, -⟩ := hvalue.head
  obtain ⟨used, hused, hpos, -⟩ := head_suffix (head_append hhead value.2)
  rw [hbuf, hused, List.length_append] at hlength
  omega

theorem beerIter_stands {buf after container rest : Bytes} {type : IterType} {n : Nat}
    (hhead : head buf = some (type.head n, after)) (hnext : next buf = some (container, rest))
    {groups : List (List Bytes)} (hcount : groups.length = n)
    (hvalues : ∀ x ∈ groups.flatten, IsValue x)
    (hwidth : ∀ group ∈ groups, group.length = type.width) (given : Bool) :
    ∃ i, beerIter mp type given buf = .ok i ∧
      i.Stands (buf.length - after.length) groups 0 := by
  obtain ⟨hcheck, hpos⟩ := checked_of_next hmp hnext
  have hn : n < 2 ^ 32 := by
    have hfits := fits_of_head hhead
    cases type <;> exact hfits
  have hcount' : (UInt32.ofNat n).toNat = groups.length := by
    rw [UInt32.toNat_ofNat_of_lt' hn, hcount]
  cases type with
  | array =>
      have hgroups : ∀ group ∈ groups, ∃ elem, group = [elem] ∧ IsValue elem := by
        intro group hgroup
        obtain ⟨elem, rfl⟩ := List.length_eq_one_iff.mp (hwidth group hgroup)
        exact ⟨elem, rfl, hvalues elem (List.mem_flatten_of_mem hgroup (by simp))⟩
      refine ⟨{
        alloc := !given
        data := .array {
          data := some 0
          firstElem := some (buf.length - after.length)
          elemCount := UInt32.ofNat n
          curIndex := -1 } }, ?_, .inl ⟨_, rfl, ⟨Nat.zero_le _, rfl, hcount', rfl,
            fun h => absurd h (Nat.lt_irrefl 0)⟩, hgroups⟩⟩
      have hexpect : expect mp .array buf = .ok () := expect_eq hmp hhead rfl
      simp only [beerIter, beerIterArray, hcheck, hpos, hexpect, Msgpuck.decodeArray_eq hmp hhead,
        Bool.false_eq_true, if_false, pure_eq, ok_bind]
  | map =>
      have hgroups : ∀ group ∈ groups, ∃ key value,
          group = [key, value] ∧ IsValue key ∧ IsValue value := by
        intro group hgroup
        obtain ⟨key, value, rfl⟩ := List.length_eq_two.mp (hwidth group hgroup)
        exact ⟨key, value, rfl, hvalues key (List.mem_flatten_of_mem hgroup (by simp)),
          hvalues value (List.mem_flatten_of_mem hgroup (by simp))⟩
      refine ⟨{
        alloc := !given
        data := .map {
          data := some 0
          firstKey := some (buf.length - after.length)
          pairCount := UInt32.ofNat n
          curIndex := -1 } }, ?_, .inr ⟨_, rfl, ⟨Nat.zero_le _, rfl, hcount', rfl,
            fun h => absurd h (Nat.lt_irrefl 0)⟩, hgroups⟩⟩
      have hexpect : expect mp .map buf = .ok () := expect_eq hmp hhead rfl
      simp only [beerIter, beerIterMap, hcheck, hpos, hexpect, Msgpuck.decodeMap_eq hmp hhead,
        Bool.false_eq_true, if_false, pure_eq, ok_bind]

theorem beerIter_fails {type : IterType} {buf : Bytes}
    (h : ∀ n after container rest, head buf = some (type.head n, after) →
      next buf ≠ some (container, rest)) (given : Bool) :
    beerIter mp type given buf = .error .fail := by
  cases hnext : next buf with
  | none =>
      have hcheck : (mp.mpCheck buf).isNone = true := by
        rw [hmp.check_eq, hnext]
        rfl
      cases type <;> simp only [beerIter, beerIterArray, beerIterMap, hcheck, if_true] <;> rfl
  | some value =>
      obtain ⟨hbuf, hvalue⟩ := next_eq_some hnext
      obtain ⟨hd, after, hhead, -⟩ := hvalue.head
      have hhead := head_append hhead value.2
      rw [← hbuf] at hhead
      obtain ⟨hcheck, hpos⟩ := checked_of_next hmp hnext
      have hkind : hd.kind ≠ (type.head 0).kind := by
        intro hkind
        have hcontainer : ∃ n, hd = type.head n := by
          cases type <;> cases hd <;> first | exact ⟨_, rfl⟩ | cases hkind
        obtain ⟨n, rfl⟩ := hcontainer
        exact h n _ _ _ hhead hnext
      cases type with
      | array =>
          have hexpect : expect mp .array buf = .error .fail := expect_wrongType hmp hhead hkind
          simp only [beerIter, beerIterArray, hcheck, hpos, hexpect, Bool.false_eq_true, if_false,
            pure_eq, error_bind]
      | map =>
          have hexpect : expect mp .map buf = .error .fail := expect_wrongType hmp hhead hkind
          simp only [beerIter, beerIterMap, hcheck, hpos, hexpect, Bool.false_eq_true, if_false,
            pure_eq, error_bind]

theorem beerIter_walks {buf after container rest : Bytes} {type : IterType} {n : Nat}
    (hhead : head buf = some (type.head n, after)) (hnext : next buf = some (container, rest))
    (given : Bool) :
    ∃ i visits, beerIter mp type given buf = .ok i ∧ visits.length = n ∧
      (∀ ranges ∈ visits, ranges.length = type.width) ∧
      Tiles buf (buf.length - after.length) visits.flatten container.length ∧
      ∀ calls, (∃ i', run (BeerIter.visit mp buf) beerRewind calls i =
          .ok ((walk visits 0 calls).map BeerIter.told, i')) ↔ Lasts (2 ^ 31) 0 calls := by
  obtain ⟨groups, hafter, hcount, hvalues, hwidth⟩ := exists_groups hhead hnext
  obtain ⟨i, hiter, hstands⟩ := beerIter_stands hmp hhead hnext hcount hvalues hwidth given
  obtain ⟨before, hbuf, -⟩ := head_suffix hhead
  have hstart : buf.length - after.length = before.length := by
    rw [hbuf, List.length_append, Nat.add_sub_cancel]
  have hsplit : buf = before ++ (groups.flatten.flatten ++ rest) := by rw [hbuf, hafter]
  have hstop : container.length = before.length + groups.flatten.flatten.length := by
    have hlength := congrArg List.length ((next_eq_some hnext).1.symm.trans hsplit)
    simp only [List.length_append] at hlength
    omega
  rw [hstart] at hstands ⊢
  refine ⟨i, tileGroups before.length groups, hiter, by rw [tileGroups_length, hcount], ?_, ?_, ?_⟩
  · intro ranges hranges
    obtain ⟨group, hgroup, hlength⟩ := exists_group_of_mem hranges
    rw [hlength]
    exact hwidth group hgroup
  · rw [tileGroups_flatten, hsplit, hstop]
    exact tiles_tile hvalues
  · intro calls
    rw [hsplit]
    exact run_eq_walk_iff (fun _ _ h hplace => h.visit hmp hplace)
      (fun _ _ h hplace => h.overflow mp _ hplace) (fun _ _ h => h.rewind) calls hstands

/-- The iteration over a container is a partition of it, whatever the calls are, exactly if they
last no longer than the index. Anything but a container has no iterator. -/
theorem beerIter_partition (type : IterType) (buf : Bytes) (given : Bool) :
    (∀ n after container rest, head buf = some (type.head n, after) →
        next buf = some (container, rest) →
      ∃ i visits, beerIter mp type given buf = .ok i ∧ visits.length = n ∧
        (∀ ranges ∈ visits, ranges.length = type.width) ∧
        Tiles buf (buf.length - after.length) visits.flatten container.length ∧
        ∀ calls, (∃ i', run (BeerIter.visit mp buf) beerRewind calls i =
            .ok ((walk visits 0 calls).map BeerIter.told, i')) ↔ Lasts (2 ^ 31) 0 calls) ∧
      ((∀ n after container rest, head buf = some (type.head n, after) →
          next buf ≠ some (container, rest)) →
        beerIter mp type given buf = .error .fail) :=
  ⟨fun _ _ _ _ hhead hnext => beerIter_walks hmp hhead hnext given,
    fun h => beerIter_fails hmp h given⟩

end Container

theorem beerIter_partition_nested :
    (∃ i visits, beerIter .reference .map false [0x81, 0xa1, 0x61, 0x92, 1, 2, 0xc0] = .ok i ∧
        visits.length = 1 ∧ (∀ ranges ∈ visits, ranges.length = 2) ∧
        Tiles [0x81, 0xa1, 0x61, 0x92, 1, 2, 0xc0] 1 visits.flatten 6 ∧
        ∀ calls, (∃ i', run (BeerIter.visit .reference [0x81, 0xa1, 0x61, 0x92, 1, 2, 0xc0])
            beerRewind calls i = .ok ((walk visits 0 calls).map BeerIter.told, i')) ↔
          Lasts (2 ^ 31) 0 calls) ∧
      beerIter .reference .array false [0x81, 0xa1, 0x61, 0x92, 1, 2, 0xc0] = .error .fail := by
  constructor
  · exact (beerIter_partition Msgpuck.reference_lawful .map _ false).1 1
      [0xa1, 0x61, 0x92, 1, 2, 0xc0] [0x81, 0xa1, 0x61, 0x92, 1, 2] [0xc0] (by decide) (by decide)
  · refine (beerIter_partition Msgpuck.reference_lawful .array _ false).2 ?_
    intro n after container rest hhead
    cases hhead

/-- Over the array of one and two, the calls behind the end come to the largest `int`. -/
theorem not_beerIter_partition :
    ∃ i visits, beerIter .reference .array false [0x92, 1, 2] = .ok i ∧ visits.length = 2 ∧
      (∀ ranges ∈ visits, ranges.length = 1) ∧ Tiles [0x92, 1, 2] 1 visits.flatten 3 ∧
      ¬∃ i', run (BeerIter.visit .reference [0x92, 1, 2]) beerRewind
          (List.replicate (2 ^ 31 + 1) .next) i =
        .ok ((walk visits 0 (List.replicate (2 ^ 31 + 1) .next)).map BeerIter.told, i') := by
  obtain ⟨i, visits, hiter, hlength, hwidth, htiles, hcalls⟩ :=
    @beerIter_walks _ Msgpuck.reference_lawful [0x92, 1, 2] [1, 2] [0x92, 1, 2] [] .array 2
      (by decide) (by decide) false
  refine ⟨i, visits, hiter, hlength, hwidth, htiles, fun hrun => ?_⟩
  have hlasts := (hcalls _).mp hrun
  rw [lasts_replicate_iff _ _ _ (Nat.zero_le _)] at hlasts
  omega

end BeeC
