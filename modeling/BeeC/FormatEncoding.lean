import BeeC.ObjectAtomic
import BeeC.ObjectFormat
import BeeC.Wire.Signed

namespace BeeC

open BeeC.Wire
open BeeC.Wire.Loop
open BeeC.Wire.Memory
open BeeC.Wire.MessagePack
open BeeC.Wire.Encoding

/-- The number that is passed for a `%u`. -/
def FormatArg.asUnsigned? : FormatArg → Option UInt64
  | unsigned value => some value.toUInt64
  | int value => if 0 ≤ value then some value.toInt64.toUInt64 else none
  | _ => none

/-- The number that is passed for a `%lu`. -/
def FormatArg.asUnsignedLong? : FormatArg → Option UInt64
  | unsignedLong value => some value
  | long value => if 0 ≤ value then some value.toUInt64 else none
  | _ => none

/-- The specifiers for an `int`, also for a `short` or a `char`, which are promoted to it. -/
def intSpecifiers : List (List Char) :=
  [['d'], ['i'], ['h', 'd'], ['h', 'i'], ['h', 'h', 'd'], ['h', 'h', 'i']]

def unsignedSpecifiers : List (List Char) := [['u'], ['h', 'u'], ['h', 'h', 'u']]

def longSpecifiers : List (List Char) :=
  [['l', 'd'], ['l', 'i'], ['l', 'l', 'd'], ['l', 'l', 'i']]

def unsignedLongSpecifiers : List (List Char) := [['l', 'u'], ['l', 'l', 'u']]

/-- A specifier, the arguments it takes, and the value they stand for. -/
inductive Specifies (toFloat : UInt64 → UInt32) : List Char → List FormatArg → Value → Prop where
  | int {spec : List Char} {arg : FormatArg} {value : Int64} (hspec : spec ∈ intSpecifiers)
      (harg : arg.int? = some value) : Specifies toFloat spec [arg] (.int value)
  | unsigned {spec : List Char} {arg : FormatArg} {value : UInt64}
      (hspec : spec ∈ unsignedSpecifiers) (harg : arg.asUnsigned? = some value) :
      Specifies toFloat spec [arg] (.uint value)
  | long {spec : List Char} {arg : FormatArg} {value : Int64} (hspec : spec ∈ longSpecifiers)
      (harg : arg.long? = some value) : Specifies toFloat spec [arg] (.int value)
  | unsignedLong {spec : List Char} {arg : FormatArg} {value : UInt64}
      (hspec : spec ∈ unsignedLongSpecifiers) (harg : arg.asUnsignedLong? = some value) :
      Specifies toFloat spec [arg] (.uint value)
  | float (bits : UInt64) : Specifies toFloat ['f'] [.double bits] (.float (toFloat bits))
  | double (bits : UInt64) : Specifies toFloat ['l', 'f'] [.double bits] (.double bits)
  | bool (value : Int32) : Specifies toFloat ['b'] [.int value] (.bool (value ≠ 0))
  | str (text : Chunk) : Specifies toFloat ['s'] [.str text] (.str text)
  | cut {arg : FormatArg} {len : UInt32} (text : Chunk) (harg : arg.length? = some len)
      (hlen : len.toNat ≤ text.bytes.length) :
      Specifies toFloat ['.', '*', 's'] [arg, .str text]
        (.str ⟨text.bytes.take len.toNat, lt_of_le_of_lt (List.length_take_le _ _) len.toNat_lt⟩)

/-- A format string, the arguments it takes, and the values it describes. Brackets and braces are
balanced, and a pair of braces has keys and values in turn. -/
inductive Formats (toFloat : UInt64 → UInt32) :
    List Char → List FormatArg → List Value → Prop where
  | done : Formats toFloat [] [] []
  | null {f : List Char} {vl : List FormatArg} {vs : List Value} (h : Formats toFloat f vl vs) :
      Formats toFloat ('N' :: 'I' :: 'L' :: f) vl (.nil :: vs)
  | other {c : Char} {f : List Char} {vl : List FormatArg} {vs : List Value}
      (hc : c ∉ ['[', ']', '{', '}', '%']) (hnull : ¬['N', 'I', 'L'] <+: c :: f)
      (h : Formats toFloat f vl vs) : Formats toFloat (c :: f) vl vs
  | percent {f : List Char} {vl : List FormatArg} {vs : List Value} (h : Formats toFloat f vl vs) :
      Formats toFloat ('%' :: '%' :: f) vl vs
  | specifier {spec f : List Char} {args vl : List FormatArg} {v : Value} {vs : List Value}
      (hspec : Specifies toFloat spec args v) (h : Formats toFloat f vl vs) :
      Formats toFloat ('%' :: (spec ++ f)) (args ++ vl) (v :: vs)
  | array {inner f : List Char} {args vl : List FormatArg} {xs vs : List Value}
      (hinner : Formats toFloat inner args xs) (h : Formats toFloat f vl vs) :
      Formats toFloat ('[' :: (inner ++ ']' :: f)) (args ++ vl) (.array xs :: vs)
  | map {inner f : List Char} {args vl : List FormatArg} {ps : List (Value × Value)}
      {vs : List Value} (hinner : Formats toFloat inner args (unpair ps))
      (h : Formats toFloat f vl vs) :
      Formats toFloat ('{' :: (inner ++ '}' :: f)) (args ++ vl) (.map ps :: vs)

section Scanning

variable {toFloat : UInt64 → UInt32}

theorem FormatArg.unsigned?_eq {arg : FormatArg} {value : UInt64}
    (h : arg.asUnsigned? = some value) : arg.unsigned? = some value.toInt64 := by
  cases arg with
  | int passed =>
      simp only [asUnsigned?, Option.ite_none_right_eq_some, Option.some.injEq] at h
      obtain ⟨hpassed, rfl⟩ := h
      rw [unsigned?, if_pos hpassed, Int64.toInt64_toUInt64]
  | unsigned passed =>
      cases h
      rfl
  | _ => cases h

theorem FormatArg.unsignedLong?_eq {arg : FormatArg} {value : UInt64}
    (h : arg.asUnsignedLong? = some value) : arg.unsignedLong? = some value.toInt64 := by
  cases arg with
  | long passed =>
      simp only [asUnsignedLong?, Option.ite_none_right_eq_some, Option.some.injEq] at h
      obtain ⟨hpassed, rfl⟩ := h
      rw [unsignedLong?, if_pos hpassed, Int64.toInt64_toUInt64]
  | unsignedLong passed =>
      cases h
      rfl
  | _ => cases h

theorem vaArg_eq {α : Type} {get : FormatArg → Option α} {arg : FormatArg} {value : α}
    (h : get arg = some value) (vl : List FormatArg) :
    vaArg get (arg :: vl) = .ok (value, vl) := by
  rw [vaArg, h]

theorem formatArg_eq {α : Type} {get : FormatArg → Option α} {arg : FormatArg} {value : α}
    (h : get arg = some value) (call : α → ObjectCall) (f : List Char) (vl : List FormatArg) :
    formatArg get call f (arg :: vl) = .ok (some (call value), f, vl) := by
  rw [formatArg, vaArg_eq h]
  rfl

theorem formatCut_eq {arg : FormatArg} {len : UInt32} (harg : arg.length? = some len)
    {text : Chunk} (hlen : len.toNat ≤ text.bytes.length) (f : List Char)
    (vl : List FormatArg) :
    formatCut f (arg :: .str text :: vl) = .ok (some (.addStr ⟨text.bytes.take len.toNat,
      lt_of_le_of_lt (List.length_take_le _ _) len.toNat_lt⟩), f, vl) := by
  have hstr : FormatArg.str? (.str text) = some text := rfl
  rw [formatCut, vaArg_eq harg, ok_bind]
  simp only [vaArg_eq hstr, ok_bind, if_neg (not_lt.mpr hlen)]
  rfl

theorem Specifies.formatSpecifier_eq {spec : List Char} {args : List FormatArg} {v : Value}
    (h : Specifies toFloat spec args v) (f : List Char) (vl : List FormatArg) :
    ∃ call, calls (fun _ => 0) v.signed = [call] ∧
      formatSpecifier toFloat (spec ++ f) (args ++ vl) = .ok (some call, f, vl) := by
  cases h with
  | @int spec arg value hspec harg =>
      have hcall := formatArg_eq harg .addInt f vl
      simp only [intSpecifiers, List.mem_cons, List.not_mem_nil, or_false] at hspec
      rcases hspec with rfl | rfl | rfl | rfl | rfl | rfl <;> exact ⟨_, rfl, hcall⟩
  | @unsigned spec arg value hspec harg =>
      have hcall := formatArg_eq (FormatArg.unsigned?_eq harg) .addInt f vl
      simp only [unsignedSpecifiers, List.mem_cons, List.not_mem_nil, or_false] at hspec
      rcases hspec with rfl | rfl | rfl <;> exact ⟨_, rfl, hcall⟩
  | @long spec arg value hspec harg =>
      have hcall := formatArg_eq harg .addInt f vl
      simp only [longSpecifiers, List.mem_cons, List.not_mem_nil, or_false] at hspec
      rcases hspec with rfl | rfl | rfl | rfl <;> exact ⟨_, rfl, hcall⟩
  | @unsignedLong spec arg value hspec harg =>
      have hcall := formatArg_eq (FormatArg.unsignedLong?_eq harg) .addInt f vl
      simp only [unsignedLongSpecifiers, List.mem_cons, List.not_mem_nil, or_false] at hspec
      rcases hspec with rfl | rfl <;> exact ⟨_, rfl, hcall⟩
  | cut text harg hlen => exact ⟨_, rfl, formatCut_eq harg hlen f vl⟩
  | _ => exact ⟨_, rfl, rfl⟩

/-- The loop makes some calls, and gets from one format and its arguments to another. -/
def Scans (toFloat : UInt64 → UInt32) (f : List Char) (vl : List FormatArg)
    (made : List ObjectCall) (f' : List Char) (vl' : List FormatArg) : Prop :=
  ∀ limit, f.length ≤ limit → ∃ left, f'.length ≤ left ∧
    formatCalls toFloat limit f vl = (formatCalls toFloat left f' vl').map (made ++ ·)

theorem Scans.refl (f : List Char) (vl : List FormatArg) : Scans toFloat f vl [] f vl := by
  intro limit hlimit
  refine ⟨limit, hlimit, ?_⟩
  cases formatCalls toFloat limit f vl <;> rfl

theorem Scans.trans {f f' f'' : List Char} {vl vl' vl'' : List FormatArg}
    {made made' : List ObjectCall} (h : Scans toFloat f vl made f' vl')
    (h' : Scans toFloat f' vl' made' f'' vl'') :
    Scans toFloat f vl (made ++ made') f'' vl'' := by
  intro limit hlimit
  obtain ⟨between, hbetween, hfirst⟩ := h limit hlimit
  obtain ⟨left, hleft, hsecond⟩ := h' between hbetween
  refine ⟨left, hleft, ?_⟩
  rw [hfirst, hsecond]
  cases formatCalls toFloat left f'' vl'' with
  | error reason => rfl
  | ok calls => exact congrArg Except.ok (List.append_assoc _ _ _).symm

theorem Scans.turn {c : Char} {f f' : List Char} {vl vl' : List FormatArg}
    {call : Option ObjectCall} (h : formatTurn toFloat (c :: f) vl = .ok (call, f', vl'))
    (hlength : f'.length ≤ f.length) : Scans toFloat (c :: f) vl call.toList f' vl' := by
  intro limit hlimit
  obtain ⟨left, rfl⟩ : ∃ left, limit = left + 1 := Nat.exists_eq_add_one.mpr (by
    rw [List.length_cons] at hlimit
    omega)
  refine ⟨left, by rw [List.length_cons] at hlimit; omega, ?_⟩
  rw [formatCalls, h]
  show (formatCalls toFloat left f' vl' >>= fun calls => pure (call.toList ++ calls)) = _
  cases formatCalls toFloat left f' vl' <;> rfl

theorem formatTurn_other {c : Char} (hc : c ∉ ['[', ']', '{', '}', '%']) {f : List Char}
    (hnull : ¬['N', 'I', 'L'] <+: c :: f) (vl : List FormatArg) :
    formatTurn toFloat (c :: f) vl = .ok (none, f, vl) := by
  simp only [List.mem_cons, List.not_mem_nil, or_false, not_or] at hc
  unfold formatTurn
  split <;> simp_all

theorem elementCalls_const (index : Nat) (xs : List Value) :
    elementCalls (fun _ => 0) index xs = (xs.map (calls fun _ => 0)).flatten := by
  induction xs generalizing index with
  | nil => rfl
  | cons x xs ih => rw [elementCalls, ih, List.map_cons, List.flatten_cons]

/-- The calls for a row of values whose unsigned numbers are kept in signed variables. -/
def signedCalls (vs : List Value) : List ObjectCall :=
  (vs.map fun v => calls (fun _ => 0) v.signed).flatten

theorem signedCalls_cons (v : Value) (vs : List Value) :
    signedCalls (v :: vs) = calls (fun _ => 0) v.signed ++ signedCalls vs := rfl

theorem signedCalls_array (xs vs : List Value) :
    signedCalls (.array xs :: vs) =
      .addArray 0 :: (signedCalls xs ++ .containerClose :: signedCalls vs) := by
  rw [signedCalls_cons, Value.signed, Value.signedElements_eq, calls, elementCalls_const,
    List.map_map, List.cons_append, List.append_assoc]
  rfl

theorem signedCalls_map (ps : List (Value × Value)) (vs : List Value) :
    signedCalls (.map ps :: vs) =
      .addMap 0 :: (signedCalls (unpair ps) ++ .containerClose :: signedCalls vs) := by
  rw [signedCalls_cons, Value.signed, calls, pairCalls_eq, Value.unpair_signedPairs,
    elementCalls_const, List.map_map, List.cons_append, List.append_assoc]
  rfl

/-- What may follow a format: nothing, or the bracket that closes the container around it. -/
def Closes (tail : List Char) : Prop := tail = [] ∨ tail.head? ∈ [some ']', some '}']

theorem Closes.not_null {tail : List Char} (htail : Closes tail) {c : Char} {f : List Char}
    (hnull : ¬['N', 'I', 'L'] <+: c :: f) : ¬['N', 'I', 'L'] <+: c :: (f ++ tail) := by
  have hfirst : ∀ rest, tail ≠ 'I' :: rest ∧ tail ≠ 'L' :: rest := by
    intro rest
    constructor <;> rintro rfl <;> rcases htail with htail | htail <;> simp at htail
  intro hprefix
  rw [List.cons_prefix_cons] at hnull hprefix
  obtain ⟨rfl, rest, hrest⟩ := hprefix
  cases f with
  | nil => exact (hfirst _).1 hrest.symm
  | cons second f =>
      cases f with
      | nil => exact (hfirst _).2 (List.cons.inj hrest).2.symm
      | cons third f =>
          simp only [List.cons_append, List.nil_append, List.cons.injEq] at hrest
          obtain ⟨rfl, rfl, -⟩ := hrest
          exact hnull ⟨rfl, f, rfl⟩

theorem Formats.scans {f : List Char} {vl : List FormatArg} {vs : List Value}
    (h : Formats toFloat f vl vs) {tail : List Char} (htail : Closes tail)
    (more : List FormatArg) :
    Scans toFloat (f ++ tail) (vl ++ more) (signedCalls vs) tail more := by
  have hbracket : ∀ (c : Char) (rest : List Char), c ∈ [']', '}'] → Closes (c :: rest) :=
    fun c rest hc => .inr (by simpa using hc)
  induction h generalizing tail more with
  | done => exact .refl _ _
  | null h ih =>
      exact (@Scans.turn toFloat 'N' _ _ _ _ (some .addNil) rfl (by simp; omega)).trans
        (ih htail more)
  | other hc hnull h ih =>
      exact (Scans.turn (formatTurn_other hc (htail.not_null hnull) _) le_rfl).trans
        (ih htail more)
  | percent h ih =>
      exact (@Scans.turn toFloat '%' _ _ _ _ none rfl (by simp)).trans (ih htail more)
  | @specifier spec f args vl v vs hspec h ih =>
      obtain ⟨call, hcalls, hturn⟩ := hspec.formatSpecifier_eq (f ++ tail) (vl ++ more)
      rw [signedCalls_cons, hcalls, List.cons_append, List.append_assoc, List.append_assoc]
      exact (@Scans.turn toFloat '%' _ _ _ _ (some call) hturn (by simp)).trans (ih htail more)
  | @array inner f args vl xs vs hinner h ihinner ih =>
      rw [signedCalls_array, List.cons_append, List.append_assoc, List.append_assoc]
      have hopen := @Scans.turn toFloat '[' _ (inner ++ ']' :: (f ++ tail)) (args ++ (vl ++ more)) _
        (some (.addArray 0)) rfl le_rfl
      have hfill := ihinner (hbracket ']' (f ++ tail) (by simp)) (vl ++ more)
      have hclose := @Scans.turn toFloat ']' _ (f ++ tail) (vl ++ more) _ (some .containerClose)
        rfl le_rfl
      exact hopen.trans (hfill.trans (hclose.trans (ih htail more)))
  | @map inner f args vl ps vs hinner h ihinner ih =>
      rw [signedCalls_map, List.cons_append, List.append_assoc, List.append_assoc]
      have hopen := @Scans.turn toFloat '{' _ (inner ++ '}' :: (f ++ tail)) (args ++ (vl ++ more)) _
        (some (.addMap 0)) rfl le_rfl
      have hfill := ihinner (hbracket '}' (f ++ tail) (by simp)) (vl ++ more)
      have hclose := @Scans.turn toFloat '}' _ (f ++ tail) (vl ++ more) _ (some .containerClose)
        rfl le_rfl
      exact hopen.trans (hfill.trans (hclose.trans (ih htail more)))

theorem Formats.formatCalls_eq {f : List Char} {vl : List FormatArg} {vs : List Value}
    (h : Formats toFloat f vl vs) (more : List FormatArg) :
    formatCalls toFloat f.length f (vl ++ more) = .ok (signedCalls vs) := by
  obtain ⟨left, -, heq⟩ := h.scans (.inl rfl) more f.length (by rw [List.append_nil])
  have hdone : formatCalls toFloat left [] more = .ok [] := by cases left <;> rfl
  rw [hdone, List.append_nil] at heq
  rw [heq]
  exact congrArg Except.ok (List.append_nil _)

end Scanning

section Outcomes

variable {mp : Msgpuck} {o o' : Object} {rv : Int}

theorem resize_room {more : Nat} (h : o.resize more = .ok o') : o.size + more ≤ o'.alloc := by
  unfold Object.resize at h
  split at h
  · split at h
    · cases h
    · cases h
      simp only [Object.alloc, Option.getD_some, List.length_append, List.length_replicate]
      omega
  · cases h
    omega

theorem store_room {offset : Nat} {bytes : Bytes} (h : o.store offset bytes = .ok o') :
    o'.alloc = o.alloc ∧ offset + bytes.length ≤ o.alloc := by
  obtain ⟨mem, mem', hdata, hpoke, rfl⟩ := store_ok h
  have hlength := poke_length hpoke
  unfold poke at hpoke
  split at hpoke
  · simp only [Object.alloc, hdata, Option.getD_some]
    exact ⟨hlength, ‹_›⟩
  · cases hpoke

theorem memmove_room {target source count : Nat} (h : o.memmove target source count = .ok o') :
    o'.alloc = o.alloc := by
  unfold Object.memmove at h
  split at h
  · cases h
  · rename_i mem hdata
    split at h
    · cases h
    · rename_i mem' hmove
      cases h
      unfold move at hmove
      split at hmove
      · simp only [Object.alloc, hdata, Option.getD_some]
        exact poke_length hmove
      · cases hmove

/-- The object may be written to, and its bytes are within its block. -/
def Object.Stored (o : Object) : Prop := o.as = false ∧ o.size ≤ o.alloc

/-- A call keeps the owner of the block, and the bytes within it. -/
structure Object.KeepsBlock (o o' : Object) : Prop where
  as_eq : o'.as = o.as
  size_le : o.size ≤ o.alloc → o'.size ≤ o'.alloc

namespace Object.KeepsBlock

theorem refl (o : Object) : o.KeepsBlock o := ⟨rfl, id⟩

theorem trans {o'' : Object} (h : o.KeepsBlock o') (h' : o'.KeepsBlock o'') : o.KeepsBlock o'' :=
  ⟨h'.as_eq.trans h.as_eq, fun hsize => h'.size_le (h.size_le hsize)⟩

theorem stored (h : o.KeepsBlock o') (hstored : o.Stored) : o'.Stored :=
  ⟨h.as_eq.trans hstored.1, h.size_le hstored.2⟩

theorem countChild (o : Object) : o.KeepsBlock o.countChild := by
  unfold Object.countChild
  split <;> exact ⟨rfl, id⟩

theorem resize {more : Nat} (h : o.resize more = .ok o') : o.KeepsBlock o' := by
  have hroom := resize_room h
  rw [resize_ok h] at hroom ⊢
  exact ⟨rfl, fun _ => Nat.le_of_add_right_le hroom⟩

end Object.KeepsBlock

theorem write_outcome {buf : Bytes} (h : o.write buf = .ok (rv, o')) :
    (rv = -1 ∨ 0 ≤ rv) ∧ o.KeepsBlock o' := by
  unfold Object.write at h
  split at h
  · cases h
    exact ⟨.inl rfl, .refl o⟩
  obtain ⟨o₁, hresize, h⟩ := bind_eq_ok.mp h
  split at h
  · cases h
    exact ⟨.inl rfl, .resize hresize⟩
  obtain ⟨o₂, hstore, h⟩ := bind_eq_ok.mp h
  obtain ⟨hrv, rfl⟩ := Prod.mk.inj (Except.ok.inj h)
  have hrv : ((buf.length : Nat) : Int) = rv := hrv
  obtain ⟨halloc, hroom⟩ := store_room hstore
  obtain ⟨mem, mem', -, -, rfl⟩ := store_ok hstore
  have has := congrArg Object.as (resize_ok hresize)
  exact ⟨.inr (by omega), has, fun _ => hroom.trans_eq halloc.symm⟩

theorem addContainer_outcome {kind : Kind} {header : SboType → Bytes}
    (h : o.addContainer kind header = .ok (rv, o')) :
    (rv = -1 ∨ 0 ≤ rv) ∧ o.KeepsBlock o' := by
  have hcount := Object.KeepsBlock.countChild o
  unfold Object.addContainer at h
  dsimp only at h
  split at h
  · cases h
    exact ⟨.inl rfl, hcount⟩
  rename_i grown hroom
  have hpushed : o.KeepsBlock { grown with stack := ⟨grown.size, 0, kind⟩ :: grown.stack } := by
    split at hroom
    · unfold Object.growStack at hroom
      split at hroom
      · cases hroom
      · cases hroom
        exact ⟨hcount.as_eq, hcount.size_le⟩
    · cases hroom
      exact ⟨hcount.as_eq, hcount.size_le⟩
  exact (write_outcome h).imp_right hpushed.trans

theorem containerClose_outcome (h : o.containerClose mp = .ok (rv, o')) :
    (rv = -1 ∨ 0 ≤ rv) ∧ o.KeepsBlock o' := by
  unfold Object.containerClose at h
  split at h
  · cases h
    exact ⟨.inl rfl, .refl o⟩
  rename_i offset size kind rest hstack
  split at h
  · cases h
    exact ⟨.inl rfl, .refl o⟩
  dsimp only at h
  generalize (if kind = .map then mp.mpSizeofMap (size / 2) else mp.mpSizeofArray size) = sz at h
  split at h
  · obtain ⟨rfl, rfl⟩ := Prod.mk.inj (Except.ok.inj h)
    exact ⟨.inr le_rfl, rfl, id⟩
  · obtain ⟨o₁, hstore, h⟩ := bind_eq_ok.mp h
    obtain ⟨rfl, rfl⟩ := Prod.mk.inj (Except.ok.inj h)
    obtain ⟨halloc, -⟩ := store_room hstore
    obtain ⟨mem, mem', -, -, rfl⟩ := store_ok hstore
    exact ⟨.inr le_rfl, rfl, fun hsize => hsize.trans_eq halloc.symm⟩
  split at h
  · obtain ⟨o₁, hresize, h⟩ := bind_eq_ok.mp h
    have hroom := resize_room hresize
    have has := congrArg Object.as (resize_ok hresize)
    have hsize := congrArg Object.size (resize_ok hresize)
    split at h
    · cases h
    obtain ⟨o₂, hmove, h⟩ := bind_eq_ok.mp h
    obtain ⟨o₃, hstore, h⟩ := bind_eq_ok.mp h
    obtain ⟨rfl, rfl⟩ := Prod.mk.inj (Except.ok.inj h)
    have hmoved := memmove_room hmove
    have has₂ := congrArg Object.as (memmove_ok hmove)
    have hsize₂ := congrArg Object.size (memmove_ok hmove)
    obtain ⟨halloc, -⟩ := store_room hstore
    obtain ⟨mem, mem', -, -, rfl⟩ := store_ok hstore
    refine ⟨.inr le_rfl, has₂.trans has, fun _ => ?_⟩
    show o₂.size + (sz - 1) ≤ Object.alloc { o₂ with data := some mem' }
    rw [halloc, hmoved, hsize₂, hsize]
    exact hroom
  · obtain ⟨o₁, hpure, h⟩ := bind_eq_ok.mp h
    cases hpure
    obtain ⟨o₂, hstore, h⟩ := bind_eq_ok.mp h
    obtain ⟨rfl, rfl⟩ := Prod.mk.inj (Except.ok.inj h)
    obtain ⟨halloc, -⟩ := store_room hstore
    obtain ⟨mem, mem', -, -, rfl⟩ := store_ok hstore
    refine ⟨.inr le_rfl, rfl, fun hsize => ?_⟩
    show o.size + (sz - 1) ≤ Object.alloc { o with stack := rest, data := some mem' }
    have hle : o.size ≤ Object.alloc { o with stack := rest } := hsize
    rw [halloc]
    omega

theorem ObjectCall.run_outcome {call : ObjectCall} (h : call.run mp o = .ok (rv, o')) :
    (rv = -1 ∨ 0 ≤ rv) ∧ o.KeepsBlock o' := by
  have hvalue : ∀ buf, o.countChild.write buf = .ok (rv, o') →
      (rv = -1 ∨ 0 ≤ rv) ∧ o.KeepsBlock o' := fun buf h =>
    (write_outcome h).imp_right (Object.KeepsBlock.countChild o).trans
  cases call with
  | containerClose => exact containerClose_outcome h
  | addArray size => exact addContainer_outcome h
  | addMap size => exact addContainer_outcome h
  | _ => exact hvalue _ h

theorem Object.Stored.perform {calls : List ObjectCall} (hstored : o.Stored)
    (h : Object.perform mp calls o = some o') : o'.Stored := by
  induction calls generalizing o with
  | nil =>
      cases h
      exact hstored
  | cons call calls ih =>
      obtain ⟨rv, next, hrun, hrv, hrest⟩ := perform_cons_eq_some h
      exact ih ((ObjectCall.run_outcome hrun).2.stored hstored) hrest

theorem performSum_iff {calls : List ObjectCall} {result : Int} (hresult : 0 ≤ result) :
    (∃ rv : Int, performSum mp calls result o = .ok (rv, o') ∧ rv ≠ -1) ↔
      Object.perform mp calls o = some o' := by
  induction calls generalizing result o with
  | nil =>
      constructor
      · rintro ⟨rv, h, -⟩
        cases h
        rfl
      · intro h
        cases h
        exact ⟨result, rfl, by omega⟩
  | cons call calls ih =>
      rw [performSum, Object.perform]
      cases hrun : call.run mp o with
      | error reason =>
          constructor
          · rintro ⟨rv, h, -⟩
            cases h
          · intro h
            cases h
      | ok outcome =>
          obtain ⟨rv, next⟩ := outcome
          have houtcome := @ObjectCall.run_outcome mp o next rv call hrun
          by_cases hrv : rv = -1
          · subst hrv
            constructor
            · rintro ⟨rv, h, hne⟩
              exact absurd (Prod.mk.inj (Except.ok.inj h)).1.symm hne
            · intro h
              cases h
          · have hpos := houtcome.1.resolve_left hrv
            simp only [ok_bind, if_neg hrv]
            exact ih (Int.add_nonneg hresult hpos)

end Outcomes

/-- Nothing has been written to the object, and it may be. -/
structure Object.Blank (s : Object) : Prop where
  as_eq : s.as = false
  wrcnt_eq : s.wrcnt = 0
  size_eq : s.size = 0
  stack_eq : s.stack = []
  room : 0 < s.stackAlloc

/-- The call succeeds, and leaves the canonical encoding of the values, one behind the other. -/
def FormatsExactly (mp : Msgpuck) (toFloat : UInt64 → UInt32) (s : Object) (fmt : List Char)
    (vl : List FormatArg) (vs : List Value) : Prop :=
  ∃ (rv : Int) (s' : Object), beerObjectVformat mp toFloat s fmt vl = .ok (rv, s') ∧ rv ≠ -1 ∧
    s'.contents = (vs.map (encodeFor .packed)).flatten

/-- There is room on the stack for the nesting of the values, every unsigned number fits in a signed
variable, and no map has `2 ^ 31` pairs or more. -/
def WithinLimits (s : Object) (vs : List Value) : Prop :=
  Value.nestingOfElements vs ≤ s.stackAlloc ∧
    ∀ v ∈ vs, v.FitsSigned ∧ v.CountsBelow (2 ^ 32) (2 ^ 31)

section Encoding

variable {mp : Msgpuck} (hmp : mp.Lawful) {toFloat : UInt64 → UInt32} {s s' : Object}

theorem vformat_blank (hblank : s.Blank) {f : List Char} {vl : List FormatArg} {vs : List Value}
    (hformat : Formats toFloat f vl vs) (more : List FormatArg) :
    (∃ rv : Int, beerObjectVformat mp toFloat s f (vl ++ more) = .ok (rv, s') ∧ rv ≠ -1) ↔
      Object.perform mp (signedCalls vs) { s with type := .packed } = some s' := by
  have hvformat := @Format.vformat_eq toFloat
    ⟨f, vl ++ more, signedCalls vs, hformat.formatCalls_eq more⟩ mp s hblank.wrcnt_eq
  rw [hvformat]
  exact performSum_iff (Int.le_refl 0)

include hmp

theorem perform_signedCalls {vs : List Value}
    (hcounts : ∀ v ∈ vs, v.CountsBelow (2 ^ 32) (2 ^ 32)) (htype : s.type = .packed)
    (hstored : s.Stored) (hempty : s.stack = [])
    (hnesting : Value.nestingOfElements vs ≤ s.stackAlloc) :
    ∃ s', Object.perform mp (signedCalls vs) s = some s' ∧
      s'.contents = s.contents ++ (vs.map fun v => encodeCounted .packed v.signed).flatten := by
  have hcalls : signedCalls vs = elementCalls (fun _ => 0) 0 (vs.map Value.signed) := by
    rw [elementCalls_const, List.map_map]
    rfl
  have hsigned : ∀ x ∈ vs.map Value.signed, x.CountsBelow (2 ^ 32) (2 ^ 32) := by
    intro x hx
    obtain ⟨v, hv, rfl⟩ := List.mem_map.mp hx
    exact (hcounts v hv).signed
  have hroom : Value.nestingOfElements (vs.map Value.signed) ≤ s.stackAlloc := by
    rw [Value.nestingOfElements_signed fun v _ => v.nesting_signed]
    exact hnesting
  have hbuilds := @builds_elements mp .packed s.stackAlloc (encodeCounted .packed) _
    (fun x hx hint bytes stack => builds_calls hmp (by decide) x (hsigned x hx) hint bytes stack)
    (fun _ => 0) 0 s.contents [] (by rw [List.length_nil, Nat.zero_add]; exact hroom)
  have hsize : s.contents.length = s.size := by
    rw [Object.contents, List.length_take]
    exact Nat.min_eq_left hstored.2
  obtain ⟨s', hperform, hs'⟩ := hbuilds s ⟨rfl, hsize.symm, hstored.1, hempty, htype, rfl⟩
  refine ⟨s', hcalls ▸ hperform, ?_⟩
  rw [hs'.contents_eq, List.map_map]
  rfl

/-- If the first value needs a deeper stack, the object does not hold its encoding in the end. -/
theorem perform_signedCalls_deep {v : Value} {vs : List Value}
    (hcounts : ∀ x ∈ v :: vs, x.CountsBelow (2 ^ 32) (2 ^ 32)) (hblank : s.Blank)
    (hdeep : s.stackAlloc < v.nesting) (hnesting : Value.nestingOfElements vs ≤ s.stackAlloc)
    (h : Object.perform mp (signedCalls (v :: vs)) { s with type := .packed } = some s') :
    s'.contents ≠ ((v :: vs).map (encodeFor .packed)).flatten := by
  rw [List.forall_mem_cons] at hcounts
  have hmode : Object.type { s with type := .packed } ≠ .simple := SboType.noConfusion
  have hstored : Object.Stored { s with type := .packed } :=
    ⟨hblank.as_eq, hblank.size_eq.trans_le (Nat.zero_le _)⟩
  rw [signedCalls_cons, perform_append, Option.bind_eq_some_iff] at h
  obtain ⟨o, hfirst, hrest⟩ := h
  have hemitted := @emitted_calls mp hmp v.signed _ { s with type := .packed } o hblank.room
    ((congrArg List.length hblank.stack_eq).trans_le (Nat.zero_le _)) hmode hfirst
  have hempty : o.stack = [] := by
    have hstack := hblank.stack_eq
    rcases hemitted.stack with ⟨-, hs⟩ | ⟨-, hs⟩ <;> rw [hs] <;> dsimp only <;> rw [hstack] <;> rfl
  obtain ⟨s'', hperform, hcontents⟩ := perform_signedCalls hmp hcounts.2 hemitted.type_eq
    (hstored.perform hfirst) hempty (hnesting.trans hemitted.stackAlloc_le)
  rw [hrest] at hperform
  cases hperform
  obtain ⟨hd, hhead⟩ := Value.exists_containerHead (Nat.zero_lt_of_lt hdeep)
  have hne := head_ne_of_grown hmp hmode hblank.stack_eq hblank.size_eq hblank.room _
    (by rw [Value.nesting_signed]; exact hdeep) hfirst
    (vs.map fun v => encodeCounted .packed v.signed).flatten
  intro hexact
  rw [← hcontents, hexact, List.map_cons, List.flatten_cons,
    SboType.head_container .packed hcounts.1 hhead, Value.containerHead_signed, hhead] at hne
  exact hne rfl

omit hmp in
theorem encodeCounted_signed_iff {vs : List Value}
    (hcounts : ∀ v ∈ vs, v.CountsBelow (2 ^ 32) (2 ^ 32)) :
    (vs.map fun v => encodeCounted .packed v.signed).flatten =
        (vs.map (encodeFor .packed)).flatten ↔
      ∀ v ∈ vs, v.FitsSigned ∧ v.CountsBelow (2 ^ 32) (2 ^ 31) := by
  constructor
  · intro heq
    refine (Value.forall_of_flatten_eq (fun v hv t t' heq => ?_)
      (congrArg (· ++ ([] : Bytes)) heq)).1
    exact Value.fitsSigned_of_encodeWith_eq
      (fun n hn t t' => SboType.mapHeader_counted .packed hn) v (hcounts v hv) heq
  · intro h
    refine congrArg List.flatten (List.map_congr_left fun v hv => ?_)
    obtain ⟨hfits, hsmall⟩ := h v hv
    rw [(encodeCounted_eq_iff .packed (hcounts v hv).signed).mpr hsmall.signed, encodeFor,
      Value.encodeWith_signed _ _ hfits]
    rfl

/-- The values that a format describes are encoded exactly within these limits, and not outside of
them as long as no value but the first may need a deeper stack. -/
theorem formatsExactly_iff {f : List Char} {vl : List FormatArg} {vs : List Value}
    (hformat : Formats toFloat f vl vs) (hcounts : ∀ v ∈ vs, v.CountsBelow (2 ^ 32) (2 ^ 32))
    (hblank : s.Blank) (more : List FormatArg) :
    (WithinLimits s vs → FormatsExactly mp toFloat s f (vl ++ more) vs) ∧
      (Value.nestingOfElements vs.tail ≤ s.stackAlloc →
        (FormatsExactly mp toFloat s f (vl ++ more) vs ↔ WithinLimits s vs)) := by
  have hstored : Object.Stored { s with type := .packed } :=
    ⟨hblank.as_eq, hblank.size_eq.trans_le (Nat.zero_le _)⟩
  have hnone : Object.contents { s with type := .packed } = [] := by
    rw [Object.contents, hblank.size_eq, List.take_zero]
  have hwithin : WithinLimits s vs → FormatsExactly mp toFloat s f (vl ++ more) vs := by
    rintro ⟨hnesting, hvalues⟩
    obtain ⟨s', hperform, hcontents⟩ := @perform_signedCalls _ hmp { s with type := .packed } _
      hcounts rfl hstored hblank.stack_eq hnesting
    obtain ⟨rv, hvformat, hrv⟩ := (vformat_blank hblank hformat more).mpr hperform
    rw [hnone, List.nil_append, (encodeCounted_signed_iff hcounts).mpr hvalues] at hcontents
    exact ⟨rv, s', hvformat, hrv, hcontents⟩
  refine ⟨hwithin, fun htail => ⟨?_, hwithin⟩⟩
  rintro ⟨rv, s', hvformat, hrv, hexact⟩
  have hperform := (vformat_blank hblank hformat more).mp ⟨rv, hvformat, hrv⟩
  have hnesting : Value.nestingOfElements vs ≤ s.stackAlloc := by
    cases vs with
    | nil => exact Nat.zero_le _
    | cons v vs =>
        by_contra hdeep
        have hmax : Value.nestingOfElements (v :: vs) =
            max v.nesting (Value.nestingOfElements vs) := rfl
        rw [List.tail_cons] at htail
        exact perform_signedCalls_deep hmp hcounts hblank (by omega) htail hperform hexact
  obtain ⟨s'', hperform', hcontents⟩ := @perform_signedCalls _ hmp { s with type := .packed } _
    hcounts rfl hstored hblank.stack_eq hnesting
  rw [hperform] at hperform'
  cases hperform'
  rw [hnone, List.nil_append, hexact] at hcontents
  exact ⟨hnesting, (encodeCounted_signed_iff hcounts).mp hcontents.symm⟩

end Encoding

theorem formatsExactly_iff_map :
    FormatsExactly .reference (fun _ => 0) beerObject
      ['[', '%', 'd', ' ', '{', '%', 'u', '%', 's', '}', ']']
      [.int 42, .unsigned 1, .str ⟨[0x61], by decide⟩]
      [.array [.int 42, .map [(.uint 1, .str ⟨[0x61], by decide⟩)]]] := by
  have hspec : Specifies (fun _ => 0) ['u'] [.unsigned 1] (.uint 1) :=
    .unsigned (by decide) rfl
  have hpair : Formats (fun _ => 0) ['%', 'u', '%', 's'] [.unsigned 1, .str ⟨[0x61], by decide⟩]
      (unpair [(.uint 1, .str ⟨[0x61], by decide⟩)]) :=
    .specifier hspec (.specifier (.str _) .done)
  have hmap : Formats (fun _ => 0) ['{', '%', 'u', '%', 's', '}']
      [.unsigned 1, .str ⟨[0x61], by decide⟩] [.map [(.uint 1, .str ⟨[0x61], by decide⟩)]] :=
    .map hpair .done
  have hnumber : Specifies (fun _ => 0) ['d'] [.int 42] (.int 42) := .int (by decide) rfl
  have harray : Formats (fun _ => 0) ['[', '%', 'd', ' ', '{', '%', 'u', '%', 's', '}', ']']
      [.int 42, .unsigned 1, .str ⟨[0x61], by decide⟩]
      [.array [.int 42, .map [(.uint 1, .str ⟨[0x61], by decide⟩)]]] :=
    .array (.specifier hnumber (.other (by decide) (by decide) hmap)) .done
  have hblank : beerObject.Blank := ⟨rfl, rfl, rfl, rfl, by decide⟩
  refine (formatsExactly_iff Msgpuck.reference_lawful harray ?_ hblank []).1 ⟨by decide, ?_⟩
  · simp [Value.CountsBelow, Value.ElementCountsBelow, Value.PairCountsBelow]
  · simp [Value.FitsSigned, Value.ElementsFitSigned, Value.PairsFitSigned, Value.CountsBelow,
      Value.ElementCountsBelow, Value.PairCountsBelow]

/-- From `"%llu"`, the number `2 ^ 63` becomes a negative one. -/
theorem not_formatsExactly :
    Formats (fun _ => 0) ['%', 'l', 'l', 'u'] [.unsignedLong 0x8000000000000000]
        [.uint 0x8000000000000000] ∧
      beerObject.Blank ∧
      ¬FormatsExactly .reference (fun _ => 0) beerObject ['%', 'l', 'l', 'u']
        [.unsignedLong 0x8000000000000000] [.uint 0x8000000000000000] := by
  have hspec : Specifies (fun _ => 0) ['l', 'l', 'u'] [.unsignedLong 0x8000000000000000]
      (.uint 0x8000000000000000) := .unsignedLong (by decide) rfl
  refine ⟨.specifier hspec .done, ⟨rfl, rfl, rfl, rfl, by decide⟩, ?_⟩
  rintro ⟨rv, s', hvformat, -, hexact⟩
  have hbytes : (beerObjectVformat .reference (fun _ => 0) beerObject ['%', 'l', 'l', 'u']
      [.unsignedLong 0x8000000000000000]).map (fun result => result.2.contents) =
        .ok [0xd3, 0x80, 0, 0, 0, 0, 0, 0, 0] := by rfl
  rw [hvformat] at hbytes
  have hcontents : s'.contents = [0xd3, 0x80, 0, 0, 0, 0, 0, 0, 0] := Except.ok.inj hbytes
  rw [hexact] at hcontents
  exact absurd hcontents (by decide)

end BeeC
