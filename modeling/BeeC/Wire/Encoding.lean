import BeeC.Wire.MessagePack

namespace BeeC.Wire.Encoding

open BeeC.Wire.BigEndian
open BeeC.Wire.MessagePack

def encodeNil : Bytes := [0xc0]

def encodeBool (value : Bool) : Bytes := [if value then 0xc3 else 0xc2]

def encodeUint (n : Nat) : Bytes :=
  if n < 0x80 then [UInt8.ofNat n]
  else if n < 0x100 then 0xcc :: store 1 n
  else if n < 0x10000 then 0xcd :: store 2 n
  else if n < 0x100000000 then 0xce :: store 4 n
  else 0xcf :: store 8 n

/-- A negative number. The bytes hold it modulo the width, as two's complement does. -/
def encodeInt (z : Int) : Bytes :=
  if -0x20 ≤ z then [UInt8.ofNat (z + 0x100).toNat]
  else if -0x80 ≤ z then 0xd0 :: store 1 (z + 0x100).toNat
  else if -0x8000 ≤ z then 0xd1 :: store 2 (z + 0x10000).toNat
  else if -0x80000000 ≤ z then 0xd2 :: store 4 (z + 0x100000000).toNat
  else 0xd3 :: store 8 (z + 0x10000000000000000).toNat

def encodeFloat (bits : Nat) : Bytes := 0xca :: store 4 bits

def encodeDouble (bits : Nat) : Bytes := 0xcb :: store 8 bits

def strHeader (length : Nat) : Bytes :=
  if length < 0x20 then [UInt8.ofNat (0xa0 + length)]
  else if length < 0x100 then 0xd9 :: store 1 length
  else if length < 0x10000 then 0xda :: store 2 length
  else 0xdb :: store 4 length

def binHeader (length : Nat) : Bytes :=
  if length < 0x100 then 0xc4 :: store 1 length
  else if length < 0x10000 then 0xc5 :: store 2 length
  else 0xc6 :: store 4 length

def arrayHeader (count : Nat) : Bytes :=
  if count < 0x10 then [UInt8.ofNat (0x90 + count)]
  else if count < 0x10000 then 0xdc :: store 2 count
  else 0xdd :: store 4 count

def mapHeader (count : Nat) : Bytes :=
  if count < 0x10 then [UInt8.ofNat (0x80 + count)]
  else if count < 0x10000 then 0xde :: store 2 count
  else 0xdf :: store 4 count

/-- The array header that always takes five bytes. -/
def arrayHeader32 (count : Nat) : Bytes := 0xdd :: store 4 count

/-- The map header that always takes five bytes. -/
def mapHeader32 (count : Nat) : Bytes := 0xdf :: store 4 count

theorem head_store (mk : Nat → Head) {first : UInt8} {width n : Nat}
    (hlayout : layout first.toNat = some (width, mk)) (hn : n < 256 ^ width) :
    head (first :: store width n) = some (mk n, []) := by
  have htake : (store width n).take width = store width n :=
    List.take_of_length_le (store_length width n).le
  simp [head, hlayout, htake, load_store_of_lt hn]

theorem layout_fixstr {length : Nat} (h : length < 0x20) :
    layout (0xa0 + length) = some (0, fun _ => .str length) := by
  unfold layout
  rw [if_neg (by omega), if_neg (by omega), if_neg (by omega), if_pos (by omega),
    Nat.add_sub_cancel_left]

theorem layout_fixarray {count : Nat} (h : count < 0x10) :
    layout (0x90 + count) = some (0, fun _ => .array count) := by
  unfold layout
  rw [if_neg (by omega), if_neg (by omega), if_pos (by omega), Nat.add_sub_cancel_left]

theorem layout_fixmap {count : Nat} (h : count < 0x10) :
    layout (0x80 + count) = some (0, fun _ => .map count) := by
  unfold layout
  rw [if_neg (by omega), if_pos (by omega), Nat.add_sub_cancel_left]

theorem head_short {n : Nat} {hd : Head} (hn : n < 256)
    (hlayout : layout n = some (0, fun _ => hd)) :
    head [UInt8.ofNat n] = some (hd, []) := by
  have hbyte : (UInt8.ofNat n).toNat = n := by
    rw [UInt8.toNat_ofNat', Nat.mod_eq_of_lt hn]
  simp [head, hbyte, hlayout]

theorem head_encodeUint {n : Nat} (hn : n < 2 ^ 64) :
    head (encodeUint n) = some (.uint n, []) := by
  unfold encodeUint
  split
  · apply head_short (by omega)
    simp [layout, *]
  split
  · exact head_store .uint rfl (by omega)
  split
  · exact head_store .uint rfl (by omega)
  split
  · exact head_store .uint rfl (by omega)
  · exact head_store .uint rfl (by omega)

theorem head_strHeader {length : Nat} (h : length < 2 ^ 32) :
    head (strHeader length) = some (.str length, []) := by
  unfold strHeader
  split
  · exact head_short (by omega) (layout_fixstr ‹_›)
  split
  · exact head_store .str rfl (by omega)
  split
  · exact head_store .str rfl (by omega)
  · exact head_store .str rfl (by omega)

theorem head_binHeader {length : Nat} (h : length < 2 ^ 32) :
    head (binHeader length) = some (.bin length, []) := by
  unfold binHeader
  split
  · exact head_store .bin rfl (by omega)
  split
  · exact head_store .bin rfl (by omega)
  · exact head_store .bin rfl (by omega)

theorem bmod_toNat_add {z : Int} {modulus : Nat} (hlow : -(modulus : Int) ≤ 2 * z) (hneg : z < 0) :
    Int.bmod ((z + modulus).toNat : Int) modulus = z := by
  rw [Int.toNat_of_nonneg (by omega), Int.add_bmod_right]
  exact Int.bmod_eq_of_le (by omega) (by omega)

theorem layout_negative {first : Nat} (h : 0xe0 ≤ first) :
    layout first = some (0, fun _ => .int (Int.bmod first 256)) := by
  unfold layout
  rw [if_neg (by omega), if_neg (by omega), if_neg (by omega), if_neg (by omega),
    if_neg (by omega)]

theorem head_storeInt {z : Int} {first : UInt8} {width modulus : Nat}
    (hlayout : layout first.toNat = some (width, fun n => .int (Int.bmod n modulus)))
    (hmodulus : 256 ^ width = modulus) (hlow : -(modulus : Int) ≤ 2 * z) (hneg : z < 0) :
    head (first :: store width (z + modulus).toNat) = some (.int z, []) := by
  rw [head_store _ hlayout (by omega), bmod_toNat_add hlow hneg]

theorem head_encodeInt {z : Int} (hlow : -(2 ^ 63) ≤ z) (hneg : z < 0) :
    head (encodeInt z) = some (.int z, []) := by
  unfold encodeInt
  split
  · rw [head_short (by omega) (layout_negative (by omega))]
    have hbmod := @bmod_toNat_add z 256 (by omega) hneg
    simpa using hbmod
  split
  · exact @head_storeInt z 0xd0 1 0x100 rfl rfl (by omega) hneg
  split
  · exact @head_storeInt z 0xd1 2 0x10000 rfl rfl (by omega) hneg
  split
  · exact @head_storeInt z 0xd2 4 0x100000000 rfl rfl (by omega) hneg
  · exact @head_storeInt z 0xd3 8 0x10000000000000000 rfl rfl (by omega) hneg

theorem head_arrayHeader {count : Nat} (h : count < 2 ^ 32) :
    head (arrayHeader count) = some (.array count, []) := by
  unfold arrayHeader
  split
  · exact head_short (by omega) (layout_fixarray ‹_›)
  split
  · exact head_store .array rfl (by omega)
  · exact head_store .array rfl (by omega)

theorem head_mapHeader {count : Nat} (h : count < 2 ^ 32) :
    head (mapHeader count) = some (.map count, []) := by
  unfold mapHeader
  split
  · exact head_short (by omega) (layout_fixmap ‹_›)
  split
  · exact head_store .map rfl (by omega)
  · exact head_store .map rfl (by omega)

theorem head_arrayHeader32 {count : Nat} (h : count < 2 ^ 32) :
    head (arrayHeader32 count) = some (.array count, []) :=
  head_store .array rfl h

theorem head_mapHeader32 {count : Nat} (h : count < 2 ^ 32) :
    head (mapHeader32 count) = some (.map count, []) :=
  head_store .map rfl h

theorem isValue_encodeUint {n : Nat} (hn : n < 2 ^ 64) : IsValue (encodeUint n) :=
  .of_item (by simp [item, head_encodeUint hn, Head.payload, Head.children])

theorem isValue_str {text : Bytes} (h : text.length < 2 ^ 32) :
    IsValue (strHeader text.length ++ text) :=
  .of_item (by
    simp [item, head_append (head_strHeader h), Head.payload, Head.children])

theorem isValue_bin {data : Bytes} (h : data.length < 2 ^ 32) :
    IsValue (binHeader data.length ++ data) :=
  .of_item (by
    simp [item, head_append (head_binHeader h), Head.payload, Head.children])

theorem isValue_encodeInt {z : Int} (hlow : -(2 ^ 63) ≤ z) (hneg : z < 0) :
    IsValue (encodeInt z) :=
  .of_item (by simp [item, head_encodeInt hlow hneg, Head.payload, Head.children])

theorem isValue_container {hdr : Bytes} {hd : Head} (hhead : head hdr = some (hd, []))
    (hpayload : hd.payload = 0) {xs : List Bytes} (hcount : xs.length = hd.children)
    (hxs : ∀ x ∈ xs, IsValue x) : IsValue (hdr ++ xs.flatten) := by
  have hitem : item (hdr ++ xs.flatten) = some (hd.children, xs.flatten) := by
    simp [item, head_append hhead, hpayload]
  rw [IsValue, skip_succ, hitem, Option.bind_some, Nat.zero_add, ← hcount]
  simpa using skip_flatten hxs []

theorem encodeUint_length_le (n : Nat) : (encodeUint n).length ≤ 9 := by
  unfold encodeUint
  repeat' split
  all_goals simp

theorem encodeUint_length_pos (n : Nat) : 0 < (encodeUint n).length := by
  unfold encodeUint
  repeat' split
  all_goals simp

theorem encodeInt_length_pos (z : Int) : 0 < (encodeInt z).length := by
  unfold encodeInt
  repeat' split
  all_goals simp

theorem encodeUint_length_le_five {n : Nat} (hn : n < 2 ^ 32) : (encodeUint n).length ≤ 5 := by
  unfold encodeUint
  repeat' split
  all_goals simp only [List.length_cons, List.length_nil, store_length]
  all_goals omega

theorem strHeader_length_le (length : Nat) : (strHeader length).length ≤ 5 := by
  unfold strHeader
  repeat' split
  all_goals simp

end BeeC.Wire.Encoding
