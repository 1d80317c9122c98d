import BeeC.Auth
import BeeC.TpReserve

namespace BeeC

open BeeC.Wire
open BeeC.Wire.BigEndian
open BeeC.Wire.Encoding
open BeeC.Wire.Loop
open BeeC.Wire.MessagePack

/-- What a call returns that has added to the buffer. Beside the pointer stand two numbers that the
program does not keep: the size it has reserved and accepted, and the address its encoders have
stopped at. -/
structure TpAdded where
  ptr : Nat
  reserved : Nat
  stop : Nat

/-- `mp_vformat` of msgpuck, that is not part of the repository. Of the bytes it may store, a format
and its arguments: the bytes it stores, the size of the encoding, and the arguments behind those it
has read. -/
abbrev MpVformat (α : Type) := Nat → Bytes → α → Bytes × Nat × α

/-- The size is always that of the whole encoding. It is stored if it fits, and never more than the
bytes that may be stored. -/
structure MpVformat.Lawful {α : Type} (vformat : MpVformat α) (encoding : Bytes → α → Bytes) :
    Prop where
  size_eq : ∀ n format args, (vformat n format args).2.1 = (encoding format args).length
  stored_eq : ∀ n format args, (encoding format args).length ≤ n →
    (vformat n format args).1 = encoding format args
  length_le : ∀ n format args, (vformat n format args).1.length ≤ n

/-- `tpi_scramble_prepare`: the steps of `beer_scramble_prepare`. -/
def tpiScramblePrepare (crypt : Crypt) (salt password : Bytes) : Bytes :=
  beerScramblePrepare crypt salt password

namespace Tp

variable {τ : Type}

/-- `return tp_add(p, size);` -/
def added (t : Tp τ) (size stop : Nat) : Except Fault (Option TpAdded × Tp τ) := do
  let (ptr, t) ← t.tpAdd size
  return (ptr.map (⟨·, size, stop⟩), t)

variable (reserve : Option (TpReserve τ)) (mp : Msgpuck) (sz : MsgpuckSizes)

/-- `if (tp_ensure(p, size) == -1) return NULL;` -/
def ensuring (t : Tp τ) (size : Nat) (next : Tp τ → Except Fault (Option TpAdded × Tp τ)) :
    Except Fault (Option TpAdded × Tp τ) :=
  let (rc, t) := t.tpEnsure reserve size
  if rc = -1 then .ok (none, t) else next t

/-- A request: the size of its body, and the encoders that write it. -/
def request (t : Tp τ) (type : TpRequestType) (size : UInt32) (body : List Bytes) :
    Except Fault (Option TpAdded × Tp τ) :=
  let size := size + tpiSizeofHeader mp sz type.id
  t.ensuring reserve (sizeOfInt size) fun t => do
    let (h, t) ← t.tpiEncodeHeader mp type.id
    let (h, t) ← t.encode h body
    t.added (sizeOfInt size) h

/-- An addition to the current request: its size, and the encoders that write it. -/
def append (t : Tp τ) (size : UInt32) (parts : List Bytes) :
    Except Fault (Option TpAdded × Tp τ) :=
  t.ensuring reserve (sizeOfInt size) fun t => do
    let (h, t) ← t.encode t.p parts
    t.added (sizeOfInt size) h

/-- `tp_delete`. The map is in the size alone. -/
def tpDelete (t : Tp τ) (space : UInt32) : Except Fault (Option TpAdded × Tp τ) :=
  t.request reserve mp sz .delete
    (mpSizeofMap mp 2 + sz.mpSizeofUint TpBodyKey.space.id + sz.mpSizeofUint space.toUInt64 +
      sz.mpSizeofUint TpBodyKey.key.id)
    [mp.mpEncodeUint TpBodyKey.space.id, mp.mpEncodeUint space.toUInt64,
      mp.mpEncodeUint TpBodyKey.key.id]

/-- `tp_op_splice`. Its size is that of three times the first number. -/
def tpOpSplice (t : Tp τ) (fieldNo offset cutLimit : UInt32) (paste : Chunk) :
    Except Fault (Option TpAdded × Tp τ) :=
  t.append reserve
    (mpSizeofArray mp 5 + sz.mpSizeofStr 1 + sz.mpSizeofUint fieldNo.toUInt64 +
      sz.mpSizeofUint fieldNo.toUInt64 + sz.mpSizeofUint fieldNo.toUInt64 +
      sz.mpSizeofStr (UInt32.ofNat paste.bytes.length))
    ([mp.mpEncodeArray 5] ++ mpEncodeStr mp [0x3a] ++
      [mp.mpEncodeUint fieldNo.toUInt64, mp.mpEncodeUint offset.toUInt64,
        mp.mpEncodeUint cutLimit.toUInt64] ++ mpEncodeStr mp paste.bytes)

/-- `tp_auth`. Its size is that of an array of two strings, without the map around it and without
the name of the user. -/
def tpAuth (crypt : Crypt) (garbage : Nat → UInt8) (t : Tp τ) (saltBase64 : Bytes)
    (user pass : Chunk) : Except Fault (Option TpAdded × Tp τ) :=
  let salt := decodeSalt crypt garbage saltBase64
  let scramble := tpiScramblePrepare crypt salt pass.bytes
  t.request reserve mp sz .auth
    (mpSizeofArray mp 2 + sz.mpSizeofStr 0 + sz.mpSizeofStr (UInt32.ofNat beerScrambleSize))
    ([mp.mpEncodeMap 2, mp.mpEncodeUint TpBodyKey.username.id] ++ mpEncodeStr mp user.bytes ++
      [mp.mpEncodeUint TpBodyKey.tuple.id, mp.mpEncodeArray 2] ++ mpEncodeStr mp chapSha1 ++
      mpEncodeStr mp scramble)

/-- `tp_deauth`. Its size is that of an empty array. It sets the field of the length before
`tpi_encode_header` does. -/
def tpDeauth (t : Tp τ) : Except Fault (Option TpAdded × Tp τ) :=
  t.request reserve mp sz .auth (mpSizeofArray mp 0)
    ([mp.mpEncodeMap 2, mp.mpEncodeUint TpBodyKey.username.id] ++ mpEncodeStr mp guestName ++
      [mp.mpEncodeUint TpBodyKey.tuple.id, mp.mpEncodeArray 0])

/-- `tp_format`. The second time it may not store more bytes than the first time, and the arguments
have been read. -/
def tpFormat {α : Type} (vformat : MpVformat α) (t : Tp τ) (format : Bytes) (args : α) :
    Except Fault (Option TpAdded × Tp τ) := do
  let unused := t.tpUnused
  let (bytes, size, args) := vformat unused format args
  let (h, t) ← t.encode t.p [bytes]
  if size > unused then
    t.ensuring reserve size fun t => do
      let (bytes, _, _) := vformat unused format args
      let (h, t) ← t.encode t.p [bytes]
      t.added size h
  else t.added size h

theorem added_ptr (t : Tp τ) (size stop : Nat) :
    Prod.map (Option.map TpAdded.ptr) id <$> t.added size stop = t.tpAdd size := by
  unfold added
  rcases t.tpAdd size with fault | ⟨ptr, t₁⟩
  · rfl
  · cases ptr <;> rfl

theorem ensuring_ptr (reserve : Option (TpReserve τ)) (t : Tp τ) (size : Nat)
    {next : Tp τ → Except Fault (Option TpAdded × Tp τ)}
    {next' : Tp τ → Except Fault (Option Nat × Tp τ)}
    (hnext : ∀ t, Prod.map (Option.map TpAdded.ptr) id <$> next t = next' t) :
    Prod.map (Option.map TpAdded.ptr) id <$> t.ensuring reserve size next =
      t.withRoom reserve size next' := by
  unfold ensuring withRoom
  dsimp only
  split
  · rfl
  · exact hnext _

theorem request_ptr (reserve : Option (TpReserve τ)) (mp : Msgpuck) (sz : MsgpuckSizes) (t : Tp τ)
    (type : TpRequestType) (size : UInt32) (body : List Bytes) :
    Prod.map (Option.map TpAdded.ptr) id <$> t.request reserve mp sz type size body =
      t.tpRequest reserve mp sz type size body := by
  unfold request tpRequest
  dsimp only
  refine ensuring_ptr reserve t _ fun t => ?_
  simp only [map_bind, added_ptr]

theorem append_ptr (reserve : Option (TpReserve τ)) (t : Tp τ) (size : UInt32)
    (parts : List Bytes) :
    Prod.map (Option.map TpAdded.ptr) id <$> t.append reserve size parts =
      t.tpAppend reserve size parts := by
  refine ensuring_ptr reserve t _ fun t => ?_
  simp only [map_bind, added_ptr]

end Tp

/-- One of these calls, with a format and its arguments. -/
inductive TpEncoder (α : Type) where
  | delete (space : UInt32)
  | opSplice (fieldNo offset cutLimit : UInt32) (paste : Chunk)
  | auth (saltBase64 : Bytes) (user pass : Chunk)
  | deauth
  | format (fmt : Bytes) (args : α)

variable {τ α : Type}

def TpEncoder.run (reserve : Option (TpReserve τ)) (mp : Msgpuck) (sz : MsgpuckSizes) (crypt : Crypt)
    (garbage : Nat → UInt8) (vformat : MpVformat α) (t : Tp τ) :
    TpEncoder α → Except Fault (Option TpAdded × Tp τ)
  | delete space => t.tpDelete reserve mp sz space
  | opSplice fieldNo offset cutLimit paste =>
      t.tpOpSplice reserve mp sz fieldNo offset cutLimit paste
  | auth saltBase64 user pass => t.tpAuth reserve mp sz crypt garbage saltBase64 user pass
  | deauth => t.tpDeauth reserve mp sz
  | format fmt args => t.tpFormat reserve vformat fmt args

end BeeC
