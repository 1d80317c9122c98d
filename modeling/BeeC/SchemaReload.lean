import BeeC.DirectRequest
import BeeC.Net
import BeeC.Schema

namespace BeeC

open BeeC.Wire.MessagePack

variable {τ : Type}

/-- A network stream with the number of its next request, and its schema. -/
structure Session (τ : Type) where
  reqid : UInt64 := 0
  net : Net τ
  schema : Schema := .new

/-- `beer_stream_reqid`. The old number is kept in 32 bits. -/
def beerStreamReqid (s : Session τ) (reqid : UInt32) : UInt32 × Session τ :=
  (s.reqid.toUInt32, { s with reqid := reqid.toUInt64 })

/-- Call a request builder on the stream. -/
def Session.build (t : Transport τ) (s : Session τ)
    (request : Stream (Net τ) → Except Fault (Ssize × Stream (Net τ))) :
    Except Fault (Ssize × Session τ) := do
  let (rc, stream) ← request { reqid := s.reqid, writev := beerNetWritev t, io := s.net }
  return (rc, { s with reqid := stream.reqid, net := stream.io })

/-- `beer_get_space` and `beer_get_index`: all rows of a view. -/
def beerGetView {σ : Type} (mp : Msgpuck) (garbage : Nat → UInt8) (view : SystemSpace)
    (s : Stream σ) : Except Fault (Ssize × Stream σ) := do
  let (_, obj) ← beerObject.addArray mp 0
  beerSelect mp garbage s view.id beerVinName 0xffffffff 0 beerIterAll obj

def beerGetSpace {σ : Type} (mp : Msgpuck) (garbage : Nat → UInt8) :
    Stream σ → Except Fault (Ssize × Stream σ) :=
  beerGetView mp garbage .vspSpace

def beerGetIndex {σ : Type} (mp : Msgpuck) (garbage : Nat → UInt8) :
    Stream σ → Except Fault (Ssize × Stream σ) :=
  beerGetView mp garbage .vspIndex

/-- The local variables of `beer_reload_schema`, and the schema. -/
structure Loading where
  bkp : Reply := Reply.init false
  sloaded : Nat := 0
  schema : Schema

/-- The `switch` over the number of a reply. There is no result where it leaves for `error`. -/
def reloadReply (mp : Msgpuck) (l : Loading) (r : Reply) : Except Fault (Option Loading) := do
  if r.sync = 127 then
    if r.error.isSome then return none
    let (_, schema) ← beerSchemaAddSpaces mp l.schema r
    return some { l with schema, sloaded := l.sloaded + 1 }
  else if r.sync = 128 then
    if r.error.isSome then return none
    if l.sloaded % 2 = 0 then return some { l with bkp := r }
    let (_, schema) ← beerSchemaAddIndexes mp l.schema r
    return some { l with schema, sloaded := l.sloaded + 2 }
  else return none

/-- `while (beer_next(&it))`, for at most so many replies; whether it was not left for `error`. -/
def reloadFrom (t : Transport τ) (mp : Msgpuck) :
    (limit : Nat) → ReplyIter → Loading → Net τ → Except Fault (Bool × Loading) × Net τ
  | 0, _, l, n => (.ok (true, l), n)
  | limit + 1, it, l, n =>
      match beerIterReplyNext t mp it n with
      | (.error reason, n) => (.error reason, n)
      | (.ok (false, _), n) => (.ok (true, l), n)
      | (.ok (true, it), n) =>
          match reloadReply mp l it.r with
          | .error reason => (.error reason, n)
          | .ok none => (.ok (false, l), n)
          | .ok (some l) => reloadFrom t mp limit it l n

/-- What follows the loop: the index reply, if it came before the space reply. -/
def Loading.finish (mp : Msgpuck) (l : Loading) : Except Fault Loading := do
  if l.bkp.buf.isNone then return l
  let (_, schema) ← beerSchemaAddIndexes mp l.schema l.bkp
  return { l with schema, sloaded := l.sloaded + 2 }

section Reload

variable (t : Transport τ) (mp : Msgpuck) (garbage : Nat → UInt8)

/-- `beer_reload_schema`, up to the loop. -/
def Session.query (s : Session τ) : Except Fault (Session τ) := do
  let (oldsync, s) := beerStreamReqid s 127
  let (_, s) ← s.build t (beerGetSpace mp garbage)
  let (_, s) ← s.build t (beerGetIndex mp garbage)
  let (_, s) := beerStreamReqid s oldsync
  let (_, net) := beerFlush t s.net
  return { s with net }

/-- `beer_reload_schema`. A call of `beer_next` that finds a reply counts one write down, so that
the loop is over after as many calls as there are writes, and one. -/
def beerReloadSchema (s : Session τ) : Except Fault (Int × Session τ) := do
  if ¬s.net.connected ∨ s.net.wrcnt ≠ 0 then return (-1, s)
  let s ← s.query t mp garbage
  match reloadFrom t mp (s.net.wrcnt.toNat + 1) {} { schema := s.schema } s.net with
  | (.error reason, _) => throw reason
  | (.ok (false, l), net) => return (-1, { s with net, schema := l.schema })
  | (.ok (true, l), net) =>
      let l ← l.finish mp
      return (if l.sloaded ≠ 3 then -1 else 0, { s with net, schema := l.schema })

end Reload

/-- `beer_get_spaceno`. The length becomes a `uint32_t`. -/
def beerGetSpaceno (s : Session τ) (space : Bytes) : Int32 :=
  beerSchemaStosid s.schema (space.take (UInt32.ofNat space.length).toNat)

def beerGetIndexno (s : Session τ) (spaceno : Int32) (index : Bytes) : Int32 :=
  beerSchemaStoiid s.schema spaceno.toUInt32 (index.take (UInt32.ofNat index.length).toNat)

end BeeC
