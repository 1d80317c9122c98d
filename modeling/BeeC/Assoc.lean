import BeeC.Wire.Probing

/-!
The hash table behind the schema (`mhash.h`, as `beer_assoc.h` instantiates it): open addressing with
double hashing, and a resize that moves a batch of places with each operation. A result is missing
where a loop would run for ever, where the list of sizes is read past its end, and where the shadow
would be resized, which is a shadow of itself.
-/

namespace BeeC

open BeeC.Wire.Probing

/-- `__ac_prime_list`. -/
def acPrimeList : List Nat :=
  [3, 11, 23, 53, 97, 193, 389, 769, 1543, 3079, 6151, 12289, 24593, 49157, 98317, 196613, 393241,
    786433, 1572869, 3145739, 6291469, 12582917, 25165843, 50331653, 100663319, 201326611,
    402653189, 805306457, 1610612741, 3221225473, 4294967291]

/-- `mh_hash` and `mh_eq` by way of the key of a node, `mh_hash_key` and `mh_eq_key`. -/
structure Keyed (κ ν : Type) where
  key : ν → κ
  hash : κ → UInt32

/-- `struct _mh(t)`, but for `shadow`. Each word of `b` has the bits of sixteen places: whether the
place exists, and sixteen bits further whether it is dirty. -/
structure MhTable (ν : Type) where
  p : Array ν := #[]
  b : Array (BitVec 32) := #[]
  nBuckets : Nat := 0
  nDirty : Nat := 0
  size : Nat := 0
  upperBound : Nat := 0
  prime : Nat := 0
  resizeCnt : Nat := 0
  resizePosition : Nat := 0
  batch : Nat := 0

/-- `struct _mh(t)` together with the one that its `shadow` points to. -/
structure Mh (ν : Type) where
  h : MhTable ν
  shadow : MhTable ν

/-- `++` of an `mh_int_t`. -/
def mhInc (count : Nat) : Nat := (count + 1) % 2 ^ 32

/-- `--` of an `mh_int_t`. -/
def mhDec (count : Nat) : Nat := (count + (2 ^ 32 - 1)) % 2 ^ 32

/-- `n * MH_DENSITY`. No size of `__ac_prime_list` is a multiple of ten, so that the error of the
double is lost when the product is truncated. -/
def mhUpperBound (n : Nat) : Nat := n * 7 / 10

namespace MhTable

variable {κ ν : Type} [DecidableEq κ] [Inhabited ν]

/-- `mh_exist`. -/
def exist (h : MhTable ν) (i : Nat) : Bool := (h.b.getD (i >>> 4) 0 &&& 1#32 <<< (i % 16)) != 0

/-- `mh_dirty`. -/
def dirty (h : MhTable ν) (i : Nat) : Bool :=
  (h.b.getD (i >>> 4) 0 &&& 1#32 <<< (i % 16 + 16)) != 0

/-- `mh_setfree`. -/
def setFree (h : MhTable ν) (i : Nat) : MhTable ν :=
  { h with b := h.b.modify (i >>> 4) (· &&& ~~~(1#32 <<< (i % 16))) }

/-- `mh_setexist`. -/
def setExist (h : MhTable ν) (i : Nat) : MhTable ν :=
  { h with b := h.b.modify (i >>> 4) (· ||| 1#32 <<< (i % 16)) }

/-- `mh_setdirty`. -/
def setDirty (h : MhTable ν) (i : Nat) : MhTable ν :=
  { h with b := h.b.modify (i >>> 4) (· ||| 1#32 <<< (i % 16 + 16)) }

/-- `mh_node`. -/
def node (h : MhTable ν) (i : Nat) : ν := h.p.getD i default

/-- Copy a node to a place. -/
def setNode (h : MhTable ν) (i : Nat) (v : ν) : MhTable ν :=
  { h with p := h.p.setIfInBounds i v }

/-- `_mh(next_slot)`. The sum is one of `uint32_t`. -/
def nextSlot (slot inc size : Nat) : Nat :=
  let sum := (slot + inc) % 2 ^ 32
  if size ≤ sum then sum - size else sum

/-- Where the path of a hash starts. -/
def start (h : MhTable ν) (k : UInt32) : Nat := k.toNat % h.nBuckets

/-- How far the path of a hash goes with each step. -/
def inc (h : MhTable ν) (k : UInt32) : Nat := 1 + k.toNat % (h.nBuckets - 1)

/-- The loop of `_mh(find)` and of `_mh(get)`. It comes back to where it started after as many steps
as there are places. -/
def findLoop (h : MhTable ν) (eq : ν → Bool) (inc : Nat) : (fuel i : Nat) → Option Nat
  | 0, _ => none
  | fuel + 1, i =>
      if h.exist i && eq (h.node i) then some i
      else if !h.dirty i then some h.nBuckets
      else findLoop h eq inc fuel (nextSlot i inc h.nBuckets)

/-- `_mh(find)`. -/
def find (K : Keyed κ ν) (h : MhTable ν) (k : κ) : Option Nat :=
  h.findLoop (fun v => K.key v = k) (h.inc (K.hash k)) h.nBuckets (h.start (K.hash k))

/-- `_mh(get)`. -/
def get (K : Keyed κ ν) (h : MhTable ν) (v : ν) : Option Nat :=
  h.findLoop (fun w => K.key v = K.key w) (h.inc (K.hash (K.key v))) h.nBuckets
    (h.start (K.hash (K.key v)))

/-- The first loop of `_mh(put_slot)`: it marks the places that it skips, and ends at one that is
not in use, or at a duplicate. -/
def skipLoop (eq : ν → Bool) (inc : Nat) : (fuel : Nat) → MhTable ν → (i : Nat) →
    Option (MhTable ν × Nat × Bool)
  | 0, _, _ => none
  | fuel + 1, h, i =>
      if h.exist i then
        if eq (h.node i) then some (h, i, true)
        else skipLoop eq inc fuel (h.setDirty i) (nextSlot i inc h.nBuckets)
      else some (h, i, false)

/-- The second loop of `_mh(put_slot)`: it looks for a duplicate down the chain. -/
def downLoop (h : MhTable ν) (eq : ν → Bool) (inc saved : Nat) : (fuel i : Nat) → Option Nat
  | 0, _ => none
  | fuel + 1, i =>
      if h.dirty i then
        let i := nextSlot i inc h.nBuckets
        if h.exist i && eq (h.node i) then some i else downLoop h eq inc saved fuel i
      else some saved

/-- `_mh(put_slot)`. -/
def putSlot (K : Keyed κ ν) (h : MhTable ν) (v : ν) : Option (MhTable ν × Nat) := do
  let k := K.hash (K.key v)
  let (h, i, duplicate) ← skipLoop (fun w => K.key v = K.key w) (h.inc k) h.nBuckets h (h.start k)
  if duplicate then some (h, i)
  else
    let x ← h.downLoop (fun w => K.key v = K.key w) (h.inc k) i h.nBuckets i
    some (h, x)

/-- What `_mh(put)` does when the table is large enough: the table, the place of the node, and the
old node. -/
def store (K : Keyed κ ν) (h : MhTable ν) (v : ν) : Option (MhTable ν × Nat × Option ν) := do
  let (h, x) ← h.putSlot K v
  if h.exist x then some (h.setNode x v, x, some (h.node x))
  else
    let h := h.setExist x
    let h := { h with
      size := mhInc h.size
      nDirty := if h.dirty x then h.nDirty else mhInc h.nDirty }
    some (h.setNode x v, x, none)

/-- What `_mh(del)` does to the table itself. -/
def free (h : MhTable ν) (x : Nat) : MhTable ν :=
  let h := h.setFree x
  { h with
    size := mhDec h.size
    nDirty := if h.dirty x then h.nDirty else mhDec h.nDirty }

/-- `_mh(put)` of the shadow, which is a shadow of itself. -/
def putShadow (K : Keyed κ ν) (s : MhTable ν) (v : ν) : Option (MhTable ν) :=
  if s.size = s.nBuckets then some s
  else if 0 < s.resizePosition ∨ s.upperBound ≤ s.nDirty then none
  else (s.store K v).map (·.1)

/-- `_mh(del)` of the shadow. -/
def delShadow (s : MhTable ν) (x : Nat) : Option (MhTable ν) :=
  if x ≠ s.nBuckets ∧ s.exist x = true then
    if 0 < s.resizePosition then none else some (s.free x)
  else some s

/-- What `_mh(resize)` writes to the shadow at the place that it has for a node. -/
def adopt (s : MhTable ν) (n : Nat) (v : ν) : MhTable ν :=
  let s := (s.setNode n v).setExist n
  { s with nDirty := mhInc s.nDirty }

/-- The loop of `_mh(resize)` from a place on, with the places that are left in the table and in the
batch: where it broke off, and the shadow. -/
def migrate (K : Keyed κ ν) (h : MhTable ν) : (left batch i : Nat) → MhTable ν →
    Option (Option Nat × MhTable ν)
  | 0, _, _, s => some (none, s)
  | _ + 1, 0, i, s => some (some i, s)
  | left + 1, batch + 1, i, s =>
      if h.exist i then do
        let (s, n) ← s.putSlot K (h.node i)
        migrate K h left batch (i + 1) (s.adopt n (h.node i))
      else migrate K h left batch (i + 1) s

/-- Search for a place in use from a place on, over so many places. -/
def existFrom (h : MhTable ν) : (left i : Nat) → Nat
  | 0, i => i
  | left + 1, i => if h.exist i then i else existFrom h left (i + 1)

/-- `mh_first`. -/
def first (h : MhTable ν) : Nat := h.existFrom h.nBuckets 0

/-- `mh_next`. -/
def next (h : MhTable ν) (i : Nat) : Nat :=
  if i < h.nBuckets then h.existFrom (h.nBuckets - (i + 1)) (i + 1) else i

/-- The places that `mh_foreach` comes to from a place on. -/
def foreachFrom (h : MhTable ν) : (fuel i : Nat) → Option (List Nat)
  | 0, i => if i < h.nBuckets then none else some []
  | fuel + 1, i =>
      if i < h.nBuckets then (foreachFrom h fuel (h.next i)).map (i :: ·) else some []

/-- The places that `mh_foreach` comes to. -/
def foreach (h : MhTable ν) : Option (List Nat) := h.foreachFrom h.nBuckets h.first

end MhTable

namespace Mh

variable {κ ν : Type} [DecidableEq κ] [Inhabited ν]

/-- `_mh(new)`. -/
def new : Mh ν where
  h :=
    { p := Array.replicate 3 default
      b := Array.replicate (3 / 16 + 1) 0
      nBuckets := 3
      upperBound := mhUpperBound 3 }
  shadow := {}

/-- `_mh(resize)`. -/
def resize (K : Keyed κ ν) (m : Mh ν) : Option (Mh ν) := do
  let r := m.h.resizePosition
  let (stopped, s) ← m.h.migrate K (m.h.nBuckets - r) m.h.batch r m.shadow
  match stopped with
  | some i => some { h := { m.h with resizePosition := i }, shadow := s }
  | none =>
      let s := { s with size := m.h.size }
      some { h := { s with resizeCnt := s.resizeCnt + 1 }, shadow := s }

/-- The loop of `_mh(start_resize)` for the size, over the sizes that are left. -/
def primeFrom (buckets : Nat) : (left prime : Nat) → Nat
  | 0, prime => prime
  | left + 1, prime =>
      if buckets ≤ acPrimeList.getD prime 0 then prime else primeFrom buckets left (prime + 1)

/-- `_mh(start_resize)`, and whether it succeeds. For a number of places, `granted` tells whether the
allocator has memory for the nodes and for the words of bits. -/
def startResize (K : Keyed κ ν) (m : Mh ν) (buckets batch : Nat) (granted : Nat → Bool × Bool) :
    Option (Bool × Mh ν) :=
  if 0 < m.h.resizePosition then some (true, m)
  else if buckets < m.h.nBuckets then some (true, m)
  else do
    let prime := primeFrom buckets (acPrimeList.length - m.h.prime) m.h.prime
    let batch := if 0 < batch then batch else m.h.nBuckets / (256 * 1024)
    let batch := if batch < 256 then 256 else batch
    let n ← acPrimeList[prime]?
    let h := { m.h with prime, batch }
    let s := { h with
      resizePosition := 0
      nBuckets := n
      upperBound := mhUpperBound n
      nDirty := 0 }
    if !(granted n).1 then some (false, { h, shadow := { s with p := #[] } })
    else if !(granted n).2 then some (false, { h, shadow := { s with p := #[], b := #[] } })
    else
      let s := { s with
        p := Array.replicate n default
        b := Array.replicate (n / 16 + 1) 0 }
      let m ← resize K { h, shadow := s }
      some (true, m)

/-- The first part of `_mh(put)`: a resize goes on, or starts. -/
def makeRoom (K : Keyed κ ν) (m : Mh ν) (granted : Nat → Bool × Bool) : Option (Bool × Mh ν) :=
  if 0 < m.h.resizePosition then (resize K m).map fun m => (true, m)
  else if m.h.upperBound ≤ m.h.nDirty then startResize K m (m.h.nBuckets + 1) 0 granted
  else some (true, m)

/-- The part of `_mh(put)` that puts the node to the shadow. -/
def putToShadow (K : Keyed κ ν) (m : Mh ν) (v : ν) : Option (MhTable ν) :=
  if 0 < m.h.resizePosition then m.shadow.putShadow K v else some m.shadow

/-- `_mh(put)`: the place of the node, `mh_end` where memory ran out, and the old node. -/
def put (K : Keyed κ ν) (m : Mh ν) (v : ν) (granted : Nat → Bool × Bool) :
    Option (Mh ν × Nat × Option ν) :=
  if m.h.size = m.h.nBuckets then some (m, m.h.nBuckets, none)
  else do
    let (succeeded, m') ← m.makeRoom K granted
    if !succeeded then some (m', m.h.nBuckets, none)
    else
      let shadow ← m'.putToShadow K v
      let (h, x, old) ← m'.h.store K v
      some ({ h, shadow }, x, old)

/-- `_mh(del)`, with `_mh(del_resize)`. -/
def del (K : Keyed κ ν) (m : Mh ν) (x : Nat) : Option (Mh ν) :=
  if x ≠ m.h.nBuckets ∧ m.h.exist x = true then do
    let h := m.h.free x
    if 0 < h.resizePosition then
      let y ← m.shadow.get K (h.node x)
      let shadow ← m.shadow.delShadow y
      resize K { h, shadow }
    else some { m with h }
  else some m

/-- `_mh(remove)`. -/
def remove (K : Keyed κ ν) (m : Mh ν) (v : ν) : Option (Mh ν) := do
  let k ← m.h.get K v
  if k ≠ m.h.nBuckets then m.del K k else some m

end Mh

end BeeC
