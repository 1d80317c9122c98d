import BeeC.Wire.LittleEndian
import BeeC.Wire.WindowSearch
import BeeC.Wire.Loop
import BeeC.Wire.MessagePack

/-!
The logs and snapshots of a server, and how their records are read (`beer_log.c`). The machine is
little-endian. The function `crc32c` is not part of the source, and an allocation may fail.
-/

namespace BeeC

open BeeC.Wire
open BeeC.Wire.MessagePack
open BeeC.Wire.Loop

/-- An open file that does not change: its bytes, and the position in it. -/
structure LogFile where
  bytes : Bytes
  pos : Nat := 0
  deriving DecidableEq, Repr

namespace LogFile

/-- The bytes behind the position. -/
def rest (f : LogFile) : Bytes := f.bytes.drop f.pos

def advance (f : LogFile) (count : Nat) : LogFile := { f with pos := f.pos + count }

def ftello (f : LogFile) : Nat := f.pos

def fseeko (f : LogFile) (offset : Nat) : LogFile := { f with pos := offset }

/-- `fread` of one element: the number of elements that have been read, and the bytes that have
been stored. -/
def fread (f : LogFile) (size : Nat) : Nat × Bytes × LogFile :=
  let got := f.rest.take size
  (if 0 < size ∧ got.length = size then 1 else 0, got, f.advance got.length)

@[simp] theorem advance_advance (f : LogFile) (count more : Nat) :
    (f.advance count).advance more = f.advance (count + more) := by
  simp only [advance, Nat.add_assoc]

theorem rest_advance {f : LogFile} {front back : Bytes} (h : f.rest = front ++ back) :
    (f.advance front.length).rest = back := by
  unfold rest at h
  rw [rest, advance, ← List.drop_drop, h, List.drop_left]

theorem fread_of_rest {f : LogFile} {front back : Bytes} (h : f.rest = front ++ back)
    (hpos : 0 < front.length) :
    f.fread front.length = (1, front, f.advance front.length) := by
  unfold fread
  rw [h, List.take_left]
  simp [hpos]

theorem fread_short {f : LogFile} {size : Nat} (h : f.rest.length < size) :
    f.fread size = (0, f.rest, f.advance f.rest.length) := by
  unfold fread
  rw [List.take_of_length_le h.le]
  simp [h.ne]

/-- The bytes up to a newline, and with it. -/
def throughNewline : Bytes → Bytes
  | [] => []
  | c :: rest => if c = 0x0a then [c] else c :: throughNewline rest

/-- `fgets`, with a buffer of the size. -/
def fgets (f : LogFile) (size : Nat) : Option Bytes × LogFile :=
  let got := throughNewline (f.rest.take (size - 1))
  (if got = [] then none else some got, f.advance got.length)

end LogFile

/-- The string that bytes hold, as `strcmp` reads it. -/
def cString (s : Bytes) : Bytes := s.takeWhile (· ≠ 0)

/-- `enum beer_log_error`. -/
inductive LogError where
  | eok | efail | ememory | etype | eversion | ecorrupt | esystem
  deriving DecidableEq, Repr

/-- `enum beer_log_type`. -/
inductive LogType where
  | none | xlog | snapshot
  deriving DecidableEq, Repr

/-- What the first line of a log of the type is, `XLOG` or `SNAP`. -/
def LogType.magic : LogType → Bytes
  | none => []
  | xlog => [0x58, 0x4c, 0x4f, 0x47, 0x0a]
  | snapshot => [0x53, 0x4e, 0x41, 0x50, 0x0a]

/-- `BEER_LOG_VERSION`, which is `0.11` and a newline. -/
def logVersion : Bytes := [0x30, 0x2e, 0x31, 0x31, 0x0a]

/-- `struct beer_log_header_v11`. The time is kept as the bits of its `double`. -/
structure LogHeader where
  crc32Hdr : UInt32 := 0
  lsn : UInt64 := 0
  tm : UInt64 := 0
  len : UInt32 := 0
  crc32Data : UInt32 := 0
  deriving DecidableEq, Repr

namespace LogHeader

/-- The header in memory, without padding. -/
def bytes (h : LogHeader) : Bytes :=
  LittleEndian.store 4 h.crc32Hdr.toNat ++ LittleEndian.store 8 h.lsn.toNat ++
    LittleEndian.store 8 h.tm.toNat ++ LittleEndian.store 4 h.len.toNat ++
    LittleEndian.store 4 h.crc32Data.toNat

/-- The header that bytes in memory are. -/
def ofBytes (b : Bytes) : LogHeader where
  crc32Hdr := .ofNat (LittleEndian.load (b.take 4))
  lsn := .ofNat (LittleEndian.load ((b.drop 4).take 8))
  tm := .ofNat (LittleEndian.load ((b.drop 12).take 8))
  len := .ofNat (LittleEndian.load ((b.drop 20).take 4))
  crc32Data := .ofNat (LittleEndian.load ((b.drop 24).take 4))

/-- `sizeof(struct beer_log_header_v11)`. -/
def size : Nat := 28

@[simp] theorem bytes_length (h : LogHeader) : h.bytes.length = size := by
  simp [bytes, size]

theorem ofBytes_bytes (h : LogHeader) : ofBytes h.bytes = h := by
  obtain ⟨crc32Hdr, lsn, tm, len, crc32Data⟩ := h
  have hload32 (x : UInt32) :
      UInt32.ofNat (LittleEndian.load (LittleEndian.store 4 x.toNat)) = x := by
    rw [LittleEndian.load_store_of_lt x.toNat_lt]
    exact UInt32.ofNat_toNat
  have hload64 (x : UInt64) :
      UInt64.ofNat (LittleEndian.load (LittleEndian.store 8 x.toNat)) = x := by
    rw [LittleEndian.load_store_of_lt x.toNat_lt]
    exact UInt64.ofNat_toNat
  simp [bytes, ofBytes, List.drop_append, List.drop_eq_nil_of_le,
    List.take_of_length_le, hload32, hload64]

end LogHeader

/-- `struct beer_log`, as far as records are read with it. -/
structure Log where
  type : LogType := .none
  fd : LogFile
  currentOffset : Nat := 0
  offset : Nat := 0
  hdr : LogHeader := {}
  error : LogError := .eok
  deriving DecidableEq, Repr

/-- What `beer_log_read` returns: `0` with the data of a record and its size, `1` at the end of the
log, or `-1`. -/
inductive LogRead where
  | record (buf : Bytes) (size : UInt32)
  | eof
  | failed
  deriving DecidableEq, Repr

def beerLogMarkerV11 : UInt32 := 0xba0babed

def beerLogMarkerEofV11 : UInt32 := 0x10adab1e

/-- The value of a variable of 32 bits that holds the bytes. -/
def loadMarker (b : Bytes) : UInt32 := .ofNat (LittleEndian.load b)

def beerLogSeterr (l : Log) (e : LogError) : LogRead × Log := (.failed, { l with error := e })

def beerLogEof (l : Log) : LogRead × Log :=
  if l.fd.ftello = l.offset + 4 then
    let (count, marker, fd) := (l.fd.fseeko l.offset).fread 4
    if count ≠ 1 then beerLogSeterr { l with fd } .esystem
    else if loadMarker marker ≠ beerLogMarkerEofV11 then beerLogSeterr { l with fd } .ecorrupt
    else (.eof, { l with fd, offset := fd.ftello })
  else (.eof, l)

/-- The loop of `beer_log_read` that looks for the marker, with the bytes that `fgetc` has not
returned yet. It fails at the end of the file. -/
def seekMarker (marker : UInt32) (fd : LogFile) : (unread : Bytes) → Bool × LogFile
  | [] => (marker = beerLogMarkerV11, fd)
  | c :: unread =>
      if marker = beerLogMarkerV11 then (true, fd)
      else seekMarker (marker >>> 8 ||| c.toUInt32 <<< 24) (fd.advance 1) unread

section Reading

variable (crc32c : UInt32 → Bytes → UInt32) (alloc : Nat → Bool)

/-- The part of `beer_log_read` that follows the header. -/
def beerLogReadData (l : Log) : LogRead × Log :=
  if crc32c 0 (l.hdr.bytes.drop 4) ≠ l.hdr.crc32Hdr then beerLogSeterr l .ecorrupt
  else if !alloc l.hdr.len.toNat then beerLogSeterr l .ememory
  else
    let (count, data, fd) := l.fd.fread l.hdr.len.toNat
    if count ≠ 1 then beerLogEof { l with fd }
    else if crc32c 0 data ≠ l.hdr.crc32Data then beerLogSeterr { l with fd } .ecorrupt
    else (.record data l.hdr.len, { l with fd })

def beerLogRead (l : Log) : LogRead × Log :=
  let l := { l with currentOffset := l.fd.ftello }
  let (count, marker, fd) := l.fd.fread 4
  if count ≠ 1 then beerLogEof { l with fd }
  else
    let (found, fd) := seekMarker (loadMarker marker) fd fd.rest
    if !found then beerLogEof { l with fd }
    else
      let (count, got, fd) := fd.fread LogHeader.size
      let hdr := LogHeader.ofBytes (got ++ l.hdr.bytes.drop got.length)
      if count ≠ 1 then beerLogEof { l with fd, hdr }
      else beerLogReadData crc32c alloc { l with fd, hdr, offset := fd.ftello }

end Reading

/-- The loop of `beer_log_open` over the lines of the preamble. Every line takes a byte at least. -/
def skipPreamble : (fuel : Nat) → LogFile → Except LogError LogFile
  | 0, _ => .error .efail
  | fuel + 1, fd =>
      match fd.fgets 256 with
      | (none, _) => .error .efail
      | (some buf, fd) =>
          if cString buf = [0x0a] ∨ cString buf = [0x0d, 0x0a] then .ok fd
          else skipPreamble fuel fd

/-- `beer_log_open`, for a log that is all zero, and the bytes of the file if it can be opened. -/
def beerLogOpen (type : LogType) (file : Option Bytes) : Except LogError Log := do
  let some bytes := file | throw .esystem
  let (some filetype, fd) := ({ bytes } : LogFile).fgets 32 | throw .esystem
  let (some version, fd) := fd.fgets 32 | throw .esystem
  if cString filetype ≠ type.magic then throw .etype
  if cString version ≠ logVersion then throw .eversion
  let fd ← skipPreamble (fd.rest.length + 1) fd
  return { type, fd, offset := fd.ftello, currentOffset := 0 }

def beerLogSeek (l : Log) (offset : Nat) : Log :=
  { l with offset, fd := l.fd.fseeko offset }

end BeeC
