import BeeC.LogReading

namespace BeeC

open BeeC.Wire
open BeeC.Wire.MessagePack
open BeeC.Wire.WindowSearch
open BeeC.Wire.Loop

/-- The marker at the end of a log, as it is in the file. -/
def eofMarker : Bytes := LittleEndian.store 4 beerLogMarkerEofV11.toNat

/-- The log after a number of calls of `beer_log_read`. -/
def logAfter (crc32c : UInt32 → Bytes → UInt32) (alloc : Nat → Bool) : Nat → Log → Log
  | 0, l => l
  | count + 1, l => logAfter crc32c alloc count (beerLogRead crc32c alloc l).2

/-- The position is behind the data that starts at the saved offset, and in front of the rest. -/
structure Log.Behind (l : Log) (data rest : Bytes) : Prop where
  at_offset : l.fd.bytes.drop l.offset = data ++ rest
  pos_eq : l.fd.pos = l.offset + data.length
  offset_le : l.offset ≤ l.fd.bytes.length

/-- A record with nothing in front of it. -/
def LogRecord.segment {crc32c : UInt32 → Bytes → UInt32} (r : LogRecord crc32c) :
    LogSegment crc32c where
  junk := []
  record := r
  first := firstAfter_nil _

/-- The data of the last record, if there is one. -/
def lastData {crc32c : UInt32 → Bytes → UInt32} (records : List (LogRecord crc32c))
    (otherwise : Bytes) : Bytes :=
  (records.getLast?.map LogRecord.data).getD otherwise

theorem lastData_cons {crc32c : UInt32 → Bytes → UInt32} (r : LogRecord crc32c)
    (records : List (LogRecord crc32c)) (otherwise : Bytes) :
    lastData (r :: records) otherwise = lastData records r.data := by
  unfold lastData
  rw [List.getLast?_cons]
  cases records.getLast? with
  | none => rfl
  | some last => rfl

section Reading

variable {crc32c : UInt32 → Bytes → UInt32} {alloc : Nat → Bool} {l : Log} {data rest : Bytes}

theorem Log.Behind.rest_eq (h : l.Behind data rest) : l.fd.rest = rest := by
  rw [LogFile.rest, h.pos_eq, ← List.drop_drop, h.at_offset, List.drop_left]

theorem Log.Behind.after {back : Bytes} (r : LogRecord crc32c)
    (h : l.Behind data (r.bytes ++ back)) : (l.after r.segment).Behind r.data back := by
  have hrest := h.rest_eq
  have hheader : r.segment.headerEnd l.fd.pos = l.fd.pos + (rowMarker ++ r.hdr.bytes).length := by
    simp [LogSegment.headerEnd, LogRecord.segment, Nat.add_assoc]
  have hbytes : r.segment.bytes = (rowMarker ++ r.hdr.bytes) ++ r.data := rfl
  constructor
  · change l.fd.bytes.drop (r.segment.headerEnd l.fd.pos) = _
    rw [hheader, ← List.drop_drop]
    change l.fd.rest.drop _ = _
    rw [hrest, LogRecord.bytes, List.append_assoc, List.drop_left]
  · change l.fd.pos + r.segment.bytes.length = r.segment.headerEnd l.fd.pos + r.data.length
    rw [hheader, hbytes, List.length_append, Nat.add_assoc]
  · change r.segment.headerEnd l.fd.pos ≤ l.fd.bytes.length
    have hlength := congrArg List.length hrest
    rw [LogFile.rest, List.length_drop, LogRecord.bytes, List.append_assoc,
      List.length_append] at hlength
    have hheaderPos : 0 < (rowMarker ++ r.hdr.bytes).length := by simp [rowMarker]
    rw [hheader]
    omega

theorem logAfter_records (records : List (LogRecord crc32c)) {back : Bytes}
    (halloc : ∀ r ∈ records, alloc r.data.length = true)
    (h : l.Behind data (records.flatMap LogRecord.bytes ++ back)) :
    (logAfter crc32c alloc records.length l).Behind (lastData records data) back ∧
      (logAfter crc32c alloc records.length l).error = l.error := by
  induction records generalizing l data with
  | nil => exact ⟨h, rfl⟩
  | cons r records ih =>
      rw [List.flatMap_cons, List.append_assoc] at h
      have hread : beerLogRead crc32c alloc l = (.record r.data r.hdr.len, l.after r.segment) :=
        beerLogRead_segment r.segment (halloc r List.mem_cons_self) h.rest_eq
      have hrest := ih (fun r' hr' => halloc r' (List.mem_cons_of_mem _ hr')) (h.after r)
      rw [lastData_cons, List.length_cons, logAfter, hread]
      exact hrest

theorem logAfter_returned (records : List (LogRecord crc32c)) {back : Bytes}
    (halloc : ∀ r ∈ records, alloc r.data.length = true)
    (h : l.Behind data (records.flatMap LogRecord.bytes ++ back)) (i : Nat)
    (hi : i < records.length) :
    (beerLogRead crc32c alloc (logAfter crc32c alloc i l)).1 =
      .record records[i].data records[i].hdr.len := by
  induction records generalizing l data i with
  | nil => exact absurd hi (Nat.not_lt_zero _)
  | cons r records ih =>
      rw [List.flatMap_cons, List.append_assoc] at h
      have hread : beerLogRead crc32c alloc l = (.record r.data r.hdr.len, l.after r.segment) :=
        beerLogRead_segment r.segment (halloc r List.mem_cons_self) h.rest_eq
      cases i with
      | zero => rw [logAfter, hread]; rfl
      | succ i =>
          rw [logAfter, hread]
          exact ih (fun r' hr' => halloc r' (List.mem_cons_of_mem _ hr')) (h.after r) i
            (Nat.lt_of_succ_lt_succ hi)

/-- At the end of the file, four bytes from the saved offset on are taken for the end marker. -/
theorem beerLogEof_status (h : l.fd.pos = l.fd.bytes.length) :
    let r := beerLogEof l
    (r.1, r.2.error) =
      if (l.fd.bytes.drop l.offset).length = 4 ∧ l.fd.bytes.drop l.offset ≠ eofMarker then
        (.failed, .ecorrupt)
      else (.eof, l.error) := by
  have hlength : (l.fd.bytes.drop l.offset).length = l.fd.bytes.length - l.offset :=
    List.length_drop
  unfold beerLogEof
  by_cases hfour : (l.fd.bytes.drop l.offset).length = 4
  · have htold : l.fd.ftello = l.offset + 4 := by
      rw [LogFile.ftello, h]
      omega
    have hread := LogFile.fread_of_rest
      (show (l.fd.fseeko l.offset).rest = l.fd.bytes.drop l.offset ++ [] from
        (List.append_nil _).symm) (by omega)
    rw [hfour] at hread
    have hmarker := loadMarker_eq_iff hfour beerLogMarkerEofV11
    simp only [htold, if_true, hread, hfour, true_and, ne_eq, not_true_eq_false, if_false,
      hmarker, eofMarker]
    split <;> rfl
  · have htold : l.fd.ftello ≠ l.offset + 4 := by
      rw [LogFile.ftello, h]
      omega
    rw [if_neg htold, if_neg (fun hbad => hfour hbad.1)]

theorem Log.Behind.read_end {final : Bytes} (h : l.Behind data final)
    (hfinal : final = [] ∨ final.length = 4 ∧ final ≠ rowMarker) :
    beerLogRead crc32c alloc l =
      beerLogEof { l with currentOffset := l.fd.pos, fd := l.fd.advance final.length } := by
  have hrest := h.rest_eq
  unfold beerLogRead
  rcases hfinal with rfl | ⟨hlength, hmarker⟩
  · have hread := @LogFile.fread_short l.fd 4 (by simp [hrest])
    simp only [hread, hrest]
    rfl
  · have hread := LogFile.fread_of_rest (hrest.trans (List.append_nil _).symm) (by omega)
    have hunread := LogFile.rest_advance (hrest.trans (List.append_nil _).symm)
    rw [hlength] at hread hunread
    have hnot : ¬loadMarker final = beerLogMarkerV11 := mt (loadMarker_eq_iff hlength _).mp hmarker
    simp only [hread, hunread, seekMarker, hnot, hlength]
    rfl

theorem Log.Behind.end_status {final : Bytes} (h : l.Behind data final)
    (hfinal : final = [] ∨ final.length = 4 ∧ final ≠ rowMarker) :
    let r := beerLogRead crc32c alloc l
    (r.1, r.2.error) =
      if (data ++ final).length = 4 ∧ data ++ final ≠ eofMarker then (.failed, .ecorrupt)
      else (.eof, l.error) := by
  have hend : (l.fd.advance final.length).pos = l.fd.bytes.length := by
    have hlength := congrArg List.length h.at_offset
    rw [List.length_drop, List.length_append] at hlength
    have hoffset := h.offset_le
    simp only [LogFile.advance, h.pos_eq]
    omega
  have hstatus := beerLogEof_status
    (l := { l with currentOffset := l.fd.pos, fd := l.fd.advance final.length }) hend
  rw [h.read_end hfinal]
  rw [show (l.fd.advance final.length).bytes.drop l.offset = data ++ final from h.at_offset]
    at hstatus
  exact hstatus

end Reading

section Opening

theorem LogFile.fgets_bytes (f : LogFile) (size : Nat) : (f.fgets size).2.bytes = f.bytes := rfl

theorem skipPreamble_bytes {fuel : Nat} {fd fd' : LogFile} (h : skipPreamble fuel fd = .ok fd') :
    fd'.bytes = fd.bytes := by
  induction fuel generalizing fd with
  | zero => cases h
  | succ fuel ih =>
      have hbytes := fd.fgets_bytes 256
      rw [skipPreamble] at h
      rcases hline : fd.fgets 256 with ⟨_ | buf, next⟩
      · rw [hline] at h
        cases h
      · simp only [hline] at h hbytes
        split at h
        · cases h
          exact hbytes
        · exact (ih h).trans hbytes

theorem beerLogOpen_ok {type : LogType} {file : Bytes} {l : Log}
    (h : beerLogOpen type (some file) = .ok l) :
    l.fd.bytes = file ∧ l.offset = l.fd.pos ∧ l.error = .eok := by
  have hfirst := LogFile.fgets_bytes { bytes := file } 32
  unfold beerLogOpen at h
  rcases hline : LogFile.fgets { bytes := file } 32 with ⟨_ | filetype, fd⟩
  · simp only [hline] at h
    cases h
  · have hsecond := fd.fgets_bytes 32
    rcases hline' : fd.fgets 32 with ⟨_ | version, fd'⟩
    · simp only [hline, hline'] at h
      cases h
    · simp only [hline, hline'] at h hfirst hsecond
      split at h
      · cases h
      · split at h
        · cases h
        · obtain ⟨last, hskip, hlog⟩ := bind_eq_ok.mp h
          cases hlog
          exact ⟨(skipPreamble_bytes hskip).trans (hsecond.trans hfirst), rfl, rfl⟩

theorem beerLogOpen_behind {type : LogType} {preamble body : Bytes} {l : Log}
    (hopen : beerLogOpen type (some (preamble ++ body)) = .ok l)
    (hpos : l.fd.pos = preamble.length) : l.Behind [] body := by
  obtain ⟨hbytes, hoffset, -⟩ := beerLogOpen_ok hopen
  constructor
  · rw [hbytes, hoffset, hpos, List.drop_left]
    rfl
  · rw [hoffset]
    rfl
  · rw [hbytes, hoffset, hpos, List.length_append]
    exact Nat.le_add_right _ _

theorem LogFile.throughNewline_line {line : Bytes} (h : 0x0a ∉ line) (back : Bytes) :
    throughNewline (line ++ 0x0a :: back) = line ++ [0x0a] := by
  induction line with
  | nil => rfl
  | cons c line ih =>
      obtain ⟨hc, hline⟩ := not_or.mp (mt List.mem_cons.mpr h)
      rw [List.cons_append, throughNewline, if_neg (Ne.symm hc), ih hline]
      rfl

theorem LogFile.fgets_line {f : LogFile} {line back : Bytes} {size : Nat}
    (hrest : f.rest = (line ++ [0x0a]) ++ back) (hline : 0x0a ∉ line)
    (hfits : line.length + 1 < size) :
    f.fgets size = (some (line ++ [0x0a]), f.advance (line ++ [0x0a]).length) := by
  have htake : f.rest.take (size - 1) =
      line ++ 0x0a :: back.take (size - 1 - (line ++ [0x0a]).length) := by
    have hlength : (line ++ [0x0a]).length ≤ size - 1 := by
      simp
      omega
    rw [hrest, List.take_append, List.take_of_length_le hlength, List.append_assoc]
    rfl
  unfold fgets
  rw [htake, throughNewline_line hline]
  simp

/-- A line of a preamble that is not the last one. -/
structure PreambleLine (line : Bytes) : Prop where
  oneLine : 0x0a ∉ line
  fits : line.length < 255
  notLast : ¬(cString (line ++ [0x0a]) = [0x0a] ∨
    cString (line ++ [0x0a]) = [0x0d, 0x0a])

/-- The last line of a preamble is empty, but for a carriage return. -/
def lastLine (crlf : Bool) : Bytes := if crlf then [0x0d] else []

theorem lastLine_last (crlf : Bool) :
    cString (lastLine crlf ++ [0x0a]) = [0x0a] ∨
      cString (lastLine crlf ++ [0x0a]) = [0x0d, 0x0a] := by
  cases crlf with
  | false => exact .inl (by decide)
  | true => exact .inr (by decide)

/-- The lines of a preamble behind its version. -/
def preambleLines (lines : List Bytes) (crlf : Bool) : Bytes :=
  lines.flatMap (· ++ [0x0a]) ++ (lastLine crlf ++ [0x0a])

theorem preambleLines_cons (line : Bytes) (lines : List Bytes) (crlf : Bool) :
    preambleLines (line :: lines) crlf = (line ++ [0x0a]) ++ preambleLines lines crlf := by
  simp [preambleLines]

theorem length_lt_preambleLines (lines : List Bytes) (crlf : Bool) :
    lines.length < (preambleLines lines crlf).length := by
  induction lines with
  | nil => simp [preambleLines]
  | cons line lines ih =>
      rw [preambleLines_cons, List.length_append, List.length_append, List.length_cons]
      simp only [List.length_singleton]
      omega

theorem skipPreamble_lines {lines : List Bytes} (hplain : ∀ line ∈ lines, PreambleLine line)
    (crlf : Bool) {fd : LogFile} {back : Bytes} {fuel : Nat} (hfuel : lines.length < fuel)
    (hrest : fd.rest = preambleLines lines crlf ++ back) :
    skipPreamble fuel fd = .ok (fd.advance (preambleLines lines crlf).length) := by
  induction lines generalizing fd fuel with
  | nil =>
      obtain ⟨fuel, rfl⟩ := Nat.exists_eq_add_of_lt hfuel
      have hline : 0x0a ∉ lastLine crlf := by cases crlf <;> decide
      have hfits : (lastLine crlf).length + 1 < 256 := by cases crlf <;> decide
      have hgets := LogFile.fgets_line hrest hline hfits
      rw [skipPreamble, hgets]
      exact if_pos (lastLine_last crlf)
  | cons line lines ih =>
      obtain ⟨fuel, rfl⟩ := Nat.exists_eq_add_of_lt hfuel
      have hline := hplain line List.mem_cons_self
      rw [preambleLines_cons, List.append_assoc] at hrest
      have hgets := LogFile.fgets_line hrest hline.oneLine (Nat.succ_lt_succ hline.fits)
      have hnext := ih (fun other h => hplain other (List.mem_cons_of_mem _ h))
        (show lines.length < lines.length + 1 + fuel by omega) (LogFile.rest_advance hrest)
      rw [skipPreamble, hgets]
      simp only [if_neg hline.notLast]
      rw [show (line :: lines).length + fuel = lines.length + 1 + fuel from rfl, hnext,
        preambleLines_cons, LogFile.advance_advance, ← List.length_append]

theorem LogType.magic_line {type : LogType} (h : type ≠ .none) :
    ∃ line, type.magic = line ++ [0x0a] ∧ 0x0a ∉ line ∧ line.length + 1 < 32 ∧
      cString type.magic = type.magic := by
  cases type with
  | none => exact absurd rfl h
  | xlog => exact ⟨[0x58, 0x4c, 0x4f, 0x47], rfl, by decide, by decide, by decide⟩
  | snapshot => exact ⟨[0x53, 0x4e, 0x41, 0x50], rfl, by decide, by decide, by decide⟩

/-- What stands in front of the records. -/
def preambleOf (type : LogType) (lines : List Bytes) (crlf : Bool) : Bytes :=
  type.magic ++ (logVersion ++ preambleLines lines crlf)

/-- The log that has been opened, in front of its records. -/
def openedLog (type : LogType) (preamble body : Bytes) : Log :=
  { type
    fd := { bytes := preamble ++ body, pos := preamble.length }
    offset := preamble.length }

theorem openedLog_pos (type : LogType) (preamble body : Bytes) :
    (openedLog type preamble body).fd.pos = preamble.length := rfl

theorem beerLogOpen_preamble {type : LogType} (htype : type ≠ .none) {lines : List Bytes}
    (hplain : ∀ line ∈ lines, PreambleLine line) (crlf : Bool) (body : Bytes) :
    beerLogOpen type (some (preambleOf type lines crlf ++ body)) =
      .ok (openedLog type (preambleOf type lines crlf) body) := by
  obtain ⟨line, hmagic, hline, hfits, hstring⟩ := LogType.magic_line htype
  let file : LogFile := { bytes := preambleOf type lines crlf ++ body }
  have hrest : file.rest = type.magic ++ (logVersion ++ (preambleLines lines crlf ++ body)) := by
    simp [file, LogFile.rest, preambleOf]
  have hfirst : file.fgets 32 = (some type.magic, file.advance type.magic.length) := by
    rw [hmagic] at hrest ⊢
    exact LogFile.fgets_line hrest hline hfits
  have hrest' := LogFile.rest_advance hrest
  have hsecond : (file.advance type.magic.length).fgets 32 =
      (some logVersion, file.advance (type.magic.length + logVersion.length)) := by
    rw [← LogFile.advance_advance]
    exact @LogFile.fgets_line _ [0x30, 0x2e, 0x31, 0x31] _ 32 hrest' (by decide) (by decide)
  have hrest'' := LogFile.rest_advance hrest'
  rw [LogFile.advance_advance] at hrest''
  have hfuel := length_lt_preambleLines lines crlf
  have hskip := skipPreamble_lines hplain crlf
    (show lines.length <
      (file.advance (type.magic.length + logVersion.length)).rest.length + 1 by
        rw [hrest'', List.length_append]; omega) hrest''
  have hversion : cString logVersion = logVersion := by decide
  have hpos : type.magic.length + logVersion.length + (preambleLines lines crlf).length =
      (preambleOf type lines crlf).length := by
    simp [preambleOf, Nat.add_assoc]
  rw [LogFile.advance_advance, hpos] at hskip
  unfold beerLogOpen
  simp only [show ({ bytes := preambleOf type lines crlf ++ body } : LogFile) = file from rfl,
    hfirst, hsecond, hstring, hversion, ne_eq, not_true_eq_false, if_false, hskip, ok_bind, pure_eq]
  simp [file, openedLog, LogFile.advance, LogFile.ftello]

end Opening

/-- What a call behind the last record has to return: the end of the log, or an error where other
bytes stand in the place of the end marker. -/
def EndReported (final : Bytes) (result : LogRead) (error : LogError) : Prop :=
  if final = [] ∨ final = eofMarker then result = .eof ∧ error = .eok
  else result = .failed ∧ error = .ecorrupt

/-- The end is reported so if the log has no record, or else if the end marker follows, or nothing
follows data that cannot be taken for it. -/
def EndSeen {crc32c : UInt32 → Bytes → UInt32} (records : List (LogRecord crc32c))
    (final : Bytes) : Prop :=
  if final = [] then ∀ last ∈ records.getLast?, last.data.length ≠ 4 ∨ last.data = eofMarker
  else records = [] ∨ final = eofMarker

theorem lastData_eq_nil_iff {crc32c : UInt32 → Bytes → UInt32}
    {records : List (LogRecord crc32c)} : lastData records [] = [] ↔ records = [] := by
  unfold lastData
  cases hlast : records.getLast? with
  | none => simp [List.getLast?_eq_none_iff.mp hlast]
  | some last =>
      have hne : records ≠ [] := fun h => by simp [h] at hlast
      have hdata : last.data ≠ [] := List.ne_nil_of_length_pos last.data_pos
      simp [hne, hdata]

theorem lastData_taken_iff {crc32c : UInt32 → Bytes → UInt32} {records : List (LogRecord crc32c)} :
    (∀ last ∈ records.getLast?, last.data.length ≠ 4 ∨ last.data = eofMarker) ↔
      ¬((lastData records []).length = 4 ∧ lastData records [] ≠ eofMarker) := by
  unfold lastData
  rw [not_and_or, not_ne_iff]
  cases records.getLast? with
  | none => simp
  | some last => simp

/-- What is reported, where the bytes behind the saved offset are taken for the end marker. -/
theorem endReported_iff {crc32c : UInt32 → Bytes → UInt32} {records : List (LogRecord crc32c)}
    {final : Bytes} {result : LogRead} {error : LogError} (hfinal : final = [] ∨ final.length = 4)
    (hstatus : (result, error) =
      if (lastData records [] ++ final).length = 4 ∧ lastData records [] ++ final ≠ eofMarker then
        (.failed, .ecorrupt)
      else (.eof, .eok)) :
    EndReported final result error ↔ EndSeen records final := by
  unfold EndReported EndSeen
  rcases hfinal with rfl | hlength
  · rw [if_pos (.inl rfl), if_pos rfl, lastData_taken_iff]
    rw [List.append_nil] at hstatus
    split at hstatus
    · next htaken =>
        cases hstatus
        simp [htaken]
    · next hleft =>
        cases hstatus
        simpa using hleft
  · have hne : final ≠ [] := List.ne_nil_of_length_eq_add_one hlength
    have htaken : (lastData records [] ++ final).length = 4 ↔ records = [] := by
      rw [← lastData_eq_nil_iff, List.length_append, hlength, ← List.length_eq_zero_iff]
      omega
    rw [if_neg hne]
    by_cases hrecords : records = []
    · have hdata : lastData records [] = [] := lastData_eq_nil_iff.mpr hrecords
      rw [hdata, List.nil_append] at hstatus
      by_cases heof : final = eofMarker
      · rw [if_neg (fun h => h.2 heof)] at hstatus
        cases hstatus
        simp [heof]
      · rw [if_pos ⟨hlength, heof⟩] at hstatus
        cases hstatus
        simp [hne, heof, hrecords]
    · rw [if_neg (fun h => hrecords (htaken.mp h.1))] at hstatus
      cases hstatus
      by_cases heof : final = eofMarker
      · simp [heof]
      · simp [hne, heof, hrecords]

theorem Log.Behind.endReported_iff {crc32c : UInt32 → Bytes → UInt32} {alloc : Nat → Bool} {l : Log}
    {records : List (LogRecord crc32c)} {final : Bytes}
    (h : l.Behind [] (records.flatMap LogRecord.bytes ++ final)) (herror : l.error = .eok)
    (halloc : ∀ r ∈ records, alloc r.data.length = true)
    (hfinal : final = [] ∨ final.length = 4 ∧ final ≠ rowMarker) :
    let next := beerLogRead crc32c alloc (logAfter crc32c alloc records.length l)
    EndReported final next.1 next.2.error ↔ EndSeen records final := by
  obtain ⟨hbehind, herror'⟩ := logAfter_records records halloc h
  have hstatus := @Log.Behind.end_status crc32c alloc _ _ _ hbehind hfinal
  rw [herror', herror] at hstatus
  exact BeeC.endReported_iff (hfinal.imp_right And.left) hstatus

/-- The records are returned, and what is reported behind the last one is right exactly where the end
is seen. -/
theorem beerLogRead_end_iff {crc32c : UInt32 → Bytes → UInt32} {alloc : Nat → Bool}
    {type : LogType} {preamble final : Bytes} {l : Log} (records : List (LogRecord crc32c))
    (hopen : beerLogOpen type (some (preamble ++ (records.flatMap LogRecord.bytes ++ final))) = .ok l)
    (hpos : l.fd.pos = preamble.length) (halloc : ∀ r ∈ records, alloc r.data.length = true)
    (hfinal : final = [] ∨ final.length = 4 ∧ final ≠ rowMarker) :
    (∀ i (hi : i < records.length), (beerLogRead crc32c alloc (logAfter crc32c alloc i l)).1 =
        .record records[i].data records[i].hdr.len) ∧
      let next := beerLogRead crc32c alloc (logAfter crc32c alloc records.length l)
      (EndReported final next.1 next.2.error ↔ EndSeen records final) := by
  have hbehind := beerLogOpen_behind hopen hpos
  exact ⟨logAfter_returned records halloc hbehind,
    hbehind.endReported_iff (beerLogOpen_ok hopen).2.2 halloc hfinal⟩

def sampleLog (final : Bytes) : Log :=
  openedLog .xlog (preambleOf .xlog [] false) ([sampleRecord].flatMap LogRecord.bytes ++ final)

theorem sampleLog_open (final : Bytes) :
    beerLogOpen .xlog (some (preambleOf .xlog [] false ++
      ([sampleRecord].flatMap LogRecord.bytes ++ final))) = .ok (sampleLog final) :=
  beerLogOpen_preamble (by decide) (fun _ h => absurd h List.not_mem_nil) false _

theorem eofMarker_ne_rowMarker : eofMarker.length = 4 ∧ eofMarker ≠ rowMarker := by decide

theorem beerLogRead_end_sample :
    (∀ i (hi : i < [sampleRecord].length), (beerLogRead castagnoli (fun _ => true)
        (logAfter castagnoli (fun _ => true) i (sampleLog eofMarker))).1 =
      .record [sampleRecord][i].data [sampleRecord][i].hdr.len) ∧
      let next := beerLogRead castagnoli (fun _ => true)
        (logAfter castagnoli (fun _ => true) [sampleRecord].length (sampleLog eofMarker))
      (EndReported eofMarker next.1 next.2.error ↔ EndSeen [sampleRecord] eofMarker) :=
  beerLogRead_end_iff [sampleRecord] (sampleLog_open eofMarker) (openedLog_pos _ _ _)
    (fun _ _ => rfl) (.inr eofMarker_ne_rowMarker)

/-- Four zero bytes behind a record, in the place of the end marker: the end is reported. -/
theorem beerLogRead_end_unseen :
    let next := beerLogRead castagnoli (fun _ => true)
      (logAfter castagnoli (fun _ => true) [sampleRecord].length (sampleLog [0, 0, 0, 0]))
    next.1 = .eof ∧ next.2.error = .eok ∧ ¬EndReported [0, 0, 0, 0] next.1 next.2.error := by
  have hopen := sampleLog_open [0, 0, 0, 0]
  have hbehind := beerLogOpen_behind hopen (openedLog_pos _ _ _)
  obtain ⟨hlast, herror⟩ := @logAfter_records castagnoli (fun _ => true) _ _ [sampleRecord] _
    (fun _ _ => rfl) hbehind
  have hstatus := @Log.Behind.end_status castagnoli (fun _ => true) _ _ _ hlast (.inr (by decide))
  have hdata : lastData [sampleRecord] [] = [1] := rfl
  rw [hdata, if_neg (by decide), herror, (beerLogOpen_ok hopen).2.2] at hstatus
  obtain ⟨hresult, hstill⟩ := Prod.mk.inj hstatus
  have hnot : ¬([0, 0, 0, 0] = ([] : Bytes) ∨ [0, 0, 0, 0] = eofMarker) := by decide
  refine ⟨hresult, hstill, ?_⟩
  rw [EndReported, if_neg hnot, hresult]
  exact fun h => by cases h.1

end BeeC
