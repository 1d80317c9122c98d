import BeeC.Log

namespace BeeC

open BeeC.Wire
open BeeC.Wire.MessagePack
open BeeC.Wire.WindowSearch

theorem loadMarker_toNat {window : Bytes} (h : window.length = 4) :
    (loadMarker window).toNat = LittleEndian.load window := by
  have hlt := LittleEndian.load_lt window
  rw [h] at hlt
  rw [loadMarker, UInt32.toNat_ofNat']
  exact Nat.mod_eq_of_lt hlt

theorem loadMarker_slide {window : Bytes} (h : window.length = 4) (c : UInt8) :
    loadMarker (slide window c) = loadMarker window >>> 8 ||| c.toUInt32 <<< 24 := by
  have hne : window ≠ [] := List.ne_nil_of_length_eq_add_one h
  have hslide := loadMarker_toNat ((slide_length hne c).trans h)
  have hold := loadMarker_toNat h
  obtain ⟨a, others, rfl⟩ := List.exists_cons_of_ne_nil hne
  have hothers : others.length = 3 := Nat.succ.inj h
  have hlow := LittleEndian.load_lt others
  have hc : c.toNat < 256 := c.toNat_lt
  have ha : a.toNat < 256 := a.toNat_lt
  rw [hothers] at hlow
  rw [slide, List.tail_cons, LittleEndian.load_append, hothers] at hslide
  rw [LittleEndian.load] at hold
  apply UInt32.toNat.inj
  rw [UInt32.toNat_or, UInt32.toNat_shiftLeft, UInt32.toNat_shiftRight, UInt8.toNat_toUInt32,
    hold, slide, List.tail_cons, hslide]
  have hshift : (a.toNat + 256 * LittleEndian.load others) >>> 8 = LittleEndian.load others := by
    rw [Nat.shiftRight_eq_div_pow]
    omega
  have htop : c.toNat <<< 24 % 2 ^ 32 = c.toNat <<< 24 := by
    rw [Nat.shiftLeft_eq]
    exact Nat.mod_eq_of_lt (by omega)
  change _ = (a.toNat + 256 * LittleEndian.load others) >>> 8 ||| c.toNat <<< 24 % 2 ^ 32
  rw [hshift, htop, Nat.or_comm, ← Nat.shiftLeft_add_eq_or_of_lt hlow, Nat.shiftLeft_eq]
  simp only [LittleEndian.load]
  omega

/-- The marker in front of a record, as it is in the file. -/
def rowMarker : Bytes := LittleEndian.store 4 beerLogMarkerV11.toNat

theorem loadMarker_eq_iff {window : Bytes} (h : window.length = 4) (marker : UInt32) :
    loadMarker window = marker ↔ window = LittleEndian.store 4 marker.toNat := by
  constructor
  · rintro rfl
    rw [loadMarker_toNat h, ← h, LittleEndian.store_load]
  · rintro rfl
    rw [loadMarker, LittleEndian.load_store_of_lt marker.toNat_lt]
    exact UInt32.ofNat_toNat

theorem seekMarker_eq {window : Bytes} (h : window.length = 4) (fd : LogFile) (unread : Bytes) :
    seekMarker (loadMarker window) fd unread =
      ((seek rowMarker window unread).isSome,
        fd.advance ((seek rowMarker window unread).getD unread.length)) := by
  have hiff : loadMarker window = beerLogMarkerV11 ↔ window = rowMarker := loadMarker_eq_iff h _
  induction unread generalizing window fd with
  | nil =>
      rw [seekMarker, seek]
      by_cases hmarker : window = rowMarker
      · rw [if_pos hmarker, decide_eq_true (hiff.mpr hmarker)]
        rfl
      · rw [if_neg hmarker, decide_eq_false (mt hiff.mp hmarker)]
        rfl
  | cons c unread ih =>
      have hslide : (slide window c).length = 4 :=
        (slide_length (List.ne_nil_of_length_eq_add_one h) c).trans h
      rw [seekMarker, seek]
      by_cases hmarker : window = rowMarker
      · rw [if_pos (hiff.mpr hmarker), if_pos hmarker]
        rfl
      · rw [if_neg (mt hiff.mp hmarker), if_neg hmarker, ← loadMarker_slide h c,
          ih hslide _ (loadMarker_eq_iff hslide _)]
        cases seek rowMarker (slide window c) unread with
        | none => simp [Nat.add_comm]
        | some taken => simp [Nat.add_comm]

/-- A record with the checksums that belong to it. -/
structure LogRecord (crc32c : UInt32 → Bytes → UInt32) where
  hdr : LogHeader
  data : Bytes
  data_pos : 0 < data.length
  len_eq : hdr.len.toNat = data.length
  crc32_hdr : crc32c 0 (hdr.bytes.drop 4) = hdr.crc32Hdr
  crc32_data : crc32c 0 data = hdr.crc32Data

/-- The record in a file: the marker, the header and the data. -/
def LogRecord.bytes {crc32c : UInt32 → Bytes → UInt32} (r : LogRecord crc32c) : Bytes :=
  rowMarker ++ r.hdr.bytes ++ r.data

theorem LogHeader.bytes_drop_four (h : LogHeader) (crc : UInt32) :
    ({ h with crc32Hdr := crc } : LogHeader).bytes.drop 4 = h.bytes.drop 4 := by
  simp [LogHeader.bytes]

/-- The record of the data, with checksums that are computed for it. -/
def LogRecord.make (crc32c : UInt32 → Bytes → UInt32) (lsn tm : UInt64) (data : Bytes)
    (hpos : 0 < data.length) (hlen : data.length < 2 ^ 32) : LogRecord crc32c :=
  let hdr : LogHeader := { lsn, tm, len := .ofNat data.length, crc32Data := crc32c 0 data }
  { hdr := { hdr with crc32Hdr := crc32c 0 (hdr.bytes.drop 4) }
    data := data
    data_pos := hpos
    len_eq := Nat.mod_eq_of_lt hlen
    crc32_hdr := by rw [LogHeader.bytes_drop_four]
    crc32_data := rfl }

/-- A record, and bytes in front of it among which its marker is not found. -/
structure LogSegment (crc32c : UInt32 → Bytes → UInt32) where
  junk : Bytes
  record : LogRecord crc32c
  first : FirstAfter rowMarker junk

def LogSegment.bytes {crc32c : UInt32 → Bytes → UInt32} (s : LogSegment crc32c) : Bytes :=
  s.junk ++ s.record.bytes

/-- The position behind the header of the segment, for a segment at a position. -/
def LogSegment.headerEnd {crc32c : UInt32 → Bytes → UInt32} (s : LogSegment crc32c) (pos : Nat) :
    Nat :=
  pos + s.junk.length + rowMarker.length + LogHeader.size

section Reading

variable {crc32c : UInt32 → Bytes → UInt32} {alloc : Nat → Bool} {l : Log}

theorem beerLogReadData_record (r : LogRecord crc32c) {back : Bytes}
    (halloc : alloc r.data.length = true) (hhdr : l.hdr = r.hdr)
    (hrest : l.fd.rest = r.data ++ back) :
    beerLogReadData crc32c alloc l =
      (.record r.data r.hdr.len, { l with fd := l.fd.advance r.data.length }) := by
  unfold beerLogReadData
  rw [hhdr, r.len_eq, LogFile.fread_of_rest hrest r.data_pos]
  simp [r.crc32_hdr, r.crc32_data, halloc]

/-- The log after a segment has been read. -/
def Log.after (l : Log) (s : LogSegment crc32c) : Log :=
  { l with
    fd := l.fd.advance s.bytes.length
    currentOffset := l.fd.pos
    offset := s.headerEnd l.fd.pos
    hdr := s.record.hdr }

theorem beerLogRead_segment (s : LogSegment crc32c) {back : Bytes}
    (halloc : alloc s.record.data.length = true) (hrest : l.fd.rest = s.bytes ++ back) :
    beerLogRead crc32c alloc l = (.record s.record.data s.record.hdr.len, l.after s) := by
  have hstream : l.fd.rest =
      s.junk ++ rowMarker ++ (s.record.hdr.bytes ++ (s.record.data ++ back)) := by
    rw [hrest]
    simp [LogSegment.bytes, LogRecord.bytes]
  have hroom : 4 ≤ l.fd.rest.length := by
    rw [hstream]
    simp [rowMarker]
    omega
  -- the first window may hold a part of the marker
  obtain ⟨window, unread, hwindow, hlength⟩ :
      ∃ window unread, l.fd.rest = window ++ unread ∧ window.length = 4 :=
    ⟨_, _, (List.take_append_drop 4 _).symm, List.length_take_of_le hroom⟩
  have hfirst := LogFile.fread_of_rest hwindow (by omega)
  have hunread := LogFile.rest_advance hwindow
  rw [hlength] at hfirst hunread
  have hseek : seek rowMarker window unread = some s.junk.length :=
    seek_first s.first hlength (hwindow.symm.trans hstream)
  have hheader : (l.fd.advance (4 + s.junk.length)).rest =
      s.record.hdr.bytes ++ (s.record.data ++ back) := by
    have h := LogFile.rest_advance hstream
    rw [List.length_append, Nat.add_comm] at h
    exact h
  have hread := LogFile.fread_of_rest hheader (by simp [LogHeader.size])
  have hdata := LogFile.rest_advance hheader
  rw [LogHeader.bytes_length] at hread hdata
  have hmarker : seekMarker (loadMarker window) (l.fd.advance 4) unread =
      (true, l.fd.advance (4 + s.junk.length)) := by
    rw [seekMarker_eq hlength, hseek, LogFile.advance_advance]
    rfl
  have hhdr : LogHeader.ofBytes (s.record.hdr.bytes ++ l.hdr.bytes.drop LogHeader.size) =
      s.record.hdr := by
    rw [List.drop_of_length_le (by rw [LogHeader.bytes_length]), List.append_nil,
      LogHeader.ofBytes_bytes]
  unfold beerLogRead
  simp only [hfirst, hunread, hmarker, hread, LogHeader.bytes_length, hhdr, ne_eq,
    not_true_eq_false, if_false, Bool.not_true, Bool.false_eq_true]
  rw [beerLogReadData_record s.record halloc rfl hdata]
  have hend : 4 + s.junk.length + LogHeader.size + s.record.data.length = s.bytes.length := by
    simp [LogSegment.bytes, LogRecord.bytes, rowMarker]
    omega
  have hoffset : l.fd.pos + (4 + s.junk.length) + LogHeader.size = s.headerEnd l.fd.pos := by
    simp [LogSegment.headerEnd, rowMarker]
    omega
  simp only [Log.after, LogFile.advance_advance, LogFile.ftello, hend]
  rw [← hoffset, Nat.add_assoc]
  rfl

theorem beerLogEof_ne_record (l : Log) (buf : Bytes) (size : UInt32) :
    (beerLogEof l).1 ≠ .record buf size := by
  unfold beerLogEof
  dsimp only
  split
  · split
    · exact fun h => nomatch h
    · split <;> exact fun h => nomatch h
  · exact fun h => nomatch h

theorem beerLogRead_ne_record (hnowhere : ∀ place, ¬OccursAt rowMarker l.fd.rest place) (buf : Bytes)
    (size : UInt32) : (beerLogRead crc32c alloc l).1 ≠ .record buf size := by
  unfold beerLogRead
  by_cases hroom : l.fd.rest.length < 4
  · simp only [LogFile.fread_short hroom]
    exact beerLogEof_ne_record _ buf size
  · obtain ⟨window, unread, hwindow, hlength⟩ :
        ∃ window unread, l.fd.rest = window ++ unread ∧ window.length = 4 :=
      ⟨_, _, (List.take_append_drop 4 _).symm, List.length_take_of_le (Nat.le_of_not_lt hroom)⟩
    have hfirst := LogFile.fread_of_rest hwindow (by omega)
    have hunread := LogFile.rest_advance hwindow
    have hseek : seek rowMarker window unread = none :=
      seek_eq_none hlength (hwindow ▸ hnowhere)
    rw [hlength] at hfirst hunread
    simp only [hfirst, hunread, seekMarker_eq hlength, hseek]
    exact beerLogEof_ne_record _ buf size

theorem Log.after_rest (s : LogSegment crc32c) {back : Bytes}
    (hrest : l.fd.rest = s.bytes ++ back) : (l.after s).fd.rest = back :=
  LogFile.rest_advance hrest

theorem beerLogSeek_segment (s : LogSegment crc32c) {front back : Bytes}
    (halloc : alloc s.record.data.length = true)
    (hbytes : l.fd.bytes = front ++ (s.bytes ++ back)) :
    beerLogRead crc32c alloc (beerLogSeek l front.length) =
      (.record s.record.data s.record.hdr.len, (beerLogSeek l front.length).after s) := by
  apply beerLogRead_segment s halloc
  change l.fd.bytes.drop front.length = s.bytes ++ back
  rw [hbytes, List.drop_left]

end Reading

/-- A call of `beer_log_read`: the position of the file when it starts, what it returns, and the log
afterwards. -/
structure LogCall where
  start : Nat
  result : LogRead
  after : Log

/-- Successive calls of `beer_log_read`. -/
def logCalls (crc32c : UInt32 → Bytes → UInt32) (alloc : Nat → Bool) : Nat → Log → List LogCall
  | 0, _ => []
  | count + 1, l =>
      let (result, after) := beerLogRead crc32c alloc l
      { start := l.fd.ftello, result, after } :: logCalls crc32c alloc count after

/-- Where segments start that follow each other in a file. -/
def segmentStarts {crc32c : UInt32 → Bytes → UInt32} : Nat → List (LogSegment crc32c) → List Nat
  | _, [] => []
  | pos, s :: segments => pos :: segmentStarts (pos + s.bytes.length) segments

theorem logCalls_cons {crc32c : UInt32 → Bytes → UInt32} {alloc : Nat → Bool} {l : Log}
    (s : LogSegment crc32c) {back : Bytes} (count : Nat)
    (halloc : alloc s.record.data.length = true) (hrest : l.fd.rest = s.bytes ++ back) :
    logCalls crc32c alloc (count + 1) l =
      { start := l.fd.pos, result := .record s.record.data s.record.hdr.len, after := l.after s } ::
        logCalls crc32c alloc count (l.after s) := by
  rw [logCalls, beerLogRead_segment s halloc hrest]
  rfl

/-- Successive calls return the data of the records in their order, each with its header and with the
position at which the call has started. Where no marker is behind them, the next call returns no
record. -/
theorem logCalls_records {crc32c : UInt32 → Bytes → UInt32} {alloc : Nat → Bool}
    (segments : List (LogSegment crc32c)) (back : Bytes) (l : Log)
    (halloc : ∀ s ∈ segments, alloc s.record.data.length = true)
    (hrest : l.fd.rest = segments.flatMap LogSegment.bytes ++ back) :
    let calls := logCalls crc32c alloc segments.length l
    calls.map (fun call => (call.result, call.after.hdr)) =
        segments.map (fun s => (.record s.record.data s.record.hdr.len, s.record.hdr)) ∧
      calls.map LogCall.start = segmentStarts l.fd.pos segments ∧
      (∀ call ∈ calls, call.after.currentOffset = call.start) ∧
      ((∀ place, ¬OccursAt rowMarker back place) →
        ∃ next, logCalls crc32c alloc (segments.length + 1) l = calls ++ [next] ∧
          ∀ buf size, next.result ≠ .record buf size) := by
  induction segments generalizing l with
  | nil =>
      refine ⟨rfl, rfl, fun _ h => absurd h List.not_mem_nil, fun hnowhere => ⟨_, rfl, ?_⟩⟩
      exact beerLogRead_ne_record (hrest ▸ hnowhere)
  | cons s segments ih =>
      rw [List.flatMap_cons, List.append_assoc] at hrest
      obtain ⟨hresults, hstarts, hoffsets, hnext⟩ := ih (l.after s)
        (fun s' hs' => halloc s' (List.mem_cons_of_mem _ hs')) (l.after_rest s hrest)
      simp only [List.length_cons, logCalls_cons s _ (halloc s List.mem_cons_self) hrest,
        List.map_cons, segmentStarts]
      refine ⟨?_, ?_, ?_, fun hnowhere => ?_⟩
      · rw [hresults]
        rfl
      · rw [hstarts]
        rfl
      · intro call hcall
        rcases List.mem_cons.mp hcall with rfl | hcall
        · rfl
        · exact hoffsets call hcall
      · obtain ⟨next, hcalls, hnone⟩ := hnext hnowhere
        exact ⟨next, by rw [hcalls, List.cons_append], hnone⟩

/-- The checksum over one byte, with the reflected polynomial of Castagnoli. -/
def castagnoliByte (crc : UInt32) (b : UInt8) : UInt32 :=
  Nat.repeat (fun c => if c &&& 1 = 1 then c >>> 1 ^^^ 0x82f63b78 else c >>> 1) 8 (crc ^^^ b.toUInt32)

def castagnoli (crc : UInt32) (b : Bytes) : UInt32 := b.foldl castagnoliByte crc

-- the digits from one to nine
example : castagnoli 0xffffffff ((List.range' 0x31 9).map UInt8.ofNat) ^^^ 0xffffffff = 0xe3069283 := by
  decide +kernel

/-- A record of one byte. -/
def sampleRecord : LogRecord castagnoli := LogRecord.make castagnoli 1 0 [1] (by decide) (by decide)

/-- The record behind a part of its marker. -/
def partialMarker : LogSegment castagnoli where
  junk := [0xed, 0xab]
  record := sampleRecord
  first := by decide

/-- A record of two bytes behind three of its marker and another one. -/
def brokenMarker : LogSegment castagnoli where
  junk := [0xed, 0xab, 0x0b, 0xff]
  record := LogRecord.make castagnoli 2 0 [2, 3] (by decide) (by decide)
  first := by decide

theorem logCalls_records_partialMarker :
    let l : Log := { fd := { bytes := partialMarker.bytes ++ brokenMarker.bytes } }
    let calls := logCalls castagnoli (fun _ => true) 2 l
    calls.map (fun call => (call.result, call.after.hdr)) =
        [(.record [1] 1, sampleRecord.hdr), (.record [2, 3] 2, brokenMarker.record.hdr)] ∧
      calls.map LogCall.start = [0, 35] ∧
      (∀ call ∈ calls, call.after.currentOffset = call.start) ∧
      ∃ next, logCalls castagnoli (fun _ => true) 3 l = calls ++ [next] ∧
        ∀ buf size, next.result ≠ .record buf size := by
  obtain ⟨hresults, hstarts, hoffsets, hnext⟩ :=
    @logCalls_records castagnoli (fun _ => true) [partialMarker, brokenMarker] []
      { fd := { bytes := partialMarker.bytes ++ brokenMarker.bytes } } (fun _ _ => rfl)
      (by simp [LogFile.rest])
  refine ⟨hresults, hstarts, hoffsets, hnext fun place hoccurs => ?_⟩
  rw [OccursAt, List.drop_nil, List.prefix_nil] at hoccurs
  exact absurd hoccurs (by decide)

end BeeC
