import BeeC.Buf
import BeeC.ReplyReading

namespace BeeC

open BeeC.Wire.BigEndian
open BeeC.Wire.Encoding
open BeeC.Wire.Loop
open BeeC.Wire.MessagePack

/-- The check and the decoding of the length prefix in `beer_reply`. -/
def replyLength (mp : Msgpuck) (p : Bytes) : Except Stop UInt64 := do
  expect mp .uint p
  let (length, _) ← mp.decodeUint p
  return length

/-- `beer_reply`, on a buffer of its own size. Besides its result, it gives the offset if it is
set, and the reply object. -/
def beerReply (mp : Msgpuck) (r : Reply) (buf : Bytes) :
    Except Fault (Int × Option Nat × Reply) :=
  if buf.length < 5 then .ok (1, some (5 - buf.length), r)
  else
    match replyLength mp buf with
    | .error .fail => .ok (-1, none, r)
    | .error (.fault reason) => .error reason
    | .ok length =>
        if buf.length < (length + 5).toNat then
          .ok (1, some ((length + 5).toNat - buf.length), r)
        else
          match beerReplyFrom mp beerReplyCb r buf with
          | (.error reason, _) => .error reason
          | (.ok (rc, r), rest) => .ok (rc, some (buf.length - rest.length), r)

namespace Buf

/-- `beer_buf_reply`. -/
def reply (mp : Msgpuck) (r : Reply) (s : Buf) : Except Fault (Int × Reply × Buf) := do
  if s.data = none then return (-1, r, s)
  if s.size = s.rdoff then return (1, r, s)
  let (rc, off, r) ← beerReply mp r s.unread
  if rc = 0 then return (rc, r, { s with rdoff := s.rdoff + off.getD 0 })
  return (rc, r, s)

/-- One call after the other, each for a reply object of its own. -/
def replies (mp : Msgpuck) : List Reply → Buf → Except Fault (List (Int × Reply) × Buf)
  | [], s => .ok ([], s)
  | r :: rs, s => do
      let (rc, r, s) ← s.reply mp r
      let (more, s) ← replies mp rs s
      return ((rc, r) :: more, s)

/-- One write after the other. -/
def writes (s : Buf) (chunks : List Bytes) : Except Fault Buf :=
  chunks.foldlM (fun s chunk => (s.write chunk).map Prod.snd) s

end Buf

variable {mp : Msgpuck}

theorem replyLength_eq (hmp : mp.Lawful) {payload t : Bytes} (hlength : payload.length < 2 ^ 32)
    (ht : t <+: frame payload) (hfive : 5 ≤ t.length) (rest : Bytes) :
    replyLength mp (t ++ rest) = .ok (UInt64.ofNat payload.length) := by
  have hfront : (0xce :: store 4 payload.length).length = 5 := by simp
  obtain ⟨more, rfl⟩ : ∃ more, t = 0xce :: store 4 payload.length ++ more := by
    obtain ⟨more, hmore⟩ := List.prefix_of_prefix_length_le (List.prefix_append _ _) ht
      (by omega : (0xce :: store 4 payload.length).length ≤ t.length)
    exact ⟨more, hmore.symm⟩
  have hhead : head (0xce :: store 4 payload.length) = some (.uint payload.length, []) :=
    head_store .uint rfl (by omega)
  have hwhole := head_append hhead (more ++ rest)
  rw [List.nil_append] at hwhole
  rw [List.append_assoc]
  have hexpect : expect mp .uint (0xce :: store 4 payload.length ++ (more ++ rest)) = .ok () :=
    expect_eq hmp hwhole rfl
  simp only [replyLength, hexpect, Msgpuck.decodeUint_eq hmp hwhole, ok_bind, pure_eq]

theorem frameLength_toNat {payload : Bytes} (hlength : payload.length < 2 ^ 32) :
    (UInt64.ofNat payload.length + 5).toNat = (frame payload).length := by
  rw [length_frame, UInt64.toNat_add, UInt64.toNat_ofNat_of_lt' (lt_trans hlength (by decide))]
  exact Nat.mod_eq_of_lt (by
    have : (5 : UInt64).toNat = 5 := rfl
    omega)

/-- A part of a frame is not decoded, and told by what it lacks: of the length prefix first, and
then of the frame. -/
theorem beerReply_cut (hmp : mp.Lawful) {payload t : Bytes} (hlength : payload.length < 2 ^ 32)
    (ht : t <+: frame payload) (hcut : t.length < (frame payload).length) (r : Reply) :
    beerReply mp r t = .ok (1, some (if t.length < 5 then 5 - t.length
      else (frame payload).length - t.length), r) := by
  by_cases hfive : t.length < 5
  · rw [beerReply, if_pos hfive, if_pos hfive]
  · have hfront := replyLength_eq hmp hlength ht (not_lt.mp hfive) []
    rw [List.append_nil] at hfront
    simp only [beerReply, if_neg hfive, hfront, frameLength_toNat hlength, if_pos hcut]

theorem beerReply_whole (hmp : mp.Lawful) {payload : Bytes} (hlength : payload.length < 2 ^ 32)
    (rest : Bytes) (r : Reply) :
    beerReply mp r (frame payload ++ rest) =
      (beerReplyFrom mp beerReplyCb r (frame payload ++ rest)).1.map fun out =>
        (out.1, some ((frame payload ++ rest).length -
          (beerReplyFrom mp beerReplyCb r (frame payload ++ rest)).2.length), out.2) := by
  have hsize := length_frame payload
  have hfive : ¬(frame payload ++ rest).length < 5 := by
    rw [List.length_append]
    omega
  have henough : ¬(frame payload ++ rest).length < (frame payload).length := by
    rw [List.length_append]
    omega
  have hfront := replyLength_eq hmp hlength (List.prefix_refl _) (by omega) rest
  simp only [beerReply, if_neg hfive, hfront, frameLength_toNat hlength, if_neg henough]
  rcases beerReplyFrom mp beerReplyCb r (frame payload ++ rest) with ⟨reason | out, after⟩ <;> rfl

theorem beerReply_frame (hmp : mp.Lawful) {payload : Bytes} (h : Decodes mp payload)
    (rest : Bytes) (r : Reply) :
    ∃ reply, beerReply mp r (frame payload ++ rest) = .ok (0, some (frame payload).length, reply) ∧
      IsReplyOf mp r payload reply := by
  obtain ⟨reply, hreply, halone, hbuf⟩ := h.delivers hmp (delivers_beerReplyCb payload rest) r
  refine ⟨reply, ?_, halone, hbuf⟩
  rw [beerReply_whole hmp h.length_lt, hreply, List.length_append, Nat.add_sub_cancel]
  rfl

namespace Buf

theorem Sound.data_ne_none {s : Buf} (h : s.Sound) (hunread : s.unread ≠ []) :
    s.data ≠ none ∧ s.size ≠ s.rdoff := by
  have hlength := h.unread_length
  have hpos := List.length_pos_of_ne_nil hunread
  refine ⟨fun hnone => ?_, by omega⟩
  have halloc := h.length_eq
  have hsize := h.size_le
  rw [hnone, Option.getD_none, List.length_nil] at halloc
  omega

theorem Sound.reply_frame (hmp : mp.Lawful) {s : Buf} (h : s.Sound) {payload rest : Bytes}
    (hpayload : Decodes mp payload) (hunread : s.unread = frame payload ++ rest) (r : Reply) :
    ∃ reply, s.reply mp r =
        .ok (0, reply, { s with rdoff := s.rdoff + (frame payload).length }) ∧
      IsReplyOf mp r payload reply := by
  obtain ⟨hdata, hend⟩ := h.data_ne_none (by rw [hunread]; simp [frame])
  obtain ⟨reply, hreply, his⟩ := beerReply_frame hmp hpayload rest r
  refine ⟨reply, ?_, his⟩
  simp only [Buf.reply, if_neg hdata, if_neg hend, hunread, hreply, ok_bind, Option.getD_some,
    if_true, pure_eq]

theorem Sound.skip {s : Buf} (h : s.Sound) {taken rest : Bytes}
    (hunread : s.unread = taken ++ rest) :
    Sound { s with rdoff := s.rdoff + taken.length } ∧
      unread { s with rdoff := s.rdoff + taken.length } = rest := by
  have hlength := h.unread_length
  rw [hunread, List.length_append] at hlength
  have hrdoff := h.rdoff_le
  refine ⟨⟨h.length_eq, ?_, h.size_le⟩, ?_⟩
  · dsimp only
    omega
  · have hdrop : unread { s with rdoff := s.rdoff + taken.length } = s.unread.drop taken.length := by
      rw [unread, unread, List.drop_drop]
      rfl
    rw [hdrop, hunread, List.drop_left]

theorem Sound.reply_cut (hmp : mp.Lawful) {s : Buf} (h : s.Sound) (hdata : s.data ≠ none)
    {payload : Bytes} (hlength : payload.length < 2 ^ 32) (hpart : s.unread <+: frame payload)
    (hcut : s.unread.length < (frame payload).length) (r : Reply) :
    s.reply mp r = .ok (1, r, s) := by
  have hunread := h.unread_length
  by_cases hend : s.size = s.rdoff
  · simp only [Buf.reply, if_neg hdata, if_pos hend, pure_eq]
  · simp only [Buf.reply, if_neg hdata, if_neg hend, beerReply_cut hmp hlength hpart hcut r, ok_bind,
      pure_eq]
    rfl

theorem Sound.replies_frames (hmp : mp.Lawful) {s : Buf} (h : s.Sound) {payloads : List Bytes}
    {rest : Bytes} (hpayloads : ∀ payload ∈ payloads, Decodes mp payload)
    (hunread : s.unread = frames payloads ++ rest) {rs : List Reply}
    (hrs : rs.length = payloads.length) :
    ∃ decoded, s.replies mp rs =
        .ok (decoded, { s with rdoff := s.rdoff + (frames payloads).length }) ∧
      List.Forall₂ (fun p out => out.1 = 0 ∧ IsReplyOf mp p.1 p.2 out.2) (rs.zip payloads)
        decoded := by
  induction payloads generalizing s rs with
  | nil =>
      have hnil : rs = [] := List.length_eq_zero_iff.mp hrs
      subst hnil
      exact ⟨[], rfl, .nil⟩
  | cons payload payloads ih =>
      cases rs with
      | nil => simp at hrs
      | cons r rs =>
          have hfirst := hpayloads payload List.mem_cons_self
          have hsplit : s.unread = frame payload ++ (frames payloads ++ rest) := by
            rw [hunread, ← List.append_assoc]
            rfl
          obtain ⟨reply, hreply, his⟩ := h.reply_frame hmp hfirst hsplit r
          obtain ⟨hsound, hunread'⟩ := h.skip hsplit
          obtain ⟨decoded, hdecoded, hall⟩ := ih hsound
            (fun p hp => hpayloads p (List.mem_cons_of_mem _ hp)) hunread' (by simpa using hrs)
          refine ⟨(0, reply) :: decoded, ?_, .cons ⟨rfl, his⟩ hall⟩
          rw [replies, hreply]
          simp only [ok_bind, hdecoded, pure_eq, frames, List.map_cons, List.flatten_cons,
            List.length_append, Nat.add_assoc]

theorem Sound.writes_spec {s : Buf} (h : s.Sound) (has : s.as = false) (hsize : 0 < s.size)
    (chunks : List Bytes) :
    ∃ s', s.writes chunks = .ok s' ∧ s'.Sound ∧ s'.as = false ∧ s'.rdoff = s.rdoff ∧
      s'.contents = s.contents ++ chunks.flatten := by
  induction chunks generalizing s with
  | nil => exact ⟨s, rfl, h, has, rfl, by simp⟩
  | cons chunk chunks ih =>
      have hpos : 0 < (s.appended chunk).size := by
        simp only [Buf.appended]
        omega
      obtain ⟨s', hs', hsound, has', hrdoff, hcontents⟩ := ih (h.appended chunk) has hpos
      refine ⟨s', ?_, hsound, has', hrdoff, ?_⟩
      · rw [writes, List.foldlM_cons, h.write_eq has (.inr (by omega))]
        exact hs'
      · rw [hcontents, h.contents_appended, List.flatten_cons, List.append_assoc]

theorem Sound.unread_append {s s' : Buf} (h : s.Sound) {bytes : Bytes} (hrdoff : s'.rdoff = s.rdoff)
    (hcontents : s'.contents = s.contents ++ bytes) : s'.unread = s.unread ++ bytes := by
  have hle : s.rdoff ≤ s.contents.length := h.contents_length.symm ▸ h.rdoff_le
  rw [unread, hcontents, hrdoff, List.drop_append_of_le_length hle]
  rfl

end Buf

/-- A memory stream that holds frames and then a part of another gives one reply for each frame.
After that it asks for more, however often it is read, until the rest of the frame is there. -/
theorem replies_split (hmp : mp.Lawful) {payloads : List Bytes} {last t more : Bytes}
    (hpayloads : ∀ payload ∈ payloads, Decodes mp payload) (hlast : Decodes mp last)
    (hcut : t ++ more = frame last) (hmore : more ≠ []) {s : Buf} (hs : s.Sound)
    (has : s.as = false) (hunread : s.unread = frames payloads ++ t) (hne : s.unread ≠ [])
    {rs : List Reply} (hrs : rs.length = payloads.length) :
    ∃ decoded s', s.replies mp rs = .ok (decoded, s') ∧
      List.Forall₂ (fun p out => out.1 = 0 ∧ IsReplyOf mp p.1 p.2 out.2) (rs.zip payloads)
        decoded ∧
      (∀ further, s'.replies mp further = .ok (further.map fun r => (1, r), s')) ∧
      (∀ r, beerReply mp r t =
        .ok (1, some (if t.length < 5 then 5 - t.length else more.length), r)) ∧
      ∀ chunks after, chunks.flatten = more ++ after → ∀ r, ∃ s₁ reply s₂,
        s'.writes chunks = .ok s₁ ∧ s₁.reply mp r = .ok (0, reply, s₂) ∧
          IsReplyOf mp r last reply ∧ s₂.unread = after := by
  have hpart : t <+: frame last := ⟨more, hcut⟩
  have htotal : t.length + more.length = (frame last).length := by
    rw [← hcut, List.length_append]
  have hless : t.length < (frame last).length := by
    have := List.length_pos_of_ne_nil hmore
    omega
  obtain ⟨hdata, -⟩ := hs.data_ne_none hne
  have hsize : 0 < s.size := by
    have := List.length_pos_of_ne_nil hne
    have := hs.unread_length
    omega
  obtain ⟨decoded, hdecoded, hall⟩ := hs.replies_frames hmp hpayloads hunread hrs
  obtain ⟨hsound, hunread'⟩ := hs.skip hunread
  refine ⟨decoded, _, hdecoded, hall, fun further => ?_, fun r => ?_, ?_⟩
  · induction further with
    | nil => rfl
    | cons r further ih =>
        have hfirst := hsound.reply_cut hmp hdata hlast.length_lt (by rw [hunread']; exact hpart)
          (by rw [hunread']; exact hless) r
        rw [Buf.replies, hfirst]
        simp only [ok_bind, ih, pure_eq, List.map_cons]
  · have hmissing : (frame last).length - t.length = more.length := by omega
    rw [beerReply_cut hmp hlast.length_lt hpart hless, hmissing]
  · intro chunks after hchunks r
    obtain ⟨s₁, hs₁, hsound₁, -, hrdoff, hcontents⟩ := hsound.writes_spec has hsize chunks
    have hwhole : s₁.unread = frame last ++ after := by
      rw [hsound.unread_append hrdoff hcontents, hunread', hchunks, ← List.append_assoc, hcut]
    obtain ⟨reply, hreply, his⟩ := hsound₁.reply_frame hmp hlast hwhole r
    exact ⟨s₁, reply, _, hs₁, hreply, his, (hsound₁.skip hwhole).2⟩

theorem replies_split_written :
    ∃ decoded s', (beerBuf.appended (frame [0x82, 0, 0, 1, 7, 0x80] ++ [0xce, 0, 0])).replies
        Msgpuck.reference [Reply.init true] = .ok (decoded, s') ∧
      List.Forall₂ (fun p out => out.1 = 0 ∧ IsReplyOf Msgpuck.reference p.1 p.2 out.2)
        [(Reply.init true, [0x82, 0, 0, 1, 7, 0x80])] decoded ∧
      (∀ further, s'.replies Msgpuck.reference further =
        .ok (further.map fun r => (1, r), s')) ∧
      (∀ r, beerReply Msgpuck.reference r [0xce, 0, 0] = .ok (1, some 2, r)) ∧
      ∀ chunks after, chunks.flatten = [0, 6, 0x82, 0, 0, 1, 8, 0x80] ++ after → ∀ r,
        ∃ s₁ reply s₂, s'.writes chunks = .ok s₁ ∧
          s₁.reply Msgpuck.reference r = .ok (0, reply, s₂) ∧
          IsReplyOf Msgpuck.reference r [0x82, 0, 0, 1, 8, 0x80] reply ∧ s₂.unread = after := by
  refine @replies_split _ Msgpuck.reference_lawful [[0x82, 0, 0, 1, 7, 0x80]]
    [0x82, 0, 0, 1, 8, 0x80] [0xce, 0, 0] [0, 6, 0x82, 0, 0, 1, 8, 0x80] ?_
    ⟨by decide, Reply.init false, _, rfl⟩ (by decide) (by decide) _ (Buf.sound_beerBuf.appended _)
    rfl (by decide) (by decide) _ rfl
  intro payload hpayload
  obtain rfl := List.mem_singleton.mp hpayload
  exact ⟨by decide, Reply.init false, _, rfl⟩

end BeeC
