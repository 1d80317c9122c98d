import BeeC.ReplySafety

namespace BeeC

open BeeC.Wire.BigEndian
open BeeC.Wire.MessagePack
open BeeC.Wire.Loop

/-- A source that does not fail: asked for bytes that are still to come, it hands over the next
ones, and goes on behind them. -/
def Supplies {σ : Type} (rcv : Nat → σ → Option Bytes × σ) (upcoming : σ → Bytes) : Prop :=
  ∀ size ptr, size ≤ (upcoming ptr).length →
    (rcv size ptr).1 = some ((upcoming ptr).take size) ∧
      upcoming (rcv size ptr).2 = (upcoming ptr).drop size

theorem supplies_beerReplyCb : Supplies beerReplyCb id := fun _ _ _ => ⟨rfl, rfl⟩

theorem Reply.mark_alloc {r r' : Reply} {key : UInt32} (h : r.mark key = .ok r') :
    r'.alloc = r.alloc := by
  unfold Reply.mark at h
  split at h
  · cases h
    rfl
  · cases h

section Alloc

variable {mp : Msgpuck}

theorem headerPair_alloc {s s' : Reply × Bytes} (h : headerPair mp s = .ok s') :
    s'.1.alloc = s.1.alloc := by
  unfold headerPair at h
  obtain ⟨-, -, h⟩ := bind_eq_ok.mp h
  obtain ⟨⟨key, p⟩, -, h⟩ := bind_eq_ok.mp h
  obtain ⟨-, -, h⟩ := bind_eq_ok.mp h
  dsimp only at h
  have hvalue : ∀ set : UInt64 → Reply, (∀ value, (set value).alloc = s.1.alloc) →
      (do
        expect mp .uint p
        let found ← mp.decodeUint p
        let r ← Reply.mark (set found.1) key.toUInt32
        return (r, found.2) : Except Stop (Reply × Bytes)) = .ok s' →
      s'.1.alloc = s.1.alloc := by
    intro set hset h
    obtain ⟨-, -, h⟩ := bind_eq_ok.mp h
    obtain ⟨found, -, h⟩ := bind_eq_ok.mp h
    obtain ⟨r, hmark, h⟩ := bind_eq_ok.mp h
    cases h
    exact (Reply.mark_alloc hmark).trans (hset found.1)
  split at h
  · exact hvalue (fun value => { s.1 with sync := value }) (fun _ => rfl) h
  split at h
  · exact hvalue (fun value => { s.1 with code := value }) (fun _ => rfl) h
  split at h
  · exact hvalue (fun value => { s.1 with schemaId := value }) (fun _ => rfl) h
  · cases h

theorem bodyPair_alloc {size : Nat} {s s' : Reply × Bytes} (h : bodyPair mp size s = .ok s') :
    s'.1.alloc = s.1.alloc := by
  unfold bodyPair at h
  obtain ⟨⟨key, p⟩, -, h⟩ := bind_eq_ok.mp h
  dsimp only at h
  split at h
  · obtain ⟨-, -, h⟩ := bind_eq_ok.mp h
    obtain ⟨⟨elen, p'⟩, -, h⟩ := bind_eq_ok.mp h
    obtain ⟨rest, -, h⟩ := bind_eq_ok.mp h
    obtain ⟨r, hmark, h⟩ := bind_eq_ok.mp h
    cases h
    exact (Reply.mark_alloc hmark).trans rfl
  split at h
  · obtain ⟨-, -, h⟩ := bind_eq_ok.mp h
    obtain ⟨rest, -, h⟩ := bind_eq_ok.mp h
    obtain ⟨r, hmark, h⟩ := bind_eq_ok.mp h
    cases h
    exact (Reply.mark_alloc hmark).trans rfl
  · obtain ⟨r, hmark, h⟩ := bind_eq_ok.mp h
    cases h
    exact Reply.mark_alloc hmark

theorem decodePayload_alloc {r : Reply} {buf : Bytes} {out : Int × Reply}
    (h : decodePayload mp r buf = .ok out) : out.2.alloc = r.alloc := by
  obtain ⟨⟨n, p⟩, -, h⟩ := bind_eq_ok.mp h
  obtain ⟨⟨r', p'⟩, hheader, h⟩ := bind_eq_ok.mp h
  have halloc : r'.alloc = r.alloc :=
    @loop_preserves _ _ _ (fun s => s.1.alloc = r.alloc)
      (fun _ _ hs hstep => (headerPair_alloc hstep).trans hs) _ _ _ rfl hheader
  have hend : ¬buf.length - p'.length = buf.length + 5 := by omega
  simp only [if_neg hend] at h
  obtain ⟨⟨m, p''⟩, -, h⟩ := bind_eq_ok.mp h
  obtain ⟨⟨r'', rest⟩, hbody, h⟩ := bind_eq_ok.mp h
  cases h
  exact @loop_preserves _ _ _ (fun s => s.1.alloc = r.alloc)
    (fun _ _ hs hstep => (bodyPair_alloc hstep).trans hs) _ _ _ halloc hbody

end Alloc

section Stream

variable {mp : Msgpuck} {σ : Type} {rcv : Nat → σ → Option Bytes × σ} {upcoming : σ → Bytes}
variable {ptr : σ} {payload rest : Bytes}

theorem Supplies.delivers (h : Supplies rcv upcoming)
    (hupcoming : upcoming ptr = frame payload ++ rest) :
    ∃ ptr', Delivers rcv ptr payload ptr' ∧ upcoming ptr' = rest := by
  have hfront : (0xce :: store 4 payload.length).length = 5 := by simp
  have hsplit : upcoming ptr = 0xce :: store 4 payload.length ++ (payload ++ rest) := by
    rw [hupcoming, frame, List.append_assoc]
  obtain ⟨hfirst, hbetween⟩ := h 5 ptr (by
    rw [hsplit, List.length_append, hfront]
    omega)
  rw [hsplit, List.take_left' hfront] at hfirst
  rw [hsplit, List.drop_left' hfront] at hbetween
  obtain ⟨hsecond, hafter⟩ := h payload.length (rcv 5 ptr).2 (by
    rw [hbetween, List.length_append]
    omega)
  rw [hbetween, List.take_left] at hsecond
  rw [hbetween, List.drop_left] at hafter
  exact ⟨_, ⟨(rcv 5 ptr).2, Prod.ext hfirst rfl, Prod.ext hsecond rfl⟩, hafter⟩

theorem beerReplyFrom_supplied (hmp : mp.Lawful) (hsource : Supplies rcv upcoming)
    (hlength : payload.length < 2 ^ 32) (hupcoming : upcoming ptr = frame payload ++ rest)
    (r : Reply) :
    (beerReplyFrom mp rcv r ptr).1 =
        Reply.finish r.alloc (if payload.length = 0 then .error .fail
          else decodePayload mp (Reply.loaded r.alloc payload) payload) ∧
      upcoming (beerReplyFrom mp rcv r ptr).2 = rest := by
  obtain ⟨ptr', hdelivers, hafter⟩ := hsource.delivers hupcoming
  by_cases hempty : payload.length = 0
  · obtain rfl := List.length_eq_zero_iff.mp hempty
    obtain ⟨between, hfront, hnothing⟩ := hdelivers
    have hdecode := @decodeLength_front mp hmp 0 (by decide)
    have hbetween : upcoming between = rest := by
      obtain ⟨-, hsame⟩ := hsource 0 between (Nat.zero_le _)
      rw [← hafter, ← congrArg (fun out => upcoming out.2) hnothing]
      exact hsame.symm
    rw [List.length_nil] at hfront
    simp only [beerReplyFrom, hfront, hdecode, ite_true, hbetween, and_true]
    rfl
  · have hread := beerReplyFrom_delivers hmp hdelivers (Nat.pos_of_ne_zero hempty) hlength r
    rw [hread, if_neg hempty]
    exact ⟨rfl, hafter⟩

theorem finish_decodePayload {r r' : Reply} {buf : Bytes} {rc : Int}
    (h : Reply.finish r.alloc (decodePayload mp (Reply.loaded r.alloc buf) buf) = .ok (rc, r')) :
    r'.alloc = r.alloc ∧ (rc = -1 → r' = Reply.init r.alloc) := by
  cases hdecode : decodePayload mp (Reply.loaded r.alloc buf) buf with
  | ok out =>
      rw [hdecode] at h
      cases h
      refine ⟨(decodePayload_alloc hdecode).trans rfl, fun hrc => ?_⟩
      exact absurd ((decodePayload_result hdecode).symm.trans hrc) (by decide)
  | error stop =>
      rw [hdecode] at h
      cases stop with
      | fail =>
          cases h
          exact ⟨rfl, fun _ => rfl⟩
      | fault reason => cases h

/-- A frame whose decoding stays defined is taken off the source, neither more nor less. Its
result is zero or -1, which resets the reply, and the next frame is decoded as if it was the
first one. -/
theorem beerReplyFrom_in_step (hmp : mp.Lawful) (hsource : Supplies rcv upcoming)
    (hpos : 0 < payload.length) (hlength : payload.length < 2 ^ 32)
    (hsafe : SafePayload payload) (hupcoming : upcoming ptr = frame payload ++ rest) (r : Reply) :
    ∃ rc r' ptr', beerReplyFrom mp rcv r ptr = (.ok (rc, r'), ptr') ∧ upcoming ptr' = rest ∧
      (rc = 0 ∨ rc = -1) ∧ (rc = -1 → r' = Reply.init r.alloc) ∧
      ∀ next more, next.length < 2 ^ 32 → rest = frame next ++ more →
        (beerReplyFrom mp rcv r' ptr').1 =
            (beerReplyFrom mp beerReplyCb r (frame next ++ more)).1 ∧
          upcoming (beerReplyFrom mp rcv r' ptr').2 = more := by
  obtain ⟨hresult, hafter⟩ := beerReplyFrom_supplied hmp hsource hlength hupcoming r
  obtain ⟨ptr', hdelivers, -⟩ := hsource.delivers hupcoming
  obtain ⟨rc, r', hfinish, hrc⟩ :=
    (beerReplyFrom_finishes_iff hmp hdelivers hpos hlength r).mpr hsafe
  rw [hfinish, if_neg (Nat.ne_of_gt hpos)] at hresult
  obtain ⟨halloc, hinit⟩ := finish_decodePayload hresult.symm
  refine ⟨rc, r', (beerReplyFrom mp rcv r ptr).2, Prod.ext hfinish rfl, hafter, hrc, hinit, ?_⟩
  intro next more hnext hrest
  obtain ⟨hfollowing, hmore⟩ := beerReplyFrom_supplied hmp hsource hnext (hafter.trans hrest) r'
  have hfirst := (@beerReplyFrom_supplied _ _ _ _ (frame next ++ more) _ _ hmp
    supplies_beerReplyCb hnext rfl r).1
  rw [halloc] at hfollowing
  exact ⟨hfollowing.trans hfirst.symm, hmore⟩

theorem beerReplyFrom_in_step_truncated :
    ∃ rc r' ptr', beerReplyFrom Msgpuck.reference beerReplyCb (Reply.init true)
        (frame [0x80, 0x81, 0x30] ++ frame [0x81, 0x01, 0x07, 0x80]) = (.ok (rc, r'), ptr') ∧
      id ptr' = frame [0x81, 0x01, 0x07, 0x80] ∧ (rc = 0 ∨ rc = -1) ∧
      (rc = -1 → r' = Reply.init true) ∧
      ∀ next more, next.length < 2 ^ 32 →
        frame [0x81, 0x01, 0x07, 0x80] = frame next ++ more →
        (beerReplyFrom Msgpuck.reference beerReplyCb r' ptr').1 =
            (beerReplyFrom Msgpuck.reference beerReplyCb (Reply.init true)
              (frame next ++ more)).1 ∧
          id (beerReplyFrom Msgpuck.reference beerReplyCb r' ptr').2 = more := by
  refine beerReplyFrom_in_step Msgpuck.reference_lawful supplies_beerReplyCb (by decide)
    (by decide) ?_ rfl (Reply.init true)
  intro header rest body tail hheader _ hbody
  have hsplit : mapOf [0x80, 0x81, 0x30] = some ([], [0x81, 0x30]) := by decide +kernel
  have hcut : mapOf [0x81, 0x30] = none := by decide +kernel
  rw [hsplit] at hheader
  cases hheader
  rw [hcut] at hbody
  cases hbody

end Stream

end BeeC
