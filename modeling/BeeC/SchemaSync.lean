import BeeC.SchemaReplies

namespace BeeC

open BeeC.Wire.MessagePack
open BeeC.Wire.Loop

variable {τ : Type} {t : Transport τ} {mp : Msgpuck}

theorem reloadReply_eq_none {l : Loading} {r : Reply} {next : Option Loading}
    (hsync : r.sync = 127 ∨ r.sync = 128) (h : reloadReply mp l r = .ok next) :
    next = none ↔ r.error.isSome := by
  unfold reloadReply at h
  rcases hsync with hsync | hsync
  · rw [if_pos hsync] at h
    split at h
    · rename_i herror
      cases h
      exact iff_of_true rfl herror
    · rename_i herror
      cases hadd : beerSchemaAddSpaces mp l.schema r with
      | error reason =>
          rw [hadd] at h
          cases h
      | ok out =>
          rw [hadd] at h
          cases h
          exact iff_of_false (Option.some_ne_none _) herror
  · have hother : ¬r.sync = 127 := by
      rw [hsync]
      decide
    rw [if_neg hother, if_pos hsync] at h
    split at h
    · rename_i herror
      cases h
      exact iff_of_true rfl herror
    · rename_i herror
      split at h
      · cases h
        exact iff_of_false (Option.some_ne_none _) herror
      · cases hadd : beerSchemaAddIndexes mp l.schema r with
        | error reason =>
            rw [hadd] at h
            cases h
        | ok out =>
            rw [hadd] at h
            cases h
            exact iff_of_false (Option.some_ne_none _) herror

theorem visit_left_eq_nil {l l' : Loading} {replies left : List Reply} {done : Bool}
    (hsync : ∀ r ∈ replies, r.sync = 127 ∨ r.sync = 128)
    (h : visit mp l replies = .ok (done, l', left)) :
    left = [] ↔ ∀ r ∈ replies.dropLast, r.error = none := by
  induction replies generalizing l with
  | nil =>
      cases h
      simp
  | cons r rs ih =>
      rw [visit] at h
      cases hturn : reloadReply mp l r with
      | error reason =>
          rw [hturn] at h
          cases h
      | ok next =>
          have hnone := reloadReply_eq_none (hsync r List.mem_cons_self) hturn
          rw [hturn, ok_bind] at h
          cases next with
          | none =>
              have herror : r.error ≠ none :=
                Option.ne_none_iff_isSome.mpr (hnone.mp rfl)
              have hleft : left = rs := by
                cases h
                rfl
              rw [hleft]
              cases rs with
              | nil => simp
              | cons r' rs => simp [herror]
          | some l₁ =>
              have herror : r.error = none := by
                by_contra hsome
                cases hnone.mpr (Option.ne_none_iff_isSome.mp hsome)
              have hrest := ih (fun r' hr' => hsync r' (List.mem_cons_of_mem _ hr')) h
              cases rs with
              | nil => simpa using hrest
              | cons r' rs => simpa [herror] using hrest

/-- Reloading the schema leaves the stream in step, exactly if the number of the next request fits
in 32 bits and no other reply comes after an error. Then the next reply is the one to the next
request. -/
theorem beerReloadSchema_inStep_iff (hmp : mp.Lawful) (garbage : Nat → UInt8)
    {base consumed later : Bytes} {payloads : List Bytes} {replies : List Reply}
    {s q s' : Session τ} {rc : Int} (hconnected : s.net.connected) (hwrcnt : s.net.wrcnt = 0)
    (h : HandedOver base consumed s.net)
    (hanswers : List.Forall₂ (IsAnswer mp) payloads replies)
    (hsync : ∀ r ∈ replies, r.sync = 127 ∨ r.sync = 128)
    (hquery : s.query t mp garbage = .ok q) (hcount : payloads.length = q.net.wrcnt.toNat)
    (hreload : beerReloadSchema t mp garbage s = .ok (rc, s'))
    (hfed : Fed base (consumed ++ (frames payloads ++ later)) s'.net.link) :
    ((s'.net.wrcnt = 0 ∧ HandedOver base (consumed ++ frames payloads) s'.net ∧
        s'.reqid = s.reqid) ↔
      s.reqid.toNat < 2 ^ 32 ∧ ∀ r ∈ replies.dropLast, r.error = none) ∧
    (s.reqid.toNat < 2 ^ 32 → (∀ r ∈ replies.dropLast, r.error = none) →
      ∀ iov payload rest r, (beerNetWritev t iov s'.net).1 ≠ -1 →
        later = frame payload ++ rest → Decodes mp payload →
        Fed base (consumed ++ (frames payloads ++ later))
          (beerNetReply t mp r (beerNetWritev t iov s'.net).2).2.link →
        ∃ reply, (beerNetReply t mp r (beerNetWritev t iov s'.net).2).1 = .ok (0, reply) ∧
          IsReplyOf mp r payload reply) := by
  obtain ⟨done, l, left, hvisit, hreqid, hleft, hle, hafter, -⟩ :=
    beerReloadSchema_spec hmp garbage hconnected hwrcnt h hanswers hquery hcount.ge hreload hfed
  rw [List.take_of_length_le (by rw [← hanswers.length_eq, hcount])] at hvisit
  have hall := visit_left_eq_nil hsync hvisit
  have hwrcnt' : s'.net.wrcnt = 0 ↔ left = [] := by
    rw [← UInt32.toNat_inj, hleft]
    exact List.length_eq_zero_iff
  have hreqid' : s'.reqid = s.reqid ↔ s.reqid.toNat < 2 ^ 32 := by
    rw [hreqid, ← UInt64.toNat_inj, UInt32.toNat_toUInt64, UInt64.toNat_toUInt32]
    omega
  have hhanded : left = [] → HandedOver base (consumed ++ frames payloads) s'.net := by
    rintro rfl
    rwa [List.length_nil, Nat.sub_zero, ← hcount, List.take_length] at hafter
  refine ⟨?_, ?_⟩
  · rw [hwrcnt', hreqid', ← hall]
    exact ⟨fun ⟨hnil, _, hlt⟩ => ⟨hlt, hnil⟩, fun ⟨hlt, hnil⟩ => ⟨hnil, hhanded hnil, hlt⟩⟩
  · intro _ herrors iov payload rest r haccepted hlater hpayload hfed'
    have hnil := hall.mpr herrors
    obtain ⟨hrc, hrbuf, hheard, hone⟩ := count_onlySends (@beerIoSendv_onlySends _ t iov s'.net)
    rw [← beerNetWritev] at hrc hrbuf hheard hone
    rw [← hrc, if_neg haccepted, hwrcnt'.mpr hnil] at hone
    obtain ⟨hreadable, harrived⟩ := hhanded hnil
    have hstart : HandedOver base (consumed ++ frames payloads) (beerNetWritev t iov s'.net).2 :=
      ⟨hrbuf ▸ hreadable, by rw [hrbuf, hheard]; exact harrived⟩
    rw [hlater, ← List.append_assoc] at hfed'
    obtain ⟨reply, hreply, halone, hbuf, -⟩ :=
      hstart.reply hmp hpayload (by rw [hone]; decide) r hfed'
    exact ⟨reply, hreply, halone, hbuf⟩

theorem beerReloadSchema_inStep_iff_answered :
    ∃ s', beerReloadSchema Script.transport .reference (fun _ => 0)
        (.answered 5 [noSpaces, noIndexes]) = .ok (0, s') ∧
      s'.net.wrcnt = 0 ∧ HandedOver [] (frames [noSpaces, noIndexes]) s'.net ∧ s'.reqid = 5 := by
  refine ⟨_, rfl, ?_⟩
  refine (@beerReloadSchema_inStep_iff _ Script.transport _ Msgpuck.reference_lawful (fun _ => 0)
    [] [] [] [noSpaces, noIndexes] [replyTo noSpaces, replyTo noIndexes]
    (.answered 5 [noSpaces, noIndexes]) _ _ 0 rfl rfl ⟨⟨by decide, by decide⟩, rfl⟩
    (.cons ⟨by decide, rfl, rfl⟩ (.cons ⟨by decide, rfl, rfl⟩ .nil)) (by decide) rfl rfl rfl
    ⟨by decide, by decide⟩).1.mpr ⟨by decide, by decide⟩

/-- The answer to the first query, with an error. -/
def spacesRefused : Bytes := [0x82, 0, 0xcd, 0x80, 0x0a, 1, 0x7f, 0x81, 0x31, 0xa1, 0x65]

/-- The old number of the next request does not fit in 32 bits; the first answer is an error. -/
theorem not_beerReloadSchema_inStep :
    (∃ s', beerReloadSchema Script.transport .reference (fun _ => 0)
        (.answered 0x100000000 [noSpaces, noIndexes]) = .ok (0, s') ∧ s'.reqid = 0) ∧
      ∃ s', beerReloadSchema Script.transport .reference (fun _ => 0)
        (.answered 5 [spacesRefused, noIndexes]) = .ok (-1, s') ∧ s'.net.wrcnt = 1 :=
  ⟨⟨_, rfl, by decide⟩, ⟨_, rfl, by decide⟩⟩

end BeeC
