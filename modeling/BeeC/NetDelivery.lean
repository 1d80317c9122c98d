import BeeC.IoReceive
import BeeC.Net
import BeeC.ReplyReading

namespace BeeC

open BeeC.Wire.BigEndian
open BeeC.Wire.MessagePack

variable {τ : Type} {t : Transport τ} {mp : Msgpuck}

theorem beerIobInit_readable (size : Int32) : (Iob.beerIobInit size).2.Readable := by
  unfold Iob.beerIobInit
  split
  · exact ⟨le_refl _, Nat.zero_le _⟩
  · split <;> exact ⟨le_refl _, Nat.zero_le _⟩

theorem beerInit_readable {n : Net τ} (h : n.rbuf.Readable) : (beerInit n).2.rbuf.Readable := by
  unfold beerInit
  dsimp only
  split
  · exact h
  · split <;> exact beerIobInit_readable n.opt.recvBuf

theorem beerNetRecvCb_spec (size : Nat) {n : Net τ} (h : n.rbuf.Readable) :
    ∃ rbuf link error heard, (beerNetRecvCb t size n).2 = { n with rbuf, link, error } ∧
      n.link.Hears heard link ∧ rbuf.Readable ∧
      (((beerNetRecvCb t size n).1 = none ∧ none ∈ heard) ∨
        ∃ stored, (beerNetRecvCb t size n).1 = some stored ∧ none ∉ heard ∧
          stored.length = size ∧ n.rbuf.unread ++ deliveries heard = stored ++ rbuf.unread) := by
  obtain ⟨rbuf, link, error, heard, hnet, hhears, hreadable, hends⟩ := beerIoRecv_spec t size h
  refine ⟨rbuf, link, error, heard, hnet, hhears, hreadable, ?_⟩
  unfold beerNetRecvCb
  rcases hends with ⟨hrc, hnone⟩ | ⟨hrc, hnone, hlength, hbytes⟩
  · exact .inl ⟨if_pos hrc, hnone⟩
  · have hne : (beerIoRecv t size n).1 ≠ -1 := fun h => natCast_ne_neg_one _ (hrc.symm.trans h)
    exact .inr ⟨_, if_neg hne, hnone, hlength, hbytes⟩

section Arrival

variable (base : Bytes)

/-- No read has failed, and what was there at first with what has been delivered is the start of
the peer's stream. -/
structure Fed (wire : Bytes) (l : Link τ) : Prop where
  unfailed : none ∉ l.heard
  arrived : base ++ deliveries l.heard <+: wire

/-- So many bytes of the peer's stream have been handed over, and the next ones are in the receive
buffer. -/
structure HandedOver (consumed : Bytes) (n : Net τ) : Prop where
  readable : n.rbuf.Readable
  arrived_eq : base ++ deliveries n.link.heard = consumed ++ n.rbuf.unread

variable {base}

theorem Fed.before {wire : Bytes} {l l' : Link τ} {heard : List (Option Bytes)}
    (hheard : l'.heard = l.heard ++ heard) (h : Fed base wire l') : Fed base wire l := by
  obtain ⟨hunfailed, harrived⟩ := h
  rw [hheard] at hunfailed harrived
  rw [deliveries_append, ← List.append_assoc] at harrived
  exact ⟨fun hnone => hunfailed (List.mem_append_left _ hnone),
    (List.prefix_append _ _).trans harrived⟩

/-- As long as the transport is fed, a read hands over the next bytes of the peer's stream. -/
theorem HandedOver.recv {consumed bytes rest : Bytes} {n : Net τ} (h : HandedOver base consumed n)
    (hfed : Fed base (consumed ++ (bytes ++ rest)) (beerNetRecvCb t bytes.length n).2.link) :
    (beerNetRecvCb t bytes.length n).1 = some bytes ∧
      HandedOver base (consumed ++ bytes) (beerNetRecvCb t bytes.length n).2 ∧
      (beerNetRecvCb t bytes.length n).2.wrcnt = n.wrcnt := by
  obtain ⟨rbuf, link, error, heard, hnet, hhears, hreadable, hends⟩ :=
    @beerNetRecvCb_spec _ t bytes.length n h.readable
  rw [hnet] at hfed ⊢
  have hheard := hhears.heard_eq
  rcases hends with ⟨-, hnone⟩ | ⟨stored, hstored, -, hlength, hbytes⟩
  · refine absurd ?_ hfed.unfailed
    rw [hheard]
    exact List.mem_append_right _ hnone
  · have harrived : base ++ deliveries link.heard = consumed ++ (stored ++ rbuf.unread) := by
      rw [hheard, deliveries_append, ← List.append_assoc, h.arrived_eq, List.append_assoc, hbytes]
    have hfront : stored ++ rbuf.unread <+: bytes ++ rest := by
      have hwire := hfed.arrived
      rw [harrived] at hwire
      exact (List.prefix_append_right_inj consumed).mp hwire
    obtain ⟨more, hmore⟩ := hfront
    rw [List.append_assoc] at hmore
    have hsame : stored = bytes := (List.append_inj hmore hlength).1
    subst hsame
    exact ⟨hstored, ⟨hreadable, by rw [harrived, List.append_assoc]⟩, rfl⟩

/-- What reading one reply does to the stream is one call of the callback or two. -/
theorem beerReplyFrom_snd {σ : Type} (rcv : Nat → σ → Option Bytes × σ) (r : Reply) (ptr : σ) :
    (beerReplyFrom mp rcv r ptr).2 = (rcv 5 ptr).2 ∨
      ∃ size, (beerReplyFrom mp rcv r ptr).2 = (rcv size (rcv 5 ptr).2).2 := by
  unfold beerReplyFrom
  dsimp only
  split
  · rename_i between hrcv
    exact .inl (by rw [hrcv])
  · rename_i length between hrcv
    split
    · exact .inl (by rw [hrcv])
    · rename_i size hdecode
      split
      · exact .inl (by rw [hrcv])
      · refine .inr ⟨size, ?_⟩
        rw [hrcv]
        split <;> rename_i hrcv' <;> rw [hrcv']

theorem beerReplyFrom_second {σ : Type} {rcv : Nat → σ → Option Bytes × σ} {r : Reply}
    {ptr between : σ} {length : Nat} (hmp : mp.Lawful)
    (hrcv : rcv 5 ptr = (some (0xce :: store 4 length), between)) (hpos : 0 < length)
    (hlength : length < 2 ^ 32) :
    (beerReplyFrom mp rcv r ptr).2 = (rcv length between).2 := by
  have hdecode := decodeLength_front hmp hlength
  simp only [beerReplyFrom, hrcv, hdecode, hpos.ne', ite_false]
  split <;> rename_i hrcv' <;> rw [hrcv']

theorem beerNetRecvCb_hears (size : Nat) {n : Net τ} (h : n.rbuf.Readable) :
    ∃ heard, n.link.Hears heard (beerNetRecvCb t size n).2.link ∧
      (beerNetRecvCb t size n).2.rbuf.Readable := by
  obtain ⟨rbuf, link, error, heard, hnet, hhears, hreadable, -⟩ := @beerNetRecvCb_spec _ t size n h
  rw [hnet]
  exact ⟨heard, hhears, hreadable⟩

theorem HandedOver.reply (hmp : mp.Lawful) {consumed payload rest : Bytes} {n : Net τ}
    (h : HandedOver base consumed n) (hpayload : Decodes mp payload) (hwrcnt : n.wrcnt ≠ 0)
    (r : Reply)
    (hfed : Fed base (consumed ++ (frame payload ++ rest)) (beerNetReply t mp r n).2.link) :
    ∃ reply, (beerNetReply t mp r n).1 = .ok (0, reply) ∧
      (beerReplyFrom mp beerReplyCb r (frame payload)).1 = .ok (0, reply) ∧
      reply.buf = some payload ∧
      HandedOver base (consumed ++ frame payload) (beerNetReply t mp r n).2 ∧
      (beerNetReply t mp r n).2.wrcnt = n.wrcnt - 1 := by
  unfold beerNetReply at hfed ⊢
  rw [if_neg hwrcnt] at hfed ⊢
  have hfront : (0xce :: store 4 payload.length).length = 5 := by simp
  have h' : HandedOver base consumed { n with wrcnt := n.wrcnt - 1 } := ⟨h.readable, h.arrived_eq⟩
  obtain ⟨heard, hhears, hreadable⟩ := @beerNetRecvCb_hears _ t 5 _ h'.readable
  have hfed₁ : Fed base (consumed ++ (frame payload ++ rest))
      (beerNetRecvCb t 5 { n with wrcnt := n.wrcnt - 1 }).2.link := by
    rcases beerReplyFrom_snd (beerNetRecvCb t) r { n with wrcnt := n.wrcnt - 1 } with hsnd |
      ⟨size, hsnd⟩
    · rwa [hsnd] at hfed
    · obtain ⟨more, hmore, -⟩ := @beerNetRecvCb_hears _ t size _ hreadable
      rw [hsnd] at hfed
      exact hfed.before hmore.heard_eq
  rw [frame, List.append_assoc] at hfed₁
  obtain ⟨hlength, hbetween, hcount⟩ := h'.recv (by rw [hfront]; exact hfed₁)
  rw [hfront] at hlength hbetween hcount
  cases hrcv : beerNetRecvCb t 5 { n with wrcnt := n.wrcnt - 1 } with
  | mk out between =>
      rw [hrcv] at hlength hbetween hcount
      dsimp only at hlength hbetween hcount
      subst hlength
      have hfed₂ : Fed base (consumed ++ (0xce :: store 4 payload.length) ++ (payload ++ rest))
          (beerNetRecvCb t payload.length between).2.link := by
        rw [beerReplyFrom_second hmp hrcv (hpayload.length_pos hmp) hpayload.length_lt, frame] at hfed
        simpa only [List.append_assoc] using hfed
      obtain ⟨hsome, hafter, hcount'⟩ := hbetween.recv hfed₂
      have hdelivers : Delivers (beerNetRecvCb t) { n with wrcnt := n.wrcnt - 1 } payload
          (beerNetRecvCb t payload.length between).2 :=
        ⟨between, hrcv, Prod.ext hsome rfl⟩
      obtain ⟨reply, hreply, halone, hbuf⟩ := hpayload.delivers hmp hdelivers r
      rw [hreply]
      refine ⟨reply, rfl, halone, hbuf, ?_, hcount'.trans hcount⟩
      rwa [frame, ← List.append_assoc]

theorem beerNetReply_hears (r : Reply) {n : Net τ} (h : n.rbuf.Readable) :
    ∃ heard, n.link.Hears heard (beerNetReply t mp r n).2.link ∧
      (beerNetReply t mp r n).2.rbuf.Readable := by
  unfold beerNetReply
  split
  · exact ⟨[], .refl _, h⟩
  · obtain ⟨heard, hhears, hreadable⟩ :=
      @beerNetRecvCb_hears _ t 5 { n with wrcnt := n.wrcnt - 1 } h
    rcases beerReplyFrom_snd (beerNetRecvCb t) r { n with wrcnt := n.wrcnt - 1 } with hsnd |
      ⟨size, hsnd⟩
    · rw [hsnd]
      exact ⟨heard, hhears, hreadable⟩
    · obtain ⟨more, hmore, hreadable'⟩ := @beerNetRecvCb_hears _ t size _ hreadable
      rw [hsnd]
      exact ⟨heard ++ more, hhears.trans hmore, hreadable'⟩

theorem iterateFrom_succ (limit : Nat) (it : ReplyIter) (n : Net τ) :
    iterateFrom t mp (limit + 1) it n =
      match beerNetReply t mp (Reply.init false) n with
      | (.error reason, n) => (.error reason, n)
      | (.ok (rc, r), n) =>
          if rc = -1 then (.ok ⟨[], .fail, true⟩, n)
          else if rc = 1 then (.ok ⟨[], it.status, true⟩, n)
          else
            match iterateFrom t mp limit { it with r } n with
            | (.error reason, n) => (.error reason, n)
            | (.ok i, n) => (.ok { i with visited := r :: i.visited }, n) := by
  rw [iterateFrom, beerIterReplyNext]
  rcases beerNetReply t mp (Reply.init false) n with ⟨reason | ⟨rc, r⟩, n'⟩
  · rfl
  · by_cases hfail : rc = -1
    · simp only [if_pos hfail]
    · simp only [if_neg hfail]
      by_cases hdone : rc = 1
      · simp only [if_pos hdone, decide_eq_false (not_not.mpr hdone)]
      · rcases hrest : iterateFrom t mp limit { it with r } n' with ⟨reason | i, n''⟩ <;>
          simp only [if_neg hdone, decide_eq_true hdone, hrest]

theorem iterateFrom_snd (limit : Nat) (it : ReplyIter) (n : Net τ) :
    (iterateFrom t mp (limit + 1) it n).2 = (beerNetReply t mp (Reply.init false) n).2 ∨
      ∃ it', (iterateFrom t mp (limit + 1) it n).2 =
        (iterateFrom t mp limit it' (beerNetReply t mp (Reply.init false) n).2).2 := by
  rw [iterateFrom_succ]
  rcases beerNetReply t mp (Reply.init false) n with ⟨reason | ⟨rc, r⟩, n'⟩
  · exact .inl rfl
  · dsimp only
    split
    · exact .inl rfl
    · split
      · exact .inl rfl
      · refine .inr ⟨{ it with r }, ?_⟩
        split <;> rename_i heq <;> rw [heq]

theorem iterateFrom_hears (limit : Nat) (it : ReplyIter) {n : Net τ} (h : n.rbuf.Readable) :
    ∃ heard, n.link.Hears heard (iterateFrom t mp limit it n).2.link ∧
      (iterateFrom t mp limit it n).2.rbuf.Readable := by
  induction limit generalizing it n with
  | zero => exact ⟨[], .refl _, h⟩
  | succ limit ih =>
      obtain ⟨heard, hhears, hreadable⟩ := @beerNetReply_hears _ t mp (Reply.init false) n h
      rcases @iterateFrom_snd _ t mp limit it n with hsnd | ⟨it', hsnd⟩
      · rw [hsnd]
        exact ⟨heard, hhears, hreadable⟩
      · obtain ⟨more, hmore, hreadable'⟩ := ih it' hreadable
        rw [hsnd]
        exact ⟨heard ++ more, hhears.trans hmore, hreadable'⟩

theorem HandedOver.iterate (hmp : mp.Lawful) {limit : Nat} {it : ReplyIter}
    {consumed : Bytes} {payloads : List Bytes} {n : Net τ} (h : HandedOver base consumed n)
    (hpayloads : ∀ payload ∈ payloads, Decodes mp payload)
    (hcount : n.wrcnt.toNat ≤ payloads.length) (hlimit : n.wrcnt.toNat < limit)
    (hfed : Fed base (consumed ++ frames payloads) (iterateFrom t mp limit it n).2.link) :
    ∃ visited n', iterateFrom t mp limit it n = (.ok ⟨visited, it.status, true⟩, n') ∧
      List.Forall₂ (IsReplyOf mp (Reply.init false)) (payloads.take n.wrcnt.toNat) visited ∧
      HandedOver base (consumed ++ frames (payloads.take n.wrcnt.toNat)) n' ∧ n'.wrcnt = 0 := by
  induction limit generalizing it consumed payloads n with
  | zero => omega
  | succ limit ih =>
      by_cases hwrcnt : n.wrcnt = 0
      · refine ⟨[], n, ?_, by simp [hwrcnt], by simpa [hwrcnt, frames] using h, hwrcnt⟩
        simp [iterateFrom, beerIterReplyNext, beerNetReply, hwrcnt]
      · have hpos : 0 < n.wrcnt.toNat :=
          Nat.pos_of_ne_zero fun h0 => hwrcnt (UInt32.toNat_inj.mp h0)
        cases payloads with
        | nil => simp at hcount; omega
        | cons payload rest =>
            obtain ⟨heard, hhears, hreadable⟩ :=
              @beerNetReply_hears _ t mp (Reply.init false) n h.readable
            have hwire : frames (payload :: rest) = frame payload ++ frames rest := rfl
            have hfed₁ : Fed base (consumed ++ (frame payload ++ frames rest))
                (beerNetReply t mp (Reply.init false) n).2.link := by
              rcases @iterateFrom_snd _ t mp limit it n with hsnd | ⟨it', hsnd⟩
              · rwa [hsnd, hwire] at hfed
              · obtain ⟨more, hmore, -⟩ := @iterateFrom_hears _ t mp limit it' _ hreadable
                rw [hsnd, hwire] at hfed
                exact hfed.before hmore.heard_eq
            obtain ⟨reply, hreply, halone, hbuf, hnext, hless⟩ :=
              h.reply hmp (hpayloads payload List.mem_cons_self) hwrcnt (Reply.init false) hfed₁
            rw [iterateFrom_succ] at hfed ⊢
            rcases hout : beerNetReply t mp (Reply.init false) n with ⟨out, n'⟩
            rw [hout] at hreply hnext hless hfed
            dsimp only at hreply hnext hless
            subst hreply
            have hless : n'.wrcnt.toNat = n.wrcnt.toNat - 1 := by
              rw [hless, UInt32.toNat_sub_of_le _ _ (by rw [UInt32.le_iff_toNat_le]; exact hpos)]
              rfl
            have hstep : ¬((0 : Int) = -1) ∧ ¬((0 : Int) = 1) := by decide
            simp only [if_neg hstep.1, if_neg hstep.2] at hfed ⊢
            have hrest : Fed base (consumed ++ frame payload ++ frames rest)
                (iterateFrom t mp limit { it with r := reply } n').2.link := by
              rw [List.append_assoc, ← hwire]
              rcases hloop : iterateFrom t mp limit { it with r := reply } n' with
                ⟨reason | i, n''⟩
              all_goals
                rw [hloop] at hfed
                exact hfed
            rw [List.length_cons] at hcount
            obtain ⟨visited, n'', hloop, hvisited, hafter, hzero⟩ :=
              ih hnext (fun p hp => hpayloads p (List.mem_cons_of_mem _ hp)) (by omega) (by omega)
                hrest
            have htake : (payload :: rest).take n.wrcnt.toNat =
                payload :: rest.take n'.wrcnt.toNat := by
              obtain ⟨m, hm⟩ := Nat.exists_eq_succ_of_ne_zero hpos.ne'
              rw [hless, hm]
              rfl
            rw [hloop, htake]
            refine ⟨reply :: visited, n'', rfl, .cons ⟨halone, hbuf⟩ hvisited, ?_, hzero⟩
            rw [List.append_assoc] at hafter
            exact hafter

end Arrival

end BeeC
