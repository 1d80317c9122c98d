import Mathlib.Data.List.Forall2
import BeeC.DirectRoundTrip
import BeeC.NetExchange
import BeeC.SchemaReload
import BeeC.Script

namespace BeeC

open BeeC.Wire.MessagePack
open BeeC.Wire.Loop

variable {τ : Type} {t : Transport τ} {mp : Msgpuck}

theorem reloadFrom_succ (limit : Nat) (it : ReplyIter) (l : Loading) (n : Net τ) :
    reloadFrom t mp (limit + 1) it l n =
      match beerNetReply t mp (Reply.init false) n with
      | (.error reason, n) => (.error reason, n)
      | (.ok (rc, r), n) =>
          if rc = -1 ∨ rc = 1 then (.ok (true, l), n)
          else
            match reloadReply mp l r with
            | .error reason => (.error reason, n)
            | .ok none => (.ok (false, l), n)
            | .ok (some l) => reloadFrom t mp limit { it with r } l n := by
  rw [reloadFrom, beerIterReplyNext]
  rcases beerNetReply t mp (Reply.init false) n with ⟨reason | ⟨rc, r⟩, n'⟩
  · rfl
  · by_cases hfail : rc = -1
    · simp only [if_pos hfail, if_pos (Or.inl hfail : rc = -1 ∨ rc = 1)]
    · by_cases hdone : rc = 1
      · simp only [if_neg hfail, if_pos (Or.inr hdone : rc = -1 ∨ rc = 1),
          decide_eq_false (not_not.mpr hdone)]
      · rcases hnext : reloadReply mp l r with reason | (_ | l') <;>
          simp only [if_neg hfail, if_neg (not_or.mpr ⟨hfail, hdone⟩), decide_eq_true hdone, hnext]

theorem reloadFrom_snd (limit : Nat) (it : ReplyIter) (l : Loading) (n : Net τ) :
    (reloadFrom t mp (limit + 1) it l n).2 = (beerNetReply t mp (Reply.init false) n).2 ∨
      ∃ it' l', (reloadFrom t mp (limit + 1) it l n).2 =
        (reloadFrom t mp limit it' l' (beerNetReply t mp (Reply.init false) n).2).2 := by
  rw [reloadFrom_succ]
  rcases beerNetReply t mp (Reply.init false) n with ⟨reason | ⟨rc, r⟩, n'⟩
  · exact .inl rfl
  · dsimp only
    split
    · exact .inl rfl
    · rcases reloadReply mp l r with reason | (_ | l')
      · exact .inl rfl
      · exact .inl rfl
      · exact .inr ⟨_, l', rfl⟩

theorem reloadFrom_hears (limit : Nat) (it : ReplyIter) (l : Loading) {n : Net τ}
    (h : n.rbuf.Readable) :
    ∃ heard, n.link.Hears heard (reloadFrom t mp limit it l n).2.link := by
  induction limit generalizing it l n with
  | zero => exact ⟨[], .refl _⟩
  | succ limit ih =>
      obtain ⟨heard, hhears, hreadable⟩ := @beerNetReply_hears _ t mp (Reply.init false) n h
      rcases @reloadFrom_snd _ t mp limit it l n with hsnd | ⟨it', l', hsnd⟩
      · rw [hsnd]
        exact ⟨heard, hhears⟩
      · obtain ⟨more, hmore⟩ := ih it' l' hreadable
        rw [hsnd]
        exact ⟨heard ++ more, hhears.trans hmore⟩

variable (mp) in
/-- The loop over replies that are all there, with those that it leaves unread. -/
def visit : Loading → List Reply → Except Fault (Bool × Loading × List Reply)
  | l, [] => return (true, l, [])
  | l, r :: rs => do
      match ← reloadReply mp l r with
      | none => return (false, l, rs)
      | some l => visit l rs

variable (mp) in
/-- The payload is short enough to be framed, and read as the reply. -/
def IsAnswer (payload : Bytes) (reply : Reply) : Prop :=
  payload.length < 2 ^ 32 ∧ IsReplyOf mp (Reply.init false) payload reply

theorem IsAnswer.decodes {payload : Bytes} {reply : Reply} (h : IsAnswer mp payload reply) :
    Decodes mp payload :=
  ⟨h.1, _, _, h.2.1⟩

theorem HandedOver.reload (hmp : mp.Lawful) {base : Bytes} {limit : Nat} {it : ReplyIter}
    {l : Loading} {consumed later : Bytes} {payloads : List Bytes} {replies : List Reply}
    {n : Net τ} (h : HandedOver base consumed n)
    (hanswers : List.Forall₂ (IsAnswer mp) payloads replies)
    (hcount : n.wrcnt.toNat ≤ payloads.length) (hlimit : n.wrcnt.toNat < limit)
    (hfed : Fed base (consumed ++ (frames payloads ++ later))
      (reloadFrom t mp limit it l n).2.link) :
    match visit mp l (replies.take n.wrcnt.toNat) with
    | .error reason => (reloadFrom t mp limit it l n).1 = .error reason
    | .ok (done, l', left) =>
        ∃ n', reloadFrom t mp limit it l n = (.ok (done, l'), n') ∧
          n'.wrcnt.toNat = left.length ∧ left.length ≤ n.wrcnt.toNat ∧
          HandedOver base
            (consumed ++ frames (payloads.take (n.wrcnt.toNat - left.length))) n' := by
  induction limit generalizing it l consumed payloads replies n with
  | zero => omega
  | succ limit ih =>
      by_cases hwrcnt : n.wrcnt = 0
      · have hvisit : visit mp l (replies.take n.wrcnt.toNat) = .ok (true, l, []) := by
          simp [hwrcnt, visit]
        have hreload : reloadFrom t mp (limit + 1) it l n = (.ok (true, l), n) := by
          simp [reloadFrom_succ, beerNetReply, hwrcnt]
        rw [hvisit, hreload]
        exact ⟨n, rfl, by simp [hwrcnt], Nat.zero_le _, by simpa [hwrcnt, frames] using h⟩
      · have hpos : 0 < n.wrcnt.toNat :=
          Nat.pos_of_ne_zero fun h0 => hwrcnt (UInt32.toNat_inj.mp h0)
        cases hanswers with
        | nil => simp at hcount; omega
        | @cons payload reply payloads replies hanswer hanswers =>
            obtain ⟨heard, hhears, hreadable⟩ :=
              @beerNetReply_hears _ t mp (Reply.init false) n h.readable
            have hwire : frames (payload :: payloads) ++ later =
                frame payload ++ (frames payloads ++ later) := by
              simp [frames]
            have hfed₁ : Fed base (consumed ++ (frame payload ++ (frames payloads ++ later)))
                (beerNetReply t mp (Reply.init false) n).2.link := by
              rw [hwire] at hfed
              rcases @reloadFrom_snd _ t mp limit it l n with hsnd | ⟨it', l', hsnd⟩
              · rwa [hsnd] at hfed
              · obtain ⟨more, hmore⟩ := @reloadFrom_hears _ t mp limit it' l' _ hreadable
                rw [hsnd] at hfed
                exact hfed.before hmore.heard_eq
            obtain ⟨reply', hreply, halone, -, hnext, hless⟩ :=
              h.reply hmp hanswer.decodes hwrcnt (Reply.init false) hfed₁
            have hsame : reply' = reply := by
              have := halone.symm.trans hanswer.2.1
              simpa using this
            subst hsame
            obtain ⟨m, hm⟩ := Nat.exists_eq_succ_of_ne_zero hpos.ne'
            rw [reloadFrom_succ] at hfed ⊢
            rcases hout : beerNetReply t mp (Reply.init false) n with ⟨out, n'⟩
            rw [hout] at hreply hnext hless hfed
            dsimp only at hreply hnext hless
            subst hreply
            have hless : n'.wrcnt.toNat = m := by
              rw [hless, UInt32.toNat_sub_of_le _ _ (by rw [UInt32.le_iff_toNat_le]; exact hpos), hm]
              rfl
            have hstep : ¬((0 : Int) = -1 ∨ (0 : Int) = 1) := by decide
            simp only [if_neg hstep] at hfed ⊢
            rw [hm, Nat.succ_eq_add_one, List.take_succ_cons, visit]
            rw [List.length_cons] at hcount
            cases hturn : reloadReply mp l reply' with
            | error reason => exact rfl
            | ok next =>
                cases next with
                | none =>
                    refine ⟨n', rfl, ?_, ?_, ?_⟩
                    all_goals have hlen := hanswers.length_eq
                    · rw [hless, List.length_take]
                      omega
                    · rw [List.length_take]
                      omega
                    · have hone : m + 1 - (replies.take m).length = 1 := by
                        rw [List.length_take]
                        omega
                      rw [hone]
                      simpa [frames] using hnext
                | some l' =>
                    simp only [hturn] at hfed
                    have hrest := @ih { it with r := reply' } l' _ _ _ n' hnext hanswers (by omega)
                      (by omega) (by
                        rw [List.append_assoc, ← hwire]
                        exact hfed)
                    rw [hless] at hrest
                    rw [ok_bind]
                    dsimp only
                    cases hvisit : visit mp l' (replies.take m) with
                    | error reason =>
                        rw [hvisit] at hrest
                        exact hrest
                    | ok out =>
                        obtain ⟨done, l'', left⟩ := out
                        rw [hvisit] at hrest
                        obtain ⟨n'', hloop, hwrcnt', hle, hafter⟩ := hrest
                        refine ⟨n'', hloop, hwrcnt', by omega, ?_⟩
                        have hsub : m + 1 - left.length = (m - left.length) + 1 := by omega
                        rw [hsub, List.take_succ_cons]
                        simpa [frames] using hafter

/-- The key of both queries: an empty array, which is not closed. -/
def ArrayObject.noKey : ArrayObject where
  object := { wrcnt := 1, data := some [0x90], size := 1, stack := [⟨0, 0, .array⟩] }
  alloc_lt := by decide
  size_le := by decide
  isValue := by decide
  isArray := by decide

theorem addArray_noKey (hmp : mp.Lawful) :
    beerObject.addArray mp 0 = .ok (1, ArrayObject.noKey.object) := by
  have hheader : Object.openingArray mp 0 .simple = [0x90] := hmp.encodeArray_eq 0
  have hwrite : beerObject.addArray mp 0 =
      ({ stack := [⟨0, 0, .array⟩] } : Object).write (Object.openingArray mp 0 .simple) := rfl
  rw [hwrite, hheader]
  rfl

theorem beerGetView_sends {σ : Type} (hmp : mp.Lawful) (garbage : Nat → UInt8)
    (view : SystemSpace) (s : Stream σ) :
    Sends (beerGetView mp garbage view s) s
      ⟨RequestType.select.id.toNat, s.reqid.toNat,
        [(BodyKey.space.id.toNat, .number view.id.toNat), (BodyKey.index.id.toNat, .number 2),
          (BodyKey.limit.id.toNat, .number 0xffffffff), (BodyKey.offset.id.toNat, .number 0),
          (BodyKey.iterator.id.toNat, .number 2), (BodyKey.key.id.toNat, .value [0x90])]⟩ := by
  have hsends := DirectCall.run_entries hmp garbage s
    (.select view.id beerVinName 0xffffffff 0 beerIterAll .noKey)
  rw [DirectCall.entries_read] at hsends
  rw [beerGetView, addArray_noKey hmp]
  exact hsends

theorem build_beerGetView (hmp : mp.Lawful) (garbage : Nat → UInt8) (view : SystemSpace)
    (s : Session τ) :
    ∃ rc net, s.build t (beerGetView mp garbage view) =
        .ok (rc, { s with reqid := s.reqid + 1, net }) ∧
      net.rbuf = s.net.rbuf ∧ net.link.heard = s.net.link.heard ∧
      (net.wrcnt = s.net.wrcnt ∨ net.wrcnt = s.net.wrcnt + 1) := by
  obtain ⟨-, ⟨v, hrun, -⟩, -⟩ := beerGetView_sends hmp garbage view
    { reqid := s.reqid, writev := beerNetWritev t, io := s.net }
  obtain ⟨-, hrbuf, hheard, hwrcnt⟩ := count_onlySends (@beerIoSendv_onlySends _ t v s.net)
  refine ⟨(beerNetWritev t v s.net).1, (beerNetWritev t v s.net).2, ?_, hrbuf, hheard, ?_⟩
  · rw [Session.build, hrun]
    rfl
  · rw [beerNetWritev, hwrcnt]
    split
    · exact .inl rfl
    · exact .inr rfl

/-- The two queries leave what is to be read as it was, and at most two more replies are
outstanding. Only 32 bits of the number of the next request are left. -/
theorem query_spec (hmp : mp.Lawful) (garbage : Nat → UInt8) {s : Session τ}
    (hwrcnt : s.net.wrcnt = 0) :
    ∃ net, s.query t mp garbage = .ok { s with reqid := s.reqid.toUInt32.toUInt64, net } ∧
      net.rbuf = s.net.rbuf ∧ net.link.heard = s.net.link.heard ∧ net.wrcnt.toNat ≤ 2 := by
  obtain ⟨rc, net, hspace, hrbuf, hheard, hone⟩ :=
    @build_beerGetView _ t mp hmp garbage .vspSpace { s with reqid := (127 : UInt32).toUInt64 }
  obtain ⟨rc', net', hindex, hrbuf', hheard', htwo⟩ :=
    @build_beerGetView _ t mp hmp garbage .vspIndex { s with reqid := 128, net }
  obtain ⟨sbuf, link, error, hflush, hheard''⟩ := @beerIoFlush_onlySends _ t net'
  have hspace' : ({ s with reqid := (127 : UInt32).toUInt64 } : Session τ).build t
      (beerGetSpace mp garbage) = .ok (rc, { s with reqid := 128, net }) := hspace
  have hindex' : ({ s with reqid := 128, net } : Session τ).build t (beerGetIndex mp garbage) =
      .ok (rc', { s with reqid := 129, net := net' }) := hindex
  refine ⟨(beerIoFlush t net').2, ?_, ?_, ?_, ?_⟩
  · simp only [Session.query, beerStreamReqid, hspace', hindex', ok_bind, pure_eq, beerFlush]
  · rw [hflush]
    exact hrbuf'.trans hrbuf
  · rw [hflush]
    exact hheard''.trans (hheard'.trans hheard)
  · rw [hflush]
    rw [hwrcnt] at hone
    rcases hone with hone | hone <;> rcases htwo with htwo | htwo <;>
      simp only at htwo <;> rw [htwo, hone] <;> decide

/-- How a reload ends that has gone through the loop. -/
def Loading.Ends (mp : Msgpuck) (rc : Int) (schema : Schema) : Bool × Loading → Prop
  | (false, l) => rc = -1 ∧ schema = l.schema
  | (true, l) =>
      ∃ l', l.finish mp = .ok l' ∧ rc = (if l'.sloaded ≠ 3 then -1 else 0) ∧ schema = l'.schema

theorem beerReloadSchema_spec (hmp : mp.Lawful) (garbage : Nat → UInt8) {base : Bytes}
    {consumed later : Bytes} {payloads : List Bytes} {replies : List Reply} {s q s' : Session τ}
    {rc : Int} (hconnected : s.net.connected) (hwrcnt : s.net.wrcnt = 0)
    (h : HandedOver base consumed s.net)
    (hanswers : List.Forall₂ (IsAnswer mp) payloads replies)
    (hquery : s.query t mp garbage = .ok q) (hcount : q.net.wrcnt.toNat ≤ payloads.length)
    (hreload : beerReloadSchema t mp garbage s = .ok (rc, s'))
    (hfed : Fed base (consumed ++ (frames payloads ++ later)) s'.net.link) :
    ∃ done l left, visit mp { schema := s.schema } (replies.take q.net.wrcnt.toNat) =
        .ok (done, l, left) ∧
      s'.reqid = s.reqid.toUInt32.toUInt64 ∧ s'.net.wrcnt.toNat = left.length ∧
      left.length ≤ q.net.wrcnt.toNat ∧
      HandedOver base (consumed ++ frames (payloads.take (q.net.wrcnt.toNat - left.length)))
        s'.net ∧
      Loading.Ends mp rc s'.schema (done, l) := by
  obtain ⟨net, hq, hrbuf, hheard, -⟩ := @query_spec _ t mp hmp garbage s hwrcnt
  rw [hquery, Except.ok.injEq] at hq
  have hstart : HandedOver base consumed q.net := by
    rw [hq]
    exact ⟨hrbuf ▸ h.readable, by
      dsimp only
      rw [hheard, hrbuf]
      exact h.arrived_eq⟩
  have hgo : ¬(¬s.net.connected ∨ s.net.wrcnt ≠ 0) := by simp [hconnected, hwrcnt]
  have hschema : q.schema = s.schema := by rw [hq]
  have hreqid : q.reqid = s.reqid.toUInt32.toUInt64 := by rw [hq]
  rw [beerReloadSchema, if_neg hgo, hquery, ok_bind] at hreload
  rcases hloop : reloadFrom t mp (q.net.wrcnt.toNat + 1) {} { schema := q.schema } q.net with
    ⟨reason | ⟨done, l⟩, n⟩
  · rw [hloop] at hreload
    cases hreload
  · rw [hloop] at hreload
    have hnet : s'.net = n ∧ s'.reqid = q.reqid ∧ Loading.Ends mp rc s'.schema (done, l) := by
      cases done with
      | false =>
          cases hreload
          exact ⟨rfl, rfl, rfl, rfl⟩
      | true =>
          cases hfinish : l.finish mp with
          | error reason =>
              simp only [hfinish, error_bind] at hreload
              cases hreload
          | ok l' =>
              simp only [hfinish, ok_bind, pure_eq] at hreload
              cases hreload
              exact ⟨rfl, rfl, l', hfinish, rfl, rfl⟩
    obtain ⟨rfl, hreqid', hends⟩ := hnet
    have hrun := @HandedOver.reload _ t mp hmp base (q.net.wrcnt.toNat + 1) {}
      { schema := q.schema } consumed later payloads replies q.net hstart hanswers hcount
      (Nat.lt_succ_self _) (by rw [hloop]; exact hfed)
    rw [hloop] at hrun
    cases hvisit : visit mp { schema := q.schema } (replies.take q.net.wrcnt.toNat) with
    | error reason =>
        rw [hvisit] at hrun
        cases hrun
    | ok out =>
        obtain ⟨done', l', left⟩ := out
        rw [hvisit] at hrun
        obtain ⟨n', heq, hleft, hle, hafter⟩ := hrun
        cases heq
        exact ⟨done, l, left, by rw [← hschema, hvisit], hreqid'.trans hreqid, hleft, hle, hafter,
          hends⟩

/-- A stream without buffers, and a server that has sent frames. -/
def Session.answered (reqid : UInt64) (payloads : List Bytes) : Session Script where
  reqid := reqid
  net := { beerNet [] { gives := [some (frames payloads)] } with connected := true, inited := true }

/-- The answer to the first query, with no rows. -/
def noSpaces : Bytes := [0x82, 0, 0, 1, 0x7f, 0x81, 0x30, 0x90]

/-- The answer to the second query, with no rows. -/
def noIndexes : Bytes := [0x82, 0, 0, 1, 0xcc, 0x80, 0x81, 0x30, 0x90]

/-- What the payload of a frame is read as. -/
def replyTo (payload : Bytes) : Reply :=
  match (beerReplyFrom .reference beerReplyCb (Reply.init false) (frame payload)).1 with
  | .ok (_, r) => r
  | .error _ => Reply.init false

end BeeC
