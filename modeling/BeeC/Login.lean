import BeeC.Connect
import BeeC.NetExchange
import BeeC.Sending

namespace BeeC

open BeeC.Wire.Loop
open BeeC.Wire.MessagePack

variable {τ : Type} {t : Transport τ} {mp : Msgpuck} {crypt : Crypt} {garbage : Nat → UInt8}

/-- The stream accepts the parts of a frame: the transport takes them, or they fit into the send
buffer, where it may have to take first what is there. -/
def Net.Accepts (t : Transport τ) (n : Net τ) (iov : List Bytes) : Prop :=
  if n.sbuf.buf = none then ¬t.BreaksParts iov n.link.state
  else iov.flatten.length ≤ n.sbuf.size ∧
    (n.sbuf.size < n.sbuf.off + iov.flatten.length → ¬t.Breaks n.sbuf.unsent n.link.state)

/-- The transport takes what is in the send buffer. -/
def Net.Empties (t : Transport τ) (n : Net τ) : Prop :=
  n.sbuf.off ≠ 0 → ¬t.Breaks n.sbuf.unsent n.link.state

theorem beerIoSendv_ne_neg_one_iff (n : Net τ) (iov : List Bytes) :
    (beerIoSendv t iov n).1 ≠ -1 ↔ n.Accepts t iov := by
  unfold Net.Accepts
  split
  · rename_i hnone
    rw [beerIoSendv, if_pos hnone]
    exact not_congr (Link.sendvFrom_eq_neg_one_iff n.link (Nat.lt_succ_self _))
  · rename_i hbuf
    have hraw := @Link.sendFrom_eq_neg_one_iff _ t n.sbuf.unsent (n.sbuf.unsent.length + 1) 0
      n.link (Nat.zero_le _) (by omega)
    rw [beerIoSendv_eq hbuf, beerIoSend, if_neg hbuf]
    split
    · rename_i hbig
      exact iff_of_false (fun h => h rfl) (fun h => absurd h.1 (Nat.not_le.mpr hbig))
    · rename_i hfits
      split
      · rename_i hroom
        exact iff_of_true (natCast_ne_neg_one _)
          ⟨Nat.not_lt.mp hfits, fun h => absurd hroom (Nat.not_le.mpr h)⟩
      · rename_i hroom
        have haccepts : (iov.flatten.length ≤ n.sbuf.size ∧
            (n.sbuf.size < n.sbuf.off + iov.flatten.length →
              ¬t.Breaks n.sbuf.unsent n.link.state)) ↔ ¬t.Breaks n.sbuf.unsent n.link.state :=
          ⟨fun h => h.2 (Nat.not_le.mp hroom), fun h => ⟨Nat.not_lt.mp hfits, fun _ => h⟩⟩
        rw [haccepts, ← @List.drop_zero _ n.sbuf.unsent, ← hraw, ← Iob.unsent]
        dsimp only
        split
        · rename_i hrc
          exact iff_of_false (fun h => h rfl) (fun h => h hrc)
        · rename_i hrc
          exact iff_of_true (natCast_ne_neg_one _) hrc

theorem beerFlush_taken_iff {n : Net τ} (hoff : n.sbuf.off ≤ n.sbuf.size) :
    (beerFlush t n).2.link.taken = n.link.taken ++ n.sbuf.unsent ↔ n.Empties t := by
  unfold beerFlush beerIoFlush Net.Empties
  split
  · rename_i hzero
    have hnil : n.sbuf.unsent = [] := by rw [Iob.unsent, hzero, List.take_zero]
    exact iff_of_true (by rw [hnil, List.append_nil]) (fun h => absurd hzero h)
  · rename_i hne
    have hlength : n.sbuf.unsent.length = n.sbuf.off :=
      (List.length_take).trans (Nat.min_eq_left hoff)
    have hunsent : n.sbuf.unsent ≠ [] :=
      List.ne_nil_of_length_pos (hlength ▸ Nat.pos_of_ne_zero hne)
    obtain ⟨sent, htakes, hends⟩ := @Link.sendFrom_ends _ t n.sbuf.unsent
      (n.sbuf.unsent.length + 1) 0 n.link (Nat.zero_le _) (by omega)
    have hbreaks := @Link.sendFrom_eq_neg_one_iff _ t n.sbuf.unsent (n.sbuf.unsent.length + 1) 0
      n.link (Nat.zero_le _) (by omega)
    rw [List.drop_zero] at hends hbreaks
    rw [← Iob.unsent, imp_iff_right hne, ← hbreaks]
    dsimp only
    rcases hends with ⟨hrc, rfl⟩ | ⟨hrc, -, hfront⟩
    · have hsent : (beerIoSendRaw t n.sbuf.unsent true n).1 ≠ -1 :=
        fun h => natCast_ne_neg_one _ (hrc.symm.trans h)
      rw [if_neg hsent]
      exact iff_of_true htakes.taken_eq hsent
    · have hfail : (beerIoSendRaw t n.sbuf.unsent true n).1 = -1 := hrc
      rw [if_pos hfail]
      refine iff_of_false (fun h => hfront hunsent ?_) (fun h => h hrc)
      exact List.append_cancel_left (htakes.taken_eq.symm.trans h)

theorem beerIoSendv_accepted {n : Net τ} (hoff : n.sbuf.off ≤ n.sbuf.size) {iov : List Bytes}
    (haccepted : (beerIoSendv t iov n).1 ≠ -1) :
    (beerIoSendv t iov n).2.sbuf.off ≤ (beerIoSendv t iov n).2.sbuf.size ∧
      (beerIoSendv t iov n).2.link.taken ++ (beerIoSendv t iov n).2.sbuf.unsent =
        n.link.taken ++ (n.sbuf.unsent ++ iov.flatten) := by
  by_cases hnone : n.sbuf.buf = none
  · have hunsent : n.sbuf.unsent = [] := by simp [Iob.unsent, Iob.bytes, hnone]
    rw [beerIoSendv, if_pos hnone] at haccepted ⊢
    obtain ⟨sent, htakes, hends⟩ := @Link.sendvFrom_ends _ t (iov.flatten.length + 1) 0 iov
      n.link (Nat.lt_succ_self _)
    rcases hends with ⟨-, rfl⟩ | ⟨hrc, -⟩
    · refine ⟨hoff, ?_⟩
      have htaken : (beerIoSendvRaw t iov true n).2.link.taken = n.link.taken ++ iov.flatten :=
        htakes.taken_eq
      have hsbuf : (beerIoSendvRaw t iov true n).2.sbuf = n.sbuf := rfl
      rw [htaken, hsbuf, hunsent, List.append_nil, List.nil_append]
    · exact absurd hrc haccepted
  · obtain ⟨sbuf, link, error, hout, hwritable, -, -, hends⟩ :=
      @SendCall.run_ends _ t (.sendv iov) n ⟨hnone, hoff⟩
    change (beerIoSendv t iov n).2 = _ at hout
    rw [hout]
    refine ⟨hwritable.off_le, ?_⟩
    rcases hends with ⟨-, rfl, hends⟩ | ⟨-, hemptied, hends⟩
    · rcases hends with ⟨hrc, -⟩ | ⟨-, hunsent⟩
      · exact absurd hrc haccepted
      · exact congrArg (n.link.taken ++ ·) hunsent
    · rcases hemptied with ⟨hrc, -⟩ | ⟨-, -, htaken⟩
      · exact absurd hrc haccepted
      · rcases hends with ⟨hrc, -⟩ | ⟨-, hunsent⟩
        · exact absurd hrc haccepted
        · change link.taken ++ sbuf.unsent = _
          rw [htaken, hunsent, List.append_assoc]
          rfl

theorem beerNetRead_keeps (size : Nat) (n : Net τ) :
    ∃ rbuf link error, (beerNetRead t size n).2.2 = { n with rbuf, link, error } := by
  unfold beerNetRead beerIoRecv
  split
  · exact ⟨n.rbuf, _, _, rfl⟩
  · exact ⟨_, _, _, rfl⟩

theorem beerIobInit_inBounds (size : Int32) :
    (Iob.beerIobInit size).2.off ≤ (Iob.beerIobInit size).2.size := by
  unfold Iob.beerIobInit
  split
  · exact Nat.zero_le _
  · split <;> exact Nat.zero_le _

/-- A stream is in order if its send buffer is used up to a place within it. -/
def Net.InOrder (n : Net τ) : Prop := n.sbuf.off ≤ n.sbuf.size

theorem beerInit_inOrder (n : Net τ) : (beerInit n).2.opt = n.opt ∧ (beerInit n).2.InOrder := by
  have hsbuf := beerIobInit_inBounds n.opt.sendBuf
  unfold beerInit
  dsimp only
  split
  · exact ⟨rfl, hsbuf⟩
  · split <;> exact ⟨rfl, hsbuf⟩

theorem beerReady_inOrder {s : Session τ} (h : s.net.InOrder) :
    (beerReady t s).net.opt = s.net.opt ∧ (beerReady t s).net.InOrder := by
  have hclose : ∀ s' : Session τ, s'.net.opt = s.net.opt ∧ s'.net.InOrder →
      (if s'.net.connected then beerClose t s' else s').net.opt = s.net.opt ∧
        (if s'.net.connected then beerClose t s' else s').net.InOrder := by
    rintro s' ⟨hopt, hinOrder⟩
    split
    · exact ⟨hopt, Nat.zero_le _⟩
    · exact ⟨hopt, hinOrder⟩
  unfold beerReady
  refine hclose _ ?_
  split
  · exact ⟨rfl, h⟩
  · exact beerInit_inOrder s.net

theorem beerIoConnect_eok {n : Net τ} (h : (beerIoConnect t n).1 = .eok) :
    ∃ link, (beerIoConnect t n).2 = { n with link, connected := true } := by
  unfold beerIoConnect at h ⊢
  dsimp only at h ⊢
  by_cases hresult : (t.connect n.link.state).1 = .eok
  · rw [if_pos hresult]
    exact ⟨_, rfl⟩
  · rw [if_neg hresult] at h
    exact absurd h hresult

theorem beerGreet_keeps (n : Net τ) :
    ∃ rbuf link error greeting, (beerGreet t n).2 = { n with rbuf, link, error, greeting } := by
  obtain ⟨rbuf, link, error, hread⟩ := @beerNetRead_keeps _ t beerGreetingSize n
  unfold beerGreet
  rcases hout : beerNetRead t beerGreetingSize n with ⟨rc, stored, n'⟩
  rw [hout] at hread
  dsimp only at hread
  subst hread
  exact ⟨rbuf, link, error, _, rfl⟩

theorem beerOpen_spec {n : Net τ} (h : n.InOrder) (hopen : (beerOpen t n).1 ≠ -1) :
    (beerOpen t n).2.connected ∧ (beerOpen t n).2.opt = n.opt ∧ (beerOpen t n).2.wrcnt = n.wrcnt ∧
      (beerOpen t n).2.InOrder := by
  have heok := @beerIoConnect_eok _ t n
  unfold beerOpen at hopen ⊢
  cases hconnect : beerIoConnect t n with
  | mk error n' =>
      rw [hconnect] at hopen heok
      dsimp only at hopen heok ⊢
      by_cases herror : error = .eok
      · rw [if_neg (not_not.mpr herror)]
        obtain ⟨link, rfl⟩ := heok herror
        obtain ⟨rbuf, link', error', greeting, hgreet⟩ :=
          @beerGreet_keeps _ t { n with link, connected := true, error }
        rw [hgreet]
        exact ⟨rfl, rfl, rfl, h⟩
      · rw [if_pos herror] at hopen
        exact absurd rfl hopen

/-- A session whose stream has read the greeting. -/
def Session.opened (t : Transport τ) (s : Session τ) : Session τ :=
  { beerReady t s with net := (beerOpen t (beerReady t s).net).2 }

variable (crypt garbage) in
/-- The parts of the frame that logs in. -/
def Session.authParts (s : Session τ) : List Bytes :=
  BeeC.authParts crypt garbage s.reqid s.net.opt.login
    (Int32.ofNat (s.net.opt.login.getD []).length) (s.net.opt.password.getD [])
    (Int32.ofNat (s.net.opt.password.getD []).length) (s.net.greeting.drop beerVersionSize)

variable (t crypt garbage) in
/-- The stream after the request and the flush. -/
def Session.requested (s : Session τ) : Net τ :=
  (beerFlush t (beerNetWritev t (s.authParts crypt garbage) s.net).2).2

variable (t mp crypt garbage) in
/-- What is read as the reply to the request. -/
def Session.answer (s : Session τ) : Except Fault (Int × Reply) :=
  (beerNetReply t mp (Reply.init false) (s.requested t crypt garbage)).1

variable (t mp crypt garbage) in
/-- The transport has taken the whole frame that logs in, behind what has been written before, and
the reply that is read is one to this request, without an error. -/
structure Session.LoggedIn (s : Session τ) : Prop where
  sent : (s.requested t crypt garbage).link.taken =
    s.net.link.taken ++ (s.net.sbuf.unsent ++ (s.authParts crypt garbage).flatten)
  answered : ∃ r, s.answer t mp crypt garbage = .ok (0, r) ∧ r.error = none ∧ r.sync = s.reqid

variable (t mp crypt garbage) in
/-- The stream accepts the frame, and if a reply without an error can be read, then the transport
has taken the frame and the reply has the number of the request. Or replies are outstanding, so
that nobody is logged in. -/
def Session.Faithful (s : Session τ) : Prop :=
  s.net.wrcnt ≠ 0 ∨
    (s.net.Accepts t (s.authParts crypt garbage) ∧
      ∀ r, s.answer t mp crypt garbage = .ok (0, r) → r.error = none →
        (beerNetWritev t (s.authParts crypt garbage) s.net).2.Empties t ∧ r.sync = s.reqid)

theorem beerNetWritev_wrcnt (n : Net τ) (iov : List Bytes) :
    (beerNetWritev t iov n).2.wrcnt =
      if (beerIoSendv t iov n).1 = -1 then n.wrcnt else n.wrcnt + 1 :=
  (count_onlySends (beerIoSendv_onlySends iov n)).2.2.2

theorem Session.requested_wrcnt (s : Session τ) :
    (s.requested t crypt garbage).wrcnt =
      (beerNetWritev t (s.authParts crypt garbage) s.net).2.wrcnt := by
  obtain ⟨sbuf, link, error, hflush, -⟩ :=
    @beerIoFlush_onlySends _ t (beerNetWritev t (s.authParts crypt garbage) s.net).2
  rw [Session.requested, beerFlush, hflush]

theorem Session.answer_refused {s : Session τ} (hwrcnt : s.net.wrcnt = 0)
    (hrefused : (beerIoSendv t (s.authParts crypt garbage) s.net).1 = -1) :
    s.answer t mp crypt garbage = .ok (1, Reply.init false) := by
  have hnone : (s.requested t crypt garbage).wrcnt = 0 := by
    rw [Session.requested_wrcnt, beerNetWritev_wrcnt, if_pos hrefused, hwrcnt]
  rw [Session.answer, beerNetReply, if_pos hnone]

theorem Session.answer_accepted {s : Session τ} (hwrcnt : s.net.wrcnt = 0)
    (haccepted : (beerIoSendv t (s.authParts crypt garbage) s.net).1 ≠ -1) {result : Int × Reply}
    (h : s.answer t mp crypt garbage = .ok result) : result.1 = 0 ∨ result.1 = -1 := by
  have hsome : (s.requested t crypt garbage).wrcnt ≠ 0 := by
    rw [Session.requested_wrcnt, beerNetWritev_wrcnt, if_neg haccepted, hwrcnt]
    decide
  rw [Session.answer, beerNetReply, if_neg hsome] at h
  exact beerReplyFrom_result h

theorem Session.sent_iff {s : Session τ} (h : s.net.InOrder)
    (haccepted : (beerIoSendv t (s.authParts crypt garbage) s.net).1 ≠ -1) :
    (s.requested t crypt garbage).link.taken =
        s.net.link.taken ++ (s.net.sbuf.unsent ++ (s.authParts crypt garbage).flatten) ↔
      (beerNetWritev t (s.authParts crypt garbage) s.net).2.Empties t := by
  obtain ⟨hoff, htaken⟩ := beerIoSendv_accepted h haccepted
  have hnet : (beerNetWritev t (s.authParts crypt garbage) s.net).2 =
      { (beerIoSendv t (s.authParts crypt garbage) s.net).2 with
        wrcnt := (beerIoSendv t (s.authParts crypt garbage) s.net).2.wrcnt + 1 } := by
    unfold beerNetWritev
    cases hout : beerIoSendv t (s.authParts crypt garbage) s.net with
    | mk rc n =>
        rw [hout] at haccepted
        rw [Net.count, if_neg haccepted]
  have hflush := @beerFlush_taken_iff _ t (beerNetWritev t (s.authParts crypt garbage) s.net).2
    (by rw [hnet]; exact hoff)
  have hsame : (beerNetWritev t (s.authParts crypt garbage) s.net).2.link.taken ++
      (beerNetWritev t (s.authParts crypt garbage) s.net).2.sbuf.unsent =
      s.net.link.taken ++ (s.net.sbuf.unsent ++ (s.authParts crypt garbage).flatten) := by
    rw [hnet]
    exact htaken
  rw [← hsame]
  exact hflush

theorem Session.build_auth (hmp : mp.Lawful) {s s' : Session τ} {rc : Ssize}
    (h : s.build t (fun stream => beerAuth mp crypt garbage stream s.net.opt.login
      (Int32.ofNat (s.net.opt.login.getD []).length) (s.net.opt.password.getD [])
      (Int32.ofNat (s.net.opt.password.getD []).length)) = .ok (rc, s')) :
    s' = { s with
      reqid := s.reqid + 1
      net := (beerNetWritev t (s.authParts crypt garbage) s.net).2 } := by
  obtain ⟨out, hauth, h⟩ := bind_eq_ok.mp h
  rw [beerAuthRaw_eq_ok hmp hauth] at h
  cases h
  rfl

theorem beerAuthenticate_result (hmp : mp.Lawful) {s s' : Session τ} {rc : Int}
    (hconnected : s.net.connected) (hwrcnt : s.net.wrcnt = 0)
    (h : beerAuthenticate t mp crypt garbage s = .ok (rc, s')) :
    (rc ≠ -1 ↔ rc = 0) ∧
      (rc = 0 ↔ ∃ result, s.answer t mp crypt garbage = .ok result ∧ result.1 ≠ -1 ∧
        result.2.error = none) := by
  have hready : ¬(¬s.net.connected ∨ s.net.wrcnt ≠ 0) := by
    rintro (hnot | hnot)
    · exact hnot hconnected
    · exact hnot hwrcnt
  unfold beerAuthenticate at h
  rw [if_neg hready] at h
  obtain ⟨⟨rc₁, s₁⟩, hbuild, h⟩ := bind_eq_ok.mp h
  have hs₁ := Session.build_auth hmp hbuild
  subst hs₁
  dsimp only at h
  unfold Session.answer Session.requested
  rcases hanswer : beerNetReply t mp (Reply.init false)
    (beerFlush t (beerNetWritev t (s.authParts crypt garbage) s.net).2).2 with
    ⟨reason | ⟨rc', r⟩, net⟩
  · rw [hanswer] at h
    cases h
  · rw [hanswer] at h
    dsimp only at h ⊢
    by_cases hfail : rc' = -1
    · rw [if_pos hfail] at h
      cases h
      refine ⟨by decide, iff_of_false (by decide) ?_⟩
      rintro ⟨result, hresult, hne, -⟩
      cases hresult
      exact hne hfail
    · rw [if_neg hfail] at h
      by_cases herror : r.error.isSome
      · rw [if_pos herror] at h
        have hrc : rc = -1 := by
          split at h <;> cases h <;> rfl
        subst hrc
        refine ⟨by decide, iff_of_false (by decide) ?_⟩
        rintro ⟨result, hresult, -, hnone⟩
        cases hresult
        rw [hnone] at herror
        cases herror
      · rw [if_neg herror] at h
        obtain ⟨out, -, h⟩ := bind_eq_ok.mp h
        cases h
        exact ⟨by decide, iff_of_true rfl ⟨_, rfl, hfail, Option.not_isSome_iff_eq_none.mp herror⟩⟩

/-- A connection that is to log in is not reported open without the login having been accepted
exactly if it gets no further than the greeting, or the stream accepts the request and sends it, and
no reply to anything else is taken for the one to the request. -/
theorem beerConnect_loggedIn_iff (hmp : mp.Lawful) {s s' : Session τ} {rc : Int}
    (horder : s.net.InOrder) (hlogin : s.net.opt.login.isSome)
    (hpassword : s.net.opt.password.isSome)
    (h : beerConnect t mp crypt garbage s = .ok (rc, s')) :
    (rc = 0 → (s.opened t).LoggedIn t mp crypt garbage) ↔
      ((beerOpen t (beerReady t s).net).1 = -1 ∨ (s.opened t).Faithful t mp crypt garbage) := by
  obtain ⟨hopt, hready⟩ := @beerReady_inOrder _ t s horder
  unfold beerConnect at h
  dsimp only at h
  by_cases hopen : (beerOpen t (beerReady t s).net).1 = -1
  · rw [if_pos hopen] at h
    cases h
    exact iff_of_true (fun h => by cases h) (.inl hopen)
  · rw [if_neg hopen] at h
    obtain ⟨hconnected, hopt', -, hinOrder⟩ := beerOpen_spec hready hopen
    rw [hopt', hopt, if_pos ⟨hlogin, hpassword⟩] at h
    change (beerAuthenticate t mp crypt garbage (s.opened t) >>= _) = _ at h
    obtain ⟨⟨rc₁, s₁⟩, hauth, h⟩ := bind_eq_ok.mp h
    have hrc : rc = if rc₁ = -1 then -1 else 0 := by
      dsimp only at h
      split at h <;> rename_i hrc₁
      · rw [if_pos hrc₁]
        cases h
        rfl
      · rw [if_neg hrc₁]
        cases h
        rfl
    rw [or_iff_right hopen, Session.Faithful]
    by_cases hwrcnt : (s.opened t).net.wrcnt = 0
    · obtain ⟨hresult, hzero⟩ := beerAuthenticate_result hmp hconnected hwrcnt hauth
      have hrc₀ : rc = 0 ↔ rc₁ = 0 := by
        rw [hrc, ← hresult]
        split <;> rename_i hrc₁
        · exact iff_of_false (by decide) (not_not.mpr hrc₁)
        · exact iff_of_true rfl hrc₁
      rw [or_iff_right (not_not.mpr hwrcnt), hrc₀, ← beerIoSendv_ne_neg_one_iff]
      by_cases haccepted : (beerIoSendv t ((s.opened t).authParts crypt garbage)
          (s.opened t).net).1 = -1
      · have hanswer := @Session.answer_refused _ t mp crypt garbage _ hwrcnt haccepted
        refine iff_of_false (fun hin => ?_) (fun h => h.1 haccepted)
        obtain ⟨r, hr, -⟩ := (hin (hzero.mpr ⟨_, hanswer, by decide, rfl⟩)).answered
        rw [hanswer] at hr
        cases hr
      · have hsent := Session.sent_iff hinOrder haccepted
        constructor
        · refine fun hin => ⟨haccepted, fun r hr hnone => ?_⟩
          obtain ⟨hsent', r', hr', -, hsync⟩ :=
            hin (hzero.mpr ⟨_, hr, show (0 : Int) ≠ -1 by decide, hnone⟩)
          rw [hr] at hr'
          cases hr'
          exact ⟨hsent.mp hsent', hsync⟩
        · rintro ⟨-, hanswers⟩ hin
          obtain ⟨⟨rc', r⟩, hr, hne, hnone⟩ := hzero.mp hin
          have hrc' : rc' = 0 :=
            (Session.answer_accepted hwrcnt haccepted hr).resolve_right hne
          subst hrc'
          obtain ⟨hempties, hsync⟩ := hanswers r hr hnone
          exact ⟨hsent.mpr hempties, r, hr, hnone, hsync⟩
    · have hrc₁ : rc₁ = -1 := by
        unfold beerAuthenticate at hauth
        rw [if_pos (.inr hwrcnt)] at hauth
        cases hauth
        rfl
      rw [if_pos hrc₁] at hrc
      exact iff_of_true (fun h => by rw [hrc] at h; cases h) (.inl hwrcnt)

/-- A new stream with a send buffer of the given size and no receive buffer, that is to log in with
the name `a` and the password `b`. After the greeting the server sends the given bytes. -/
def Session.logsIn (sendBuf : Int32) (sent : Bytes) : Session Script where
  net := { beerNet [] { gives := [some (List.replicate beerGreetingSize 0), some sent] } with
    opt := { login := some [0x61], password := some [0x62], sendBuf, recvBuf := 0 } }

set_option maxRecDepth 8000 in
theorem beerConnect_loggedIn_iff_accepted :
    ∃ s', beerConnect Script.transport .reference builtCrypt (fun _ => 0)
        (.logsIn 64 (frame [0x82, 0, 0, 1, 0, 0x80])) = .ok (0, s') ∧
      (((0 : Int) = 0 → (Session.opened Script.transport
          (.logsIn 64 (frame [0x82, 0, 0, 1, 0, 0x80]))).LoggedIn Script.transport .reference builtCrypt
            (fun _ => 0)) ↔
        ((beerOpen Script.transport (beerReady Script.transport
            (.logsIn 64 (frame [0x82, 0, 0, 1, 0, 0x80]))).net).1 = -1 ∨
          (Session.opened Script.transport (.logsIn 64 (frame [0x82, 0, 0, 1, 0, 0x80]))).Faithful
            Script.transport .reference builtCrypt (fun _ => 0))) :=
  ⟨_, rfl, beerConnect_loggedIn_iff Msgpuck.reference_lawful (Nat.zero_le _) rfl rfl rfl⟩

set_option maxRecDepth 8000 in
/-- The request does not fit into a send buffer of 16 bytes. The server has sent nothing but its
greeting, and the connection is reported open. -/
theorem not_beerConnect_loggedIn :
    ∃ s', beerConnect Script.transport .reference builtCrypt (fun _ => 0) (.logsIn 16 []) = .ok (0, s') ∧
      ¬(Session.opened Script.transport (.logsIn 16 [])).LoggedIn Script.transport .reference builtCrypt
        (fun _ => 0) := by
  refine ⟨_, rfl, fun h => ?_⟩
  obtain ⟨r, hr, -⟩ := h.answered
  have hnone : (Session.opened Script.transport (.logsIn 16 [])).answer Script.transport
      .reference builtCrypt (fun _ => 0) = .ok (1, Reply.init false) := rfl
  rw [hnone] at hr
  cases hr

end BeeC
