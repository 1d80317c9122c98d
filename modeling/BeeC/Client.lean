import Mathlib.Data.List.Nodup
import BeeC.DirectRoundTrip
import BeeC.NetExchange
import BeeC.ReplyRoundTrip
import BeeC.SteadySending

/-!
A client that makes calls over a network stream and reads the replies. Its peer gets one frame for
each call that is accepted, and the numbers of the requests tell the replies apart.
-/

namespace BeeC

open BeeC.Wire.Run
open BeeC.Wire.MessagePack

variable {τ : Type} {t : Transport τ} {mp : Msgpuck}

/-- A call that only reads: it does not touch what the sending side has. -/
structure OnlyReads (n n' : Net τ) : Prop where
  sbuf_eq : n'.sbuf = n.sbuf
  taken_eq : n'.link.taken = n.link.taken
  readable : n'.rbuf.Readable

theorem OnlyReads.trans {n n' n'' : Net τ} (h : OnlyReads n n') (h' : OnlyReads n' n'') :
    OnlyReads n n'' :=
  ⟨h'.sbuf_eq.trans h.sbuf_eq, h'.taken_eq.trans h.taken_eq, h'.readable⟩

theorem beerNetRecvCb_onlyReads (size : Nat) {n : Net τ} (h : n.rbuf.Readable) :
    OnlyReads n (beerNetRecvCb t size n).2 := by
  obtain ⟨rbuf, link, error, heard, hnet, hhears, hreadable, -⟩ := @beerNetRecvCb_spec _ t size n h
  rw [hnet]
  exact ⟨rfl, hhears.taken_eq, hreadable⟩

theorem beerNetReply_onlyReads (r : Reply) {n : Net τ} (h : n.rbuf.Readable) :
    OnlyReads n (beerNetReply t mp r n).2 := by
  unfold beerNetReply
  split
  · exact ⟨rfl, rfl, h⟩
  · have hcounted : OnlyReads n { n with wrcnt := n.wrcnt - 1 } := ⟨rfl, rfl, h⟩
    have hlength := hcounted.trans (@beerNetRecvCb_onlyReads _ t 5 _ hcounted.readable)
    rcases beerReplyFrom_snd (beerNetRecvCb t) r { n with wrcnt := n.wrcnt - 1 } with hsnd |
      ⟨size, hsnd⟩
    · rw [hsnd]
      exact hlength
    · rw [hsnd]
      exact hlength.trans (beerNetRecvCb_onlyReads size hlength.readable)

theorem iterateFrom_onlyReads (limit : Nat) (it : ReplyIter) {n : Net τ} (h : n.rbuf.Readable) :
    OnlyReads n (iterateFrom t mp limit it n).2 := by
  induction limit generalizing it n with
  | zero => exact ⟨rfl, rfl, h⟩
  | succ limit ih =>
      have hreply := @beerNetReply_onlyReads _ t mp (Reply.init false) _ h
      rcases @iterateFrom_snd _ t mp limit it n with hsnd | ⟨it', hsnd⟩
      · rw [hsnd]
        exact hreply
      · rw [hsnd]
        exact hreply.trans (ih it' hreply.readable)

theorem reads_encodes (hmp : mp.Lawful) {payload : Bytes} {a : Answer}
    (hlength : payload.length < 2 ^ 32) (hencodes : Encodes payload a) (r : Reply) :
    ∃ reply, (beerReplyFrom mp beerReplyCb r (frame payload)).1 = .ok (0, reply) ∧
      reply.Says a := by
  obtain ⟨reply, hreply, hreading⟩ := beerReplyFrom_ok hmp (delivers_beerReplyCb payload [])
    (length_pos_of_encodes hencodes) hlength r (readPayload_encodes hencodes)
  rw [List.append_nil] at hreply
  exact ⟨reply, congrArg Prod.fst hreply, hreading.says⟩

theorem decodes_of_encodes (hmp : mp.Lawful) {payload : Bytes} {a : Answer}
    (hlength : payload.length < 2 ^ 32) (hencodes : Encodes payload a) : Decodes mp payload := by
  obtain ⟨reply, hreply, -⟩ := reads_encodes hmp hlength hencodes (Reply.init false)
  exact ⟨hlength, Reply.init false, reply, hreply⟩

theorem IsReplyOf.says (hmp : mp.Lawful) {payload : Bytes} {a : Answer}
    (hlength : payload.length < 2 ^ 32) (hencodes : Encodes payload a) {r reply : Reply}
    (h : IsReplyOf mp r payload reply) : reply.Says a := by
  obtain ⟨reply', hreply, hsays⟩ := reads_encodes hmp hlength hencodes r
  have hsame := hreply.symm.trans h.1
  cases hsame
  exact hsays

/-- The reply that a caller gets, unless reading it goes wrong. -/
def Got.reply : Got → Option Reply
  | read _ (.ok (_, reply)) => some reply
  | read _ (.error _) => none
  | visited reply => some reply

theorem Got.IsReplyOf.says (hmp : mp.Lawful) {payload : Bytes} {a : Answer}
    (hlength : payload.length < 2 ^ 32) (hencodes : Encodes payload a) {g : Got}
    (h : g.IsReplyOf mp payload) : ∃ reply, g.reply = some reply ∧ reply.Says a := by
  cases g with
  | read r out =>
      obtain ⟨reply, rfl, hreply⟩ := h
      exact ⟨reply, rfl, BeeC.IsReplyOf.says hmp hlength hencodes hreply⟩
  | visited reply => exact ⟨reply, rfl, BeeC.IsReplyOf.says hmp hlength hencodes h⟩

/-- The payloads are encodings of the answers. -/
def Serves (served : List (Bytes × Answer)) : Prop :=
  ∀ p ∈ served, p.1.length < 2 ^ 32 ∧ Encodes p.1 p.2

theorem Serves.replies (hmp : mp.Lawful) {served : List (Bytes × Answer)} (h : Serves served)
    {got : List Got} (hgot : List.Forall₂ (Got.IsReplyOf mp) (served.map Prod.fst) got) :
    ∃ replies, got.map Got.reply = replies.map some ∧
      List.Forall₂ Reply.Says replies (served.map Prod.snd) := by
  induction served generalizing got with
  | nil =>
      cases hgot
      exact ⟨[], rfl, .nil⟩
  | cons p served ih =>
      obtain ⟨hfirst, hrest⟩ := List.forall_mem_cons.mp h
      rw [List.map_cons, List.forall₂_cons_left_iff] at hgot
      obtain ⟨g, got, hg, hgot, rfl⟩ := hgot
      obtain ⟨reply, hreply, hsays⟩ := hg.says hmp hfirst.1 hfirst.2
      obtain ⟨replies, hreplies, hall⟩ := ih hrest hgot
      exact ⟨reply :: replies, by rw [List.map_cons, hreply, hreplies]; rfl, .cons hsays hall⟩

theorem map_sync_eq {replies : List Reply} {answers : List Answer}
    (h : List.Forall₂ Reply.Says replies answers) :
    replies.map Reply.sync = answers.map fun a => a.value .sync := by
  induction h with
  | nil => rfl
  | cons hsays _ ih => rw [List.map_cons, List.map_cons, hsays.sync, ih]

/-- What a client does with a stream. -/
inductive ClientAct where
  | call (garbage : Nat → UInt8) (call : DirectCall)
  | flush
  | readReply (r : Reply)
  | iterate

/-- The action makes a call. -/
def ClientAct.calls : ClientAct → Bool
  | call .. => true
  | _ => false

/-- A network stream with the number of the next request, the calls that were accepted, each with
the number of its request, and the calls that went wrong. -/
structure Client (τ : Type) where
  exchange : Exchange τ
  reqid : UInt64 := 0
  asked : List (UInt64 × DirectCall) := []
  faults : List Fault := []

namespace Client

variable (t) in
/-- The stream that the client hands to a call. -/
def stream (s : Client τ) : Stream (Net τ) where
  reqid := s.reqid
  writev := beerNetWritev t
  io := s.exchange.net

def called (s : Client τ) (call : DirectCall) :
    Except Fault (Ssize × Stream (Net τ)) → Client τ
  | .error reason => { s with faults := s.faults ++ [reason] }
  | .ok (rc, stream) =>
      { s with
        exchange := s.exchange.wrote (rc, stream.io)
        reqid := stream.reqid
        asked := if rc = -1 then s.asked else s.asked ++ [(s.reqid, call)] }

variable (t mp) in
def act (s : Client τ) : ClientAct → Client τ
  | .call garbage call => s.called call (call.run mp garbage (s.stream t))
  | .flush => { s with exchange := s.exchange.act t mp .flush }
  | .readReply r => { s with exchange := s.exchange.act t mp (.readReply r) }
  | .iterate => { s with exchange := s.exchange.act t mp .iterate }

/-- The package of a call that is made with a request number. -/
def package (asked : UInt64 × DirectCall) : Package :=
  ⟨asked.2.op.id.toNat, asked.1.toNat, asked.2.arguments.map fun e => (e.1.id.toNat, e.2)⟩

/-- The frame is decoded to the package of the call. -/
def Asks (bytes : Bytes) (asked : UInt64 × DirectCall) : Prop :=
  ∃ payload, Framed bytes payload ∧ decodePackage payload = some (package asked)

theorem act_call (hmp : mp.Lawful) (s : Client τ) (garbage : Nat → UInt8) (call : DirectCall) :
    ∃ v, Asks v.flatten (s.reqid, call) ∧ s.act t mp (.call garbage call) =
      { s with
        exchange := s.exchange.act t mp (.writev v)
        reqid := s.reqid + 1
        asked := if (beerNetWritev t v s.exchange.net).1 = -1 then s.asked
          else s.asked ++ [(s.reqid, call)] } := by
  obtain ⟨payload, ⟨v, hrun, hframed⟩, hdecode⟩ := call.run_entries hmp garbage (s.stream t)
  rw [call.entries_read] at hdecode
  refine ⟨v, ⟨payload, hframed, hdecode⟩, ?_⟩
  rw [act, hrun]
  rfl

theorem act_exchange (hmp : mp.Lawful) (s : Client τ) (a : ClientAct) :
    ∃ b, (s.act t mp a).exchange = s.exchange.act t mp b := by
  cases a with
  | call garbage call =>
      obtain ⟨v, -, hact⟩ := @act_call _ t mp hmp s garbage call
      exact ⟨.writev v, congrArg exchange hact⟩
  | flush => exact ⟨.flush, rfl⟩
  | readReply r => exact ⟨.readReply r, rfl⟩
  | iterate => exact ⟨.iterate, rfl⟩

theorem run_exchange (hmp : mp.Lawful) (actions : List ClientAct) (s : Client τ) :
    ∃ acts, (actions.foldl (act t mp) s).exchange = acts.foldl (Exchange.act t mp) s.exchange ∧
      ∀ P : Exchange τ → Prop, Always (act t mp) (fun s => P s.exchange) s actions →
        Always (Exchange.act t mp) P s.exchange acts := by
  induction actions generalizing s with
  | nil => exact ⟨[], rfl, fun P h => always_nil.mpr (h [] List.nil_prefix)⟩
  | cons a actions ih =>
      obtain ⟨b, hact⟩ := @act_exchange _ t mp hmp s a
      obtain ⟨acts, hrun, halways⟩ := ih (s.act t mp a)
      rw [hact] at hrun halways
      refine ⟨b :: acts, hrun, fun P h => ?_⟩
      obtain ⟨hs, hrest⟩ := always_cons.mp h
      exact always_cons.mpr ⟨hs, halways P hrest⟩

/-! The numbers of the requests. -/

theorem nodup_numbers (first : UInt64) {count : Nat} (hcount : count ≤ 2 ^ 64) :
    ((List.range count).map fun i => first + UInt64.ofNat i).Nodup := by
  refine List.Nodup.map_on (fun i hi j hj heq => ?_) List.nodup_range
  rw [List.mem_range] at hi hj
  have hsame := congrArg UInt64.toNat ((UInt64.add_right_inj first).mp heq)
  rwa [UInt64.toNat_ofNat', UInt64.toNat_ofNat', Nat.mod_eq_of_lt (by omega),
    Nat.mod_eq_of_lt (by omega)] at hsame

theorem run_numbers (hmp : mp.Lawful) (actions : List ClientAct) (s : Client τ) :
    ∃ numbers, (actions.foldl (act t mp) s).asked.map Prod.fst = s.asked.map Prod.fst ++ numbers ∧
      numbers.Sublist ((List.range (actions.countP ClientAct.calls)).map
        fun i => s.reqid + UInt64.ofNat i) := by
  induction actions generalizing s with
  | nil => exact ⟨[], (List.append_nil _).symm, List.nil_sublist _⟩
  | cons a actions ih =>
      obtain ⟨numbers, hnumbers, hsublist⟩ := ih (s.act t mp a)
      rw [List.foldl_cons, hnumbers]
      cases a with
      | call garbage call =>
          obtain ⟨v, -, hact⟩ := @act_call _ t mp hmp s garbage call
          rw [hact] at hsublist ⊢
          have hshift (i : Nat) :
              s.reqid + 1 + UInt64.ofNat i = s.reqid + UInt64.ofNat (i + 1) := by
            rw [UInt64.ofNat_add, UInt64.add_assoc, UInt64.add_comm (UInt64.ofNat i)]
            rfl
          rw [List.countP_cons_of_pos rfl, List.range_succ_eq_map, List.map_cons, List.map_map]
          simp only [hshift] at hsublist
          dsimp only
          split
          · exact ⟨numbers, rfl, hsublist.cons _⟩
          · refine ⟨s.reqid :: numbers, ?_, ?_⟩
            · rw [List.map_append, List.append_assoc]
              rfl
            · have hzero : s.reqid + UInt64.ofNat 0 = s.reqid := UInt64.add_zero _
              rw [hzero]
              exact hsublist.cons_cons _
      | flush | readReply _ | iterate =>
          rw [List.countP_cons_of_neg Bool.false_ne_true]
          exact ⟨numbers, rfl, hsublist⟩

/-! What the peer gets. -/

/-- The invariant of the sending side: the transport has taken, and the buffer holds, one frame for
each call that was accepted. -/
structure Sends (s : Client τ) : Prop where
  writable : s.exchange.net.sbuf.Writable
  readable : s.exchange.net.rbuf.Readable
  account : ∃ asking, List.Forall₂ Asks asking s.asked ∧
    s.exchange.net.link.taken ++ s.exchange.net.sbuf.unsent = asking.flatten
  accepted : s.exchange.accepted = s.asked.length
  faults : s.faults = []

theorem count_sending (out : Ssize × Net τ) :
    (Net.count out).1 = out.1 ∧ (Net.count out).2.sbuf = out.2.sbuf ∧
      (Net.count out).2.link = out.2.link := by
  obtain ⟨rc, n⟩ := out
  unfold Net.count
  dsimp only
  split <;> exact ⟨rfl, rfl, rfl⟩

theorem Sends.of_onlyReads {s : Client τ} (h : s.Sends) {e : Exchange τ}
    (hreads : OnlyReads s.exchange.net e.net) (haccepted : e.accepted = s.exchange.accepted) :
    Sends { s with exchange := e } where
  writable := hreads.sbuf_eq ▸ h.writable
  readable := hreads.readable
  account := by
    obtain ⟨asking, hasking, haccount⟩ := h.account
    refine ⟨asking, hasking, ?_⟩
    dsimp only
    rw [hreads.sbuf_eq, hreads.taken_eq, haccount]
  accepted := haccepted.trans h.accepted
  faults := h.faults

theorem Sends.act (hmp : mp.Lawful) (ht : t.AlwaysTakes) {s : Client τ} (h : s.Sends)
    (a : ClientAct) : (s.act t mp a).Sends := by
  obtain ⟨asking, hasking, haccount⟩ := h.account
  have hsteady : Sending.Steady s.exchange.net.sbuf.size
      { net := s.exchange.net, written := asking.flatten } := ⟨h.writable, rfl, haccount⟩
  cases a with
  | call garbage call =>
      obtain ⟨v, hasks, hact⟩ := @act_call _ t mp hmp s garbage call
      have hreadable := (@Exchange.act_extends _ t mp s.exchange (.writev v) h.readable).2.1
      obtain ⟨hcount, hsbuf, hlink⟩ := count_sending (beerIoSendv t v s.exchange.net)
      have hrc : (beerNetWritev t v s.exchange.net).1 = (beerIoSendv t v s.exchange.net).1 := hcount
      have hnet : (s.exchange.act t mp (.writev v)).net =
          (Net.count (beerIoSendv t v s.exchange.net)).2 := rfl
      obtain ⟨hwritable, -, hcall⟩ := hsteady.call ht (.sendv v)
      have hkept : (beerIoSendv t v s.exchange.net).2.link.taken ++
          (beerIoSendv t v s.exchange.net).2.sbuf.unsent =
            if (beerIoSendv t v s.exchange.net).1 = -1 then asking.flatten
            else asking.flatten ++ v.flatten := hcall
      rw [hact]
      refine ⟨?_, hreadable, ?_, ?_, h.faults⟩
      · dsimp only
        rw [hnet, hsbuf]
        exact hwritable
      · dsimp only
        rw [hnet, hsbuf, hlink, hkept, hrc]
        split
        · exact ⟨asking, hasking, rfl⟩
        · refine ⟨asking ++ [v.flatten], List.rel_append hasking (.cons hasks .nil), ?_⟩
          rw [List.flatten_append, List.flatten_singleton]
      · dsimp only [Exchange.act, Exchange.wrote]
        split
        · exact h.accepted
        · rw [List.length_append, h.accepted, List.length_singleton]
  | flush =>
      have hreadable := (@Exchange.act_extends _ t mp s.exchange .flush h.readable).2.1
      obtain ⟨hwritable, -, hkept⟩ := hsteady.call ht .flush
      refine ⟨hwritable, hreadable, ⟨asking, hasking, ?_⟩, h.accepted, h.faults⟩
      refine hkept.trans ?_
      dsimp only [Sending.call, SendCall.bytes]
      rw [List.append_nil, ite_self]
  | readReply r => exact h.of_onlyReads (beerNetReply_onlyReads r h.readable) rfl
  | iterate =>
      obtain ⟨hnet, haccepted⟩ := s.exchange.looped_net (BeeC.iterate t mp s.exchange.net)
      refine h.of_onlyReads ?_ haccepted
      rw [Exchange.act, hnet]
      exact iterateFrom_onlyReads _ _ h.readable

/-! Requests and replies. -/

/-- A network stream after `beer_init`, with a send buffer. -/
structure Fresh (n : Net τ) : Prop where
  buf_ne : n.sbuf.buf ≠ none
  off_eq : n.sbuf.off = 0
  readable : n.rbuf.Readable
  taken_eq : n.link.taken = []
  heard_eq : n.link.heard = []
  wrcnt_eq : n.wrcnt = 0

def start (n : Net τ) (reqid : UInt64) : Client τ := { exchange := { net := n }, reqid }

theorem Fresh.sends {n : Net τ} (h : Fresh n) (reqid : UInt64) : (start n reqid).Sends where
  writable := ⟨h.buf_ne, by rw [start, h.off_eq]; exact Nat.zero_le _⟩
  readable := h.readable
  account := ⟨[], .nil, by simp [start, h.taken_eq, Iob.unsent, h.off_eq]⟩
  accepted := rfl
  faults := rfl

theorem Fresh.inv {n : Net τ} (h : Fresh n) (reqid : UInt64) (payloads : List Bytes) :
    (start n reqid).exchange.Inv mp n.rbuf.unread payloads where
  handed := ⟨h.readable, by simp [start, h.heard_eq, frames]⟩
  got := .nil
  count := by simp [start, h.wrcnt_eq]

/-- No call has gone wrong, and the transport has taken, and the buffer holds, one frame for each call
that was accepted. -/
structure Asking (s : Client τ) : Prop where
  faults : s.faults = []
  requests : ∃ asking, List.Forall₂ Asks asking s.asked ∧
    s.exchange.net.link.taken ++ s.exchange.net.sbuf.unsent = asking.flatten

/-- Every reply that was read says what the peer answered, and is the one to one call, which its
number gives. When no request is outstanding, every call has its reply. -/
def Correlated (answers : List Answer) (s : Client τ) : Prop :=
  ∃ replies, s.exchange.got.map Got.reply = replies.map some ∧
    List.Forall₂ Reply.Says replies (answers.take replies.length) ∧
    (replies.map Reply.sync).Nodup ∧
    (∀ reply ∈ replies, ∃! asked, asked ∈ s.asked ∧ asked.1 = reply.sync) ∧
    (s.exchange.net.wrcnt = 0 → ∀ asked ∈ s.asked, ∃ reply ∈ replies, reply.sync = asked.1)

theorem nodup_asked (hmp : mp.Lawful) (n : Net τ) (first : UInt64) {actions : List ClientAct}
    (hcalls : actions.countP ClientAct.calls ≤ 2 ^ 64) :
    ((actions.foldl (act t mp) (start n first)).asked.map Prod.fst).Nodup := by
  obtain ⟨numbers, hnumbers, hsublist⟩ := @run_numbers _ t mp hmp actions (start n first)
  rw [hnumbers]
  exact hsublist.nodup (nodup_numbers first hcalls)

theorem Fresh.got (hmp : mp.Lawful) {n : Net τ} (hfresh : Fresh n) {first : UInt64}
    {actions : List ClientAct} {payloads : List Bytes}
    (hpayloads : ∀ payload ∈ payloads, Decodes mp payload)
    (hfed : Fed n.rbuf.unread (frames payloads)
      (actions.foldl (act t mp) (start n first)).exchange.net.link)
    (haccepted : (actions.foldl (act t mp) (start n first)).exchange.accepted ≤ payloads.length)
    (hcountable : Always (act t mp) (fun s => s.exchange.Countable) (start n first) actions) :
    (actions.foldl (act t mp) (start n first)).exchange.Inv mp n.rbuf.unread payloads := by
  obtain ⟨acts, hrun, halways⟩ := @run_exchange _ t mp hmp actions (start n first)
  rw [hrun] at hfed haccepted ⊢
  exact ((hfresh.inv first payloads).run hmp hpayloads acts hfed haccepted
    (halways _ hcountable)).1 acts (List.prefix_refl _)

/-- Where the numbers of the calls are different, and the peer answers each call once, a reply that
was read is the answer to one call. -/
theorem matched (hmp : mp.Lawful) {s : Client τ} (hnodup : (s.asked.map Prod.fst).Nodup)
    {served : List (Bytes × Answer)} (hserves : Serves served)
    (hanswers : (served.map fun p => p.2.value .sync).Perm (s.asked.map Prod.fst))
    (hgot : List.Forall₂ (Got.IsReplyOf mp)
      ((served.map Prod.fst).take s.exchange.got.length) s.exchange.got)
    (hcount : s.exchange.net.wrcnt.toNat + s.exchange.got.length = s.asked.length) :
    Correlated (served.map Prod.snd) s := by
  rw [← List.map_take] at hgot
  obtain ⟨replies, hreplies, hsays⟩ :=
    Serves.replies hmp (fun p hp => hserves p (List.mem_of_mem_take hp)) hgot
  have hread : replies.length = s.exchange.got.length := by
    simpa using (congrArg List.length hreplies).symm
  rw [List.map_take, ← hread] at hsays
  have hsync : replies.map Reply.sync =
      (served.map fun p => p.2.value .sync).take replies.length := by
    rw [map_sync_eq hsays, List.map_take, List.map_map]
    rfl
  refine ⟨replies, hreplies, hsays, ?_, ?_, ?_⟩
  · rw [hsync]
    exact (hanswers.nodup_iff.mpr hnodup).sublist (List.take_sublist _ _)
  · intro reply hreply
    have hmem : reply.sync ∈ s.asked.map Prod.fst := by
      have hsome := List.mem_map_of_mem (f := Reply.sync) hreply
      rw [hsync] at hsome
      exact hanswers.mem_iff.mp (List.mem_of_mem_take hsome)
    obtain ⟨asked, hasked, heq⟩ := List.mem_map.mp hmem
    refine ⟨asked, ⟨hasked, heq⟩, fun other ⟨hother, hsame⟩ => ?_⟩
    exact List.inj_on_of_nodup_map hnodup hother hasked (hsame.trans heq.symm)
  · intro hzero asked hasked
    -- all answers have been read, so that taking so many of them takes all
    have hall : replies.length = (served.map fun p => p.2.value .sync).length := by
      rw [hanswers.length_eq, List.length_map, hread, ← hcount, hzero]
      exact (Nat.zero_add _).symm
    rw [hall, List.take_length] at hsync
    have hmem : asked.1 ∈ replies.map Reply.sync := by
      rw [hsync, hanswers.mem_iff]
      exact List.mem_map_of_mem hasked
    exact List.mem_map.mp hmem

/-- At every moment of a run of calls, flushes and reads, on a transport that does not fail to take
what is sent, the client has asked for what was called. If moreover the peer answers each call that
was accepted once, in any order, and no read fails, the replies are those to the calls. -/
theorem run_correlated (hmp : mp.Lawful) (ht : t.AlwaysTakes) {n : Net τ} (hfresh : Fresh n)
    (first : UInt64) (actions : List ClientAct) :
    Always (act t mp) Asking (start n first) actions ∧
      ∀ served : List (Bytes × Answer), actions.countP ClientAct.calls ≤ 2 ^ 64 → Serves served →
        (served.map fun p => p.2.value .sync).Perm
          ((actions.foldl (act t mp) (start n first)).asked.map Prod.fst) →
        Fed n.rbuf.unread (frames (served.map Prod.fst))
          (actions.foldl (act t mp) (start n first)).exchange.net.link →
        Always (act t mp) (fun s => s.exchange.Countable) (start n first) actions →
        Correlated (served.map Prod.snd) (actions.foldl (act t mp) (start n first)) := by
  have halways := @always_of_step _ _ (act t mp) Sends (fun _ a h => h.act hmp ht a) _
    (hfresh.sends first) actions
  refine ⟨halways.imp fun s h => ⟨h.faults, h.account⟩, ?_⟩
  intro served hcalls hserves hanswers hfed hcountable
  have hsends := halways actions (List.prefix_refl _)
  have hpayloads : ∀ payload ∈ served.map Prod.fst, Decodes mp payload := by
    intro payload hpayload
    obtain ⟨p, hp, rfl⟩ := List.mem_map.mp hpayload
    exact decodes_of_encodes hmp (hserves p hp).1 (hserves p hp).2
  have haccepted : (actions.foldl (act t mp) (start n first)).exchange.accepted ≤
      (served.map Prod.fst).length := by
    have hlength := hanswers.length_eq
    rw [List.length_map, List.length_map] at hlength
    rw [List.length_map, hlength, hsends.accepted]
  obtain ⟨-, hgot, hcount⟩ := hfresh.got hmp hpayloads hfed haccepted hcountable
  rw [hsends.accepted] at hcount
  exact matched hmp (nodup_asked hmp n first hcalls) hserves hanswers hgot hcount

/-- A transport that takes what it is offered, and delivers the bytes of its state. -/
def mailbox : Transport Bytes where
  connect st := (.eok, st)
  close st := st
  recv room st := (Delivery.of st room, st.drop room)
  send data st := (Taking.atMost data.length data.length, st)
  sendv iov st := (Taking.atMost iov.flatten.length iov.flatten.length, st)
  txv := false

theorem mailbox_alwaysTakes : mailbox.AlwaysTakes := fun _ _ h =>
  Taking.atMost_ne_none (List.length_pos_of_ne_nil h) (List.length_pos_of_ne_nil h)

/-- The answer to a request, without data. -/
def emptyAnswer (sync : UInt64) : Answer :=
  ⟨[(.code, 0), (.sync, sync)], [], show [HeaderKey.code, .sync].Nodup by decide, by decide⟩

/-- The second request is answered first. -/
def swapped : List (Bytes × Answer) :=
  [([0x82, 0, 0, 1, 1, 0x80], emptyAnswer 1), ([0x82, 0, 0, 1, 0, 0x80], emptyAnswer 0)]

/-- A stream with buffers of 32 bytes, and the frames of these answers to be delivered. -/
def answered : Net Bytes where
  sbuf := { buf := some (List.replicate 32 0) }
  rbuf := { buf := some (List.replicate 32 0) }
  greeting := []
  link := { state := frames (swapped.map Prod.fst) }

/-- Two calls, whose replies are read one by one and in a loop. -/
def twoPings : List ClientAct :=
  [.call (fun _ => 0) .ping, .call (fun _ => 0) .ping, .flush, .readReply (Reply.init false),
    .iterate]

theorem run_correlated_swapped :
    Always (act mailbox .reference) Asking (start answered 0) twoPings ∧
      Correlated (swapped.map Prod.snd)
        (twoPings.foldl (act mailbox .reference) (start answered 0)) := by
  obtain ⟨hasking, hcorrelated⟩ := run_correlated Msgpuck.reference_lawful mailbox_alwaysTakes
    (n := answered) ⟨by decide, rfl, ⟨by decide, by decide⟩, rfl, rfl, rfl⟩ 0 twoPings
  refine ⟨hasking, hcorrelated swapped (by decide) ?_ (by decide) ⟨by decide, by decide⟩ ?_⟩
  · intro p hp
    rcases List.mem_cons.mp hp with rfl | hp
    · exact ⟨by decide, [0x82], [([0], [0]), ([1], [1])], [0x80], [], by decide,
        .cons ⟨by decide, by decide⟩ (.cons ⟨by decide, by decide⟩ .nil), by decide, .nil,
        by decide⟩
    · rw [List.mem_singleton] at hp
      subst hp
      exact ⟨by decide, [0x82], [([0], [0]), ([1], [0])], [0x80], [], by decide,
        .cons ⟨by decide, by decide⟩ (.cons ⟨by decide, by decide⟩ .nil), by decide, .nil,
        by decide⟩
  · unfold twoPings
    simp only [always_cons, always_nil]
    unfold Exchange.Countable
    decide

end Client

end BeeC
