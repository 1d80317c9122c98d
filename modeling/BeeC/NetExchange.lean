import Mathlib.Data.List.Forall2
import BeeC.Wire.Run
import BeeC.IoSend
import BeeC.NetDelivery
import BeeC.Script

namespace BeeC

open BeeC.Wire.Run
open BeeC.Wire.MessagePack

variable {τ : Type} {t : Transport τ} {mp : Msgpuck}

/-- What a caller does with a stream. -/
inductive Act where
  | write (buf : Bytes)
  | writev (iov : List Bytes)
  | flush
  | readReply (r : Reply)
  | iterate

/-- What a caller gets of a reply: the result of `read_reply` for a given reply to fill in, or the
reply that a loop comes to. -/
inductive Got where
  | read (r : Reply) (out : Except Fault (Int × Reply))
  | visited (reply : Reply)

/-- The call has read the reply of the payload. -/
def Got.IsReplyOf (mp : Msgpuck) (payload : Bytes) : Got → Prop
  | read r out => ∃ reply, out = .ok (0, reply) ∧ BeeC.IsReplyOf mp r payload reply
  | visited reply => BeeC.IsReplyOf mp (Reply.init false) payload reply

/-- A network stream, the number of requests it has accepted, and what has been read from it. -/
structure Exchange (τ : Type) where
  net : Net τ
  accepted : Nat := 0
  got : List Got := []

namespace Exchange

def wrote (s : Exchange τ) : Ssize × Net τ → Exchange τ
  | (rc, net) => { s with net, accepted := if rc = -1 then s.accepted else s.accepted + 1 }

/-- A result of `read_reply` other than `1` is what it has read. -/
def replied (s : Exchange τ) (r : Reply) : Except Fault (Int × Reply) × Net τ → Exchange τ
  | (out, net) =>
      { s with net, got := if out.map Prod.fst = .ok 1 then s.got else s.got ++ [.read r out] }

def looped (s : Exchange τ) : Except Fault Iteration × Net τ → Exchange τ
  | (.error _, net) => { s with net }
  | (.ok i, net) => { s with net, got := s.got ++ i.visited.map .visited }

variable (t mp) in
def act (s : Exchange τ) : Act → Exchange τ
  | .write buf => s.wrote (beerNetWrite t buf s.net)
  | .writev iov => s.wrote (beerNetWritev t iov s.net)
  | .flush => { s with net := (beerFlush t s.net).2 }
  | .readReply r => s.replied r (beerNetReply t mp r s.net)
  | .iterate => s.looped (BeeC.iterate t mp s.net)

theorem looped_net (s : Exchange τ) (out : Except Fault Iteration × Net τ) :
    (s.looped out).net = out.2 ∧ (s.looped out).accepted = s.accepted := by
  rcases out with ⟨reason | i, net⟩ <;> exact ⟨rfl, rfl⟩

end Exchange

theorem count_onlySends {n : Net τ} {out : Ssize × Net τ} (h : OnlySends n out.2) :
    (Net.count out).1 = out.1 ∧ (Net.count out).2.rbuf = n.rbuf ∧
      (Net.count out).2.link.heard = n.link.heard ∧
      (Net.count out).2.wrcnt = if out.1 = -1 then n.wrcnt else n.wrcnt + 1 := by
  obtain ⟨rc, n'⟩ := out
  obtain ⟨sbuf, link, error, rfl, hheard⟩ := h
  dsimp only [Net.count]
  split <;> exact ⟨rfl, rfl, hheard, rfl⟩

namespace Exchange

theorem act_extends (s : Exchange τ) (a : Act) (h : s.net.rbuf.Readable) :
    (∃ heard, (s.act t mp a).net.link.heard = s.net.link.heard ++ heard) ∧
      (s.act t mp a).net.rbuf.Readable ∧ s.accepted ≤ (s.act t mp a).accepted := by
  have hwrote : ∀ out : Ssize × Net τ, OnlySends s.net out.2 →
      (∃ heard, (s.wrote (Net.count out)).net.link.heard = s.net.link.heard ++ heard) ∧
        (s.wrote (Net.count out)).net.rbuf.Readable ∧
          s.accepted ≤ (s.wrote (Net.count out)).accepted := by
    intro out hout
    obtain ⟨-, hrbuf, hheard, -⟩ := count_onlySends hout
    refine ⟨⟨[], by rw [List.append_nil]; exact hheard⟩, hrbuf ▸ h, ?_⟩
    unfold wrote
    dsimp only
    split <;> omega
  cases a with
  | write buf => exact hwrote _ (beerIoSend_onlySends buf s.net)
  | writev iov => exact hwrote _ (beerIoSendv_onlySends iov s.net)
  | flush =>
      obtain ⟨sbuf, link, error, hnet, hheard⟩ := @beerIoFlush_onlySends _ t s.net
      simp only [act, beerFlush, hnet]
      exact ⟨⟨[], by rw [List.append_nil]; exact hheard⟩, h, le_refl _⟩
  | readReply r =>
      obtain ⟨heard, hhears, hreadable⟩ := @beerNetReply_hears _ t mp r _ h
      exact ⟨⟨heard, hhears.heard_eq⟩, hreadable, le_refl _⟩
  | iterate =>
      obtain ⟨heard, hhears, hreadable⟩ :=
        @iterateFrom_hears _ t mp (s.net.wrcnt.toNat + 1) {} _ h
      obtain ⟨hnet, haccepted⟩ := s.looped_net (BeeC.iterate t mp s.net)
      rw [act, hnet, haccepted]
      exact ⟨⟨heard, hhears.heard_eq⟩, hreadable, le_refl _⟩

theorem run_extends (actions : List Act) {s : Exchange τ} (h : s.net.rbuf.Readable) :
    (∃ heard, (actions.foldl (act t mp) s).net.link.heard = s.net.link.heard ++ heard) ∧
      s.accepted ≤ (actions.foldl (act t mp) s).accepted := by
  induction actions generalizing s with
  | nil => exact ⟨⟨[], by simp⟩, le_refl _⟩
  | cons a actions ih =>
      obtain ⟨⟨heard, hheard⟩, hreadable, hle⟩ := @act_extends _ t mp s a h
      obtain ⟨⟨more, hmore⟩, hle'⟩ := ih hreadable
      refine ⟨⟨heard ++ more, ?_⟩, hle.trans hle'⟩
      rw [List.foldl_cons, hmore, hheard, List.append_assoc]

variable (mp) in
/-- The invariant: so many frames have been handed over as have been read, each has been read as
what it is, and the other requests are outstanding. -/
structure Inv (base : Bytes) (payloads : List Bytes) (s : Exchange τ) : Prop where
  handed : HandedOver base (frames (payloads.take s.got.length)) s.net
  got : List.Forall₂ (Got.IsReplyOf mp) (payloads.take s.got.length) s.got
  count : s.net.wrcnt.toNat + s.got.length = s.accepted

/-- The number of requests that are written and not yet answered to the caller is small enough to
be counted. -/
def Countable (s : Exchange τ) : Prop := s.accepted < s.got.length + 2 ^ 32

section Step

variable {base : Bytes} {payloads : List Bytes} {s : Exchange τ}

theorem Inv.wrote (h : s.Inv mp base payloads) {out : Ssize × Net τ} (hout : OnlySends s.net out.2)
    (hcountable : (s.wrote (Net.count out)).Countable) :
    (s.wrote (Net.count out)).Inv mp base payloads := by
  obtain ⟨hrc, hrbuf, hheard, hwrcnt⟩ := count_onlySends hout
  obtain ⟨⟨hreadable, harrived⟩, hgot, hcount⟩ := h
  unfold Countable Exchange.wrote at hcountable
  unfold Exchange.wrote
  dsimp only at hcountable ⊢
  rw [hrc] at hcountable ⊢
  refine ⟨⟨?_, ?_⟩, hgot, ?_⟩
  · rw [hrbuf]
    exact hreadable
  · rw [hrbuf, hheard]
    exact harrived
  · rw [hwrcnt]
    split
    · exact hcount
    · rename_i haccepted
      rw [if_neg haccepted] at hcountable
      have hone : (1 : UInt32).toNat = 1 := rfl
      dsimp only
      rw [UInt32.toNat_add, hone]
      omega

theorem frames_split (payloads : List Bytes) (k : Nat) :
    frames payloads = frames (payloads.take k) ++ frames (payloads.drop k) := by
  rw [frames, frames, frames, ← List.flatten_append, ← List.map_append, List.take_append_drop]

theorem Inv.replied (hmp : mp.Lawful) (h : s.Inv mp base payloads)
    (hpayloads : ∀ payload ∈ payloads, Decodes mp payload) (haccepted : s.accepted ≤ payloads.length)
    (r : Reply) (hfed : Fed base (frames payloads) (beerNetReply t mp r s.net).2.link) :
    (s.act t mp (.readReply r)).Inv mp base payloads ∧
      ((∃ r', (beerNetReply t mp r s.net).1 = .ok (1, r')) ↔ s.net.wrcnt = 0) := by
  by_cases hwrcnt : s.net.wrcnt = 0
  · have hreply : beerNetReply t mp r s.net = (.ok (1, r), s.net) := if_pos hwrcnt
    rw [act, hreply]
    exact ⟨h, iff_of_true ⟨r, rfl⟩ hwrcnt⟩
  · have hpos : 0 < s.net.wrcnt.toNat :=
      Nat.pos_of_ne_zero fun h0 => hwrcnt (UInt32.toNat_inj.mp h0)
    obtain ⟨hhanded, hgot, hcount⟩ := h
    have hlt : s.got.length < payloads.length := by omega
    have hnext := List.drop_eq_getElem_cons hlt
    have htake := List.take_succ_eq_append_getElem hlt
    have hwire : frames payloads = frames (payloads.take s.got.length) ++
        (frame payloads[s.got.length] ++ frames (payloads.drop (s.got.length + 1))) := by
      rw [frames_split payloads s.got.length, hnext]
      rfl
    rw [hwire] at hfed
    obtain ⟨reply, hreply, halone, hbuf, hafter, hless⟩ :=
      hhanded.reply hmp (hpayloads _ (List.getElem_mem hlt)) hwrcnt r hfed
    have hless : (beerNetReply t mp r s.net).2.wrcnt.toNat = s.net.wrcnt.toNat - 1 := by
      rw [hless, UInt32.toNat_sub_of_le _ _ (by rw [UInt32.le_iff_toNat_le]; exact hpos)]
      rfl
    rw [act, Exchange.replied, hreply]
    refine ⟨⟨?_, ?_, ?_⟩, iff_of_false (by rintro ⟨r', h⟩; cases h) hwrcnt⟩
    all_goals
      simp only [Except.map, Except.ok.injEq, zero_ne_one, ite_false, List.length_append,
        List.length_singleton, htake]
    · rw [frames, List.map_append, List.flatten_append]
      simpa [frames] using hafter
    · exact List.rel_append hgot (.cons ⟨reply, rfl, halone, hbuf⟩ .nil)
    · omega

theorem Inv.looped (hmp : mp.Lawful) (h : s.Inv mp base payloads)
    (hpayloads : ∀ payload ∈ payloads, Decodes mp payload) (haccepted : s.accepted ≤ payloads.length)
    (hfed : Fed base (frames payloads) (BeeC.iterate t mp s.net).2.link) :
    (s.act t mp .iterate).Inv mp base payloads ∧
      ∃ i, (BeeC.iterate t mp s.net).1 = .ok i ∧ i.status = .ok ∧ i.stopped ∧
        i.visited.length = s.net.wrcnt.toNat := by
  obtain ⟨hhanded, hgot, hcount⟩ := h
  rw [frames_split payloads s.got.length] at hfed
  have hleft : (payloads.drop s.got.length).length = payloads.length - s.got.length :=
    List.length_drop
  obtain ⟨visited, n', hloop, hvisited, hafter, hzero⟩ :=
    hhanded.iterate hmp (fun p hp => hpayloads p (List.mem_of_mem_drop hp)) (by omega)
      (Nat.lt_succ_self _) hfed
  have hlength : visited.length = s.net.wrcnt.toNat := by
    rw [← hvisited.length_eq, List.length_take]
    omega
  have hloop : BeeC.iterate t mp s.net = (.ok ⟨visited, .ok, true⟩, n') := hloop
  rw [act, hloop]
  refine ⟨⟨?_, ?_, ?_⟩, _, rfl, rfl, rfl, hlength⟩
  all_goals
    simp only [Exchange.looped, List.length_append, List.length_map, hlength, List.take_add]
  · rw [frames, List.map_append, List.flatten_append]
    exact hafter
  · refine List.rel_append hgot ?_
    exact List.forall₂_map_right_iff.mpr hvisited
  · rw [hzero]
    exact (Nat.zero_add _).trans (by omega)

end Step

end Exchange

/-- The replies come out of the stream as out of a queue: the `k`-th is the `k`-th frame of the
peer, the stream counts the requests that are outstanding and says so when there is none, and a
loop takes all of them out. -/
structure Served (t : Transport τ) (mp : Msgpuck) (payloads : List Bytes) (s : Exchange τ)
    (actions : List Act) : Prop where
  replies : ∀ (k : Nat) (g : Got), (actions.foldl (Exchange.act t mp) s).got[k]? = some g →
    ∃ payload, payloads[k]? = some payload ∧ g.IsReplyOf mp payload
  count : Always (Exchange.act t mp)
    (fun s => s.net.wrcnt.toNat + s.got.length = s.accepted) s actions
  one_iff : Every (Exchange.act t mp) (fun s a => ∀ r, a = .readReply r →
    ((∃ r', (beerNetReply t mp r s.net).1 = .ok (1, r')) ↔ s.net.wrcnt = 0)) s actions
  loops : Every (Exchange.act t mp) (fun s a => a = .iterate →
    ∃ i, (iterate t mp s.net).1 = .ok i ∧ i.status = .ok ∧ i.stopped ∧
      i.visited.length = s.net.wrcnt.toNat) s actions

theorem Exchange.Inv.act (hmp : mp.Lawful) {base : Bytes} {payloads : List Bytes} {s : Exchange τ}
    (h : s.Inv mp base payloads) (hpayloads : ∀ payload ∈ payloads, Decodes mp payload) (a : Act)
    (hfed : Fed base (frames payloads) (s.act t mp a).net.link)
    (haccepted : (s.act t mp a).accepted ≤ payloads.length)
    (hcountable : (s.act t mp a).Countable) :
    (s.act t mp a).Inv mp base payloads := by
  have hle := (@Exchange.act_extends _ t mp s a h.handed.readable).2.2
  cases a with
  | write buf => exact h.wrote (beerIoSend_onlySends buf s.net) hcountable
  | writev iov => exact h.wrote (beerIoSendv_onlySends iov s.net) hcountable
  | flush =>
      obtain ⟨sbuf, link, error, hnet, hheard⟩ := @beerIoFlush_onlySends _ t s.net
      obtain ⟨⟨hreadable, harrived⟩, hgot, hcount⟩ := h
      simp only [Exchange.act, beerFlush, hnet]
      exact ⟨⟨hreadable, by rw [hheard]; exact harrived⟩, hgot, hcount⟩
  | readReply r => exact (h.replied hmp hpayloads (hle.trans haccepted) r hfed).1
  | iterate =>
      rw [Exchange.act, (s.looped_net _).1] at hfed
      exact (h.looped hmp hpayloads (hle.trans haccepted) hfed).1

theorem Exchange.Inv.run (hmp : mp.Lawful) {base : Bytes} {payloads : List Bytes} {s : Exchange τ}
    (h : s.Inv mp base payloads) (hpayloads : ∀ payload ∈ payloads, Decodes mp payload)
    (actions : List Act)
    (hfed : Fed base (frames payloads) (actions.foldl (Exchange.act t mp) s).net.link)
    (haccepted : (actions.foldl (Exchange.act t mp) s).accepted ≤ payloads.length)
    (hcountable : Always (Exchange.act t mp) Exchange.Countable s actions) :
    Always (Exchange.act t mp) (Exchange.Inv mp base payloads) s actions ∧
      Every (Exchange.act t mp) (fun s a => s.Inv mp base payloads ∧
        s.accepted ≤ payloads.length ∧ Fed base (frames payloads) (s.act t mp a).net.link)
        s actions := by
  induction actions generalizing s with
  | nil => exact ⟨always_nil.mpr h, every_nil⟩
  | cons a actions ih =>
      rw [List.foldl_cons] at hfed haccepted
      obtain ⟨-, hreadable, hle⟩ := @Exchange.act_extends _ t mp s a h.handed.readable
      obtain ⟨⟨heard, hheard⟩, hle'⟩ := @Exchange.run_extends _ t mp actions _ hreadable
      have hcountable' := (always_cons.mp hcountable).2
      have hfed' : Fed base (frames payloads) (s.act t mp a).net.link := hfed.before hheard
      have hnext := h.act hmp hpayloads a hfed' (hle'.trans haccepted)
        (hcountable' [] List.nil_prefix)
      obtain ⟨halways, hevery⟩ := ih hnext hfed haccepted hcountable'
      exact ⟨always_cons.mpr ⟨h, halways⟩,
        every_cons.mpr ⟨⟨h, (hle.trans hle').trans haccepted, hfed'⟩, hevery⟩⟩

/-- Over every run that writes requests and reads replies, on a stream with a receive buffer of
any size, as long as the peer delivers one frame for each request and no read fails, the replies
are served in order. -/
theorem run_served (hmp : mp.Lawful) {n : Net τ} (hreadable : n.rbuf.Readable)
    (hheard : n.link.heard = []) (hwrcnt : n.wrcnt = 0) {payloads : List Bytes}
    (hpayloads : ∀ payload ∈ payloads, Decodes mp payload) (actions : List Act)
    (hfed : Fed n.rbuf.unread (frames payloads)
      (actions.foldl (Exchange.act t mp) { net := n }).net.link)
    (haccepted : (actions.foldl (Exchange.act t mp) { net := n }).accepted ≤ payloads.length)
    (hcountable : Always (Exchange.act t mp) Exchange.Countable { net := n } actions) :
    Served t mp payloads { net := n } actions := by
  have hinit : Exchange.Inv mp n.rbuf.unread payloads { net := n } := by
    refine ⟨⟨hreadable, ?_⟩, .nil, ?_⟩
    · simp [hheard, frames]
    · simp [hwrcnt]
  obtain ⟨halways, hevery⟩ := hinit.run hmp hpayloads actions hfed haccepted hcountable
  refine ⟨fun k g hg => ?_, fun done hdone => (halways done hdone).count,
    fun done a hdone r ha => ?_, fun done a hdone ha => ?_⟩
  · obtain ⟨-, hgot, -⟩ := halways actions (List.prefix_refl _)
    obtain ⟨hk, rfl⟩ := List.getElem?_eq_some_iff.mp hg
    have hk' := hgot.length_eq ▸ hk
    have hreply := hgot.get hk' hk
    have hlt : k < payloads.length := by
      rw [List.length_take] at hk'
      omega
    refine ⟨payloads[k], List.getElem?_eq_getElem hlt, ?_⟩
    simpa using hreply
  · obtain ⟨hinv, hle, hfed'⟩ := hevery done a hdone
    subst ha
    exact (hinv.replied hmp hpayloads hle r hfed').2
  · obtain ⟨hinv, hle, hfed'⟩ := hevery done a hdone
    subst ha
    rw [Exchange.act, (Exchange.looped_net _ _).1] at hfed'
    exact (hinv.looped hmp hpayloads hle hfed').2

/-- A stream with buffers of eight bytes, and a peer that delivers two frames in pieces. -/
def piecemeal : Net Script :=
  (beerInit { beerNet [] { gives := [
      some [0xce, 0, 0, 0], some [6, 0x82, 0, 0, 1], some [7, 0x80, 0xce, 0, 0, 0, 6, 0x82, 0],
      some [0, 1, 8, 0x80]] : Script } with opt := { sendBuf := 8, recvBuf := 8 } }).2

theorem run_served_piecemeal :
    Served Script.transport Msgpuck.reference [[0x82, 0, 0, 1, 7, 0x80], [0x82, 0, 0, 1, 8, 0x80]]
      { net := piecemeal }
      [.write [1], .readReply (Reply.init false), .writev [[2], [3]], .iterate] := by
  refine run_served Msgpuck.reference_lawful (beerInit_readable ⟨by decide, by decide⟩) rfl rfl
    ?_ _ ⟨by decide, by decide⟩ (by decide) ?_
  · intro payload hpayload
    rcases List.mem_cons.mp hpayload with rfl | hpayload
    · exact ⟨by decide, Reply.init false, _, rfl⟩
    · rw [List.mem_singleton] at hpayload
      subst hpayload
      exact ⟨by decide, Reply.init false, _, rfl⟩
  · simp only [always_cons, always_nil]
    unfold Exchange.Countable
    decide

end BeeC
