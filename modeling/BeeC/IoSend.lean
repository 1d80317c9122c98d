import BeeC.Io

namespace BeeC

open BeeC.Wire.MessagePack

variable {τ : Type} {t : Transport τ}

/-- Offered some bytes, and then those it has not taken, the transport fails before it has taken
all of them. -/
inductive Transport.Breaks (t : Transport τ) : Bytes → τ → Prop
  | fails {data : Bytes} {st : τ} (h : (t.send data st).1 = none) : t.Breaks data st
  | later {data : Bytes} {st : τ} {r : Taking data.length} (h : (t.send data st).1 = some r)
      (hmore : r.count < data.length)
      (hbreaks : t.Breaks (data.drop r.count) (t.send data st).2) : t.Breaks data st

/-- Offered some parts, and then those it has not taken, the transport fails before none are left. A
callback is offered no more than `IOV_MAX` of them at once. -/
inductive Transport.BreaksParts (t : Transport τ) : List Bytes → τ → Prop
  | fails {iov : List Bytes} {st : τ} (hleft : iov ≠ [])
      (h : (t.sendv (if t.txv then iov.take Link.iovMax else iov) st).1 = none) :
      t.BreaksParts iov st
  | later {iov : List Bytes} {st : τ}
      {r : Taking (if t.txv then iov.take Link.iovMax else iov).flatten.length} (hleft : iov ≠ [])
      (h : (t.sendv (if t.txv then iov.take Link.iovMax else iov) st).1 = some r)
      (hbreaks : t.BreaksParts (Link.advance r.count iov)
        (t.sendv (if t.txv then iov.take Link.iovMax else iov) st).2) : t.BreaksParts iov st

namespace Link

/-- One state of a link follows another by writes that took some bytes. -/
structure Takes (l : Link τ) (sent : Bytes) (l' : Link τ) : Prop where
  taken_eq : l'.taken = l.taken ++ sent
  heard_eq : l'.heard = l.heard

theorem Takes.refl (l : Link τ) : l.Takes [] l := ⟨by simp, rfl⟩

theorem Takes.trans {l l' l'' : Link τ} {sent more : Bytes} (h : l.Takes sent l')
    (h' : l'.Takes more l'') : l.Takes (sent ++ more) l'' :=
  ⟨by rw [h'.taken_eq, h.taken_eq, List.append_assoc], h'.heard_eq.trans h.heard_eq⟩

theorem send_cases (data : Bytes) (l : Link τ) :
    (∃ l', l.send t data = (none, l') ∧ l.Takes [] l') ∨
      ∃ r l' first rest, l.send t data = (some r, l') ∧ data = first ++ rest ∧ first ≠ [] ∧
        r.count = first.length ∧ l.Takes first l' := by
  have htakes : l.Takes (data.take ((l.send t data).1.elim 0 Taking.count)) (l.send t data).2 :=
    ⟨rfl, rfl⟩
  cases hsend : l.send t data with
  | mk r l' =>
      rw [hsend] at htakes
      cases r with
      | none => exact .inl ⟨l', rfl, htakes⟩
      | some r =>
          have hlength : (data.take r.count).length = r.count := by
            rw [List.length_take, Nat.min_eq_left r.count_le]
          refine .inr ⟨r, l', data.take r.count, data.drop r.count, rfl,
            (List.take_append_drop _ _).symm, ?_, hlength.symm, htakes⟩
          exact List.ne_nil_of_length_pos (r.count_pos.trans_eq hlength.symm)

theorem sendv_cases (iov : List Bytes) (l : Link τ) :
    (∃ l', l.sendv t iov = (none, l') ∧ l.Takes [] l') ∨
      ∃ r l' first rest, l.sendv t iov = (some r, l') ∧ iov.flatten = first ++ rest ∧ first ≠ [] ∧
        r.count = first.length ∧ l.Takes first l' := by
  have htakes : l.Takes (iov.flatten.take ((l.sendv t iov).1.elim 0 Taking.count))
      (l.sendv t iov).2 := ⟨rfl, rfl⟩
  cases hsend : l.sendv t iov with
  | mk r l' =>
      rw [hsend] at htakes
      cases r with
      | none => exact .inl ⟨l', rfl, htakes⟩
      | some r =>
          have hlength : (iov.flatten.take r.count).length = r.count := by
            rw [List.length_take, Nat.min_eq_left r.count_le]
          refine .inr ⟨r, l', iov.flatten.take r.count, iov.flatten.drop r.count, rfl,
            (List.take_append_drop _ _).symm, ?_, hlength.symm, htakes⟩
          exact List.ne_nil_of_length_pos (r.count_pos.trans_eq hlength.symm)

/-- How a call that is to send some bytes ends, when others have been sent before. -/
def SendEnds (before : Nat) (bytes : Bytes) (l : Link τ) (out : Ssize × Link τ) : Prop :=
  ∃ sent, l.Takes sent out.2 ∧
    ((out.1 = (before + bytes.length : Nat) ∧ sent = bytes) ∨
      (out.1 = -1 ∧ sent <+: bytes ∧ (bytes ≠ [] → sent ≠ bytes)))

theorem SendEnds.after_takes {before : Nat} {sent bytes : Bytes} {l l' : Link τ}
    {out : Ssize × Link τ} (h : l.Takes sent l') (hbytes : bytes = [] → out.1 ≠ -1)
    (hout : SendEnds (before + sent.length) bytes l' out) :
    SendEnds before (sent ++ bytes) l out := by
  obtain ⟨more, htakes, hends⟩ := hout
  refine ⟨sent ++ more, h.trans htakes, ?_⟩
  rcases hends with ⟨hrc, rfl⟩ | ⟨hrc, hfront, hne⟩
  · exact .inl ⟨by rw [hrc, List.length_append, Nat.add_assoc], rfl⟩
  · refine .inr ⟨hrc, (List.prefix_append_right_inj sent).mpr hfront, fun _ heq => ?_⟩
    exact hne (fun hnil => hbytes hnil hrc) (List.append_cancel_left heq)

theorem sendEnds_none (before : Nat) (bytes : Bytes) {l l' : Link τ} (h : l.Takes [] l') :
    SendEnds before bytes l (-1, l') :=
  ⟨[], h, .inr ⟨rfl, List.nil_prefix, fun hne => hne.symm⟩⟩

theorem sendFrom_ends (buf : Bytes) {fuel off : Nat} (l : Link τ)
    (hoff : off ≤ buf.length) (hfuel : buf.length < off + fuel) :
    SendEnds off (buf.drop off) l (l.sendFrom t true buf fuel off) := by
  induction fuel generalizing off l with
  | zero => omega
  | succ fuel ih =>
      unfold sendFrom
      rcases @send_cases _ t (buf.drop off) l with ⟨l', hsend, htakes⟩ |
        ⟨r, l', first, rest, hsend, hdata, hfirst, hcount, htakes⟩
      · rw [hsend]
        exact sendEnds_none _ _ htakes
      · rw [hsend]
        dsimp only
        have hpos := List.length_pos_of_ne_nil hfirst
        have hlength : buf.length - off = first.length + rest.length := by
          rw [← List.length_drop, hdata, List.length_append]
        have hrest : buf.drop (off + first.length) = rest := by
          rw [← List.drop_drop, hdata, List.drop_left]
        rw [hcount, hdata]
        split
        · rename_i hmore
          have hends := ih l' (show off + first.length ≤ buf.length by omega) (by omega)
          rw [hrest] at hends
          have hne : rest ≠ [] := List.ne_nil_of_length_pos (by omega)
          exact hends.after_takes htakes (fun hnil => absurd hnil hne)
        · rename_i hdone
          have hall : off + first.length = buf.length := by
            by_contra hne
            exact hdone ⟨hne, rfl⟩
          have hnil : rest = [] := List.eq_nil_of_length_eq_zero (by omega)
          subst hnil
          rw [List.append_nil]
          exact ⟨first, htakes, .inl ⟨rfl, rfl⟩⟩

theorem sendFrom_eq_neg_one_iff (buf : Bytes) {fuel off : Nat} (l : Link τ)
    (hoff : off ≤ buf.length) (hfuel : buf.length < off + fuel) :
    (l.sendFrom t true buf fuel off).1 = -1 ↔ t.Breaks (buf.drop off) l.state := by
  induction fuel generalizing off l with
  | zero => omega
  | succ fuel ih =>
      unfold sendFrom send
      cases hsend : (t.send (buf.drop off) l.state).1 with
      | none => exact iff_of_true rfl (.fails hsend)
      | some r =>
          have hpos := r.count_pos
          have hle : r.count ≤ buf.length - off := r.count_le.trans_eq List.length_drop
          have hbreaks : t.Breaks (buf.drop off) l.state ↔ r.count < (buf.drop off).length ∧
              t.Breaks (buf.drop (off + r.count)) (t.send (buf.drop off) l.state).2 := by
            rw [← List.drop_drop]
            constructor
            · rintro (h | ⟨h, hmore, hbreaks⟩)
              · rw [hsend] at h
                cases h
              · rw [hsend, Option.some.injEq] at h
                subst h
                exact ⟨hmore, hbreaks⟩
            · rintro ⟨hmore, hbreaks⟩
              exact .later hsend hmore hbreaks
          have hlt : r.count < (buf.drop off).length ↔ off + r.count ≠ buf.length := by
            refine @Iff.trans _ (r.count < buf.length - off) _ ?_ (by omega)
            exact iff_of_eq (congrArg (r.count < ·) List.length_drop)
          rw [hbreaks, hlt]
          dsimp only
          split
          · rename_i hmore
            rw [ih _ (by omega) (by omega)]
            exact (and_iff_right hmore.1).symm
          · rename_i hdone
            have hall : off + r.count = buf.length := by
              by_contra hne
              exact hdone ⟨hne, rfl⟩
            exact iff_of_false (natCast_ne_neg_one _) (fun h => h.1 hall)

theorem sendFrom_taken_eq_iff (buf : Bytes) {fuel off : Nat} (l : Link τ)
    (hoff : off ≤ buf.length) (hfuel : buf.length < off + fuel) :
    (l.sendFrom t true buf fuel off).2.taken = l.taken ↔
      (t.send (buf.drop off) l.state).1 = none := by
  obtain ⟨fuel, rfl⟩ : ∃ n, fuel = n + 1 := ⟨fuel - 1, by omega⟩
  have hfst : (l.send t (buf.drop off)).1 = (t.send (buf.drop off) l.state).1 := rfl
  unfold sendFrom
  rcases @send_cases _ t (buf.drop off) l with ⟨l', hsend, htakes⟩ |
    ⟨r, l', first, rest, hsend, hdata, hfirst, hcount, htakes⟩
  · rw [← hfst, hsend]
    exact iff_of_true (by simpa using htakes.taken_eq) rfl
  · rw [← hfst, hsend]
    dsimp only
    refine iff_of_false (fun h => hfirst ?_) (by simp)
    have hlength : buf.length - off = first.length + rest.length := by
      rw [← List.length_drop, hdata, List.length_append]
    have hpos := List.length_pos_of_ne_nil hfirst
    obtain ⟨sent, hsent⟩ : ∃ sent, l'.Takes sent
        (if off + r.count ≠ buf.length ∧ true = true
          then sendFrom t true buf fuel (off + r.count) l'
          else ((off + r.count : Nat), l')).2 := by
      split
      · obtain ⟨sent, hsent, -⟩ := @sendFrom_ends _ t buf fuel _ l'
          (show off + r.count ≤ buf.length by omega) (by omega)
        exact ⟨sent, hsent⟩
      · exact ⟨[], .refl l'⟩
    have htaken := (htakes.trans hsent).taken_eq
    rw [h, List.self_eq_append_right, List.append_eq_nil_iff] at htaken
    exact htaken.1

theorem flatten_advance {r : Nat} {iov : List Bytes} (h : r ≤ iov.flatten.length) :
    (advance r iov).flatten = iov.flatten.drop r := by
  induction iov generalizing r with
  | nil => simp [advance]
  | cons part parts ih =>
      rw [List.flatten_cons, List.length_append] at h
      rw [advance]
      split
      · rename_i hlt
        rw [List.flatten_cons, List.flatten_cons, List.drop_append_of_le_length (by omega)]
      · rename_i hge
        have hpart : part.drop r = [] := List.drop_of_length_le (by omega)
        rw [ih (by omega), List.flatten_cons, List.drop_append, hpart, List.nil_append]

theorem advance_head_ne_nil {r : Nat} {iov parts : List Bytes} {part : Bytes}
    (h : advance r iov = part :: parts) : part ≠ [] := by
  induction iov generalizing r with
  | nil => cases h
  | cons first rest ih =>
      rw [advance] at h
      split at h
      · rename_i hlt
        cases h
        rw [ne_eq, List.drop_eq_nil_iff]
        omega
      · exact ih h

theorem flatten_advance_ne_nil {r : Nat} {iov : List Bytes} (h : advance r iov ≠ []) :
    (advance r iov).flatten ≠ [] := by
  cases hadvance : advance r iov with
  | nil => exact absurd hadvance h
  | cons part parts => simp [advance_head_ne_nil hadvance]

theorem advance_window (txv : Bool) (r : Nat) (iov : List Bytes) :
    advance r iov = [] ∨
      (if txv then (advance r iov).take iovMax else advance r iov).flatten ≠ [] := by
  cases hadvance : advance r iov with
  | nil => exact .inl rfl
  | cons part parts =>
      have hpart := advance_head_ne_nil hadvance
      refine .inr ?_
      split <;> simp [iovMax, hpart]

theorem window_flatten_front (txv : Bool) (iov : List Bytes) :
    (if txv then iov.take iovMax else iov).flatten <+: iov.flatten := by
  split
  · conv_rhs => rw [← List.take_append_drop iovMax iov, List.flatten_append]
    exact List.prefix_append _ _
  · exact List.prefix_refl _

theorem sendvFrom_ends {fuel total : Nat} {iov : List Bytes} (l : Link τ)
    (hfuel : iov.flatten.length < fuel) :
    SendEnds total iov.flatten l (l.sendvFrom t true fuel total iov) := by
  induction fuel generalizing total iov l with
  | zero => omega
  | succ fuel ih =>
      cases iov with
      | nil => exact ⟨[], .refl l, .inl ⟨rfl, rfl⟩⟩
      | cons part parts =>
          obtain ⟨beyond, hwindow⟩ := window_flatten_front t.txv (part :: parts)
          unfold sendvFrom
          dsimp only
          rcases @sendv_cases _ t (if t.txv then (part :: parts).take iovMax else part :: parts) l
            with ⟨l', hsend, htakes⟩ | ⟨r, l', first, rest, hsend, hdata, hfirst, hcount, htakes⟩
          · rw [hsend]
            exact sendEnds_none _ _ htakes
          · rw [hsend]
            dsimp only
            have hpos := List.length_pos_of_ne_nil hfirst
            rw [hdata, List.append_assoc] at hwindow
            have hleft : (advance first.length (part :: parts)).flatten = rest ++ beyond := by
              rw [flatten_advance (by rw [← hwindow, List.length_append]; omega), ← hwindow,
                List.drop_left]
            have hlength : (part :: parts).flatten.length =
                first.length + (rest ++ beyond).length := by rw [← hwindow, List.length_append]
            rw [if_pos rfl, hcount, ← hwindow]
            have hends := @ih (total + first.length) (advance first.length (part :: parts)) l'
              (by rw [hleft]; omega)
            rw [hleft] at hends
            refine hends.after_takes htakes fun hnil => ?_
            by_cases hdone : advance first.length (part :: parts) = []
            · rw [hdone, sendvFrom]
              exact natCast_ne_neg_one _
            · exact absurd (hleft.trans hnil) (flatten_advance_ne_nil hdone)

theorem sendvFrom_eq_neg_one_iff {fuel total : Nat} {iov : List Bytes} (l : Link τ)
    (hfuel : iov.flatten.length < fuel) :
    (l.sendvFrom t true fuel total iov).1 = -1 ↔ t.BreaksParts iov l.state := by
  induction fuel generalizing total iov l with
  | zero => omega
  | succ fuel ih =>
      cases iov with
      | nil =>
          refine iff_of_false (natCast_ne_neg_one _) ?_
          rintro (⟨hleft, -⟩ | ⟨hleft, -⟩) <;> exact hleft rfl
      | cons part parts =>
          have hleft : part :: parts ≠ [] := List.cons_ne_nil _ _
          unfold sendvFrom sendv
          dsimp only
          cases hsend : (t.sendv (if t.txv then (part :: parts).take iovMax else part :: parts)
            l.state).1 with
          | none => exact iff_of_true rfl (.fails hleft hsend)
          | some r =>
              have hle := (window_flatten_front t.txv (part :: parts)).length_le
              have hpos := r.count_pos
              have hcount := r.count_le
              have hbreaks : t.BreaksParts (part :: parts) l.state ↔
                  t.BreaksParts (advance r.count (part :: parts)) (t.sendv
                    (if t.txv then (part :: parts).take iovMax else part :: parts) l.state).2 := by
                constructor
                · rintro (⟨-, h⟩ | ⟨-, h, hbreaks⟩)
                  · rw [hsend] at h
                    cases h
                  · rw [hsend, Option.some.injEq] at h
                    subst h
                    exact hbreaks
                · exact .later hleft hsend
              rw [hbreaks]
              dsimp only
              rw [if_pos rfl, ih]
              rw [flatten_advance (hcount.trans hle), List.length_drop]
              omega

end Link

/-- A call that only sends: it does not touch what the receiving side has. -/
def OnlySends (n n' : Net τ) : Prop :=
  ∃ sbuf link error, n' = { n with sbuf, link, error } ∧ link.heard = n.link.heard

theorem OnlySends.with_sbuf {n n' : Net τ} (h : OnlySends n n') (sbuf : Iob) :
    OnlySends n { n' with sbuf } := by
  obtain ⟨_, link, error, rfl, hheard⟩ := h
  exact ⟨sbuf, link, error, rfl, hheard⟩

theorem OnlySends.refl (n : Net τ) : OnlySends n n := ⟨n.sbuf, n.link, n.error, rfl, rfl⟩

theorem beerIoSendRaw_onlySends (buf : Bytes) (n : Net τ) :
    OnlySends n (beerIoSendRaw t buf true n).2 := by
  obtain ⟨sent, htakes, -⟩ :=
    @Link.sendFrom_ends _ t buf (buf.length + 1) 0 n.link (by omega) (by omega)
  exact ⟨n.sbuf, _, _, rfl, htakes.heard_eq⟩

theorem beerIoSendvRaw_onlySends (iov : List Bytes) (n : Net τ) :
    OnlySends n (beerIoSendvRaw t iov true n).2 := by
  obtain ⟨sent, htakes, -⟩ :=
    @Link.sendvFrom_ends _ t (iov.flatten.length + 1) 0 iov n.link (by omega)
  exact ⟨n.sbuf, _, _, rfl, htakes.heard_eq⟩

theorem beerIoFlush_onlySends (n : Net τ) : OnlySends n (beerIoFlush t n).2 := by
  have hraw := @beerIoSendRaw_onlySends _ t (n.sbuf.bytes.take n.sbuf.off) n
  unfold beerIoFlush
  dsimp only
  split
  · exact .refl n
  · split
    · exact hraw
    · exact hraw.with_sbuf _

theorem beerIoSend_onlySends (buf : Bytes) (n : Net τ) :
    OnlySends n (beerIoSend t buf n).2 := by
  have hraw := @beerIoSendRaw_onlySends _ t (n.sbuf.bytes.take n.sbuf.off) n
  unfold beerIoSend
  dsimp only
  split
  · exact beerIoSendRaw_onlySends buf n
  · split
    · exact ⟨n.sbuf, n.link, _, rfl, rfl⟩
    · split
      · exact (OnlySends.refl n).with_sbuf _
      · split
        · exact hraw
        · exact hraw.with_sbuf _

theorem beerIoSendv_onlySends (iov : List Bytes) (n : Net τ) :
    OnlySends n (beerIoSendv t iov n).2 := by
  have hraw := @beerIoSendRaw_onlySends _ t (n.sbuf.bytes.take n.sbuf.off) n
  unfold beerIoSendv
  dsimp only
  split
  · exact beerIoSendvRaw_onlySends iov n
  · split
    · exact ⟨n.sbuf, n.link, _, rfl, rfl⟩
    · split
      · exact (OnlySends.refl n).with_sbuf _
      · split
        · exact hraw
        · exact hraw.with_sbuf _

end BeeC
