import BeeC.ObjectFormat
import BeeC.Wire.Run

namespace BeeC

open BeeC.Wire
open BeeC.Wire.Loop
open BeeC.Wire.MessagePack
open BeeC.Wire.Run

/-- `beer_object_as(NULL, buf, buf_len)`. -/
def beerObjectAs (buf : Bytes) : Object :=
  { beerObject with data := some buf, size := buf.length, as := true }

/-- A public operation on an object. -/
inductive ObjectOp (toFloat : UInt64 → UInt32) where
  | setType (type : SboType)
  | call (call : ObjectCall)
  | format (format : Format toFloat)
  | write (buf : Bytes)
  | writev (iov : List Bytes)

variable {toFloat : UInt64 → UInt32} {mp : Msgpuck}

def ObjectOp.run (mp : Msgpuck) (s : Object) : ObjectOp toFloat → Except Fault (Ssize × Object)
  | setType mode => .ok (s.setType mode)
  | call c => c.run mp s
  | format f => beerObjectVformat mp toFloat s f.fmt f.vl
  | write buf => s.write buf
  | writev iov => s.writev iov

def ObjectOp.step (mp : Msgpuck) (s : Object) (op : ObjectOp toFloat) : Except Fault Object :=
  (op.run mp s).map Prod.snd

/-- The object is still the caller's buffer, with the bytes the caller put there. -/
structure Object.Untouched (buf : Bytes) (s : Object) : Prop where
  data_eq : s.data = some buf
  size_eq : s.size = buf.length

/-- The call would append bytes or patch some. Closing a container patches its header, but not in
the simple mode. -/
def ObjectCall.Alters (s : Object) : ObjectCall → Prop
  | containerClose => s.type ≠ .simple
  | _ => True

/-- If the call would append or patch bytes, it returns `-1`. -/
def ObjectCall.Refused (mp : Msgpuck) (s : Object) (call : ObjectCall) : Prop :=
  call.Alters s → ∃ s', call.run mp s = .ok (-1, s')

/-- If the operation would append or patch bytes, it returns `-1`. A format does so if it makes a
call, and then the call is refused too. -/
def ObjectOp.Refused (mp : Msgpuck) (s : Object) : ObjectOp toFloat → Prop
  | setType _ => True
  | call c => c.Refused mp s
  | format f => ∀ c ∈ f.calls.head?, c.Refused mp { s with type := .packed } ∧
      ∃ s', beerObjectVformat mp toFloat s f.fmt f.vl = .ok (-1, s')
  | write buf => ∃ s', s.write buf = .ok (-1, s')
  | writev iov => ∃ s', s.writev iov = .ok (-1, s')

/-- There is a container to close. A map with an odd number of children is not closed. -/
def Object.Closable (s : Object) : Prop :=
  ∃ top ∈ s.stack.head?, ¬(top.type = .map ∧ top.size % 2 ≠ 0)

/-- The operation does not close a container in the sparse or packed mode, if there is one to
close. A format works in the packed mode. -/
def ObjectOp.LeavesOpen (s : Object) : ObjectOp toFloat → Prop
  | call .containerClose => s.type ≠ .simple → ¬s.Closable
  | format f => f.calls.head? = some .containerClose → ¬s.Closable
  | _ => True

/-- What no operation changes. -/
structure Object.ReadOnly (s : Object) : Prop where
  as_eq : s.as = true
  wrcnt_eq : s.wrcnt = 0

/-- The call changed nothing but the container stack. -/
structure Object.Framed (s s' : Object) : Prop where
  as_eq : s'.as = s.as
  wrcnt_eq : s'.wrcnt = s.wrcnt
  data_eq : s'.data = s.data
  size_eq : s'.size = s.size
  type_eq : s'.type = s.type

namespace Object.Framed

theorem refl (s : Object) : s.Framed s := ⟨rfl, rfl, rfl, rfl, rfl⟩

theorem trans {s s' s'' : Object} (h : s.Framed s') (h' : s'.Framed s'') : s.Framed s'' :=
  ⟨h'.as_eq.trans h.as_eq, h'.wrcnt_eq.trans h.wrcnt_eq, h'.data_eq.trans h.data_eq,
    h'.size_eq.trans h.size_eq, h'.type_eq.trans h.type_eq⟩

theorem readOnly {s s' : Object} (h : s.Framed s') (hs : s.ReadOnly) : s'.ReadOnly :=
  ⟨h.as_eq.trans hs.as_eq, h.wrcnt_eq.trans hs.wrcnt_eq⟩

theorem untouched {s s' : Object} {buf : Bytes} (h : s.Framed s') (hs : s.Untouched buf) :
    s'.Untouched buf :=
  ⟨h.data_eq.trans hs.data_eq, h.size_eq.trans hs.size_eq⟩

theorem countChild (s : Object) : s.Framed s.countChild := by
  unfold Object.countChild
  split
  · exact refl _
  · exact ⟨rfl, rfl, rfl, rfl, rfl⟩

end Object.Framed

namespace Object.ReadOnly

variable {s : Object}

theorem write_eq (h : s.ReadOnly) (buf : Bytes) : s.write buf = .ok (-1, s) := by
  simp only [Object.write, h.as_eq, if_true, pure_eq]

theorem addBytes (h : s.ReadOnly) (bytes : Bytes) :
    ∃ s', s.addBytes bytes = .ok (-1, s') ∧ s.Framed s' := by
  have hframed := Framed.countChild s
  exact ⟨s.countChild, (hframed.readOnly h).write_eq bytes, hframed⟩

theorem addContainer (h : s.ReadOnly) (type : Kind) (header : SboType → Bytes) :
    ∃ s', s.addContainer type header = .ok (-1, s') ∧ s.Framed s' := by
  have hcounted := Framed.countChild s
  have hpush : ∀ o : Object, s.Framed o → ∃ s',
      Object.write { o with stack := ⟨o.size, 0, type⟩ :: o.stack } (header o.type) =
        .ok (-1, s') ∧ s.Framed s' := by
    intro o ho
    have hpushed : s.Framed { o with stack := ⟨o.size, 0, type⟩ :: o.stack } :=
      ho.trans ⟨rfl, rfl, rfl, rfl, rfl⟩
    exact ⟨_, (hpushed.readOnly h).write_eq _, hpushed⟩
  have hroom : ∀ o, (if s.countChild.stack.length = s.countChild.stackAlloc then
      s.countChild.growStack else some s.countChild) = some o → s.Framed o := by
    intro o ho
    split at ho
    · unfold Object.growStack at ho
      split at ho
      · cases ho
      · cases ho
        exact hcounted.trans ⟨rfl, rfl, rfl, rfl, rfl⟩
    · cases ho
      exact hcounted
  unfold Object.addContainer
  dsimp only
  split
  · exact ⟨_, rfl, hcounted⟩
  · rename_i o ho
    exact hpush o (hroom o ho)

theorem add_refused (h : s.ReadOnly) {call : ObjectCall} (hcall : call ≠ .containerClose) :
    ∃ s', call.run mp s = .ok (-1, s') ∧ s.Framed s' := by
  cases call with
  | containerClose => exact absurd rfl hcall
  | addArray size => exact h.addContainer _ _
  | addMap size => exact h.addContainer _ _
  | addStr str => exact h.addBytes _
  | addBin bin => exact h.addBytes _
  | _ => exact h.addBytes _

theorem close_refused (hclosable : ¬s.Closable) : s.containerClose mp = .ok (-1, s) := by
  unfold Object.containerClose
  unfold Object.Closable at hclosable
  split
  · rfl
  · rename_i top offset size type rest hstack
    rw [hstack] at hclosable
    simp only [List.head?_cons, Option.mem_some_iff, exists_eq_left', not_not] at hclosable
    rw [if_pos hclosable]
    rfl

theorem close_simple (hmode : s.type = .simple) (hclosable : s.Closable) :
    ∃ s', s.containerClose mp = .ok (0, s') ∧ s.Framed s' := by
  obtain ⟨top, htop, hodd⟩ := hclosable
  obtain ⟨rest, hstack⟩ := List.head?_eq_some_iff.mp htop
  refine ⟨{ s with stack := rest }, ?_, ⟨rfl, rfl, rfl, rfl, rfl⟩⟩
  simp only [Object.containerClose, hstack, if_neg hodd, hmode, pure_eq]

theorem close_not_refused (hmode : s.type ≠ .simple) (hclosable : s.Closable) (s' : Object) :
    s.containerClose mp ≠ .ok (-1, s') := by
  obtain ⟨top, htop, hodd⟩ := hclosable
  obtain ⟨rest, hstack⟩ := List.head?_eq_some_iff.mp htop
  intro h
  simp only [Object.containerClose, hstack, if_neg hodd] at h
  cases htype : s.type with
  | simple => exact hmode htype
  | sparse =>
      simp only [htype, bind, Except.bind] at h
      split at h <;> cases h
  | packed =>
      simp only [htype, bind, Except.bind] at h
      repeat' split at h
      all_goals cases h

end Object.ReadOnly

theorem ObjectCall.alters_of_packed {s : Object} (hmode : s.type = .packed) (call : ObjectCall) :
    call.Alters s := by
  cases call with
  | containerClose =>
      intro hsimple
      rw [hmode] at hsimple
      cases hsimple
  | _ => trivial

theorem ObjectCall.refused_iff {s : Object} (h : s.ReadOnly) (call : ObjectCall) :
    call.Refused mp s ↔ (call = .containerClose → s.type ≠ .simple → ¬s.Closable) := by
  constructor
  · rintro hrefused rfl hmode hclosable
    obtain ⟨s', hclose⟩ := hrefused hmode
    exact Object.ReadOnly.close_not_refused hmode hclosable s' hclose
  · intro hopen halters
    by_cases hcall : call = .containerClose
    · subst hcall
      exact ⟨s, Object.ReadOnly.close_refused (hopen rfl halters)⟩
    · obtain ⟨s', hrun, -⟩ := @Object.ReadOnly.add_refused mp s h call hcall
      exact ⟨s', hrun⟩

theorem ObjectCall.framed {s : Object} (h : s.ReadOnly) {call : ObjectCall}
    (hopen : call = .containerClose → s.type ≠ .simple → ¬s.Closable) :
    ∃ rv s', call.run mp s = .ok (rv, s') ∧ s.Framed s' := by
  by_cases hcall : call = .containerClose
  · subst hcall
    by_cases hclosable : s.Closable
    · have hmode : s.type = .simple := by
        by_contra hmode
        exact hopen rfl hmode hclosable
      obtain ⟨s', hclose, hframed⟩ := @Object.ReadOnly.close_simple mp s hmode hclosable
      exact ⟨0, s', hclose, hframed⟩
    · exact ⟨-1, s, Object.ReadOnly.close_refused hclosable, .refl s⟩
  · obtain ⟨s', hrun, hframed⟩ := @Object.ReadOnly.add_refused mp s h call hcall
    exact ⟨-1, s', hrun, hframed⟩

theorem Format.refused {s : Object} (h : s.ReadOnly) {f : Format toFloat} {call : ObjectCall}
    (hfirst : f.calls.head? = some call) (hopen : call = .containerClose → ¬s.Closable) :
    call.Refused mp { s with type := .packed } ∧
      ∃ s', beerObjectVformat mp toFloat s f.fmt f.vl = .ok (-1, s') ∧
        Object.Framed { s with type := .packed } s' := by
  obtain ⟨calls, hcalls⟩ := List.head?_eq_some_iff.mp hfirst
  have hpacked : Object.ReadOnly { s with type := .packed } := ⟨h.as_eq, h.wrcnt_eq⟩
  have hopen' : call = .containerClose → Object.type { s with type := .packed } ≠ .simple →
      ¬Object.Closable { s with type := .packed } := fun hcall _ => hopen hcall
  have hrefused := (@ObjectCall.refused_iff mp _ hpacked call).mpr hopen'
  obtain ⟨s', hrun⟩ := hrefused (ObjectCall.alters_of_packed rfl call)
  obtain ⟨rv, s'', hrun', hframed⟩ := @ObjectCall.framed mp _ hpacked call hopen'
  rw [hrun] at hrun'
  cases hrun'
  refine ⟨hrefused, s', ?_, hframed⟩
  rw [f.vformat_eq h.wrcnt_eq, hcalls, performSum, hrun]
  rfl

namespace ObjectOp

theorem refused_iff {s : Object} (h : s.ReadOnly) (op : ObjectOp toFloat) :
    op.Refused mp s ↔ op.LeavesOpen s := by
  cases op with
  | setType mode => exact Iff.rfl
  | write buf => exact iff_of_true ⟨s, h.write_eq buf⟩ trivial
  | writev iov => exact iff_of_true ⟨s, h.write_eq iov.flatten⟩ trivial
  | call c =>
      refine (ObjectCall.refused_iff h c).trans ?_
      cases c with
      | containerClose => exact ⟨fun hopen => hopen rfl, fun hopen _ => hopen⟩
      | _ => exact iff_of_true (fun hcall => nomatch hcall) trivial
  | format f =>
      constructor
      · intro hrefused hfirst
        have hpacked : Object.ReadOnly { s with type := .packed } := ⟨h.as_eq, h.wrcnt_eq⟩
        exact (ObjectCall.refused_iff hpacked .containerClose).mp
          (hrefused .containerClose hfirst).1 rfl (by simp)
      · intro hopen call hfirst
        obtain ⟨hcall, s', hformat, -⟩ := @Format.refused toFloat mp s h f call hfirst
          (fun hclose => hopen (hclose ▸ hfirst))
        exact ⟨hcall, s', hformat⟩

theorem step_untouched {s : Object} {buf : Bytes} (h : s.ReadOnly ∧ s.Untouched buf)
    {op : ObjectOp toFloat} (hopen : op.LeavesOpen s) :
    ∃ next, op.step mp s = .ok next ∧ next.ReadOnly ∧ next.Untouched buf := by
  obtain ⟨hreadOnly, huntouched⟩ := h
  have hkept : ∀ rv s', op.run mp s = .ok (rv, s') → s.Framed s' →
      ∃ next, op.step mp s = .ok next ∧ next.ReadOnly ∧ next.Untouched buf := by
    intro rv s' hrun hframed
    exact ⟨s', by rw [step, hrun]; rfl, hframed.readOnly hreadOnly, hframed.untouched huntouched⟩
  have hretyped : ∀ mode, Object.ReadOnly { s with type := mode } ∧
      Object.Untouched buf { s with type := mode } :=
    fun mode => ⟨⟨hreadOnly.as_eq, hreadOnly.wrcnt_eq⟩, huntouched.data_eq, huntouched.size_eq⟩
  cases op with
  | setType mode =>
      refine ⟨{ s with type := mode }, ?_, hretyped mode⟩
      rw [step, run, Object.setType, hreadOnly.wrcnt_eq]
      rfl
  | write bytes => exact hkept (-1) s (hreadOnly.write_eq bytes) (.refl s)
  | writev iov => exact hkept (-1) s (hreadOnly.write_eq iov.flatten) (.refl s)
  | call c =>
      have hcall : c = .containerClose → s.type ≠ .simple → ¬s.Closable := by
        rintro rfl
        exact hopen
      obtain ⟨rv, s', hrun, hframed⟩ := @ObjectCall.framed mp s hreadOnly c hcall
      exact hkept rv s' hrun hframed
  | format f =>
      cases hcalls : f.calls with
      | nil =>
          refine ⟨{ s with type := .packed }, ?_, hretyped .packed⟩
          rw [step, run, f.vformat_eq hreadOnly.wrcnt_eq, hcalls]
          rfl
      | cons call calls =>
          have hfirst : f.calls.head? = some call := by rw [hcalls]; rfl
          obtain ⟨-, s', hformat, hframed⟩ := @Format.refused toFloat mp s hreadOnly f call hfirst
            (fun hclose => hopen (hclose ▸ hfirst))
          obtain ⟨hreadOnly', huntouched'⟩ := hretyped .packed
          exact ⟨s', by rw [step, run, hformat]; rfl, hframed.readOnly hreadOnly',
            hframed.untouched huntouched'⟩

end ObjectOp

/-- In any run of operations on an object over a caller's buffer, the buffer is left alone and
whatever would append or patch bytes is refused, exactly when no operation closes a container in
the sparse or packed mode. -/
theorem beerObjectAs_readOnly_iff (buf : Bytes) (ops : List (ObjectOp toFloat)) :
    (AlwaysOk (ObjectOp.step mp) (Object.Untouched buf) (beerObjectAs buf) ops ∧
        EveryOk (ObjectOp.step mp) (fun s op => op.Refused mp s) (beerObjectAs buf) ops) ↔
      EveryOk (ObjectOp.step mp) (fun s op => op.LeavesOpen s) (beerObjectAs buf) ops := by
  have hstart : (beerObjectAs buf).ReadOnly ∧ (beerObjectAs buf).Untouched buf :=
    ⟨⟨rfl, rfl⟩, rfl, rfl⟩
  have hkeeps : ∀ (s : Object) (op : ObjectOp toFloat) next, s.ReadOnly ∧ s.Untouched buf →
      op.LeavesOpen s → op.step mp s = .ok next → next.ReadOnly ∧ next.Untouched buf := by
    intro s op next h hopen hnext
    obtain ⟨next', hnext', h'⟩ := @ObjectOp.step_untouched toFloat mp s buf h op hopen
    rw [hnext] at hnext'
    cases hnext'
    exact h'
  constructor
  · rintro ⟨-, hrefused⟩
    exact hrefused.imp
      (fun s op next h hop => hkeeps s op next h ((ObjectOp.refused_iff h.1 op).mp hop))
      (fun s op h => (ObjectOp.refused_iff h.1 op).mp) hstart
  · intro hopen
    have halways : AlwaysOk (ObjectOp.step mp) (fun s => s.ReadOnly ∧ s.Untouched buf)
        (beerObjectAs buf) ops :=
      alwaysOk_of_everyOk (fun _ _ h hop => ObjectOp.step_untouched h hop) hstart hopen
    exact ⟨halways.imp fun _ h => h.2,
      hopen.imp hkeeps (fun s op h => (ObjectOp.refused_iff h.1 op).mpr) hstart⟩

/-- An array is added, which fails, and closed all the same. -/
def failedThenClosed : List (ObjectOp fun _ => 0) :=
  [.setType .packed, .call (.addArray 0), .call .containerClose]

/-- The header of the array goes behind the end of the caller's buffer. -/
theorem not_beerObjectAs_readOnly :
    ¬(AlwaysOk (ObjectOp.step .reference) (Object.Untouched [0xc0]) (beerObjectAs [0xc0])
          failedThenClosed ∧
        EveryOk (ObjectOp.step .reference) (fun s op => op.Refused .reference s)
          (beerObjectAs [0xc0]) failedThenClosed) := by
  rintro ⟨h, -⟩
  obtain ⟨s', hs', -⟩ := h _ (List.prefix_refl _)
  have hrun : failedThenClosed.foldlM (ObjectOp.step .reference) (beerObjectAs [0xc0]) =
      .error .outOfBounds := by rfl
  rw [hrun] at hs'
  cases hs'

end BeeC
