import BeeC.FormatEncoding
import BeeC.ObjectClosing

namespace BeeC

open BeeC.Wire
open BeeC.Wire.Loop
open BeeC.Wire.Memory
open BeeC.Wire.MessagePack

namespace Draft

/-- Open a container. A full stack gets twice the room, and its entries are lost. -/
def opening (d : Draft) (kind : Kind) : Option Draft :=
  let opened := { d with bytes := d.bytes ++ closingHeader d.type kind 0 }
  if d.stack.length ≠ d.stackAlloc then
    some { opened with stack := ⟨d.bytes.length, 0, kind⟩ :: bump d.stack 1 }
  else if d.stackAlloc = 128 then none
  else some { opened with
    stack := ⟨d.bytes.length, 0, kind⟩ :: cleared d.stack
    stackAlloc := 2 * d.stackAlloc }

/-- Close the innermost container. What follows the place of its header moves up. -/
def closing (d : Draft) : Option Draft :=
  match d.stack with
  | [] => none
  | top :: rest =>
      if top.type = .map ∧ top.size % 2 ≠ 0 then none
      else some { d with
        bytes := d.bytes.take top.offset ++ (closingHeader d.type top.type top.size ++
          d.bytes.drop (top.offset + d.type.openLength))
        stack := rest }

def step (d : Draft) (call : ObjectCall) : Option Draft :=
  match call.effect with
  | .closes => d.closing
  | .opens kind => d.opening kind
  | .adds bytes => some { d with bytes := d.bytes ++ bytes, stack := bump d.stack 1 }

/-- Make the calls one after the other, up to the first that fails. -/
def steps (d : Draft) : List ObjectCall → Draft
  | [] => d
  | call :: calls =>
      match d.step call with
      | none => d
      | some d => d.steps calls

/-- The mode is the packed one, and the header of every open container is among the bytes. -/
structure Packed (d : Draft) : Prop where
  type_eq : d.type = .packed
  offset_lt : ∀ entry ∈ d.stack, entry.offset < d.bytes.length

theorem mem_bump {stack : List SboStack} {count : Nat} {entry : SboStack}
    (h : entry ∈ bump stack count) : ∃ old ∈ stack, entry.offset = old.offset := by
  cases stack with
  | nil => cases h
  | cons top rest =>
      rcases List.mem_cons.mp h with rfl | h
      · exact ⟨top, by simp, rfl⟩
      · exact ⟨entry, by simp [h], rfl⟩

theorem Packed.bump {d : Draft} (h : d.Packed) (more : Bytes) :
    Packed { d with bytes := d.bytes ++ more, stack := bump d.stack 1 } := by
  refine ⟨h.type_eq, fun entry hentry => ?_⟩
  obtain ⟨old, hold, hoffset⟩ := mem_bump hentry
  have hlt := h.offset_lt old hold
  rw [hoffset, List.length_append]
  omega

theorem Packed.opening {d d' : Draft} (h : d.Packed) {kind : Kind}
    (hopen : d.opening kind = some d') : d'.Packed := by
  have hpos := closingHeader_length_pos d.type kind 0
  have hnew : d.bytes.length < (d.bytes ++ closingHeader d.type kind 0).length := by
    rw [List.length_append]
    omega
  unfold Draft.opening at hopen
  dsimp only at hopen
  split at hopen
  · cases hopen
    refine ⟨h.type_eq, List.forall_mem_cons.mpr ⟨hnew, ?_⟩⟩
    exact (h.bump (closingHeader d.type kind 0)).offset_lt
  split at hopen
  · cases hopen
  · cases hopen
    refine ⟨h.type_eq, List.forall_mem_cons.mpr ⟨hnew, fun entry hentry => ?_⟩⟩
    obtain ⟨old, -, rfl⟩ := List.mem_map.mp hentry
    exact Nat.zero_lt_of_lt hnew

theorem Packed.closing {d d' : Draft} (h : d.Packed) (hclose : d.closing = some d') :
    d'.Packed := by
  unfold Draft.closing at hclose
  split at hclose
  · cases hclose
  rename_i top rest hstack
  split at hclose
  · cases hclose
  cases hclose
  refine ⟨h.type_eq, fun entry hentry => ?_⟩
  have hentry := h.offset_lt entry (by rw [hstack]; exact List.mem_cons_of_mem _ hentry)
  have htop := h.offset_lt top (by simp [hstack])
  have hpos := closingHeader_length_pos d.type top.type top.size
  have hone : d.type.openLength = 1 := by rw [h.type_eq]; rfl
  simp only [List.length_append, List.length_take, List.length_drop, hone]
  omega

end Draft

/-- The bytes have become more, if anything. As long as there was room for them in the block, it is
the same block, with the same bytes behind those in use. -/
structure Object.Extends (o o' : Object) : Prop where
  size_le : o.size ≤ o'.size
  kept : o'.size ≤ o.alloc → o'.alloc = o.alloc ∧
    (o'.data.getD []).drop o'.size = (o.data.getD []).drop o'.size

namespace Object.Extends

variable {o o' o'' : Object}

theorem refl (o : Object) : o.Extends o := ⟨le_rfl, fun _ => ⟨rfl, rfl⟩⟩

theorem of_data (hdata : o'.data = o.data) (hsize : o'.size = o.size) : o.Extends o' :=
  ⟨hsize.ge, fun _ => ⟨by rw [Object.alloc, hdata, Object.alloc], by rw [hdata]⟩⟩

theorem trans (h : o.Extends o') (h' : o'.Extends o'') : o.Extends o'' := by
  refine ⟨h.size_le.trans h'.size_le, fun hroom => ?_⟩
  obtain ⟨halloc, hdrop⟩ := h.kept (h'.size_le.trans hroom)
  obtain ⟨halloc', hdrop'⟩ := h'.kept (hroom.trans halloc.ge)
  refine ⟨halloc'.trans halloc, ?_⟩
  obtain ⟨more, hmore⟩ := Nat.exists_eq_add_of_le h'.size_le
  rw [hdrop', hmore, ← List.drop_drop, hdrop, List.drop_drop]

theorem write {buf : Bytes} {rv : Ssize} (h : o.write buf = .ok (rv, o')) (hrv : rv ≠ -1) :
    o.Extends o' := by
  obtain ⟨-, -, -, hsize⟩ := write_ok h hrv
  refine ⟨by omega, fun hroom => ?_⟩
  have hresize : o.resize buf.length = .ok o := by rw [Object.resize, if_neg (by omega)]
  unfold Object.write at h
  split at h
  · cases h
    exact absurd rfl hrv
  simp only [hresize, ok_bind] at h
  split at h
  · cases h
    exact absurd rfl hrv
  obtain ⟨stored, hstore, h⟩ := bind_eq_ok.mp h
  obtain ⟨mem, mem', hdata, hpoke, rfl⟩ := store_ok hstore
  obtain ⟨-, rfl⟩ := Prod.mk.inj (Except.ok.inj h)
  simp only [Object.alloc, hdata, Option.getD_some]
  exact ⟨poke_length hpoke, poke_drop hpoke le_rfl⟩

theorem countChild (o : Object) : o.Extends o.countChild := by
  unfold Object.countChild
  split <;> exact of_data rfl rfl

theorem addContainer {kind : Kind} {header : SboType → Bytes} {rv : Ssize}
    (h : o.addContainer kind header = .ok (rv, o')) (hrv : rv ≠ -1) : o.Extends o' := by
  refine (countChild o).trans ?_
  unfold Object.addContainer at h
  dsimp only at h
  split at h
  · cases h
    exact absurd rfl hrv
  rename_i grown hroom
  refine .trans (of_data ?_ ?_) (write h hrv)
  all_goals
    split at hroom
    · unfold Object.growStack at hroom
      split at hroom <;> cases hroom
      rfl
    · cases hroom
      rfl

end Object.Extends

section Calls

variable {mp : Msgpuck} {o : Object} {d : Draft}

theorem Object.size_le_of_contents {bytes : Bytes} (h : o.contents = bytes)
    (hsize : o.size = bytes.length) : o.size ≤ o.alloc := by
  have hlength := congrArg List.length h
  rw [Object.contents, List.length_take, ← hsize] at hlength
  rw [Object.alloc]
  omega

theorem Object.Drafts.opening (h : o.Drafts d) {kind : Kind} {header : SboType → Bytes}
    (hheader : header d.type = closingHeader d.type kind 0) :
    d.opening kind = none ∧ o.addContainer kind header = .ok (-1, o.countChild) ∨
      ∃ d' rv o', d.opening kind = some d' ∧ o.addContainer kind header = .ok (rv, o') ∧
        rv ≠ -1 ∧ o'.Drafts d' := by
  unfold Draft.opening
  dsimp only
  by_cases hroom : d.stack.length ≠ d.stackAlloc
  · obtain ⟨rv, o', hadd, hrv, ho'⟩ := h.addContainer hroom hheader
    exact .inr ⟨_, rv, o', if_pos hroom, hadd, hrv, ho'⟩
  have hfull : d.stack.length = d.stackAlloc := not_not.mp hroom
  simp only [if_neg hroom]
  by_cases hmost : d.stackAlloc = 128
  · refine .inl ⟨if_pos hmost, addContainer_of_full ⟨?_, ?_⟩ kind header⟩
    · rw [h.stack_eq, hfull, hmost]
    · rw [h.stackAlloc_eq, hmost]
  · obtain ⟨hcontents, hsize, has, hstack, htype, halloc⟩ := h.countChild
    have hcleared : cleared o.countChild.stack = cleared d.stack := by rw [hstack, cleared_bump]
    have hpushed : Object.Drafts
        { o.countChild with
          stackAlloc := 2 * o.countChild.stackAlloc
          stack := ⟨o.countChild.size, 0, kind⟩ :: cleared o.countChild.stack }
        { d with
          stack := ⟨d.bytes.length, 0, kind⟩ :: cleared d.stack
          stackAlloc := 2 * d.stackAlloc } :=
      ⟨hcontents, hsize, has, by rw [hsize, hcleared], htype, by rw [halloc]⟩
    obtain ⟨rv, o', hwrite, hrv, ho'⟩ := hpushed.write (closingHeader_length_pos d.type kind 0)
    refine .inr ⟨_, rv, o', if_neg hmost, ?_, hrv, ho'⟩
    have hcount : o.countChild.stack.length = o.countChild.stackAlloc := by
      rw [hstack, bump_length, halloc, hfull]
    have hmost' : o.countChild.stackAlloc ≠ 128 := by
      rw [halloc]
      exact hmost
    rw [← hheader, ← show o.countChild.type = d.type from htype] at hwrite
    simp only [Object.addContainer, hcount, if_true, Object.growStack, hmost', if_false]
    exact hwrite

theorem Object.Drafts.closing (hmp : mp.Lawful) (h : o.Drafts d) (hpacked : d.Packed) :
    d.closing = none ∧ o.containerClose mp = .ok (-1, o) ∨
      ∃ d' o', d.closing = some d' ∧ o.containerClose mp = .ok (0, o') ∧ o'.Drafts d' ∧
        o.Extends o' := by
  unfold Draft.closing
  split
  · rename_i hstack
    refine .inl ⟨rfl, Object.ReadOnly.close_refused fun hclosable => ?_⟩
    obtain ⟨top, htop, -⟩ := hclosable
    rw [h.stack_eq, hstack] at htop
    cases htop
  rename_i top rest hstack
  split
  · rename_i hodd
    refine .inl ⟨rfl, Object.ReadOnly.close_refused fun hclosable => ?_⟩
    obtain ⟨top', htop, heven⟩ := hclosable
    rw [h.stack_eq, hstack] at htop
    cases htop
    exact heven hodd
  rename_i hodd
  have hmode : o.type = .packed := h.type_eq.trans hpacked.type_eq
  have hlt := hpacked.offset_lt top (by simp [hstack])
  have hone : d.type.openLength = 1 := by rw [hpacked.type_eq]; rfl
  have hbefore : (d.bytes.take top.offset).length = top.offset := by
    rw [List.length_take]
    omega
  have hsplit : d.bytes = d.bytes.take top.offset ++
      ([d.bytes[top.offset]] ++ d.bytes.drop (top.offset + 1)) := by
    rw [List.singleton_append, ← List.drop_eq_getElem_cons hlt, List.take_append_drop]
  obtain ⟨-, room, hdata⟩ := data_of_contents
    (Object.size_le_of_contents h.contents_eq h.size_eq) h.contents_eq (Nat.zero_lt_of_lt hlt)
  have hlength : d.bytes.length =
      top.offset + (1 + (d.bytes.drop (top.offset + 1)).length) := by
    rw [List.length_drop]
    omega
  have hdata' : o.data = some (d.bytes.take top.offset ++ ([d.bytes[top.offset]] ++
      (d.bytes.drop (top.offset + 1) ++ room))) := by
    rw [hdata]
    conv_lhs => rw [hsplit]
    simp only [List.append_assoc]
  obtain ⟨extra, hextra, hclose⟩ := containerClose_eq hmp (by rw [hmode]; decide)
    (h.stack_eq.trans hstack) hbefore.symm hodd (by rw [hmode]; rfl) hdata'
    (by rw [h.size_eq, hbefore, List.length_singleton]; exact hlength) (.inl h.as_eq)
  obtain ⟨hheader, -⟩ := closingHeader_length o.type (by rw [hmode]; decide) top
  rw [hmode, ← hpacked.type_eq] at hclose hextra hheader
  rw [hone] at hheader
  have hassoc : ∀ tail, d.bytes.take top.offset ++ (closingHeader d.type top.type top.size ++
      (d.bytes.drop (top.offset + 1) ++ tail)) = (d.bytes.take top.offset ++
        (closingHeader d.type top.type top.size ++ d.bytes.drop (top.offset + 1))) ++ tail := by
    intro tail
    simp only [List.append_assoc]
  have hclosed : (d.bytes.take top.offset ++ (closingHeader d.type top.type top.size ++
      d.bytes.drop (top.offset + 1))).length = d.bytes.length + d.type.growth top := by
    rw [List.length_append, List.length_append, hbefore, hheader, hlength]
    omega
  rw [hassoc] at hclose
  refine .inr ⟨_, _, rfl, hclose, ?_, Nat.le_add_right _ _, fun hroom => ?_⟩
  · rw [hone]
    exact .of_data rfl (by rw [h.size_eq]; exact hclosed.symm) h.as_eq rfl rfl
      h.stackAlloc_eq
  · have halloc : o.alloc = d.bytes.length + room.length := by
      rw [Object.alloc, hdata, Option.getD_some, List.length_append]
    have hfits : o.size + d.type.growth top ≤ o.alloc := hroom
    rw [h.size_eq, halloc] at hfits
    have hextra := hextra hroom
    subst hextra
    constructor
    · rw [halloc]
      simp only [Object.alloc, Option.getD_some, List.append_nil]
      rw [List.length_append, hclosed, List.length_drop]
      omega
    · simp only [hdata, Option.getD_some, h.size_eq, List.append_nil]
      rw [← hclosed, List.drop_left, hclosed, ← List.drop_drop, List.drop_left]

/-- Every call does to the object what it does to the draft. One that fails leaves the bytes and the
block as they are. -/
theorem Object.Drafts.step (hmp : mp.Lawful) (h : o.Drafts d) (hpacked : d.Packed)
    (call : ObjectCall) :
    d.step call = none ∧ (∃ o', call.run mp o = .ok (-1, o') ∧ o'.data = o.data ∧
        o'.size = o.size ∧ o'.as = o.as) ∨
      ∃ d' rv o', d.step call = some d' ∧ call.run mp o = .ok (rv, o') ∧ rv ≠ -1 ∧
        o'.Drafts d' ∧ d'.Packed ∧ o.Extends o' := by
  have hmode : d.type ≠ .simple := by
    rw [hpacked.type_eq]
    decide
  rcases call.kinds hmp with ⟨heffect, rfl⟩ | ⟨kind, header, heffect, -, hheader, hrun, -⟩ |
    ⟨bytes, heffect, hpos, hrun, -⟩
  · simp only [Draft.step, heffect, ObjectCall.run]
    rcases h.closing hmp hpacked with ⟨hnone, hclose⟩ | ⟨d', o', hsome, hclose, ho', hextends⟩
    · exact .inl ⟨hnone, o, hclose, rfl, rfl, rfl⟩
    · exact .inr ⟨d', 0, o', hsome, hclose, by decide, ho', hpacked.closing hsome, hextends⟩
  · simp only [Draft.step, heffect, hrun]
    rcases h.opening (hheader d.type hmode) with ⟨hnone, hadd⟩ | ⟨d', rv, o', hsome, hadd, hrv, ho'⟩
    · refine .inl ⟨hnone, _, hadd, ?_, (countChild_frame o).2.2, countChild_as o⟩
      unfold Object.countChild
      split <;> rfl
    · exact .inr ⟨d', rv, o', hsome, hadd, hrv, ho', hpacked.opening hsome, .addContainer hadd hrv⟩
  · simp only [Draft.step, heffect, hrun]
    obtain ⟨rv, o', hadd, hrv, ho'⟩ := h.addBytes hpos
    exact .inr ⟨_, rv, o', rfl, hadd, hrv, ho', hpacked.bump bytes,
      (Object.Extends.countChild o).trans (.write hadd hrv)⟩

/-- The calls that a format is read as, up to where reading it further is undefined. -/
def readCalls (toFloat : UInt64 → UInt32) : Nat → List Char → List FormatArg → List ObjectCall
  | 0, _, _ => []
  | _ + 1, [], _ => []
  | limit + 1, c :: f, vl =>
      match formatTurn toFloat (c :: f) vl with
      | .error _ => []
      | .ok (call, f, vl) => call.toList ++ readCalls toFloat limit f vl

theorem vformatLoop_drafts (hmp : mp.Lawful) {toFloat : UInt64 → UInt32} {limit : Nat}
    {f : List Char} {vl : List FormatArg} {result rv : Ssize} {o' : Object} (h : o.Drafts d)
    (hpacked : d.Packed)
    (hloop : vformatLoop mp toFloat limit f vl result o = .ok (rv, o')) :
    o'.contents = (d.steps (readCalls toFloat limit f vl)).bytes ∧
      o'.size = (d.steps (readCalls toFloat limit f vl)).bytes.length ∧ o'.as = false ∧
      o.Extends o' := by
  induction limit generalizing f vl result o d with
  | zero =>
      cases hloop
      exact ⟨h.contents_eq, h.size_eq, h.as_eq, .refl _⟩
  | succ limit ih =>
      cases f with
      | nil =>
          cases hloop
          exact ⟨h.contents_eq, h.size_eq, h.as_eq, .refl _⟩
      | cons c f =>
          rw [vformatLoop] at hloop
          rw [readCalls]
          obtain ⟨⟨call, f', vl'⟩, hturn, hloop⟩ := bind_eq_ok.mp hloop
          simp only [hturn]
          cases call with
          | none => exact ih h hpacked hloop
          | some call =>
              simp only [Option.toList_some, List.singleton_append, Draft.steps]
              rcases h.step hmp hpacked call with ⟨hnone, next, hrun, hdata, hsize, has⟩ |
                ⟨d', rv', next, hsome, hrun, hrv, hnext, hpacked', hextends⟩
              · simp only [hrun, ok_bind, if_true] at hloop
                obtain ⟨-, rfl⟩ := Prod.mk.inj (Except.ok.inj hloop)
                simp only [hnone]
                refine ⟨?_, hsize.trans h.size_eq, has.trans h.as_eq, .of_data hdata hsize⟩
                rw [Object.contents, hdata, hsize]
                exact h.contents_eq
              · simp only [hrun, ok_bind, if_neg hrv] at hloop
                simp only [hsome]
                obtain ⟨hcontents, hsize, has, hrest⟩ := ih hnext hpacked' hloop
                exact ⟨hcontents, hsize, has, hextends.trans hrest⟩

end Calls

end BeeC
