import BeeC.ObjectGrowth
import BeeC.ObjectReadOnly

namespace BeeC

open BeeC.Wire
open BeeC.Wire.Loop
open BeeC.Wire.Memory
open BeeC.Wire.MessagePack
open BeeC.Wire.Encoding

/-- The length of the header that a container has while it is open. -/
def SboType.openLength : SboType → Nat
  | sparse => 5
  | _ => 1

/-- The open containers, the innermost first, describe the bytes: each has its header where its
entry says, and behind it as many complete elements as it has counted. If another container is open
behind them, it may be the last one counted. -/
def Describes (mode : SboType) : (inner : Bool) → List SboStack → Bytes → Prop
  | _, [], _ => True
  | inner, top :: rest, bytes =>
      ∃ before header, ∃ xs : List Bytes, ∃ behind,
        bytes = before ++ (header ++ (xs.flatten ++ behind)) ∧ top.offset = before.length ∧
          header.length = mode.openLength ∧ (∀ x ∈ xs, IsValue x) ∧
          (top.size.toNat = xs.length ∨
            inner = true ∧ top.size.toNat = xs.length + 1 ∧ behind = []) ∧
          Describes mode true rest before

/-- An array, or a map with an even number of children. -/
def SboStack.Complete (top : SboStack) : Prop :=
  top.type = .array ∨ top.type = .map ∧ top.size % 2 = 0

/-- How much longer a container's header gets when it is closed. -/
def SboType.growth (mode : SboType) (top : SboStack) : Nat :=
  (closingHeader mode top.type top.size).length - mode.openLength

theorem SboStack.Complete.not_odd {top : SboStack} (h : top.Complete) :
    ¬(top.type = .map ∧ top.size % 2 ≠ 0) := by
  rintro ⟨hmap, hodd⟩
  rcases h with harray | ⟨-, heven⟩
  · rw [harray] at hmap
    cases hmap
  · exact hodd heven

theorem closingHeader_length (mode : SboType) (hmode : mode ≠ .simple) (top : SboStack) :
    (closingHeader mode top.type top.size).length = mode.openLength + mode.growth top ∧
      (mode.growth top = 0 ∨
        mode = .packed ∧ (mode.growth top = 2 ∨ mode.growth top = 4)) := by
  unfold SboType.growth
  cases mode with
  | simple => exact absurd rfl hmode
  | sparse =>
      have hlength : (closingHeader .sparse top.type top.size).length = 5 := by
        simp only [closingHeader]
        split <;> simp [mapHeader32, arrayHeader32]
      rw [hlength]
      exact ⟨rfl, .inl rfl⟩
  | packed =>
      have hlength : (closingHeader .packed top.type top.size).length = 1 ∨
          (closingHeader .packed top.type top.size).length = 3 ∨
          (closingHeader .packed top.type top.size).length = 5 := by
        simp only [closingHeader]
        split
        all_goals
          simp only [mapHeader, arrayHeader]
          repeat' split
          all_goals simp
      rcases hlength with hlength | hlength | hlength <;> rw [hlength] <;> simp [SboType.openLength]

theorem isValue_closed (mode : SboType) {top : SboStack} (h : top.Complete) {xs : List Bytes}
    (hsize : top.size.toNat = xs.length) (hxs : ∀ x ∈ xs, IsValue x) :
    IsValue (closingHeader mode top.type top.size ++ xs.flatten) := by
  have hlt := top.size.toNat_lt
  rcases h with htype | ⟨htype, heven⟩
  · have hheader : closingHeader mode .array top.size = mode.arrayHeader xs.length := by
      rw [← closingHeader_array mode (by omega), ← hsize, UInt32.ofNat_toNat]
    rw [htype, hheader]
    exact isValue_container (mode.head_arrayHeader (by omega)) rfl rfl hxs
  · have heven' : top.size.toNat % 2 = 0 := by
      have hnat := congrArg UInt32.toNat heven
      rwa [UInt32.toNat_mod] at hnat
    have hheader : closingHeader mode .map top.size = mode.mapHeader (xs.length / 2) := by
      have hhalf : UInt32.ofNat (2 * (xs.length / 2)) = top.size := by
        rw [show 2 * (xs.length / 2) = top.size.toNat by omega, UInt32.ofNat_toNat]
      rw [← hhalf, closingHeader_map, Nat.mod_eq_of_lt (by omega)]
    rw [htype, hheader]
    refine isValue_container (mode.head_mapHeader (by omega)) rfl ?_ hxs
    rw [Head.children]
    omega

theorem Describes.close {mode : SboType} {rest : List SboStack} {before closed : Bytes}
    (h : Describes mode true rest before) (hclosed : IsValue closed) (behind : Bytes) :
    Describes mode false rest (before ++ (closed ++ behind)) := by
  cases rest with
  | nil => trivial
  | cons top rest =>
      obtain ⟨outer, header, xs, gap, rfl, hoffset, hheader, hxs, hcount, hrest⟩ := h
      rcases hcount with hcount | ⟨-, hcount, rfl⟩
      · refine ⟨outer, header, xs, gap ++ (closed ++ behind), ?_, hoffset, hheader, hxs,
          .inl hcount, hrest⟩
        simp only [List.append_assoc]
      · refine ⟨outer, header, xs ++ [closed], behind, ?_, hoffset, hheader, ?_, .inl ?_, hrest⟩
        · simp only [List.flatten_append, List.flatten_cons, List.flatten_nil, List.append_nil,
            List.append_assoc]
        · intro x hx
          rcases List.mem_append.mp hx with hx | hx
          · exact hxs x hx
          · rw [List.mem_singleton.mp hx]
            exact hclosed
        · rw [hcount, List.length_append, List.length_singleton]

section Close

variable {mp : Msgpuck} (hmp : mp.Lawful) {o : Object}

theorem resize_behind {mem : Bytes} {more : Nat} (hdata : o.data = some mem)
    (h : o.as = false ∨ o.size + more ≤ o.alloc) :
    ∃ extra, o.resize more = .ok { o with data := some (mem ++ extra) } ∧
      o.size + more ≤ (mem ++ extra).length ∧ (o.size + more ≤ o.alloc → extra = []) := by
  have halloc : o.alloc = mem.length := by rw [Object.alloc, hdata, Option.getD_some]
  by_cases hroom : o.alloc < o.size + more
  · have has : o.as = false := h.resolve_right (by omega)
    refine ⟨List.replicate (max (2 * o.alloc) (o.size + more) - o.alloc) 0, ?_, ?_,
      fun hle => absurd hroom (by omega)⟩
    · rw [Object.resize, if_pos hroom, has, hdata]
      rfl
    · rw [List.length_append, List.length_replicate]
      omega
  · refine ⟨[], ?_, by rw [List.append_nil]; omega, fun _ => rfl⟩
    rw [Object.resize, if_neg hroom, List.append_nil, ← hdata]

include hmp

theorem containerClose_eq (hmode : o.type ≠ .simple) {top : SboStack} {rest : List SboStack}
    {before header elements room : Bytes} (hstack : o.stack = top :: rest)
    (hoffset : top.offset = before.length) (hodd : ¬(top.type = .map ∧ top.size % 2 ≠ 0))
    (hheader : header.length = o.type.openLength)
    (hdata : o.data = some (before ++ (header ++ (elements ++ room))))
    (hsize : o.size = before.length + (header.length + elements.length))
    (halloc : o.as = false ∨ o.size + o.type.growth top ≤ o.alloc) :
    ∃ extra, (o.size + o.type.growth top ≤ o.alloc → extra = []) ∧
      o.containerClose mp = .ok (0, { o with
        data := some (before ++ (closingHeader o.type top.type top.size ++
          (elements ++ (room ++ extra).drop (o.type.growth top))))
        size := o.size + o.type.growth top
        stack := rest }) := by
  obtain ⟨offset, size, kind⟩ := top
  dsimp only at hoffset
  dsimp only at hodd
  subst hoffset
  obtain ⟨hlength, hgrowth⟩ := closingHeader_length o.type hmode ⟨before.length, size, kind⟩
  cases htype : o.type with
  | simple => exact absurd htype hmode
  | sparse =>
      rw [htype] at hheader hlength hgrowth
      have hzero : SboType.growth .sparse ⟨before.length, size, kind⟩ = 0 :=
        hgrowth.resolve_right fun h => nomatch h.1
      have hold : header.length = (closingHeader .sparse kind size).length := by
        rw [hheader, hlength, hzero, Nat.add_zero]
      have hstore : Object.store { o with stack := rest } before.length
          (closingHeader .sparse kind size) = .ok { o with
            data := some (before ++ (closingHeader .sparse kind size ++ (elements ++ room)))
            stack := rest } := by
        simp only [Object.store, hdata, poke_append hold]
      refine ⟨[], fun _ => rfl, ?_⟩
      simp only [htype] at hstore
      simp only [Object.containerClose, hstack, hodd, if_false, htype, sparseHeader_eq hmp, hstore,
        ok_bind, pure_eq, hzero, Nat.add_zero, List.append_nil, List.drop_zero]
  | packed =>
      rw [htype] at hheader hlength hgrowth halloc
      obtain ⟨byte, rfl⟩ := List.length_eq_one_iff.mp hheader
      have hsz := packedHeader_length hmp kind size
      have hheader' := packedHeader_eq hmp kind size
      have hmore : (closingHeader .packed kind size).length - 1 =
          SboType.growth .packed ⟨before.length, size, kind⟩ := rfl
      rw [← hmore] at halloc ⊢
      by_cases hlong : 1 < (closingHeader .packed kind size).length
      · obtain ⟨extra, hresize, hroom, hsame⟩ := @resize_behind { o with stack := rest } _
          ((closingHeader .packed kind size).length - 1) hdata halloc
        have hblock : before ++ ([byte] ++ (elements ++ room)) ++ extra =
            before ++ (byte :: (elements ++ (room ++ extra))) := by
          simp only [List.append_assoc, List.cons_append, List.nil_append]
        rw [hblock] at hresize hroom
        have hfits : (closingHeader .packed kind size).length - 1 ≤ (room ++ extra).length := by
          rw [List.length_singleton] at hsize
          simp only [hsize, List.length_append, List.length_cons] at hroom ⊢
          omega
        obtain ⟨gap, hgap, hmove⟩ := @move_up before elements (room ++ extra) byte _ hfits
        rw [Nat.sub_add_cancel (Nat.le_of_lt hlong)] at hgap hmove
        have hcount : o.size - before.length - 1 = elements.length := by
          rw [hsize, List.length_singleton]
          omega
        have hinside : ¬o.size < before.length + 1 := by
          rw [hsize, List.length_singleton]
          omega
        refine ⟨extra, hsame, ?_⟩
        simp only [htype] at hresize
        simp only [Object.containerClose, hstack, hodd, if_false, htype, hsz, hlong, if_true,
          hresize, ok_bind, hinside, hcount, Object.memmove, hmove, hheader', Object.store,
          poke_append hgap, pure_eq]
      · have hone : (closingHeader .packed kind size).length = 1 := by
          have hlength' : (closingHeader .packed kind size).length =
              1 + SboType.growth .packed ⟨before.length, size, kind⟩ := hlength
          omega
        have hpoke := @poke_append before [byte] (closingHeader .packed kind size)
          (elements ++ room) hone.symm
        refine ⟨[], fun _ => rfl, ?_⟩
        have hdrop : (room ++ []).drop ((closingHeader .packed kind size).length - 1) = room := by
          rw [List.append_nil, hone, Nat.sub_self, List.drop_zero]
        simp only [hdrop, Object.containerClose, hstack, hodd, if_false, htype, hsz, hlong, ok_bind,
          Object.store, hdata, hpoke, hheader', pure_eq]

omit hmp in
theorem data_of_contents {bytes : Bytes} (hsize : o.size ≤ o.alloc) (h : o.contents = bytes)
    (hpos : 0 < bytes.length) :
    o.size = bytes.length ∧ ∃ room, o.data = some (bytes ++ room) := by
  cases hdata : o.data with
  | none =>
      rw [Object.contents, hdata, Option.getD_none, List.take_nil] at h
      rw [← h] at hpos
      exact absurd hpos (Nat.lt_irrefl 0)
  | some mem =>
      rw [Object.alloc, hdata, Option.getD_some] at hsize
      rw [Object.contents, hdata, Option.getD_some] at h
      have hlength := congrArg List.length h
      rw [List.length_take, Nat.min_eq_left hsize] at hlength
      exact ⟨hlength, mem.drop o.size, by rw [← h, List.take_append_drop]⟩

/-- Closing a complete container rewrites its header and keeps what is in front of it and its
elements, which move up by as much as the header grows. The containers around it are described as
before. -/
theorem containerClose_describes (hmode : o.type ≠ .simple) (hsize : o.size ≤ o.alloc)
    (hdescribes : Describes o.type false o.stack o.contents) {top : SboStack}
    {rest : List SboStack} (hstack : o.stack = top :: rest) (hcomplete : top.Complete)
    (halloc : o.as = false ∨ o.size + o.type.growth top ≤ o.alloc) :
    ∃ before header, ∃ xs : List Bytes, ∃ behind o',
      o.contents = before ++ (header ++ (xs.flatten ++ behind)) ∧
      top.offset = before.length ∧ header.length = o.type.openLength ∧
      top.size.toNat = xs.length ∧
      o.containerClose mp = .ok (0, o') ∧
      o' = { o with data := o'.data, size := o.size + o.type.growth top, stack := rest } ∧
      o'.size ≤ o'.alloc ∧
      o'.contents =
        before ++ (closingHeader o.type top.type top.size ++ (xs.flatten ++ behind)) ∧
      Describes o.type false rest o'.contents := by
  rw [hstack] at hdescribes
  obtain ⟨before, header, xs, behind, hcontents, hoffset, hheader, hxs, hcount, haround⟩ :=
    hdescribes
  have hcount : top.size.toNat = xs.length := hcount.resolve_right fun h => nomatch h.1
  obtain ⟨hlength, -⟩ := closingHeader_length o.type hmode top
  have hopen : 0 < o.type.openLength := by cases o.type <;> decide
  obtain ⟨hsize', room, hdata⟩ := data_of_contents hsize hcontents (by
    rw [List.length_append, List.length_append, hheader]
    omega)
  simp only [List.append_assoc] at hdata
  rw [← List.append_assoc xs.flatten] at hdata
  simp only [List.length_append, ← Nat.add_assoc] at hsize'
  obtain ⟨extra, -, hclose⟩ := containerClose_eq hmp hmode hstack hoffset hcomplete.not_odd hheader
    hdata (by rw [List.length_append]; omega) halloc
  have hbytes : (before ++ (closingHeader o.type top.type top.size ++
      (xs.flatten ++ behind))).length = o.size + o.type.growth top := by
    simp only [List.length_append, hlength]
    omega
  have hblock : before ++ (closingHeader o.type top.type top.size ++
      ((xs.flatten ++ behind) ++ (room ++ extra).drop (o.type.growth top))) =
        (before ++ (closingHeader o.type top.type top.size ++ (xs.flatten ++ behind))) ++
          (room ++ extra).drop (o.type.growth top) := by
    simp only [List.append_assoc]
  rw [hblock] at hclose
  refine ⟨before, header, xs, behind, _, hcontents, hoffset, hheader, hcount, hclose, rfl, ?_, ?_,
    ?_⟩
  · dsimp only [Object.alloc]
    rw [Option.getD_some, List.length_append, hbytes]
    exact Nat.le_add_right _ _
  · dsimp only [Object.contents]
    rw [Option.getD_some, ← hbytes, List.take_left]
  · dsimp only [Object.contents]
    rw [Option.getD_some, ← hbytes, List.take_left, ← List.append_assoc (closingHeader _ _ _)]
    exact haround.close (isValue_closed o.type hcomplete hcount hxs) behind

/-- Closing a container keeps the containers around it. Where there is none to close, or a map with
an odd number of children, nothing changes. -/
theorem containerClose_keeps_enclosing (o : Object) :
    (o.type ≠ .simple → o.size ≤ o.alloc → Describes o.type false o.stack o.contents →
      ∀ (top : SboStack) (rest : List SboStack), o.stack = top :: rest → top.Complete →
        o.as = false ∨ o.size + o.type.growth top ≤ o.alloc →
        (o.type.growth top = 0 ∨
          o.type = .packed ∧ (o.type.growth top = 2 ∨ o.type.growth top = 4)) ∧
        ∃ before header, ∃ xs : List Bytes, ∃ behind o',
          o.contents = before ++ (header ++ (xs.flatten ++ behind)) ∧
          top.offset = before.length ∧ header.length = o.type.openLength ∧
          top.size.toNat = xs.length ∧
          o.containerClose mp = .ok (0, o') ∧
          o' = { o with data := o'.data, size := o.size + o.type.growth top, stack := rest } ∧
          o'.size ≤ o'.alloc ∧
          o'.contents =
            before ++ (closingHeader o.type top.type top.size ++ (xs.flatten ++ behind)) ∧
          Describes o.type false rest o'.contents) ∧
      (¬o.Closable → o.containerClose mp = .ok (-1, o)) := by
  constructor
  · intro hmode hsize hdescribes top rest hstack hcomplete halloc
    exact ⟨(closingHeader_length o.type hmode top).2,
      containerClose_describes hmp hmode hsize hdescribes hstack hcomplete halloc⟩
  · exact Object.ReadOnly.close_refused

end Close

/-- An array of 16 values in an array: the inner one needs two more bytes. -/
def crossing : Object :=
  { freshObject .packed with
    data := some ([0x90, 0x90] ++ List.replicate 16 0xc0)
    size := 18
    stack := [⟨1, 16, .array⟩, ⟨0, 1, .array⟩] }

theorem containerClose_keeps_enclosing_crossing :
    (∃ o', crossing.containerClose .reference = .ok (0, o') ∧ o'.size = 20 ∧
        Describes .packed false [⟨0, 1, .array⟩] o'.contents) ∧
      (freshObject .packed).containerClose .reference = .ok (-1, freshObject .packed) := by
  constructor
  · have hdescribes : Describes .packed false crossing.stack crossing.contents := by
      refine ⟨[0x90], [0x90], List.replicate 16 [0xc0], [], by decide, rfl, rfl, ?_, .inl rfl,
        [], [0x90], [], [], rfl, rfl, rfl, (fun _ h => nomatch h), .inr ⟨rfl, rfl, rfl⟩, trivial⟩
      intro x hx
      rw [List.eq_of_mem_replicate hx]
      decide
    obtain ⟨-, before, header, xs, behind, o', -, -, -, -, hclose, ho', -, -, haround⟩ :=
      (containerClose_keeps_enclosing Msgpuck.reference_lawful crossing).1 (by decide) (by decide)
        hdescribes _ _ rfl (.inl rfl) (.inl rfl)
    exact ⟨o', hclose, by rw [ho']; rfl, haround⟩
  · refine (containerClose_keeps_enclosing Msgpuck.reference_lawful _).2 ?_
    rintro ⟨top, htop, -⟩
    cases htop

end BeeC
