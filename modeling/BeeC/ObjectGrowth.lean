import BeeC.ObjectBuilding

namespace BeeC

open BeeC.Wire
open BeeC.Wire.Memory
open BeeC.Wire.MessagePack
open BeeC.Wire.Encoding

variable {mp : Msgpuck} {o o' : Object}

theorem resize_ok {more : Nat} (h : o.resize more = .ok o') :
    o' = { o with data := o'.data } := by
  unfold Object.resize at h
  split at h
  · split at h
    · cases h
    · cases h
      rfl
  · cases h
    rfl

theorem store_ok {offset : Nat} {bytes : Bytes} (h : o.store offset bytes = .ok o') :
    ∃ mem mem', o.data = some mem ∧ poke mem offset bytes = some mem' ∧
      o' = { o with data := some mem' } := by
  unfold Object.store at h
  split at h
  · cases h
  · rename_i mem hdata
    split at h
    · cases h
    · rename_i mem' hpoke
      cases h
      exact ⟨mem, mem', hdata, hpoke, rfl⟩

theorem memmove_ok {target source count : Nat} (h : o.memmove target source count = .ok o') :
    o' = { o with data := o'.data } := by
  unfold Object.memmove at h
  split at h
  · cases h
  · split at h
    · cases h
    · cases h
      rfl

theorem write_ok {buf : Bytes} {rv : Ssize} (h : o.write buf = .ok (rv, o')) (hrv : rv ≠ -1) :
    o'.stack = o.stack ∧ o'.stackAlloc = o.stackAlloc ∧ o'.type = o.type ∧
      o'.size = o.size + buf.length := by
  unfold Object.write at h
  cases has : o.as with
  | true =>
      simp only [has, ite_true, pure, Except.pure, Except.ok.injEq, Prod.mk.injEq] at h
      exact absurd h.1.symm hrv
  | false =>
      cases hresize : o.resize buf.length with
      | error reason => simp [has, hresize, bind, Except.bind] at h
      | ok o₁ =>
          have h₁ := resize_ok hresize
          cases hnone : o₁.data.isNone with
          | true =>
              simp [has, hresize, hnone, bind, Except.bind, pure, Except.pure] at h
              exact absurd h.1.symm hrv
          | false =>
              cases hstore : o₁.store o₁.size buf with
              | error reason => simp [has, hresize, hnone, hstore, bind, Except.bind] at h
              | ok o₂ =>
                  simp [has, hresize, hnone, hstore, bind, Except.bind, pure, Except.pure] at h
                  obtain ⟨-, rfl⟩ := h
                  obtain ⟨mem, mem', -, -, rfl⟩ := store_ok hstore
                  rw [h₁]
                  exact ⟨rfl, rfl, rfl, rfl⟩

theorem countChild_stack (o : Object) : o.countChild.stack = bump o.stack 1 := by
  unfold Object.countChild
  split <;> rename_i h <;> rw [h] <;> rfl

theorem countChild_frame (o : Object) : o.countChild.stackAlloc = o.stackAlloc ∧
    o.countChild.type = o.type ∧ o.countChild.size = o.size := by
  unfold Object.countChild
  split <;> exact ⟨rfl, rfl, rfl⟩

/-- The entries of a stack that has grown. -/
def cleared (stack : List SboStack) : List SboStack := stack.map fun _ => SboStack.cleared

@[simp] theorem cleared_length (stack : List SboStack) :
    (cleared stack).length = stack.length := by
  simp [cleared]

@[simp] theorem cleared_cleared (stack : List SboStack) :
    cleared (cleared stack) = cleared stack := by
  simp [cleared]

@[simp] theorem cleared_bump (stack : List SboStack) (count : Nat) :
    cleared (bump stack count) = cleared stack := by
  cases stack <;> rfl

theorem addContainer_ok {kind : Kind} {header : SboType → Bytes} {rv : Ssize}
    (h : o.addContainer kind header = .ok (rv, o')) (hrv : rv ≠ -1) :
    o'.type = o.type ∧ o'.size = o.size + (header o.type).length ∧
      (o.stack.length ≠ o.stackAlloc ∧ o'.stackAlloc = o.stackAlloc ∧
          o'.stack = ⟨o.size, 0, kind⟩ :: bump o.stack 1 ∨
        o.stack.length = o.stackAlloc ∧ o'.stackAlloc = 2 * o.stackAlloc ∧
          o'.stack = ⟨o.size, 0, kind⟩ :: cleared o.stack) := by
  obtain ⟨halloc, htype, hsize⟩ := countChild_frame o
  have hstack := countChild_stack o
  have hlength : o.countChild.stack.length = o.stack.length := by rw [hstack, bump_length]
  unfold Object.addContainer at h
  simp only [hlength, halloc] at h
  by_cases hfull : o.stack.length = o.stackAlloc
  · simp only [hfull, ite_true] at h
    unfold Object.growStack at h
    split at h
    · cases h
      exact absurd rfl hrv
    · rename_i o₁ hgrow
      split at hgrow
      · cases hgrow
      · cases hgrow
        obtain ⟨hs, ha, ht, hz⟩ := write_ok h hrv
        refine ⟨ht.trans htype, ?_, .inr ⟨hfull, ha.trans (by simp only [halloc]), ?_⟩⟩
        · rw [hz]
          simp only [hsize, htype]
        · rw [hs]
          simp only [hsize, hstack]
          exact congrArg _ (cleared_bump _ _)
  · simp only [hfull, ite_false] at h
    obtain ⟨hs, ha, ht, hz⟩ := write_ok h hrv
    refine ⟨ht.trans htype, ?_, .inl ⟨hfull, ha.trans halloc, ?_⟩⟩
    · rw [hz]
      simp only [hsize, htype]
    · rw [hs]
      simp only [hsize, hstack]

theorem containerClose_ok (hmp : mp.Lawful) (hmode : o.type ≠ .simple) {rv : Ssize}
    (h : o.containerClose mp = .ok (rv, o')) (hrv : rv ≠ -1) :
    ∃ top rest mem mem', o.stack = top :: rest ∧ o'.stack = rest ∧
      o'.stackAlloc = o.stackAlloc ∧ o'.type = o.type ∧
      poke mem top.offset (closingHeader o.type top.type top.size) = some mem' ∧
      o'.data = some mem' ∧
      o'.size + (closingHeader o.type top.type 0).length =
        o.size + (closingHeader o.type top.type top.size).length := by
  unfold Object.containerClose at h
  cases hstack : o.stack with
  | nil =>
      simp [hstack, pure, Except.pure] at h
      exact absurd h.1.symm hrv
  | cons top rest =>
      obtain ⟨offset, size, kind⟩ := top
      by_cases hodd : kind = .map ∧ size % 2 ≠ 0
      · simp [hstack, hodd, pure, Except.pure] at h
        exact absurd h.1.symm hrv
      cases htype : o.type with
      | simple => exact absurd htype hmode
      | sparse =>
          have hheader := sparseHeader_eq hmp kind size
          cases hstore : Object.store { o with stack := rest } offset
              (closingHeader .sparse kind size) with
          | error reason =>
              simp only [htype] at hstore
              simp [hstack, hodd, htype, hheader, hstore, bind, Except.bind] at h
          | ok o₁ =>
              obtain ⟨mem, mem', -, hpoke, rfl⟩ := store_ok hstore
              simp only [htype] at hstore
              simp [hstack, hodd, htype, hheader, hstore, bind, Except.bind, pure,
                Except.pure] at h
              obtain ⟨-, rfl⟩ := h
              refine ⟨_, rest, mem, mem', rfl, rfl, rfl, rfl, hpoke, rfl, ?_⟩
              simp only [closingHeader]
              split <;> simp [mapHeader32, arrayHeader32]
      | packed =>
          have hheader := packedHeader_eq hmp kind size
          have hsz := packedHeader_length hmp kind size
          have hpos := closingHeader_length_pos .packed kind size
          have hone : (closingHeader .packed kind 0).length = 1 := by
            simp only [closingHeader]
            split <;> rfl
          by_cases hlong : 1 < (closingHeader .packed kind size).length
          · cases hresize : Object.resize { o with stack := rest }
                ((closingHeader .packed kind size).length - 1) with
            | error reason =>
                simp only [htype] at hresize
                simp [hstack, hodd, htype, hsz, hlong, hresize, bind, Except.bind] at h
            | ok o₁ =>
                have h₁ := resize_ok hresize
                simp only [htype] at hresize h₁
                by_cases hinside : o₁.size < offset + 1
                · simp [hstack, hodd, htype, hsz, hlong, hresize, hinside, bind, Except.bind,
                    throw, throwThe, MonadExceptOf.throw] at h
                cases hmove : o₁.memmove (offset + (closingHeader .packed kind size).length)
                    (offset + 1) (o₁.size - offset - 1) with
                | error reason =>
                    simp [hstack, hodd, htype, hsz, hlong, hresize, hinside, hmove, bind,
                      Except.bind] at h
                | ok o₂ =>
                    have h₂ := memmove_ok hmove
                    cases hstore : o₂.store offset (closingHeader .packed kind size) with
                    | error reason =>
                        simp [hstack, hodd, htype, hheader, hsz, hlong, hresize, hinside, hmove,
                          hstore, bind, Except.bind] at h
                    | ok o₃ =>
                        simp [hstack, hodd, htype, hheader, hsz, hlong, hresize, hinside, hmove,
                          hstore, bind, Except.bind, pure, Except.pure] at h
                        obtain ⟨-, rfl⟩ := h
                        obtain ⟨mem, mem', -, hpoke, rfl⟩ := store_ok hstore
                        rw [h₂, h₁]
                        refine ⟨_, rest, mem, mem', rfl, rfl, rfl, rfl, hpoke, rfl, ?_⟩
                        simp only [hone]
                        omega
          · cases hstore : Object.store { o with stack := rest } offset
                (closingHeader .packed kind size) with
            | error reason =>
                simp only [htype] at hstore
                simp [hstack, hodd, htype, hheader, hsz, hlong, hstore, bind, Except.bind, pure,
                  Except.pure] at h
            | ok o₁ =>
                obtain ⟨mem, mem', -, hpoke, rfl⟩ := store_ok hstore
                simp only [htype] at hstore
                simp [hstack, hodd, htype, hheader, hsz, hlong, hstore, bind, Except.bind, pure,
                  Except.pure] at h
                obtain ⟨-, rfl⟩ := h
                refine ⟨_, rest, mem, mem', rfl, rfl, rfl, rfl, hpoke, rfl, ?_⟩
                simp only [hone]
                omega

/-- The facts about a run that emitted a value of some nesting depth. -/
structure Emitted (o o' : Object) (nesting : Nat) : Prop where
  type_eq : o'.type = o.type
  size_le : o.size ≤ o'.size
  room : o.stack.length + nesting ≤ o'.stackAlloc
  stack : o'.stackAlloc = o.stackAlloc ∧ o'.stack = bump o.stack 1 ∨
    o.stackAlloc < o'.stackAlloc ∧ o'.stack = cleared o.stack

theorem Emitted.stackAlloc_le {nesting : Nat} (h : Emitted o o' nesting) :
    o.stackAlloc ≤ o'.stackAlloc := by
  rcases h.stack with ⟨halloc, -⟩ | ⟨halloc, -⟩ <;> omega

theorem emitted_addBytes {call : ObjectCall} {bytes : Bytes}
    (hcall : call.run mp o = o.addBytes bytes) (hroom : o.stack.length ≤ o.stackAlloc)
    (h : Object.perform mp [call] o = some o') : Emitted o o' 0 := by
  obtain ⟨rv, o₁, hrun, hrv, hrest⟩ := perform_cons_eq_some h
  cases hrest
  obtain ⟨halloc, htype, hsize⟩ := countChild_frame o
  rw [hcall] at hrun
  obtain ⟨hs, ha, ht, hz⟩ := write_ok hrun hrv
  refine ⟨ht.trans htype, by omega, by omega, .inl ⟨ha.trans halloc, ?_⟩⟩
  rw [hs, countChild_stack]

/-- Children in a row: once the stack has grown, the container they are in counts only those
that came after. -/
theorem emitted_elements {xs : List Value}
    (hxs : ∀ x ∈ xs, ∀ (hint : List Nat → UInt32) {o o' : Object}, 0 < o.stackAlloc →
      o.stack.length ≤ o.stackAlloc → o.type ≠ .simple →
        Object.perform mp (calls hint x) o = some o' → Emitted o o' x.nesting)
    (hint : List Nat → UInt32) (index : Nat) {top : SboStack} {rest : List SboStack}
    (hpos : 0 < o.stackAlloc) (hstack : o.stack = top :: rest)
    (hroom : o.stack.length ≤ o.stackAlloc) (hmode : o.type ≠ .simple)
    (h : Object.perform mp (elementCalls hint index xs) o = some o') :
    o'.type = o.type ∧ o.size ≤ o'.size ∧
      o.stack.length + Value.nestingOfElements xs ≤ o'.stackAlloc ∧
      (o'.stackAlloc = o.stackAlloc ∧ o'.stack = bump (top :: rest) xs.length ∨
        o.stackAlloc < o'.stackAlloc ∧ ∃ later < xs.length,
          o'.stack = bump (SboStack.cleared :: cleared rest) later) := by
  induction xs generalizing index o top rest with
  | nil =>
      cases h
      exact ⟨rfl, le_refl _, by simpa [Value.nestingOfElements] using hroom,
        .inl ⟨rfl, by simp [hstack]⟩⟩
  | cons x xs ih =>
      rw [elementCalls, perform_append] at h
      cases hfirst : Object.perform mp (calls (fun path => hint (index :: path)) x) o with
      | none => simp [hfirst] at h
      | some o₁ =>
          rw [hfirst, Option.bind_some] at h
          have hx := hxs x (by simp) _ hpos hroom hmode hfirst
          have hle := hx.stackAlloc_le
          have hxroom := hx.room
          have hlength : o₁.stack.length = o.stack.length := by
            rcases hx.stack with ⟨-, hs⟩ | ⟨-, hs⟩ <;> simp [hs]
          have hrest : ∀ (top' : SboStack) (rest' : List SboStack), o₁.stack = top' :: rest' →
              _ := fun top' rest' hstack' =>
            ih (fun y hy => hxs y (by simp [hy])) (index + 1) (by omega) hstack' (by omega)
              (by rw [hx.type_eq]; exact hmode) h
          simp only [Value.nestingOfElements, List.length_cons]
          rcases hx.stack with ⟨halloc, hs⟩ | ⟨halloc, hs⟩
          · rw [hstack] at hs
            obtain ⟨ht, hz, hr, hafter⟩ := hrest _ _ hs
            refine ⟨ht.trans hx.type_eq, hx.size_le.trans hz, by omega, ?_⟩
            rcases hafter with ⟨halloc', hs'⟩ | ⟨halloc', later, hlater, hs'⟩
            · refine .inl ⟨halloc'.trans halloc, ?_⟩
              rw [hs', Nat.add_comm, ← bump_bump]
              rfl
            · exact .inr ⟨by omega, later, by omega, hs'⟩
          · rw [hstack] at hs
            obtain ⟨ht, hz, hr, hafter⟩ := hrest _ _ hs
            refine ⟨ht.trans hx.type_eq, hx.size_le.trans hz, by omega, .inr ?_⟩
            rcases hafter with ⟨halloc', hs'⟩ | ⟨halloc', later, hlater, hs'⟩
            · exact ⟨by omega, xs.length, by omega, hs'⟩
            · refine ⟨by omega, later, by omega, ?_⟩
              rw [hs']
              exact congrArg (fun stack => bump (SboStack.cleared :: stack) later)
                (cleared_cleared rest)

theorem perform_container {opening : ObjectCall} {kind : Kind} {header : SboType → Bytes}
    {filling : List ObjectCall} (hopening : opening.run mp o = o.addContainer kind header)
    (h : Object.perform mp (opening :: (filling ++ [.containerClose])) o = some o') :
    ∃ rv o₁ o₂ rv', o.addContainer kind header = .ok (rv, o₁) ∧ rv ≠ -1 ∧
      Object.perform mp filling o₁ = some o₂ ∧ o₂.containerClose mp = .ok (rv', o') ∧
      rv' ≠ -1 := by
  obtain ⟨rv, o₁, hopen, hrv, h⟩ := perform_cons_eq_some h
  rw [hopening] at hopen
  rw [perform_append, Option.bind_eq_some_iff] at h
  obtain ⟨o₂, hfill, h⟩ := h
  obtain ⟨rv', o₃, hclose, hrv', h⟩ := perform_cons_eq_some h
  cases h
  exact ⟨rv, o₁, o₂, rv', hopen, hrv, hfill, hclose, hrv'⟩

theorem closingHeader_length_le (type : SboType) (kind : Kind) (size : UInt32) :
    (closingHeader type kind 0).length ≤ (closingHeader type kind size).length := by
  have hpos := closingHeader_length_pos type kind size
  cases type with
  | sparse =>
      simp only [closingHeader]
      split <;> simp [mapHeader32, arrayHeader32]
  | _ =>
      have hone : (closingHeader .packed kind 0).length = 1 := by
        simp only [closingHeader]
        split <;> rfl
      exact hone ▸ hpos

section Growth

variable (hmp : mp.Lawful)

include hmp

theorem emitted_container {opening : ObjectCall} {kind : Kind} {header : SboType → Bytes}
    {xs : List Value}
    (hxs : ∀ x ∈ xs, ∀ (hint : List Nat → UInt32) {o o' : Object}, 0 < o.stackAlloc →
      o.stack.length ≤ o.stackAlloc → o.type ≠ .simple →
        Object.perform mp (calls hint x) o = some o' → Emitted o o' x.nesting)
    (hint : List Nat → UInt32) (hopening : opening.run mp o = o.addContainer kind header)
    (hpos : 0 < o.stackAlloc) (hroom : o.stack.length ≤ o.stackAlloc) (hmode : o.type ≠ .simple)
    (h : Object.perform mp (opening :: (elementCalls hint 0 xs ++ [.containerClose])) o = some o') :
    Emitted o o' (Value.nestingOfElements xs + 1) := by
  obtain ⟨rv, o₁, o₂, rv', hopen, hrv, hfill, hclose, hrv'⟩ := perform_container hopening h
  obtain ⟨ht₁, hz₁, hpush⟩ := addContainer_ok hopen hrv
  -- the containers below the new one, as they are before it is filled
  obtain ⟨below, hs₁, hbelow, hcleared, halloc₁⟩ : ∃ below,
      o₁.stack = ⟨o.size, 0, kind⟩ :: below ∧ below.length = o.stack.length ∧
      cleared below = cleared o.stack ∧
      (o₁.stackAlloc = o.stackAlloc ∧ below = bump o.stack 1 ∨
        o.stackAlloc < o₁.stackAlloc ∧ below = cleared o.stack) ∧
      o₁.stack.length ≤ o₁.stackAlloc := by
    rcases hpush with ⟨hfree, halloc, hs⟩ | ⟨hfull, halloc, hs⟩
    · refine ⟨_, hs, bump_length _ _, cleared_bump _ _, .inl ⟨halloc, rfl⟩, ?_⟩
      rw [hs, List.length_cons, bump_length]
      omega
    · refine ⟨_, hs, cleared_length _, cleared_cleared _, .inr ⟨by omega, rfl⟩, ?_⟩
      rw [hs, List.length_cons, cleared_length]
      omega
  obtain ⟨halloc₁, hroom₁⟩ := halloc₁
  have hle₁ : o.stackAlloc ≤ o₁.stackAlloc := by
    rcases halloc₁ with ⟨halloc, -⟩ | ⟨halloc, -⟩ <;> omega
  obtain ⟨ht₂, hz₂, hr₂, hafter⟩ := emitted_elements hxs hint 0 (by omega) hs₁ hroom₁
    (by rw [ht₁]; exact hmode) hfill
  obtain ⟨top, rest, mem, mem', hs₂, hs', ha', ht', -, -, hz'⟩ :=
    containerClose_ok hmp (by rw [ht₂, ht₁]; exact hmode) hclose hrv'
  have hheader := closingHeader_length_le o₂.type top.type top.size
  have hlength : o₁.stack.length = o.stack.length + 1 := by rw [hs₁, List.length_cons, hbelow]
  refine ⟨ht'.trans (ht₂.trans ht₁), by omega, by omega, ?_⟩
  rcases hafter with ⟨ha₂, hkept⟩ | ⟨ha₂, later, -, hgrown⟩
  · rw [hkept] at hs₂
    have hrest : rest = below := (List.cons.inj hs₂).2.symm
    rcases halloc₁ with ⟨halloc, hbelow⟩ | ⟨halloc, hbelow⟩
    · exact .inl ⟨by omega, by rw [hs', hrest, hbelow]⟩
    · exact .inr ⟨by omega, by rw [hs', hrest, hbelow]⟩
  · rw [hgrown] at hs₂
    have hrest : rest = cleared below := (List.cons.inj hs₂).2.symm
    exact .inr ⟨by omega, by rw [hs', hrest, hcleared]⟩

/-- A run that emits a tree succeeds only with room on the stack for its nesting, and where the
stack has grown, all containers that were open have lost their entries. -/
theorem emitted_calls (v : Value) (hint : List Nat → UInt32) {o o' : Object}
    (hpos : 0 < o.stackAlloc) (hroom : o.stack.length ≤ o.stackAlloc) (hmode : o.type ≠ .simple)
    (h : Object.perform mp (calls hint v) o = some o') : Emitted o o' v.nesting := by
  induction v using Value.induct generalizing hint o o' with
  | array elements ih =>
      exact emitted_container hmp (fun x hx hint o o' => ih x hx hint) hint rfl hpos hroom hmode h
  | map pairs ih =>
      rw [calls, pairCalls_eq] at h
      rw [Value.nesting, Value.nestingOfPairs_eq]
      exact emitted_container hmp (fun x hx hint o o' => ih x hx hint) hint rfl hpos hroom hmode h
  | _ => exact emitted_addBytes rfl hroom h

end Growth

theorem SboType.head_arrayHeader (type : SboType) {count : Nat} (h : count < 2 ^ 32) :
    head (type.arrayHeader count) = some (.array count, []) := by
  cases type with
  | sparse => exact head_arrayHeader32 h
  | _ => exact Encoding.head_arrayHeader h

theorem SboType.head_mapHeader (type : SboType) {count : Nat} (h : count < 2 ^ 32) :
    head (type.mapHeader count) = some (.map count, []) := by
  cases type with
  | sparse => exact head_mapHeader32 h
  | _ => exact Encoding.head_mapHeader h

theorem closingHeader_zero_length (type : SboType) (kind kind' : Kind) :
    (closingHeader type kind 0).length = (closingHeader type kind' 0).length := by
  cases type <;> simp only [closingHeader] <;> split <;> split <;> rfl

theorem head_of_grown (hmp : mp.Lawful) (hmode : o.type ≠ .simple) (hempty : o.stack = [])
    (hsize : o.size = 0) (hpos : 0 < o.stackAlloc) {opening : ObjectCall} {kind : Kind}
    {header : SboType → Bytes} {xs : List Value} (hint : List Nat → UInt32)
    (hopening : opening.run mp o = o.addContainer kind header)
    (hheader : header o.type = closingHeader o.type kind 0)
    (hdeep : o.stackAlloc < Value.nestingOfElements xs + 1)
    (h : Object.perform mp (opening :: (elementCalls hint 0 xs ++ [.containerClose])) o =
      some o') :
    ∃ later < xs.length, ∃ rest, head o'.contents = some (.array (later % 2 ^ 32), rest) := by
  obtain ⟨rv, o₁, o₂, rv', hopen, hrv, hfill, hclose, hrv'⟩ := perform_container hopening h
  obtain ⟨ht₁, hz₁, hpush⟩ := addContainer_ok hopen hrv
  rw [hempty] at hpush
  rcases hpush with ⟨-, ha₁, hs₁⟩ | ⟨hfull, -, -⟩
  swap
  · rw [List.length_nil] at hfull
    omega
  have hmode₁ : o₁.type ≠ .simple := by rw [ht₁]; exact hmode
  have hlength₁ : o₁.stack.length = 1 := by rw [hs₁]; rfl
  obtain ⟨ht₂, hz₂, hr₂, hafter⟩ := emitted_elements
    (fun x _ hint o o' => emitted_calls hmp x hint) hint 0 (by omega) hs₁ (by omega) hmode₁ hfill
  rcases hafter with ⟨ha₂, -⟩ | ⟨-, later, hlater, hs₂⟩
  · omega
  obtain ⟨top, rest, mem, mem', hs₂', -, -, -, hpoke, hdata, hz'⟩ :=
    containerClose_ok hmp (by rw [ht₂]; exact hmode₁) hclose hrv'
  have htop : top = ⟨0, UInt32.ofNat later, .nil⟩ := by
    rw [hs₂] at hs₂'
    have := (List.cons.inj hs₂').1
    simpa [SboStack.cleared] using this.symm
  subst top
  rw [ht₂, ht₁] at hpoke hz'
  rw [hheader, closingHeader_zero_length o.type kind .nil] at hz₁
  unfold poke at hpoke
  split at hpoke
  swap
  · cases hpoke
  simp only [List.take_zero, List.nil_append, Nat.zero_add, Option.some.injEq] at hpoke
  subst mem'
  have hcount : (UInt32.ofNat later).toNat = later % 2 ^ 32 := UInt32.toNat_ofNat'
  have hhead : head (closingHeader o.type .nil (UInt32.ofNat later)) =
      some (.array (later % 2 ^ 32), []) := by
    rw [← hcount]
    have hlt : (UInt32.ofNat later).toNat < 2 ^ 32 := UInt32.toNat_lt _
    cases o.type with
    | sparse => exact head_arrayHeader32 hlt
    | _ => exact Encoding.head_arrayHeader hlt
  have hroom : (closingHeader o.type .nil (UInt32.ofNat later)).length ≤ o'.size := by
    simp only at hz'
    omega
  have hcontents : ∃ elements, o'.contents =
      closingHeader o.type .nil (UInt32.ofNat later) ++ elements := by
    rw [Object.contents, hdata, Option.getD_some, List.take_append, List.take_of_length_le hroom]
    exact ⟨_, rfl⟩
  obtain ⟨elements, hcontents⟩ := hcontents
  exact ⟨later, hlater, _, by rw [hcontents]; exact head_append hhead elements⟩

theorem SboType.head_container (type : SboType) {v : Value} {hd : Head}
    (hcounts : v.CountsBelow (2 ^ 32) (2 ^ 32)) (hhead : v.containerHead = some hd) (t : Bytes) :
    (head (encodeFor type v ++ t)).map Prod.fst = some hd := by
  cases v with
  | array elements =>
      cases hhead
      rw [encodeFor, Value.encodeWith, List.append_assoc,
        head_append (type.head_arrayHeader hcounts.1)]
      rfl
  | map pairs =>
      cases hhead
      rw [encodeFor, Value.encodeWith, List.append_assoc,
        head_append (type.head_mapHeader hcounts.1)]
      rfl
  | _ => cases hhead

theorem head_ne_of_grown (hmp : mp.Lawful) (hmode : o.type ≠ .simple) (hempty : o.stack = [])
    (hsize : o.size = 0) (hpos : 0 < o.stackAlloc) (hint : List Nat → UInt32) {v : Value}
    (hdeep : o.stackAlloc < v.nesting) (h : Object.perform mp (calls hint v) o = some o')
    (t : Bytes) : (head (o'.contents ++ t)).map Prod.fst ≠ v.containerHead := by
  cases v with
  | array elements =>
      rw [Value.nesting] at hdeep
      obtain ⟨later, hlater, rest, hhead⟩ := head_of_grown hmp hmode hempty hsize hpos hint rfl
        (openingArray_eq hmp hmode _) hdeep h
      rw [head_append hhead, Value.containerHead]
      simp only [Option.map_some, ne_eq, Option.some.injEq, Head.array.injEq]
      have hcount := Nat.mod_le later (2 ^ 32)
      omega
  | map pairs =>
      rw [Value.nesting, Value.nestingOfPairs_eq] at hdeep
      rw [calls, pairCalls_eq] at h
      obtain ⟨later, hlater, rest, hhead⟩ := head_of_grown hmp hmode hempty hsize hpos hint rfl
        (openingMap_eq hmp hmode _) hdeep h
      rw [head_append hhead, Value.containerHead]
      simp
  | _ => exact absurd hdeep (Nat.not_lt_zero _)

/-- `beer_object(NULL)` in a mode. -/
def freshObject (type : SboType) : Object := (beerObject.setType type).2

/-- The calls for a tree all succeed on a fresh object, and leave its encoding there. -/
def BuildsExactly (mp : Msgpuck) (type : SboType) (hint : List Nat → UInt32) (v : Value) : Prop :=
  ∃ o, Object.perform mp (calls hint v) (freshObject type) = some o ∧
    o.contents = encodeFor type v

theorem drafts_freshObject (type : SboType) : (freshObject type).Drafts ⟨[], [], type, 8⟩ :=
  ⟨rfl, rfl, rfl, rfl, rfl, rfl⟩

theorem SboType.mapHeader_counted (type : SboType) {count : Nat} (h : count < 2 ^ 32)
    {t t' : Bytes} (heq : type.mapHeader (count % 2 ^ 31) ++ t = type.mapHeader count ++ t') :
    count < 2 ^ 31 ∧ t = t' := by
  have hhead := congrArg head heq
  rw [head_append (type.head_mapHeader (lt_of_le_of_lt (Nat.mod_le _ _) h)),
    head_append (type.head_mapHeader h)] at hhead
  simp only [List.nil_append, Option.some.injEq, Prod.mk.injEq, Head.map.injEq] at hhead
  exact ⟨by omega, hhead.2⟩

theorem encodeCounted_eq_iff (type : SboType) {v : Value}
    (hcounts : v.CountsBelow (2 ^ 32) (2 ^ 32)) :
    encodeCounted type v = encodeFor type v ↔ v.CountsBelow (2 ^ 32) (2 ^ 31) := by
  constructor
  · intro heq
    exact (Value.countsBelow_of_encodeWith_eq (fun n hn t t' => type.mapHeader_counted hn) v
      hcounts (congrArg (· ++ ([] : Bytes)) heq)).1
  · intro hsmall
    exact Value.encodeWith_congr (fun n hn => by rw [Nat.mod_eq_of_lt hn]) v hsmall

/-- A value tree is built exactly when at most eight containers are ever open at once, so that
the stack never grows, and no map has `2 ^ 31` pairs or more. -/
theorem buildsExactly_iff (hmp : mp.Lawful) {type : SboType} (hmode : type ≠ .simple)
    (hint : List Nat → UInt32) {v : Value} (hcounts : v.CountsBelow (2 ^ 32) (2 ^ 32)) :
    BuildsExactly mp type hint v ↔ v.nesting ≤ 8 ∧ v.CountsBelow (2 ^ 32) (2 ^ 31) := by
  by_cases hnesting : v.nesting ≤ 8
  · obtain ⟨o, hperform, ho⟩ := builds_calls hmp hmode v hcounts hint [] []
      (by simpa using hnesting) _ (drafts_freshObject type)
    have hcontents : o.contents = encodeCounted type v := by simpa using ho.contents_eq
    rw [← encodeCounted_eq_iff type hcounts, ← hcontents]
    constructor
    · rintro ⟨o', hperform', hexact⟩
      rw [hperform] at hperform'
      cases hperform'
      exact ⟨hnesting, hexact⟩
    · rintro ⟨-, hexact⟩
      exact ⟨o, hperform, hexact⟩
  · refine iff_of_false ?_ (fun h => hnesting h.1)
    rintro ⟨o, hperform, hexact⟩
    have hdeep := Nat.lt_of_not_le hnesting
    obtain ⟨hd, hhead⟩ := Value.exists_containerHead (lt_trans (Nat.succ_pos 7) hdeep)
    have hne := head_ne_of_grown hmp hmode rfl rfl (Nat.succ_pos 7) hint hdeep hperform []
    rw [hexact, type.head_container hcounts hhead, hhead] at hne
    exact hne rfl

theorem buildsExactly_iff_pair :
    (Value.array [.uint 1, .map [(.uint 2, .nil)]]).CountsBelow (2 ^ 32) (2 ^ 32) ∧
      (BuildsExactly .reference .packed (fun _ => 0) (.array [.uint 1, .map [(.uint 2, .nil)]]) ↔
        (Value.array [.uint 1, .map [(.uint 2, .nil)]]).nesting ≤ 8 ∧
          (Value.array [.uint 1, .map [(.uint 2, .nil)]]).CountsBelow (2 ^ 32) (2 ^ 31)) := by
  have hcounts :
      (Value.array [.uint 1, .map [(.uint 2, .nil)]]).CountsBelow (2 ^ 32) (2 ^ 32) := by
    simp [Value.CountsBelow, Value.ElementCountsBelow, Value.PairCountsBelow]
  exact ⟨hcounts, buildsExactly_iff Msgpuck.reference_lawful (by decide) _ hcounts⟩

/-- An array in an array, down to the given depth. -/
def nested : Nat → Value
  | 0 => .array []
  | depth + 1 => .array [nested depth]

/-- Nine arrays, each in the one before: the first eight are closed as empty. -/
theorem not_buildsExactly_nested : ¬BuildsExactly .reference .packed (fun _ => 0) (nested 8) := by
  rintro ⟨o, hperform, hexact⟩
  have hbytes : (Object.perform .reference (calls (fun _ => 0) (nested 8))
      (freshObject .packed)).map Object.contents =
        some [0x90, 0x90, 0x90, 0x90, 0x90, 0x90, 0x90, 0x90, 0x90] := by decide +kernel
  rw [hperform, Option.map_some, hexact, Option.some.injEq] at hbytes
  exact absurd hbytes (by decide +kernel)

end BeeC
