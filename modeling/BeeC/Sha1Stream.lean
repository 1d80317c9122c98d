import BeeC.Sha1Proof

namespace BeeC

open BeeC.Wire
open BeeC.Wire.Absorb
open BeeC.Wire.Memory
open BeeC.Wire.SecureHash

/-- A context into which the bytes were put. -/
structure Sha1Holds (ctx : Sha1Ctx) (done : List UInt8) : Prop where
  words : ctx.state.words = (absorb compress 64 initial done).1
  size : ctx.buffer.length = 64
  rest : ctx.buffer.take (done.length % 64) = (absorb compress 64 initial done).2
  count0 : ctx.count0 < 2 ^ 32
  count : ctx.count0 + 2 ^ 32 * ctx.count1 = 8 * done.length % 2 ^ 64

theorem sha1Init_holds (garbage : Nat → UInt8) : Sha1Holds (sha1Init garbage) [] where
  words := rfl
  size := by
    unfold sha1Init
    rw [List.length_map, List.length_range]
  rest := List.take_zero
  count0 := show 0 < 2 ^ 32 by decide
  count := rfl

theorem Sha1Holds.place {ctx : Sha1Ctx} {done : List UInt8} (h : Sha1Holds ctx done) :
    ctx.count0 >>> 3 &&& 63 = done.length % 64 := by
  have hcount := h.count
  have hlt := h.count0
  rw [show (63 : Nat) = 2 ^ 6 - 1 from rfl, Nat.and_two_pow_sub_one_eq_mod,
    Nat.shiftRight_eq_div_pow]
  omega

theorem sha1Blocks_spec (data : List UInt8) (hlength : data.length + 64 ≤ 2 ^ 32) (fuel : Nat)
    {i : Nat} (hi : i ≤ data.length) (hfuel : data.length < i + 64 * fuel) (state : Sha1Regs) :
    ∃ i' state', sha1Blocks data fuel i state = some (i', state') ∧
      (state'.words, data.drop i') = absorb compress 64 state.words (data.drop i) := by
  induction fuel generalizing i state with
  | zero => omega
  | succ fuel ih =>
      have hsum : (i + 63) % 2 ^ 32 = i + 63 := Nat.mod_eq_of_lt (by omega)
      unfold sha1Blocks
      rw [hsum]
      by_cases hmore : i + 63 < data.length
      · rw [if_pos hmore]
        obtain ⟨i', state', hloop, hspec⟩ := ih (i := i + 64) (by omega) (by omega)
          (sha1Transform state ((data.drop i).take 64))
        have hlong : 64 ≤ (data.drop i).length := by
          rw [List.length_drop]
          omega
        refine ⟨i', state', hloop, ?_⟩
        rw [hspec, sha1Transform_words, absorb_step (by decide) hlong, List.drop_drop]
      · rw [if_neg hmore]
        exact ⟨i, state, rfl, (absorb_short (by rw [List.length_drop]; omega) _).symm⟩

theorem Sha1Holds.fill {ctx : Sha1Ctx} {done : List UInt8} (h : Sha1Holds ctx done)
    (data : List UInt8) (hlength : data.length + 64 ≤ 2 ^ 32) :
    ∃ state buffer, sha1Fill ctx (done.length % 64) data = some (state, buffer) ∧
      state.words = (absorb compress 64 initial (done ++ data)).1 ∧ buffer.length = 64 ∧
      buffer.take ((done ++ data).length % 64) = (absorb compress 64 initial (done ++ data)).2 := by
  have hsize := h.size
  have hj : done.length % 64 < 64 := Nat.mod_lt _ (by decide)
  have hsum : (done.length % 64 + data.length) % 2 ^ 32 = done.length % 64 + data.length :=
    Nat.mod_eq_of_lt (by omega)
  rw [absorb_append (by decide), ← h.rest, ← h.words]
  have hrest : (ctx.buffer.take (done.length % 64)).length = done.length % 64 := by
    rw [List.length_take]
    omega
  unfold sha1Fill
  rw [hsum]
  by_cases hfull : 63 < done.length % 64 + data.length
  · rw [if_pos hfull]
    have hpeek : peek data 0 (64 - done.length % 64) =
        some (data.take (64 - done.length % 64)) := if_pos (by omega)
    have hhead : (data.take (64 - done.length % 64)).length = 64 - done.length % 64 := by
      rw [List.length_take]
      omega
    have hpoke : poke ctx.buffer (done.length % 64) (data.take (64 - done.length % 64)) =
        some (ctx.buffer.take (done.length % 64) ++ data.take (64 - done.length % 64)) := by
      unfold poke
      rw [if_pos (by omega), List.drop_eq_nil_of_le (by omega), List.append_nil]
    have hblock : (ctx.buffer.take (done.length % 64) ++
        data.take (64 - done.length % 64)).length = 64 := by
      rw [List.length_append, hrest, hhead]
      omega
    obtain ⟨i, state, hloop, hspec⟩ := sha1Blocks_spec data hlength (data.length + 1)
      (i := 64 - done.length % 64) (by omega) (by omega)
      (sha1Transform ctx.state (ctx.buffer.take (done.length % 64) ++
        data.take (64 - done.length % 64)))
    have habsorb : absorb compress 64 ctx.state.words
        (ctx.buffer.take (done.length % 64) ++ data) = (state.words, data.drop i) := by
      rw [hspec, sha1Transform_words, ← absorb_block (by decide) hblock, List.append_assoc,
        List.take_append_drop]
    have hleft : (data.drop i).length = (done ++ data).length % 64 := by
      have hcount := @absorb_rest_length _ _ compress 64 (by decide) ctx.state.words
        (ctx.buffer.take (done.length % 64) ++ data)
      rw [habsorb, List.length_append, hrest] at hcount
      rw [hcount, List.length_append]
      omega
    have hless : (data.drop i).length < 64 := by
      rw [hleft]
      exact Nat.mod_lt _ (by decide)
    rw [hpeek, Option.bind_eq_bind, Option.bind_some, hpoke, Option.bind_some, hloop]
    dsimp only [Option.bind_eq_bind, Option.bind_some]
    have hpoke' : poke (ctx.buffer.take (done.length % 64) ++ data.take (64 - done.length % 64)) 0
        (data.drop i) = some (data.drop i ++ (ctx.buffer.take (done.length % 64) ++
          data.take (64 - done.length % 64)).drop (data.drop i).length) := by
      unfold poke
      rw [if_pos (by omega), List.take_zero, List.nil_append, Nat.zero_add]
    rw [hpoke', habsorb]
    refine ⟨_, _, rfl, rfl, ?_, ?_⟩
    · rw [List.length_append, List.length_drop (i := (data.drop i).length), hblock]
      omega
    · rw [← hleft, List.take_left]
  · rw [if_neg hfull]
    have hpoke : poke ctx.buffer (done.length % 64) data = some (ctx.buffer.take (done.length % 64) ++
        (data ++ ctx.buffer.drop (done.length % 64 + data.length))) := if_pos (by omega)
    have hshort : (ctx.buffer.take (done.length % 64) ++ data).length < 64 := by
      rw [List.length_append, hrest]
      omega
    rw [hpoke, absorb_short hshort]
    refine ⟨_, _, rfl, rfl, ?_, ?_⟩
    · rw [List.length_append, List.length_append, hrest, List.length_drop]
      omega
    · rw [← List.append_assoc, List.take_left']
      rw [List.length_append, List.length_append, hrest]
      omega

theorem count_eq {count0 count1 length : Nat} (hcount0 : count0 < 2 ^ 32)
    (hcount : count0 + 2 ^ 32 * count1 = 8 * length % 2 ^ 64) (more : Nat) :
    (count0 + more <<< 3 % 2 ^ 32) % 2 ^ 32 +
        2 ^ 32 * (((if (count0 + more <<< 3 % 2 ^ 32) % 2 ^ 32 < count0 then (count1 + 1) % 2 ^ 32
          else count1) + more >>> 29) % 2 ^ 32) =
      8 * (length + more) % 2 ^ 64 := by
  rw [Nat.shiftLeft_eq, Nat.shiftRight_eq_div_pow]
  split <;> omega

theorem Sha1Holds.update {ctx : Sha1Ctx} {done : List UInt8} (h : Sha1Holds ctx done)
    (data : List UInt8) (hlength : data.length + 64 ≤ 2 ^ 32) :
    ∃ ctx', sha1Update ctx data = some ctx' ∧ Sha1Holds ctx' (done ++ data) := by
  obtain ⟨state, buffer, hfill, hwords, hsize, hrest⟩ := h.fill data hlength
  unfold sha1Update
  dsimp only
  rw [h.place, hfill]
  refine ⟨_, rfl, hwords, hsize, hrest, Nat.mod_lt _ (by decide), ?_⟩
  rw [List.length_append]
  exact count_eq h.count0 h.count data.length

theorem Sha1Holds.updates {ctx : Sha1Ctx} {done : List UInt8} (h : Sha1Holds ctx done)
    (chunks : List (List UInt8)) (hlength : ∀ chunk ∈ chunks, chunk.length + 64 ≤ 2 ^ 32) :
    ∃ ctx', chunks.foldlM sha1Update ctx = some ctx' ∧ Sha1Holds ctx' (done ++ chunks.flatten) := by
  induction chunks generalizing ctx done with
  | nil =>
      rw [List.flatten_nil, List.append_nil]
      exact ⟨ctx, rfl, h⟩
  | cons chunk chunks ih =>
      obtain ⟨ctx₁, hfirst, h₁⟩ := h.update chunk (hlength chunk List.mem_cons_self)
      obtain ⟨ctx', hrest, h'⟩ := ih h₁ fun c hc => hlength c (List.mem_cons_of_mem chunk hc)
      refine ⟨ctx', ?_, ?_⟩
      · rw [List.foldlM_cons, hfirst]
        exact hrest
      · rw [List.flatten_cons, ← List.append_assoc]
        exact h'

theorem Sha1Holds.mask {ctx : Sha1Ctx} {done : List UInt8} (h : Sha1Holds ctx done) :
    ctx.count0 &&& 504 = 8 * (done.length % 64) := by
  have hshift : 8 * (ctx.count0 >>> 3 &&& 63) = (ctx.count0 >>> 3 &&& 63) <<< 3 := by
    rw [Nat.shiftLeft_eq, Nat.mul_comm]
  rw [← h.place, hshift]
  apply Nat.eq_of_testBit_eq
  intro i
  rw [Nat.testBit_and, Nat.testBit_shiftLeft, Nat.testBit_and, Nat.testBit_shiftRight,
    show (504 : Nat) = 63 <<< 3 from rfl, Nat.testBit_shiftLeft]
  by_cases hi : 3 ≤ i
  · rw [Nat.add_sub_cancel' hi]
    simp [hi]
  · simp [hi]

theorem Sha1Holds.pad {zeros : Nat} (fuel : Nat) (hfuel : zeros < fuel) {ctx : Sha1Ctx}
    {done : List UInt8} (h : Sha1Holds ctx done) (hzeros : (120 - done.length % 64) % 64 = zeros) :
    ∃ ctx', sha1Pad fuel ctx = some ctx' ∧ Sha1Holds ctx' (done ++ List.replicate zeros 0) := by
  induction zeros generalizing ctx done fuel with
  | zero =>
      cases fuel with
      | zero => omega
      | succ fuel =>
          rw [List.replicate_zero, List.append_nil]
          unfold sha1Pad
          refine ⟨ctx, if_neg ?_, h⟩
          rw [h.mask]
          omega
  | succ zeros ih =>
      cases fuel with
      | zero => omega
      | succ fuel =>
          obtain ⟨ctx₁, hupdate, h₁⟩ := h.update [0] (by decide)
          have hzeros₁ : (120 - (done ++ [0]).length % 64) % 64 = zeros := by
            rw [List.length_append, List.length_singleton]
            omega
          obtain ⟨ctx', hpad, h'⟩ := ih fuel (by omega) h₁ hzeros₁
          have hmore : ctx.count0 &&& 504 ≠ 448 := by
            rw [h.mask]
            omega
          rw [List.append_assoc, List.singleton_append, ← List.replicate_succ] at h'
          unfold sha1Pad
          rw [if_pos hmore, hupdate]
          exact ⟨ctx', hpad, h'⟩

/-! The bytes of words. -/

theorem sha1Byte_eq (w : BitVec 32) (i : Nat) :
    sha1Byte w i = UInt8.ofNat (w.toNat / 256 ^ (3 - i % 4)) := by
  unfold sha1Byte
  rw [show (3 : Nat) = 2 ^ 2 - 1 from rfl, Nat.and_two_pow_sub_one_eq_mod,
    show (255 : Nat) = 2 ^ 8 - 1 from rfl, Nat.and_two_pow_sub_one_eq_mod,
    Nat.shiftRight_eq_div_pow]
  apply UInt8.toNat.inj
  rw [UInt8.toNat_ofNat', UInt8.toNat_ofNat', Nat.mod_mod, Nat.mul_comm, Nat.pow_mul]

theorem ofNat_byte_eq {m n : Nat} (h : m % 256 = n % 256) : UInt8.ofNat m = UInt8.ofNat n := by
  apply UInt8.toNat.inj
  rw [UInt8.toNat_ofNat', UInt8.toNat_ofNat']
  exact h

theorem Sha1Holds.finalcount {ctx : Sha1Ctx} {done : List UInt8} (h : Sha1Holds ctx done) :
    ((List.range 8).map fun i =>
      sha1Byte (BitVec.ofNat 32 (if 4 ≤ i then ctx.count0 else ctx.count1)) i) =
      BigEndian.store 8 (8 * done.length) := by
  have hcount := h.count
  have hlt := h.count0
  have hlt1 : ctx.count1 < 2 ^ 32 := by omega
  apply List.ext_getElem
  · rw [List.length_map, List.length_range, BigEndian.store_length]
  · intro i hi hi'
    rw [BigEndian.store_length] at hi'
    rw [List.getElem_map, List.getElem_range, sha1Byte_eq, BitVec.toNat_ofNat]
    interval_cases i
    all_goals
      apply ofNat_byte_eq
      norm_num
      omega

theorem digest_eq (state : Sha1Regs) :
    ((List.range 20).map fun i => sha1Byte (state.toList.getD (i >>> 2) 0) i) =
      state.words.bytes := by
  simp only [sha1Byte_eq, List.range_succ, List.range_zero, List.nil_append, List.map_cons,
    List.map_nil, List.cons_append]
  obtain ⟨⟨l⟩, hl⟩ := state
  match l, hl with
  | [a, b, c, d, e], _ => rfl

theorem padded_eq (done : List UInt8) :
    done ++ [0o200] ++ List.replicate ((120 - (done ++ [0o200]).length % 64) % 64) 0 ++
        BigEndian.store 8 (8 * done.length) =
      done ++ padding done.length := by
  have hzeros : (120 - (done ++ [0o200]).length % 64) % 64 = (119 - done.length % 64) % 64 := by
    rw [List.length_append, List.length_singleton]
    omega
  rw [hzeros, List.append_assoc, List.append_assoc, List.singleton_append]
  rfl

theorem Sha1Holds.final {ctx : Sha1Ctx} {done : List UInt8} (h : Sha1Holds ctx done) :
    sha1Final ctx = some (sha1 done) := by
  obtain ⟨ctx₁, hone, h₁⟩ := h.update [0o200] (by decide)
  obtain ⟨ctx₂, hpad, h₂⟩ := h₁.pad 64 (Nat.mod_lt _ (by decide)) rfl
  obtain ⟨ctx₃, hlast, h₃⟩ := h₂.update (BigEndian.store 8 (8 * done.length))
    (by rw [BigEndian.store_length]; decide)
  unfold sha1Final
  rw [h.finalcount, hone]
  dsimp only [Option.bind_eq_bind, Option.bind_some]
  rw [hpad]
  dsimp only [Option.bind_some]
  rw [hlast]
  dsimp only [Option.bind_some]
  rw [digest_eq, h₃.words, padded_eq]
  rfl

theorem Sha1Holds.run {ctx : Sha1Ctx} {done : List UInt8} (h : Sha1Holds ctx done)
    (chunks : List (List UInt8)) (hlength : ∀ chunk ∈ chunks, chunk.length + 64 ≤ 2 ^ 32) :
    (chunks.foldlM sha1Update ctx).bind sha1Final = some (sha1 (done ++ chunks.flatten)) := by
  obtain ⟨ctx', hupdates, h'⟩ := h.updates chunks hlength
  rw [hupdates, Option.bind_some, h'.final]

theorem sha1Run_eq (garbage : Nat → UInt8) (chunks : List (List UInt8))
    (hlength : ∀ chunk ∈ chunks, chunk.length + 64 ≤ 2 ^ 32) :
    sha1Run garbage chunks = some (sha1 chunks.flatten) :=
  (sha1Init_holds garbage).run chunks hlength

theorem sha1Run_two :
    sha1Run (fun _ => 0) [[97], [98, 99]] = some (sha1 [97, 98, 99]) :=
  sha1Run_eq (fun _ => 0) [[97], [98, 99]] (by decide)

end BeeC
