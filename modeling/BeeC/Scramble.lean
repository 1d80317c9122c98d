import BeeC.AuthProof
import BeeC.Base64Stream

namespace BeeC

open BeeC.Wire
open BeeC.Wire.MessagePack
open BeeC.Wire.SecureHash

/-- The contexts of `beer_scramble_prepare`, and of `tpi_scramble_prepare`: each is initialised,
updated and finished. -/
def scrambleContexts (garbage : Nat → UInt8) (salt pass : Bytes) : Option Bytes := do
  let hash1 ← sha1Run garbage [pass]
  let hash2 ← sha1Run garbage [hash1]
  let out ← sha1Run garbage [salt.take beerScrambleSize, hash2]
  some (beerXor hash1 out)

/-- The arrays `salt` and `scramble` of `beer_auth_raw`, and of `tp_auth`, when they have been
computed. -/
def authScramble (garbage : Nat → UInt8) (base64Salt pass : Bytes) : Option Bytes := do
  let (_, salt) ← base64Decode (base64Salt.take beerSaltSize) ((List.range 64).map garbage)
  scrambleContexts garbage salt pass

theorem scrambleContexts_eq (garbage : Nat → UInt8) (salt : Bytes) {pass : Bytes}
    (hpass : pass.length < 2 ^ 31) :
    scrambleContexts garbage salt pass = some (beerScramblePrepare builtCrypt salt pass) := by
  have hchunk {chunk : Bytes} (h : chunk.length ≤ 20) : chunk.length + 64 ≤ 2 ^ 32 := by omega
  have hdigest (data : Bytes) : (sha1 data).length + 64 ≤ 2 ^ 32 :=
    hchunk (Nat.le_of_eq (sha1_length data))
  have hsalt : (salt.take beerScrambleSize).length + 64 ≤ 2 ^ 32 :=
    hchunk (List.length_take_le beerScrambleSize salt)
  have hinit := sha1Init_holds garbage
  have hfirst : sha1Run garbage [pass] = some (sha1 ([] ++ [pass].flatten)) :=
    hinit.run [pass] (by rw [List.forall_mem_singleton]; omega)
  have hsecond : sha1Run garbage [sha1 pass] = some (sha1 ([] ++ [sha1 pass].flatten)) :=
    hinit.run [sha1 pass] (List.forall_mem_singleton.mpr (hdigest pass))
  have hthird : sha1Run garbage [salt.take beerScrambleSize, sha1 (sha1 pass)] =
      some (sha1 ([] ++ [salt.take beerScrambleSize, sha1 (sha1 pass)].flatten)) :=
    hinit.run _
      (List.forall_mem_cons.mpr ⟨hsalt, List.forall_mem_singleton.mpr (hdigest (sha1 pass))⟩)
  rw [List.nil_append, List.flatten_singleton] at hfirst hsecond
  rw [List.nil_append, List.flatten_cons, List.flatten_singleton] at hthird
  unfold scrambleContexts
  dsimp only [Option.bind_eq_bind]
  rw [hfirst, Option.bind_some, hsecond, Option.bind_some, hthird, Option.bind_some]
  rfl

theorem drop_stored (garbage : Nat → UInt8) {n size : Nat} (hn : n < size) (x : UInt8) :
    ((List.range size).map (Function.update garbage n x)).drop n =
      x :: ((List.range size).map garbage).drop (n + 1) := by
  have hlength : n < ((List.range size).map (Function.update garbage n x)).length := by
    rw [List.length_map, List.length_range]
    exact hn
  rw [List.drop_eq_getElem_cons hlength, List.getElem_map, List.getElem_range,
    Function.update_self]
  congr 1
  apply List.ext_getElem
  · simp
  · intro i hi hi'
    rw [List.getElem_drop, List.getElem_drop, List.getElem_map, List.getElem_map,
      List.getElem_range, Function.update_of_ne (by omega)]

/-- The scramble that is computed is the one over the standard functions, and a proof that a server
accepts which keeps only the hash of the hash of the password. What is left of the salt depends on
what was on the stack. The table of the decoder is read past its end for a salt with one
character. -/
theorem authScramble_eq (garbage : Nat → UInt8) (base64Salt : Bytes) {pass : Bytes}
    (hpass : pass.length < 2 ^ 31) :
    ∃ garbage', authScramble garbage base64Salt pass =
        (if 0x7b ∈ base64Salt.take beerSaltSize then none
        else some (beerScramblePrepare builtCrypt (decodeSalt builtCrypt garbage' base64Salt)
          pass)) ∧
      ServerAccepts builtCrypt (decodeSalt builtCrypt garbage' base64Salt) (sha1 (sha1 pass))
        (beerScramblePrepare builtCrypt (decodeSalt builtCrypt garbage' base64Salt) pass) := by
  have hshort : (Base64.decode (base64Salt.take beerSaltSize)).length < 64 := by
    have htake : (base64Salt.take beerSaltSize).length ≤ 44 := List.length_take_le 44 base64Salt
    have hvalues := List.length_filterMap_le Base64.value (base64Salt.take beerSaltSize)
    unfold Base64.decode
    rw [octets_length]
    omega
  have hlength : ((List.range 64).map garbage).length = 64 := by
    rw [List.length_map, List.length_range]
  obtain ⟨y, back, hout⟩ := List.exists_cons_of_length_pos (hlength ▸ Nat.zero_lt_of_lt hshort)
  rw [hout, List.length_cons] at hlength
  obtain ⟨x, hdecode⟩ := base64Decode_cons_eq (base64Salt.take beerSaltSize) y back (by omega)
  rw [← hout] at hdecode
  have hdecoded : (Base64.decode (base64Salt.take beerSaltSize)).take 64 =
      Base64.decode (base64Salt.take beerSaltSize) :=
    List.take_of_length_le (Nat.le_of_lt hshort)
  refine ⟨Function.update garbage (Base64.decode (base64Salt.take beerSaltSize)).length x, ?_,
    serverAccepts_scramble _ _⟩
  unfold authScramble
  dsimp only [Option.bind_eq_bind]
  rw [hdecode]
  split
  · rfl
  · rw [Option.bind_some]
    dsimp only
    rw [scrambleContexts_eq garbage _ hpass]
    unfold decodeSalt builtCrypt
    dsimp only
    rw [hdecoded, drop_stored garbage hshort, hout, List.drop_succ_cons]

theorem authScramble_eq_salt :
    ∃ garbage', authScramble (fun _ => 0) (List.replicate beerSaltSize 0x51) [0x62] =
        some (beerScramblePrepare builtCrypt
          (decodeSalt builtCrypt garbage' (List.replicate beerSaltSize 0x51)) [0x62]) ∧
      ServerAccepts builtCrypt
        (decodeSalt builtCrypt garbage' (List.replicate beerSaltSize 0x51)) (sha1 (sha1 [0x62]))
        (beerScramblePrepare builtCrypt
          (decodeSalt builtCrypt garbage' (List.replicate beerSaltSize 0x51)) [0x62]) := by
  obtain ⟨garbage', hscramble, haccepts⟩ :=
    @authScramble_eq (fun _ => 0) (List.replicate beerSaltSize 0x51) [0x62] (by decide)
  rw [if_neg (by decide)] at hscramble
  exact ⟨garbage', hscramble, haccepts⟩

end BeeC
