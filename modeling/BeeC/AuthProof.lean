import BeeC.Auth
import BeeC.DirectRoundTrip
import BeeC.Sha1Stream

namespace BeeC

open BeeC.Wire
open BeeC.Wire.Memory
open BeeC.Wire.Loop
open BeeC.Wire.MessagePack
open BeeC.Wire.Encoding

/-- The texts in an array that has nothing else. -/
def textsOf (bytes : Bytes) : Option (List Bytes) :=
  match arrayOf bytes with
  | some (xs, []) => xs.mapM textOf
  | _ => none

/-- A server that keeps the hash of a hash accepts a proof: freed of what it was mixed with, it is
a text with that hash. -/
def ServerAccepts (crypt : Crypt) (salt hash2 proof : Bytes) : Prop :=
  proof.length = beerScrambleSize ∧
    crypt.sha1 (beerXor proof (crypt.sha1 (salt.take beerScrambleSize ++ hash2))) = hash2

/-- The user is absent, or the one who needs no password. -/
def IsGuestName (user : Option Bytes) : Prop := user = none ∨ user = some guestName

/-- The package asks to log the user in, a guest without a proof, and another one with a proof that
the server accepts. -/
structure LogsIn (crypt : Crypt) (salt : Bytes) (reqid : UInt64) (user : Option Bytes)
    (pass : Bytes) (p : Package) : Prop where
  code_eq : p.code = RequestType.auth.id.toNat
  sync_eq : p.sync = reqid.toNat
  body : ∃ tuple, p.body = [(BodyKey.username.id.toNat, .text (user.getD guestName)),
      (BodyKey.tuple.id.toNat, .value tuple)] ∧
    (IsGuestName user → textsOf tuple = some []) ∧
    (¬IsGuestName user → ∃ proof, textsOf tuple = some [chapSha1, proof] ∧
      ServerAccepts crypt salt (crypt.sha1 (crypt.sha1 pass)) proof)

variable {mp : Msgpuck} {crypt : Crypt} {σ : Type}

theorem beerXor_beerXor {left right : Bytes} (h : left.length = right.length) :
    beerXor (beerXor left right) right = left := by
  induction left generalizing right with
  | nil => rfl
  | cons first left ih =>
      cases right with
      | nil => cases h
      | cons other right =>
          have hbyte : first ^^^ other ^^^ other = first := by
            rw [UInt8.xor_assoc, UInt8.xor_self, UInt8.xor_zero]
          have hrest := ih (Nat.succ_inj.mp h)
          unfold beerXor at hrest ⊢
          rw [List.zipWith_cons_cons, List.zipWith_cons_cons, hbyte, hrest]

theorem serverAccepts_scramble (salt pass : Bytes) :
    ServerAccepts crypt salt (crypt.sha1 (crypt.sha1 pass))
      (beerScramblePrepare crypt salt pass) := by
  refine ⟨beerScramblePrepare_length salt pass, ?_⟩
  unfold beerScramblePrepare
  dsimp only
  rw [beerXor_beerXor ((crypt.sha1_length _).trans (crypt.sha1_length _).symm)]

theorem isGuest_eq_true_iff {user : Option Bytes} {ulen : Int32}
    (huser : ∀ name, user = some name → ulen.toInt = name.length) :
    isGuest user ulen = true ↔ IsGuestName user := by
  cases user with
  | none => simp [isGuest, IsGuestName]
  | some name =>
      have hulen := huser name rfl
      have hfive : ulen = 5 ↔ name.length = 5 := by
        rw [← Int32.toInt_inj, hulen]
        exact Int.ofNat_inj
      have hsame : name.length = 5 ∧ name.take 5 = guestName ↔ name = guestName := by
        constructor
        · rintro ⟨hlength, htake⟩
          rwa [List.take_of_length_le hlength.le] at htake
        · rintro rfl
          exact ⟨rfl, rfl⟩
      simpa [isGuest, IsGuestName, hfive] using hsame

/-- The array in the request. -/
def authTuple (crypt : Crypt) (garbage : Nat → UInt8) (salt pass : Bytes) : Bool → List Bytes
  | true => []
  | false => [chapSha1, endedBlock garbage (beerScramblePrepare crypt salt pass)]

/-- An array of short texts. -/
def encodeTexts (texts : List Bytes) : Bytes :=
  arrayHeader texts.length ++
    (texts.map fun text => strHeader text.length ++ text).flatten

theorem textsOf_encodeTexts {texts : List Bytes} (hcount : texts.length < 2 ^ 32)
    (h : ∀ text ∈ texts, text.length < 2 ^ 32) :
    IsValue (encodeTexts texts) ∧ kindOf (encodeTexts texts) = some .array ∧
      textsOf (encodeTexts texts) = some texts := by
  have hvalues : ∀ x ∈ texts.map fun text => strHeader text.length ++ text, IsValue x := by
    intro x hx
    obtain ⟨text, htext, rfl⟩ := List.mem_map.mp hx
    exact isValue_str (h text htext)
  have hheader := head_arrayHeader hcount
  rw [← List.length_map fun text => strHeader text.length ++ text] at hheader
  have hread : (texts.map fun text => strHeader text.length ++ text).mapM textOf = some texts := by
    clear hvalues hheader hcount
    induction texts with
    | nil => rfl
    | cons text texts ih =>
        have hfirst := textOf_str (h text (by simp))
        have hrest := ih fun other hother => h other (by simp [hother])
        simp [hfirst, hrest]
  have harray := arrayOf_elements hheader hvalues
  have hvalue := isValue_container hheader rfl rfl hvalues
  rw [List.length_map] at harray hvalue
  refine ⟨hvalue, ?_, ?_⟩
  · rw [kindOf, encodeTexts, head_append (head_arrayHeader hcount)]
    rfl
  · rw [textsOf, encodeTexts, harray]
    exact hread

theorem toNat_of_toInt_eq {n : Int32} {length : Nat} (h : n.toInt = length) :
    n.toUInt32.toNat = length := by
  have hpos : (0 : Int32) ≤ n := Int32.le_iff_toInt_le.mpr (h ▸ Int.natCast_nonneg _)
  rw [Int32.toNat_toUInt32_of_le hpos]
  show n.toInt.toNat = length
  rw [h, Int.toNat_natCast]

theorem authPayload_flatten (garbage : Nat → UInt8) (reqid : UInt64) (user : Option Bytes)
    (ulen : Int32) {pass : Bytes} {plen : Int32} (hpass : plen.toInt = pass.length)
    (base64Salt : Bytes) :
    (authPayload crypt garbage reqid user ulen pass plen base64Salt).flatten =
      encodeHeaderMap RequestType.auth.id.toNat reqid.toNat ++ (mapHeader 2 ++
        encodeEntries [textEntry .username (authName user ulen), (.tuple, encodeTexts
          (authTuple crypt garbage (decodeSalt crypt garbage base64Salt) pass
            (isGuest user ulen)))]) := by
  have htake : pass.take plen.toUInt32.toNat = pass := by
    rw [toNat_of_toInt_eq hpass, List.take_length]
  have hscramble : (endedBlock garbage (beerScramblePrepare crypt
      (decodeSalt crypt garbage base64Salt) pass)).length = beerScrambleSize := by
    rw [endedBlock_length, beerScramblePrepare_length]
  cases hguest : isGuest user ulen with
  | true => simp [authPayload, authProof, hguest, encodeTexts, authTuple, textEntry]
  | false =>
      simp [authPayload, authProof, hguest, encodeTexts, authTuple, textEntry, htake, hscramble]

theorem authReads_ok {user : Option Bytes} {ulen : Int32} {pass : Bytes} {plen : Int32}
    (huser : ∀ name, user = some name → ulen.toInt = name.length)
    (hpass : plen.toInt = pass.length) : authReads user ulen pass plen = .ok () := by
  have hplen := toNat_of_toInt_eq hpass
  cases user with
  | none => rfl
  | some name =>
      unfold authReads
      split
      · rfl
      · simp [huser name rfl, hplen, pointee]

theorem authName_eq {user : Option Bytes} {ulen : Int32}
    (huser : ∀ name, user = some name → ulen.toInt = name.length) :
    authName user ulen = user.getD guestName := by
  unfold authName
  split
  · rename_i hguest
    rcases (isGuest_eq_true_iff huser).mp hguest with rfl | rfl <;> rfl
  · rename_i hname
    cases user with
    | none => exact absurd rfl hname
    | some name => simp [huser name rfl]

theorem beerAuthRaw_sends (hmp : mp.Lawful) (garbage : Nat → UInt8) (s : Stream σ)
    {user : Option Bytes} {ulen : Int32} {pass : Bytes} {plen : Int32} (base64Salt : Bytes)
    (huser : ∀ name, user = some name → ulen.toInt = name.length)
    (hpass : plen.toInt = pass.length) {tuple : Bytes}
    (htuple : tuple = encodeTexts
      (authTuple crypt garbage (decodeSalt crypt garbage base64Salt) pass (isGuest user ulen)))
    (hvalue : IsValue tuple) (hkind : kindOf tuple = some .array) :
    Sends (beerAuthRaw mp crypt garbage s user ulen pass plen base64Salt) s
      ⟨RequestType.auth.id.toNat, s.reqid.toNat,
        [(BodyKey.username.id.toNat, .text (user.getD guestName)),
          (BodyKey.tuple.id.toNat, .value tuple)]⟩ := by
  have hname : (user.getD guestName).length < 2 ^ 32 := by
    rw [← authName_eq huser]
    exact lt_trans (authName_length_lt user ulen) (by decide)
  have hlength := @authPayload_length_lt crypt garbage s.reqid user ulen pass plen base64Salt
  have hpayload := @authPayload_flatten crypt garbage s.reqid user ulen _ _ hpass base64Salt
  rw [authName_eq huser, ← htuple] at hpayload
  have hvalues : ∀ entry ∈ [textEntry .username (user.getD guestName), (.tuple, tuple)],
      IsValue entry.2 := by
    simpa using ⟨isValue_str hname, hvalue⟩
  have hhands : Hands (beerAuthRaw mp crypt garbage s user ulen pass plen base64Salt) s
      (encodeHeaderMap RequestType.auth.id.toNat s.reqid.toNat ++ (mapHeader 2 ++
        encodeEntries [textEntry .username (user.getD guestName), (.tuple, tuple)])) := by
    refine ⟨_, by rw [beerAuthRaw_eq hmp, authReads_ok huser hpass]; rfl, ?_⟩
    rw [← hpayload]
    exact ⟨hlength, List.flatten_cons⟩
  have hsends := sends_of_hands hhands rfl (by simp) hvalues
  rwa [List.map_cons, List.map_singleton, readEntry_textEntry _ hname, readEntry,
    Field.of_array hkind] at hsends

theorem beerAuthRaw_tuple (hmp : mp.Lawful) (garbage : Nat → UInt8) (s : Stream σ)
    {user : Option Bytes} {ulen : Int32} {pass : Bytes} {plen : Int32} (base64Salt : Bytes)
    (huser : ∀ name, user = some name → ulen.toInt = name.length)
    (hpass : plen.toInt = pass.length) :
    ∃ tuple, Sends (beerAuthRaw mp crypt garbage s user ulen pass plen base64Salt) s
        ⟨RequestType.auth.id.toNat, s.reqid.toNat,
          [(BodyKey.username.id.toNat, .text (user.getD guestName)),
            (BodyKey.tuple.id.toNat, .value tuple)]⟩ ∧
      textsOf tuple = some (authTuple crypt garbage (decodeSalt crypt garbage base64Salt) pass
        (isGuest user ulen)) := by
  have hsends := @beerAuthRaw_sends mp crypt σ hmp garbage s user ulen pass plen base64Salt
    huser hpass _ rfl
  generalize decodeSalt crypt garbage base64Salt = salt at hsends ⊢
  have hscramble : (endedBlock garbage (beerScramblePrepare crypt salt pass)).length =
      beerScrambleSize := by
    rw [endedBlock_length, beerScramblePrepare_length]
  have hcount : (authTuple crypt garbage salt pass (isGuest user ulen)).length < 2 ^ 32 := by
    cases isGuest user ulen <;> simp [authTuple]
  have htexts : ∀ text ∈ authTuple crypt garbage salt pass (isGuest user ulen),
      text.length < 2 ^ 32 := by
    cases isGuest user ulen with
    | true => simp [authTuple]
    | false => simp [authTuple, hscramble, chapSha1, beerScrambleSize]
  obtain ⟨hvalue, hkind, hread⟩ := textsOf_encodeTexts hcount htexts
  exact ⟨_, hsends hvalue hkind, hread⟩

theorem Sends.unique {run : Except Fault (Ssize × Stream σ)} {s : Stream σ}
    {package package' : Package} (h : Sends run s package) (h' : Sends run s package') :
    package = package' := by
  obtain ⟨payload, hhands, hdecode⟩ := h
  obtain ⟨payload', hhands', hdecode'⟩ := h'
  rw [hhands.unique hhands', hdecode'] at hdecode
  exact (Option.some.inj hdecode).symm

variable (mp crypt) in
/-- The request is one frame that asks to log the user in; it has a proof that a server accepts which
keeps only the hash of the hash of the password, or, for a guest, none. -/
def AsksToLogIn (garbage : Nat → UInt8) (s : Stream σ) (user : Option Bytes) (ulen : Int32)
    (pass : Bytes) (plen : Int32) (base64Salt : Bytes) : Prop :=
  ∃ package, Sends (beerAuthRaw mp crypt garbage s user ulen pass plen base64Salt) s package ∧
    LogsIn crypt (decodeSalt crypt garbage base64Salt) s.reqid user pass package

theorem asksToLogIn_iff (hmp : mp.Lawful) (garbage : Nat → UInt8) (s : Stream σ)
    {user : Option Bytes} {ulen : Int32} {pass : Bytes} {plen : Int32} (base64Salt : Bytes)
    (huser : ∀ name, user = some name → ulen.toInt = name.length)
    (hpass : plen.toInt = pass.length) :
    AsksToLogIn mp crypt garbage s user ulen pass plen base64Salt ↔
      (¬IsGuestName user → ServerAccepts crypt (decodeSalt crypt garbage base64Salt)
        (crypt.sha1 (crypt.sha1 pass)) (endedBlock garbage (beerScramblePrepare crypt
          (decodeSalt crypt garbage base64Salt) pass))) := by
  have hguest := isGuest_eq_true_iff huser
  obtain ⟨tuple, hsends, htexts⟩ := @beerAuthRaw_tuple mp crypt σ hmp garbage s user ulen pass plen
    base64Salt huser hpass
  constructor
  · rintro ⟨package, hpackage, -, -, tuple', hbody, -, hproof⟩ hnot
    rw [← hsends.unique hpackage] at hbody
    simp only [List.cons.injEq, Prod.mk.injEq, true_and, and_true, Field.value.injEq] at hbody
    subst hbody
    obtain ⟨proof, hproof, haccepts⟩ := hproof hnot
    rw [htexts, Bool.eq_false_iff.mpr (mt hguest.mp hnot), authTuple] at hproof
    cases hproof
    exact haccepts
  · intro haccepts
    refine ⟨_, hsends, rfl, rfl, tuple, rfl, fun h => ?_, fun h => ?_⟩
    · rw [htexts, hguest.mpr h, authTuple]
    · rw [htexts, Bool.eq_false_iff.mpr (mt hguest.mp h), authTuple]
      exact ⟨_, rfl, haccepts h⟩

/-- Memory in which the array of the scramble has the given bytes when its block has ended. -/
def leftBehind (bytes : Bytes) (i : Nat) : UInt8 := if i < 64 then 0 else bytes.getD (i - 64) 0

theorem endedBlock_leftBehind {bytes scramble : Bytes} (h : bytes.length = scramble.length) :
    endedBlock (leftBehind bytes) scramble = bytes := by
  apply List.ext_getElem
  · rw [endedBlock_length, h]
  · intro i hi hi'
    simp [endedBlock, leftBehind, hi']

theorem decodeSalt_leftBehind (bytes base64Salt : Bytes) :
    decodeSalt crypt (leftBehind bytes) base64Salt = decodeSalt crypt (fun _ => 0) base64Salt := by
  have hsame : (List.range 64).map (leftBehind bytes) = (List.range 64).map fun _ => 0 :=
    List.map_congr_left fun i hi => if_pos (List.mem_range.mp hi)
  rw [decodeSalt, decodeSalt, hsame]

/-- A server accepts any bytes where the proof has been exactly if the hash function does not tell
one text of their length from another. -/
theorem serverAccepts_any_iff (base64Salt pass : Bytes) :
    (∀ garbage, ServerAccepts crypt (decodeSalt crypt garbage base64Salt)
        (crypt.sha1 (crypt.sha1 pass)) (endedBlock garbage (beerScramblePrepare crypt
          (decodeSalt crypt garbage base64Salt) pass))) ↔
      ∀ text, text.length = beerScrambleSize →
        crypt.sha1 text = crypt.sha1 (crypt.sha1 pass) := by
  constructor
  · intro haccepts text htext
    let salt := decodeSalt crypt (fun _ => 0) base64Salt
    let mixed := crypt.sha1 (salt.take beerScrambleSize ++ crypt.sha1 (crypt.sha1 pass))
    have hmixed : mixed.length = beerScrambleSize := crypt.sha1_length _
    have hlength : (beerXor text mixed).length = (beerScramblePrepare crypt salt pass).length := by
      rw [beerXor_length, htext, hmixed, Nat.min_self, beerScramblePrepare_length]
    have hfound := (haccepts (leftBehind (beerXor text mixed))).2
    rw [decodeSalt_leftBehind, endedBlock_leftBehind hlength,
      beerXor_beerXor (htext.trans hmixed.symm)] at hfound
    exact hfound
  · intro hsame garbage
    refine ⟨by rw [endedBlock_length, beerScramblePrepare_length], hsame _ ?_⟩
    rw [beerXor_length, endedBlock_length, beerScramblePrepare_length, crypt.sha1_length,
      Nat.min_self]

/-- Whatever is found where the proof has been, the request logs its user in exactly if this is a
guest, or the hash function does not tell one text of the length of a hash from another. -/
theorem beerAuthRaw_logsIn_iff (hmp : mp.Lawful) (s : Stream σ) {user : Option Bytes}
    {ulen : Int32} {pass : Bytes} {plen : Int32} (base64Salt : Bytes)
    (huser : ∀ name, user = some name → ulen.toInt = name.length)
    (hpass : plen.toInt = pass.length) :
    (∀ garbage, AsksToLogIn mp crypt garbage s user ulen pass plen base64Salt) ↔
      (IsGuestName user ∨ ∀ text, text.length = beerScrambleSize →
        crypt.sha1 text = crypt.sha1 (crypt.sha1 pass)) := by
  rw [← serverAccepts_any_iff base64Salt]
  constructor
  · intro hasks
    by_cases hguest : IsGuestName user
    · exact .inl hguest
    · exact .inr fun garbage =>
        (asksToLogIn_iff hmp garbage s base64Salt huser hpass).mp (hasks garbage) hguest
  · intro h garbage
    refine (asksToLogIn_iff hmp garbage s base64Salt huser hpass).mpr fun hnot => ?_
    exact (h.resolve_left hnot) garbage

theorem beerAuthRaw_logsIn_iff_guest :
    (∀ garbage, AsksToLogIn .reference builtCrypt garbage (collecting 7) (some guestName) 5 [0x62] 1
      (List.replicate beerSaltSize 0x41)) ∧
    ∀ garbage, AsksToLogIn .reference builtCrypt garbage (collecting 7) none 0 [0x62] 1
      (List.replicate beerSaltSize 0x41) := by
  have huser : ∀ name : Bytes, some guestName = some name → (5 : Int32).toInt = name.length := by
    intro name h
    cases h
    rfl
  have hnone : ∀ name : Bytes, none = some name → (0 : Int32).toInt = name.length :=
    fun _ h => nomatch h
  constructor
  · exact (beerAuthRaw_logsIn_iff Msgpuck.reference_lawful (collecting 7)
      (List.replicate beerSaltSize 0x41) huser rfl).mpr (.inl (.inr rfl))
  · exact (beerAuthRaw_logsIn_iff Msgpuck.reference_lawful (collecting 7)
      (List.replicate beerSaltSize 0x41) hnone rfl).mpr (.inl (.inl rfl))

/-- A hash as the code computes it. -/
def runHash (data : Bytes) : Bytes := (sha1Run (fun _ => 0) [data]).getD []

theorem sha1_eq_runHash {data : Bytes} (h : data.length ≤ 40) :
    builtCrypt.sha1 data = runHash data := by
  rw [runHash, sha1Run_eq _ _ (List.forall_mem_singleton.mpr (by omega)), List.flatten_singleton]
  rfl

theorem runHash_length {data : Bytes} (h : data.length ≤ 40) :
    (runHash data).length = beerScrambleSize := by
  rw [← sha1_eq_runHash h, builtCrypt.sha1_length]

/-- The password is "b", and the bytes of the salt are zero. Zeros where the proof has been are no
proof. -/
theorem not_beerAuthRaw_logsIn :
    ¬AsksToLogIn .reference builtCrypt (fun _ => 0) (collecting 7) (some [0x61]) 1 [0x62] 1
      (List.replicate beerSaltSize 0x41) := by
  intro hasks
  have huser : ∀ name : Bytes, some [0x61] = some name → (1 : Int32).toInt = name.length := by
    intro name h
    cases h
    rfl
  have hnot : ¬IsGuestName (some [0x61]) := by
    unfold IsGuestName
    decide
  have hfound : ∀ scramble : Bytes, scramble.length = beerScrambleSize →
      endedBlock (fun _ => 0) scramble = List.replicate 20 0 := by
    intro scramble h
    rw [endedBlock, h]
    rfl
  have hsalt : (decodeSalt builtCrypt (fun _ => 0) (List.replicate beerSaltSize 0x41)).take
      beerScrambleSize = List.replicate 20 0 := by decide +kernel
  obtain ⟨-, hhash⟩ := (asksToLogIn_iff Msgpuck.reference_lawful _ _ _ huser rfl).mp hasks hnot
  have hone : ([0x62] : Bytes).length ≤ 40 := by decide
  have htwo : (runHash [0x62]).length ≤ 40 := by
    rw [runHash_length hone]
    decide
  have hmixed : (List.replicate 20 0 ++ runHash (runHash [0x62])).length ≤ 40 := by
    rw [List.length_append, runHash_length htwo]
    decide
  rw [hfound _ (beerScramblePrepare_length _ _), hsalt, sha1_eq_runHash hone,
    sha1_eq_runHash htwo, sha1_eq_runHash hmixed, sha1_eq_runHash (by
      rw [beerXor_length, runHash_length hmixed]
      decide)] at hhash
  exact absurd hhash (by decide +kernel)

end BeeC
