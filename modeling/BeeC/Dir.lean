import Mathlib.Data.List.Sort
import BeeC.Wire.Loop
import BeeC.Msgpuck

/-!
The directory of the logs and snapshots of a server, and the choice of the file to read from
(`beer_dir.c`). Allocations and the reading of the directory succeed.
-/

namespace BeeC

open BeeC.Wire.MessagePack
open BeeC.Wire.Loop

/-- `enum beer_dir_type`. -/
inductive DirType where
  | xlog | snapshot
  deriving DecidableEq, Repr

/-- The extension that a file of the type has, `.xlog` or `.snap`. -/
def DirType.extension : DirType → Bytes
  | xlog => [0x2e, 0x78, 0x6c, 0x6f, 0x67]
  | snapshot => [0x2e, 0x73, 0x6e, 0x61, 0x70]

/-- `struct beer_dir_file`. -/
structure DirFile where
  lsn : UInt64
  name : Bytes
  deriving DecidableEq, Repr

/-- `struct beer_dir`, without its path. -/
structure Dir where
  type : DirType := .xlog
  files : List DirFile
  deriving DecidableEq, Repr

namespace Dir

def count (d : Dir) : Nat := d.files.length

/-- `d->files[i].lsn`. -/
def lsnAt (d : Dir) (i : Nat) : Except Stop UInt64 :=
  match d.files[i]? with
  | some file => .ok file.lsn
  | none => .error (.fault .outOfBounds)

end Dir

def isSpace (c : UInt8) : Bool := c = 0x20 || (0x09 ≤ c && c ≤ 0x0d)

def isDigit (c : UInt8) : Bool := 0x30 ≤ c && c ≤ 0x39

/-- The number that the digits at the front spell. -/
def leadingNumber (s : Bytes) : Nat :=
  (s.takeWhile isDigit).foldl (fun value c => value * 10 + (c.toNat - 0x30)) 0

/-- `strtoll` in base ten. -/
def strtoll (s : Bytes) : Int :=
  let s := s.dropWhile isSpace
  if s.head? = some 0x2d then max (-(leadingNumber s.tail : Int)) (-2 ^ 63)
  else if s.head? = some 0x2b then min (leadingNumber s.tail : Int) (2 ^ 63 - 1)
  else min (leadingNumber s : Int) (2 ^ 63 - 1)

/-- One turn of the loop of `beer_dir_scan`. -/
def beerDirAccept (type : DirType) (name : Bytes) : Option DirFile :=
  let ext := name.dropWhile (· ≠ 0x2e)
  let lsn := strtoll name
  if ext = [] then none
  else if ext ≠ type.extension then none
  else if lsn = 2 ^ 63 - 1 ∨ lsn = -2 ^ 63 then none
  else some { lsn := UInt64.ofInt lsn, name }

def beerDirCmp (a b : DirFile) : Int :=
  if a.lsn = b.lsn then 0 else if a.lsn > b.lsn then 1 else -1

/-- `beer_dir_scan`, for the names that are in the directory. -/
def beerDirScan (type : DirType) (names : List Bytes) : Dir where
  type := type
  files := (names.filterMap (beerDirAccept type)).mergeSort fun a b => beerDirCmp a b ≤ 0

def beerDirMatchGt (d : Dir) : Except Stop UInt64 :=
  if d.count = 0 then .error .fail else d.lsnAt (d.count - 1)

/-- The condition in the loop of `beer_dir_match_inc`. -/
def beerDirBetween (d : Dir) (lsn : UInt64) (current : Nat) : Except Stop Bool := do
  if (← d.lsnAt current) ≤ lsn then
    return decide (lsn ≤ (← d.lsnAt (current + 1)))
  else
    return false

/-- The loop of `beer_dir_match_inc` and what follows it. -/
def beerDirMatchLoop (d : Dir) (lsn : UInt64) : (count current : Nat) → Except Stop UInt64
  | count + 2, current => do
      if ← beerDirBetween d lsn current then d.lsnAt current
      else beerDirMatchLoop d lsn (count + 1) (current + 1)
  | _, current => d.lsnAt current

def beerDirMatchInc (d : Dir) (lsn : UInt64) : Except Stop UInt64 :=
  if d.count = 0 then .error .fail else beerDirMatchLoop d lsn d.count 0

theorem beerDirCmp_nonpos (a b : DirFile) : beerDirCmp a b ≤ 0 ↔ a.lsn ≤ b.lsn := by
  unfold beerDirCmp
  split
  · next heq => simp [heq]
  · split
    · next hlt => simpa using hlt
    · next hle => simpa using hle

theorem beerDirScan_sorted (type : DirType) (names : List Bytes) :
    (beerDirScan type names).files.Pairwise fun a b => a.lsn ≤ b.lsn := by
  have hsort := @List.pairwise_mergeSort _ (fun a b => decide (beerDirCmp a b ≤ 0))
    (fun a b c hab hbc => by
      simp only [decide_eq_true_eq, beerDirCmp_nonpos] at hab hbc ⊢
      exact UInt64.le_trans hab hbc)
    (fun a b => by
      simp only [Bool.or_eq_true, decide_eq_true_eq, beerDirCmp_nonpos]
      exact UInt64.le_total _ _)
    (names.filterMap (beerDirAccept type))
  exact hsort.imp fun h => (beerDirCmp_nonpos _ _).mp (of_decide_eq_true h)

theorem mem_beerDirScan {type : DirType} {names : List Bytes} {file : DirFile} :
    file ∈ (beerDirScan type names).files ↔
      ∃ name ∈ names, beerDirAccept type name = some file := by
  simp [beerDirScan]

namespace Dir

variable {d : Dir}

/-- The listing from an index on: the file there and the files behind it. -/
def From (d : Dir) (current : Nat) (file : DirFile) (behind : List DirFile) : Prop :=
  d.files.drop current = file :: behind

theorem From.lsnAt {current : Nat} {file : DirFile} {behind : List DirFile}
    (h : d.From current file behind) : d.lsnAt current = .ok file.lsn := by
  have hfile : d.files[current]? = some file := by
    rw [← List.head?_drop, h, List.head?_cons]
  rw [Dir.lsnAt, hfile]

theorem From.next {current : Nat} {file next : DirFile} {behind : List DirFile}
    (h : d.From current file (next :: behind)) : d.From (current + 1) next behind := by
  unfold From at h ⊢
  rw [← List.drop_drop, h]
  rfl

theorem From.between {current : Nat} {file next : DirFile} {behind : List DirFile}
    (h : d.From current file (next :: behind)) (lsn : UInt64) :
    beerDirBetween d lsn current = .ok (decide (file.lsn ≤ lsn ∧ lsn ≤ next.lsn)) := by
  unfold beerDirBetween
  rw [h.lsnAt, h.next.lsnAt]
  by_cases hle : file.lsn ≤ lsn <;> simp [hle]

theorem From.loop_last {lsn : UInt64} {behind : List DirFile} :
    ∀ {current : Nat} {file : DirFile}, d.From current file behind →
      (∀ f ∈ file :: behind, lsn < f.lsn) →
      beerDirMatchLoop d lsn (behind.length + 1) current =
        .ok ((file :: behind).getLast (List.cons_ne_nil _ _)).lsn := by
  induction behind with
  | nil =>
      intro current file h _
      exact h.lsnAt
  | cons next behind ih =>
      intro current file h hafter
      have hfile : ¬file.lsn ≤ lsn := UInt64.not_le.mpr (hafter file List.mem_cons_self)
      have hrest := ih h.next fun f hf => hafter f (List.mem_cons_of_mem _ hf)
      rw [List.length_cons, beerDirMatchLoop, h.between, ok_bind,
        if_neg (by simp [hfile])]
      exact hrest

theorem From.loop_covers {lsn : UInt64} {behind : List DirFile} :
    ∀ {current : Nat} {file : DirFile}, d.From current file behind →
      (file :: behind).Pairwise (fun f g => f.lsn < g.lsn) → file.lsn ≤ lsn →
      ∃ start ∈ file :: behind,
        beerDirMatchLoop d lsn (behind.length + 1) current = .ok start.lsn ∧ start.lsn ≤ lsn ∧
        ∀ f ∈ file :: behind, ¬(start.lsn < f.lsn ∧ f.lsn < lsn) := by
  induction behind with
  | nil =>
      intro current file h _ hfile
      refine ⟨file, List.mem_cons_self, h.lsnAt, hfile, ?_⟩
      intro f hf
      rw [List.mem_singleton.mp hf]
      exact fun hlt => UInt64.lt_irrefl _ hlt.1
  | cons next behind ih =>
      intro current file h hsorted hfile
      obtain ⟨hahead, hbehind⟩ := List.pairwise_cons.mp hsorted
      rw [List.length_cons, beerDirMatchLoop, h.between, ok_bind]
      by_cases hnext : lsn ≤ next.lsn
      · rw [if_pos (by simp [hfile, hnext]), h.lsnAt]
        refine ⟨file, List.mem_cons_self, rfl, hfile, ?_⟩
        intro f hf hlt
        -- a file behind this one is the next one or starts after it
        have hge : next.lsn ≤ f.lsn := by
          rcases List.mem_cons.mp hf with rfl | hf
          · exact absurd hlt.1 (UInt64.lt_irrefl _)
          · rcases List.mem_cons.mp hf with rfl | hf
            · exact UInt64.le_rfl
            · exact UInt64.le_of_lt ((List.pairwise_cons.mp hbehind).1 f hf)
        exact absurd (UInt64.le_trans hnext hge) (UInt64.not_le.mpr hlt.2)
      · rw [if_neg (by simp [hnext])]
        obtain ⟨start, hmem, hloop, hle, hgap⟩ := ih h.next hbehind
          (UInt64.le_of_lt (UInt64.not_le.mp hnext))
        refine ⟨start, List.mem_cons_of_mem _ hmem, hloop, hle, ?_⟩
        intro f hf
        rcases List.mem_cons.mp hf with rfl | hf
        · exact fun hlt => UInt64.lt_asymm hlt.1 (hahead start hmem)
        · exact hgap f hf

end Dir

theorem beerDirMatchGt_greatest {d : Dir} {newest : UInt64}
    (hsorted : d.files.Pairwise fun f g => f.lsn < g.lsn)
    (h : beerDirMatchGt d = .ok newest) : ∀ file ∈ d.files, file.lsn ≤ newest := by
  intro file hfile
  have hne := List.ne_nil_of_mem hfile
  have hlast : d.lsnAt (d.count - 1) = .ok (d.files.getLast hne).lsn := by
    rw [Dir.lsnAt, Dir.count, ← List.getLast?_eq_getElem?, List.getLast?_eq_some_getLast hne]
  have hcount : d.count ≠ 0 := mt List.length_eq_zero_iff.mp hne
  rw [beerDirMatchGt, if_neg hcount, hlast] at h
  cases h
  obtain ⟨i, hi, rfl⟩ := List.getElem_of_mem hfile
  rw [List.getLast_eq_getElem]
  rcases Nat.lt_or_ge i (d.files.length - 1) with hbefore | hlast
  · exact UInt64.le_of_lt (List.pairwise_iff_getElem.mp hsorted _ _ hi (by omega) hbefore)
  · have heq : i = d.files.length - 1 := by omega
    subst heq
    exact UInt64.le_rfl

/-- Reading on from the file with the number `start` skips no record from `lsn` on, or starts as
early as the files do. -/
structure Dir.Covers (d : Dir) (lsn start : UInt64) : Prop where
  listed : ∃ file ∈ d.files, file.lsn = start
  below : (∃ file ∈ d.files, file.lsn ≤ lsn) →
    start ≤ lsn ∧ ∀ file ∈ d.files, ¬(start < file.lsn ∧ file.lsn < lsn)
  first : (∀ file ∈ d.files, lsn < file.lsn) → d.files.head?.map DirFile.lsn = some start

theorem beerDirMatchInc_cons {d : Dir} {file : DirFile} {behind : List DirFile} (lsn : UInt64)
    (h : d.files = file :: behind) :
    beerDirMatchInc d lsn = beerDirMatchLoop d lsn (behind.length + 1) 0 := by
  have hcount : d.count = behind.length + 1 := by rw [Dir.count, h, List.length_cons]
  rw [beerDirMatchInc, hcount, if_neg (Nat.succ_ne_zero _)]

theorem beerDirMatchInc_covers_of_le {d : Dir} {lsn : UInt64}
    (hsorted : d.files.Pairwise fun f g => f.lsn < g.lsn)
    (hsome : ∃ file ∈ d.files, file.lsn ≤ lsn) :
    ∃ start, beerDirMatchInc d lsn = .ok start ∧ d.Covers lsn start := by
  obtain ⟨f, hf, hle⟩ := hsome
  obtain ⟨file, behind, hcons⟩ := List.exists_cons_of_ne_nil (List.ne_nil_of_mem hf)
  have hfrom : d.From 0 file behind := hcons
  have hfile : file.lsn ≤ lsn := by
    rw [hcons] at hf hsorted
    rcases List.mem_cons.mp hf with rfl | hbehind
    · exact hle
    · exact UInt64.le_trans
        (UInt64.le_of_lt ((List.pairwise_cons.mp hsorted).1 f hbehind)) hle
  obtain ⟨start, hmem, hloop, hstart, hgap⟩ := hfrom.loop_covers (hcons ▸ hsorted) hfile
  refine ⟨start.lsn, ?_, ⟨start, hcons ▸ hmem, rfl⟩, fun _ => ⟨hstart, hcons ▸ hgap⟩, ?_⟩
  · rw [beerDirMatchInc_cons lsn hcons]
    exact hloop
  · intro hafter
    exact absurd hle (UInt64.not_le.mpr (hafter f hf))

theorem beerDirMatchInc_last {d : Dir} {lsn : UInt64} (hfiles : d.files ≠ [])
    (hafter : ∀ file ∈ d.files, lsn < file.lsn) :
    beerDirMatchInc d lsn = .ok (d.files.getLast hfiles).lsn := by
  obtain ⟨file, behind, hcons⟩ := List.exists_cons_of_ne_nil hfiles
  have hfrom : d.From 0 file behind := hcons
  rw [beerDirMatchInc_cons lsn hcons, hfrom.loop_last (hcons ▸ hafter)]
  simp only [hcons]

theorem Dir.head_eq_getLast_iff {d : Dir} (hfiles : d.files ≠ [])
    (hsorted : d.files.Pairwise fun f g => f.lsn < g.lsn) :
    d.files.head?.map DirFile.lsn = some (d.files.getLast hfiles).lsn ↔ d.count = 1 := by
  obtain ⟨type, files⟩ := d
  cases files with
  | nil => exact absurd rfl hfiles
  | cons file behind =>
      cases behind with
      | nil => simp [Dir.count]
      | cons next behind =>
          have hlast := (List.pairwise_cons.mp hsorted).1 _
            (List.getLast_mem (List.cons_ne_nil next behind))
          have hne : file.lsn ≠ ((next :: behind).getLast (List.cons_ne_nil _ _)).lsn :=
            fun heq => UInt64.lt_irrefl _ (heq ▸ hlast)
          simpa [Dir.count] using hne

/-- The file that is chosen covers the number exactly where some file does not start after it, or
where there is no other file. -/
theorem beerDirMatchInc_covers_iff (d : Dir) (lsn : UInt64) (hfiles : d.files ≠ [])
    (hsorted : d.files.Pairwise fun f g => f.lsn < g.lsn) :
    (∃ start, beerDirMatchInc d lsn = .ok start ∧ d.Covers lsn start) ↔
      (∃ file ∈ d.files, file.lsn ≤ lsn) ∨ d.count = 1 := by
  by_cases hsome : ∃ file ∈ d.files, file.lsn ≤ lsn
  · exact ⟨fun _ => .inl hsome, fun _ => beerDirMatchInc_covers_of_le hsorted hsome⟩
  · have hafter : ∀ file ∈ d.files, lsn < file.lsn := by
      intro file hfile
      exact UInt64.not_le.mp fun hle => hsome ⟨file, hfile, hle⟩
    rw [beerDirMatchInc_last hfiles hafter, or_iff_right hsome,
      ← Dir.head_eq_getLast_iff hfiles hsorted]
    constructor
    · rintro ⟨start, hstart, hcovers⟩
      cases hstart
      exact hcovers.first hafter
    · intro hfirst
      exact ⟨_, rfl, ⟨_, List.getLast_mem hfiles, rfl⟩, fun h => absurd h hsome, fun _ => hfirst⟩

theorem beerDirMatchInc_covers_between :
    ∃ start, beerDirMatchInc { files := [⟨10, []⟩, ⟨20, []⟩] } 15 = .ok start ∧
      Dir.Covers { files := [⟨10, []⟩, ⟨20, []⟩] } 15 start :=
  (beerDirMatchInc_covers_iff _ 15 (by decide) (by decide)).mpr (by decide)

/-- A number before the first file, where the last file is chosen. -/
theorem beerDirMatchInc_skips :
    beerDirMatchInc { files := [⟨10, []⟩, ⟨20, []⟩] } 5 = .ok 20 ∧
      ¬∃ start, beerDirMatchInc { files := [⟨10, []⟩, ⟨20, []⟩] } 5 = .ok start ∧
        Dir.Covers { files := [⟨10, []⟩, ⟨20, []⟩] } 5 start := by
  refine ⟨rfl, ?_⟩
  rintro ⟨start, hstart, hcovers⟩
  cases hstart
  exact absurd (hcovers.first (by decide)) (by decide)

theorem beerDirScan_match (type : DirType) (names : List Bytes) (lsn : UInt64)
    (hdistinct : (beerDirScan type names).files.Pairwise fun f g => f.lsn ≠ g.lsn)
    (hbelow : ∃ name ∈ names, ∃ file, beerDirAccept type name = some file ∧ file.lsn ≤ lsn) :
    ∃ start, beerDirMatchInc (beerDirScan type names) lsn = .ok start ∧
      (beerDirScan type names).Covers lsn start := by
  obtain ⟨name, hname, file, haccept, hle⟩ := hbelow
  have hmem : file ∈ (beerDirScan type names).files := mem_beerDirScan.mpr ⟨name, hname, haccept⟩
  have hsorted : (beerDirScan type names).files.Pairwise fun f g => f.lsn < g.lsn :=
    (beerDirScan_sorted type names).imp₂ (fun _ _ => UInt64.lt_of_le_of_ne) hdistinct
  exact beerDirMatchInc_covers_of_le hsorted ⟨file, hmem, hle⟩

end BeeC
