import Mathlib.Tactic.Ring
import BeeC.Io
import BeeC.Wire.Loop

/-!
Opening a connection with a timeout (`beer_io_connect_do` and `beer_io_nonblock` of `beer_io.c`).
What the system answers to the calls is given; the timeouts that `select` is called with are
recorded.
-/

namespace BeeC

open BeeC.Wire.Loop

/-- `struct timeval`. -/
structure Timeval where
  tvSec : Int64
  tvUsec : Int64
  deriving DecidableEq, Repr

/-- A time in microseconds. -/
def Timeval.micros (t : Timeval) : Int := t.tvSec.toInt * 1000000 + t.tvUsec.toInt

def eintr : Int32 := 4

def eagain : Int32 := 11

def einprogress : Int32 := 115

/-- `O_NONBLOCK`, among the flags of a file. -/
def oNonblock : UInt32 := 0x800

/-- The result of `select`: `-1` with a number of an error, zero, or more. -/
inductive SelectResult where
  | error (errno : Int32)
  | timeout
  | event
  deriving DecidableEq, Repr

/-- The result of a call of `select`, and what `gettimeofday` answers afterwards. -/
structure SelectAnswer where
  result : SelectResult
  curr : Except Int32 Timeval

/-- The answers to the calls of `beer_io_connect_do`, in their order. A call that fails does so with
the number of an error. -/
structure ConnectAnswers where
  getfl : Option Int32 := none
  setfl : Option Int32 := none
  connect : Option Int32
  start : Except Int32 Timeval
  selects : List SelectAnswer
  soError : Except Int32 Int32 := .ok 0
  getfl' : Option Int32 := none
  setfl' : Option Int32 := none

/-- The socket of a stream with the flags of its file, the number of the last error, and
`opt.tmout_connect`. -/
structure ConnectStream where
  tmoutConnect : Timeval
  flags : UInt32 := 0
  errno : Int32 := 0

/-- `beer_io_nonblock`, when `F_GETFL` and `F_SETFL` are answered so. -/
def beerIoNonblock (getfl setfl : Option Int32) (s : ConnectStream) (set : Bool) :
    BeerError × ConnectStream :=
  match getfl with
  | some errno => (.esystem, { s with errno })
  | none =>
      let flags := if set then s.flags ||| oNonblock else s.flags &&& ~~~oNonblock
      match setfl with
      | some errno => (.esystem, { s with errno })
      | none => (.eok, { s with flags })

/-- The numbers of an `int64_t`. -/
def FitsInt64 (z : Int) : Prop := -2 ^ 63 ≤ z ∧ z < 2 ^ 63

instance (z : Int) : Decidable (FitsInt64 z) := inferInstanceAs (Decidable (_ ∧ _))

/-- The result of an operation on numbers of that type. -/
def int64 (z : Int) : Except Fault Int := if FitsInt64 z then .ok z else .error .overflow

/-- `passd_usec - tmout_usec`. -/
def currTmeout (start : Timeval) (tmoutUsec : Int) (curr : Timeval) : Except Fault Int := do
  let sec ← int64 (curr.tvSec.toInt - start.tvSec.toInt)
  let passdSec ← int64 (sec * 1000000)
  let passdUsec ← int64 (curr.tvUsec.toInt - start.tvUsec.toInt)
  let passd ← int64 (passdSec + passdUsec)
  int64 (passd - tmoutUsec)

/-- How the loop of `beer_io_connect_do` is left; it may still wait for an answer. -/
inductive Awaited where
  | waiting
  | failed (errno : Int32)
  | timedOut
  | event
  deriving DecidableEq, Repr

/-- The loop of `beer_io_connect_do`, with the timeouts that `select` is called with. -/
def awaitConnect (start : Timeval) (tmoutUsec : Int) :
    (tmout : Timeval) → List SelectAnswer → Except Fault (Awaited × List Timeval)
  | tmout, [] => .ok (.waiting, [tmout])
  | tmout, answer :: answers =>
      match answer.result with
      | .error errno =>
          if errno = eintr ∨ errno = eagain then
            match answer.curr with
            | .error errno => .ok (.failed errno, [tmout])
            | .ok curr => do
                let tmeout ← currTmeout start tmoutUsec curr
                if tmeout ≤ 0 then return (.timedOut, [tmout])
                let (awaited, given) ← awaitConnect start tmoutUsec
                  ⟨Int64.ofInt (tmeout / 1000000), Int64.ofInt (tmeout % 1000000)⟩ answers
                return (awaited, tmout :: given)
          else .ok (.failed errno, [tmout])
      | .timeout => .ok (.timedOut, [tmout])
      | .event => .ok (.event, [tmout])

/-- A run of `beer_io_connect_do`. It has no result while it waits for an answer. -/
structure ConnectRun where
  result : Option BeerError
  stream : ConnectStream
  given : List Timeval := []

/-- How `beer_io_connect_do` goes on once the loop is left: an exit of the loop, or the status of the
socket, and back to blocking. -/
def afterWait (a : ConnectAnswers) (s : ConnectStream) (given : List Timeval) :
    Awaited → ConnectRun
  | .waiting => { result := none, stream := s, given }
  | .failed errno => { result := some .esystem, stream := { s with errno }, given }
  | .timedOut => { result := some .etmout, stream := s, given }
  | .event =>
      match a.soError with
      | .error errno => { result := some .esystem, stream := { s with errno }, given }
      | .ok opt =>
          if opt ≠ 0 then { result := some .esystem, stream := { s with errno := opt }, given }
          else
            let (result, s) := beerIoNonblock a.getfl' a.setfl' s false
            { result, stream := s, given }

/-- `beer_io_connect_do`. -/
def beerIoConnectDo (a : ConnectAnswers) (s : ConnectStream) : Except Fault ConnectRun := do
  let (result, s) := beerIoNonblock a.getfl a.setfl s true
  if result ≠ .eok then return { result, stream := s }
  match a.connect with
  | none => return { result := some .eok, stream := s }
  | some errno =>
      if errno = einprogress then
        let tmoutUsec ← int64 (s.tmoutConnect.tvSec.toInt * 1000000)
        match a.start with
        | .error errno => return { result := some .esystem, stream := { s with errno } }
        | .ok start =>
            let (awaited, given) ← awaitConnect start tmoutUsec s.tmoutConnect a.selects
            return afterWait a s given awaited
      else return { result := some .esystem, stream := { s with errno } }

/-- The time that had passed when `select` returned with an answer. -/
def SelectAnswer.Passed (answer : SelectAnswer) (start : Timeval) (passed : Int) : Prop :=
  ∃ curr, answer.curr = .ok curr ∧ passed = curr.micros - start.micros

/-- The timeout counts from the start on: it is over only if the last call of `select` has said so
or so much time had passed by then, and each call that resumes the waiting is given what is left
of it, which is something. -/
structure TimeoutKept (tmout start : Timeval) (answers : List SelectAnswer) (awaited : Awaited)
    (given : List Timeval) : Prop where
  timedOut : awaited = .timedOut → ∃ last, answers[given.length - 1]? = some last ∧
    (last.result = .timeout ∨ ∃ passed, last.Passed start passed ∧ tmout.micros ≤ passed)
  resumed : ∀ i left, given[i + 1]? = some left → ∃ last passed, answers[i]? = some last ∧
    last.Passed start passed ∧ left.micros = tmout.micros - passed ∧ 0 < left.micros

/-- Nothing overflows when the clock is read. -/
def ClockFits (tmout start curr : Timeval) : Prop :=
  FitsInt64 (curr.tvSec.toInt - start.tvSec.toInt) ∧
    FitsInt64 ((curr.tvSec.toInt - start.tvSec.toInt) * 1000000) ∧
    FitsInt64 (curr.tvUsec.toInt - start.tvUsec.toInt) ∧
    FitsInt64 (curr.micros - start.micros) ∧
    FitsInt64 (curr.micros - start.micros - tmout.tvSec.toInt * 1000000)

/-- The interruptions come when the seconds of the timeout have passed, if it has no microseconds,
or when half of its microseconds have passed as well. -/
def Harmless (tmout start : Timeval) : List SelectAnswer → Prop
  | ⟨.error errno, .ok curr⟩ :: answers =>
      errno = eintr ∨ errno = eagain → ClockFits tmout start curr ∧
        (curr.micros - start.micros ≤ tmout.tvSec.toInt * 1000000 ∧
            tmout.micros ≤ curr.micros - start.micros ∨
          tmout.tvSec.toInt * 1000000 < curr.micros - start.micros ∧
            2 * (curr.micros - start.micros) = tmout.tvSec.toInt * 1000000 + tmout.micros ∧
            Harmless tmout start answers)
  | _ => True

theorem int64_eq_ok {z out : Int} : int64 z = .ok out ↔ FitsInt64 z ∧ z = out := by
  unfold int64
  split <;> simp_all

theorem currTmeout_eq_ok {tmout start curr : Timeval} {tmeout : Int} :
    currTmeout start (tmout.tvSec.toInt * 1000000) curr = .ok tmeout ↔
      ClockFits tmout start curr ∧
        curr.micros - start.micros - tmout.tvSec.toInt * 1000000 = tmeout := by
  have hpassed : (curr.tvSec.toInt - start.tvSec.toInt) * 1000000 +
      (curr.tvUsec.toInt - start.tvUsec.toInt) = curr.micros - start.micros := by
    unfold Timeval.micros
    ring
  simp only [currTmeout, bind_eq_ok, int64_eq_ok, ClockFits]
  constructor
  · rintro ⟨_, ⟨hsec, rfl⟩, _, ⟨hpassdSec, rfl⟩, _, ⟨husec, rfl⟩, _, ⟨hpassd, rfl⟩, hleft, rfl⟩
    rw [hpassed] at *
    exact ⟨⟨hsec, hpassdSec, husec, hpassd, hleft⟩, rfl⟩
  · rintro ⟨⟨hsec, hpassdSec, husec, hpassd, hleft⟩, rfl⟩
    refine ⟨_, ⟨hsec, rfl⟩, _, ⟨hpassdSec, rfl⟩, _, ⟨husec, rfl⟩, _, ⟨?_, rfl⟩, ?_⟩
    · rwa [hpassed]
    · rw [hpassed]
      exact ⟨hleft, rfl⟩

theorem micros_split {z : Int} (hfits : FitsInt64 z) (hpos : 0 < z) :
    (⟨Int64.ofInt (z / 1000000), Int64.ofInt (z % 1000000)⟩ : Timeval).micros = z := by
  have hlt := hfits.2
  unfold Timeval.micros
  rw [Int64.toInt_ofInt_of_le (by omega) (by omega), Int64.toInt_ofInt_of_le (by omega) (by omega)]
  omega

theorem given_head {start : Timeval} {tmoutUsec : Int} {tmout : Timeval}
    {answers : List SelectAnswer} {awaited : Awaited} {given : List Timeval}
    (h : awaitConnect start tmoutUsec tmout answers = .ok (awaited, given)) :
    ∃ more, given = tmout :: more := by
  cases answers with
  | nil =>
      cases h
      exact ⟨[], rfl⟩
  | cons answer answers =>
      rw [awaitConnect] at h
      split at h
      · split at h
        · split at h
          · cases h
            exact ⟨[], rfl⟩
          · obtain ⟨tmeout, -, h⟩ := bind_eq_ok.mp h
            split at h
            · cases h
              exact ⟨[], rfl⟩
            · obtain ⟨⟨awaited', given'⟩, -, h⟩ := bind_eq_ok.mp h
              cases h
              exact ⟨given', rfl⟩
        · cases h
          exact ⟨[], rfl⟩
      · cases h
        exact ⟨[], rfl⟩
      · cases h
        exact ⟨[], rfl⟩

theorem TimeoutKept.of_first {tmout start given : Timeval} {answers : List SelectAnswer}
    {awaited : Awaited} (h : awaited ≠ .timedOut) :
    TimeoutKept tmout start answers awaited [given] :=
  ⟨fun h' => absurd h' h, fun i left hleft => by simp at hleft⟩

theorem timeoutKept_cons {tmout start given left : Timeval} {answer : SelectAnswer}
    {answers : List SelectAnswer} {awaited : Awaited} {more : List Timeval} {passed : Int}
    (hpassed : answer.Passed start passed) :
    TimeoutKept tmout start (answer :: answers) awaited (given :: left :: more) ↔
      (left.micros = tmout.micros - passed ∧ 0 < left.micros) ∧
        TimeoutKept tmout start answers awaited (left :: more) := by
  have hsame : ∀ {passed'}, answer.Passed start passed' → passed' = passed := by
    rintro passed' ⟨curr', hcurr', rfl⟩
    obtain ⟨curr, hcurr, rfl⟩ := hpassed
    rw [hcurr] at hcurr'
    cases hcurr'
    rfl
  constructor
  · rintro ⟨htimedOut, hresumed⟩
    refine ⟨?_, htimedOut, fun i left' hleft' => hresumed (i + 1) left' hleft'⟩
    obtain ⟨last, passed', hlast, hpassed', hleft⟩ := hresumed 0 left rfl
    cases hlast
    rwa [hsame hpassed'] at hleft
  · rintro ⟨hleft, htimedOut, hresumed⟩
    refine ⟨htimedOut, fun i left' hleft' => ?_⟩
    cases i with
    | zero =>
        cases hleft'
        exact ⟨answer, passed, rfl, hpassed, hleft⟩
    | succ i => exact hresumed i left' hleft'

/-- What an interruption comes to: the clock can be read, and the time is over and nothing is left
of it, or it is not, the right amount is left, and the rest of the wait keeps the timeout. -/
theorem interrupted_iff {tmout start given curr : Timeval} {errno : Int32}
    {answers : List SelectAnswer} (hinterrupt : errno = eintr ∨ errno = eagain)
    (ih : ∀ given, (∃ awaited all, awaitConnect start (tmout.tvSec.toInt * 1000000) given answers =
        .ok (awaited, all) ∧ TimeoutKept tmout start answers awaited all) ↔
      Harmless tmout start answers) :
    (∃ awaited all, awaitConnect start (tmout.tvSec.toInt * 1000000) given
        (⟨.error errno, .ok curr⟩ :: answers) = .ok (awaited, all) ∧
      TimeoutKept tmout start (⟨.error errno, .ok curr⟩ :: answers) awaited all) ↔
      ClockFits tmout start curr ∧
        (curr.micros - start.micros ≤ tmout.tvSec.toInt * 1000000 ∧
            tmout.micros ≤ curr.micros - start.micros ∨
          tmout.tvSec.toInt * 1000000 < curr.micros - start.micros ∧
            2 * (curr.micros - start.micros) = tmout.tvSec.toInt * 1000000 + tmout.micros ∧
            Harmless tmout start answers) := by
  have hpassed : SelectAnswer.Passed ⟨.error errno, .ok curr⟩ start (curr.micros - start.micros) :=
    ⟨curr, rfl, rfl⟩
  simp only [awaitConnect, if_pos hinterrupt]
  cases htmeout : currTmeout start (tmout.tvSec.toInt * 1000000) curr with
  | error reason =>
      refine iff_of_false (fun h => ?_) fun h => ?_
      · obtain ⟨awaited, all, hrun, -⟩ := h
        cases hrun
      · have hfits := currTmeout_eq_ok.mpr ⟨h.1, rfl⟩
        rw [htmeout] at hfits
        cases hfits
  | ok tmeout =>
      obtain ⟨hclock, rfl⟩ := currTmeout_eq_ok.mp htmeout
      simp only [ok_bind, hclock, true_and]
      by_cases hover : curr.micros - start.micros - tmout.tvSec.toInt * 1000000 ≤ 0
      · -- the loop is left
        have hlate : ¬tmout.tvSec.toInt * 1000000 < curr.micros - start.micros := by omega
        simp only [if_pos hover, pure_eq, Except.ok.injEq, Prod.mk.injEq, hlate, false_and, or_false]
        constructor
        · rintro ⟨awaited, all, ⟨rfl, rfl⟩, htimedOut, -⟩
          obtain ⟨last, hlast, hkept⟩ := htimedOut rfl
          cases hlast
          obtain hkept | ⟨passed, ⟨curr', hcurr', rfl⟩, hle⟩ := hkept
          · cases hkept
          · cases hcurr'
            exact ⟨by omega, hle⟩
        · rintro ⟨-, hle⟩
          refine ⟨.timedOut, [given], ⟨rfl, rfl⟩, fun _ => ⟨_, rfl, .inr ⟨_, hpassed, hle⟩⟩, ?_⟩
          exact fun i left hleft => by simp at hleft
      · -- the wait goes on
        have hlater : ¬curr.micros - start.micros ≤ tmout.tvSec.toInt * 1000000 := by omega
        have hlate : tmout.tvSec.toInt * 1000000 < curr.micros - start.micros := by omega
        have hleft := micros_split hclock.2.2.2.2 (by omega)
        simp only [if_neg hover, hlater, hlate, false_and, false_or, true_and]
        generalize (⟨Int64.ofInt _, Int64.ofInt _⟩ : Timeval) = left at hleft
        rw [← ih left]
        constructor
        · rintro ⟨awaited, all, hrun, hkept⟩
          obtain ⟨⟨awaited', more⟩, hrest, h⟩ := bind_eq_ok.mp hrun
          cases h
          obtain ⟨more, rfl⟩ := given_head hrest
          rw [timeoutKept_cons hpassed] at hkept
          exact ⟨by omega, _, _, hrest, hkept.2⟩
        · rintro ⟨hhalf, awaited, all, hrest, hkept⟩
          obtain ⟨more, rfl⟩ := given_head hrest
          refine ⟨awaited, given :: left :: more, by rw [hrest]; rfl, ?_⟩
          rw [timeoutKept_cons hpassed]
          exact ⟨⟨by omega, by omega⟩, hkept⟩

theorem awaitConnect_iff (tmout start given : Timeval) (answers : List SelectAnswer) :
    (∃ awaited all, awaitConnect start (tmout.tvSec.toInt * 1000000) given answers =
        .ok (awaited, all) ∧ TimeoutKept tmout start answers awaited all) ↔
      Harmless tmout start answers := by
  induction answers generalizing given with
  | nil => exact iff_of_true ⟨.waiting, [given], rfl, .of_first (by simp)⟩ trivial
  | cons answer answers ih =>
      obtain ⟨result, curr⟩ := answer
      cases result with
      | timeout =>
          refine iff_of_true ⟨.timedOut, [given], rfl, fun _ => ⟨_, rfl, .inl rfl⟩, ?_⟩
            (by simp [Harmless])
          exact fun i left hleft => by simp at hleft
      | event => exact iff_of_true ⟨.event, [given], rfl, .of_first (by simp)⟩ (by simp [Harmless])
      | error errno =>
          cases curr with
          | error errno' =>
              refine iff_of_true ?_ (by simp [Harmless])
              by_cases hinterrupt : errno = eintr ∨ errno = eagain
              · exact ⟨.failed errno', [given], by simp [awaitConnect, hinterrupt],
                  .of_first (by simp)⟩
              · exact ⟨.failed errno, [given], by simp [awaitConnect, hinterrupt],
                  .of_first (by simp)⟩
          | ok curr =>
              rw [Harmless]
              by_cases hinterrupt : errno = eintr ∨ errno = eagain
              · rw [imp_iff_right hinterrupt]
                exact interrupted_iff hinterrupt ih
              · exact iff_of_true ⟨.failed errno, [given], by simp [awaitConnect, hinterrupt],
                  .of_first (by simp)⟩ fun h => absurd h hinterrupt

/-- The connect timeout is honoured, and success means that the socket is blocking. -/
structure ConnectHonoured (a : ConnectAnswers) (s : ConnectStream) (run : ConnectRun) : Prop where
  timedOut : run.result = some .etmout → ∃ start last, a.start = .ok start ∧
    a.selects[run.given.length - 1]? = some last ∧
    (last.result = .timeout ∨
      ∃ passed, last.Passed start passed ∧ s.tmoutConnect.micros ≤ passed)
  resumed : ∀ i left, run.given[i + 1]? = some left → ∃ start last passed, a.start = .ok start ∧
    a.selects[i]? = some last ∧ last.Passed start passed ∧
    left.micros = s.tmoutConnect.micros - passed ∧ 0 < left.micros
  blocking : run.result = some .eok → run.stream.flags &&& oNonblock = 0

/-- If the socket has been made nonblocking, the connection is not there at once; and if it is in
progress, the seconds of the timeout are not too many, and the interruptions are harmless. -/
def ConnectHarmless (a : ConnectAnswers) (s : ConnectStream) : Prop :=
  a.getfl = none → a.setfl = none →
    a.connect ≠ none ∧ (a.connect = some einprogress →
      FitsInt64 (s.tmoutConnect.tvSec.toInt * 1000000) ∧
        ∀ start, a.start = .ok start → Harmless s.tmoutConnect start a.selects)

theorem ConnectHonoured.of_failed {a : ConnectAnswers} {s stream : ConnectStream} :
    ConnectHonoured a s { result := some .esystem, stream } :=
  ⟨(nomatch ·), fun i left hleft => by simp at hleft, (nomatch ·)⟩

theorem blocking_of_nonblock (flags : UInt32) : (flags &&& ~~~oNonblock) &&& oNonblock = 0 := by
  rw [UInt32.and_assoc, UInt32.and_comm _ oNonblock]
  simp

theorem not_blocking (flags : UInt32) : (flags ||| oNonblock) &&& oNonblock ≠ 0 := by
  intro h
  have hbit := congrArg (fun bits => bits.toBitVec.getLsbD 11) h
  simp [oNonblock] at hbit

theorem beerIoNonblock_cases (getfl setfl : Option Int32) (s : ConnectStream) (set : Bool) :
    (∃ errno, beerIoNonblock getfl setfl s set = (.esystem, { s with errno })) ∨
      beerIoNonblock getfl setfl s set = (.eok, { s with
        flags := if set then s.flags ||| oNonblock else s.flags &&& ~~~oNonblock }) := by
  unfold beerIoNonblock
  cases getfl with
  | some errno => exact .inl ⟨errno, rfl⟩
  | none =>
      cases setfl with
      | some errno => exact .inl ⟨errno, rfl⟩
      | none => exact .inr rfl

/-- The loop's timeout is the only one, and success has made the socket blocking. -/
theorem afterWait_spec (a : ConnectAnswers) (s : ConnectStream) (given : List Timeval)
    (awaited : Awaited) :
    (afterWait a s given awaited).given = given ∧
      ((afterWait a s given awaited).result = some .etmout ↔ awaited = .timedOut) ∧
      ((afterWait a s given awaited).result = some .eok →
        (afterWait a s given awaited).stream.flags &&& oNonblock = 0) := by
  cases awaited with
  | waiting | failed errno | timedOut => simp [afterWait]
  | event =>
      rw [afterWait]
      cases a.soError with
      | error errno => simp
      | ok opt =>
          dsimp only
          by_cases hopt : opt ≠ 0
          · simp [hopt]
          · rw [if_neg hopt]
            rcases beerIoNonblock_cases a.getfl' a.setfl' s false with ⟨errno, hfail⟩ | hset
            · simp [hfail]
            · simp [hset, blocking_of_nonblock]

theorem connectHonoured_afterWait_iff {a : ConnectAnswers} {s s' : ConnectStream} {start : Timeval}
    (hstart : a.start = .ok start) (given : List Timeval) (awaited : Awaited) :
    ConnectHonoured a s (afterWait a s' given awaited) ↔
      TimeoutKept s.tmoutConnect start a.selects awaited given := by
  obtain ⟨hgiven, htimedOut, hblocking⟩ := afterWait_spec a s' given awaited
  constructor
  · rintro ⟨h, hresumed, -⟩
    refine ⟨fun hover => ?_, fun i left hleft => ?_⟩
    · obtain ⟨start', last, hstart', hlast, hkept⟩ := h (htimedOut.mpr hover)
      rw [hstart] at hstart'
      cases hstart'
      exact ⟨last, by rwa [hgiven] at hlast, hkept⟩
    · obtain ⟨start', last, passed, hstart', h⟩ := hresumed i left (by rwa [hgiven])
      rw [hstart] at hstart'
      cases hstart'
      exact ⟨last, passed, h⟩
  · rintro ⟨h, hresumed⟩
    refine ⟨fun hover => ?_, fun i left hleft => ?_, hblocking⟩
    · obtain ⟨last, hlast, hkept⟩ := h (htimedOut.mp hover)
      exact ⟨start, last, hstart, by rwa [hgiven], hkept⟩
    · obtain ⟨last, passed, h⟩ := hresumed i left (by rwa [hgiven] at hleft)
      exact ⟨start, last, passed, hstart, h⟩

theorem connectHonoured_inProgress_iff {a : ConnectAnswers} {s : ConnectStream}
    (hgetfl : a.getfl = none) (hsetfl : a.setfl = none) (hconnect : a.connect = some einprogress) :
    (∃ run, beerIoConnectDo a s = .ok run ∧ ConnectHonoured a s run) ↔
      FitsInt64 (s.tmoutConnect.tvSec.toInt * 1000000) ∧
        ∀ start, a.start = .ok start → Harmless s.tmoutConnect start a.selects := by
  simp only [beerIoConnectDo, beerIoNonblock, hgetfl, hsetfl, hconnect, if_true, ne_eq,
    not_true_eq_false, if_false]
  by_cases hfits : FitsInt64 (s.tmoutConnect.tvSec.toInt * 1000000)
  · rw [int64, if_pos hfits, ok_bind]
    simp only [hfits, true_and]
    cases hstart : a.start with
    | error errno => exact iff_of_true ⟨_, rfl, .of_failed⟩ (by simp)
    | ok start =>
        simp only [Except.ok.injEq, forall_eq']
        rw [← awaitConnect_iff s.tmoutConnect start s.tmoutConnect a.selects]
        constructor
        · rintro ⟨run, hrun, hhonoured⟩
          obtain ⟨⟨awaited, given⟩, hawaited, h⟩ := bind_eq_ok.mp hrun
          cases h
          exact ⟨awaited, given, hawaited,
            (connectHonoured_afterWait_iff hstart given awaited).mp hhonoured⟩
        · rintro ⟨awaited, given, hawaited, hkept⟩
          rw [hawaited]
          exact ⟨_, rfl, (connectHonoured_afterWait_iff hstart given awaited).mpr hkept⟩
  · rw [int64, if_neg hfits]
    refine iff_of_false (fun ⟨run, hrun, _⟩ => ?_) fun h => hfits h.1
    cases hrun

/-- For every timeout and all answers of the system, connecting honours the timeout and leaves a
blocking socket behind when it succeeds, exactly if the connection is not there at once and the
interruptions come at harmless moments. -/
theorem connectHonoured_iff (a : ConnectAnswers) (s : ConnectStream) :
    (∃ run, beerIoConnectDo a s = .ok run ∧ ConnectHonoured a s run) ↔ ConnectHarmless a s := by
  unfold ConnectHarmless
  cases hgetfl : a.getfl with
  | some errno =>
      refine iff_of_true ⟨{ result := some .esystem, stream := { s with errno } }, ?_, .of_failed⟩
        (by simp)
      simp [beerIoConnectDo, beerIoNonblock, hgetfl]
  | none =>
      cases hsetfl : a.setfl with
      | some errno =>
          refine iff_of_true
            ⟨{ result := some .esystem, stream := { s with errno } }, ?_, .of_failed⟩ (by simp)
          simp [beerIoConnectDo, beerIoNonblock, hgetfl, hsetfl]
      | none =>
          cases hconnect : a.connect with
          | none =>
              refine iff_of_false ?_ (by simp)
              rintro ⟨run, hrun, -, -, hblocking⟩
              simp only [beerIoConnectDo, beerIoNonblock, hgetfl, hsetfl, hconnect, if_true, ne_eq,
                not_true_eq_false, if_false, pure_eq, Except.ok.injEq] at hrun
              subst hrun
              exact not_blocking s.flags (hblocking rfl)
          | some errno =>
              by_cases herrno : errno = einprogress
              · subst herrno
                rw [connectHonoured_inProgress_iff hgetfl hsetfl hconnect]
                simp
              · refine iff_of_true
                  ⟨{ result := some .esystem,
                     stream := { s with flags := s.flags ||| oNonblock, errno } }, ?_, .of_failed⟩
                  (by simp [herrno])
                simp [beerIoConnectDo, beerIoNonblock, hgetfl, hsetfl, hconnect, herrno]

/-- A clock that shows so many microseconds since the start. -/
def Timeval.after (usec : Int64) : Timeval := ⟨usec / 1000000, usec % 1000000⟩

/-- A connection that is in progress for as long as the waiting is interrupted, each time by a
signal. -/
def ConnectAnswers.interrupted (clock : List Timeval) : ConnectAnswers where
  connect := some einprogress
  start := .ok (.after 0)
  selects := clock.map (⟨.error eintr, .ok ·⟩) ++ [⟨.event, .ok (.after 0)⟩]

/-- A connection that is there at once leaves a nonblocking socket. A signal in the first tenth of
two seconds is a timeout, and one behind the two seconds of a timeout of two and a half leaves as
much time as has passed since they were over. -/
theorem not_connectHonoured :
    (∃ run, beerIoConnectDo { connect := none, start := .ok (.after 0), selects := [] }
        { tmoutConnect := .after 2000000 } = .ok run ∧
      run.result = some .eok ∧ run.stream.flags &&& oNonblock ≠ 0) ∧
    (∃ run, beerIoConnectDo (.interrupted [.after 100000]) { tmoutConnect := .after 2000000 } =
        .ok run ∧ run.result = some .etmout) ∧
    (∃ run, beerIoConnectDo (.interrupted [.after 2100000]) { tmoutConnect := .after 2500000 } =
        .ok run ∧ run.given = [.after 2500000, .after 100000]) ∧
    ¬∃ run, beerIoConnectDo (.interrupted [.after 100000]) { tmoutConnect := .after 2000000 } =
        .ok run ∧
      ConnectHonoured (.interrupted [.after 100000]) { tmoutConnect := .after 2000000 } run := by
  refine ⟨⟨_, rfl, rfl, by decide⟩, ⟨_, rfl, rfl⟩, ⟨_, rfl, rfl⟩, ?_⟩
  rintro ⟨run, hrun, htimedOut, -⟩
  cases hrun
  obtain ⟨start, last, hstart, hlast, hkept⟩ := htimedOut rfl
  cases hstart
  cases hlast
  obtain hresult | ⟨passed, ⟨curr, hcurr, rfl⟩, hle⟩ := hkept
  · cases hresult
  · cases hcurr
    exact absurd hle (by decide)

end BeeC
