import BeeC.Auth
import BeeC.SchemaReload

namespace BeeC

open BeeC.Wire.MessagePack

section Transport

variable {τ : Type} (t : Transport τ)

def beerIoClose (n : Net τ) : Net τ :=
  { n with link := { n.link with state := t.close n.link.state }, connected := false }

def beerIoConnect (n : Net τ) : BeerError × Net τ :=
  let (result, state) := t.connect n.link.state
  let n := { n with link := { n.link with state } }
  if result = .eok then (.eok, { n with connected := true }) else (result, beerIoClose t n)

def beerClose (s : Session τ) : Session τ :=
  let net := { s.net with sbuf := s.net.sbuf.beerIobClear, rbuf := s.net.rbuf.beerIobClear }
  { s with reqid := 0, net := { beerIoClose t net with wrcnt := 0 } }

/-- `beer_connect`, up to the connection: a stream that is set up and not connected. -/
def beerReady (s : Session τ) : Session τ :=
  let s := if s.net.inited then s else { s with net := (beerInit s.net).2, schema := .new }
  if s.net.connected then beerClose t s else s

/-- `beer_connect`: the greeting. What is read is stored over the greeting from before. -/
def beerGreet (n : Net τ) : Int × Net τ :=
  let (rc, stored, n) := beerNetRead t beerGreetingSize n
  (if rc = -1 ∨ n.error ≠ .eok then -1 else 0,
    { n with greeting := stored ++ n.greeting.drop stored.length })

/-- `beer_connect`: the connection and the greeting. -/
def beerOpen (n : Net τ) : Int × Net τ :=
  let (error, n) := beerIoConnect t n
  if error ≠ .eok then (-1, { n with error }) else beerGreet t { n with error }

end Transport

section Login

variable {τ : Type} (t : Transport τ) (mp : Msgpuck) (crypt : Crypt) (garbage : Nat → UInt8)

/-- `beer_authenticate`. The lengths are `size_t`, and `beer_auth` takes an `int`. The results of
`beer_auth`, `beer_flush` and `beer_reload_schema` are not looked at. -/
def beerAuthenticate (s : Session τ) : Except Fault (Int × Session τ) := do
  if ¬s.net.connected ∨ s.net.wrcnt ≠ 0 then return (-1, s)
  let login := s.net.opt.login
  let password := s.net.opt.password.getD []
  let (_, s) ← s.build t fun stream =>
    beerAuth mp crypt garbage stream login (Int32.ofNat (login.getD []).length) password
      (Int32.ofNat password.length)
  let (_, net) := beerFlush t s.net
  match beerNetReply t mp (Reply.init false) net with
  | (.error reason, _) => throw reason
  | (.ok (rc, rep), net) =>
      if rc = -1 then return (-1, { s with net })
      else if rep.error.isSome then
        if rep.code = beerErPasswordMismatch then
          return (-1, { s with net := { net with error := .elogin } })
        else return (-1, { s with net })
      else
        let (_, s) ← beerReloadSchema t mp garbage { s with net }
        return (0, s)

def beerConnect (s : Session τ) : Except Fault (Int × Session τ) := do
  let s := beerReady t s
  let (rc, net) := beerOpen t s.net
  let s := { s with net }
  if rc = -1 then return (-1, s)
  if s.net.opt.login.isSome ∧ s.net.opt.password.isSome then
    let (rc, s) ← beerAuthenticate t mp crypt garbage s
    if rc = -1 then return (-1, s)
    return (0, s)
  return (0, s)

end Login

end BeeC
