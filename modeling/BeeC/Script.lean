import BeeC.Io

namespace BeeC

open BeeC.Wire.MessagePack

/-- How much each write takes and what each read delivers, with `none` for a call that fails. At
the end of the script, writes take everything and reads fail. -/
structure Script where
  takes : List (Option Nat) := []
  gives : List (Option Bytes) := []
  deriving DecidableEq, Repr

/-- Take no more than a number of bytes. -/
def Taking.atMost (limit offered : Nat) : Option (Taking offered) :=
  if h : 0 < min limit offered then some ⟨min limit offered, h, Nat.min_le_right _ _⟩ else none

theorem Taking.atMost_ne_none {limit offered : Nat} (hlimit : 0 < limit) (hoffered : 0 < offered) :
    Taking.atMost limit offered ≠ none := by
  rw [Taking.atMost, dif_pos (Nat.lt_min.mpr ⟨hlimit, hoffered⟩)]
  exact Option.some_ne_none _

/-- Deliver as many of the bytes as there is room for. -/
def Delivery.of (bytes : Bytes) (room : Nat) : Option (Delivery room) :=
  if h : 0 < (bytes.take room).length then some ⟨bytes.take room, h, List.length_take_le _ _⟩
  else none

theorem Delivery.of_ne_none {bytes : Bytes} {room : Nat} (hbytes : 0 < bytes.length)
    (hroom : 0 < room) : Delivery.of bytes room ≠ none := by
  have hpos : 0 < (bytes.take room).length := by
    rw [List.length_take]
    exact Nat.lt_min.mpr ⟨hroom, hbytes⟩
  rw [Delivery.of, dif_pos hpos]
  exact Option.some_ne_none _

namespace Script

def taking (offered : Nat) (s : Script) : Option (Taking offered) × Script :=
  match s.takes with
  | [] => (Taking.atMost offered offered, s)
  | none :: takes => (none, { s with takes })
  | some limit :: takes => (Taking.atMost limit offered, { s with takes })

def delivery (room : Nat) (s : Script) : Option (Delivery room) × Script :=
  match s.gives with
  | [] => (none, s)
  | none :: gives => (none, { s with gives })
  | some bytes :: gives =>
      (Delivery.of bytes room,
        { s with gives := if bytes.length ≤ room then gives else some (bytes.drop room) :: gives })

/-- The transport; a connection to it is always made. -/
def transport : Transport Script where
  connect s := (.eok, s)
  close s := s
  recv := delivery
  send data := taking data.length
  sendv iov := taking iov.flatten.length
  txv := false

end Script

/-- A transport that takes and delivers one byte at a time. It delivers the bytes that count up. -/
def trickle : Transport UInt8 where
  connect st := (.eok, st)
  close st := st
  recv room st := (Delivery.of [st] room, st + 1)
  send data st := (Taking.atMost 1 data.length, st)
  sendv iov st := (Taking.atMost 1 iov.flatten.length, st)
  txv := true

/-- A stream on that transport, with buffers of four bytes. -/
def slow : Net UInt8 where
  sbuf := { buf := some [0, 0, 0, 0] }
  rbuf := { buf := some [0, 0, 0, 0] }
  greeting := []
  link := { state := 1 }

end BeeC
