import Mathlib.Logic.Basic

namespace BeeC

/-- `enum beer_header_key_t`, the keys that the client reads or writes. -/
inductive HeaderKey where
  | code | sync | schemaId
  deriving DecidableEq, Repr

def HeaderKey.id : HeaderKey → UInt32
  | code => 0x00
  | sync => 0x01
  | schemaId => 0x05

/-- `enum beer_body_key_t`, the keys that the client writes. -/
inductive BodyKey where
  | space | index | limit | offset | iterator | indexBase
  | key | tuple | function | username | expression | ops
  deriving DecidableEq, Repr

def BodyKey.id : BodyKey → UInt32
  | space => 0x10
  | index => 0x11
  | limit => 0x12
  | offset => 0x13
  | iterator => 0x14
  | indexBase => 0x15
  | key => 0x20
  | tuple => 0x21
  | function => 0x22
  | username => 0x23
  | expression => 0x27
  | ops => 0x28

/-- `enum beer_response_key_t`. -/
inductive ResponseKey where
  | data | error
  deriving DecidableEq, Repr

def ResponseKey.id : ResponseKey → UInt32
  | data => 0x30
  | error => 0x31

/-- `enum beer_request_t`. -/
inductive RequestType where
  | select | insert | replace | update | delete | call16 | auth | eval | upsert | call
  | ping | join | subscribe
  deriving DecidableEq, Repr

def RequestType.id : RequestType → UInt32
  | select => 1
  | insert => 2
  | replace => 3
  | update => 4
  | delete => 5
  | call16 => 6
  | auth => 7
  | eval => 8
  | upsert => 9
  | call => 10
  | ping => 64
  | join => 65
  | subscribe => 66

/-- `BEER_ITER_ALL`. -/
def beerIterAll : UInt8 := 2

/-- `enum beer_spaces_t`, the views that the client selects from. -/
inductive SystemSpace where
  | vspSpace | vspIndex
  deriving DecidableEq, Repr

def SystemSpace.id : SystemSpace → UInt32
  | vspSpace => 281
  | vspIndex => 289

def beerVinName : UInt32 := 2

/-- `BEER_SCRAMBLE_SIZE`. -/
def beerScrambleSize : Nat := 20

/-- `BEER_GREETING_SIZE`. -/
def beerGreetingSize : Nat := 128

/-- `BEER_VERSION_SIZE`. -/
def beerVersionSize : Nat := 64

/-- `BEER_SALT_SIZE`. -/
def beerSaltSize : Nat := 44

/-- `BEER_ER_PASSWORD_MISMATCH`. -/
def beerErPasswordMismatch : UInt64 := 47

end BeeC
