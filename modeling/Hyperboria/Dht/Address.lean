/-
`dht/Address.h`, `crypto/AddressCalc.c` and `util/version/Version.c`: the address of
a node, what makes its IPv6 address a valid one, and which protocol versions talk to
each other.
-/
import Hyperboria.Crypto.Primitives

namespace Hyperboria

structure Address where
  protocolVersion : Nat
  ip6 : List UInt8
  key : Key
  path : BitVec 64
deriving DecidableEq

namespace Address

/-- An address of zeros. -/
def zero : Address := { protocolVersion := 0, ip6 := List.replicate 16 0, key := .zero, path := 0 }

/-- `Address_getPrefix`: the IPv6 address is worked out from the key if it is not there yet. -/
def getPrefix (C : Crypto) (addr : Address) : Address :=
  if addr.ip6 = List.replicate 16 0 then { addr with ip6 := C.addressForPublicKey addr.key } else addr

/-- Four bytes of an address from the byte `i` on, as one of `ip6.ints` in host order. -/
def intAt (ip6 : List UInt8) (i : Nat) : BitVec 32 :=
  BitVec.ofNat 32 (((ip6.drop i).take 4).foldl (fun n b => n * 256 + b.toNat) 0)

def xorcmp (target negativeIfCloser positiveIfCloser : BitVec 32) : Int :=
  if negativeIfCloser = positiveIfCloser then 0
  else if negativeIfCloser ^^^ target < positiveIfCloser ^^^ target then -1 else 1

/-- `Address_closest`: negative if the second address is closer to the target than the third, positive if
it is further away. The union has the halves of the bytes in the other order, so the second comes first. -/
def closest (C : Crypto) (target negativeIfCloser positiveIfCloser : Address) : Int :=
  let compare := fun i =>
    xorcmp (intAt (target.getPrefix C).ip6 i) (intAt (negativeIfCloser.getPrefix C).ip6 i)
      (intAt (positiveIfCloser.getPrefix C).ip6 i)
  if compare 8 ≠ 0 then compare 8
  else if compare 12 ≠ 0 then compare 12
  else if compare 0 ≠ 0 then compare 0
  else compare 4

end Address

/-- `AddressCalc_validAddress`: the first `AddressCalc_ADDRESS_PREFIX_BITS` (8) bits are 0xfc. -/
def AddressCalc.validAddress (address : List UInt8) : Bool := address.head? = some 0xfc

namespace Version

def CURRENT_PROTOCOL : Nat := 21

/-- `VERSION_MATRIX`. -/
def MATRIX : List (List Nat) :=
  [[1,1,0,0,0,0,0,0,0,0,0,0,0,0,0,0,0,0,0,0,0,0],
   [1,1,1,1,1,1,0,0,0,0,0,0,0,0,0,0,0,0,0,0,0,0],
   [0,1,1,1,1,1,0,0,0,0,0,0,0,0,0,0,0,0,0,0,0,0],
   [0,1,1,1,1,1,0,0,0,0,0,0,0,0,0,0,0,0,0,0,0,0],
   [0,1,1,1,1,1,0,0,0,0,0,0,0,0,0,0,0,0,0,0,0,0],
   [0,1,1,1,1,1,1,1,1,1,0,0,0,0,0,0,0,0,0,0,0,0],
   [0,0,0,0,0,1,1,1,1,1,0,0,0,0,0,0,0,0,0,0,0,0],
   [0,0,0,0,0,1,1,1,1,1,1,1,1,0,0,0,0,0,0,0,0,0],
   [0,0,0,0,0,1,1,1,1,1,1,1,1,0,0,0,0,0,0,0,0,0],
   [0,0,0,0,0,1,1,1,1,1,1,1,1,0,0,0,0,0,0,0,0,0],
   [0,0,0,0,0,0,0,1,1,1,1,1,1,0,0,0,0,0,0,0,0,0],
   [0,0,0,0,0,0,0,1,1,1,1,1,1,0,0,0,0,0,0,0,0,0],
   [0,0,0,0,0,0,0,1,1,1,1,1,1,1,1,1,1,0,0,0,0,0],
   [0,0,0,0,0,0,0,0,0,0,0,0,1,1,1,1,1,0,0,0,0,0],
   [0,0,0,0,0,0,0,0,0,0,0,0,1,1,1,1,1,0,0,0,0,0],
   [0,0,0,0,0,0,0,0,0,0,0,0,1,1,1,1,1,0,0,0,0,0],
   [0,0,0,0,0,0,0,0,0,0,0,0,1,1,1,1,1,1,1,1,1,0],
   [0,0,0,0,0,0,0,0,0,0,0,0,0,0,0,0,1,1,1,1,1,0],
   [0,0,0,0,0,0,0,0,0,0,0,0,0,0,0,0,1,1,1,1,1,0],
   [0,0,0,0,0,0,0,0,0,0,0,0,0,0,0,0,1,1,1,1,1,0],
   [0,0,0,0,0,0,0,0,0,0,0,0,0,0,0,0,1,1,1,1,1,1],
   [0,0,0,0,0,0,0,0,0,0,0,0,0,0,0,0,0,0,0,0,1,1]]

def isCompatible (one two : Nat) : Bool :=
  ((MATRIX.getD (min one CURRENT_PROTOCOL) []).getD (min two CURRENT_PROTOCOL) 0) ≠ 0

end Version

end Hyperboria
