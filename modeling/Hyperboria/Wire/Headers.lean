/-
`wire/RouteHeader.h`, `wire/DataHeader.h` and `wire/ContentType.h`: the headers above
the session layer. A route header is never on the wire; the session layer puts it in
place of the headers it has taken off.
-/
import Hyperboria.Crypto.Primitives
import Hyperboria.Switch.SwitchCore

namespace Hyperboria

/-- `struct RouteHeader`, its fields in host order. -/
structure RouteHeader where
  publicKey : Key
  sh : Switch.SwitchHeader
  version : Nat
  flags : UInt8
  ip6 : List UInt8

namespace RouteHeader

def SIZE : Nat := 56 + Switch.SwitchHeader_SIZE

/-- `RouteHeader_flags_INCOMING`. -/
def INCOMING : UInt8 := 1

/-- `RouteHeader_flags_CTRLMSG`. -/
def CTRLMSG : UInt8 := 2

/-- `RouteHeader_flags_PATHFINDER`. -/
def PATHFINDER : UInt8 := 4

/-- `flags & RouteHeader_flags_CTRLMSG`. -/
def isCtrl (hdr : RouteHeader) : Bool := hdr.flags &&& CTRLMSG ≠ 0

/-- `flags & RouteHeader_flags_PATHFINDER`. -/
def isPathfinder (hdr : RouteHeader) : Bool := hdr.flags &&& PATHFINDER ≠ 0

theorem isCtrl_of_incoming {hdr : RouteHeader} (h : hdr.flags = INCOMING) : hdr.isCtrl = false := by
  rw [isCtrl, h]
  decide

theorem isCtrl_of_ctrlMsg {hdr : RouteHeader} (h : hdr.flags = INCOMING ||| CTRLMSG) : hdr.isCtrl = true := by
  rw [isCtrl, h]
  decide

end RouteHeader

namespace DataHeader

def SIZE : Nat := 4

/-- `DataHeader_getContentType` of the header a message begins with. -/
def getContentType (bytes : List UInt8) : Nat := (bytes.getD 2 0).toNat * 256 + (bytes.getD 3 0).toNat

end DataHeader

namespace ContentType

def IP6_MAX : Nat := 255
def HYPERBORIADHT : Nat := 256
def IPTUN : Nat := 257
/-- Not on the wire: control frames, which are not encrypted. -/
def CTRL : Nat := 0xffff + 1

end ContentType

/-- A message above the session layer: a route header, and what follows it. -/
structure Routed where
  header : RouteHeader
  payload : List UInt8

/-- The field `length` of the message. -/
def Routed.length (msg : Routed) : Nat := RouteHeader.SIZE + msg.payload.length

end Hyperboria
