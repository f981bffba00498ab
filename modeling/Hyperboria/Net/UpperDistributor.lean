/-
`net/UpperDistributor.c`, the way up: a message from the session layer goes to the
handler of control frames, the TUN device, the pathfinder or the tunnel, by its flag
and its content type; copies go to whoever has registered for that type.
-/
import Hyperboria.Wire.Headers

namespace Hyperboria.UpperDistributor

structure Handler where
  type : Nat
  udpPort : Nat

/-- `struct UpperDistributor_pvt`. -/
structure State where
  handlers : List Handler
  noSendToHandler : Nat

/-- Where messages go. -/
inductive Out where
  /-- a copy, wrapped in UDP, to the handler on this port -/
  | handler (udpPort : Nat) (msg : Routed)
  | controlHandler (msg : Routed)
  | tunAdapter (msg : Routed)
  | event (msg : Routed)
  | ipTunnel (msg : Routed)

def sendToHandlers (msg : Routed) (type : Nat) (ud : State) : State × List Out :=
  if ud.noSendToHandler ≠ 0 then ({ ud with noSendToHandler := ud.noSendToHandler - 1 }, [])
  else (ud, (ud.handlers.filter fun h => h.type = type).map fun h => .handler h.udpPort msg)

/-- Where a message of this content type goes. -/
def route (msg : Routed) (type : Nat) : List Out :=
  if type ≤ ContentType.IP6_MAX then [.tunAdapter msg]
  else if type = ContentType.HYPERBORIADHT then [.event msg]
  else if type = ContentType.IPTUN then [.ipTunnel msg]
  else []

def incomingFromSessionManagerIf (msg : Routed) (ud : State) : Er (State × List Out) := do
  .assertTrue (msg.length ≥ RouteHeader.SIZE) "msg->length >= RouteHeader_SIZE"
  if msg.header.isCtrl then
    let (ud, copies) := sendToHandlers msg ContentType.CTRL ud
    .ret (ud, copies ++ [.controlHandler msg])
  else do
    .assertTrue (msg.length ≥ RouteHeader.SIZE + DataHeader.SIZE) "msg->length >= RouteHeader_SIZE + DataHeader_SIZE"
    let type := DataHeader.getContentType msg.payload
    let (ud, copies) := sendToHandlers msg type ud
    .ret (ud, copies ++ route msg type)

/-- The distributor ends the process on a message that is neither a control frame nor long enough. -/
theorem incomingFromSessionManagerIf_returns_iff {msg} {ud} :
    (incomingFromSessionManagerIf msg ud).Returns ↔
      (msg.header.isCtrl = false → RouteHeader.SIZE + DataHeader.SIZE ≤ msg.length) := by
  unfold incomingFromSessionManagerIf
  have hsize : RouteHeader.SIZE ≤ msg.length := Nat.le_add_right _ _
  cases hctrl : msg.header.isCtrl with
  | true => simp [hsize]
  | false => simp [hsize]

end Hyperboria.UpperDistributor
