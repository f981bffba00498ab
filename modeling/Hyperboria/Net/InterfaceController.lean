/-
`net/InterfaceController.c`: what happens to a message that comes in from the wire.
A message of a peer that is known is decrypted with its session. A message from an
address nobody has written from is a beacon, or it may be the hello of a new peer: a
session is made for the public key it names before anything is known of it.

Then what else changes a peer: the pings, which find out that a peer does not answer
and forget it, the messages the switch sends to it, and the requests of the
administrator.

Left out are the counters of traffic and the times only the statistics read, the
timestamps of packets, which are only logged, and the beacons that are sent out. The
build is the default one, without `SUBNODE`.
-/
import Hyperboria.Crypto.CryptoAuth
import Hyperboria.Dht.Address
import Hyperboria.Switch.SwitchCore
import Hyperboria.Util.Map

namespace Hyperboria

namespace InterfaceController

open CryptoAuth

/-- `struct Sockaddr` with the native address after it. -/
structure Sockaddr where
  flags : UInt8
  type : UInt8
  prefixLen : UInt8
  native : List UInt8
deriving DecidableEq

/-- `Sockaddr_OVERHEAD` and the native address. -/
def Sockaddr.addrLen (addr : Sockaddr) : Nat := 8 + addr.native.length

/-- `flags & Sockaddr_flags_BCAST`. -/
def Sockaddr.bcast (addr : Sockaddr) : Bool := addr.flags &&& 1 ≠ 0

/-- `struct Headers_Beacon`. -/
structure Beacon where
  version : Nat
  password : List UInt8
  publicKey : Key

/-- A message as an interface hands it up: where it lies in memory, the address of the sender, and what
comes after it, which is read as a message of `CryptoAuth` or as a beacon. The interfaces take care that
the bytes are aligned, in front and by the size of the buffer. -/
structure Datagram (C : Crypto) where
  address : Nat
  capacity : Nat
  length : Nat
  lladdr : Sockaddr
  content : Packet C
  beacon : Beacon
  aligned : address % 4 = 0 ∧ capacity % 4 = 0 ∧ lladdr.addrLen % 4 = 0
  content_length : content.length = length - lladdr.addrLen

/-- `enum InterfaceController_PeerState`. -/
inductive PeerState where
  | ca (state : CryptoAuth.State)
  | unresponsive
  | unauthenticated
  | incompatible
deriving DecidableEq

/-- The number behind a state. -/
def PeerState.value : PeerState → Int
  | .ca .init => 0
  | .ca .sentHello => 1
  | .ca .receivedHello => 2
  | .ca .sentKey => 3
  | .ca .receivedKey => 4
  | .ca .established => 100
  | .unresponsive => -1
  | .unauthenticated => -2
  | .incompatible => -3

/-- `enum InterfaceController_BeaconState`. -/
inductive BeaconState where
  | disabled
  | accepting
  | sending
deriving DecidableEq

/-- `struct Peer`; `slot` is the interface of the switch that `switchIf` is plumbed to. -/
structure Peer (C : Crypto) where
  slot : Nat
  caSession : Session C
  lladdr : Sockaddr
  addr : Address
  timeOfLastMessage : Nat
  timeOfLastPing : Nat
  pingCount : Nat
  handle : Nat
  isIncomingConnection : Bool
  state : PeerState

/-- The controller and one of its interfaces. -/
structure Iface (C : Crypto) where
  ca : Context
  switchCore : Switch.SwitchCore
  unresponsiveAfterMilliseconds : Nat
  pingAfterMilliseconds : Nat
  forgetAfterMilliseconds : Nat
  beaconState : BeaconState
  peerMap : Map Sockaddr (Peer C)
  lastPeerPinged : Nat

/-- `InterfaceController_newIface` in a node that has no other interface. -/
def Iface.new (C : Crypto) (ca : Context) : Iface C :=
  { ca, switchCore := .new, unresponsiveAfterMilliseconds := 20 * 1024, pingAfterMilliseconds := 3 * 1024
    forgetAfterMilliseconds := 256 * 1024, beaconState := .disabled, peerMap := .new, lastPeerPinged := 0 }

/-- `PFChan_Core_PEER` and `PFChan_Core_PEER_GONE`. -/
inductive PeerEvent where
  | peer
  | peerGone
deriving DecidableEq

/-- What goes out: a message to the pathfinder, a ping to a peer, and what the switch gets. -/
inductive Out where
  | event (ev : PeerEvent) (addr : Address) (latency : Nat)
  | ping (path : BitVec 64)
  | toSwitch (slot : Nat) (content : List UInt8)
deriving DecidableEq

variable {C : Crypto}

/-! ## Peers -/

def sendPeer (ev : PeerEvent) (peer : Peer C) (latency : Nat) : Er (List Out) :=
  if peer.addr.protocolVersion = 0 then .ret []
  else if !Version.isCompatible peer.addr.protocolVersion Version.CURRENT_PROTOCOL then .ret []
  else do
    .assertTrue (ev = .peerGone || peer.addr.protocolVersion ≠ 0) "peer->addr.protocolVersion"
    .ret [.event ev peer.addr latency]

/-- The assertion holds: peers of no version have been sorted out. -/
theorem sendPeer_returns (ev : PeerEvent) (peer : Peer C) (latency : Nat) : (sendPeer ev peer latency).Returns := by
  unfold sendPeer
  split
  · exact Er.returns_ret _
  next hversion =>
  split
  · exact Er.returns_ret _
  · simp [hversion]

/-- `sendPing`: the pinger sends it later. -/
def sendPing (ep : Peer C) : Peer C × List Out :=
  ({ ep with pingCount := uint32 (ep.pingCount + 1) }, [.ping ep.addr.path])

/-- `closeInterface`, which freeing a peer runs. A peer is known by its handle. -/
def closeInterface (toClose : Peer C) (ici : Iface C) : Er (Iface C × List Out) := do
  let outs ← sendPeer .peerGone toClose 0xffff
  match ici.peerMap.indexForHandle toClose.handle with
  | none => .abort "index >= 0"
  | some index => do
    .assertTrue (ici.peerMap.entries[index]?.any fun e => e.value.handle = toClose.handle)
      "toClose->ici->peerMap.values[index] == toClose"
    .ret ({ ici with peerMap := ici.peerMap.remove index }, outs)

/-- A peer is put in the map and learns its handle: its index, the peer and the map. -/
def putPeer (ep : Peer C) (peerMap : Map Sockaddr (Peer C)) : Nat × Peer C × Map Sockaddr (Peer C) :=
  let (index, peerMap) := peerMap.put ep.lladdr ep
  let ep := { ep with handle := peerMap.handles.getD index 0 }
  (index, ep, peerMap.set index ep)

/-! ## Messages from the wire -/

/-- `CryptoAuth_decrypt`, with what it asserts of a message that lies at `address` in a buffer of
`capacity` bytes. -/
def decryptAt (address capacity : Nat) (ca : Context) (now : Nat) (session : Session C) (msg : Packet C) :
    Er (Decrypted C) :=
  if msg.length < 20 then decrypt ca now session msg
  else do
    .assertTrue (address % 4 = 0) "alignment fault"
    .assertTrue (capacity % 4 = 0) "length fault"
    decrypt ca now session msg

/-- The state of a peer and of its interface at the switch after a message came through `CryptoAuth`; and
whether the message is dropped, and the pings it leads to. -/
def track (now : Nat) (content : List UInt8) (ep : Peer C) (core : Switch.SwitchCore) :
    Peer C × Switch.SwitchCore × Bool × List Out :=
  let caState := getState ep.caSession
  if ep.state.value < (PeerState.ca .established).value then
    let ep := { ep with
      state := .ca caState
      addr := { ep.addr with key := ep.caSession.herPublicKey }.getPrefix C }
    let core := core.setInterfaceState ep.slot .up
    if caState ≠ .established then
      -- only messages to this very router are let through
      if content.length < 8 ∨ content.getD 7 0 ≠ 1 then (ep, core, true, [])
      else if uint32 (ep.pingCount + 1) % 7 ≠ 0 then
        let (ep, pings) := sendPing ep
        (ep, core, false, pings)
      else (ep, core, false, [])
    else (ep, core, false, [])
  else if ep.state = .unresponsive ∧ caState = .established then
    ({ ep with state := .ca .established }, core.setInterfaceState ep.slot .up, false, [])
  else ({ ep with timeOfLastMessage := now }, core, false, [])

/-- `receivedPostCryptoAuth`, for the peer at `index` and a message in a buffer of `capacity` bytes. -/
def receivedPostCryptoAuth (now capacity : Nat) (content : List UInt8) (index : Nat) (ep : Peer C)
    (ici : Iface C) : Er (Iface C × List Out) :=
  let (ep, switchCore, dropped, pings) := track now content ep ici.switchCore
  let ici := { ici with switchCore, peerMap := ici.peerMap.set index ep }
  if dropped then .ret (ici, pings)
  else do
    .assertTrue (capacity % 4 = 0) "!(msg->capacity % 4)"
    .ret (ici, pings ++ [.toSwitch ep.slot content])

/-- `timeOfLastMessage` of a peer that has just been made: long enough ago that it is pinged at once. -/
def timeOfNewPeer (now : Nat) (ici : Iface C) : Nat := (now + 2 ^ 64 - ici.pingAfterMilliseconds - 1) % 2 ^ 64

/-- `Message_eshift(msg, -lladdr->addrLen)`. -/
def Datagram.shiftAddress (msg : Datagram C) : Er Unit :=
  .assertTrue (msg.lladdr.addrLen ≤ msg.length) "buffer underflow"

/-- `struct Peer` as `Allocator_calloc` leaves it, with the session and the address it begins with. -/
def Peer.new (caSession : Session C) (lladdr : Sockaddr) : Peer C :=
  { slot := 0, caSession, lladdr, addr := .zero, timeOfLastMessage := 0, timeOfLastPing := 0, pingCount := 0
    handle := 0, isIncomingConnection := false, state := .ca .init }

/-- `handleBeacon`, once the beacon has been found to be that of a node at `addr`. -/
def acceptBeacon (now : Nat) (lladdr : Sockaddr) (password : List UInt8) (addr : Address) (ici : Iface C) :
    Er (Iface C × List Out) :=
  match ici.peerMap.indexForKey lladdr with
  | some index =>
    -- the password might have changed
    .ret ({ ici with
      peerMap := { ici.peerMap with
        entries := ici.peerMap.entries.modify index fun e =>
          { e with value := { e.value with caSession := setAuth (some password) none e.value.caSession } } } }, [])
  | none =>
    let caSession := setAuth (some password) none (newSession C (seconds now) addr.key false)
    let (index, ep, peerMap) := putPeer
      { Peer.new caSession lladdr with isIncomingConnection := true, addr } ici.peerMap
    let ici := { ici with peerMap }
    match ici.switchCore.addInterface with
    | none => closeInterface ep ici
    | some (slot, path, switchCore) => do
      let ep := { ep with slot, addr := { ep.addr with path }, timeOfLastMessage := timeOfNewPeer now ici }
      let outs ← sendPeer .peer ep 0xffff
      .ret ({ ici with switchCore, peerMap := ici.peerMap.set index ep }, outs)

def handleBeacon (now : Nat) (msg : Datagram C) (ici : Iface C) : Er (Iface C × List Out) :=
  if ici.beaconState = .disabled then .ret (ici, [])
  else if msg.length < 8 then .ret (ici, [])
  else if msg.length < msg.lladdr.addrLen + 56 then .ret (ici, [])
  else do
    -- clear the bcast flag
    let lladdr := { msg.lladdr with flags := 0 }
    msg.shiftAddress
    .assertTrue (56 ≤ msg.length - msg.lladdr.addrLen) "buffer underflow"
    let addr := { Address.zero with key := msg.beacon.publicKey, protocolVersion := msg.beacon.version }.getPrefix C
    if !AddressCalc.validAddress addr.ip6 then .ret (ici, [])
    else if ici.ca.publicKey = addr.key then .ret (ici, [])
    else if !Version.isCompatible addr.protocolVersion Version.CURRENT_PROTOCOL then .ret (ici, [])
    else acceptBeacon now lladdr msg.beacon.password addr ici

/-- `handleUnexpectedIncoming`, once the first message of the peer has been decrypted. -/
def acceptPeer (now capacity : Nat) (lladdr : Sockaddr) (content : List UInt8) (caSession : Session C)
    (ici : Iface C) : Er (Iface C × List Out) := do
  .assertTrue (!caSession.herPublicKey.isZero) "!Bits_isZero(ep->caSession->herPublicKey, 32)"
  .assertTrue (ici.peerMap.indexForKey lladdr).isNone
    "Map_EndpointsBySockaddr_indexForKey(&lladdr, &ici->peerMap) == -1"
  let (index, ep, peerMap) := putPeer
    { Peer.new caSession lladdr with isIncomingConnection := true, state := .unauthenticated } ici.peerMap
  let ici := { ici with peerMap }
  match ici.switchCore.addInterface with
  | none => closeInterface ep ici
  | some (slot, path, switchCore) =>
    let ep := { ep with
      slot
      timeOfLastMessage := timeOfNewPeer now ici
      addr := { ep.addr with
        path, key := caSession.herPublicKey, ip6 := C.addressForPublicKey caSession.herPublicKey } }
    receivedPostCryptoAuth now capacity content index ep { ici with switchCore }

def handleUnexpectedIncoming (now : Nat) (msg : Datagram C) (ici : Iface C) : Er (Iface C × List Out) := do
  msg.shiftAddress
  let address := msg.address + msg.lladdr.addrLen
  let capacity := msg.capacity - msg.lladdr.addrLen
  if msg.content.length < 120 then .ret (ici, [])
  else do
    .assertTrue (address % 4 = 0) "alignment fault"
    -- any packet which is not a setup packet will be summarily dropped
    if 1 < msg.content.nonce then .ret (ici, [])
    else do
      let caSession := newSession C (seconds now) msg.content.publicKey true
      let (err, caSession, content) ← decryptAt address capacity ici.ca (seconds now) caSession msg.content
      -- if the first message is a dud, drop all state for this peer
      if err ≠ .none then .ret (ici, [])
      else acceptPeer now (capacity - headerSize msg.content.nonce) msg.lladdr content caSession ici

/-- `handleIncomingFromWire`, from a peer that is known. -/
def handleKnownPeer (now : Nat) (msg : Datagram C) (index : Nat) (ep : Peer C) (ici : Iface C) :
    Er (Iface C × List Out) := do
  msg.shiftAddress
  let address := msg.address + msg.lladdr.addrLen
  let capacity := msg.capacity - msg.lladdr.addrLen
  -- once we know it to be an incompatible version, we quarantine it
  if ep.addr.protocolVersion ≠ 0 ∧ !Version.isCompatible ep.addr.protocolVersion Version.CURRENT_PROTOCOL then
    .ret (ici, [])
  else do
    let caSession ← resetIfTimeout (seconds now) ep.caSession
    let (err, caSession, content) ← decryptAt address capacity ici.ca (seconds now) caSession msg.content
    let ep := { ep with caSession }
    if err ≠ .none then .ret ({ ici with peerMap := ici.peerMap.set index ep }, [])
    else do
      let gone ←
        if ep.state = .ca .established ∧ getState caSession ≠ .established then sendPeer .peerGone ep 0xffff
        else .ret []
      let (ici, outs) ← receivedPostCryptoAuth now (capacity - headerSize msg.content.nonce) content index ep ici
      .ret (ici, gone ++ outs)

def handleIncomingFromWire (now : Nat) (msg : Datagram C) (ici : Iface C) : Er (Iface C × List Out) :=
  if msg.length < 8 ∨ msg.length < msg.lladdr.addrLen then .ret (ici, [])
  else do
    .assertTrue (msg.address % 4 = 0) "alignment fault"
    .assertTrue (msg.lladdr.addrLen % 4 = 0) "alignment fault"
    if msg.lladdr.bcast then handleBeacon now msg ici
    else
      match ici.peerMap.indexForKey msg.lladdr with
      | none => handleUnexpectedIncoming now msg ici
      | some index =>
        match ici.peerMap.entries[index]? with
        | none => .ret (ici, [])
        | some e => handleKnownPeer now msg index e.value ici

/-! ## Pings -/

/-- The value kept in a `uint64_t`. -/
def uint64 (n : Nat) : Nat := n % 2 ^ 64

/-- The version of the peer is known, and is one we do not talk to. -/
def Peer.incompatible (ep : Peer C) : Bool :=
  ep.addr.protocolVersion ≠ 0 && !Version.isCompatible ep.addr.protocolVersion Version.CURRENT_PROTOCOL

/-- `Allocator_free` of a peer runs `closeInterface` and gives its slot at the switch back. -/
def freePeer (ep : Peer C) (ici : Iface C) : Er (Iface C × List Out) := do
  let (ici, outs) ← closeInterface ep ici
  .ret ({ ici with switchCore := ici.switchCore.removeInterface ep.slot }, outs)

/-- The body of the loop of `iciPing`, for the peer at `index`; `first` is `count == 1`. The first part of
the answer says whether the function returns here. -/
def pingPeer (now : Nat) (first : Bool) (index : Nat) (ep : Peer C) (ici : Iface C) :
    Er (Bool × Iface C × List Out) :=
  let keep (ep : Peer C) : Iface C := { ici with peerMap := ici.peerMap.set index ep }
  if ep.incompatible then .ret (false, keep { ep with state := .incompatible }, [])
  else if ep.addr.protocolVersion ≠ 0 ∧ now < uint64 (ep.timeOfLastMessage + ici.pingAfterMilliseconds) then do
    -- it is sending traffic; the pathfinder may have forgotten it all the same
    let outs ← if first ∧ ep.state = .ca .established then sendPeer .peer ep 0xffff else .ret []
    .ret (false, ici, outs)
  else if now < uint64 (ep.timeOfLastPing + ici.pingAfterMilliseconds) then .ret (false, ici, [])
  else if ep.isIncomingConnection ∧ uint64 (ep.timeOfLastMessage + ici.forgetAfterMilliseconds) < now then do
    let gone ← sendPeer .peerGone ep 0xffff
    let (ici, outs) ← freePeer ep ici
    .ret (false, ici, gone ++ outs)
  else if uint64 (ep.timeOfLastMessage + ici.unresponsiveAfterMilliseconds) < now then
    -- skip 87% of pings when they're really down
    if ep.pingCount % 8 ≠ 0 then .ret (false, keep { ep with pingCount := uint32 (ep.pingCount + 1) }, [])
    else do
      let gone ← sendPeer .peerGone ep 0xffff
      let (ep, pings) := sendPing { ep with state := .unresponsive }
      .ret (true, { keep ep with switchCore := ici.switchCore.setInterfaceState ep.slot .down }, gone ++ pings)
  else
    let (ep, pings) := sendPing ep
    .ret (true, keep ep, pings)

/-- The loop of `iciPing`, which goes round at most `rounds` times: as often as there are peers when it
begins. -/
def pingFrom (now : Nat) : Nat → Nat → Nat → Iface C → Er (Iface C × List Out)
  | 0, _, _, ici => .ret (ici, [])
  | rounds + 1, i, count, ici =>
    if count < ici.peerMap.entries.length then
      let i := (i + 1) % ici.peerMap.entries.length
      match ici.peerMap.entries[i]? with
      | none => .ret (ici, [])
      | some e => do
        let (done, ici, outs) ← pingPeer now (count + 1 = 1) i e.value ici
        if done then .ret (ici, outs)
        else do
          let (ici, more) ← pingFrom now rounds i (count + 1) ici
          .ret (ici, outs ++ more)
    else .ret (ici, [])

def iciPing (now : Nat) (ici : Iface C) : Er (Iface C × List Out) :=
  let count := ici.peerMap.entries.length
  if count = 0 then .ret (ici, [])
  else
    let startAt := uint32 (ici.lastPeerPinged + 1) % count
    pingFrom now count startAt 0 { ici with lastPeerPinged := startAt }

/-- `enum SwitchPinger_Result`. -/
inductive PingResult where
  | ok
  | labelMismatch
  | wrongData
  | errorResponse
  | loopRoute
  | timeout
deriving DecidableEq

/-- `onPingResponse`, for the peer at `index`. -/
def onPingResponse (now : Nat) (res : PingResult) (version milliseconds : Nat) (index : Nat) (ep : Peer C)
    (ici : Iface C) : Er (Iface C × List Out) :=
  if res ≠ .ok then .ret (ici, [])
  else
    let ep := { ep with addr := { ep.addr with protocolVersion := version } }
    if !Version.isCompatible Version.CURRENT_PROTOCOL version then
      .ret ({ ici with peerMap := ici.peerMap.set index ep }, [])
    else do
      let outs ← if ep.state = .ca .established then sendPeer .peer ep (milliseconds % 2 ^ 16) else .ret []
      .ret ({ ici with peerMap := ici.peerMap.set index { ep with timeOfLastPing := now } }, outs)

/-! ## Messages to the wire -/

/-- `sendFromSwitch`, for the peer at `index`: what goes out, and where. `PeerLink` hands a message back as
soon as it has got it. -/
def sendFromSwitch (now : Nat) (draw : Draw) (content : List UInt8) (index : Nat) (ep : Peer C) (ici : Iface C) :
    Er (Iface C × Option (Sockaddr × Packet C)) :=
  if ep.incompatible then .ret (ici, none)
  else do
    let (caSession, packet) ← encrypt ici.ca (seconds now) draw ep.caSession content
    .ret ({ ici with peerMap := ici.peerMap.set index { ep with caSession } }, some (ep.lladdr, packet))

/-! ## Requests of the administrator -/

/-- What `InterfaceController_bootstrapPeer` answers; the interface is there. -/
inductive BootstrapPeer where
  | ok
  | badKey
  | outOfSpace
deriving DecidableEq

def bootstrapPeer (now : Nat) (herPublicKey : Key) (lladdr : Sockaddr) (password : List UInt8)
    (login : Option (List UInt8)) (ici : Iface C) : Er (BootstrapPeer × Iface C × List Out) :=
  if !AddressCalc.validAddress (C.addressForPublicKey herPublicKey) ∨ ici.ca.publicKey = herPublicKey then
    .ret (.badKey, ici, [])
  else
    let caSession := setAuth (some password) login (newSession C (seconds now) herPublicKey false)
    let (index, ep, peerMap) := putPeer
      { Peer.new caSession lladdr with addr := { Address.zero with key := herPublicKey }.getPrefix C } ici.peerMap
    let ici := { ici with peerMap }
    match ici.switchCore.addInterface with
    | none => do
      let (ici, outs) ← closeInterface ep ici
      .ret (.outOfSpace, ici, outs)
    | some (slot, path, switchCore) =>
      let (ep, pings) := sendPing
        { ep with slot, addr := { ep.addr with path }, timeOfLastMessage := timeOfNewPeer now ici }
      .ret (.ok, { ici with switchCore, peerMap := ici.peerMap.set index ep }, pings)

/-- `InterfaceController_resetPeering`, of all peers if no key is given. -/
def resetPeering (herPublicKey : Option Key) (ici : Iface C) : Iface C :=
  { ici with
    peerMap := { ici.peerMap with
      entries := ici.peerMap.entries.map fun e =>
        if herPublicKey.all (· = e.value.caSession.herPublicKey) then
          { e with value := { e.value with caSession := reset e.value.caSession } }
        else e } }

/-- `InterfaceController_disconnectPeer`; `false` is `NOTFOUND`. -/
def disconnectPeer (herPublicKey : Key) (ici : Iface C) : Er (Bool × Iface C × List Out) :=
  match ici.peerMap.entries.find? fun e => herPublicKey = e.value.caSession.herPublicKey with
  | none => .ret (false, ici, [])
  | some e => do
    let (ici, outs) ← freePeer e.value ici
    .ret (true, ici, outs)

def beaconState (newState : BeaconState) (ici : Iface C) : Iface C := { ici with beaconState := newState }

end InterfaceController

end Hyperboria
