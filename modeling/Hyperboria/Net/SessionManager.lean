/-
`net/SessionManager.c`. On the way up a packet from the switch is a control frame, a
setup packet, which carries the key of its sender, or a run packet, which carries the
handle of a session. Packets of a session are decrypted and passed up with a route
header in place of what was taken off; one that does not decrypt is answered with an
error.

On the way down a message goes out on the label it carries or on the first path of its
session. It is buffered while there is no path or no session, and what is buffered for a
node goes out when the pathfinder tells of the node.

Left out are the timer, which ends sessions nobody has heard from, the counters of traffic,
and the room and position of messages in their buffers.
-/
import Hyperboria.Crypto.CryptoAuth
import Hyperboria.Dht.Address
import Hyperboria.Util.Map
import Hyperboria.Wire.Headers

namespace Hyperboria

namespace Metric

def SM_INCOMING : Nat := 0xff700000
def SM_SEND : Nat := 0xff710000
def NO_INFO : Nat := 0xfffffffe
def DEAD_LINK : Nat := 0xffffffff

end Metric

namespace SessionManager

open CryptoAuth (Context Packet DecryptErr Draw seconds)

/-! ## Sessions and their paths -/

def PATH_COUNT : Nat := 3

/-- `SessionManager_Path_t`. -/
structure Path where
  timeLastValidated : Nat
  label : BitVec 64
  metric : Nat
deriving DecidableEq

/-- `struct SessionManager_Session_pvt`. -/
structure Session (C : Crypto) where
  caSession : CryptoAuth.Session C
  paths : Fin PATH_COUNT → Path
  timeOfLastUsage : Nat
  receiveHandle : Nat
  sendHandle : Nat
  version : Nat
  foundKey : Bool

/-- `struct BufferedMessage`. -/
structure BufferedMessage where
  msg : Routed
  timeSentMilliseconds : Nat

/-- `struct SessionManager_pvt`. The map of buffered messages has no handles, and nothing depends on its
order. -/
structure State (C : Crypto) where
  cryptoAuth : Context
  bufMap : List (List UInt8 × BufferedMessage)
  ifaceMap : Map (List UInt8) (Session C)
  firstHandle : Nat

/-- The events of `enum PFChan_Core` that carry a `struct PFChan_Node` and are emitted here. -/
inductive Event where
  | session
  | discoveredPath
  | unsetupSession
deriving DecidableEq

/-- `struct PFChan_Node`. -/
structure Node where
  path : BitVec 64
  metric : Nat
  version : Nat
  ip6 : List UInt8
  publicKey : Key

/-- The frame that answers a packet which does not decrypt: where it goes, the switch header and the first
bytes of that packet, why it was dropped and how the session stands. -/
structure ErrorFrame where
  label : BitVec 64
  cause : Switch.SwitchHeader
  firstSixteen : List UInt8
  err : DecryptErr
  state : CryptoAuth.State

/-- What goes out: to the pathfinder, to the upper layers, to the switch. -/
inductive Out where
  | event (ev : Event) (node : Node)
  /-- `PFChan_Core_SEARCH_REQ` -/
  | search (target : List UInt8) (version : Nat)
  | inside (msg : Routed)
  | toSwitch (frame : ErrorFrame)

variable {C : Crypto}

def sendSession (ev : Event) (sess : Session C) (path : Path) : Out :=
  .event ev
    { path := path.label
      metric := path.metric
      version := sess.version
      ip6 := C.addressForPublicKey sess.caSession.herPublicKey
      publicKey := sess.caSession.herPublicKey }

/-- `effectiveMetric`: a path gets worse by one every millisecond. -/
def effectiveMetric (now : Nat) (path : Path) : Nat :=
  let x : Int := now - path.timeLastValidated + path.metric
  if x > Metric.NO_INFO then Metric.NO_INFO else (x % 2 ^ 32).toNat

def pathForLabel (sess : Session C) (label : BitVec 64) : Option (Fin PATH_COUNT) :=
  (List.finRange PATH_COUNT).find? fun i => (sess.paths i).label = label

def worstPath (now : Nat) (sess : Session C) : Fin PATH_COUNT :=
  ((List.finRange PATH_COUNT).foldl
    (fun (worst : Nat × Fin PATH_COUNT) i =>
      let em := effectiveMetric now (sess.paths i)
      if em > worst.1 then (em, i) else worst)
    (0, ⟨0, by decide⟩)).2

/-- `rerankPaths`: the best path is swapped to the front. -/
def rerankPaths (now : Nat) (sess : Session C) : Session C :=
  let first : Fin PATH_COUNT := ⟨0, by decide⟩
  let bestI := ((List.finRange PATH_COUNT).foldl
    (fun (best : Nat × Fin PATH_COUNT) i =>
      let em := effectiveMetric now (sess.paths i)
      if em < best.1 then (em, i) else best)
    (Metric.DEAD_LINK, first)).2
  if bestI ≠ first then
    { sess with
      paths := Function.update (Function.update sess.paths first (sess.paths bestI)) bestI (sess.paths first) }
  else sess

/-- The first path of a session. -/
def firstPath (sess : Session C) : Path := sess.paths ⟨0, by decide⟩

/-- `discoverPath`: whether the path is an improvement, the session, and what the pathfinder is told. -/
def discoverPath (now : Nat) (sess : Session C) (label : BitVec 64) (metric : Nat) : Bool × Session C × List Out :=
  if label = 0 then (false, sess, [])
  else
    let fresh : Path := { timeLastValidated := now, label, metric }
    match pathForLabel sess label with
    | some i =>
      if metric ≠ Metric.DEAD_LINK ∧ effectiveMetric now (sess.paths i) ≤ metric then (false, sess, [])
      else
        let sess := rerankPaths now { sess with paths := Function.update sess.paths i fresh }
        ((firstPath sess).label = label, sess, [])
    | none =>
      let i := worstPath now sess
      if effectiveMetric now (sess.paths i) ≤ metric then (false, sess, [])
      else
        let sess := rerankPaths now { sess with paths := Function.update sess.paths i fresh }
        if (firstPath sess).label = label then (true, sess, [sendSession .discoveredPath sess (firstPath sess)])
        else (false, sess, [])

/-! ## Finding a session -/

/-- `check`, of the session under a key of the map. -/
def check (ip6 : List UInt8) (ssp : Session C) : Er (Session C) :=
  if ssp.foundKey then .ret ssp
  else if ssp.caSession.herPublicKey.isZero then .ret ssp
  else do
    .assertTrue (ip6 = C.addressForPublicKey ssp.caSession.herPublicKey)
      "!Bits_memcmp(&sm->ifaceMap.keys[mapIndex], ip6, 16)"
    .ret { ssp with foundKey := true }

/-- The session at an index of the map, checked, and the map with it. -/
def sessionAt (index : Option Nat) (sm : State C) : Er (Option (Nat × Session C × State C)) :=
  match index.bind fun i => sm.ifaceMap.entries[i]?.map fun e => (i, e) with
  | none => .ret none
  | some (i, e) => do
    let sess ← check e.key e.value
    .ret (some (i, sess, { sm with ifaceMap := sm.ifaceMap.set i sess }))

def sessionForHandle (handle : Nat) (sm : State C) : Er (Option (Nat × Session C × State C)) :=
  sessionAt (sm.ifaceMap.indexForHandle ((handle + 2 ^ 32 - sm.firstHandle) % 2 ^ 32)) sm

def sessionForIp6 (ip6 : List UInt8) (sm : State C) : Er (Option (Nat × Session C × State C)) :=
  sessionAt (sm.ifaceMap.indexForKey ip6) sm

/-- A session for a node nobody has written to: `getSession` from the allocation on. -/
def addSession (now : Nat) (ip6 : List UInt8) (pubKey : Key) (version : Nat) (label : BitVec 64) (metric : Nat)
    (sm : State C) : Er (Nat × Session C × State C × List Out) := do
  let foundKey := !pubKey.isZero
  .assertTrue (!foundKey || C.addressForPublicKey pubKey = ip6) "!Bits_memcmp(realIp6, ip6, 16)"
  let first : Path := { timeLastValidated := now, label, metric }
  let blank : Path := { timeLastValidated := 0, label := 0, metric := 0 }
  let sess : Session C :=
    { caSession := CryptoAuth.newSession C (seconds now) pubKey false
      paths := fun i => if i.val = 0 then first else blank
      timeOfLastUsage := 0
      receiveHandle := 0
      sendHandle := 0
      version
      foundKey }
  let (index, ifaceMap) := sm.ifaceMap.put ip6 sess
  let sess := { sess with receiveHandle := (ifaceMap.handles.getD index 0 + sm.firstHandle) % 2 ^ 32 }
  let out := sendSession .session sess (firstPath sess)
  let sess ← check ip6 sess
  .ret (index, sess, { sm with ifaceMap := ifaceMap.set index sess }, [out])

def getSession (now : Nat) (ip6 : List UInt8) (pubKey : Key) (version : Nat) (label : BitVec 64) (metric : Nat)
    (sm : State C) : Er (Nat × Session C × State C × List Out) := do
  .assertTrue (AddressCalc.validAddress ip6) "AddressCalc_validAddress(ip6)"
  let metric := if label = 0 then Metric.DEAD_LINK else metric
  let found ← sessionForIp6 ip6 sm
  match found with
  | some (index, sess, sm) =>
    let sess := { sess with version := if sess.version ≠ 0 then sess.version else version }
    let (better, sess, outs) := discoverPath now sess label metric
    let sess := if better then { sess with version := if version ≠ 0 then version else sess.version } else sess
    .ret (index, sess, { sm with ifaceMap := sm.ifaceMap.set index sess }, outs)
  | none => addSession now ip6 pubKey version label metric sm

/-! ## Packets from the switch -/

/-- A packet from the switch: its header, and what comes after it. These bytes are read as a setup packet,
and from the handle on as a run packet or a control frame. -/
structure Incoming (C : Crypto) where
  length : Nat
  switchHeader : Switch.SwitchHeader
  nonceOrHandle : Nat
  firstSixteen : List UInt8
  setup : Packet C
  run : Packet C
  ctrl : List UInt8
  setup_nonce : setup.nonce = nonceOrHandle
  setup_length : setup.length = length - 12
  run_length : run.length = length - 16
  ctrl_length : ctrl.length = length - 16

/-- `SessionManager_new`. -/
def State.new (C : Crypto) (cryptoAuth : Context) (firstHandle : Nat) : State C :=
  { cryptoAuth, bufMap := [], ifaceMap := .new, firstHandle }

/-- The label a packet came with, turned around: the path to its sender. -/
def Incoming.label (msg : Incoming C) : BitVec 64 := Bits.bitReverse64 msg.switchHeader.label

/-- What `CryptoAuth_decrypt` is given. -/
def Incoming.packet (msg : Incoming C) : Packet C := if msg.nonceOrHandle > 3 then msg.run else msg.setup

/-- What becomes of a packet before it is decrypted. -/
inductive Addressed (C : Crypto) where
  | drop (sm : State C)
  | found (index : Nat) (session : Session C) (sm : State C) (outs : List Out)

def ctrlFrame (msg : Incoming C) : Out :=
  .inside
    { header :=
        { publicKey := .zero
          sh := { msg.switchHeader with label := msg.label }
          version := 0
          flags := RouteHeader.INCOMING ||| RouteHeader.CTRLMSG
          ip6 := List.replicate 16 0 }
      payload := msg.ctrl }

/-- `failedDecrypt`, with the message `incomingFromSwitchIf` makes of the packet. -/
def failedDecrypt (err : DecryptErr) (session : Session C) (msg : Incoming C) : Out :=
  .toSwitch
    { label := msg.label
      cause := msg.switchHeader
      firstSixteen := msg.firstSixteen
      err
      state := CryptoAuth.getState session.caSession }

/-- The session of a run packet: the one of its handle. -/
def addressRun (msg : Incoming C) (sm : State C) : Er (Addressed C) := do
  let found ← sessionForHandle msg.nonceOrHandle sm
  match found with
  | none => .ret (.drop sm)
  | some (index, session, sm) =>
    -- a setup message with a handle
    if msg.run.nonce < 4 then .ret (.drop sm)
    else .ret (.found index session sm [])

/-- The session of a setup packet: the one of the key it carries. -/
def addressSetup (now : Nat) (msg : Incoming C) (sm : State C) : Er (Addressed C) :=
  if msg.setup.length < 120 + 4 then .ret (.drop sm)
  else
    let ip6 := C.addressForPublicKey msg.setup.publicKey
    if !AddressCalc.validAddress ip6 then .ret (.drop sm)
    else if msg.setup.publicKey = sm.cryptoAuth.publicKey then .ret (.drop sm)
    else do
      let (index, session, sm, outs) ← getSession now ip6 msg.setup.publicKey 0 msg.label Metric.SM_INCOMING sm
      let caSession ← CryptoAuth.resetIfTimeout (seconds now) session.caSession
      .ret (.found index { session with caSession } sm outs)

/-- The session a packet belongs to. -/
def address (now : Nat) (msg : Incoming C) (sm : State C) : Er (Addressed C) :=
  if msg.nonceOrHandle > 3 then addressRun msg sm else addressSetup now msg sm

/-- The plaintext of a setup packet begins with the handle the other end wants to be called by. -/
def popHandle (msg : Incoming C) (session : Session C) (content : List UInt8) : Er (Session C × List UInt8) :=
  if msg.nonceOrHandle ≤ 3 then do
    .assertTrue (4 ≤ content.length) "buffer underflow"
    let sendHandle := (content.take 4).foldl (fun n b => n * 256 + b.toNat) 0
    .ret ({ session with sendHandle }, content.drop 4)
  else .ret (session, content)

/-- `incomingFromSwitchIf`, once a packet of a session has been decrypted. -/
def passUp (now : Nat) (msg : Incoming C) (index : Nat) (session : Session C) (content : List UInt8)
    (sm : State C) : Er (State C × List Out) := do
  let (session, payload) ← popHandle msg session content
  -- the length is that of the message with the route header in front of it
  .assertTrue (RouteHeader.SIZE + payload.length ≥ DataHeader.SIZE) "msg->length >= DataHeader_SIZE"
  let up : Routed :=
    { header :=
        { publicKey := session.caSession.herPublicKey
          sh := { msg.switchHeader with label := msg.label }
          version := session.version
          flags := RouteHeader.INCOMING
          ip6 := C.addressForPublicKey session.caSession.herPublicKey }
      payload }
  let (_, session, outs) := discoverPath now session msg.label Metric.SM_INCOMING
  .ret ({ sm with ifaceMap := sm.ifaceMap.set index session }, outs ++ [.inside up])

def incomingFromSwitchIf (now : Nat) (msg : Incoming C) (sm : State C) : Er (State C × List Out) :=
  -- switch header, handle
  if msg.length < Switch.SwitchHeader_SIZE + 4 then .ret (sm, [])
  else if msg.nonceOrHandle = 0xffffffff then .ret (sm, [ctrlFrame msg])
  -- handle, small cryptoAuth header
  else if msg.length - Switch.SwitchHeader_SIZE < 4 + 20 then .ret (sm, [])
  else do
    .assertTrue (msg.length - Switch.SwitchHeader_SIZE ≥ 16) "msg->length >= 16"
    let addressed ← address now msg sm
    match addressed with
    | .drop sm => .ret (sm, [])
    | .found index session sm outs => do
      let (err, caSession, content) ← CryptoAuth.decrypt sm.cryptoAuth (seconds now) session.caSession msg.packet
      let session := { session with caSession }
      if err ≠ .none then
        .ret ({ sm with ifaceMap := sm.ifaceMap.set index session }, outs ++ [failedDecrypt err session msg])
      else do
        let (sm, outs') ← passUp now msg index session content sm
        .ret (sm, outs ++ outs')

/-! ## Buffers and searches -/

def MAX_BUFFERED_MESSAGES_DEFAULT : Nat := 30

def checkTimedOutBuffers (now : Nat) (sm : State C) : State C :=
  { sm with bufMap := sm.bufMap.filter fun e => now - e.2.timeSentMilliseconds < 10000 }

def unsetupSession (sess : Session C) : Er (List Out) :=
  -- it's not ok to send traffic without a version and path
  if sess.version = 0 ∨ (firstPath sess).metric = Metric.DEAD_LINK then .ret []
  else do
    .assertTrue ((firstPath sess).label ≠ 0) "n.path_be"
    .ret [sendSession .unsetupSession sess (firstPath sess)]

def bufferPacket (now : Nat) (msg : Routed) (sm : State C) : Er (State C) := do
  .assertTrue (msg.length ≥ RouteHeader.SIZE + DataHeader.SIZE) "msg->length >= (RouteHeader_SIZE + DataHeader_SIZE)"
  .assertTrue (DataHeader.getContentType msg.payload ≠ ContentType.HYPERBORIADHT)
    "DataHeader_getContentType(dataHeader) != ContentType_HYPERBORIADHT"
  let sm := { sm with bufMap := sm.bufMap.filter fun e => e.1 ≠ msg.header.ip6 }
  let sm := if sm.bufMap.length ≥ MAX_BUFFERED_MESSAGES_DEFAULT then checkTimedOutBuffers now sm else sm
  if sm.bufMap.length ≥ MAX_BUFFERED_MESSAGES_DEFAULT then .ret sm
  else .ret { sm with bufMap := sm.bufMap ++ [(msg.header.ip6, { msg, timeSentMilliseconds := now })] }

def needsLookup (now : Nat) (msg : Routed) (sm : State C) : Er (State C × List Out) := do
  let sm ← bufferPacket now msg sm
  .ret (sm, [.search msg.header.ip6 msg.header.version])

/-! ## Messages to the switch -/

/-- What goes to the switch: a control frame as it is, or a packet of a session, which a handle is put before
once the session is set up. -/
inductive Sent (C : Crypto) where
  | nothing
  | ctrl (sh : Switch.SwitchHeader) (payload : List UInt8)
  | data (sh : Switch.SwitchHeader) (handle : Option Nat) (packet : Packet C)

def outgoingCtrlFrame (msg : Routed) : Sent C :=
  if !msg.header.publicKey.isZero ∨ ¬ msg.header.ip6.all (· = 0) then .nothing
  else if !msg.header.isCtrl then .nothing
  else .ctrl msg.header.sh msg.payload

/-- The bytes `Message_epush32be` writes. -/
def epush32be (n : Nat) : List UInt8 :=
  [.ofNat (n / 2 ^ 24), .ofNat (n / 2 ^ 16), .ofNat (n / 2 ^ 8), .ofNat n]

/-- The header of a packet that is sent to a label. -/
def headerTo (label : BitVec 64) : Switch.SwitchHeader :=
  Switch.SwitchHeader.setVersion
    { label, congestAndSuppressErrors := 0, versionAndLabelShift := 0, trafficClass := 0 } 1

def readyToSend (now : Nat) (draw : Draw) (msg : Routed) (ca : Context) (sess : Session C) :
    Er (Session C × Sent C) := do
  let caSession ← CryptoAuth.resetIfTimeout (seconds now) sess.caSession
  -- the handle is put into a handshake packet, so that it is authenticated
  let content := if caSession.nextNonce < 4 then epush32be sess.receiveHandle ++ msg.payload else msg.payload
  let (caSession, packet) ← CryptoAuth.encrypt ca (seconds now) draw caSession content
  let handle := if caSession.nextNonce ≥ 4 then some sess.sendHandle else none
  let sh := if msg.header.sh.label = 0 then headerTo (firstPath sess).label else msg.header.sh
  .ret ({ sess with caSession }, .data sh handle packet)

/-- The session `incomingFromInsideIf` sends a message in. -/
def sessionForHeader (now : Nat) (header : RouteHeader) (sm : State C) :
    Er (Option (Nat × Session C × State C × List Out)) := do
  let found ← sessionForIp6 header.ip6 sm
  match found with
  | some (index, sess, sm) => .ret (some (index, sess, sm, []))
  | none =>
    if !header.publicKey.isZero ∧ header.version ≠ 0 then do
      let metric := if header.sh.label ≠ 0 then Metric.SM_SEND else Metric.DEAD_LINK
      let found ← getSession now header.ip6 header.publicKey header.version header.sh.label metric sm
      .ret (some found)
    else .ret none

/-- The message with the label `incomingFromInsideIf` sends it to. -/
def labelled (msg : Routed) (sess : Session C) : Option Routed :=
  if msg.header.sh.label ≠ 0 then some msg
  else if (firstPath sess).metric < Metric.DEAD_LINK then
    some { msg with header := { msg.header with sh := headerTo (firstPath sess).label } }
  else none

/-- `incomingFromInsideIf`, once the message has a label. -/
def sendTo (now : Nat) (draw : Draw) (msg : Routed) (index : Nat) (sess : Session C) (sm : State C) :
    Er (State C × List Out × Sent C) := do
  let caSession ← CryptoAuth.resetIfTimeout (seconds now) sess.caSession
  let sess := { sess with caSession }
  let sm := { sm with ifaceMap := sm.ifaceMap.set index sess }
  -- only dht messages are sent until the session is set up
  if caSession.nextNonce < 4 ∧ DataHeader.getContentType msg.payload ≠ ContentType.HYPERBORIADHT then do
    let sm ← bufferPacket now msg sm
    let outs ← unsetupSession sess
    .ret (sm, outs, .nothing)
  else do
    let outs ← (if caSession.nextNonce < 4 ∧ sess.timeOfLastUsage ≠ 0 then unsetupSession sess else .ret [])
    let (sess, sent) ← readyToSend now draw msg sm.cryptoAuth sess
    .ret ({ sm with ifaceMap := sm.ifaceMap.set index sess }, outs, sent)

/-- `incomingFromInsideIf`, in a session. -/
def sendIn (now : Nat) (draw : Draw) (msg : Routed) (index : Nat) (sess : Session C) (sm : State C) :
    Er (State C × List Out × Sent C) :=
  let timeOfLastUsage := if msg.header.isPathfinder then sess.timeOfLastUsage else now
  let version := if msg.header.version ≠ 0 then msg.header.version else sess.version
  let sess := { sess with timeOfLastUsage, version }
  let sm := { sm with ifaceMap := sm.ifaceMap.set index sess }
  match if version = 0 then none else labelled msg sess with
  | none => do
    let (sm, outs) ← needsLookup now msg sm
    .ret (sm, outs, .nothing)
  | some msg => sendTo now draw msg index sess sm

def incomingFromInsideIf (now : Nat) (draw : Draw) (msg : Routed) (sm : State C) :
    Er (State C × List Out × Sent C) :=
  if msg.header.isCtrl then .ret (sm, [], outgoingCtrlFrame msg)
  else do
    .assertTrue (msg.length ≥ RouteHeader.SIZE + DataHeader.SIZE) "msg->length >= RouteHeader_SIZE + DataHeader_SIZE"
    let found ← sessionForHeader now msg.header sm
    match found with
    | none => do
      let (sm, outs) ← needsLookup now msg sm
      .ret (sm, outs, .nothing)
    | some (index, sess, sm, outs) => do
      let (sm, outs', sent) ← sendIn now draw msg index sess sm
      .ret (sm, outs ++ outs', sent)

/-! ## Messages from the pathfinder -/

/-- The events of `enum PFChan_Pathfinder` the session layer is registered for. -/
inductive Told where
  | sessions
  | node (node : Node) (metric_lt : node.metric < 2 ^ 32)

def sessions (sm : State C) : List Out :=
  sm.ifaceMap.entries.map fun e => sendSession .session e.value (firstPath e.value)

def incomingFromEventIf (now : Nat) (draw : Draw) (ev : Told) (sm : State C) : Er (State C × List Out × Sent C) :=
  match ev with
  | .sessions => .ret (sm, sessions sm, .nothing)
  | .node node _ => do
    let buffered := sm.bufMap.lookup node.ip6
    let found ← sessionForIp6 node.ip6 sm
    -- a node we don't care about, or a broken path to one we don't have a session for
    if found.isNone ∧ (buffered.isNone ∨ node.metric = Metric.DEAD_LINK) then .ret (sm, [], .nothing)
    else do
      let (index, sess, sm, outs) ←
        getSession now node.ip6 node.publicKey node.version node.path node.metric sm
      match buffered with
      | none => .ret (sm, outs, .nothing)
      | some bm =>
        if sess.caSession.nextNonce < 4 then .ret (sm, outs, .nothing)
        else do
          let (sess, sent) ← readyToSend now draw bm.msg sm.cryptoAuth sess
          .ret ({ sm with
            ifaceMap := sm.ifaceMap.set index sess
            bufMap := sm.bufMap.filter fun e => e.1 ≠ node.ip6 }, outs, sent)

end SessionManager

end Hyperboria
