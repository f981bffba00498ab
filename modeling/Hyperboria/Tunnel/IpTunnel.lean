/-
`tunnel/IpTunnel.c` and `util/Checksum.h`: addresses for other nodes, and from other nodes. A
connection that we allow (incoming) has the addresses we grant its node; on one that we made
(outgoing) the other node offers us addresses. Messages from a node go to the TUN device if their
address is right for its connection; a message between zero addresses is a control message, with
an offer of addresses or a request for them.

Not here: the routes and addresses set on the TUN device, packets from the TUN device, and the
timer that asks for addresses again. The host is little endian.
-/
import Hyperboria.Benc.BencMessageReader
import Hyperboria.Dht.ReplySerializer

namespace Hyperboria

/-! ## Checksums -/

namespace Checksum

def step : List UInt8 → Nat → Nat
  | [], state => state
  | [b], state => state + b.toNat
  | b :: b' :: buffer, state => step buffer (state + b.toNat + 256 * b'.toNat)

/-- The loop of `Checksum_complete_be`; each turn makes the number smaller. -/
def fold : Nat → Nat → Nat
  | 0, state => state
  | n + 1, state => if state > 0xffff then fold n ((state >>> 16) + (state &&& 0xffff)) else state

def complete_be (state : Nat) : Nat := 0xffff - fold state state

/-- `Checksum_udpIp6_be`; `Checksum_step32` of a big endian number below 2^16 adds its two bytes, swapped. -/
def udpIp6_be (sourceAndDestAddrs udpHeaderAndContent : List UInt8) : Nat :=
  let swapped := fun n : Nat => n % 256 * 256 + n / 256
  let sum := step sourceAndDestAddrs 0
  let sum := sum + swapped udpHeaderAndContent.length
  let sum := sum + swapped 17
  complete_be (step udpHeaderAndContent sum)

end Checksum

structure IpTunnel.Connection where
  publicKey : Key
  connectionIp6 : List UInt8
  connectionIp4 : List UInt8
  connectionIp6Prefix : UInt8
  connectionIp6Alloc : UInt8
  connectionIp4Prefix : UInt8
  connectionIp4Alloc : UInt8
  isOutgoing : Bool
  number : Int
deriving DecidableEq

/-- `struct IpTunnel_pvt`. -/
structure IpTunnel where
  connections : List IpTunnel.Connection
  nextConnectionNumber : Nat
deriving DecidableEq

namespace IpTunnel

def new : IpTunnel := { connections := [], nextConnectionNumber := 0 }

/-! ## Connections -/

/-- What `int number : 31` keeps of a number. -/
def number31 (n : Nat) : Int := if n < 2 ^ 30 then n else (n : Int) - 2 ^ 31

/-- A connection of zeros. -/
def Connection.zero : Connection :=
  { publicKey := .zero, connectionIp6 := List.replicate 16 0, connectionIp4 := List.replicate 4 0
    connectionIp6Prefix := 0, connectionIp6Alloc := 0, connectionIp4Prefix := 0, connectionIp4Alloc := 0
    isOutgoing := false, number := 0 }

/-- The loop of `newConnection` over the slots below `i`, with the free one at `conn`. -/
def makeRoom : Nat → Nat → List Connection → Nat × List Connection
  | 0, conn, slots => (conn, slots)
  | i + 1, conn, slots =>
    if (slots.getD i .zero).isOutgoing = false ∧ conn ≠ i + 1 then
      makeRoom i (i + 1) (slots.set conn (slots.getD (i + 1) .zero))
    else makeRoom i conn slots

/-- `newConnection`: the connection as the caller fills it in. -/
def newConnection (isOutgoing : Bool) (fill : Connection → Connection) (context : IpTunnel) :
    Er (Connection × IpTunnel) := do
  let count := context.connections.length
  let slots := context.connections ++ [.zero]
  -- an incoming connection should be lower on the list than any outgoing connections
  let (conn, slots) := if isOutgoing then (count, slots) else makeRoom count count slots
  let connection := fill { Connection.zero with isOutgoing, number := number31 context.nextConnectionNumber }
  let context := { connections := slots.set conn connection, nextConnectionNumber := context.nextConnectionNumber + 1 }
  .assertTrue (context.nextConnectionNumber < 2 ^ 31 - 1) "context->nextConnectionNumber < (UINT32_MAX >> 1)"
  .ret (connection, context)

/-- `connectionByPubKey`: the index of the connection. -/
def connectionByPubKey (pubKey : Key) (context : IpTunnel) : Option Nat :=
  context.connections.findIdx? fun conn => pubKey = conn.publicKey

/-- What a connection is allowed: an address of each kind, if any, with the lengths of its prefix and of
its block. -/
structure Allowance where
  ip6 : Option { bytes : List UInt8 // bytes.length = 16 }
  ip6Prefix : UInt8
  ip6Alloc : UInt8
  ip4 : Option { bytes : List UInt8 // bytes.length = 4 }
  ip4Prefix : UInt8
  ip4Alloc : UInt8
deriving DecidableEq

/-- The connection with the addresses it is allowed. -/
def Connection.allow (conn : Connection) (allowance : Allowance) : Connection :=
  let conn := match allowance.ip4 with
    | none => conn
    | some ip4 =>
      { conn with
        connectionIp4 := ip4.1, connectionIp4Prefix := allowance.ip4Prefix
        connectionIp4Alloc := allowance.ip4Alloc }
  match allowance.ip6 with
  | none => conn
  | some ip6 =>
    { conn with
      connectionIp6 := ip6.1, connectionIp6Prefix := allowance.ip6Prefix
      connectionIp6Alloc := allowance.ip6Alloc }

def allowConnection (publicKeyOfAuthorizedNode : Key) (allowance : Allowance) (context : IpTunnel) :
    Er (Int × IpTunnel) := do
  let (conn, context) ← newConnection false
    (fun conn => { conn with publicKey := publicKeyOfAuthorizedNode }.allow allowance) context
  .assertTrue (allowance.ip4 = none ∨ allowance.ip4Alloc ≠ 0) "ip4Alloc"
  .assertTrue (allowance.ip6 = none ∨ allowance.ip6Alloc ≠ 0) "ip6Alloc"
  .ret (conn.number, context)

/-- `IpTunnel_removeConnection`: whether it was found. -/
def removeConnection (connectionNumber : Int) (context : IpTunnel) : Bool × IpTunnel :=
  match context.connections.findIdx? fun conn => conn.number = connectionNumber with
  | none => (false, context)
  | some i => (true, { context with connections := context.connections.eraseIdx i })

/-! ## What is sent -/

/-- What the tunnel sends: a packet to the TUN device, or a control message over a connection. -/
inductive Output where
  | toTun (message : Message)
  | control (connection : Connection) (dict : Benc.Dict)

/-- "addresses". -/
def ADDRESSES : List UInt8 := [97, 100, 100, 114, 101, 115, 115, 101, 115]

/-- "txid". -/
def TXID : List UInt8 := [116, 120, 105, 100]

/-- "q". -/
def QUERY : List UInt8 := [113]

/-- "IpTunnel_getAddresses". -/
def GET_ADDRESSES : List UInt8 :=
  [73, 112, 84, 117, 110, 110, 101, 108, 95, 103, 101, 116, 65, 100, 100, 114, 101, 115, 115, 101, 115]

/-- "ip4". -/
def IP4 : List UInt8 := [105, 112, 52]

/-- "ip6". -/
def IP6 : List UInt8 := [105, 112, 54]

/-- "Prefix", behind the kind of address. -/
def PREFIX : List UInt8 := [80, 114, 101, 102, 105, 120]

/-- "Alloc", behind the kind of address. -/
def ALLOC : List UInt8 := [65, 108, 108, 111, 99]

/-- The four bytes of an `int`. -/
def intBytes (n : Int) : List UInt8 :=
  (List.range 4).map fun i => UInt8.ofNat ((n % 2 ^ 32).toNat / 256 ^ i)

def requestAddresses (conn : Connection) : Output :=
  .control conn [(QUERY, .string GET_ADDRESSES), (TXID, .string (intBytes conn.number))]

def connectTo (publicKeyOfNodeToConnectTo : Key) (context : IpTunnel) : Er (Int × IpTunnel × List Output) := do
  let (conn, context) ← newConnection true (fun conn => { conn with publicKey := publicKeyOfNodeToConnectTo }) context
  .ret (conn.number, context, [requestAddresses conn])

/-! ## Control messages -/

/-- Two bytes in big endian order. -/
def be16 (bytes : List UInt8) (i : Nat) : Nat := (bytes.getD i 0).toNat * 256 + (bytes.getD (i + 1) 0).toNat

/-- `isControlMessageInvalid`: the content of the message, unless it is invalid. `behind` is what lies behind
the message in memory: nothing says that the length of the content is not beyond its end. -/
def isControlMessageInvalid (message : Message) (behind : List UInt8) : Er (Option Message) :=
  let header := message.bytes
  let length := be16 header 4
  if header.getD 6 0 ≠ 17 ∨ message.length < length + 40 then .ret none
  else do
    let message ← message.eshift (-40)
    if Checksum.udpIp6_be ((header.drop 8).take 32) (message.bytes.take length) ≠ 0 then .ret none
    else
      let length := (length + 2 ^ 16 - 8) % 2 ^ 16
      let udp := message.bytes ++ behind
      if be16 udp 4 ≠ length ∨ be16 udp 0 ≠ 0 ∨ be16 udp 2 ≠ 0 then .ret none
      else do
        let message ← message.eshift (-8)
        .ret (some { message with bytes := (message.bytes ++ behind).take length })

def requestForAddresses (request : Benc.Dict) (conn : Connection) : List Output :=
  if conn.isOutgoing then []
  else
    let offer := fun (name ip : List UInt8) (prefixLen allocLen : UInt8) (d : Benc.Dict) =>
      if ip.all (· = 0) then d
      else
        let d := d.put name (.string ip)
        let d := d.put (name ++ PREFIX) (.integer prefixLen.toNat)
        d.put (name ++ ALLOC) (.integer allocLen.toNat)
    let addresses := offer IP6 conn.connectionIp6 conn.connectionIp6Prefix conn.connectionIp6Alloc []
    let addresses := offer IP4 conn.connectionIp4 conn.connectionIp4Prefix conn.connectionIp4Alloc addresses
    if conn.connectionIp6.all (· = 0) ∧ conn.connectionIp4.all (· = 0) then []
    else
      let msg := Benc.Dict.put [] ADDRESSES (.dict addresses)
      let msg := match request.getString TXID with
        | none => msg
        | some txid => msg.put TXID (.string txid)
      [.control conn msg]

/-- The number in a transaction id of four bytes. -/
def txidNumber (d : Benc.Dict) : Option Int :=
  match d.getString TXID with
  | none => none
  | some txid =>
    if txid.length ≠ 4 then none
    else
      let n : Nat := txid.foldr (fun b n => b.toNat + 256 * n) 0
      some (if n < 2 ^ 31 then n else (n : Int) - 2 ^ 32)

/-- The loop of `incomingAddresses` that looks for the connection with the number, from index `i` on;
`none` if it is of another node. -/
def selectByNumber (number : Int) (pubKey : Key) (i conn : Nat) : List Connection → Option Nat
  | [] => some conn
  | c :: connections =>
    if c.number = number then
      if pubKey ≠ c.publicKey then none else selectByNumber number pubKey (i + 1) i connections
    else selectByNumber number pubKey (i + 1) conn connections

/-- A length that was offered, if it is one. -/
def offeredLength (addresses : Benc.Dict) (name : List UInt8) (limit : Nat) : UInt8 :=
  match addresses.getInt name with
  | some n => if 0 ≤ n ∧ n ≤ limit then UInt8.ofNat n.toNat else UInt8.ofNat limit
  | none => UInt8.ofNat limit

/-- The part of `incomingAddresses` that takes over what is offered. -/
def Connection.accept (conn : Connection) (addresses : Benc.Dict) : Connection :=
  let conn := match addresses.getString IP4 with
    | none => conn
    | some ip4 =>
      if ip4.length ≠ 4 then conn
      else
        { conn with
          connectionIp4 := ip4, connectionIp4Prefix := offeredLength addresses (IP4 ++ PREFIX) 32
          connectionIp4Alloc := offeredLength addresses (IP4 ++ ALLOC) 32 }
  match addresses.getString IP6 with
  | none => conn
  | some ip6 =>
    if ip6.length ≠ 16 then conn
    else
      { conn with
        connectionIp6 := ip6, connectionIp6Prefix := offeredLength addresses (IP6 ++ PREFIX) 128
        connectionIp6Alloc := offeredLength addresses (IP6 ++ ALLOC) 128 }

/-- `incomingAddresses`; `conn` is the index of the connection, `addresses` what `d` has for them. -/
def incomingAddresses (d addresses : Benc.Dict) (conn : Nat) (context : IpTunnel) : IpTunnel :=
  let connection := context.connections.getD conn .zero
  if connection.isOutgoing = false then context
  else
    match txidNumber d with
    | none => context
    | some number =>
      if number < 0 ∨ number ≥ context.nextConnectionNumber then context
      else
        let selected :=
          if number ≠ connection.number then
            selectByNumber number connection.publicKey 0 conn context.connections
          else some conn
        match selected with
        | none => context
        | some conn =>
          { context with
            connections := context.connections.set conn ((context.connections.getD conn .zero).accept addresses) }

/-- The start of `incomingControlMessage`: what the message says. -/
def readControl (message : Message) (behind : List UInt8) : Er (Option Benc.Dict) := do
  let content ← isControlMessageInvalid message behind
  match content with
  | none => .ret none
  | some content => do
    let (_, d, _) ← Benc.readNoExcept content
    .ret d

def incomingControlMessage (message : Message) (behind : List UInt8) (conn : Nat) (context : IpTunnel) :
    Er (IpTunnel × List Output) := do
  let d ← readControl message behind
  match d with
  | none => .ret (context, [])
  | some d =>
    match d.getDict ADDRESSES with
    | some addresses => .ret (incomingAddresses d addresses conn context, [])
    | none =>
      if d.getString QUERY = some GET_ADDRESSES then
        .ret (context, requestForAddresses d (context.connections.getD conn .zero))
      else .ret (context, [])

/-! ## Packets -/

/-- The big endian number of some bytes. -/
def address (bytes : List UInt8) : Nat := bytes.foldl (fun n b => n * 256 + b.toNat) 0

def prefixMatches6 (addressA refAddr : List UInt8) (prefixLen : UInt8) : Er Bool :=
  if prefixLen = 0 then do
    .assertTrue (refAddr.all (· = 0)) "Bits_isZero(refAddr, 16)"
    .ret false
  else do
    .assertTrue (prefixLen ≤ 128) "prefixLen && prefixLen <= 128"
    let a0 := BitVec.ofNat 64 (address (addressA.take 8))
    let b0 := BitVec.ofNat 64 (address (refAddr.take 8))
    if prefixLen ≤ 64 then .ret ((a0 ^^^ b0) >>> (64 - prefixLen.toNat) = 0)
    else
      let a1 := BitVec.ofNat 64 (address ((addressA.drop 8).take 8))
      let b1 := BitVec.ofNat 64 (address ((refAddr.drop 8).take 8))
      .ret ((a0 ^^^ b0) ||| ((a1 ^^^ b1) >>> (128 - prefixLen.toNat)) = 0)

def prefixMatches4 (addressA refAddr : List UInt8) (prefixLen : UInt8) : Er Bool :=
  if prefixLen = 0 then do
    .assertTrue (refAddr.all (· = 0)) "Bits_isZero(refAddr, 4)"
    .ret false
  else do
    .assertTrue (prefixLen ≤ 32) "prefixLen && prefixLen <= 32"
    let a := BitVec.ofNat 32 (address (addressA.take 4))
    let b := BitVec.ofNat 32 (address (refAddr.take 4))
    .ret ((a ^^^ b) >>> (32 - prefixLen.toNat) = 0)

/-- `isValidAddress4` of a message from a node. -/
def isValidAddress4 (sourceAndDestIp4 : List UInt8) (conn : Connection) : Er Bool :=
  let compareAddr := if conn.isOutgoing then sourceAndDestIp4.drop 4 else sourceAndDestIp4.take 4
  prefixMatches4 compareAddr conn.connectionIp4 conn.connectionIp4Alloc

/-- `isValidAddress6` of a message from a node. -/
def isValidAddress6 (sourceAndDestIp6 : List UInt8) (conn : Connection) : Er Bool :=
  if AddressCalc.validAddress sourceAndDestIp6 ∨ AddressCalc.validAddress (sourceAndDestIp6.drop 16) then .ret false
  else
    let compareAddr := if conn.isOutgoing then sourceAndDestIp6.drop 16 else sourceAndDestIp6.take 16
    prefixMatches6 compareAddr conn.connectionIp6 conn.connectionIp6Alloc

/-- `TUNMessageType_push` and the way to the TUN device. -/
def sendToTun (ethertype : List UInt8) (message : Message) : Er (List Output) := do
  let message ← message.epush ([0, 0] ++ ethertype)
  .ret [.toTun message]

/-- `sourceAddr` and `destinationAddr` of an IPv6 header. -/
def addresses6 (message : Message) : List UInt8 := (message.bytes.drop 8).take 32

/-- `sourceAddr` and `destAddr` of an IPv4 header. -/
def addresses4 (message : Message) : List UInt8 := (message.bytes.drop 12).take 8

def ip6FromNode (message : Message) (behind : List UInt8) (conn : Nat) (context : IpTunnel) :
    Er (IpTunnel × List Output) :=
  let addresses := addresses6 message
  if (addresses.take 16).all (· = 0) ∨ (addresses.drop 16).all (· = 0) then
    if addresses.all (· = 0) then incomingControlMessage message behind conn context
    else .ret (context, [])
  else do
    let valid ← isValidAddress6 addresses (context.connections.getD conn .zero)
    if !valid then .ret (context, [])
    else do
      let outputs ← sendToTun [0x86, 0xdd] message
      .ret (context, outputs)

def ip4FromNode (message : Message) (conn : Nat) (context : IpTunnel) : Er (IpTunnel × List Output) :=
  let addresses := addresses4 message
  if (addresses.take 4).all (· = 0) ∨ (addresses.drop 4).all (· = 0) then .ret (context, [])
  else do
    let valid ← isValidAddress4 addresses (context.connections.getD conn .zero)
    if !valid then .ret (context, [])
    else do
      let outputs ← sendToTun [0x08, 0x00] message
      .ret (context, outputs)

/-- `Headers_getIpVersion`. -/
def getIpVersion (message : Message) : Nat := (message.bytes.getD 0 0).toNat / 16

/-- `incomingFromNode`, behind the headers: the key of the node and what follows them. -/
def incomingFromNode (publicKey : Key) (message : Message) (behind : List UInt8) (context : IpTunnel) :
    Er (IpTunnel × List Output) :=
  match connectionByPubKey publicKey context with
  | none => .ret (context, [])
  | some conn =>
    if message.length > 40 ∧ getIpVersion message = 6 then ip6FromNode message behind conn context
    else if message.length > 20 ∧ getIpVersion message = 4 then ip4FromNode message conn context
    else .ret (context, [])

end IpTunnel

end Hyperboria
