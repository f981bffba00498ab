/-
`crypto/CryptoAuth.c`: the sessions two nodes keep for each other. A session is
brought up by hello and key packets (nonces 0 to 3) and then carries data packets,
whose nonce counts up from 4; `nextNonce` is both the state of the handshake and
that counter.

A message is the header fields the code reads from it and the sealed bytes it
opens. Room and alignment of the buffers are the link interfaces' affair and are
left out; so are the log lines, but not the assertion each of them makes
(`getIp6` needs a key).
-/
import Hyperboria.Crypto.Primitives
import Hyperboria.Crypto.ReplayProtector

namespace Hyperboria.CryptoAuth

/-- The value kept in a `uint32_t`. -/
def uint32 (n : Nat) : Nat := n % 2 ^ 32

/-- `enum CryptoAuth_DecryptErr`, the members the code returns. -/
inductive DecryptErr where
  | none
  | runt
  | noSession
  | keyPktEstablishedSession
  | wrongPermPubkey
  | ipRestricted
  | authRequired
  | unrecognizedAuth
  | strayKey
  | handshakeDecryptFailed
  | wiseguy
  | invalidPacket
  | replay
  | decrypt
deriving DecidableEq, Repr

/-- `struct CryptoHeader_Challenge`. -/
structure Challenge where
  type : UInt8
  lookup : List UInt8
  derivations : Nat
  additional : Nat
deriving DecidableEq, Repr

/-- The first `CryptoHeader_Challenge_KEYSIZE` bytes. -/
def Challenge.key (auth : Challenge) : UInt8 × List UInt8 := (auth.type, auth.lookup)

structure User where
  passwordHash : UInt8 × List UInt8
  userNameHash : UInt8 × List UInt8
  secret : Key
  restrictedToip6 : List UInt8
deriving DecidableEq

/-- `struct CryptoAuth_pvt`: the keys of this node and whom it lets in. -/
structure Context where
  publicKey : Key
  privateKey : Key
  users : List User

/-- `struct CryptoAuth_Session_pvt`. -/
structure Session (C : Crypto) where
  herPublicKey : Key
  replayProtector : ReplayProtector
  resetAfterInactivitySeconds : Nat
  setupResetAfterInactivitySeconds : Nat
  sharedSecret : C.Secret
  herTempPubKey : Key
  ourTempPrivKey : Key
  ourTempPubKey : Key
  password : Option (List UInt8)
  login : Option (List UInt8)
  nextNonce : Nat
  timeOfLastPacket : Nat
  authType : UInt8
  isInitiator : Bool
  requireAuth : Bool
  established : Bool

/-- Where the sealed bytes of a message begin. -/
def boxAt (nonce : Nat) : Nat := if nonce < 4 then 72 else 4

/-- How many bytes `CryptoAuth_decrypt` takes off a message of this nonce. -/
def headerSize (nonce : Nat) : Nat := if nonce < 4 then 120 else 20

/-- `Time_currentTimeSeconds`, the clock of this file, from one that counts milliseconds. -/
def seconds (now : Nat) : Nat := now / 1024

/-- A message on the wire: its `struct CryptoHeader` and its sealed bytes. A message too short to reach
them has a `length` below `boxAt`, and what it lacks is not read. -/
structure Packet (C : Crypto) where
  length : Nat
  nonce : Nat
  auth : Challenge
  handshakeNonce : Nonce24
  publicKey : Key
  box : C.Cipher
  nonce_lt : nonce < 2 ^ 32
  sized : boxAt nonce ≤ length → length = boxAt nonce + C.size box

/-- `enum CryptoAuth_State`. -/
inductive State where
  | init
  | sentHello
  | receivedHello
  | sentKey
  | receivedKey
  | established
deriving DecidableEq

def getState {C : Crypto} (session : Session C) : State :=
  match session.nextNonce with
  | 0 => .init
  | 1 => .sentHello
  | 2 => .receivedHello
  | 3 => .sentKey
  | 4 => .receivedKey
  | _ => if session.established then .established else .receivedKey

/-- What `Random_bytes` fills in while a handshake packet is made. -/
structure Draw where
  auth : Challenge
  handshakeNonce : Nonce24
  tempPrivKey : Key

section
variable {C : Crypto}

/-! ## Passwords -/

/-- `hashPassword`: the secret and the challenge. -/
def hashPassword (C : Crypto) (login : Option (List UInt8)) (password : List UInt8) (authType : UInt8) :
    Er (Key × Challenge) := do
  let secretOut := C.sha256 password
  let tempBuff ←
    if authType = 1 then .ret (C.sha256 secretOut.1)
    else if authType = 2 then
      match login with
      | some login => .ret (C.sha256 login)
      | none => .abort "login is NULL"
    else .abort s!"Unsupported auth type [{authType}]"
  .ret (secretOut, { type := authType, lookup := (tempBuff.1.drop 1).take 7, derivations := 0, additional := 0 })

def getAuth (auth : Challenge) (ca : Context) : Option User :=
  if auth.type = 0 then none
  else ca.users.find? fun u =>
    (auth.type = 1 && auth.key = u.passwordHash) || (auth.type = 2 && auth.key = u.userNameHash)

/-! ## Sessions -/

def knowHerKey (session : Session C) : Bool := !session.herPublicKey.isZero

/-- The assertion `getIp6` makes before a log line is written. -/
def cryptoAuthDebug (session : Session C) : Er Unit := .assertTrue (knowHerKey session) "knowHerKey(session)"

def newSession (C : Crypto) (now : Nat) (herPublicKey : Key) (requireAuth : Bool) : Session C :=
  { herPublicKey
    replayProtector := .zero
    resetAfterInactivitySeconds := 60
    setupResetAfterInactivitySeconds := 10
    sharedSecret := C.zeroSecret
    herTempPubKey := .zero
    ourTempPrivKey := .zero
    ourTempPubKey := .zero
    password := none
    login := none
    nextNonce := 0
    timeOfLastPacket := uint32 now
    authType := 0
    isInitiator := false
    requireAuth
    established := false }

def reset (session : Session C) : Session C :=
  { session with
    nextNonce := 0
    isInitiator := false
    ourTempPrivKey := .zero
    ourTempPubKey := .zero
    herTempPubKey := .zero
    sharedSecret := C.zeroSecret
    established := false
    replayProtector := .zero }

/-- `resetIfTimeout`, when the clock says `nowSecs`. -/
def resetIfTimeout (nowSecs : Nat) (session : Session C) : Er (Session C) :=
  if session.nextNonce = 1 then .ret session
  else
    let quiet := (nowSecs + 2 ^ 64 - session.timeOfLastPacket) % 2 ^ 64
    if quiet < session.setupResetAfterInactivitySeconds then .ret session
    else if quiet < session.resetAfterInactivitySeconds ∧ session.established then .ret session
    else do
      cryptoAuthDebug session
      .ret (reset { session with timeOfLastPacket := uint32 nowSecs })

def setAuth (password login : Option (List UInt8)) (session : Session C) : Session C :=
  if password.isNone ∧ (session.password.isSome ∨ session.authType ≠ 0) then
    reset { session with password := none, authType := 0 }
  else if session.password.isNone ∨ session.password ≠ password then
    match login with
    | some login => reset { session with password, authType := 2, login := some login }
    | none => reset { session with password, authType := 1 }
  else session

/-! ## Sending -/

/-- The nonce of a data packet: the counter in the word of the end that sends it. -/
def counterNonce (nonce : Nat) (isInitiator : Bool) : Nonce24 :=
  BitVec.ofNat 192 (if isInitiator then nonce * 2 ^ 32 else nonce)

/-- "Password auth": the password hash and the challenge that goes with it. -/
def passwordAuth (draw : Draw) (session : Session C) : Er (Option Key × Challenge) :=
  match session.password with
  | some password => do
    let (hash, auth) ← hashPassword C session.login password session.authType
    .ret (some hash, auth)
  | none => .ret (none, { draw.auth with type := session.authType, additional := 0 })

/-- The secret of a hello or a key packet, and the session that has sent it. -/
def handshakeSecret (ca : Context) (session : Session C) (passwordHash : Option Key) : Er (C.Secret × Session C) :=
  if session.nextNonce < 2 then
    .ret (C.getSharedSecret ca.privateKey session.herPublicKey passwordHash,
      { session with isInitiator := true, nextNonce := 1 })
  else do
    .assertTrue (!session.herTempPubKey.isZero) "!Bits_isZero(session->herTempPubKey, 32)"
    .assertTrue (session.nextNonce ≤ 3) "session->nextNonce <= CryptoAuth_State_SENT_KEY"
    .ret (C.getSharedSecret ca.privateKey session.herTempPubKey passwordHash, { session with nextNonce := 3 })

def encryptHandshake (ca : Context) (draw : Draw) (session : Session C) (msg : List UInt8) :
    Er (Session C × Packet C) := do
  .assertTrue (knowHerKey session) "knowHerKey(session)"
  let (passwordHash, auth) ← passwordAuth draw session
  let nonce := uint32 session.nextNonce
  let session :=
    if session.nextNonce = 0 ∨ session.nextNonce = 2 then
      { session with ourTempPrivKey := draw.tempPrivKey, ourTempPubKey := C.scalarmultBase draw.tempPrivKey }
    else session
  cryptoAuthDebug session
  let (sharedSecret, session) ← handshakeSecret ca session passwordHash
  .assertTrue ((session.nextNonce < 2 : Bool) == session.herTempPubKey.isZero)
    "(session->nextNonce < CryptoAuth_State_RECEIVED_HELLO) == Bits_isZero(session->herTempPubKey, 32)"
  let box := C.afternm sharedSecret draw.handshakeNonce (session.ourTempPubKey.1 ++ msg)
  .ret (session,
    { length := boxAt nonce + C.size box, nonce, auth, handshakeNonce := draw.handshakeNonce
      publicKey := ca.publicKey, box, nonce_lt := Nat.mod_lt _ (by decide), sized := fun _ => rfl })

/-- "Doing final step to send message": the secret is computed when the first data packet is sent. -/
def finalStep (session : Session C) : Er (Session C) :=
  if session.nextNonce = 4 then do
    cryptoAuthDebug session
    .assertTrue (!session.ourTempPrivKey.isZero) "!Bits_isZero(session->ourTempPrivKey, 32)"
    .assertTrue (!session.herTempPubKey.isZero) "!Bits_isZero(session->herTempPubKey, 32)"
    .ret { session with
      sharedSecret := C.getSharedSecret session.ourTempPrivKey session.herTempPubKey none }
  else .ret session

def encrypt (ca : Context) (nowSecs : Nat) (draw : Draw) (session : Session C) (msg : List UInt8) :
    Er (Session C × Packet C) := do
  let session ← resetIfTimeout nowSecs session
  let session := if session.nextNonce ≥ 0xfffffff0 then reset session else session
  if session.nextNonce < 4 then encryptHandshake ca draw session msg
  else do
    let session ← finalStep session
    .assertTrue (msg.length > 0) "msg->length > 0"
    let nonce := uint32 session.nextNonce
    let box := C.afternm session.sharedSecret (counterNonce session.nextNonce session.isInitiator) msg
    .ret ({ session with nextNonce := uint32 (session.nextNonce + 1) },
      { length := boxAt nonce + C.size box, nonce, auth := draw.auth, handshakeNonce := draw.handshakeNonce
        publicKey := ca.publicKey, box, nonce_lt := Nat.mod_lt _ (by decide), sized := fun _ => rfl })

/-! ## Receiving -/

/-- What a call of `CryptoAuth_decrypt` comes to: the error, the session and what was in the packet. -/
abbrev Decrypted (C : Crypto) := DecryptErr × Session C × List UInt8

def decryptMessage (session : Session C) (nonce : Nat) (content : Packet C) (secret : C.Secret) :
    Er (Decrypted C) :=
  match C.openAfternm secret (counterNonce nonce (!session.isInitiator)) content.box with
  | none => do
    cryptoAuthDebug session
    .ret (.decrypt, session, [])
  | some plain =>
    let (passes, replayProtector) := ReplayProtector.checkNonce nonce session.replayProtector
    let session := { session with replayProtector }
    if passes then .ret (.none, session, plain)
    else do
      cryptoAuthDebug session
      .ret (.replay, session, plain)

def ip6MatchesKey (C : Crypto) (ip6 : List UInt8) (key : Key) : Bool := ip6 = C.addressForPublicKey key

/-- The checks of a handshake packet's authenticator: the error it is dropped with. -/
def refusal (session : Session C) (auth : Challenge) (userObj : Option User) : Option DecryptErr :=
  match userObj with
  | some user =>
    if user.restrictedToip6.headD 0 ≠ 0 ∧ !ip6MatchesKey C user.restrictedToip6 session.herPublicKey then
      some .ipRestricted
    else none
  | none =>
    if session.requireAuth then some .authRequired
    else if auth.type ≠ 0 then some .unrecognizedAuth
    else none

/-- "Post-decryption checking": whether the packet is dropped for its temporary key. -/
def isDupe (session : Session C) (nonce : Nat) (tempKey : Key) : Er Bool :=
  if nonce = 0 then .ret (session.herTempPubKey = tempKey)
  else if nonce = 2 ∧ session.nextNonce ≥ 4 then
    if session.herTempPubKey = tempKey then do
      .assertTrue (!session.herTempPubKey.isZero) "!Bits_isZero(session->herTempPubKey, 32)"
      .ret true
    else .ret false
  else if nonce = 3 ∧ session.nextNonce ≥ 4 then
    if session.herTempPubKey ≠ tempKey then do
      .assertTrue (!session.herTempPubKey.isZero) "!Bits_isZero(session->herTempPubKey, 32)"
      .ret true
    else .ret false
  else .ret false

/-- How a branch of the handshake ends: with a return, or with the state to go on to. -/
inductive Verdict (C : Crypto) where
  | leave (err : DecryptErr)
  | go (session : Session C) (nextNonce : Nat)

/-- A key packet while data is already being sent. -/
def recalculate (session : Session C) (nonce : Nat) (tempKey : Key) : Er (Session C) :=
  if nonce = 2 then do
    let session := { session with herTempPubKey := tempKey }
    cryptoAuthDebug session
    .assertTrue (!session.ourTempPrivKey.isZero) "!Bits_isZero(session->ourTempPrivKey, 32)"
    .assertTrue (!session.herTempPubKey.isZero) "!Bits_isZero(session->herTempPubKey, 32)"
    .ret { session with
      sharedSecret := C.getSharedSecret session.ourTempPrivKey session.herTempPubKey none }
  else do
    .assertTrue (session.herTempPubKey = tempKey) "!Bits_memcmp(session->herTempPubKey, header->encryptedTempKey, 32)"
    .ret session

/-- The branch of a (repeat) key packet. -/
def receivedKey (session : Session C) (nonce : Nat) (tempKey : Key) : Er (Verdict C) :=
  if session.nextNonce = 0 ∨ session.nextNonce = 2 ∨ session.nextNonce = 3 then do
    cryptoAuthDebug session
    .ret (.leave .strayKey)
  else if session.nextNonce = 1 then .ret (.go { session with herTempPubKey := tempKey } 4)
  else if session.nextNonce = 4 then
    if nonce = 2 then .ret (.go { session with herTempPubKey := tempKey } 4)
    else do
      .assertTrue (session.herTempPubKey = tempKey) "!Bits_memcmp(session->herTempPubKey, header->encryptedTempKey, 32)"
      .ret (.go session 4)
  else do
    .assertTrue (!session.established) "!session->established"
    let session ← recalculate session nonce tempKey
    cryptoAuthDebug session
    .ret (.go session (uint32 (session.nextNonce + 1)))

/-- The branch of a (repeat) hello packet. -/
def receivedHello (ca : Context) (session : Session C) (tempKey : Key) : Er (Verdict C) :=
  if session.herTempPubKey ≠ tempKey then
    if session.nextNonce = 1 then
      if session.herPublicKey.less ca.publicKey then do
        cryptoAuthDebug session
        .ret (.go { reset session with herTempPubKey := tempKey } 2)
      else do
        cryptoAuthDebug session
        .ret (.leave .none)
    else if session.nextNonce = 0 then .ret (.go { session with herTempPubKey := tempKey } 2)
    else do
      cryptoAuthDebug session
      .ret (.go { reset session with herTempPubKey := tempKey } 2)
  else if session.nextNonce = 2 ∨ session.nextNonce = 3 then .ret (.go session session.nextNonce)
  else do
    cryptoAuthDebug session
    .ret (.leave .invalidPacket)

/-- The packet is a hello or a key. -/
def received (ca : Context) (session : Session C) (nonce : Nat) (tempKey : Key) : Er (Verdict C) :=
  if nonce < 2 then receivedHello ca session tempKey else receivedKey session nonce tempKey

/-- `decryptHandshake` from the decrypted packet on. -/
def shakeHands (ca : Context) (session : Session C) (nonce : Nat) (plain : List UInt8) : Er (Decrypted C) := do
  let tempKey := Key.ofBytes plain
  let content := plain.drop 32
  if tempKey.isZero then do
    cryptoAuthDebug session
    .ret (.wiseguy, session, content)
  else
  let dupe ← isDupe session nonce tempKey
  if dupe then do
    cryptoAuthDebug session
    .ret (.invalidPacket, session, content)
  else
  let verdict ← received ca session nonce tempKey
  match verdict with
  | .leave err => .ret (err, session, content)
  | .go session nextNonce => do
    .assertTrue (session.nextNonce < nextNonce || (session.nextNonce ≤ 4 && nextNonce = session.nextNonce))
      "session->nextNonce < nextNonce"
    .ret (.none, { session with nextNonce, replayProtector := .zero }, content)

def decryptHandshake (ca : Context) (session : Session C) (nonce : Nat) (message : Packet C) :
    Er (Decrypted C) :=
  if message.length < 120 then do
    cryptoAuthDebug session
    .ret (.runt, session, [])
  else do
  .assertTrue (knowHerKey session) "knowHerKey(session)"
  if session.herPublicKey ≠ message.publicKey then do
    cryptoAuthDebug session
    .ret (.wrongPermPubkey, session, [])
  else
  .assertTrue ((session.nextNonce < 2 : Bool) == session.herTempPubKey.isZero)
    "(session->nextNonce < CryptoAuth_State_RECEIVED_HELLO) == Bits_isZero(session->herTempPubKey, 32)"
  let userObj := getAuth message.auth ca
  match refusal session message.auth userObj with
  | some err => do
    cryptoAuthDebug session
    .ret (err, session, [])
  | none =>
  let passwordHash := userObj.map User.secret
  cryptoAuthDebug session
  if 2 ≤ nonce ∧ !session.isInitiator then do
    cryptoAuthDebug session
    .ret (.strayKey, session, [])
  else
  let sharedSecret :=
    if nonce < 2 then C.getSharedSecret ca.privateKey session.herPublicKey passwordHash
    else C.getSharedSecret session.ourTempPrivKey session.herPublicKey passwordHash
  match C.openAfternm sharedSecret message.handshakeNonce message.box with
  | none => do
    cryptoAuthDebug session
    .ret (.handshakeDecryptFailed, session, [])
  | some plain => shakeHands ca session nonce plain

def decrypt (ca : Context) (nowSecs : Nat) (session : Session C) (msg : Packet C) : Er (Decrypted C) :=
  if msg.length < 20 then do
    cryptoAuthDebug session
    .ret (.runt, session, [])
  else
  let nonce := msg.nonce
  if !session.established then
    if nonce ≥ 4 then
      if session.nextNonce < 3 then do
        cryptoAuthDebug session
        .ret (.noSession, session, [])
      else do
        cryptoAuthDebug session
        .assertTrue (!session.ourTempPrivKey.isZero) "!Bits_isZero(session->ourTempPrivKey, 32)"
        .assertTrue (!session.herTempPubKey.isZero) "!Bits_isZero(session->herTempPubKey, 32)"
        let secret := C.getSharedSecret session.ourTempPrivKey session.herTempPubKey none
        let (ret, session, content) ← decryptMessage session nonce msg secret
        let session := { session with
          replayProtector := { session.replayProtector with baseOffset := uint32 (nonce + 1), bitfield := 0 } }
        if ret = .none then do
          cryptoAuthDebug session
          .ret (.none,
            { session with
              sharedSecret := secret
              established := true
              nextNonce := uint32 (session.nextNonce + 3)
              timeOfLastPacket := uint32 nowSecs },
            content)
        else do
          cryptoAuthDebug session
          .ret (ret, session, content)
    else decryptHandshake ca session nonce msg
  else if nonce ≥ 4 then do
    .assertTrue (session.sharedSecret ≠ C.zeroSecret) "!Bits_isZero(session->sharedSecret, 32)"
    let (ret, session, content) ← decryptMessage session nonce msg session.sharedSecret
    if ret = .none then .ret (.none, { session with timeOfLastPacket := uint32 nowSecs }, content)
    else do
      cryptoAuthDebug session
      .ret (ret, session, content)
  else if nonce ≤ 1 then do
    cryptoAuthDebug session
    decryptHandshake ca session nonce msg
  else do
    cryptoAuthDebug session
    .ret (.keyPktEstablishedSession, session, [])

end

end Hyperboria.CryptoAuth
