/-
Nodes that keep sessions for each other over a network an attacker owns.

The honest nodes run the code: their sessions are created, given passwords, reset,
timed out, and made to send and to receive. Everything that is on its way is in the
attacker's hands: a packet may be lost, delayed, repeated, brought to another
session, or made up. A session whose peer is not an honest node has the attacker at
its other end.

What the attacker cannot do is said where a packet arrives (`Arrives`). A box that
opens under a secret of two honest keys is the box of a packet some honest session
has sent; and a box the attacker has sealed for one of its own sessions holds a
temporary key the attacker knows (`Knows`).
-/
import Hyperboria.Transition
import Hyperboria.Crypto.Stages

namespace Hyperboria.CryptoAuth

/-- The honest nodes, and all sessions they may ever open: the node that keeps each, and the public key
of its peer. -/
structure Net (C : Crypto) where
  Node : Type
  Index : Type
  [decIndex : DecidableEq Index]
  priv : Node → Key
  node : Index → Node
  peer : Index → Key
  distinct : ∀ {N M}, C.scalarmultBase (priv N) = C.scalarmultBase (priv M) → N = M

namespace Net

variable {C : Crypto} (net : Net C)

instance : DecidableEq net.Index := net.decIndex

/-- The public key of an honest node. -/
def pub (N : net.Node) : Key := C.scalarmultBase (net.priv N)

/-- The peer of the session is an honest node: its key is like that of the node. -/
def HonestPeer (i : net.Index) : Prop := ∃ M, C.Alike (net.peer i) (net.pub M)

/-- The two sessions are kept by two nodes for each other. -/
def Facing (i j : net.Index) : Prop :=
  C.Alike (net.peer i) (net.pub (net.node j)) ∧ C.Alike (net.peer j) (net.pub (net.node i))

/-- A packet an honest session has sent, with the session as it was then and the number of packets
sent before. -/
structure Sent where
  author : net.Index
  session : Session C
  packet : Packet C
  msg : List UInt8
  time : Nat

/-- The state of the nodes, and what has happened: the packets sent, the data packets accepted, and
for each session the temporary keys of the peer it has taken up since it last had none. -/
structure World where
  users : net.Node → List User
  sessions : net.Index → Option (Session C)
  sent : List net.Sent
  accepted : List (net.Index × Nat × C.Cipher)
  held : net.Index → List Key

/-- What can happen. -/
inductive Event where
  | create (i : net.Index)
  | users
  | setAuth (i : net.Index)
  | reset (i : net.Index)
  | timeout (i : net.Index)
  | send (i : net.Index)
  | deliver (i : net.Index) (packet : Packet C)

end Net

section
variable {C : Crypto} {net : Net C}

namespace Net.Sent

/-- The temporary key of the sender, private. -/
def temp (r : net.Sent) : Key := r.session.ourTempPrivKey

/-- The temporary key of the receiver, as the sender knew it. -/
def her (r : net.Sent) : Key := r.session.herTempPubKey

end Net.Sent

namespace Net.World

/-- The `CryptoAuth` of a node. -/
def context (w : net.World) (N : net.Node) : Context :=
  { publicKey := net.pub N, privateKey := net.priv N, users := w.users N }

/-- The keys a session has taken up, after a step from `s` to `s'`. -/
def heldAfter (s s' : Session C) (held : List Key) : List Key :=
  if s'.herTempPubKey = .zero then []
  else if s'.herTempPubKey = s.herTempPubKey then held
  else s'.herTempPubKey :: held

/-- The session `i` goes from `s` to `s'`. -/
def put (w : net.World) (i : net.Index) (s s' : Session C) : net.World :=
  { w with
    sessions := Function.update w.sessions i (some s')
    held := Function.update w.held i (heldAfter s s' (w.held i)) }

theorem put_self (w : net.World) (i : net.Index) (s s' : Session C) : (w.put i s s').sessions i = some s' :=
  Function.update_self ..

/-- The private key is one of an honest node, permanent or temporary. -/
def IsHonest (w : net.World) (p : Key) : Prop := (∃ N, p = net.priv N) ∨ ∃ r ∈ w.sent, p = r.temp

/-- The secret is one of two honest keys. -/
def HonestSecret (w : net.World) (secret : C.Secret) : Prop :=
  ∃ p q hash, w.IsHonest p ∧ w.IsHonest q ∧ secret = C.getSharedSecret p (C.scalarmultBase q) hash

/-- The attacker knows the public key: it is not like a temporary key of an honest node, or one like it stands
in a packet sealed with a secret that is not honest. -/
def Knows (w : net.World) (x : Key) : Prop :=
  (∀ r ∈ w.sent, ¬ C.Alike (C.scalarmultBase r.temp) x) ∨
    ∃ r ∈ w.sent, ∃ secret nonce plain, C.openAfternm secret nonce r.packet.box = some plain ∧
      ¬ w.HonestSecret secret ∧ C.Alike (Key.ofBytes plain) x

/-- What is known of a key that was just drawn: it is like none of those in use, and nobody has guessed it. -/
structure Fresh (w : net.World) (p : Key) : Prop where
  ne_zero : ¬ C.Alike (C.scalarmultBase p) .zero
  ne_pub : ∀ N, C.scalarmultBase p ≠ net.pub N
  ne_temp : ∀ r ∈ w.sent, C.scalarmultBase p ≠ C.scalarmultBase r.temp
  ne_peer : ∀ i s, w.sessions i = some s → ¬ net.HonestPeer i →
    ¬ C.Alike (C.scalarmultBase p) (net.peer i) ∧ ¬ C.Alike (C.scalarmultBase p) s.herTempPubKey
  ne_sent : ∀ r ∈ w.sent, ¬ net.HonestPeer r.author →
    ¬ C.Alike (C.scalarmultBase p) r.her ∧ ¬ C.Alike (C.scalarmultBase p) (Key.ofBytes r.msg)

/-- The packet can be brought to the session `i`. -/
structure Arrives (w : net.World) (i : net.Index) (packet : Packet C) : Prop where
  unforged : ∀ {secret nonce plain}, C.openAfternm secret nonce packet.box = some plain →
    w.HonestSecret secret → ∃ r ∈ w.sent, r.packet.box = packet.box
  known : ¬ net.HonestPeer i → ∀ {secret nonce plain}, C.openAfternm secret nonce packet.box = some plain →
    (∃ r ∈ w.sent, r.packet.box = packet.box) ∨ w.Knows (Key.ofBytes plain)

/-- The data packets accepted so far, after the session `i` has taken in a packet. -/
def acceptedAfter (w : net.World) (i : net.Index) (packet : Packet C) (err : DecryptErr) :
    List (net.Index × Nat × C.Cipher) :=
  if err = .none ∧ 4 ≤ packet.nonce then (i, packet.nonce, packet.box) :: w.accepted else w.accepted

end Net.World

/-- Nothing has happened yet. -/
def Net.Start (w : net.World) : Prop :=
  w.sessions = (fun _ => none) ∧ w.sent = [] ∧ w.accepted = [] ∧ w.held = fun _ => []

/-- A step of a node. A call that fails an assertion ends the node, and is no step. -/
inductive Net.Step : net.World → net.Event → net.World → Prop where
  | create {w : net.World} {i : net.Index} {now : Nat} {requireAuth : Bool} (hnew : w.sessions i = none)
      (hpeer : ¬ net.HonestPeer i → w.Knows (net.peer i)) :
      Step w (.create i)
        (w.put i (newSession C now (net.peer i) requireAuth) (newSession C now (net.peer i) requireAuth))
  | users {w : net.World} (users : net.Node → List User) : Step w .users { w with users }
  | setAuth {w : net.World} {i : net.Index} {s : Session C} (password login : Option (List UInt8))
      (hs : w.sessions i = some s) : Step w (.setAuth i) (w.put i s (CryptoAuth.setAuth password login s))
  | reset {w : net.World} {i : net.Index} {s : Session C} (hs : w.sessions i = some s) :
      Step w (.reset i) (w.put i s (CryptoAuth.reset s))
  | timeout {w : net.World} {i : net.Index} {now : Nat} {s s' : Session C} (hs : w.sessions i = some s)
      (hret : resetIfTimeout now s = .ret s') : Step w (.timeout i) (w.put i s s')
  | send {w : net.World} {i : net.Index} {now : Nat} {draw : Draw} {msg : List UInt8} {s s' : Session C}
      {packet : Packet C} (hs : w.sessions i = some s)
      (hret : encrypt (w.context (net.node i)) now draw s msg = .ret (s', packet))
      (hfresh : packet.nonce = 0 ∨ packet.nonce = 2 → w.Fresh draw.tempPrivKey)
      (hmsg : ¬ net.HonestPeer i → w.Knows (Key.ofBytes msg)) :
      Step w (.send i) { w.put i s s' with sent := ⟨i, s', packet, msg, w.sent.length⟩ :: w.sent }
  | deliver {w : net.World} {i : net.Index} {now : Nat} {s s' : Session C} {packet : Packet C} {err : DecryptErr}
      {content : List UInt8} (hs : w.sessions i = some s) (harrives : w.Arrives i packet)
      (hret : decrypt (w.context (net.node i)) now s packet = .ret (err, s', content)) :
      Step w (.deliver i packet) { w.put i s s' with accepted := w.acceptedAfter i packet err }

/-- The nodes and the network as a transition system. -/
def Net.system (net : Net C) : Transition.System net.World net.Event where
  init := Net.Start
  step := Net.Step

end

end Hyperboria.CryptoAuth
