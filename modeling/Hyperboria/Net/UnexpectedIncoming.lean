/-
Messages from an address nobody has written from. `handleIncomingFromWire_returns_iff`
says exactly which of them end the node: a hello that names the key of all zeros. The
session is made with the key written in the packet, and the handshake asserts that it
knows the key of the other end before it has looked at anything else.
-/
import Hyperboria.Crypto.Equations
import Hyperboria.Crypto.Symbolic
import Hyperboria.Net.InterfaceController

namespace Hyperboria

open Er

namespace CryptoAuth

variable {C : Crypto}

/-- The session made from the key in a hello: decrypting the hello returns unless that key is zero. -/
theorem decrypt_newSession_returns_iff {ca} {now} {requireAuth} {packet}
    (hlength : 120 ≤ packet.length) (hnonce : packet.nonce ≤ 1) :
    (decrypt ca now (newSession C now packet.publicKey requireAuth) packet).Returns ↔
      packet.publicKey ≠ .zero := by
  have hat := at_newSession (C := C) now packet.publicKey requireAuth
  have hher : (newSession C now packet.publicKey requireAuth).herPublicKey = packet.publicKey := rfl
  generalize newSession C now packet.publicKey requireAuth = session at hat hher
  obtain ⟨hnext, -, hest, htemp, -⟩ := hat
  have hknow : knowHerKey session = true ↔ packet.publicKey ≠ .zero := by simp [knowHerKey, hher]
  constructor
  · intro h
    rw [decrypt, if_neg (by omega), hest, if_pos (by rfl), if_neg (by omega), decryptHandshake, if_neg (by omega),
      returns_assertTrue_bind, hknow] at h
    exact h.1
  · intro hne
    have hkey := hknow.mpr hne
    rw [decrypt_handshake hkey (by omega) (by omega) (by omega)]
    exact decryptHandshake_hello hkey (iff_of_true (by omega) htemp) (by omega)

end CryptoAuth

namespace InterfaceController

open CryptoAuth

variable {C : Crypto}

/-! ## What cannot fail -/

variable {now : Nat} {ici : Iface C}

theorem receivedPostCryptoAuth_returns {capacity} {content} {index} {ep}
    (hcapacity : capacity % 4 = 0) :
    (receivedPostCryptoAuth now capacity content index ep ici).Returns := by
  unfold receivedPostCryptoAuth
  generalize track now content ep ici.switchCore = tracked
  obtain ⟨ep, switchCore, dropped, pings⟩ := tracked
  cases dropped with
  | true => exact returns_ret _
  | false => simp [hcapacity]

theorem acceptBeacon_returns {lladdr} {password} {addr}
    (hslot : ici.switchCore.addInterface.isSome) :
    (acceptBeacon now lladdr password addr ici).Returns := by
  obtain ⟨⟨slot, path, switchCore⟩, hadd⟩ := Option.isSome_iff_exists.mp hslot
  unfold acceptBeacon
  split
  · exact returns_ret _
  · simp only [hadd]
    exact returns_bind.mpr ((sendPeer_returns _ _ _).imp fun outs h => ⟨h, returns_ret _⟩)

theorem handleBeacon_returns {msg} (hslot : ici.switchCore.addInterface.isSome) :
    (handleBeacon now msg ici).Returns := by
  unfold handleBeacon
  split
  · exact returns_ret _
  split
  · exact returns_ret _
  split
  · exact returns_ret _
  next hlength =>
  have hshift : msg.shiftAddress = .ret () := by
    rw [Datagram.shiftAddress, assertTrue_eq_ret]
    simp only [decide_eq_true_eq]
    omega
  simp only [hshift, ret_bind, returns_assertTrue_bind, decide_eq_true_eq]
  refine ⟨by omega, ?_⟩
  split
  · exact returns_ret _
  split
  · exact returns_ret _
  split
  · exact returns_ret _
  · exact acceptBeacon_returns hslot

theorem acceptPeer_returns {capacity} {lladdr} {content} {caSession}
    (hkey : caSession.herPublicKey ≠ .zero) (hnew : ici.peerMap.indexForKey lladdr = none)
    (hslot : ici.switchCore.addInterface.isSome) (hcapacity : capacity % 4 = 0) :
    (acceptPeer now capacity lladdr content caSession ici).Returns := by
  obtain ⟨⟨slot, path, switchCore⟩, hadd⟩ := Option.isSome_iff_exists.mp hslot
  unfold acceptPeer
  simp only [returns_assertTrue_bind, hnew, hadd]
  exact ⟨by simpa using hkey, rfl, receivedPostCryptoAuth_returns hcapacity⟩

/-! ## What can -/

/-- A hello that names the key of all zeros, sent to this node alone. -/
def BlankHello (msg : Datagram C) : Prop :=
  msg.lladdr.addrLen ≤ msg.length ∧ msg.lladdr.bcast = false ∧ 120 ≤ msg.content.length ∧
    msg.content.nonce ≤ 1 ∧ msg.content.publicKey = .zero

theorem headerSize_of_hello {nonce} (h : nonce ≤ 1) : headerSize nonce = 120 := by
  rw [headerSize, if_pos (by omega)]

/-- A long enough hello from a new address returns unless it names the key of all zeros. -/
theorem handleUnexpectedIncoming_hello {now} {msg} {ici : Iface C}
    (hslot : ici.switchCore.addInterface.isSome) (hnew : ici.peerMap.indexForKey msg.lladdr = none)
    (hshift : msg.lladdr.addrLen ≤ msg.length) (hlength : 120 ≤ msg.content.length)
    (hnonce : msg.content.nonce ≤ 1) :
    (handleUnexpectedIncoming now msg ici).Returns ↔ msg.content.publicKey ≠ .zero := by
  obtain ⟨haddress, hcapacity, haddr⟩ := msg.aligned
  unfold handleUnexpectedIncoming
  simp only [Datagram.shiftAddress, returns_assertTrue_bind, decide_eq_true_eq, hshift, true_and]
  rw [if_neg (by omega), returns_assertTrue_bind, if_neg (by omega), decryptAt, if_neg (by omega)]
  simp only [decide_eq_true_eq, returns_bind, bind_eq_ret, assertTrue_eq_ret]
  rw [← @decrypt_newSession_returns_iff C ici.ca (seconds now) true _ hlength hnonce]
  constructor
  · rintro ⟨-, result, ⟨-, -, -, -, hdecrypt⟩, -⟩
    exact ⟨result, hdecrypt⟩
  · rintro ⟨⟨err, caSession, content⟩, hdecrypt⟩
    refine ⟨by omega, _, ⟨(), by omega, (), by omega, hdecrypt⟩, ?_⟩
    split
    · exact returns_ret _
    -- the session that was made still has the key it was made with
    have hher := (decrypt_receives (at_newSession _ _ _) hdecrypt).1
    have hne := (decrypt_newSession_returns_iff hlength hnonce).mp ⟨_, hdecrypt⟩
    refine acceptPeer_returns ?_ hnew hslot (by rw [headerSize_of_hello hnonce]; omega)
    rw [hher]
    exact hne

theorem handleUnexpectedIncoming_other {msg} (hshift : msg.lladdr.addrLen ≤ msg.length)
    (h : msg.content.length < 120 ∨ 1 < msg.content.nonce) :
    (handleUnexpectedIncoming now msg ici).Returns := by
  obtain ⟨haddress, hcapacity, haddr⟩ := msg.aligned
  unfold handleUnexpectedIncoming
  simp only [Datagram.shiftAddress, returns_assertTrue_bind, decide_eq_true_eq, hshift, true_and]
  split
  · exact returns_ret _
  rw [returns_assertTrue_bind, if_pos (by omega)]
  exact ⟨decide_eq_true (by omega), returns_ret _⟩

/-- A message from an address that is not in the map, while the switch has a free slot, ends the node if
and only if it is a hello that names the key of all zeros. -/
theorem handleIncomingFromWire_returns_iff (now : Nat) (msg : Datagram C) (ici : Iface C)
    (hslot : ∃ ifIndex < NumberCompress.INTERFACES, (ici.switchCore.interfaces ifIndex).added = false)
    (hnew : ici.peerMap.indexForKey msg.lladdr = none) :
    (handleIncomingFromWire now msg ici).Returns ↔ ¬ BlankHello msg := by
  obtain ⟨haddress, hcapacity, haddr⟩ := msg.aligned
  have hadd := Switch.SwitchCore.addInterface_isSome.mpr hslot
  unfold handleIncomingFromWire BlankHello
  split
  next hrunt =>
    have h8 : 8 ≤ msg.lladdr.addrLen := Nat.le_add_right 8 _
    simp only [returns_ret, true_iff]
    omega
  next hlong =>
  simp only [returns_assertTrue_bind, decide_eq_true_eq, haddress, haddr, true_and, hnew]
  cases hbcast : msg.lladdr.bcast with
  | true => simp [handleBeacon_returns hadd]
  | false =>
    by_cases hhello : 120 ≤ msg.content.length ∧ msg.content.nonce ≤ 1
    · have h := @handleUnexpectedIncoming_hello C now msg ici hadd hnew (by omega) hhello.1 hhello.2
      simp only [Bool.false_eq_true, if_false, h]
      have hshift : msg.lladdr.addrLen ≤ msg.length := by omega
      simp [hshift, hhello]
    · have h : (handleUnexpectedIncoming now msg ici).Returns :=
        handleUnexpectedIncoming_other (by omega) (by omega)
      simp only [Bool.false_eq_true, if_false, h, true_iff]
      omega

/-- A node that has just been started. -/
def started : Iface Symbolic.crypto :=
  .new _ (Symbolic.node 9)

/-- The shortest hello there is, with a key in it and nothing sealed by anyone. -/
def helloNaming (publicKey : Key) : Datagram Symbolic.crypto where
  address := 0
  capacity := 3496
  length := 144
  lladdr := { flags := 0, type := 2, prefixLen := 0, native := List.replicate 16 0 }
  content := { length := 120, nonce := 0, auth := { type := 0, lookup := [], derivations := 0, additional := 0 }
               handshakeNonce := 0, publicKey
               box := { secret := none, nonce := 0, plain := List.replicate 32 0 }
               nonce_lt := by decide, sized := fun _ => rfl }
  beacon := { version := 0, password := [], publicKey }
  aligned := by decide
  content_length := rfl

theorem handleIncomingFromWire_returns_started :
    (handleIncomingFromWire 0 (helloNaming (Symbolic.key 1)) started).Returns :=
  (handleIncomingFromWire_returns_iff 0 (helloNaming (Symbolic.key 1)) started
    ⟨0, by decide, rfl⟩ rfl).mpr (fun h => absurd h.2.2.2.2 (by decide))

theorem handleIncomingFromWire_aborts_started :
    started.peerMap.indexForKey (helloNaming .zero).lladdr = none ∧
      (started.switchCore.interfaces 0).added = false ∧
      handleIncomingFromWire 0 (helloNaming .zero) started = .abort "knowHerKey(session)" :=
  ⟨rfl, rfl, rfl⟩

end InterfaceController

end Hyperboria
