/-
What a packet that `CryptoAuth_decrypt` does not accept leaves behind. Every
return with an error leaves the session as it was, but for one: the last step of
the handshake moves the replay window past the packet's nonce before it looks
whether the packet was authentic (`decrypt_atomic_iff`).
-/
import Hyperboria.Crypto.DecryptCases
import Hyperboria.Crypto.Symbolic

namespace Hyperboria.CryptoAuth

section
variable {C : Crypto}

/-- The part of a session that decides how the next packets are treated. -/
structure Protocol (C : Crypto) where
  nextNonce : Nat
  isInitiator : Bool
  established : Bool
  ourTempPrivKey : Key
  ourTempPubKey : Key
  herTempPubKey : Key
  sharedSecret : C.Secret
  baseOffset : Nat
  bitfield : BitVec 64
deriving DecidableEq

/-- The protocol state of a session. -/
def protocol (session : Session C) : Protocol C :=
  { nextNonce := session.nextNonce
    isInitiator := session.isInitiator
    established := session.established
    ourTempPrivKey := session.ourTempPrivKey
    ourTempPubKey := session.ourTempPubKey
    herTempPubKey := session.herTempPubKey
    sharedSecret := session.sharedSecret
    baseOffset := session.replayProtector.baseOffset
    bitfield := session.replayProtector.bitfield }

/-- The states a session of the node `ca` gets into, whatever comes in. -/
inductive Reachable (ca : Context) : Session C → Prop where
  | new (now : Nat) (herPublicKey : Key) (requireAuth : Bool) :
      Reachable ca (newSession C now herPublicKey requireAuth)
  | encrypt {now draw msg packet} {session session' : Session C} : Reachable ca session →
      CryptoAuth.encrypt ca now draw session msg = .ret (session', packet) → Reachable ca session'
  | decrypt {now packet err content} {session session' : Session C} : Reachable ca session →
      CryptoAuth.decrypt ca now session packet = .ret (err, session', content) → Reachable ca session'
  | setAuth {password login} {session : Session C} : Reachable ca session →
      Reachable ca (CryptoAuth.setAuth password login session)
  | reset {session : Session C} : Reachable ca session → Reachable ca (CryptoAuth.reset session)
  | timeout {now} {session session' : Session C} : Reachable ca session →
      resetIfTimeout now session = .ret session' → Reachable ca session'

theorem decryptHandshake_atomic {ca} {session session'} {msg : Packet C} {err}
    {content} (h : decryptHandshake ca session msg.nonce msg = .ret (err, session', content)) (herr : err ≠ .none) :
    session' = session := by
  obtain ⟨-, hs, -⟩ | ⟨hkey, -, _, -, hs⟩ := decryptHandshake_cases h
  · exact hs
  · obtain ⟨hs, -⟩ | ⟨rfl, -⟩ := shakeHands_cases hkey hs
    · exact hs
    · exact absurd rfl herr

/-- The packet is tried as the last step of the handshake, and the window does not already stand
where that step puts it. -/
def MovesWindow (session : Session C) (msg : Packet C) : Prop :=
  TriesFinalStep session msg ∧
    ¬ (session.replayProtector.baseOffset = uint32 (msg.nonce + 1) ∧ session.replayProtector.bitfield = 0)

theorem protocol_rebase_iff (session : Session C) (context : ReplayProtector) (nonce : Nat) :
    protocol { session with replayProtector := rebase context nonce } = protocol session ↔
      session.replayProtector.baseOffset = uint32 (nonce + 1) ∧ session.replayProtector.bitfield = 0 := by
  simp only [protocol, Protocol.mk.injEq, true_and]
  exact ⟨fun h => ⟨h.1.symm, h.2.symm⟩, fun h => ⟨h.1.symm, h.2.symm⟩⟩

/-- A packet that is not authentic leaves the protocol state as it was, unless it is tried as the last
step of the handshake: then it moves the window. -/
theorem decrypt_atomic_iff {ca : Context} {nowSecs : Nat} {session session' : Session C} {msg : Packet C}
    {err : DecryptErr} {content : List UInt8}
    (h : decrypt ca nowSecs session msg = .ret (err, session', content)) (herr : err ≠ .none)
    (hreplay : err ≠ .replay) : protocol session' = protocol session ↔ ¬ MovesWindow session msg := by
  obtain ⟨-, hnot, rfl⟩ | ⟨-, htries, context, rfl⟩ | ⟨rfl, -⟩ | ⟨-, -, -, ⟨⟨rfl, -⟩, -⟩ | ⟨rfl, -⟩⟩ |
    ⟨hnonce, -, hs⟩ := decrypt_cases h
  · exact iff_of_true rfl fun hm => hnot hm.1
  · rw [protocol_rebase_iff, MovesWindow, not_and, not_not]
    exact ⟨fun hw _ => hw, fun hw => hw htries⟩
  · exact absurd rfl herr
  · exact absurd rfl herr
  · exact absurd rfl hreplay
  · rw [decryptHandshake_atomic hs herr]
    exact iff_of_true rfl fun hm => absurd hm.1.2.1 (by omega)

end

/-! ## A forged packet and a genuine one -/

section
open Symbolic

/-- Node 2 says hello to node 1, which sends its key; the answer of node 2 is on its way. -/
def waiting : Er (Session crypto × Packet crypto) := do
  let (peer, hello) ← encrypt (node 2) 0 (draw 3) (newSession crypto 0 (key 1) false) []
  let (_, session, _) ← decrypt (node 1) 0 (newSession crypto 0 (key 2) false) hello
  let (session, keyPacket) ← encrypt (node 1) 0 (draw 4) session []
  let (_, peer, _) ← decrypt (node 2) 0 peer keyPacket
  let (_, genuine) ← encrypt (node 2) 0 (draw 5) peer [7]
  .ret (session, genuine)

/-- A data packet nobody sealed for this session. -/
def forged : Packet crypto :=
  { length := 21, nonce := 9, auth := (draw 0).auth, handshakeNonce := 0, publicKey := key 0
    box := { secret := none, nonce := 0, plain := [0] }, nonce_lt := by decide, sized := fun _ => rfl }

theorem waiting_reachable {session} {genuine}
    (h : waiting = .ret (session, genuine)) : Reachable (node 1) session := by
  simp only [waiting, Er.bind_eq_ret, Prod.exists] at h
  obtain ⟨_, _, _, _, _, _, hd, _, _, he, _, _, _, _, _, _, _, rfl, _⟩ := h
  exact .encrypt (.decrypt (.new 0 (key 2) false) hd) he

/-- What the genuine packet comes to, with and without the forged one before it. -/
def outcomes : Er (DecryptErr × Nat × Nat × DecryptErr × DecryptErr) := do
  let (session, genuine) ← waiting
  let (err, session', _) ← decrypt (node 1) 0 session forged
  let (before, _, _) ← decrypt (node 1) 0 session genuine
  let (after, _, _) ← decrypt (node 1) 0 session' genuine
  .ret (err, session.replayProtector.baseOffset, session'.replayProtector.baseOffset, before, after)

theorem outcomes_eq : outcomes = .ret (.decrypt, 0, 10, .none, .replay) := by decide +kernel

/-- A forged packet moves the window of a waiting session, and the genuine packet that would have been
accepted is then refused. -/
theorem decrypt_not_atomic : ∃ (session session' : Session crypto) (genuine : Packet crypto),
    Reachable (node 1) session ∧
    (∃ content, decrypt (node 1) 0 session forged = .ret (.decrypt, session', content)) ∧
    protocol session' ≠ protocol session ∧
    (∃ s content, decrypt (node 1) 0 session genuine = .ret (.none, s, content)) ∧
    ∃ s content, decrypt (node 1) 0 session' genuine = .ret (.replay, s, content) := by
  have h := outcomes_eq
  simp only [outcomes, Er.bind_eq_ret, Prod.exists, Er.ret.injEq, Prod.mk.injEq] at h
  obtain ⟨session, genuine, hw, err, session', content, hf, before, s, c, hb, after, t, c', ha, rfl, h0, h10,
    rfl, rfl⟩ := h
  refine ⟨session, session', genuine, waiting_reachable hw, ⟨content, hf⟩, fun heq => ?_, ⟨s, c, hb⟩, t, c', ha⟩
  have hbase := congrArg Protocol.baseOffset heq
  simp only [protocol, h0, h10] at hbase
  exact absurd hbase (by decide)

/-- The general statement at the forged packet. -/
theorem decrypt_atomic_iff_forged : ∃ (session session' : Session crypto) (content : List UInt8),
    decrypt (node 1) 0 session forged = .ret (.decrypt, session', content) ∧
    (protocol session' = protocol session ↔ ¬ MovesWindow session forged) := by
  have h := outcomes_eq
  simp only [outcomes, Er.bind_eq_ret, Prod.exists, Er.ret.injEq, Prod.mk.injEq] at h
  obtain ⟨session, _, _, _, session', content, hf, _, _, _, _, _, _, _, _, rfl, _, _, _, _⟩ := h
  exact ⟨session, session', content, hf, decrypt_atomic_iff hf (by decide) (by decide)⟩

end

end Hyperboria.CryptoAuth
