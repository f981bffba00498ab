/-
What `CryptoAuth_encrypt` and `CryptoAuth_decrypt` answer, as equations. The lemmas of
`DecryptCases` start from a call that has returned; these say of a session that knows
its peer, and whose temporary key fits its state, what the call comes to, so that one
can tell from them that it returns.
-/
import Hyperboria.Crypto.Stages

namespace Hyperboria.CryptoAuth

open Er

section
variable {C : Crypto} {ca : Context} {s : Session C}

/-! ## Sending -/

/-- The keys are all that is drawn. -/
theorem withTempKeys_eq (draw : Draw) (s : Session C) : withTempKeys draw s =
    { s with
      ourTempPrivKey := (withTempKeys draw s).ourTempPrivKey
      ourTempPubKey := (withTempKeys draw s).ourTempPubKey } := by
  unfold withTempKeys
  split
  · rfl
  · rfl

/-- The session that has sent a hello or a key. -/
def handshakeSession (draw : Draw) (s : Session C) : Session C :=
  { withTempKeys draw s with
    isInitiator := if s.nextNonce < 2 then true else s.isInitiator
    nextNonce := if s.nextNonce < 2 then 1 else 3 }

/-- The secret a hello or a key is sealed with. -/
def sealingSecret (ca : Context) (s : Session C) (hash : Option Key) : C.Secret :=
  C.getSharedSecret ca.privateKey (if s.nextNonce < 2 then s.herPublicKey else s.herTempPubKey) hash

theorem uint32_lt (s : Session C) : uint32 s.nextNonce < 2 ^ 32 := Nat.mod_lt _ (by decide)

theorem box_sized (s : Session C) (box : C.Cipher) (_ : boxAt (uint32 s.nextNonce) ≤ boxAt (uint32 s.nextNonce) + C.size box) :
    boxAt (uint32 s.nextNonce) + C.size box = boxAt (uint32 s.nextNonce) + C.size box := rfl

/-- The packet that is sent. -/
def handshakePacket (ca : Context) (draw : Draw) (s : Session C) (hash : Option Key) (auth : Challenge)
    (msg : List UInt8) : Packet C :=
  let box := C.afternm (sealingSecret ca s hash) draw.handshakeNonce ((withTempKeys draw s).ourTempPubKey.1 ++ msg)
  { length := boxAt (uint32 s.nextNonce) + C.size box, nonce := uint32 s.nextNonce, auth
    handshakeNonce := draw.handshakeNonce, publicKey := ca.publicKey, box
    nonce_lt := uint32_lt s, sized := box_sized s box }

variable {draw : Draw} {msg : List UInt8}

/-- `encryptHandshake` reads the temporary keys it has drawn, and nothing else of them matters to its checks. -/
theorem encryptHandshake_eq {hash} {auth} (hkey : knowHerKey s = true)
    (hpass : passwordAuth draw s = .ret (hash, auth)) (hstate : s.nextNonce < 2 ↔ s.herTempPubKey = .zero)
    (hn : s.nextNonce < 4) :
    encryptHandshake ca draw s msg = .ret (handshakeSession draw s, handshakePacket ca draw s hash auth msg) := by
  have hnext := congrArg Session.nextNonce (withTempKeys_eq draw s)
  have hher := congrArg Session.herPublicKey (withTempKeys_eq draw s)
  have htemp := congrArg Session.herTempPubKey (withTempKeys_eq draw s)
  have hinit := congrArg Session.isInitiator (withTempKeys_eq draw s)
  unfold encryptHandshake
  rw [assertTrue_bind hkey, hpass]
  -- from here on the session is the one with the temporary keys
  change (cryptoAuthDebug (withTempKeys draw s) >>= fun _ => handshakeSecret ca (withTempKeys draw s) hash >>= _) = _
  rw [cryptoAuthDebug_bind hkey hher]
  unfold handshakeSecret handshakeSession handshakePacket sealingSecret
  rw [hnext]
  by_cases h2 : s.nextNonce < 2
  · simp only [h2, if_true, ret_bind, hher]
    rw [assertTrue_bind (stateCheck_iff.mpr (iff_of_true Nat.one_lt_two (htemp.trans (hstate.mp h2))))]
  · have hz : s.herTempPubKey ≠ .zero := fun h => h2 (hstate.mpr h)
    simp only [h2, if_false, htemp, hinit]
    rw [assertTrue_bind (by simpa using hz), assertTrue_bind (by simp; omega), ret_bind]
    rw [assertTrue_bind (stateCheck_iff.mpr (iff_of_false (by simp) (htemp ▸ hz)))]

variable {now : Nat}

/-- A session that has not timed out and whose counter has not come to its end. -/
theorem encrypt_handshake (htime : resetIfTimeout now s = .ret s) (hn : s.nextNonce < 4) :
    encrypt ca now draw s msg = encryptHandshake ca draw s msg := by
  unfold encrypt
  rw [htime, ret_bind]
  simp only [show ¬ s.nextNonce ≥ 0xfffffff0 by omega, if_false, hn, if_true]

/-- The packet a session that has the secret sends. -/
def dataPacket (ca : Context) (draw : Draw) (s : Session C) (secret : C.Secret) (msg : List UInt8) : Packet C :=
  let box := C.afternm secret (counterNonce s.nextNonce s.isInitiator) msg
  { length := boxAt (uint32 s.nextNonce) + C.size box, nonce := uint32 s.nextNonce, auth := draw.auth
    handshakeNonce := draw.handshakeNonce, publicKey := ca.publicKey, box
    nonce_lt := uint32_lt s, sized := box_sized s box }

variable {secret : C.Secret}

/-- A data packet; the first one computes the secret. -/
theorem encrypt_data (htime : resetIfTimeout now s = .ret s) (h4 : 4 ≤ s.nextNonce) (hend : s.nextNonce < 0xfffffff0)
    (hmsg : msg ≠ []) (hsecret : finalStep s = .ret { s with sharedSecret := secret }) :
    encrypt ca now draw s msg =
      .ret ({ s with sharedSecret := secret, nextNonce := s.nextNonce + 1 }, dataPacket ca draw s secret msg) := by
  unfold encrypt
  rw [htime]
  have hnext : uint32 (s.nextNonce + 1) = s.nextNonce + 1 := Nat.mod_eq_of_lt (by omega)
  simp only [show ¬ s.nextNonce ≥ 0xfffffff0 by omega, show ¬ s.nextNonce < 4 by omega, if_false, hsecret, ret_bind,
    hnext]
  rw [assertTrue_bind (decide_eq_true (List.length_pos_iff.mpr hmsg))]
  rfl

/-! ## Opened handshake packets -/

variable {packet : Packet C} {plain : List UInt8} {nonce : Nat}

theorem shakeHands_abort {message} (hz : Key.ofBytes plain ≠ .zero)
    (hdupe : isDupe s nonce (Key.ofBytes plain) = .ret false)
    (hreceived : received ca s nonce (Key.ofBytes plain) = .abort message) :
    shakeHands ca s nonce plain = .abort message := by
  simp only [shakeHands, Key.isZero_eq_false.mpr hz, hdupe, ret_bind, Bool.false_eq_true, if_false, hreceived,
    abort_bind]

variable {tempKey : Key}

/-- No assertion fails on a hello once the state has been checked. -/
theorem decryptHandshake_hello (hkey : knowHerKey s = true) (hstate : s.nextNonce < 2 ↔ s.herTempPubKey = .zero)
    (hn : packet.nonce < 2) : (decryptHandshake ca s packet.nonce packet).Returns := by
  by_cases hopens : ∃ plain, Opens ca s packet plain
  · obtain ⟨plain, hopens⟩ := hopens
    rw [decryptHandshake_of_opens hkey hstate hopens]
    by_cases hz : Key.ofBytes plain = .zero
    · exact ⟨_, shakeHands_wiseguy hkey hz⟩
    by_cases hknown : s.herTempPubKey = Key.ofBytes plain
    · exact ⟨_, shakeHands_knownHello hkey hn hz hknown⟩
    · exact ⟨_, shakeHands_newHello hkey hn hz hknown⟩
  · obtain ⟨err, -, hret⟩ := decryptHandshake_of_not_opens hkey hstate (not_exists.mp hopens)
    exact ⟨_, hret⟩

/-- The key packet is dropped for its key: it is no new one, or no repetition of the one known. -/
def DupeKey (s : Session C) (nonce : Nat) (tempKey : Key) : Prop :=
  4 ≤ s.nextNonce ∧ (nonce = 2 ↔ s.herTempPubKey = tempKey)

instance (s : Session C) (nonce : Nat) (tempKey : Key) : Decidable (DupeKey s nonce tempKey) :=
  inferInstanceAs (Decidable (_ ∧ _))

theorem isDupe_key (hn : nonce = 2 ∨ nonce = 3) (hher : 4 ≤ s.nextNonce → s.herTempPubKey ≠ .zero) :
    isDupe s nonce tempKey = .ret (decide (DupeKey s nonce tempKey)) := by
  unfold isDupe
  rw [if_neg (by omega)]
  by_cases h4 : 4 ≤ s.nextNonce
  · have hassert : (!s.herTempPubKey.isZero) = true := by rw [Bool.not_eq_true', Key.isZero_eq_false]; exact hher h4
    rcases hn with rfl | rfl
    · rw [if_pos ⟨rfl, h4⟩]
      by_cases hsame : s.herTempPubKey = tempKey
      · rw [if_pos hsame, assertTrue_bind hassert, decide_eq_true (show DupeKey s 2 tempKey from ⟨h4, iff_of_true rfl hsame⟩)]
      · rw [if_neg hsame, decide_eq_false fun h : DupeKey s 2 tempKey => hsame (h.2.mp rfl)]
    · rw [if_neg (by simp), if_pos ⟨rfl, h4⟩]
      by_cases hsame : s.herTempPubKey = tempKey
      · rw [if_neg (not_not_intro hsame), decide_eq_false fun h : DupeKey s 3 tempKey => absurd (h.2.mpr hsame) (by decide)]
      · rw [if_pos hsame, assertTrue_bind hassert,
          decide_eq_true (show DupeKey s 3 tempKey from ⟨h4, iff_of_false (by decide) hsame⟩)]
  · rw [if_neg (fun h => h4 h.2), if_neg (fun h => h4 h.2), decide_eq_false fun h : DupeKey s nonce tempKey => h4 h.1]

/-- A key packet that comes while data is already being sent. -/
theorem recalculate_eq (hkey : knowHerKey s = true) (hz : tempKey ≠ .zero)
    (hour : nonce = 2 → s.ourTempPrivKey ≠ .zero) (hsame : nonce ≠ 2 → s.herTempPubKey = tempKey) :
    recalculate s nonce tempKey = .ret { s with
      herTempPubKey := tempKey
      sharedSecret := if nonce = 2 then C.getSharedSecret s.ourTempPrivKey tempKey none else s.sharedSecret } := by
  unfold recalculate
  split
  next h2 =>
    have hdebug : cryptoAuthDebug { s with herTempPubKey := tempKey } = .ret () := cryptoAuthDebug_eq hkey
    dsimp only
    rw [hdebug, ret_bind, assertTrue_bind (by simpa using hour h2), assertTrue_bind (by simpa using hz)]
  next h2 =>
    rw [assertTrue_bind (decide_eq_true (hsame h2))]
    obtain rfl := hsame h2
    rfl

/-- A key packet. It is dropped for its key, or of no use to a session that has not asked for one, or
taken. -/
theorem shakeHands_key (hkey : knowHerKey s = true) (hn : nonce = 2 ∨ nonce = 3) (hz : Key.ofBytes plain ≠ .zero)
    (hest : s.established = false) (hher : 4 ≤ s.nextNonce → s.herTempPubKey ≠ .zero)
    (hcount : s.nextNonce + 1 < 2 ^ 32) (hour : nonce = 2 → 4 < s.nextNonce → s.ourTempPrivKey ≠ .zero) :
    shakeHands ca s nonce plain = .ret (
      if DupeKey s nonce (Key.ofBytes plain) then (.invalidPacket, s, plain.drop 32)
      else if s.nextNonce = 0 ∨ s.nextNonce = 2 ∨ s.nextNonce = 3 then (.strayKey, s, plain.drop 32)
      else (.none, take s (Key.ofBytes plain) nonce, plain.drop 32)) := by
  have hdebug := cryptoAuthDebug_eq hkey
  have hdupe := @isDupe_key C s nonce (Key.ofBytes plain) hn hher
  split
  next hdrop =>
    rw [decide_eq_true hdrop] at hdupe
    exact shakeHands_dupe hkey hz hdupe
  next hkeep =>
  rw [decide_eq_false hkeep] at hdupe
  have hreceived : received ca s nonce (Key.ofBytes plain) = receivedKey s nonce (Key.ofBytes plain) :=
    if_neg (by omega)
  -- a repeated key packet that was not dropped has the key that is known
  have hsame : 4 ≤ s.nextNonce → nonce ≠ 2 → s.herTempPubKey = Key.ofBytes plain := by
    intro h4 hne
    by_contra hdiff
    exact hkeep ⟨h4, iff_of_false hne hdiff⟩
  unfold receivedKey at hreceived
  split
  next h023 =>
    rw [if_pos h023, hdebug] at hreceived
    exact shakeHands_leave hz hdupe hreceived
  next h023 =>
  rw [if_neg h023] at hreceived
  by_cases h1 : s.nextNonce = 1
  · rw [if_pos h1] at hreceived
    rw [shakeHands_go hz hdupe hreceived (.inl (by simp [h1]))]
    simp [take, h1]
  rw [if_neg h1] at hreceived
  by_cases h4 : s.nextNonce = 4
  · rw [if_pos h4] at hreceived
    by_cases h2 : nonce = 2
    · rw [if_pos h2] at hreceived
      rw [shakeHands_go hz hdupe hreceived (.inr ⟨by simp [h4], by simp [h4]⟩)]
      simp [take, h4]
    · have hher' := hsame (by omega) h2
      rw [if_neg h2, assertTrue_bind (decide_eq_true hher')] at hreceived
      rw [shakeHands_go hz hdupe hreceived (.inr ⟨by simp [h4], by simp [h4]⟩)]
      simp [take, h4, hher']
  have h5 : 4 < s.nextNonce := by omega
  rw [if_neg h4, assertTrue_bind (by rw [hest]; rfl),
    recalculate_eq hkey hz (fun h2 => hour h2 h5) (hsame (Nat.le_of_lt h5)), ret_bind] at hreceived
  rw [cryptoAuthDebug_bind hkey (by rfl)] at hreceived
  have huint : uint32 (s.nextNonce + 1) = s.nextNonce + 1 := Nat.mod_eq_of_lt hcount
  simp only [huint] at hreceived
  rw [shakeHands_go hz hdupe hreceived (.inl (Nat.lt_succ_self _))]
  simp [take, h5, Nat.not_le.mpr h5]

/-- The assertion a key packet can fail, if our temporary key is zero. -/
theorem shakeHands_key_zero (hkey : knowHerKey s = true) (hz : Key.ofBytes plain ≠ .zero)
    (hest : s.established = false) (hher : 4 ≤ s.nextNonce → s.herTempPubKey ≠ .zero) (h5 : 4 < s.nextNonce)
    (hour : s.ourTempPrivKey = .zero) :
    shakeHands ca s 2 plain =
      if DupeKey s 2 (Key.ofBytes plain) then .ret (.invalidPacket, s, plain.drop 32)
      else .abort "!Bits_isZero(session->ourTempPrivKey, 32)" := by
  have hdupe := @isDupe_key C s 2 (Key.ofBytes plain) (.inl rfl) hher
  split
  next hdrop =>
    rw [decide_eq_true hdrop] at hdupe
    exact shakeHands_dupe hkey hz hdupe
  next hkeep =>
    rw [decide_eq_false hkeep] at hdupe
    have hreceived : received ca s 2 (Key.ofBytes plain) = receivedKey s 2 (Key.ofBytes plain) := if_neg (by decide)
    unfold receivedKey recalculate at hreceived
    rw [if_neg (by omega), if_neg (by omega), if_neg (by omega), assertTrue_bind (by rw [hest]; rfl),
      if_pos rfl] at hreceived
    refine shakeHands_abort hz hdupe ?_
    rw [hreceived]
    rw [cryptoAuthDebug_bind hkey (by rfl), hour]
    rfl

/-! ## Data packets -/

theorem decryptMessage_eq {content}
    (hopen : C.openAfternm secret (counterNonce nonce (!s.isInitiator)) content.box = some plain)
    (hpass : (s.replayProtector.checkNonce nonce).1 = true) :
    decryptMessage s nonce content secret =
      .ret (.none, { s with replayProtector := (s.replayProtector.checkNonce nonce).2 }, plain) := by
  unfold decryptMessage
  rw [hopen]
  simp only [hpass, if_true]

theorem decryptMessage_returns {content} (hkey : knowHerKey s = true) :
    (decryptMessage s nonce content secret).Returns := by
  unfold decryptMessage
  split
  · rw [cryptoAuthDebug_eq hkey]
    exact returns_ret _
  · dsimp only
    split
    · exact returns_ret _
    · rw [cryptoAuthDebug_bind hkey (by rfl)]
      exact returns_ret _

theorem decrypt_first (hkey : knowHerKey s = true) (htries : TriesFinalStep s packet) (hour : s.ourTempPrivKey ≠ .zero)
    (hher : s.herTempPubKey ≠ .zero)
    (hopen : C.openAfternm (C.getSharedSecret s.ourTempPrivKey s.herTempPubKey none)
      (counterNonce packet.nonce (!s.isInitiator)) packet.box = some plain)
    (hpass : (s.replayProtector.checkNonce packet.nonce).1 = true) :
    decrypt ca now s packet = .ret (.none, establish s now packet.nonce, plain) := by
  obtain ⟨hlength, hnonce, hest, hnext⟩ := htries
  simp only [decrypt, Nat.not_lt.mpr hlength, hest, hnonce, Nat.not_lt.mpr hnext, Bool.not_false, if_true, if_false,
    cryptoAuthDebug_eq hkey, ret_bind]
  rw [assertTrue_bind (by simpa using hour), assertTrue_bind (by simpa using hher),
    decryptMessage_eq hopen hpass, ret_bind]
  rw [cryptoAuthDebug_bind hkey (by rfl)]
  rfl

theorem decrypt_data (hlength : 20 ≤ packet.length) (hnonce : 4 ≤ packet.nonce) (hest : s.established = true)
    (hsecret : s.sharedSecret ≠ C.zeroSecret)
    (hopen : C.openAfternm s.sharedSecret (counterNonce packet.nonce (!s.isInitiator)) packet.box = some plain)
    (hpass : (s.replayProtector.checkNonce packet.nonce).1 = true) :
    decrypt ca now s packet = .ret (.none,
      { s with
        replayProtector := (s.replayProtector.checkNonce packet.nonce).2
        timeOfLastPacket := uint32 now },
      plain) := by
  simp only [decrypt, Nat.not_lt.mpr hlength, hest, hnonce, Bool.not_true, Bool.false_eq_true, if_false]
  rw [assertTrue_bind (decide_eq_true hsecret), decryptMessage_eq hopen hpass, ret_bind]
  simp only [if_true, hest]

/-- A handshake packet goes to `decryptHandshake`, unless it is a key for an established session. -/
theorem decrypt_handshake (hkey : knowHerKey s = true) (hlength : 20 ≤ packet.length) (hnonce : packet.nonce < 4)
    (hest : 2 ≤ packet.nonce → s.established = false) :
    decrypt ca now s packet = decryptHandshake ca s packet.nonce packet := by
  simp only [decrypt, Nat.not_lt.mpr hlength, if_false, ge_iff_le, Nat.not_le.mpr hnonce, cryptoAuthDebug_eq hkey,
    ret_bind]
  split
  · rfl
  next hest' =>
    rw [if_pos]
    by_contra hn
    exact hest' (by rw [hest (by omega)]; rfl)

end

end Hyperboria.CryptoAuth
