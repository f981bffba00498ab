/-
What `CryptoAuth_decrypt` can do, said once: for each of its parts, a lemma with
one case for each way the part can return. Nothing later unfolds the code of the
receiving side.
-/
import Hyperboria.Crypto.CryptoAuth

namespace Hyperboria.CryptoAuth

open Er

section
variable {C : Crypto}

variable {session : Session C}

@[simp] theorem cryptoAuthDebug_eq_ret {u} :
    cryptoAuthDebug session = .ret u ↔ knowHerKey session = true :=
  assertTrue_eq_ret

theorem cryptoAuthDebug_eq (hkey : knowHerKey session = true) : cryptoAuthDebug session = .ret () :=
  cryptoAuthDebug_eq_ret.mpr hkey

/-- The log line needs the peer's key and nothing else of the session. -/
theorem cryptoAuthDebug_bind {α} {session' : Session C} {f : Unit → Er α} (hkey : knowHerKey session = true)
    (h : session'.herPublicKey = session.herPublicKey) : (cryptoAuthDebug session' >>= f) = f () := by
  rw [cryptoAuthDebug_eq (by rwa [knowHerKey, h]), ret_bind]

theorem stateCheck_iff {n} {key : Key} : ((n < 2 : Bool) == key.isZero) = true ↔ (n < 2 ↔ key = .zero) := by
  rw [beq_iff_eq, Bool.eq_iff_iff, Key.isZero_eq_true, decide_eq_true_eq]

variable {err : DecryptErr}

theorem refusal_ne_none {auth} {userObj} (h : refusal session auth userObj = some err) :
    err ≠ .none := by
  rintro rfl
  unfold refusal at h
  split at h
  · split at h <;> simp at h
  · split at h
    · simp at h
    · split at h <;> simp at h

variable {ca : Context} {msg : Packet C}

/-! ## Opening a handshake packet -/

/-- The secret a handshake packet of this nonce is opened with. -/
def openingSecret (ca : Context) (s : Session C) (packet : Packet C) : C.Secret :=
  let hash := (getAuth packet.auth ca).map User.secret
  if packet.nonce < 2 then C.getSharedSecret ca.privateKey s.herPublicKey hash
  else C.getSharedSecret s.ourTempPrivKey s.herPublicKey hash

/-- The handshake packet is one the session lets in and can open. -/
structure Opens (ca : Context) (s : Session C) (packet : Packet C) (plain : List UInt8) : Prop where
  length : 120 ≤ packet.length
  author : s.herPublicKey = packet.publicKey
  welcome : refusal s packet.auth (getAuth packet.auth ca) = none
  asked : 2 ≤ packet.nonce → s.isInitiator = true
  opens : C.openAfternm (openingSecret ca s packet) packet.handshakeNonce packet.box = some plain

section
variable {plain : List UInt8}

theorem Opens.hello (h : Opens ca session msg plain) (hn : msg.nonce < 2) :
    C.openAfternm (C.getSharedSecret ca.privateKey session.herPublicKey ((getAuth msg.auth ca).map User.secret))
      msg.handshakeNonce msg.box = some plain := by
  have hopens := h.opens
  rwa [openingSecret, if_pos hn] at hopens

theorem Opens.answer (h : Opens ca session msg plain) (hn : 2 ≤ msg.nonce) :
    C.openAfternm (C.getSharedSecret session.ourTempPrivKey session.herPublicKey ((getAuth msg.auth ca).map User.secret))
      msg.handshakeNonce msg.box = some plain := by
  have hopens := h.opens
  rwa [openingSecret, if_neg (Nat.not_lt.mpr hn)] at hopens

variable (hkey : knowHerKey session = true) (hstate : session.nextNonce < 2 ↔ session.herTempPubKey = .zero)
include hkey hstate

theorem decryptHandshake_of_opens (h : Opens ca session msg plain) :
    decryptHandshake ca session msg.nonce msg = shakeHands ca session msg.nonce plain := by
  have hasked : ¬ (2 ≤ msg.nonce ∧ (!session.isInitiator) = true) := fun hn => by simp [h.asked hn.1] at hn
  have hopens := h.opens
  unfold openingSecret at hopens
  unfold decryptHandshake
  rw [if_neg (Nat.not_lt.mpr h.length), assertTrue_bind hkey, if_neg (not_not_intro h.author),
    assertTrue_bind (stateCheck_iff.mpr hstate)]
  dsimp only
  rw [h.welcome]
  rw [cryptoAuthDebug_eq hkey, ret_bind, if_neg hasked, hopens]

theorem decryptHandshake_of_not_opens (h : ∀ plain, ¬ Opens ca session msg plain) :
    ∃ err, err ≠ .none ∧ decryptHandshake ca session msg.nonce msg = .ret (err, session, []) := by
  have hdebug := cryptoAuthDebug_eq hkey
  unfold decryptHandshake
  split
  next => exact ⟨.runt, by simp, by rw [hdebug, ret_bind]⟩
  next hlength =>
  rw [assertTrue_bind hkey]
  split
  next => exact ⟨.wrongPermPubkey, by simp, by rw [hdebug, ret_bind]⟩
  next hauthor =>
  rw [assertTrue_bind (stateCheck_iff.mpr hstate)]
  dsimp only
  split
  next err hrefused => exact ⟨err, refusal_ne_none hrefused, by rw [hdebug, ret_bind]⟩
  next hwelcome =>
  rw [hdebug, ret_bind]
  split
  next => exact ⟨.strayKey, by simp, by rw [ret_bind]⟩
  next hasked =>
  split
  next => exact ⟨.handshakeDecryptFailed, by simp, by rw [ret_bind]⟩
  next plain hopens =>
    refine absurd ⟨by omega, not_not.mp hauthor, hwelcome, fun hn => ?_, hopens⟩ (h plain)
    simpa [hn] using hasked

end

variable {session' : Session C} {nonce : Nat} {content : List UInt8}

/-- A handshake packet is dropped, or opened with a secret of the session. -/
theorem decryptHandshake_cases (h : decryptHandshake ca session msg.nonce msg = .ret (err, session', content)) :
    (err ≠ .none ∧ session' = session ∧ ∀ plain, ¬ Opens ca session msg plain) ∨
      (knowHerKey session = true ∧ (session.nextNonce < 2 ↔ session.herTempPubKey = .zero) ∧
        ∃ plain, Opens ca session msg plain ∧ shakeHands ca session msg.nonce plain = .ret (err, session', content)) := by
  have hret := h
  unfold decryptHandshake at hret
  split at hret
  next hshort =>
    cases eq_of_bind_ret hret
    exact .inl ⟨by simp, rfl, fun _ hopens => absurd hopens.length (Nat.not_le.mpr hshort)⟩
  obtain ⟨_, hkey, hret⟩ := bind_inv hret
  rw [assertTrue_eq_ret] at hkey
  split at hret
  next hauthor =>
    cases eq_of_bind_ret hret
    exact .inl ⟨by simp, rfl, fun _ hopens => hauthor hopens.author⟩
  obtain ⟨_, hcheck, -⟩ := bind_inv hret
  have hstate := stateCheck_iff.mp (assertTrue_eq_ret.mp hcheck)
  by_cases hopens : ∃ plain, Opens ca session msg plain
  · obtain ⟨plain, hopens⟩ := hopens
    rw [decryptHandshake_of_opens hkey hstate hopens] at h
    exact .inr ⟨hkey, hstate, plain, hopens, h⟩
  · have hno := not_exists.mp hopens
    obtain ⟨err', herr, hdropped⟩ := decryptHandshake_of_not_opens hkey hstate hno
    cases hdropped.symm.trans h
    exact .inl ⟨herr, rfl, hno⟩

/-- A handshake packet whose handling comes back, and which the session can open, has been opened. -/
theorem decryptHandshake_opened {plain} {r} (hopens : Opens ca session msg plain)
    (h : decryptHandshake ca session msg.nonce msg = .ret r) :
    knowHerKey session = true ∧ (session.nextNonce < 2 ↔ session.herTempPubKey = .zero) ∧
      shakeHands ca session msg.nonce plain = .ret r := by
  obtain ⟨-, -, hno⟩ | ⟨hkey, hstate, plain', hopens', hshake⟩ := decryptHandshake_cases h
  · exact absurd hopens (hno plain)
  · cases hopens.opens.symm.trans hopens'.opens
    exact ⟨hkey, hstate, hshake⟩

/-! ## Opened handshake packets -/

/-- The session after a hello that is not the one already known. -/
def greet (session : Session C) (tempKey : Key) : Session C :=
  { (if session.nextNonce = 0 then session else reset session) with
    herTempPubKey := tempKey, nextNonce := 2, replayProtector := .zero }

variable {tempKey : Key} {plain : List UInt8}

theorem shakeHands_wiseguy (hkey : knowHerKey session = true) (hz : Key.ofBytes plain = .zero) :
    shakeHands ca session nonce plain = .ret (.wiseguy, session, plain.drop 32) := by
  simp only [shakeHands, hz, Key.isZero_zero, if_true, cryptoAuthDebug_eq hkey, ret_bind]

theorem shakeHands_dupe (hkey : knowHerKey session = true) (hz : Key.ofBytes plain ≠ .zero)
    (hdupe : isDupe session nonce (Key.ofBytes plain) = .ret true) :
    shakeHands ca session nonce plain = .ret (.invalidPacket, session, plain.drop 32) := by
  simp only [shakeHands, Key.isZero_eq_false.mpr hz, hdupe, ret_bind, Bool.false_eq_true, if_false, if_true,
    cryptoAuthDebug_eq hkey]

section
variable (hz : Key.ofBytes plain ≠ .zero) (hdupe : isDupe session nonce (Key.ofBytes plain) = .ret false)
include hz hdupe

theorem shakeHands_leave {err} (hreceived : received ca session nonce (Key.ofBytes plain) = .ret (.leave err)) :
    shakeHands ca session nonce plain = .ret (err, session, plain.drop 32) := by
  simp only [shakeHands, Key.isZero_eq_false.mpr hz, hdupe, ret_bind, Bool.false_eq_true, if_false, hreceived]

theorem shakeHands_go {n} {s'} (hreceived : received ca session nonce (Key.ofBytes plain) = .ret (.go s' n))
    (hmono : s'.nextNonce < n ∨ s'.nextNonce ≤ 4 ∧ n = s'.nextNonce) :
    shakeHands ca session nonce plain = .ret (.none, { s' with nextNonce := n, replayProtector := .zero }, plain.drop 32) := by
  simp only [shakeHands, Key.isZero_eq_false.mpr hz, hdupe, ret_bind, Bool.false_eq_true, if_false, hreceived]
  rw [assertTrue_bind]
  simpa using hmono

end

theorem isDupe_hello (hn : nonce < 2) :
    isDupe session nonce tempKey = .ret (decide (nonce = 0 ∧ session.herTempPubKey = tempKey)) := by
  unfold isDupe
  rw [if_neg (show ¬ (nonce = 2 ∧ session.nextNonce ≥ 4) by omega), if_neg (show ¬ (nonce = 3 ∧ session.nextNonce ≥ 4) by omega)]
  split
  next h0 => simp [h0]
  next h0 => simp [h0]

/-- A hello with a key the session does not know. Only the end that stands firm when two hellos cross
keeps its state. -/
theorem shakeHands_newHello (hkey : knowHerKey session = true) (hn : nonce < 2) (hz : Key.ofBytes plain ≠ .zero)
    (hnew : session.herTempPubKey ≠ Key.ofBytes plain) :
    shakeHands ca session nonce plain = .ret (.none,
      if session.nextNonce = 1 ∧ session.herPublicKey.less ca.publicKey = false then session else greet session (Key.ofBytes plain),
      plain.drop 32) := by
  have hdebug := cryptoAuthDebug_eq hkey
  have hdupe : isDupe session nonce (Key.ofBytes plain) = .ret false := by
    rw [isDupe_hello hn, decide_eq_false fun h => hnew h.2]
  have hreceived : received ca session nonce (Key.ofBytes plain) = receivedHello ca session (Key.ofBytes plain) := if_pos hn
  unfold receivedHello at hreceived
  rw [if_pos hnew] at hreceived
  by_cases h1 : session.nextNonce = 1
  · rw [if_pos h1] at hreceived
    cases hless : session.herPublicKey.less ca.publicKey with
    | true =>
      rw [hless, hdebug] at hreceived
      rw [shakeHands_go hz hdupe hreceived (.inl Nat.zero_lt_two)]
      simp [greet, h1]
    | false =>
      rw [hless, hdebug] at hreceived
      rw [shakeHands_leave hz hdupe hreceived, if_pos ⟨h1, rfl⟩]
  · rw [if_neg h1] at hreceived
    rw [if_neg (fun h => h1 h.1)]
    by_cases h0 : session.nextNonce = 0
    · rw [if_pos h0] at hreceived
      rw [shakeHands_go hz hdupe hreceived (.inl (by simp [h0]))]
      simp [greet, h0]
    · rw [if_neg h0, hdebug] at hreceived
      rw [shakeHands_go hz hdupe hreceived (.inl Nat.zero_lt_two)]
      simp [greet, h0]

/-- A hello with the key the session knows. -/
theorem shakeHands_knownHello (hkey : knowHerKey session = true) (hn : nonce < 2) (hz : Key.ofBytes plain ≠ .zero)
    (hknown : session.herTempPubKey = Key.ofBytes plain) :
    shakeHands ca session nonce plain = .ret (
      if nonce = 1 ∧ (session.nextNonce = 2 ∨ session.nextNonce = 3) then
        (.none, { session with replayProtector := .zero }, plain.drop 32)
      else (.invalidPacket, session, plain.drop 32)) := by
  by_cases h0 : nonce = 0
  · have hdupe : isDupe session nonce (Key.ofBytes plain) = .ret true := by
      rw [isDupe_hello hn, decide_eq_true ⟨h0, hknown⟩]
    rw [shakeHands_dupe hkey hz hdupe, if_neg (by omega)]
  have hdupe : isDupe session nonce (Key.ofBytes plain) = .ret false := by
    rw [isDupe_hello hn, decide_eq_false fun h => h0 h.1]
  have hreceived : received ca session nonce (Key.ofBytes plain) = receivedHello ca session (Key.ofBytes plain) := if_pos hn
  unfold receivedHello at hreceived
  rw [if_neg (not_not_intro hknown)] at hreceived
  by_cases h23 : session.nextNonce = 2 ∨ session.nextNonce = 3
  · rw [if_pos h23] at hreceived
    rw [shakeHands_go hz hdupe hreceived (.inr ⟨by omega, rfl⟩), if_pos ⟨by omega, h23⟩]
  · rw [if_neg h23, cryptoAuthDebug_eq hkey] at hreceived
    rw [shakeHands_leave hz hdupe hreceived, if_neg (fun h => h23 h.2)]

/-- The session after a key packet; the secret is computed anew once data has been sent. -/
def take (session : Session C) (tempKey : Key) (nonce : Nat) : Session C :=
  { session with
    herTempPubKey := tempKey
    sharedSecret :=
      if nonce = 2 ∧ 4 < session.nextNonce then C.getSharedSecret session.ourTempPrivKey tempKey none
      else session.sharedSecret
    nextNonce := if session.nextNonce ≤ 4 then 4 else session.nextNonce + 1
    replayProtector := .zero }

theorem receivedKey_cases {verdict} (h : receivedKey session nonce tempKey = .ret verdict) :
    (verdict = .leave .strayKey ∧ (session.nextNonce = 0 ∨ session.nextNonce = 2 ∨ session.nextNonce = 3)) ∨
      (session.nextNonce ≠ 0 ∧ session.nextNonce ≠ 2 ∧ session.nextNonce ≠ 3 ∧
        (4 < session.nextNonce → session.established = false) ∧
        (4 ≤ session.nextNonce → nonce ≠ 2 → session.herTempPubKey = tempKey) ∧
        ∃ s n, verdict = .go s n ∧ s.nextNonce = session.nextNonce ∧
          n = (if session.nextNonce ≤ 4 then 4 else uint32 (session.nextNonce + 1)) ∧
          { s with nextNonce := (take session tempKey nonce).nextNonce, replayProtector := .zero } =
            take session tempKey nonce) := by
  unfold receivedKey at h
  split at h
  next h023 =>
    cases eq_of_bind_ret h
    exact .inl ⟨rfl, h023⟩
  next h023 =>
  simp only [not_or] at h023
  obtain ⟨h0, h2, h3⟩ := h023
  refine .inr ⟨h0, h2, h3, ?_⟩
  split at h
  next h1 =>
    simp only [Er.ret.injEq] at h
    exact ⟨by omega, by omega, _, _, h.symm, rfl, by simp [h1], by simp [take, h1]⟩
  next h1 =>
  split at h
  next h4 =>
    split at h
    next hk =>
      simp only [Er.ret.injEq] at h
      exact ⟨by omega, fun _ hne => absurd hk hne, _, _, h.symm, rfl, by simp [h4], by simp [take, h4]⟩
    next hk =>
      simp only [bind_eq_ret, assertTrue_eq_ret, Er.ret.injEq, decide_eq_true_eq] at h
      obtain ⟨_, rfl, rfl⟩ := h
      exact ⟨by omega, fun _ _ => rfl, _, _, rfl, rfl, by simp [h4], by simp [take, h4]⟩
  next h4 =>
    simp only [bind_eq_ret, assertTrue_eq_ret, Bool.not_eq_true'] at h
    obtain ⟨_, hest, s, hs, _, _, hv⟩ := h
    simp only [Er.ret.injEq] at hv
    have h5 : 4 < session.nextNonce := by omega
    have hnext : ¬ session.nextNonce ≤ 4 := by omega
    unfold recalculate at hs
    split at hs
    next hk =>
      simp only [bind_eq_ret, Er.ret.injEq] at hs
      obtain ⟨_, _, _, _, _, _, rfl⟩ := hs
      exact ⟨fun _ => hest, fun _ hne => absurd hk hne, _, _, hv.symm, rfl, (if_neg hnext).symm,
        by simp [take, h5, hk]⟩
    next hk =>
      simp only [bind_eq_ret, assertTrue_eq_ret, decide_eq_true_eq, Er.ret.injEq] at hs
      obtain ⟨_, rfl, rfl⟩ := hs
      exact ⟨fun _ => hest, fun _ _ => rfl, _, _, hv.symm, rfl, (if_neg hnext).symm, by simp [take, hk]⟩

theorem isDupe_cases {b} (h : isDupe session nonce tempKey = .ret b) (hb : b = false) :
    (nonce = 2 → 4 ≤ session.nextNonce → session.herTempPubKey ≠ tempKey) := by
  intro hk h4 heq
  subst hb hk
  simp [isDupe, h4, heq, bind_eq_ret] at h

theorem shakeHands_cases (hkey : knowHerKey session = true)
    (h : shakeHands ca session nonce plain = .ret (err, session', content)) :
    (session' = session ∧ (err = .none → nonce < 2 ∧ session.nextNonce = 1)) ∨
    (err = .none ∧ Key.ofBytes plain ≠ .zero ∧
      ((nonce < 2 ∧ session.herTempPubKey ≠ Key.ofBytes plain ∧ session' = greet session (Key.ofBytes plain)) ∨
      (nonce < 2 ∧ session.herTempPubKey = Key.ofBytes plain ∧
        (session.nextNonce = 2 ∨ session.nextNonce = 3) ∧
        session' = { session with replayProtector := .zero }) ∨
      (2 ≤ nonce ∧ (session.nextNonce = 1 ∨ 4 ≤ session.nextNonce) ∧
        (4 < session.nextNonce → session.established = false ∧ session.nextNonce + 1 < 2 ^ 32) ∧
        (4 ≤ session.nextNonce → nonce ≠ 2 → session.herTempPubKey = Key.ofBytes plain) ∧
        (4 ≤ session.nextNonce → nonce = 2 → session.herTempPubKey ≠ Key.ofBytes plain) ∧
        session' = take session (Key.ofBytes plain) nonce))) := by
  by_cases hz : Key.ofBytes plain = .zero
  · cases (shakeHands_wiseguy hkey hz).symm.trans h
    exact .inl ⟨rfl, by simp⟩
  by_cases hn : nonce < 2
  · by_cases hknown : session.herTempPubKey = Key.ofBytes plain
    · rw [shakeHands_knownHello hkey hn hz hknown] at h
      split at h
      next h1 =>
        cases h
        exact .inr ⟨rfl, hz, .inr (.inl ⟨hn, hknown, h1.2, rfl⟩)⟩
      · cases h
        exact .inl ⟨rfl, by simp⟩
    · rw [shakeHands_newHello hkey hn hz hknown] at h
      cases h
      split
      next h1 => exact .inl ⟨rfl, fun _ => ⟨hn, h1.1⟩⟩
      · exact .inr ⟨rfl, hz, .inl ⟨hn, hknown, rfl⟩⟩
  simp only [shakeHands, Key.isZero_eq_false.mpr hz, Bool.false_eq_true, if_false, bind_eq_ret] at h
  obtain ⟨dupe, hdupe, h⟩ := h
  split at h
  · cases eq_of_bind_ret h
    exact .inl ⟨rfl, by simp⟩
  next hnot =>
  have hdupe := isDupe_cases hdupe (by simpa using hnot)
  simp only [bind_eq_ret] at h
  obtain ⟨verdict, hv, h⟩ := h
  rw [received, if_neg hn] at hv
  obtain ⟨rfl, -⟩ | ⟨h0, h2, h3, hest, hsame, s, n, rfl, hsn, rfl, htake⟩ := receivedKey_cases hv
  · cases h
    exact .inl ⟨rfl, by simp⟩
  · simp only [bind_eq_ret, assertTrue_eq_ret] at h
    obtain ⟨_, hmono, rfl, rfl, _⟩ := h
    have hwrap : 4 < session.nextNonce → session.nextNonce + 1 < 2 ^ 32 := fun h5 => by
      simp only [hsn, uint32, show ¬ session.nextNonce ≤ 4 by omega, if_false, Bool.or_eq_true,
        decide_eq_true_eq, Bool.and_eq_true, false_and, or_false] at hmono
      omega
    have hnext : (take session (Key.ofBytes plain) nonce).nextNonce =
        if session.nextNonce ≤ 4 then 4 else uint32 (session.nextNonce + 1) := by
      simp only [take]
      split
      · rfl
      · rw [uint32, Nat.mod_eq_of_lt (hwrap (by omega))]
    rw [hnext] at htake
    exact .inr ⟨rfl, hz, .inr (.inr ⟨by omega, by omega, fun h5 => ⟨hest h5, hwrap h5⟩, hsame,
      fun h4 hk => hdupe hk h4, htake⟩)⟩

/-- What a handshake packet carries is what follows the temporary key in it. -/
theorem shakeHands_content {plain} (h : shakeHands ca session nonce plain = .ret (err, session', content)) :
    content = plain.drop 32 := by
  simp only [shakeHands] at h
  split at h
  · cases eq_of_bind_ret h
    rfl
  simp only [bind_eq_ret] at h
  obtain ⟨dupe, -, h⟩ := h
  split at h
  · cases eq_of_bind_ret h
    rfl
  simp only [bind_eq_ret] at h
  obtain ⟨verdict, -, h⟩ := h
  cases verdict with
  | leave err' =>
    simp only [Er.ret.injEq, Prod.mk.injEq] at h
    exact h.2.2.symm
  | go s n =>
    cases eq_of_bind_ret h
    rfl

theorem decryptMessage_cases {secret}
    (h : decryptMessage session nonce msg secret = .ret (err, session', content)) :
    (err = .decrypt ∧ session' = session) ∨
      (C.openAfternm secret (counterNonce nonce (!session.isInitiator)) msg.box = some content ∧
        ((err = .none ∧ (session.replayProtector.checkNonce nonce).1 = true) ∨ err = .replay) ∧
        session' = { session with replayProtector := (session.replayProtector.checkNonce nonce).2 }) := by
  unfold decryptMessage at h
  split at h
  · cases eq_of_bind_ret h
    exact .inl ⟨rfl, rfl⟩
  next plain hopen =>
  split at h
  next passes context hcheck =>
  split at h
  next hpass =>
    cases h
    exact .inr ⟨hopen, .inl ⟨rfl, by rw [hcheck]; exact hpass⟩, by rw [hcheck]⟩
  · cases eq_of_bind_ret h
    exact .inr ⟨hopen, .inr rfl, by rw [hcheck]⟩

/-- The packet is tried as the first data packet of a session that is not yet established. -/
def TriesFinalStep (session : Session C) (msg : Packet C) : Prop :=
  20 ≤ msg.length ∧ 4 ≤ msg.nonce ∧ session.established = false ∧ 3 ≤ session.nextNonce

instance (session : Session C) (msg : Packet C) : Decidable (TriesFinalStep session msg) :=
  inferInstanceAs (Decidable (_ ∧ _))

/-- The window the last step of the handshake leaves. -/
def rebase (context : ReplayProtector) (nonce : Nat) : ReplayProtector :=
  { context with baseOffset := uint32 (nonce + 1), bitfield := 0 }

/-- The session the last step of the handshake establishes. -/
def establish (session : Session C) (nowSecs nonce : Nat) : Session C :=
  { session with
    replayProtector := rebase (session.replayProtector.checkNonce nonce).2 nonce
    sharedSecret := C.getSharedSecret session.ourTempPrivKey session.herTempPubKey none
    established := true
    nextNonce := uint32 (session.nextNonce + 3)
    timeOfLastPacket := uint32 nowSecs }

variable {nowSecs : Nat}

/-- The ways of `CryptoAuth_decrypt`: the packet is dropped, fails or passes as first data packet, is a
data packet that passes or fails the window, or is a handshake packet. -/
theorem decrypt_cases (h : decrypt ca nowSecs session msg = .ret (err, session', content)) :
    (err ≠ .none ∧ ¬ TriesFinalStep session msg ∧ session' = session) ∨
    (err ≠ .none ∧ TriesFinalStep session msg ∧
      ∃ context, session' = { session with replayProtector := rebase context msg.nonce }) ∨
    (err = .none ∧ TriesFinalStep session msg ∧
      C.openAfternm (C.getSharedSecret session.ourTempPrivKey session.herTempPubKey none)
        (counterNonce msg.nonce (!session.isInitiator)) msg.box = some content ∧
      (session.replayProtector.checkNonce msg.nonce).1 = true ∧
      session' = establish session nowSecs msg.nonce) ∨
    (session.established = true ∧ 4 ≤ msg.nonce ∧
      C.openAfternm session.sharedSecret (counterNonce msg.nonce (!session.isInitiator)) msg.box = some content ∧
      (((err = .none ∧ (session.replayProtector.checkNonce msg.nonce).1 = true) ∧
        session' = { session with
          replayProtector := (session.replayProtector.checkNonce msg.nonce).2
          timeOfLastPacket := uint32 nowSecs }) ∨
      (err = .replay ∧
        session' = { session with replayProtector := (session.replayProtector.checkNonce msg.nonce).2 }))) ∨
    (msg.nonce < 4 ∧ (2 ≤ msg.nonce → session.established = false) ∧
      decryptHandshake ca session msg.nonce msg = .ret (err, session', content)) := by
  simp only [decrypt] at h
  split at h
  next hrunt =>
    cases eq_of_bind_ret h
    exact .inl ⟨by simp, fun ht => absurd ht.1 (by omega), rfl⟩
  next hrunt =>
  split at h
  next hest =>
    simp only [Bool.not_eq_eq_eq_not] at hest
    split at h
    next hnonce =>
      split at h
      next hnext =>
        cases eq_of_bind_ret h
        exact .inl ⟨by simp, fun ht => absurd ht.2.2.2 (by omega), rfl⟩
      next hnext =>
        have htries : TriesFinalStep session msg := ⟨by omega, hnonce, hest, by omega⟩
        simp only [bind_eq_ret, Prod.exists] at h
        obtain ⟨_, _, _, _, _, _, ret, s, plain, hm, h⟩ := h
        split at h
        next hret =>
          cases eq_of_bind_ret h
          obtain ⟨rfl, -⟩ | ⟨hopen, ⟨-, hpass⟩ | rfl, rfl⟩ := decryptMessage_cases hm
          · simp at hret
          · exact .inr (.inr (.inl ⟨rfl, htries, hopen, hpass, rfl⟩))
          · simp at hret
        next hret =>
          cases eq_of_bind_ret h
          refine .inr (.inl ⟨hret, htries, ?_⟩)
          obtain ⟨-, rfl⟩ | ⟨-, -, rfl⟩ := decryptMessage_cases hm
          · exact ⟨_, rfl⟩
          · exact ⟨_, rfl⟩
    next hnonce =>
      exact .inr (.inr (.inr (.inr ⟨by omega, fun _ => hest, h⟩)))
  next hest =>
    simp only [Bool.not_eq_true', Bool.not_eq_false] at hest
    have hnot : ¬ TriesFinalStep session msg := fun ht => by simp [ht.2.2.1] at hest
    split at h
    next hnonce =>
      simp only [bind_eq_ret, Prod.exists] at h
      obtain ⟨_, _, ret, s, plain, hm, h⟩ := h
      split at h
      next hret =>
        cases h
        obtain ⟨rfl, -⟩ | ⟨hopen, hpass | rfl, rfl⟩ := decryptMessage_cases hm
        · simp at hret
        · exact .inr (.inr (.inr (.inl ⟨hest, hnonce, hopen, .inl ⟨⟨rfl, hpass.2⟩, rfl⟩⟩)))
        · simp at hret
      next hret =>
        cases eq_of_bind_ret h
        obtain ⟨rfl, rfl⟩ | ⟨hopen, hpass | rfl, rfl⟩ := decryptMessage_cases hm
        · exact .inl ⟨by simp, hnot, rfl⟩
        · exact absurd hpass.1 hret
        · exact .inr (.inr (.inr (.inl ⟨hest, hnonce, hopen, .inr ⟨rfl, rfl⟩⟩)))
    next hnonce =>
      split at h
      next hhello =>
        simp only [bind_eq_ret] at h
        obtain ⟨_, _, h⟩ := h
        exact .inr (.inr (.inr (.inr ⟨by omega, by omega, h⟩)))
      · cases eq_of_bind_ret h
        exact .inl ⟨by simp, hnot, rfl⟩

/-! ## Lengths -/

theorem length_of_decrypt (h : decrypt ca nowSecs session msg = .ret (.none, session', content)) :
    20 ≤ msg.length := by
  by_contra hrunt
  rw [decrypt, if_pos (by omega)] at h
  simp [bind_eq_ret] at h

/-- What a packet carries is as long as the packet without its header. -/
theorem content_length_of_decrypt (h : decrypt ca nowSecs session msg = .ret (.none, session', content))
    (hlength : headerSize msg.nonce ≤ msg.length) : content.length + headerSize msg.nonce = msg.length := by
  have hbox : boxAt msg.nonce ≤ headerSize msg.nonce := by
    unfold boxAt headerSize
    split
    · decide
    · decide
  have hsized := msg.sized (Nat.le_trans hbox hlength)
  -- a data packet is its nonce and a box with the content in it
  have hdata : ∀ {secret nonce}, 4 ≤ msg.nonce → C.openAfternm secret nonce msg.box = some content →
      content.length + headerSize msg.nonce = msg.length := by
    intro secret nonce h4 hopen
    have hsize := C.size_of_open hopen
    simp only [boxAt, headerSize, show ¬ msg.nonce < 4 by omega, if_false] at hsized ⊢
    omega
  obtain ⟨herr, -⟩ | ⟨herr, -⟩ | ⟨-, htries, hopen, -⟩ | ⟨-, h4, hopen, -⟩ | ⟨h4, -, hshake⟩ := decrypt_cases h
  · exact absurd rfl herr
  · exact absurd rfl herr
  · exact hdata htries.2.1 hopen
  · exact hdata h4 hopen
  · obtain ⟨herr, -⟩ | ⟨-, -, plain, hopens, hshake⟩ := decryptHandshake_cases hshake
    · exact absurd rfl herr
    have hsize := C.size_of_open hopens.opens
    rw [shakeHands_content hshake, List.length_drop]
    simp only [boxAt, headerSize, h4, if_true] at hsized hlength ⊢
    omega

end

end Hyperboria.CryptoAuth
