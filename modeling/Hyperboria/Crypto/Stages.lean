/-
The handshake as a machine of seven stages, and that the code is that machine:
`encrypt_sends` and `decrypt_receives` turn a call that returns into a move of the
machine. A stage has the temporary keys of the session in it (ours as private
keys, hers as public ones), and for a session that sends data the number of its
next packet.

The last stage, `late`, is where the 32-bit counter of an initiator ends up when
the first data packet comes in while it stands at its end: the session is
established, but sends no data any more.
-/
import Hyperboria.Crypto.DecryptCases

namespace Hyperboria.CryptoAuth

open Er

/-- Where a session stands. -/
inductive Stage where
  | idle
  | helloed (x : Key)
  | greeted (y : Key)
  | keyed (k y : Key)
  | talking (x k : Key) (n : Nat)
  | settled (isInitiator : Bool) (t h : Key) (n : Nat)
  | late (t h k : Key) (n : Nat)
deriving DecidableEq

namespace Stage

/-- The session waits for the first data packet: which end it is, and the keys of the secret. -/
def waiting : Stage → Option (Bool × Key × Key)
  | keyed k y => some (false, k, y)
  | talking x k _ => some (true, x, k)
  | _ => none

/-- The session is established: which end it is, and the keys of the secret. -/
def running : Stage → Option (Bool × Key × Key)
  | settled b t h _ => some (b, t, h)
  | late t h _ _ => some (true, t, h)
  | _ => none

/-- The session takes key packets: the key it said hello with. -/
def asker : Stage → Option Key
  | helloed x => some x
  | talking x _ _ => some x
  | _ => none

/-- The stage after a key packet. -/
def take (k : Key) : Stage → Stage
  | helloed x => talking x k 4
  | talking x _ n => talking x k (if n ≤ 4 then 4 else n + 1)
  | st => st

/-- The stage after the first data packet. -/
def establish : Stage → Stage
  | keyed k y => settled false k y 6
  | talking x k n => if n + 3 < 2 ^ 32 then settled true x k (n + 3) else late x k x (n + 3 - 2 ^ 32)
  | st => st

/-- The temporary key of a hello the stage can take once more. -/
def greeting : Stage → Option Key
  | greeted y => some y
  | keyed _ y => some y
  | late _ h _ _ => some h
  | _ => none

end Stage

/-- What a session seals: the keys and the password of the secret, the nonce and the plaintext. -/
structure Letter where
  ours : Key
  theirs : Key
  hash : Option Key
  nonce : Nonce24
  plain : List UInt8

/-- The secret of a letter. -/
def Letter.secret (C : Crypto) (letter : Letter) : C.Secret :=
  C.getSharedSecret letter.ours letter.theirs letter.hash

section
variable {C : Crypto}

/-- The session stands at the stage. -/
def At (s : Session C) : Stage → Prop
  | .idle => s.nextNonce = 0 ∧ s.isInitiator = false ∧ s.established = false ∧ s.herTempPubKey = .zero ∧
      s.sharedSecret = C.zeroSecret
  | .helloed x => s.nextNonce = 1 ∧ s.isInitiator = true ∧ s.established = false ∧ s.ourTempPrivKey = x ∧
      s.ourTempPubKey = C.scalarmultBase x ∧ s.herTempPubKey = .zero ∧ s.sharedSecret = C.zeroSecret
  | .greeted y => s.nextNonce = 2 ∧ s.isInitiator = false ∧ s.established = false ∧ s.herTempPubKey = y ∧
      y ≠ .zero ∧ s.sharedSecret = C.zeroSecret
  | .keyed k y => s.nextNonce = 3 ∧ s.isInitiator = false ∧ s.established = false ∧ s.ourTempPrivKey = k ∧
      s.ourTempPubKey = C.scalarmultBase k ∧ s.herTempPubKey = y ∧ y ≠ .zero ∧ s.sharedSecret = C.zeroSecret
  | .talking x k n => s.nextNonce = n ∧ 4 ≤ n ∧ n < 2 ^ 32 ∧ s.isInitiator = true ∧ s.established = false ∧
      s.ourTempPrivKey = x ∧ s.ourTempPubKey = C.scalarmultBase x ∧ s.herTempPubKey = k ∧ k ≠ .zero ∧
      s.sharedSecret = if n = 4 then C.zeroSecret else C.getSharedSecret x k none
  | .settled b t h n => s.nextNonce = n ∧ 4 ≤ n ∧ n < 2 ^ 32 ∧ s.isInitiator = b ∧ s.established = true ∧
      s.ourTempPrivKey = t ∧ s.ourTempPubKey = C.scalarmultBase t ∧ s.herTempPubKey = h ∧ h ≠ .zero ∧
      s.sharedSecret = C.getSharedSecret t h none
  | .late t h k n => s.nextNonce = n ∧ n < 4 ∧ s.isInitiator = true ∧ s.established = true ∧
      s.ourTempPrivKey = k ∧ s.ourTempPubKey = C.scalarmultBase k ∧ s.herTempPubKey = h ∧ h ≠ .zero ∧
      s.sharedSecret = C.getSharedSecret t h none

/-- Sending: a node with the private key `a` to the peer with the public key `H`. The moves are from
a stage to the next, with the nonce on the packet and the letter in it. -/
inductive Sends (C : Crypto) (a H : Key) (draw : Draw) (hash : Option Key) (msg : List UInt8) :
    Stage → Nat → Letter → Stage → Prop where
  | hello : Sends C a H draw hash msg .idle 0
      ⟨a, H, hash, draw.handshakeNonce, (C.scalarmultBase draw.tempPrivKey).1 ++ msg⟩ (.helloed draw.tempPrivKey)
  | repeatHello (x : Key) : Sends C a H draw hash msg (.helloed x) 1
      ⟨a, H, hash, draw.handshakeNonce, (C.scalarmultBase x).1 ++ msg⟩ (.helloed x)
  | key (y : Key) : Sends C a H draw hash msg (.greeted y) 2
      ⟨a, y, hash, draw.handshakeNonce, (C.scalarmultBase draw.tempPrivKey).1 ++ msg⟩ (.keyed draw.tempPrivKey y)
  | repeatKey (k y : Key) : Sends C a H draw hash msg (.keyed k y) 3
      ⟨a, y, hash, draw.handshakeNonce, (C.scalarmultBase k).1 ++ msg⟩ (.keyed k y)
  | talk (x k : Key) (n : Nat) (h4 : 4 ≤ n) (hn : n < 0xfffffff0) : Sends C a H draw hash msg (.talking x k n) n
      ⟨x, k, none, counterNonce n true, msg⟩ (.talking x k (n + 1))
  | data (b : Bool) (t h : Key) (n : Nat) (h4 : 4 ≤ n) (hn : n < 0xfffffff0) :
      Sends C a H draw hash msg (.settled b t h n) n
      ⟨t, h, none, counterNonce n b, msg⟩ (.settled b t h (n + 1))
  | lateKey (t h k : Key) : Sends C a H draw hash msg (.late t h k 2) 2
      ⟨a, h, hash, draw.handshakeNonce, (C.scalarmultBase draw.tempPrivKey).1 ++ msg⟩ (.late t h draw.tempPrivKey 3)
  | lateRepeat (t h k : Key) : Sends C a H draw hash msg (.late t h k 3) 3
      ⟨a, h, hash, draw.handshakeNonce, (C.scalarmultBase k).1 ++ msg⟩ (.late t h k 3)

/-- Receiving a packet: from a stage and a window to an error, a stage and a window. -/
inductive Receives (C : Crypto) (a H : Key) (packet : Packet C) :
    Stage → ReplayProtector → DecryptErr → Stage → ReplayProtector → Prop where
  | unchanged {st w err} (h : err = .none → packet.nonce < 4) : Receives C a H packet st w err st w
  | rebased {st w w' err} (herr : err ≠ .none) (hw : st.waiting.isSome) : Receives C a H packet st w err st w'
  | greet {st w hash plain}
      (hopen : C.openAfternm (C.getSharedSecret a H hash) packet.handshakeNonce packet.box = some plain)
      (hz : Key.ofBytes plain ≠ .zero) (hnonce : packet.nonce < 4) :
      Receives C a H packet st w .none (.greeted (Key.ofBytes plain)) .zero
  | regreet {st w hash plain}
      (hopen : C.openAfternm (C.getSharedSecret a H hash) packet.handshakeNonce packet.box = some plain)
      (hst : st.greeting = some (Key.ofBytes plain)) (hnonce : packet.nonce < 4) :
      Receives C a H packet st w .none st .zero
  | key {st w x hash plain} (hst : st.asker = some x)
      (hopen : C.openAfternm (C.getSharedSecret x H hash) packet.handshakeNonce packet.box = some plain)
      (hz : Key.ofBytes plain ≠ .zero) (hnonce : packet.nonce < 4) :
      Receives C a H packet st w .none (st.take (Key.ofBytes plain)) .zero
  | establish {st w w' b t h plain} (hst : st.waiting = some (b, t, h)) (hnonce : 4 ≤ packet.nonce)
      (hopen : C.openAfternm (C.getSharedSecret t h none) (counterNonce packet.nonce (!b)) packet.box = some plain)
      (hw : w'.baseOffset = uint32 (packet.nonce + 1)) : Receives C a H packet st w .none st.establish w'
  | data {st w w' b t h plain} (hst : st.running = some (b, t, h)) (hnonce : 4 ≤ packet.nonce)
      (hopen : C.openAfternm (C.getSharedSecret t h none) (counterNonce packet.nonce (!b)) packet.box = some plain)
      (hnew : ¬ w.Seen packet.nonce) (hseen : w'.Seen packet.nonce) (hkeep : ∀ m, w.Seen m → w'.Seen m) :
      Receives C a H packet st w .none st w'
  | replayed {st w w'} (hst : st.running.isSome) (hkeep : ∀ m, w.Seen m → w'.Seen m) :
      Receives C a H packet st w .replay st w'

/-! ## Fresh and reset sessions -/

theorem at_newSession (now : Nat) (herPublicKey : Key) (requireAuth : Bool) :
    At (newSession C now herPublicKey requireAuth) .idle :=
  ⟨rfl, rfl, rfl, rfl, rfl⟩

theorem at_reset (s : Session C) : At (reset s) .idle := ⟨rfl, rfl, rfl, rfl, rfl⟩

/-- The session is left alone, or reset with another password or time. -/
def Resets (s s' : Session C) : Prop := s' = s ∨ ∃ s₀ : Session C, s₀.herPublicKey = s.herPublicKey ∧ s' = reset s₀

theorem resets_reset (s : Session C) : Resets s (reset s) := .inr ⟨s, rfl, rfl⟩

variable {now : Nat} {s s' : Session C}

theorem resetIfTimeout_resets (h : resetIfTimeout now s = .ret s') : Resets s s' := by
  simp only [resetIfTimeout] at h
  split at h
  · exact .inl (ret.inj h).symm
  split at h
  · exact .inl (ret.inj h).symm
  split at h
  · exact .inl (ret.inj h).symm
  · cases eq_of_bind_ret h
    exact .inr ⟨_, by rfl, rfl⟩

theorem setAuth_resets (password login : Option (List UInt8)) (s : Session C) :
    Resets s (setAuth password login s) := by
  unfold setAuth
  split
  · exact .inr ⟨_, by rfl, rfl⟩
  split
  · split
    · exact .inr ⟨_, by rfl, rfl⟩
    · exact .inr ⟨_, by rfl, rfl⟩
  · exact .inl rfl

/-! ## The sending side -/

variable {ca : Context}

theorem handshakeSecret_cases {hash} {secret}
    (h : handshakeSecret ca s hash = .ret (secret, s')) :
    (s.nextNonce < 2 ∧ secret = C.getSharedSecret ca.privateKey s.herPublicKey hash ∧
      s' = { s with isInitiator := true, nextNonce := 1 }) ∨
    (2 ≤ s.nextNonce ∧ secret = C.getSharedSecret ca.privateKey s.herTempPubKey hash ∧
      s' = { s with nextNonce := 3 }) := by
  unfold handshakeSecret at h
  split at h
  next hn =>
    cases h
    exact .inl ⟨hn, rfl, rfl⟩
  next hn =>
    simp only [bind_eq_ret] at h
    obtain ⟨_, _, _, _, rfl, rfl⟩ := h
    exact .inr ⟨by omega, rfl, rfl⟩

/-- The session with the temporary keys a hello or a key packet needs. -/
def withTempKeys (draw : Draw) (s : Session C) : Session C :=
  if s.nextNonce = 0 ∨ s.nextNonce = 2 then
    { s with ourTempPrivKey := draw.tempPrivKey, ourTempPubKey := C.scalarmultBase draw.tempPrivKey }
  else s

variable {draw : Draw} {msg : List UInt8} {packet : Packet C}

theorem encryptHandshake_cases (h : encryptHandshake ca draw s msg = .ret (s', packet)) :
    ∃ hash secret, handshakeSecret ca (withTempKeys draw s) hash = .ret (secret, s') ∧
      (s'.nextNonce < 2 ↔ s'.herTempPubKey = .zero) ∧ packet.nonce = uint32 s.nextNonce ∧
      packet.box = C.afternm secret draw.handshakeNonce (s'.ourTempPubKey.1 ++ msg) := by
  simp only [encryptHandshake, bind_eq_ret, Prod.exists, assertTrue_eq_ret] at h
  obtain ⟨_, _, hash, auth, _, _, _, secret, s'', hs, _, hstate, h⟩ := h
  cases h
  exact ⟨hash, secret, hs, stateCheck_iff.mp hstate, rfl, rfl⟩

variable {st : Stage}

theorem encryptHandshake_sends (hs : At s st) (hret : encryptHandshake ca draw s msg = .ret (s', packet))
    (hn : s.nextNonce < 4) :
    s'.replayProtector = s.replayProtector ∧ s'.herPublicKey = s.herPublicKey ∧
      ∃ n st' hash letter, packet.nonce = n ∧ Sends C ca.privateKey s.herPublicKey draw hash msg st n letter st' ∧
        At s' st' ∧ packet.box = C.afternm (letter.secret C) letter.nonce letter.plain := by
  obtain ⟨hash, secret, hsec, hstate, hnonce, hbox⟩ := encryptHandshake_cases hret
  have huint : uint32 s.nextNonce = s.nextNonce := Nat.mod_eq_of_lt (by omega)
  rw [huint] at hnonce
  rw [hbox]
  cases st with
  | idle =>
    obtain ⟨h0, hi, he, hz, hsh⟩ := hs
    obtain ⟨-, rfl, rfl⟩ | ⟨h2, -⟩ := handshakeSecret_cases hsec
    · refine ⟨by simp [withTempKeys, h0], by simp [withTempKeys, h0], _, _, hash, _, hnonce.trans h0, .hello, ?_, ?_⟩
      · simp [At, withTempKeys, h0, he, hz, hsh]
      · simp [Letter.secret, withTempKeys, h0]
    · simp [withTempKeys, h0] at h2
  | helloed x =>
    obtain ⟨h1, hi, he, hx, hpub, hz, hsh⟩ := hs
    obtain ⟨-, rfl, rfl⟩ | ⟨h2, -⟩ := handshakeSecret_cases hsec
    · refine ⟨by simp [withTempKeys, h1], by simp [withTempKeys, h1], _, _, hash, _, hnonce.trans h1, .repeatHello x, ?_, ?_⟩
      · simp [At, withTempKeys, h1, he, hz, hsh, hx, hpub]
      · simp [Letter.secret, withTempKeys, h1, hpub]
    · simp [withTempKeys, h1] at h2
  | greeted y =>
    obtain ⟨h2, hi, he, hy, hz, hsh⟩ := hs
    obtain ⟨h1, -⟩ | ⟨-, rfl, rfl⟩ := handshakeSecret_cases hsec
    · simp [withTempKeys, h2] at h1
    · refine ⟨by simp [withTempKeys, h2], by simp [withTempKeys, h2], _, _, hash, _, hnonce.trans h2, .key y, ?_, ?_⟩
      · simp [At, withTempKeys, h2, hi, he, hz, hsh, hy]
      · simp [Letter.secret, withTempKeys, h2, hy]
  | keyed k y =>
    obtain ⟨h3, hi, he, hk, hpub, hy, hz, hsh⟩ := hs
    obtain ⟨h1, -⟩ | ⟨-, rfl, rfl⟩ := handshakeSecret_cases hsec
    · simp [withTempKeys, h3] at h1
    · refine ⟨by simp [withTempKeys, h3], by simp [withTempKeys, h3], _, _, hash, _, hnonce.trans h3, .repeatKey k y, ?_, ?_⟩
      · simp [At, withTempKeys, h3, hi, he, hz, hsh, hy, hk, hpub]
      · simp [Letter.secret, withTempKeys, h3, hy, hpub]
  | talking x k n | settled b t h n => obtain ⟨rfl, h4, -⟩ := hs; omega
  | late t h k n =>
    obtain ⟨hnn, hlt, hi, he, hk, hpub, hh, hz, hsh⟩ := hs
    obtain ⟨h1, -, rfl⟩ | ⟨h2, rfl, rfl⟩ := handshakeSecret_cases hsec
    · -- a counter that came round to a hello: the assertion after it fails
      exfalso
      simp only [withTempKeys] at hstate
      split at hstate
      · exact hz (hh ▸ hstate.mp (by simp))
      · exact hz (hh ▸ hstate.mp (by simp))
    · by_cases h2' : s.nextNonce = 2
      · obtain rfl : n = 2 := hnn.symm.trans h2'
        refine ⟨by simp [withTempKeys, h2'], by simp [withTempKeys, h2'], _, _, hash, _, hnonce.trans h2',
          .lateKey t h k, ?_, ?_⟩
        · simp [At, withTempKeys, h2', hi, he, hz, hsh, hh]
        · simp [Letter.secret, withTempKeys, h2', hh]
      · have h3 : s.nextNonce = 3 := by
          simp only [withTempKeys] at h2
          split at h2
          · simp only at h2; omega
          · omega
        obtain rfl : n = 3 := hnn.symm.trans h3
        refine ⟨by simp [withTempKeys, h3], by simp [withTempKeys, h3], _, _, hash, _, hnonce.trans h3,
          .lateRepeat t h k, ?_, ?_⟩
        · simp [At, withTempKeys, h3, hi, he, hz, hsh, hh, hk, hpub]
        · simp [Letter.secret, withTempKeys, h3, hh, hpub]

theorem Resets.at (h : Resets s s') (hs : At s st) :
    s'.herPublicKey = s.herPublicKey ∧ ∃ st₀, At s' st₀ ∧
      ((st₀ = st ∧ s'.replayProtector = s.replayProtector) ∨ (st₀ = .idle ∧ s'.replayProtector = .zero)) := by
  rcases h with rfl | ⟨s₀, hher, rfl⟩
  · exact ⟨rfl, st, hs, .inl ⟨rfl, rfl⟩⟩
  · exact ⟨hher, .idle, at_reset s₀, .inr ⟨rfl, rfl⟩⟩

theorem Resets.trans {s s' s'' : Session C} (h : Resets s s') (h' : Resets s' s'') : Resets s s'' := by
  rcases h' with rfl | ⟨s₀, hher, rfl⟩
  · exact h
  · refine .inr ⟨s₀, ?_, rfl⟩
    rcases h with rfl | ⟨s₁, hher', rfl⟩
    · exact hher
    · exact hher.trans hher'

/-- What the first data packet does to the session before it is sealed. -/
theorem finalStep_cases (h : finalStep s = .ret s') :
    s' = { s with
      sharedSecret := if s.nextNonce = 4 then C.getSharedSecret s.ourTempPrivKey s.herTempPubKey none
        else s.sharedSecret } := by
  unfold finalStep at h
  split at h
  next h4 =>
    simp only [bind_eq_ret, ret.injEq] at h
    obtain ⟨_, _, _, _, _, _, rfl⟩ := h
    simp [h4]
  next h4 =>
    cases h
    simp [h4]

/-- Sending: a session that may have been reset makes a handshake packet or a data packet. -/
theorem encrypt_cases (h : encrypt ca now draw s msg = .ret (s', packet)) :
    ∃ s₀, Resets s s₀ ∧ s₀.nextNonce < 0xfffffff0 ∧
      ((s₀.nextNonce < 4 ∧ encryptHandshake ca draw s₀ msg = .ret (s', packet)) ∨
        4 ≤ s₀.nextNonce ∧ ∃ s₁, finalStep s₀ = .ret s₁ ∧
          s' = { s₁ with nextNonce := uint32 (s₁.nextNonce + 1) } ∧ packet.nonce = uint32 s₁.nextNonce ∧
          packet.box = C.afternm s₁.sharedSecret (counterNonce s₁.nextNonce s₁.isInitiator) msg) := by
  simp only [encrypt, bind_eq_ret] at h
  obtain ⟨s₁, htime, h⟩ := h
  generalize hs₂ : (if s₁.nextNonce ≥ 0xfffffff0 then reset s₁ else s₁) = s₂ at h
  have hresets : Resets s s₂ := by
    refine (resetIfTimeout_resets htime).trans ?_
    split at hs₂
    · exact hs₂ ▸ resets_reset s₁
    · exact .inl hs₂.symm
  have hlow : s₂.nextNonce < 0xfffffff0 := by
    split at hs₂
    · rw [← hs₂]; exact Nat.lt_of_sub_eq_succ rfl
    · rw [← hs₂]; omega
  refine ⟨s₂, hresets, hlow, ?_⟩
  split at h
  next hn => exact .inl ⟨hn, h⟩
  next hn =>
    simp only [bind_eq_ret] at h
    obtain ⟨s₃, hfinal, _, _, h⟩ := h
    cases h
    exact .inr ⟨by omega, s₃, hfinal, rfl, rfl, rfl⟩

/-- Every packet the code sends is a move of the machine, perhaps after a reset. -/
theorem encrypt_sends (hs : At s st) (hret : encrypt ca now draw s msg = .ret (s', packet)) :
    s'.herPublicKey = s.herPublicKey ∧ ∃ st₀ n st' hash letter,
      ((st₀ = st ∧ s'.replayProtector = s.replayProtector) ∨ (st₀ = .idle ∧ s'.replayProtector = .zero)) ∧
      packet.nonce = n ∧ Sends C ca.privateKey s.herPublicKey draw hash msg st₀ n letter st' ∧
      At s' st' ∧ packet.box = C.afternm (letter.secret C) letter.nonce letter.plain := by
  obtain ⟨s₂, hresets, hlow, hcases⟩ := encrypt_cases hret
  obtain ⟨hher, st₀, hat, hst₀⟩ := hresets.at hs
  rcases hcases with ⟨hn, hret⟩ | ⟨hn, s₃, hfinal, rfl, hnonce, hbox⟩
  · obtain ⟨hrp, hher', n, st', hash, letter, hnonce, hsend, hat', hbox⟩ := encryptHandshake_sends hat hret hn
    rw [hher] at hher' hsend
    rw [← hrp] at hst₀
    exact ⟨hher', st₀, n, st', hash, letter, hst₀, hnonce, hsend, hat', hbox⟩
  · obtain rfl := finalStep_cases hfinal
    have huint : uint32 s₂.nextNonce = s₂.nextNonce := Nat.mod_eq_of_lt (by omega)
    have huint' : uint32 (s₂.nextNonce + 1) = s₂.nextNonce + 1 := Nat.mod_eq_of_lt (by omega)
    have hsecret : (s₂.nextNonce ≠ 4 → s₂.sharedSecret = C.getSharedSecret s₂.ourTempPrivKey s₂.herTempPubKey none) →
        (if s₂.nextNonce = 4 then C.getSharedSecret s₂.ourTempPrivKey s₂.herTempPubKey none
          else s₂.sharedSecret) = C.getSharedSecret s₂.ourTempPrivKey s₂.herTempPubKey none := fun h => by
      split
      · rfl
      · exact h ‹_›
    cases st₀ with
    | idle => obtain ⟨h0, -⟩ := hat; omega
    | helloed x => obtain ⟨h1, -⟩ := hat; omega
    | greeted y => obtain ⟨h2, -⟩ := hat; omega
    | keyed k y => obtain ⟨h3, -⟩ := hat; omega
    | late t h k n => obtain ⟨h3, h4, -⟩ := hat; omega
    | talking x k n =>
      obtain ⟨rfl, h4, hlt, hi, he, rfl, hpub, rfl, hz, hsh⟩ := hat
      have hsh' := hsecret fun h4' => hsh.trans (if_neg h4')
      refine ⟨hher, _, _, _, none, _, hst₀, hnonce.trans huint, .talk _ _ _ h4 (by omega), ?_, ?_⟩
      · exact ⟨huint', by omega, by omega, hi, he, rfl, hpub, rfl, hz, by simp [hsh', show s₂.nextNonce + 1 ≠ 4 by omega]⟩
      · simp [hbox, Letter.secret, hsh', hi]
    | settled b t h n =>
      obtain ⟨rfl, h4, hlt, rfl, he, rfl, hpub, rfl, hz, hsh⟩ := hat
      have hsh' := hsecret fun _ => hsh
      refine ⟨hher, _, _, _, none, _, hst₀, hnonce.trans huint, .data _ _ _ _ h4 (by omega), ?_, ?_⟩
      · exact ⟨huint', by omega, by omega, rfl, he, rfl, hpub, rfl, hz, hsh'⟩
      · simp [hbox, Letter.secret, hsh']

/-! ## The receiving side -/

variable (hs : At s st)
include hs

theorem at_greet {y} (hstate : s.nextNonce < 2 ↔ s.herTempPubKey = .zero) (hy : y ≠ .zero) :
    At (greet s y) (.greeted y) := by
  by_cases h0 : s.nextNonce = 0
  · have hz := hstate.mp (by omega)
    cases st with
    | idle =>
      obtain ⟨-, hi, he, -, hsh⟩ := hs
      simp only [greet, h0]
      exact ⟨rfl, hi, he, rfl, hy, hsh⟩
    | talking x k n | settled b t h n => obtain ⟨h1, h4, -⟩ := hs; omega
    | late t h k n => obtain ⟨-, -, -, -, -, -, hh, hne, -⟩ := hs; exact absurd (hh.symm.trans hz) hne
    | _ => obtain ⟨h1, -⟩ := hs; omega
  · simp only [greet, h0]
    exact ⟨rfl, rfl, rfl, rfl, hy, rfl⟩

theorem greeting_of_nextNonce (hn : s.nextNonce = 2 ∨ s.nextNonce = 3) :
    st.greeting = some s.herTempPubKey := by
  cases st with
  | idle | helloed x => obtain ⟨h1, -⟩ := hs; omega
  | greeted y => obtain ⟨-, -, -, rfl, -⟩ := hs; rfl
  | keyed k y => obtain ⟨-, -, -, -, -, rfl, -⟩ := hs; rfl
  | talking x k n | settled b t h n => obtain ⟨h1, h4, -⟩ := hs; omega
  | late t h k n => obtain ⟨-, -, -, -, -, -, rfl, -⟩ := hs; rfl

theorem at_take {y} {nonce} (hi : s.isInitiator = true) (hest : s.established = false)
    (hn : s.nextNonce = 1 ∨ 4 ≤ s.nextNonce) (hy : y ≠ .zero) (hwrap : 4 < s.nextNonce → s.nextNonce + 1 < 2 ^ 32)
    (hsame : 4 ≤ s.nextNonce → nonce ≠ 2 → s.herTempPubKey = y) :
    st.asker = some s.ourTempPrivKey ∧ At (take s y nonce) (st.take y) := by
  cases st with
  | settled b t h n => obtain ⟨-, -, -, -, he, -⟩ := hs; simp [hest] at he
  | late t h k n => obtain ⟨-, -, -, he, -⟩ := hs; simp [hest] at he
  | helloed x =>
    obtain ⟨h1, -, -, rfl, hpub, -, hsh⟩ := hs
    refine ⟨rfl, ?_⟩
    simp only [take, h1]
    exact ⟨rfl, by omega, by omega, hi, hest, rfl, hpub, rfl, hy, by simp [hsh]⟩
  | talking x k n =>
    obtain ⟨rfl, h4, hlt, -, -, rfl, hpub, rfl, hz, hsh⟩ := hs
    refine ⟨rfl, ?_⟩
    simp only [take]
    by_cases h5 : s.nextNonce = 4
    · exact ⟨rfl, by simp [h5], by simp [h5], hi, hest, rfl, hpub, rfl, hy, by simp [hsh, h5]⟩
    · have hle : ¬ s.nextNonce ≤ 4 := by omega
      have h5' : 4 < s.nextNonce := by omega
      refine ⟨rfl, by simp only [hle, if_false]; omega, by simp [hle]; exact hwrap h5', hi, hest,
        rfl, hpub, rfl, hy, ?_⟩
      by_cases hk : nonce = 2
      · simp [hk, h5', show s.nextNonce + 1 ≠ 4 by omega]
      · simp [hle, hsh, h5, show s.nextNonce + 1 ≠ 4 by omega, hsame h4 hk]
  | _ => obtain ⟨h1, -⟩ := hs; omega

theorem decryptHandshake_receives {err} {content} (hnonce : packet.nonce < 4)
    (hest : 2 ≤ packet.nonce → s.established = false)
    (hret : decryptHandshake ca s packet.nonce packet = .ret (err, s', content)) :
    s'.herPublicKey = s.herPublicKey ∧ ∃ st', At s' st' ∧
      Receives C ca.privateKey s.herPublicKey packet st s.replayProtector err st' s'.replayProtector := by
  obtain ⟨herr, rfl, -⟩ | ⟨hkey, hstate, plain, hopens, hshake⟩ := decryptHandshake_cases hret
  · exact ⟨rfl, st, hs, .unchanged fun h => absurd h herr⟩
  obtain ⟨rfl, -⟩ | ⟨rfl, hz, ⟨hn, -, rfl⟩ | ⟨hn, hsame, h23, rfl⟩ | ⟨hn, h14, h5, hsame, -, rfl⟩⟩ :=
    shakeHands_cases hkey hshake
  · exact ⟨rfl, st, hs, .unchanged fun _ => hnonce⟩
  · refine ⟨?_, _, at_greet hs hstate hz, .greet (hopens.hello hn) hz hnonce⟩
    simp only [greet]
    split
    · rfl
    · rfl
  · exact ⟨rfl, st, hs, .regreet (hopens.hello hn) (hsame ▸ greeting_of_nextNonce hs h23) hnonce⟩
  · obtain ⟨hasker, hat⟩ :=
      @at_take C s st hs _ packet.nonce (hopens.asked hn) (hest hn) h14 hz (fun h => (h5 h).2) hsame
    exact ⟨rfl, _, hat, .key hasker (hopens.answer hn) hz hnonce⟩

theorem waiting_of_nextNonce (he : s.established = false) (hn : 3 ≤ s.nextNonce) :
    st.waiting = some (s.isInitiator, s.ourTempPrivKey, s.herTempPubKey) := by
  cases st with
  | keyed k y => obtain ⟨-, hi, -, rfl, -, rfl, -⟩ := hs; rw [hi]; rfl
  | talking x k n => obtain ⟨-, -, -, hi, -, rfl, -, rfl, -⟩ := hs; rw [hi]; rfl
  | settled b t h n => obtain ⟨-, -, -, -, he', -⟩ := hs; simp [he] at he'
  | late t h k n => obtain ⟨-, -, -, he', -⟩ := hs; simp [he] at he'
  | _ => obtain ⟨h1, -⟩ := hs; omega

theorem at_establish (he : s.established = false) (hn : 3 ≤ s.nextNonce) (now nonce : Nat) :
    At (establish s now nonce) st.establish := by
  cases st with
  | keyed k y =>
    obtain ⟨h3, hi, -, rfl, hpub, rfl, hz, -⟩ := hs
    exact ⟨by simp [establish, uint32, h3], by omega, by omega, hi, rfl, rfl, hpub, rfl, hz, rfl⟩
  | talking x k n =>
    obtain ⟨rfl, h4, hlt, hi, -, rfl, hpub, rfl, hz, -⟩ := hs
    simp only [Stage.establish]
    split
    next hfit => exact ⟨Nat.mod_eq_of_lt hfit, by omega, hfit, hi, rfl, rfl, hpub, rfl, hz, rfl⟩
    next hwrap =>
      refine ⟨?_, by omega, hi, rfl, rfl, hpub, rfl, hz, rfl⟩
      show (s.nextNonce + 3) % 2 ^ 32 = s.nextNonce + 3 - 2 ^ 32
      rw [Nat.mod_eq_sub_mod (by omega), Nat.mod_eq_of_lt (by omega)]
  | settled b t h n => obtain ⟨-, -, -, -, he', -⟩ := hs; simp [he] at he'
  | late t h k n => obtain ⟨-, -, -, he', -⟩ := hs; simp [he] at he'
  | _ => obtain ⟨h1, -⟩ := hs; omega

theorem running_of_established (he : s.established = true) :
    ∃ t h, st.running = some (s.isInitiator, t, h) ∧ s.sharedSecret = C.getSharedSecret t h none := by
  cases st with
  | talking x k n => obtain ⟨-, -, -, -, he', -⟩ := hs; simp [he] at he'
  | settled b t h n => obtain ⟨-, -, -, rfl, -, -, -, -, -, hsh⟩ := hs; exact ⟨t, h, rfl, hsh⟩
  | late t h k n => obtain ⟨-, -, hi, -, -, -, -, -, hsh⟩ := hs; exact ⟨t, h, by rw [hi]; rfl, hsh⟩
  | _ => obtain ⟨-, -, he', -⟩ := hs; simp [he] at he'

/-- `At` reads neither the window nor the clock. -/
theorem At.congr (context : ReplayProtector) (time : Nat) :
    At { s with replayProtector := context, timeOfLastPacket := time } st := by
  cases st with
  | _ => exact hs

/-- Every packet the code takes in is a move of the machine. -/
theorem decrypt_receives {err} {content} (hret : decrypt ca now s packet = .ret (err, s', content)) :
    s'.herPublicKey = s.herPublicKey ∧ ∃ st', At s' st' ∧
      Receives C ca.privateKey s.herPublicKey packet st s.replayProtector err st' s'.replayProtector := by
  obtain ⟨herr, -, rfl⟩ | ⟨herr, ⟨-, -, he, hn⟩, context, rfl⟩ | ⟨rfl, ⟨-, hnonce, he, hn⟩, hopen, -, rfl⟩ |
    ⟨he, hnonce, hopen, hpass⟩ | ⟨hnonce, hest, hshake⟩ := decrypt_cases hret
  · exact ⟨rfl, st, hs, .unchanged fun h => absurd h herr⟩
  · exact ⟨rfl, st, hs.congr _ _, .rebased herr (by rw [waiting_of_nextNonce hs he hn]; rfl)⟩
  · exact ⟨rfl, _, at_establish hs he hn now packet.nonce, .establish (waiting_of_nextNonce hs he hn) hnonce hopen rfl⟩
  · obtain ⟨t, h, hrun, hsh⟩ := running_of_established hs he
    rw [hsh] at hopen
    rcases hpass with ⟨⟨rfl, hpass⟩, rfl⟩ | ⟨rfl, rfl⟩
    · obtain ⟨hnew, hseen, hkeep⟩ := ReplayProtector.checkNonce_true (Prod.ext hpass rfl)
      exact ⟨rfl, st, hs.congr _ _, .data hrun hnonce hopen hnew hseen hkeep⟩
    · exact ⟨rfl, st, hs.congr _ _, .replayed (by rw [hrun]; rfl) fun m hm => hm.checkNonce _⟩
  · exact decryptHandshake_receives hs hnonce hest hshake

end

end Hyperboria.CryptoAuth
