/-
Two nodes, a session each, and a lossless channel in each direction: what they make of
it is a pair of queues. Whatever is sent when, and however the hellos cross, each
packet is accepted when it arrives and holds what was passed to `CryptoAuth_encrypt`
(`channel_refines`).

The two sessions go through eight phases together (`Phase`). A phase says where both
stand and what can still be on its way: a hello that was passed over, repeated hellos
and keys that come late, data packets in the order of their numbers. One lemma for each
kind of packet says what sending it does, one for each what receiving it does, and with
those no packet leads out of the phases.
-/
import Hyperboria.Fifo
import Hyperboria.Crypto.Assertions

namespace Hyperboria.CryptoAuth

open List Function Nat

/-- Two nodes that have opened a session for each other. -/
structure Pair (C : Crypto) where
  priv : Bool → Key
  users : Bool → List User
  credentials : Bool → Option (List UInt8 × Option (List UInt8))
  requireAuth : Bool → Bool
  start : Bool → Nat

/-- What is on its way: the packet, and the message it was made from, which is not looked at. -/
abbrev Wire (C : Crypto) := List (Packet C × List UInt8)

namespace Pair

section
variable {C : Crypto} (p : Pair C)

/-- The public key of an end. -/
def pub (x : Bool) : Key := C.scalarmultBase (p.priv x)

def context (x : Bool) : Context := { publicKey := p.pub x, privateKey := p.priv x, users := p.users x }

/-- The new session of an end, with its password. -/
def fresh (x : Bool) : Session C :=
  match p.credentials x with
  | none => newSession C (p.start x) (p.pub !x) (p.requireAuth x)
  | some (password, login) => setAuth (some password) login (newSession C (p.start x) (p.pub !x) (p.requireAuth x))

/-- The password hash of an end's packets. -/
def hash (x : Bool) : Option Key := (p.credentials x).map fun c => C.sha256 c.1

/-- The other end knows the credentials of `x`, or does not ask for any. -/
def Known (x y : Bool) : Prop :=
  match p.credentials x with
  | none => p.requireAuth y = false
  | some (password, login) => ∃ auth user,
      hashPassword C login password (if login.isSome then 2 else 1) = .ret (C.sha256 password, auth) ∧
      getAuth auth (p.context y) = some user ∧ user.secret = C.sha256 password ∧
      (user.restrictedToip6.headD 0 ≠ 0 → ip6MatchesKey C user.restrictedToip6 (p.pub x) = true)

/-- Two ends with different keys that know each other's credentials. -/
structure Joined : Prop where
  distinct : ∀ {x y}, x ≠ y → p.pub x ≠ p.pub y
  key : ∀ x, p.pub x ≠ .zero
  known : ∀ {x y}, x ≠ y → p.Known x y

/-- The end whose hello counts when two cross. -/
def Lower (x y : Bool) : Prop := (p.pub x).less (p.pub y) = true

end

variable {C : Crypto} {p : Pair C} {x y : Bool}

theorem Joined.lower (h : p.Joined) (hxy : x ≠ y) : p.Lower x y ∨ p.Lower y x := by
  unfold Lower Key.less
  simp only [decide_eq_true_eq]
  by_contra hneither
  obtain ⟨hxy', hyx⟩ := not_or.mp hneither
  exact h.distinct hxy (Subtype.ext (List.le_antisymm hyx hxy'))

theorem Lower.not_lower (h : p.Lower x y) : (p.pub y).less (p.pub x) = false := by
  unfold Lower Key.less at *
  simp only [decide_eq_true_eq, decide_eq_false_iff_not] at *
  exact List.lt_asymm h

/-! ## Credentials -/

/-- The session is the one `x` has for `y`: nothing of what it was set up with has changed. -/
structure Own (p : Pair C) (x y : Bool) (s : Session C) : Prop where
  peer : s.herPublicKey = p.pub y
  require : s.requireAuth = p.requireAuth x
  auth : SameAuth (p.fresh x) s

/-- `y` lets in a packet of `x` with this challenge, and computes the right password hash. -/
structure Welcome (p : Pair C) (x y : Bool) (auth : Challenge) : Prop where
  secret : (getAuth auth (p.context y)).map User.secret = p.hash x
  letIn : ∀ s : Session C, s.herPublicKey = p.pub x → s.requireAuth = p.requireAuth y →
    refusal s auth (getAuth auth (p.context y)) = none

theorem fresh_eq (p : Pair C) (x : Bool) : p.fresh x =
    { newSession C (p.start x) (p.pub !x) (p.requireAuth x) with
      password := (p.credentials x).map Prod.fst
      login := (p.credentials x).bind Prod.snd
      authType := match p.credentials x with
        | none => 0
        | some (_, none) => 1
        | some (_, some _) => 2 } := by
  unfold fresh
  cases p.credentials x with
  | none => rfl
  | some c =>
    obtain ⟨password, login⟩ := c
    cases login with
    | none => rfl
    | some login => rfl

theorem fresh_own (hxy : x ≠ y) : p.Own x y (p.fresh x) := by
  have hy : (!x) = y := Bool.not_eq.mpr hxy
  refine ⟨?_, ?_, .refl _⟩
  · rw [fresh_eq, ← hy]
    rfl
  · rw [fresh_eq]
    rfl

section Ends

variable {s s' : Session C}

theorem Own.congr (h : p.Own x y s) (hpeer : s'.herPublicKey = s.herPublicKey)
    (hrequire : s'.requireAuth = s.requireAuth) (hauth : SameAuth s s') : p.Own x y s' where
  peer := hpeer.trans h.peer
  require := hrequire.trans h.require
  auth := ⟨hauth.1.trans h.auth.1, hauth.2.1.trans h.auth.2.1, hauth.2.2.trans h.auth.2.2⟩

/-- The challenge a session makes is one the other end knows. -/
theorem Own.passwordAuth (hs : p.Own x y s) (hknown : p.Known x y) (draw : Draw) :
    ∃ auth, CryptoAuth.passwordAuth draw s = .ret (p.hash x, auth) ∧ p.Welcome x y auth := by
  obtain ⟨hpassword, hlogin, htype⟩ := hs.auth
  rw [fresh_eq] at hpassword hlogin htype
  unfold Known at hknown
  unfold CryptoAuth.passwordAuth hash
  rw [hpassword, hlogin, htype]
  cases hcred : p.credentials x with
  | none =>
    rw [hcred] at hknown
    refine ⟨_, rfl, ?_, fun s' _ hrequire => ?_⟩
    · rw [hash, hcred]
      rfl
    · show (if s'.requireAuth then _ else _) = _
      rw [hrequire, hknown]
      rfl
  | some c =>
    obtain ⟨password, login⟩ := c
    rw [hcred] at hknown
    obtain ⟨auth, user, hhash, hget, hsecret, hmatches⟩ := hknown
    refine ⟨auth, ?_, ?_, fun s' hpeer _ => ?_⟩
    · cases login with
      | none =>
        show (hashPassword C none password 1 >>= _) = _
        rw [show hashPassword C none password 1 = _ from hhash]
        rfl
      | some login =>
        show (hashPassword C (some login) password 2 >>= _) = _
        rw [show hashPassword C (some login) password 2 = _ from hhash]
        rfl
    · rw [hash, hcred, hget, Option.map_some, hsecret]
      rfl
    · unfold refusal
      rw [hget]
      simp only
      rw [if_neg]
      rintro ⟨hrestricted, hfails⟩
      rw [hpeer, hmatches hrestricted] at hfails
      exact absurd hfails (by decide)

/-! ## Packets on their way -/

/-- A hello or a key of `x` with the temporary key `temp`, sealed with the secret. -/
structure Handshake (p : Pair C) (x y : Bool) (secret : C.Secret) (temp : Key) (q : Packet C × List UInt8) : Prop where
  author : q.1.publicKey = p.pub x
  auth : p.Welcome x y q.1.auth
  length : 120 ≤ q.1.length
  box : q.1.box = C.afternm secret q.1.handshakeNonce (temp.1 ++ q.2)
  temp_ne : temp ≠ .zero

/-- A hello, or a repeated one. -/
structure Hello (p : Pair C) (x y : Bool) (temp : Key) (q : Packet C × List UInt8) : Prop
    extends Handshake p x y (C.getSharedSecret (p.priv x) (p.pub y) (p.hash x)) temp q where
  nonce : q.1.nonce < 2

/-- The answer to a hello with the temporary key `asked`. -/
abbrev Answer (p : Pair C) (x y : Bool) (asked temp : Key) (q : Packet C × List UInt8) : Prop :=
  Handshake p x y (C.getSharedSecret (p.priv x) asked (p.hash x)) temp q

/-- A data packet of the initiator, or of the other end. -/
structure Data (secret : C.Secret) (isInitiator : Bool) (q : Packet C × List UInt8) : Prop where
  first : 4 ≤ q.1.nonce
  last : q.1.nonce < 0xfffffff0
  length : 20 ≤ q.1.length
  box : q.1.box = C.afternm secret (counterNonce q.1.nonce isInitiator) q.2

/-- Data packets with ascending numbers, from `b` to below `n`. -/
def Ascending (secret : C.Secret) (isInitiator : Bool) : Nat → Nat → Wire C → Prop
  | _, _, [] => True
  | b, n, q :: l => b ≤ q.1.nonce ∧ q.1.nonce < n ∧ Data secret isInitiator q ∧
      Ascending secret isInitiator (q.1.nonce + 1) n l

variable {secret : C.Secret} {i : Bool}

theorem Ascending.mono {b n n'} {l} (h : Ascending secret i b n l) (hle : n ≤ n') :
    Ascending secret i b n' l := by
  induction l generalizing b with
  | nil => trivial
  | cons q l ih => exact ⟨h.1, lt_of_lt_of_le h.2.1 hle, h.2.2.1, ih h.2.2.2⟩

variable {b n : Nat} {q : Packet C × List UInt8}

theorem Ascending.snoc {l} (h : Ascending secret i b n l) (hbn : b ≤ n) (hq : Data secret i q)
    (hn : q.1.nonce = n) :
    Ascending secret i b (n + 1) (l ++ [q]) := by
  induction l generalizing b with
  | nil => exact ⟨by omega, by omega, hq, trivial⟩
  | cons q' l ih =>
    obtain ⟨hb, hlt, hq', hl⟩ := h
    exact ⟨hb, by omega, hq', ih hl hlt⟩

/-! ## Sessions -/

/-- The session of `x` for `y` is at a stage, and lets all numbers from `b` on pass. -/
structure Standing (p : Pair C) (x y : Bool) (s : Session C) (st : Stage) (b : Nat) : Prop where
  own : p.Own x y s
  stage : At s st
  window : ∀ m, b ≤ m → ¬ s.replayProtector.Seen m
  drawn : ∀ t, st.ours = some t → t ≠ .zero ∧ C.scalarmultBase t ≠ .zero

theorem not_seen_zero (m : Nat) : ¬ ReplayProtector.zero.Seen m := by
  rintro (h | h)
  · exact not_lt_zero m h
  · exact absurd (h.symm.trans BitVec.getLsbD_zero) (by decide)

/-- The next number passes, and all that are greater still do. -/
theorem checkNonce_next {w : ReplayProtector} {b nonce} (hw : ∀ m, b ≤ m → ¬ w.Seen m) (hb : b ≤ nonce) :
    (w.checkNonce nonce).1 = true ∧ ∀ m, nonce + 1 ≤ m → ¬ (w.checkNonce nonce).2.Seen m := by
  have hnew := hw nonce hb
  generalize hr : ReplayProtector.checkNonce nonce w = r
  obtain ⟨passes, w'⟩ := r
  obtain ⟨hlow, -⟩ | ⟨-, hbase, -, rfl, hbits⟩ := ReplayProtector.checkNonce_cases hr
  · exact absurd (.inl hlow) hnew
  · refine ⟨?_, fun m hm => ?_⟩
    · rw [Bool.not_eq_true', Bool.eq_false_iff]
      exact fun h => hnew (.inr h)
    · rintro (hlt | hset)
      · have hlt : m < w'.baseOffset := hlt
        omega
      · rcases (hbits m (by omega)).mp hset with hset | rfl
        · exact hw m (by omega) (.inr hset)
        · omega

variable {st : Stage}

theorem Standing.known (hp : p.Joined) (h : p.Standing x y s st b) :
    knowHerKey s = true := by
  rw [knowHerKey, h.own.peer, Bool.not_eq_true', Key.isZero_eq_false]
  exact hp.key y

/-! ## Sending -/

/-- What is asked of a call of `CryptoAuth_encrypt`: a message, no timeout, a counter that is not at its end, and
random bytes that make a key. -/
structure Sendable (s : Session C) (now : Nat) (draw : Draw) (msg : List UInt8) : Prop where
  message : msg ≠ []
  time : resetIfTimeout now s = .ret s
  count : s.nextNonce < 0xfffffff0
  drawn : draw.tempPrivKey ≠ .zero ∧ C.scalarmultBase draw.tempPrivKey ≠ .zero

variable {now : Nat} {draw : Draw} {msg : List UInt8} {temp : Key}

theorem Standing.send_handshake (hp : p.Joined) (hxy : x ≠ y) (h : p.Standing x y s st b)
    (hsend : Sendable s now draw msg) (hn : s.nextNonce < 4) (hstate : s.nextNonce < 2 ↔ s.herTempPubKey = .zero)
    (htemp : (withTempKeys draw s).ourTempPubKey = temp) (hz : temp ≠ .zero) :
    ∃ s' packet n letter st' hash, encrypt (p.context x) now draw s msg = .ret (s', packet) ∧ packet.nonce = n ∧
      Sends C (p.priv x) s.herPublicKey draw hash msg st n letter st' ∧ p.Standing x y s' st' b ∧
      Handshake p x y (sealingSecret (p.context x) s (p.hash x)) temp (packet, msg) := by
  obtain ⟨auth, hpass, hwelcome⟩ := h.own.passwordAuth (hp.known hxy) draw
  have heq := @encryptHandshake_eq C (p.context x) s draw msg _ _ (h.known hp) hpass hstate hn
  obtain ⟨hrp, hher, n, st', hash, letter, hnonce, hsends, hat, -⟩ := encryptHandshake_sends h.stage heq hn
  refine ⟨_, _, n, letter, st', hash, (encrypt_handshake hsend.time hn).trans heq, hnonce, hsends,
    ⟨?_, hat, ?_, ?_⟩, rfl, hwelcome, ?_, by rw [← htemp]; rfl, hz⟩
  · refine h.own.congr hher ?_ (encryptHandshake_sameAuth heq)
    show (withTempKeys draw s).requireAuth = s.requireAuth
    rw [withTempKeys_eq]
  · rw [hrp]
    exact h.window
  · intro t ht
    rcases hsends.ours t ht with ht | rfl
    · exact h.drawn t ht
    · exact hsend.drawn
  · show 120 ≤ boxAt (uint32 s.nextNonce) + C.size _
    rw [C.size_afternm, length_append, (withTempKeys draw s).ourTempPubKey.2, uint32,
      mod_eq_of_lt (by omega), boxAt, if_pos hn]
    omega

/-- The call returns a packet of which `post` holds, and the session is at a stage then. -/
def Sent (p : Pair C) (x y : Bool) (now : Nat) (draw : Draw) (s : Session C) (msg : List UInt8) (b : Nat) (st : Stage)
    (post : Packet C × List UInt8 → Prop) : Prop :=
  ∃ s' packet, encrypt (p.context x) now draw s msg = .ret (s', packet) ∧ p.Standing x y s' st b ∧ post (packet, msg)

variable {t : Key}

/-- A hello: the first one draws its key, those after it are repetitions. -/
theorem Standing.send_hello (hp : p.Joined) (hxy : x ≠ y) (h : p.Standing x y s st b)
    (hst : st = .idle ∧ t = draw.tempPrivKey ∨ st = .helloed t) (hsend : Sendable s now draw msg) :
    p.Sent x y now draw s msg b (.helloed t) fun q =>
      Hello p x y (C.scalarmultBase t) q ∧ (st = .helloed t → q.1.nonce = 1) := by
  have hstate : s.nextNonce < 2 ∧ s.herTempPubKey = .zero ∧ (withTempKeys draw s).ourTempPubKey = C.scalarmultBase t ∧
      C.scalarmultBase t ≠ .zero := by
    rcases hst with ⟨rfl, rfl⟩ | rfl
    · obtain ⟨h0, -, -, hz, -⟩ := h.stage
      exact ⟨by omega, hz, by simp [withTempKeys, h0], hsend.drawn.2⟩
    · obtain ⟨h1, -, -, -, hpub, hz, -⟩ := h.stage
      exact ⟨by omega, hz, by simp [withTempKeys, h1, hpub], (h.drawn t rfl).2⟩
  obtain ⟨hn, hz, htemp, hne⟩ := hstate
  obtain ⟨s', packet, n, letter, st', hash, heq, hnonce, hsends, hstanding, hshake⟩ :=
    h.send_handshake hp hxy hsend (by omega) (iff_of_true hn hz) htemp hne
  rw [sealingSecret, if_pos hn, h.own.peer] at hshake
  rcases hst with ⟨rfl, rfl⟩ | rfl
  · cases hsends
    exact ⟨s', packet, heq, hstanding, ⟨hshake, by simp only; omega⟩, fun h => Stage.noConfusion h⟩
  · cases hsends
    exact ⟨s', packet, heq, hstanding, ⟨hshake, by simp only; omega⟩, fun _ => hnonce⟩

variable {asked : Key}

/-- A key: the first one draws its key, those after it are repetitions. -/
theorem Standing.send_key (hp : p.Joined) (hxy : x ≠ y) (h : p.Standing x y s st b)
    (hst : st = .greeted asked ∧ t = draw.tempPrivKey ∧ n = 2 ∨ st = .keyed t asked ∧ n = 3)
    (hsend : Sendable s now draw msg) :
    p.Sent x y now draw s msg b (.keyed t asked) fun q =>
      Answer p x y asked (C.scalarmultBase t) q ∧ q.1.nonce = n := by
  have hstate : s.nextNonce = n ∧ s.herTempPubKey = asked ∧ asked ≠ .zero ∧
      (withTempKeys draw s).ourTempPubKey = C.scalarmultBase t ∧ C.scalarmultBase t ≠ .zero := by
    rcases hst with ⟨rfl, rfl, rfl⟩ | ⟨rfl, rfl⟩
    · obtain ⟨h2, -, -, hher, hz, -⟩ := h.stage
      exact ⟨h2, hher, hz, by simp [withTempKeys, h2], hsend.drawn.2⟩
    · obtain ⟨h3, -, -, -, hpub, hher, hz, -⟩ := h.stage
      exact ⟨h3, hher, hz, by simp [withTempKeys, h3, hpub], (h.drawn t rfl).2⟩
  obtain ⟨hn, hher, hz, htemp, hne⟩ := hstate
  obtain ⟨s', packet, n, letter, st', hash, heq, hnonce, hsends, hstanding, hshake⟩ :=
    h.send_handshake hp hxy hsend (by omega) (iff_of_false (by omega) (hher ▸ hz)) htemp hne
  rw [sealingSecret, if_neg (by omega), hher] at hshake
  rcases hst with ⟨rfl, rfl, rfl⟩ | ⟨rfl, rfl⟩
  · cases hsends
    exact ⟨s', packet, heq, hstanding, hshake, hnonce⟩
  · cases hsends
    exact ⟨s', packet, heq, hstanding, hshake, hnonce⟩

/-- A data packet is sent, by a session that has the secret or can compute it. -/
theorem Standing.send_data {st st'} (h : p.Standing x y s st b) (hsend : Sendable s now draw msg)
    (hn : s.nextNonce = n) (h4 : 4 ≤ n) (hi : s.isInitiator = i)
    (hsecret : finalStep s = .ret { s with sharedSecret := secret })
    (hat : At { s with sharedSecret := secret, nextNonce := n + 1 } st') (hours : st'.ours = st.ours) :
    p.Sent x y now draw s msg b st' fun q => Data secret i q ∧ q.1.nonce = n := by
  subst hn hi
  have hcount := hsend.count
  have huint : uint32 s.nextNonce = s.nextNonce := mod_eq_of_lt (by omega)
  refine ⟨_, _, encrypt_data hsend.time h4 hsend.count hsend.message hsecret,
    ⟨h.own.congr rfl rfl (.refl s), hat, h.window, fun t ht => h.drawn t (hours ▸ ht)⟩, ?_, huint⟩
  refine ⟨le_trans h4 (le_of_eq huint.symm), lt_of_le_of_lt (le_of_eq huint) hcount, ?_, ?_⟩
  · show 20 ≤ boxAt (uint32 s.nextNonce) + C.size _
    rw [C.size_afternm, boxAt, if_neg (by omega)]
    omega
  · show C.afternm secret _ msg = C.afternm secret (counterNonce (uint32 s.nextNonce) _) msg
    rw [huint]

variable {k : Key}

/-- The secret is there, or is computed with the first data packet. -/
theorem Standing.finalStep_eq (hp : p.Joined) (h : p.Standing x y s st b) (hours : st.ours = some t)
    (ht : s.ourTempPrivKey = t) (hk : s.herTempPubKey = k) (hz : k ≠ .zero)
    (hsh : s.nextNonce ≠ 4 → s.sharedSecret = C.getSharedSecret t k none) :
    finalStep s = .ret { s with sharedSecret := C.getSharedSecret t k none } := by
  unfold finalStep
  split
  next h4 =>
    rw [cryptoAuthDebug_eq (h.known hp), Er.ret_bind, Er.assertTrue_bind (by simpa [ht] using (h.drawn t hours).1),
      Er.assertTrue_bind (by simpa [hk] using hz), ht, hk]
  next h4 => rw [← hsh h4]

theorem Standing.send_talk (hp : p.Joined) (h : p.Standing x y s (.talking t k n) b) (hsend : Sendable s now draw msg) :
    p.Sent x y now draw s msg b (.talking t k (n + 1)) fun q =>
      Data (C.getSharedSecret t k none) true q ∧ q.1.nonce = n := by
  obtain ⟨hn, h4, hlt, hi, hest, ht, hpub, hk, hz, hsh⟩ := h.stage
  have hcount := hsend.count
  refine h.send_data hsend hn h4 hi (h.finalStep_eq hp rfl ht hk hz fun h4' => ?_) ?_ rfl
  · rw [hsh, if_neg (by omega)]
  · exact ⟨rfl, by omega, by omega, hi, hest, ht, hpub, hk, hz, by rw [if_neg (by omega)]⟩

theorem Standing.send_settled (hp : p.Joined) (h : p.Standing x y s (.settled i t k n) b)
    (hsend : Sendable s now draw msg) :
    p.Sent x y now draw s msg b (.settled i t k (n + 1)) fun q =>
      Data (C.getSharedSecret t k none) i q ∧ q.1.nonce = n := by
  obtain ⟨hn, h4, hlt, hi, hest, ht, hpub, hk, hz, hsh⟩ := h.stage
  have hcount := hsend.count
  exact h.send_data hsend hn h4 hi (h.finalStep_eq hp rfl ht hk hz fun _ => hsh)
    ⟨rfl, by omega, by omega, hi, hest, ht, hpub, hk, hz, rfl⟩ rfl

/-! ## Receiving -/

theorem Hello.opens (hC : C.Correct) (h : Hello p x y temp q) (hs : p.Own y x s) :
    Opens (p.context y) s q.1 (temp.1 ++ q.2) where
  length := h.length
  author := hs.peer.trans h.author.symm
  welcome := h.auth.letIn s hs.peer hs.require
  asked := fun h2 => by have := h.nonce; omega
  opens := by
    rw [openingSecret, if_pos h.nonce, h.auth.secret, hs.peer, h.box]
    show C.openAfternm (C.getSharedSecret (p.priv y) (C.scalarmultBase (p.priv x)) _) _ _ = _
    rw [hC.shared_comm]
    exact hC.open_afternm _ _ _

/-- A key opens at the end that asked for it. -/
theorem Handshake.answer_opens (hC : C.Correct) (h : Answer p x y (C.scalarmultBase t) temp q) (hn : 2 ≤ q.1.nonce)
    (hs : p.Own y x s) (hi : s.isInitiator = true) (ht : s.ourTempPrivKey = t) :
    Opens (p.context y) s q.1 (temp.1 ++ q.2) where
  length := h.length
  author := hs.peer.trans h.author.symm
  welcome := h.auth.letIn s hs.peer hs.require
  asked := fun _ => hi
  opens := by
    rw [openingSecret, if_neg (by omega), h.auth.secret, hs.peer, h.box, ht]
    rw [hC.shared_comm]
    exact hC.open_afternm _ _ _

theorem drop_temp (temp : Key) (msg : List UInt8) : (temp.1 ++ msg).drop 32 = msg := drop_left' temp.2

variable (hC : C.Correct) (hp : p.Joined)
include hC hp

/-- A hello comes to a session that has done nothing yet, or has said hello itself and has to give way. -/
theorem Standing.receive_hello (h : p.Standing y x s st 0)
    (hst : st = .idle ∨ (∃ t, st = .helloed t) ∧ p.Lower x y) (hq : Hello p x y temp q) :
    ∃ s', decrypt (p.context y) now s q.1 = .ret (.none, s', q.2) ∧ p.Standing y x s' (.greeted temp) 0 := by
  have hkey := h.known hp
  have hstate : s.nextNonce < 2 ∧ s.herTempPubKey = .zero := by
    have hat := h.stage
    rcases hst with rfl | ⟨⟨t, rfl⟩, -⟩
    · obtain ⟨h0, -, -, hz, -⟩ := hat
      exact ⟨by omega, hz⟩
    · obtain ⟨h1, -, -, -, -, hz, -⟩ := hat
      exact ⟨by omega, hz⟩
  have hopens := hq.opens hC h.own
  have htemp := Key.ofBytes_append temp q.2
  have hz : Key.ofBytes (temp.1 ++ q.2) ≠ .zero := by rw [htemp]; exact hq.temp_ne
  have hnew : s.herTempPubKey ≠ Key.ofBytes (temp.1 ++ q.2) := by
    rw [hstate.2]
    exact hz.symm
  refine ⟨greet s temp, ?_, ?_, ?_, ?_, fun t ht => nomatch ht⟩
  · rw [decrypt_handshake hkey (le_trans (by decide) hq.length) (by have := hq.nonce; omega)
      (by have := hq.nonce; omega), decryptHandshake_of_opens hkey (iff_of_true hstate.1 hstate.2) hopens,
      shakeHands_newHello hkey hq.nonce hz hnew, if_neg, htemp, drop_temp]
    rintro ⟨h1, hfirm⟩
    rcases hst with rfl | ⟨-, hlower⟩
    · obtain ⟨h0, -⟩ := h.stage
      omega
    · rw [h.own.peer] at hfirm
      exact absurd (hlower.symm.trans hfirm) (by decide)
  · unfold greet
    split
    · exact h.own.congr rfl rfl (.refl s)
    · exact h.own.congr rfl rfl (.refl s)
  · exact at_greet h.stage (iff_of_true hstate.1 hstate.2) hq.temp_ne
  · intro m _
    exact not_seen_zero m

/-- A hello comes to a session that has said hello itself and stands firm. -/
theorem Standing.receive_crossed (h : p.Standing y x s (.helloed t) b)
    (hlower : p.Lower y x) (hq : Hello p x y temp q) :
    decrypt (p.context y) now s q.1 = .ret (.none, s, q.2) := by
  have hkey := h.known hp
  obtain ⟨h1, -, -, -, -, hz, -⟩ := h.stage
  have htemp := Key.ofBytes_append temp q.2
  have hz' : Key.ofBytes (temp.1 ++ q.2) ≠ .zero := by rw [htemp]; exact hq.temp_ne
  have hfirm : s.herPublicKey.less (p.context y).publicKey = false := by
    rw [h.own.peer]
    exact hlower.not_lower
  rw [decrypt_handshake hkey (le_trans (by decide) hq.length) (by have := hq.nonce; omega)
    (by have := hq.nonce; omega), decryptHandshake_of_opens hkey (iff_of_true (by omega) hz) (hq.opens hC h.own),
    shakeHands_newHello hkey hq.nonce hz' (by rw [hz]; exact hz'.symm), if_pos ⟨h1, hfirm⟩, drop_temp]

/-- A hello is repeated to the session that knows it. -/
theorem Standing.receive_repeatHello (h : p.Standing y x s st b)
    (hst : st = .greeted temp ∨ ∃ u, st = .keyed u temp) (hq : Hello p x y temp q) (hn : q.1.nonce = 1) :
    ∃ s', decrypt (p.context y) now s q.1 = .ret (.none, s', q.2) ∧ p.Standing y x s' st 0 := by
  have hkey := h.known hp
  have hstate : (s.nextNonce = 2 ∨ s.nextNonce = 3) ∧ s.herTempPubKey = temp := by
    have hat := h.stage
    rcases hst with rfl | ⟨u, rfl⟩
    · obtain ⟨h2, -, -, hher, -⟩ := hat
      exact ⟨.inl h2, hher⟩
    · obtain ⟨h3, -, -, -, -, hher, -⟩ := hat
      exact ⟨.inr h3, hher⟩
  have htemp := Key.ofBytes_append temp q.2
  have hz : Key.ofBytes (temp.1 ++ q.2) ≠ .zero := by rw [htemp]; exact hq.temp_ne
  refine ⟨{ s with replayProtector := .zero }, ?_, h.own.congr rfl rfl (.refl s), h.stage.congr _ _,
    fun m _ => not_seen_zero m, h.drawn⟩
  rw [decrypt_handshake hkey (le_trans (by decide) hq.length) (by omega) (by omega),
    decryptHandshake_of_opens hkey (iff_of_false (by omega) (hstate.2 ▸ hq.temp_ne)) (hq.opens hC h.own),
    shakeHands_knownHello hkey hq.nonce hz (htemp.symm ▸ hstate.2), if_pos ⟨hn, hstate.1⟩, drop_temp]

/-- The answer comes to the session that said hello, or comes again to one that has it. -/
theorem Standing.receive_key (h : p.Standing y x s st b)
    (hst : st = .helloed t ∧ q.1.nonce = 2 ∨ (∃ n, st = .talking t temp n) ∧ q.1.nonce = 3)
    (hq : Answer p x y (C.scalarmultBase t) temp q) (hcount : s.nextNonce < 0xfffffff0) :
    ∃ s', decrypt (p.context y) now s q.1 = .ret (.none, s', q.2) ∧ p.Standing y x s' (st.take temp) 0 := by
  have hkey := h.known hp
  have htemp := Key.ofBytes_append temp q.2
  have hz : Key.ofBytes (temp.1 ++ q.2) ≠ .zero := by rw [htemp]; exact hq.temp_ne
  have hn : q.1.nonce = 2 ∨ q.1.nonce = 3 := hst.imp (fun h => h.2) fun h => h.2
  -- what both stages have in common
  have hstate : s.isInitiator = true ∧ s.established = false ∧ s.ourTempPrivKey = t ∧
      (s.nextNonce < 2 ↔ s.herTempPubKey = .zero) ∧ (s.nextNonce = 1 ∨ 4 ≤ s.nextNonce) ∧
      (4 ≤ s.nextNonce → s.herTempPubKey = temp ∧ q.1.nonce = 3) := by
    have hat := h.stage
    rcases hst with ⟨rfl, -⟩ | ⟨⟨n, rfl⟩, hn⟩
    · obtain ⟨h1, hi, hest, ht, -, hher, -⟩ := hat
      exact ⟨hi, hest, ht, iff_of_true (by omega) hher, .inl h1, by omega⟩
    · obtain ⟨rfl, h4, -, hi, hest, ht, -, hher, hne, -⟩ := hat
      exact ⟨hi, hest, ht, iff_of_false (by omega) (hher ▸ hne), .inr h4, fun _ => ⟨hher, hn⟩⟩
  obtain ⟨hi, hest, ht, hiff, hnext, hsame⟩ := hstate
  have hdupe : ¬ DupeKey s q.1.nonce (Key.ofBytes (temp.1 ++ q.2)) := by
    rintro ⟨h4, h2⟩
    obtain ⟨hher, h3⟩ := hsame h4
    have := h2.mpr (hher.trans htemp.symm)
    omega
  have htake := @at_take C s st h.stage temp q.1.nonce hi hest hnext hq.temp_ne (by omega) fun h4 _ => (hsame h4).1
  refine ⟨take s temp q.1.nonce, ?_, h.own.congr rfl rfl (.refl s), htake.2, fun m _ => not_seen_zero m, fun u hu => ?_⟩
  · rw [decrypt_handshake hkey (le_trans (by decide) hq.length) (by omega) (fun _ => hest),
      decryptHandshake_of_opens hkey hiff (hq.answer_opens hC (by omega) h.own hi ht),
      shakeHands_key hkey hn hz hest (fun h4 => by rw [(hsame h4).1]; exact hq.temp_ne) (by omega)
        (fun h2 h5 => by have := (hsame (by omega)).2; omega),
      if_neg hdupe, if_neg (by omega), htemp, drop_temp]
  · refine h.drawn u ?_
    rcases hst with ⟨rfl, -⟩ | ⟨⟨n, rfl⟩, -⟩
    · exact hu
    · exact hu

theorem Standing.receive_first (h : p.Standing y x s st 0)
    (hst : st.waiting = some (i, t, k)) (hq : Data (C.getSharedSecret t k none) (!i) q) (hour : st.ours = some t) :
    ∃ s', decrypt (p.context y) now s q.1 = .ret (.none, s', q.2) ∧
      p.Standing y x s' st.establish (q.1.nonce + 1) := by
  have hkey := h.known hp
  have hstate : s.established = false ∧ 3 ≤ s.nextNonce ∧ s.herTempPubKey ≠ .zero ∧
      s.isInitiator = i ∧ s.ourTempPrivKey = t ∧ s.herTempPubKey = k := by
    have hat := h.stage
    cases st with
    | keyed u z =>
      obtain ⟨h3, hi, hest, rfl, -, rfl, hne, -⟩ := hat
      cases hst
      exact ⟨hest, by omega, hne, hi, rfl, rfl⟩
    | talking u z n =>
      obtain ⟨rfl, h4, -, hi, hest, rfl, -, rfl, hne, -⟩ := hat
      cases hst
      exact ⟨hest, by omega, hne, hi, rfl, rfl⟩
    | _ => cases hst
  obtain ⟨hest, hn, hne, rfl, rfl, rfl⟩ := hstate
  have hlast := hq.last
  obtain ⟨hpass, -⟩ := checkNonce_next h.window (zero_le q.1.nonce)
  refine ⟨establish s now q.1.nonce, decrypt_first hkey ⟨hq.length, hq.first, hest, hn⟩ (h.drawn _ hour).1 hne ?_ hpass,
    h.own.congr rfl rfl (.refl s), at_establish h.stage hest hn now q.1.nonce, fun m hm => ?_, fun u hu => ?_⟩
  · rw [hq.box]
    exact hC.open_afternm _ _ _
  · -- the window begins behind the packet
    have hbase : (establish s now q.1.nonce).replayProtector.baseOffset = q.1.nonce + 1 :=
      mod_eq_of_lt (by omega)
    rintro (hlt | hset)
    · omega
    · exact absurd (hset.symm.trans BitVec.getLsbD_zero) (by decide)
  · refine h.drawn u ?_
    cases st with
    | keyed v z => exact hu
    | talking v z n =>
      simp only [Stage.establish] at hu
      split at hu
      · exact hu
      · cases hu
    | _ => cases hst

omit hp

theorem Standing.receive_data (h : p.Standing y x s (.settled i t k n) b)
    (hq : Data (C.getSharedSecret t k none) (!i) q) (hb : b ≤ q.1.nonce) :
    ∃ s', decrypt (p.context y) now s q.1 = .ret (.none, s', q.2) ∧
      p.Standing y x s' (.settled i t k n) (q.1.nonce + 1) := by
  obtain ⟨-, -, -, hi, hest, -, -, -, -, hsh⟩ := h.stage
  obtain ⟨hpass, hwindow⟩ := checkNonce_next h.window hb
  refine ⟨_, decrypt_data hq.length hq.first hest (hsh ▸ hC.shared_ne_zero t k none) ?_ hpass,
    h.own.congr rfl rfl (.refl s), h.stage.congr _ _, hwindow, h.drawn⟩
  rw [hq.box, hsh, hi]
  exact hC.open_afternm _ _ _

end Ends

/-! ## The phases -/

/-- Repeated hellos of `x`. -/
def Repeats (p : Pair C) (x y : Bool) (temp : Key) (l : Wire C) : Prop := ∀ q ∈ l, Hello p x y temp q ∧ q.1.nonce = 1

/-- Hellos of `x` that are passed over. -/
def Stale (p : Pair C) (x y : Bool) (l : Wire C) : Prop := ∀ q ∈ l, ∃ temp, Hello p x y temp q

/-- Repeated keys of `x`. -/
def Keys (p : Pair C) (x y : Bool) (asked temp : Key) (l : Wire C) : Prop :=
  ∀ q ∈ l, Answer p x y asked temp q ∧ q.1.nonce = 3

/-- Where the two ends stand, and what is on its way; `x` has the hello that counts. -/
inductive Phase (p : Pair C) (x y : Bool) : Session C → Session C → Wire C → Wire C → Prop where
  | fresh {s s'} (hs : p.Standing x y s .idle 0) (hs' : p.Standing y x s' .idle 0) : Phase p x y s s' [] []
  | called {s s' t q l} (hs : p.Standing x y s (.helloed t) 0) (hs' : p.Standing y x s' .idle 0)
      (hq : Hello p x y (C.scalarmultBase t) q) (hl : p.Repeats x y (C.scalarmultBase t) l) :
      Phase p x y s s' (q :: l) []
  | crossed {s s' t t' q l w} (hs : p.Standing x y s (.helloed t) 0) (hs' : p.Standing y x s' (.helloed t') 0)
      (hlower : p.Lower x y) (hq : Hello p x y (C.scalarmultBase t) q) (hl : p.Repeats x y (C.scalarmultBase t) l)
      (hw : p.Stale y x w) : Phase p x y s s' (q :: l) w
  | greeted {s s' t l w} (hs : p.Standing x y s (.helloed t) 0)
      (hs' : p.Standing y x s' (.greeted (C.scalarmultBase t)) 0) (hl : p.Repeats x y (C.scalarmultBase t) l)
      (hw : p.Stale y x w) (hlower : w ≠ [] → p.Lower x y) : Phase p x y s s' l w
  | keyed {s s' t u l w q k} (hs : p.Standing x y s (.helloed t) 0)
      (hs' : p.Standing y x s' (.keyed u (C.scalarmultBase t)) 0) (hl : p.Repeats x y (C.scalarmultBase t) l)
      (hw : p.Stale y x w) (hlower : w ≠ [] → p.Lower x y)
      (hq : Answer p y x (C.scalarmultBase t) (C.scalarmultBase u) q) (hn : q.1.nonce = 2)
      (hk : p.Keys y x (C.scalarmultBase t) (C.scalarmultBase u) k) : Phase p x y s s' l (w ++ q :: k)
  | talking {s s' t u n l d k} (hs : p.Standing x y s (.talking t (C.scalarmultBase u) n) 0)
      (hs' : p.Standing y x s' (.keyed u (C.scalarmultBase t)) 0) (hl : p.Repeats x y (C.scalarmultBase t) l)
      (hd : Ascending (C.getSharedSecret t (C.scalarmultBase u) none) true 4 n d)
      (hk : p.Keys y x (C.scalarmultBase t) (C.scalarmultBase u) k) : Phase p x y s s' (l ++ d) k
  | half {s s' t u n m b d k e} (hs : p.Standing x y s (.talking t (C.scalarmultBase u) n) 0)
      (hs' : p.Standing y x s' (.settled false u (C.scalarmultBase t) m) b) (hb : b ≤ n)
      (hd : Ascending (C.getSharedSecret t (C.scalarmultBase u) none) true b n d)
      (hk : p.Keys y x (C.scalarmultBase t) (C.scalarmultBase u) k)
      (he : Ascending (C.getSharedSecret t (C.scalarmultBase u) none) false 4 m e) : Phase p x y s s' d (k ++ e)
  | settled {s s' t u n m b c d e} (hs : p.Standing x y s (.settled true t (C.scalarmultBase u) n) c)
      (hs' : p.Standing y x s' (.settled false u (C.scalarmultBase t) m) b) (hb : b ≤ n) (hc : c ≤ m)
      (hd : Ascending (C.getSharedSecret t (C.scalarmultBase u) none) true b n d)
      (he : Ascending (C.getSharedSecret t (C.scalarmultBase u) none) false c m e) : Phase p x y s s' d e

/-- The ends are in a phase, whichever of them has the hello that counts. -/
def Together (p : Pair C) (x y : Bool) (s s' : Session C) (w w' : Wire C) : Prop :=
  Phase p x y s s' w w' ∨ Phase p y x s' s w' w

variable {s s' : Session C} {w w' : Wire C} {now : Nat} {draw : Draw} {msg : List UInt8} {b n : Nat} {t k : Key}
  {q : Packet C × List UInt8}

theorem Together.symm (h : p.Together x y s s' w w') :
    p.Together y x s' s w' w := Or.symm h

theorem forall_snoc {P : Packet C × List UInt8 → Prop} {l : Wire C} (h : ∀ r ∈ l, P r) (hq : P q) :
    ∀ r ∈ l ++ [q], P r := by
  intro r hr
  rcases mem_append.mp hr with hr | hr
  · exact h r hr
  · exact mem_singleton.mp hr ▸ hq

theorem Repeats.snoc {l} (h : p.Repeats x y temp l) (hq : Hello p x y temp q) (hn : q.1.nonce = 1) :
    p.Repeats x y temp (l ++ [q]) := forall_snoc h ⟨hq, hn⟩

theorem Stale.snoc {l} (h : p.Stale x y l) (hq : Hello p x y temp q) : p.Stale x y (l ++ [q]) :=
  forall_snoc h ⟨temp, hq⟩

theorem Keys.snoc {l} (h : p.Keys x y asked temp l) (hq : Answer p x y asked temp q) (hn : q.1.nonce = 3) :
    p.Keys x y asked temp (l ++ [q]) := forall_snoc h ⟨hq, hn⟩

theorem Phase.send (hp : p.Joined) (hxy : x ≠ y) (h : Phase p x y s s' w w') (hsend : Sendable s now draw msg) :
    ∃ s₁ packet, encrypt (p.context x) now draw s msg = .ret (s₁, packet) ∧
      Phase p x y s₁ s' (w ++ [(packet, msg)]) w' := by
  cases h with
  | fresh hs hs' =>
    obtain ⟨s₁, packet, heq, hs₁, hq, -⟩ := hs.send_hello hp hxy (.inl ⟨rfl, rfl⟩) hsend
    exact ⟨s₁, packet, heq, .called hs₁ hs' hq fun _ hr => absurd hr not_mem_nil⟩
  | called hs hs' hq hl =>
    obtain ⟨s₁, packet, heq, hs₁, hr, hn⟩ := hs.send_hello hp hxy (.inr rfl) hsend
    exact ⟨s₁, packet, heq, .called hs₁ hs' hq (hl.snoc hr (hn rfl))⟩
  | crossed hs hs' hlower hq hl hw =>
    obtain ⟨s₁, packet, heq, hs₁, hr, hn⟩ := hs.send_hello hp hxy (.inr rfl) hsend
    exact ⟨s₁, packet, heq, .crossed hs₁ hs' hlower hq (hl.snoc hr (hn rfl)) hw⟩
  | greeted hs hs' hl hw hlower =>
    obtain ⟨s₁, packet, heq, hs₁, hr, hn⟩ := hs.send_hello hp hxy (.inr rfl) hsend
    exact ⟨s₁, packet, heq, .greeted hs₁ hs' (hl.snoc hr (hn rfl)) hw hlower⟩
  | keyed hs hs' hl hw hlower hq hn hk =>
    obtain ⟨s₁, packet, heq, hs₁, hr, hn'⟩ := hs.send_hello hp hxy (.inr rfl) hsend
    exact ⟨s₁, packet, heq, .keyed hs₁ hs' (hl.snoc hr (hn' rfl)) hw hlower hq hn hk⟩
  | talking hs hs' hl hd hk =>
    obtain ⟨s₁, packet, heq, hs₁, hr, hn⟩ := hs.send_talk hp hsend
    obtain ⟨-, h4, -⟩ := hs.stage
    refine ⟨s₁, packet, heq, ?_⟩
    rw [append_assoc]
    exact .talking hs₁ hs' hl (hd.snoc h4 hr hn) hk
  | half hs hs' hb hd hk he =>
    obtain ⟨s₁, packet, heq, hs₁, hr, hn⟩ := hs.send_talk hp hsend
    exact ⟨s₁, packet, heq, .half hs₁ hs' (le_succ_of_le hb) (hd.snoc hb hr hn) hk he⟩
  | settled hs hs' hb hc hd he =>
    obtain ⟨s₁, packet, heq, hs₁, hr, hn⟩ := hs.send_settled hp hsend
    exact ⟨s₁, packet, heq, .settled hs₁ hs' (le_succ_of_le hb) hc (hd.snoc hb hr hn) he⟩

theorem Phase.send_back (hC : C.Correct) (hp : p.Joined) (hxy : x ≠ y) (h : Phase p x y s s' w w')
    (hsend : Sendable s' now draw msg) :
    ∃ s₁ packet, encrypt (p.context y) now draw s' msg = .ret (s₁, packet) ∧
      p.Together x y s s₁ w (w' ++ [(packet, msg)]) := by
  have hyx := hxy.symm
  cases h with
  | fresh hs hs' =>
    obtain ⟨s₁, packet, heq, hs₁, hq, -⟩ := hs'.send_hello hp hyx (.inl ⟨rfl, rfl⟩) hsend
    exact ⟨s₁, packet, heq, .inr (.called hs₁ hs hq fun _ hr => absurd hr not_mem_nil)⟩
  | called hs hs' hq hl =>
    obtain ⟨s₁, packet, heq, hs₁, hr, -⟩ := hs'.send_hello hp hyx (.inl ⟨rfl, rfl⟩) hsend
    refine ⟨s₁, packet, heq, ?_⟩
    rcases hp.lower hxy with hlower | hlower
    · refine .inl (.crossed hs hs₁ hlower hq hl fun r' hr' => ?_)
      exact ⟨_, mem_singleton.mp hr' ▸ hr⟩
    · refine .inr (.crossed hs₁ hs hlower hr (fun _ hr' => absurd hr' not_mem_nil) fun r' hr' => ?_)
      rcases mem_cons.mp hr' with rfl | hr'
      · exact ⟨_, hq⟩
      · exact ⟨_, (hl r' hr').1⟩
  | crossed hs hs' hlower hq hl hw =>
    obtain ⟨s₁, packet, heq, hs₁, hr, -⟩ := hs'.send_hello hp hyx (.inr rfl) hsend
    exact ⟨s₁, packet, heq, .inl (.crossed hs hs₁ hlower hq hl (hw.snoc hr))⟩
  | greeted hs hs' hl hw hlower =>
    obtain ⟨s₁, packet, heq, hs₁, hr, hn⟩ := hs'.send_key hp hyx (.inl ⟨rfl, rfl, rfl⟩) hsend
    exact ⟨s₁, packet, heq, .inl (.keyed hs hs₁ hl hw hlower hr hn fun _ hr => absurd hr not_mem_nil)⟩
  | keyed hs hs' hl hw hlower hq hn hk =>
    obtain ⟨s₁, packet, heq, hs₁, hr, hn'⟩ := hs'.send_key hp hyx (.inr ⟨rfl, rfl⟩) hsend
    refine ⟨s₁, packet, heq, .inl ?_⟩
    rw [append_assoc]
    exact .keyed hs hs₁ hl hw hlower hq hn (hk.snoc hr hn')
  | talking hs hs' hl hd hk =>
    obtain ⟨s₁, packet, heq, hs₁, hr, hn⟩ := hs'.send_key hp hyx (.inr ⟨rfl, rfl⟩) hsend
    exact ⟨s₁, packet, heq, .inl (.talking hs hs₁ hl hd (hk.snoc hr hn))⟩
  | half hs hs' hb hd hk he =>
    obtain ⟨s₁, packet, heq, hs₁, hr, hn⟩ := hs'.send_settled hp hsend
    obtain ⟨-, h4, -⟩ := hs'.stage
    rw [hC.shared_comm] at hr
    refine ⟨s₁, packet, heq, .inl ?_⟩
    rw [append_assoc]
    exact .half hs hs₁ hb hd hk (he.snoc h4 hr hn)
  | settled hs hs' hb hc hd he =>
    obtain ⟨s₁, packet, heq, hs₁, hr, hn⟩ := hs'.send_settled hp hsend
    rw [hC.shared_comm] at hr
    exact ⟨s₁, packet, heq, .inl (.settled hs hs₁ hb (le_succ_of_le hc) hd (he.snoc hc hr hn))⟩

theorem Phase.deliver (hC : C.Correct) (hp : p.Joined) {w w' w₁ : Wire C} (h : Phase p x y s s' w₁ w')
    (hw₁ : w₁ = q :: w) :
    ∃ s₁, decrypt (p.context y) now s' q.1 = .ret (.none, s₁, q.2) ∧ Phase p x y s s₁ w w' := by
  cases h with
  | fresh hs hs' => exact nomatch hw₁
  | called hs hs' hq hl =>
    cases hw₁
    obtain ⟨s₁, heq, hs₁⟩ := hs'.receive_hello hC hp (.inl rfl) hq
    exact ⟨s₁, heq, .greeted hs hs₁ hl (fun _ hr => absurd hr not_mem_nil) fun hne => absurd rfl hne⟩
  | crossed hs hs' hlower hq hl hw =>
    cases hw₁
    obtain ⟨s₁, heq, hs₁⟩ := hs'.receive_hello hC hp (.inr ⟨⟨_, rfl⟩, hlower⟩) hq
    exact ⟨s₁, heq, .greeted hs hs₁ hl hw fun _ => hlower⟩
  | greeted hs hs' hl hw hlower =>
    subst hw₁
    obtain ⟨hq, hn⟩ := hl q mem_cons_self
    obtain ⟨s₁, heq, hs₁⟩ := hs'.receive_repeatHello hC hp (.inl rfl) hq hn
    exact ⟨s₁, heq, .greeted hs hs₁ (fun r hr => hl r (mem_cons_of_mem _ hr)) hw hlower⟩
  | keyed hs hs' hl hw hlower hq hn hk =>
    subst hw₁
    obtain ⟨hr, hn'⟩ := hl q mem_cons_self
    obtain ⟨s₁, heq, hs₁⟩ := hs'.receive_repeatHello hC hp (.inr ⟨_, rfl⟩) hr hn'
    exact ⟨s₁, heq, .keyed hs hs₁ (fun r hr => hl r (mem_cons_of_mem _ hr)) hw hlower hq hn hk⟩
  | @talking t u n l d k hs hs' hl hd hk =>
    cases l with
    | cons r l =>
      -- a hello that was still on its way
      cases hw₁
      obtain ⟨hr, hn⟩ := hl q mem_cons_self
      obtain ⟨s₁, heq, hs₁⟩ := hs'.receive_repeatHello hC hp (.inr ⟨_, rfl⟩) hr hn
      exact ⟨s₁, heq, .talking hs hs₁ (fun r hr => hl r (mem_cons_of_mem _ hr)) hd hk⟩
    | nil =>
      subst hw₁
      obtain ⟨-, hlt, hq, hd⟩ := hd
      rw [← hC.shared_comm] at hq
      obtain ⟨s₁, heq, hs₁⟩ := hs'.receive_first hC hp rfl hq rfl
      rw [← append_nil w']
      exact ⟨s₁, heq, .half hs hs₁ hlt hd hk trivial⟩
  | half hs hs' hb hd hk he =>
    subst hw₁
    obtain ⟨hle, hlt, hq, hd⟩ := hd
    rw [← hC.shared_comm] at hq
    obtain ⟨s₁, heq, hs₁⟩ := hs'.receive_data hC hq hle
    exact ⟨s₁, heq, .half hs hs₁ hlt hd hk he⟩
  | settled hs hs' hb hc hd he =>
    subst hw₁
    obtain ⟨hle, hlt, hq, hd⟩ := hd
    rw [← hC.shared_comm] at hq
    obtain ⟨s₁, heq, hs₁⟩ := hs'.receive_data hC hq hle
    exact ⟨s₁, heq, .settled hs hs₁ hlt hc hd he⟩

theorem Phase.deliver_back (hC : C.Correct) (hp : p.Joined) {w w' w₁ : Wire C} (h : Phase p x y s s' w w₁)
    (hw₁ : w₁ = q :: w') (hcount : s.nextNonce < 0xfffffff0) :
    ∃ s₁, decrypt (p.context x) now s q.1 = .ret (.none, s₁, q.2) ∧ Phase p x y s₁ s' w w' := by
  cases h with
  | fresh hs hs' => exact nomatch hw₁
  | called hs hs' hq hl => exact nomatch hw₁
  | crossed hs hs' hlower hq hl hw =>
    subst hw₁
    obtain ⟨temp, hr⟩ := hw q mem_cons_self
    exact ⟨s, hs.receive_crossed hC hp hlower hr,
      .crossed hs hs' hlower hq hl fun r hr => hw r (mem_cons_of_mem _ hr)⟩
  | greeted hs hs' hl hw hlower =>
    subst hw₁
    obtain ⟨temp, hr⟩ := hw q mem_cons_self
    have hlower := hlower (cons_ne_nil _ _)
    exact ⟨s, hs.receive_crossed hC hp hlower hr,
      .greeted hs hs' hl (fun r hr => hw r (mem_cons_of_mem _ hr)) fun _ => hlower⟩
  | @keyed t u l w q' k hs hs' hl hw hlower hq hn hk =>
    cases w with
    | cons r w =>
      cases hw₁
      obtain ⟨temp, hr⟩ := hw q mem_cons_self
      have hlower := hlower (cons_ne_nil _ _)
      exact ⟨s, hs.receive_crossed hC hp hlower hr,
        .keyed hs hs' hl (fun r hr => hw r (mem_cons_of_mem _ hr)) (fun _ => hlower) hq hn hk⟩
    | nil =>
      cases hw₁
      obtain ⟨s₁, heq, hs₁⟩ := hs.receive_key hC hp (.inl ⟨rfl, hn⟩) hq hcount
      refine ⟨s₁, heq, ?_⟩
      rw [← append_nil w]
      exact .talking hs₁ hs' hl trivial hk
  | @talking t u n l d k hs hs' hl hd hk =>
    subst hw₁
    obtain ⟨hr, hn⟩ := hk q mem_cons_self
    obtain ⟨s₁, heq, hs₁⟩ := hs.receive_key hC hp (.inr ⟨⟨n, rfl⟩, hn⟩) hr hcount
    refine ⟨s₁, heq, .talking hs₁ hs' hl (hd.mono ?_) fun r hr => hk r (mem_cons_of_mem _ hr)⟩
    split
    · exact le_trans ‹_› (le_refl 4)
    · exact le_succ n
  | @half t u n m b d k e hs hs' hb hd hk he =>
    cases k with
    | cons r k =>
      cases hw₁
      obtain ⟨hr, hn⟩ := hk q mem_cons_self
      obtain ⟨s₁, heq, hs₁⟩ := hs.receive_key hC hp (.inr ⟨⟨n, rfl⟩, hn⟩) hr hcount
      have hle : n ≤ if n ≤ 4 then 4 else n + 1 := by
        split
        · assumption
        · exact le_succ n
      exact ⟨s₁, heq, .half hs₁ hs' (le_trans hb hle) (hd.mono hle)
        (fun r hr => hk r (mem_cons_of_mem _ hr)) he⟩
    | nil =>
      subst hw₁
      obtain ⟨-, hlt, hq, he⟩ := he
      obtain ⟨s₁, heq, hs₁⟩ := hs.receive_first hC hp rfl hq rfl
      obtain ⟨hn, -⟩ := hs.stage
      simp only [Stage.establish, show n + 3 < 2 ^ 32 by omega] at hs₁
      exact ⟨s₁, heq, .settled hs₁ hs' (by omega) hlt (hd.mono (by omega)) he⟩
  | settled hs hs' hb hc hd he =>
    subst hw₁
    obtain ⟨hle, hlt, hq, he⟩ := he
    obtain ⟨s₁, heq, hs₁⟩ := hs.receive_data hC hq hle
    exact ⟨s₁, heq, .settled hs₁ hs' hb hlt hd he⟩

/-! ## Whole runs -/

/-- The two sessions, what each end has sent that has not arrived, and what each call of `CryptoAuth_decrypt` has
answered. -/
structure Link (C : Crypto) where
  session : Bool → Session C
  wire : Bool → Wire C
  received : Bool → List (DecryptErr × List UInt8)

/-- What can happen: an end sends a message, or the oldest packet on its way to an end arrives. -/
inductive Op where
  | send (x : Bool) (now : Nat) (draw : Draw) (msg : List UInt8)
  | deliver (y : Bool) (now : Nat)

/-- The queue's move that an operation should be. -/
def Op.move : Op → Fifo.Move (List UInt8)
  | .send x _ _ msg => .send x msg
  | .deliver y _ => .take y

namespace Link

/-- Nothing was sent yet. -/
def start (p : Pair C) : Link C := { session := p.fresh, wire := fun _ => [], received := fun _ => [] }

/-- One operation. -/
def step (p : Pair C) (l : Link C) : Op → Er (Link C)
  | .send x now draw msg => do
    let (s, packet) ← encrypt (p.context x) now draw (l.session x) msg
    .ret { l with
      session := Function.update l.session x s
      wire := Function.update l.wire x (l.wire x ++ [(packet, msg)]) }
  | .deliver y now =>
    match l.wire (!y) with
    | [] => .ret l
    | (packet, _) :: rest => do
      let (err, s, content) ← decrypt (p.context y) now (l.session y) packet
      .ret {
        session := Function.update l.session y s
        wire := Function.update l.wire (!y) rest
        received := Function.update l.received y (l.received y ++ [(err, content)]) }

variable {l : Link C}

theorem step_send {x} {packet}
    (h : encrypt (p.context x) now draw (l.session x) msg = .ret (s, packet)) :
    l.step p (.send x now draw msg) = .ret { l with
      session := Function.update l.session x s
      wire := Function.update l.wire x (l.wire x ++ [(packet, msg)]) } := by
  simp [step, h]

theorem step_deliver_nil {y} (hwire : l.wire (!y) = []) :
    l.step p (.deliver y now) = .ret l := by
  simp [step, hwire]

theorem step_deliver_cons {y} {rest : Wire C} {err} {content}
    (hwire : l.wire (!y) = q :: rest) (h : decrypt (p.context y) now (l.session y) q.1 = .ret (err, s, content)) :
    l.step p (.deliver y now) = .ret {
      session := Function.update l.session y s
      wire := Function.update l.wire (!y) rest
      received := Function.update l.received y (l.received y ++ [(err, content)]) } := by
  simp [step, hwire, h]

/-- One operation after the other. -/
def run (p : Pair C) (l : Link C) : List Op → Er (Link C)
  | [] => .ret l
  | op :: ops => do
    let l ← l.step p op
    l.run p ops

/-- No timeout, no counter at its end, messages that are not empty, and random bytes that make a key. -/
def Allows (l : Link C) : Op → Prop
  | .send x now draw msg => Sendable (l.session x) now draw msg
  | .deliver y _ => (l.session y).nextNonce < 0xfffffff0

/-- Every operation is one that is allowed when its turn comes. -/
def Schedule (p : Pair C) (l : Link C) : List Op → Prop
  | [] => True
  | op :: ops => l.Allows op ∧ ∀ l', l.step p op = .ret l' → l'.Schedule p ops

/-- The queues the link is. -/
def queues (l : Link C) : Fifo.Queues (List UInt8) :=
  { queue := fun x => (l.wire x).map Prod.snd, out := fun y => (l.received y).map Prod.snd }

/-- The ends are in a phase, and all packets so far were accepted. -/
structure Good (p : Pair C) (l : Link C) : Prop where
  phase : p.Together true false (l.session true) (l.session false) (l.wire true) (l.wire false)
  accepted : ∀ y, ∀ r ∈ l.received y, r.1 = .none

theorem Good.together (h : l.Good p) (x : Bool) :
    p.Together x (!x) (l.session x) (l.session !x) (l.wire x) (l.wire !x) := by
  cases x with
  | true => exact h.phase
  | false => exact h.phase.symm

theorem good_of_together {x} (h : p.Together x (!x) (l.session x) (l.session !x) (l.wire x) (l.wire !x))
    (haccepted : ∀ y, ∀ r ∈ l.received y, r.1 = .none) : l.Good p := by
  cases x with
  | true => exact ⟨h, haccepted⟩
  | false => exact ⟨h.symm, haccepted⟩

/-- Whoever sends: the call returns, and the ends stay together. -/
theorem together_send (hC : C.Correct) (hp : p.Joined) (hxy : x ≠ y) (h : p.Together x y s s' w w')
    (hsend : Sendable s now draw msg) :
    ∃ s₁ packet, encrypt (p.context x) now draw s msg = .ret (s₁, packet) ∧
      p.Together x y s₁ s' (w ++ [(packet, msg)]) w' := by
  rcases h with h | h
  · obtain ⟨s₁, packet, heq, hphase⟩ := h.send hp hxy hsend
    exact ⟨s₁, packet, heq, .inl hphase⟩
  · obtain ⟨s₁, packet, heq, htogether⟩ := h.send_back hC hp hxy.symm hsend
    exact ⟨s₁, packet, heq, htogether.symm⟩

/-- Whoever a packet comes to: it is accepted with what was sent, and the ends stay together. -/
theorem together_deliver (hC : C.Correct) (hp : p.Joined) (h : p.Together y x s s' w (q :: w'))
    (hcount : s.nextNonce < 0xfffffff0) :
    ∃ s₁, decrypt (p.context y) now s q.1 = .ret (.none, s₁, q.2) ∧ p.Together y x s₁ s' w w' := by
  rcases h with h | h
  · obtain ⟨s₁, heq, hphase⟩ := h.deliver_back hC hp rfl hcount
    exact ⟨s₁, heq, .inl hphase⟩
  · obtain ⟨s₁, heq, hphase⟩ := h.deliver hC hp rfl
    exact ⟨s₁, heq, .inr hphase⟩

/-- An operation returns, keeps the link good, and is the move of the queues that it should be. -/
theorem Good.step (hC : C.Correct) (hp : p.Joined) {op} (h : l.Good p) (hop : l.Allows op) :
    ∃ l', l.step p op = .ret l' ∧ l'.Good p ∧ l'.queues = l.queues.step op.move := by
  cases op with
  | send x now draw msg =>
    obtain ⟨s₁, packet, heq, htogether⟩ := together_send hC hp (Bool.not_ne_self x).symm (h.together x) hop
    refine ⟨_, step_send heq, @good_of_together _ _ _ x ?_ h.accepted, ?_⟩
    · simpa [update_of_ne (Bool.not_ne_self x)] using htogether
    · unfold queues Op.move Fifo.Queues.step
      congr 1
      funext y
      by_cases hy : y = x
      · subst hy
        simp
      · simp [update_of_ne hy]
  | deliver y now =>
    have htogether := h.together y
    cases hwire : l.wire (!y) with
    | nil =>
      refine ⟨l, step_deliver_nil hwire, h, ?_⟩
      simp [Op.move, Fifo.Queues.step, queues, hwire]
    | cons q rest =>
      rw [hwire] at htogether
      obtain ⟨s₁, heq, htogether⟩ := @together_deliver C p _ y _ _ _ _ now q hC hp htogether hop
      refine ⟨_, step_deliver_cons hwire heq, @good_of_together _ _ _ y ?_ ?_, ?_⟩
      · simpa [update_of_ne (Bool.not_ne_self y).symm]
          using htogether
      · intro z r hr
        dsimp only at hr
        by_cases hz : z = y
        · subst hz
          rw [update_self] at hr
          rcases mem_append.mp hr with hr | hr
          · exact h.accepted z r hr
          · rw [mem_singleton.mp hr]
        · rw [update_of_ne hz] at hr
          exact h.accepted z r hr
      · simp only [Op.move, Fifo.Queues.step, queues, hwire]
        congr 1
        · funext z
          by_cases hz : z = !y
          · subst hz
            simp
          · simp [update_of_ne hz]
        · funext z
          by_cases hz : z = y
          · subst hz
            simp
          · simp [update_of_ne hz]

theorem Good.run (hC : C.Correct) (hp : p.Joined) {ops} (h : l.Good p) (hops : l.Schedule p ops) :
    ∃ l', l.run p ops = .ret l' ∧ l'.Good p ∧ l'.queues = l.queues.run (ops.map Op.move) := by
  induction ops generalizing l with
  | nil => exact ⟨l, rfl, h, rfl⟩
  | cons op ops ih =>
    obtain ⟨l₁, hstep, hgood, hqueues⟩ := h.step hC hp hops.1
    obtain ⟨l₂, hrun, hgood₂, hqueues₂⟩ := ih hgood (hops.2 l₁ hstep)
    exact ⟨l₂, by rw [Link.run, hstep, Er.ret_bind, hrun], hgood₂,
      by rw [hqueues₂, hqueues, map_cons, Fifo.Queues.run]⟩

theorem start_good (p : Pair C) : (start p).Good p := by
  have hstanding : ∀ {x y}, x ≠ y → p.Standing x y (p.fresh x) .idle 0 := by
    intro x y hxy
    refine ⟨fresh_own hxy, ?_, ?_, fun t ht => nomatch ht⟩
    · rw [fresh_eq]
      exact ⟨rfl, rfl, rfl, rfl, rfl⟩
    · rw [fresh_eq]
      exact fun m _ => not_seen_zero m
  exact ⟨.inl (.fresh (hstanding (by decide)) (hstanding (by decide))), fun _ r hr => absurd hr not_mem_nil⟩

/-- The sessions and the channels are two queues. Every call of a run returns, every packet that arrives is
accepted, and at each end what the other passed in comes out, in order, followed by what is still on its way. -/
theorem channel_refines (C : Crypto) (hC : C.Correct) (p : Pair C) (hp : p.Joined) (ops : List Op)
    (hops : (start p).Schedule p ops) :
    ∃ l, (start p).run p ops = .ret l ∧ ∀ x, (∀ r ∈ l.received (!x), r.1 = .none) ∧
      Fifo.sentBy x (ops.map Op.move) = (l.received !x).map Prod.snd ++ (l.wire x).map Prod.snd := by
  obtain ⟨l, hrun, hgood, hqueues⟩ := (start_good p).run hC hp hops
  refine ⟨l, hrun, fun x => ⟨hgood.accepted _, ?_⟩⟩
  have hconserves := Fifo.run_conserves (start p).queues (ops.map Op.move) x
  rw [← hqueues] at hconserves
  exact hconserves.symm

theorem schedule_cons {l l' : Link C} {op} {ops} (hop : l.Allows op) (hstep : l.step p op = .ret l')
    (hops : l'.Schedule p ops) : l.Schedule p (op :: ops) :=
  ⟨hop, fun _ h => Er.ret.inj (hstep.symm.trans h) ▸ hops⟩

/-- Two ends without passwords. -/
def strangers : Pair Symbolic.crypto where
  priv x := Symbolic.key (if x then 2 else 1)
  users _ := []
  credentials _ := none
  requireAuth _ := false
  start _ := 0

theorem strangers_joined : strangers.Joined where
  distinct {x y} hxy := by
    revert x y
    decide
  key x := by
    revert x
    decide
  known _ := rfl

/-- Both say hello at once, and the hellos cross. -/
def crossing : List Op :=
  [.send false 0 (Symbolic.draw 3) [7], .send true 0 (Symbolic.draw 4) [8], .deliver true 0, .deliver false 0]

theorem crossing_schedule : (start strangers).Schedule strangers crossing := by
  refine schedule_cons ⟨by decide, rfl, by decide, by decide⟩ rfl ?_
  refine schedule_cons ⟨by decide, rfl, by decide, by decide⟩ rfl ?_
  refine schedule_cons (show _ < _ by decide) rfl ?_
  exact schedule_cons (show _ < _ by decide) rfl trivial

/-- What crossed has arrived. -/
theorem channel_refines_crossing :
    ∃ l, (start strangers).run strangers crossing = .ret l ∧ ∀ x, (∀ r ∈ l.received (!x), r.1 = .none) ∧
      Fifo.sentBy x (crossing.map Op.move) = (l.received !x).map Prod.snd ++ (l.wire x).map Prod.snd :=
  channel_refines Symbolic.crypto Symbolic.correct strangers strangers_joined crossing crossing_schedule

end Link

end Pair

end Hyperboria.CryptoAuth
