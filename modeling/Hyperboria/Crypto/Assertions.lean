/-
The assertions of `CryptoAuth.c` hold. A session is created with the key of a peer and
then made to send, to take in packets of any kind, to change its password, to reset
and to time out, fewer than 2^31 times in all. Whatever the packets are, no assertion
about the state of the session fails (`acts_never_fail`).

Two of the checks that only a build with `PARANOIA` makes are about luck and not about
the state: that the random generator has not drawn the key zero, and that no secret
comes out as zero. They are the only ones that can end a run, and only in that case.
-/
import Hyperboria.Crypto.Equations
import Hyperboria.Crypto.Symbolic

namespace Hyperboria.CryptoAuth

open Er Nat List

/-- What `CryptoAuth.h` offers to do with a session. -/
inductive Act (C : Crypto) where
  | encrypt (nowSecs : Nat) (draw : Draw) (msg : List UInt8) (hmsg : msg ≠ [])
  | decrypt (nowSecs : Nat) (msg : Packet C)
  | setAuth (password login : Option (List UInt8))
  | reset
  | resetIfTimeout (nowSecs : Nat)

section
variable {C : Crypto}

/-- One call. -/
def act (ca : Context) (s : Session C) : Act C → Er (Session C)
  | .encrypt nowSecs draw msg _ => do
    let (s, _) ← encrypt ca nowSecs draw s msg
    .ret s
  | .decrypt nowSecs msg => do
    let (_, s, _) ← decrypt ca nowSecs s msg
    .ret s
  | .setAuth password login => .ret (setAuth password login s)
  | .reset => .ret (reset s)
  | .resetIfTimeout nowSecs => resetIfTimeout nowSecs s

/-- One call after the other. -/
def acts (ca : Context) : List (Act C) → Session C → Er (Session C)
  | [], s => .ret s
  | a :: list, s => do
    let s ← act ca s a
    acts ca list s

/-- The random key of a call. -/
def Act.drawn : Act C → Option Key
  | .encrypt _ draw _ _ => some draw.tempPrivKey
  | _ => none

/-- The two assertions that bad luck can fail. -/
def Unlucky (C : Crypto) (list : List (Act C)) (message : String) : Prop :=
  (message = "!Bits_isZero(session->ourTempPrivKey, 32)" ∧ ∃ a ∈ list, a.drawn = some .zero) ∨
    (message = "!Bits_isZero(session->sharedSecret, 32)" ∧ ∃ p x, C.getSharedSecret p x none = C.zeroSecret)

/-! ## Stages that the counter has not left -/

namespace Stage

/-- The counter of the stage is at most `bound`, or 3 more once the session is established. -/
def Within (bound : Nat) : Stage → Prop
  | talking _ _ n => n ≤ bound
  | settled _ _ _ n => n ≤ bound + 3
  | late _ _ _ _ => False
  | _ => True

/-- Our temporary key. -/
def ours : Stage → Option Key
  | helloed x => some x
  | keyed k _ => some k
  | talking x _ _ => some x
  | settled _ t _ _ => some t
  | _ => none

theorem Within.mono {st : Stage} {bound bound'} (h : st.Within bound) (hle : bound ≤ bound') :
    st.Within bound' := by
  cases st with
  | talking x k n => exact le_trans h hle
  | settled b t h' n => exact Nat.le_trans h (Nat.add_le_add_right hle 3)
  | late t h' k n => exact h
  | _ => trivial

end Stage

variable {a H : Key} {draw : Draw} {msg : List UInt8} {st st' : Stage} {bound : Nat}

theorem Sends.within {hash} {n} {letter} (h : Sends C a H draw hash msg st n letter st')
    (hst : st.Within bound) :
    st'.Within (bound + 1) := by
  cases h with
  | talk x k n h4 hn => exact succ_le_succ hst
  | data b t h n h4 hn =>
    have hn : n ≤ bound + 3 := hst
    show n + 1 ≤ bound + 1 + 3
    omega
  | lateKey t h k => exact hst
  | lateRepeat t h k => exact hst
  | _ => trivial

theorem Sends.ours {hash} {n} {letter} (h : Sends C a H draw hash msg st n letter st')
    (t : Key) (ht : st'.ours = some t) :
    st.ours = some t ∨ t = draw.tempPrivKey := by
  cases h with
  | hello | key y => exact .inr (Option.some.inj ht).symm
  | lateKey t h k => exact nomatch ht
  | lateRepeat t h k => exact nomatch ht
  | _ => exact .inl ht

variable {packet : Packet C} {err : DecryptErr}

theorem Receives.within {w w'} (h : Receives C a H packet st w err st' w') (h4 : 4 ≤ bound)
    (hbound : bound + 3 < 2 ^ 32) (hst : st.Within bound) :
    st'.Within (bound + 1) ∧ ∀ t, st'.ours = some t → st.ours = some t := by
  have hsame : st.Within (bound + 1) ∧ ∀ t, st.ours = some t → st.ours = some t :=
    ⟨hst.mono (le_succ _), fun _ ht => ht⟩
  cases h with
  | greet hopen hz hnonce => exact ⟨trivial, fun t ht => nomatch ht⟩
  | key hst' hopen hz hnonce =>
    cases st with
    | helloed x => exact ⟨show 4 ≤ bound + 1 by omega, fun t ht => ht⟩
    | talking x k n =>
      refine ⟨?_, fun t ht => ht⟩
      have hn : n ≤ bound := hst
      show (if n ≤ 4 then 4 else n + 1) ≤ bound + 1
      split
      · omega
      · omega
    | _ => exact hsame
  | establish hst' hnonce hopen hw =>
    cases st with
    | keyed k y => exact ⟨show 6 ≤ bound + 1 + 3 by omega, fun t ht => ht⟩
    | talking x k n =>
      have hn : n ≤ bound := hst
      simp only [Stage.establish, show n + 3 < 2 ^ 32 by omega]
      exact ⟨show n + 3 ≤ bound + 1 + 3 by omega, fun t ht => ht⟩
    | _ => exact hsame
  | _ => exact hsame

variable {s : Session C}

/-- What a stage within its bound says of the session: the temporary keys fit the state, and the counter
does not wrap. -/
theorem At.facts (hs : At s st) (hst : st.Within bound) (h4 : 4 ≤ bound) :
    (s.nextNonce < 2 ↔ s.herTempPubKey = .zero) ∧ s.nextNonce ≤ bound + 3 ∧
      (3 ≤ s.nextNonce → st.ours = some s.ourTempPrivKey) := by
  cases st with
  | idle =>
    obtain ⟨h0, -, -, hz, -⟩ := hs
    exact ⟨iff_of_true (by omega) hz, by omega, by omega⟩
  | helloed x =>
    obtain ⟨h1, -, -, -, -, hz, -⟩ := hs
    exact ⟨iff_of_true (by omega) hz, by omega, by omega⟩
  | greeted y =>
    obtain ⟨h2, -, -, rfl, hz, -⟩ := hs
    exact ⟨iff_of_false (by omega) hz, by omega, by omega⟩
  | keyed k y =>
    obtain ⟨h3, -, -, rfl, -, rfl, hz, -⟩ := hs
    exact ⟨iff_of_false (by omega) hz, by omega, fun _ => rfl⟩
  | talking x k n =>
    obtain ⟨rfl, hn, -, -, -, rfl, -, rfl, hz, -⟩ := hs
    have hle : s.nextNonce ≤ bound := hst
    exact ⟨iff_of_false (by omega) hz, by omega, fun _ => rfl⟩
  | settled b t h n =>
    obtain ⟨rfl, hn, -, -, -, rfl, -, rfl, hz, -⟩ := hs
    exact ⟨iff_of_false (by omega) hz, hst, fun _ => rfl⟩
  | late t h k n => exact hst.elim

/-! ## What a call leaves of the password -/

/-- The password, the login and how they are hashed fit together. -/
def Hashable (s : Session C) : Prop :=
  ∀ password, s.password = some password → s.authType = 1 ∨ s.authType = 2 ∧ s.login.isSome = true

/-- The session has the password of the other one. -/
def SameAuth (s s' : Session C) : Prop :=
  s'.password = s.password ∧ s'.login = s.login ∧ s'.authType = s.authType

theorem SameAuth.refl (s : Session C) : SameAuth s s := ⟨rfl, rfl, rfl⟩

variable {s' : Session C}

theorem SameAuth.hashable (h : SameAuth s s') (hs : Hashable s) : Hashable s' := by
  intro password hp
  rw [h.1] at hp
  rw [h.2.1, h.2.2]
  exact hs password hp

theorem passwordAuth_returns {draw} {s : Session C} (h : Hashable s) : (passwordAuth draw s).Returns := by
  unfold passwordAuth
  split
  next password hp =>
    rcases h password hp with h1 | ⟨h2, hlogin⟩
    · rw [h1]
      exact returns_ret _
    · obtain ⟨login, hlogin⟩ := Option.isSome_iff_exists.mp hlogin
      rw [h2, hlogin]
      exact returns_ret _
  next => exact returns_ret _

theorem setAuth_hashable {password login} {s : Session C} (h : Hashable s) :
    Hashable (setAuth password login s) := by
  unfold setAuth
  split
  · intro p hp
    exact nomatch hp
  split
  · split
    · exact fun _ _ => .inr ⟨rfl, rfl⟩
    · exact fun _ _ => .inl rfl
  · exact h

variable {ca : Context} {now : Nat}

theorem decrypt_sameAuth {content} (h : decrypt ca now s packet = .ret (err, s', content)) :
    SameAuth s s' := by
  obtain ⟨-, -, hs⟩ | ⟨-, -, context, rfl⟩ | ⟨-, -, -, -, rfl⟩ | ⟨-, -, -, ⟨-, rfl⟩ | ⟨-, rfl⟩⟩ | ⟨-, -, hshake⟩ :=
    decrypt_cases h
  · exact hs ▸ .refl s
  · exact .refl s
  · exact .refl s
  · exact .refl s
  · exact .refl s
  obtain ⟨-, hs, -⟩ | ⟨hkey, -, plain, -, hshake⟩ := decryptHandshake_cases hshake
  · exact hs ▸ .refl s
  obtain ⟨hs, -⟩ | ⟨-, -, ⟨-, -, rfl⟩ | ⟨-, -, -, rfl⟩ | ⟨-, -, -, -, -, rfl⟩⟩ := shakeHands_cases hkey hshake
  · exact hs ▸ .refl s
  · unfold greet
    split
    · exact .refl s
    · exact .refl s
  · exact .refl s
  · exact .refl s

theorem encryptHandshake_sameAuth (h : encryptHandshake ca draw s msg = .ret (s', packet)) : SameAuth s s' := by
  obtain ⟨hash, secret, hsec, -⟩ := encryptHandshake_cases h
  have htemp : SameAuth s (withTempKeys draw s) := by
    unfold withTempKeys
    split
    · exact .refl s
    · exact .refl s
  obtain ⟨-, -, rfl⟩ | ⟨-, -, rfl⟩ := handshakeSecret_cases hsec
  · exact htemp
  · exact htemp

theorem resetIfTimeout_eq {now} {s : Session C} (hkey : knowHerKey s = true) :
    resetIfTimeout now s = .ret s ∨ resetIfTimeout now s = .ret (reset { s with timeOfLastPacket := uint32 now }) := by
  unfold resetIfTimeout
  split
  · exact .inl rfl
  dsimp only
  split
  · exact .inl rfl
  split
  · exact .inl rfl
  · rw [cryptoAuthDebug_eq hkey]
    exact .inr rfl

theorem encrypt_hashable (hkey : knowHerKey s = true) (hs : Hashable s)
    (h : encrypt ca now draw s msg = .ret (s', packet)) : Hashable s' := by
  simp only [encrypt, bind_eq_ret] at h
  obtain ⟨s₁, htime, h⟩ := h
  have hs₁ : Hashable s₁ := by
    rcases @resetIfTimeout_eq C now s hkey with heq | heq
    · exact ret.inj (heq.symm.trans htime) ▸ hs
    · exact ret.inj (heq.symm.trans htime) ▸ hs
  generalize hs₂ : (if s₁.nextNonce ≥ 0xfffffff0 then reset s₁ else s₁) = s₂ at h
  have hs₂' : Hashable s₂ := by
    split at hs₂
    · exact hs₂ ▸ hs₁
    · exact hs₂ ▸ hs₁
  split at h
  · exact (encryptHandshake_sameAuth h).hashable hs₂'
  · simp only [bind_eq_ret] at h
    obtain ⟨s₃, hfinal, _, _, h⟩ := h
    cases h
    obtain rfl := finalStep_cases hfinal
    exact hs₂'

/-! ## The assertions -/

/-- The session is one that no assertion about its state fails on, after the calls `past`. -/
structure Sound (past : List (Act C)) (s : Session C) : Prop where
  known : knowHerKey s = true
  auth : Hashable s
  stage : ∃ st, At s st ∧ st.Within (past.length + 4) ∧ ∀ t, st.ours = some t → ∃ a ∈ past, a.drawn = some t

/-- Why a call may end the process. -/
def Excused (s : Session C) (message : String) : Prop :=
  (message = "!Bits_isZero(session->ourTempPrivKey, 32)" ∧ 3 ≤ s.nextNonce ∧ s.ourTempPrivKey = .zero) ∨
    (message = "!Bits_isZero(session->sharedSecret, 32)" ∧ s.established = true ∧ s.sharedSecret = C.zeroSecret)

theorem finalStep_abortsOnly (hkey : knowHerKey s = true) (hstate : s.nextNonce < 2 ↔ s.herTempPubKey = .zero) :
    (finalStep s).AbortsOnly (Excused s) := by
  unfold finalStep
  split
  next h4 =>
    rw [cryptoAuthDebug_eq hkey]
    refine (Er.AbortsOnly.assertTrue fun hour => ?_).bind fun _ _ => ?_
    · exact .inl ⟨rfl, by omega, by simpa using hour⟩
    · have hher : s.herTempPubKey ≠ .zero := fun h => by have := hstate.mpr h; omega
      rw [assertTrue_bind (by simpa using hher)]
      exact .ret _
  next => exact .ret _

theorem encrypt_abortsOnly (hkey : knowHerKey s = true) (hauth : Hashable s)
    (hstate : s.nextNonce < 2 ↔ s.herTempPubKey = .zero) (hcount : s.nextNonce < 0xfffffff0) (hmsg : msg ≠ []) :
    (encrypt ca now draw s msg).AbortsOnly (Excused s) := by
  -- the hello of a session that was reset, and the handshake packets
  have hshake : ∀ s' : Session C, knowHerKey s' = true → Hashable s' →
      (s'.nextNonce < 2 ↔ s'.herTempPubKey = .zero) → s'.nextNonce < 4 →
      (encryptHandshake ca draw s' msg).AbortsOnly (Excused s) := by
    intro s' hkey' hauth' hstate' hn
    obtain ⟨⟨hash, auth⟩, hpass⟩ := @passwordAuth_returns C draw s' hauth'
    rw [encryptHandshake_eq hkey' hpass hstate' hn]
    exact .ret _
  unfold encrypt
  rcases @resetIfTimeout_eq C now s hkey with htime | htime
  · rw [htime, ret_bind]
    simp only [show ¬ s.nextNonce ≥ 0xfffffff0 by omega, if_false]
    split
    next hn => exact hshake s hkey hauth hstate hn
    next hn =>
      refine (finalStep_abortsOnly hkey hstate).bind fun s' _ => ?_
      rw [assertTrue_bind (decide_eq_true (length_pos_iff.mpr hmsg))]
      exact .ret _
  · rw [htime]
    exact hshake _ hkey hauth (iff_of_true Nat.zero_lt_two rfl) (Nat.zero_lt_succ 3)

theorem decryptHandshake_abortsOnly (hkey : knowHerKey s = true) (hstate : s.nextNonce < 2 ↔ s.herTempPubKey = .zero)
    (hcount : s.nextNonce + 1 < 2 ^ 32) (hnonce : packet.nonce < 4) (hest : 2 ≤ packet.nonce → s.established = false) :
    (decryptHandshake ca s packet.nonce packet).AbortsOnly (Excused s) := by
  by_cases hn : packet.nonce < 2
  · exact .inl (decryptHandshake_hello hkey hstate hn)
  by_cases hopens : ∃ plain, Opens ca s packet plain
  · obtain ⟨plain, hopens⟩ := hopens
    rw [decryptHandshake_of_opens hkey hstate hopens]
    by_cases hz : Key.ofBytes plain = .zero
    · rw [shakeHands_wiseguy hkey hz]
      exact .ret _
    have hher : 4 ≤ s.nextNonce → s.herTempPubKey ≠ .zero := fun h4 h => by have := hstate.mpr h; omega
    by_cases hour : packet.nonce = 2 ∧ 4 < s.nextNonce ∧ s.ourTempPrivKey = .zero
    · obtain ⟨h2, h5, hour⟩ := hour
      rw [h2, shakeHands_key_zero hkey hz (hest (by omega)) hher h5 hour]
      split
      · exact .ret _
      · exact .inr ⟨_, rfl, .inl ⟨rfl, by omega, hour⟩⟩
    · rw [shakeHands_key hkey (by omega) hz (hest (by omega)) hher hcount fun h2 h5 h => hour ⟨h2, h5, h⟩]
      exact .ret _
  · obtain ⟨err, -, hret⟩ := decryptHandshake_of_not_opens hkey hstate (not_exists.mp hopens)
    rw [hret]
    exact .ret _

theorem decryptMessage_herPublicKey {nonce} {content} {secret} {plain}
    (h : decryptMessage s nonce content secret = .ret (err, s', plain)) :
    s'.herPublicKey = s.herPublicKey := by
  obtain ⟨-, rfl⟩ | ⟨-, -, rfl⟩ := decryptMessage_cases h
  · rfl
  · rfl

theorem decrypt_abortsOnly (hkey : knowHerKey s = true) (hstate : s.nextNonce < 2 ↔ s.herTempPubKey = .zero)
    (hcount : s.nextNonce + 1 < 2 ^ 32) :
    (decrypt ca now s packet).AbortsOnly (Excused s) := by
  have hdebug := cryptoAuthDebug_eq hkey
  unfold decrypt
  split
  · rw [hdebug]
    exact .ret _
  dsimp only
  split
  next hest =>
    have hest : s.established = false := by simpa using hest
    split
    next hnonce =>
      split
      · rw [hdebug]
        exact .ret _
      next hnext =>
        have hher : s.herTempPubKey ≠ .zero := fun h => by have := hstate.mpr h; omega
        rw [hdebug]
        refine (Er.AbortsOnly.assertTrue fun hour => .inl ⟨rfl, by omega, by simpa using hour⟩).bind fun _ _ => ?_
        rw [assertTrue_bind (by simpa using hher)]
        obtain ⟨⟨ret, s', content⟩, hm⟩ := @decryptMessage_returns C s
          (C.getSharedSecret s.ourTempPrivKey s.herTempPubKey none) packet.nonce packet hkey
        have hher' := decryptMessage_herPublicKey hm
        rw [hm, ret_bind]
        split
        · rw [cryptoAuthDebug_bind hkey (by exact hher')]
          exact .ret _
        · rw [cryptoAuthDebug_bind hkey (by exact hher')]
          exact .ret _
    next hnonce => exact decryptHandshake_abortsOnly hkey hstate hcount (by omega) fun _ => hest
  next hest =>
    have hest : s.established = true := by simpa using hest
    split
    next hnonce =>
      refine (Er.AbortsOnly.assertTrue fun hz => .inr ⟨rfl, hest, by simpa using hz⟩).bind fun _ _ => ?_
      obtain ⟨⟨ret, s', content⟩, hm⟩ := @decryptMessage_returns C s s.sharedSecret packet.nonce packet hkey
      have hher' := decryptMessage_herPublicKey hm
      rw [hm, ret_bind]
      split
      · exact .ret _
      · rw [cryptoAuthDebug_bind hkey hher']
        exact .ret _
    next hnonce =>
      split
      · rw [hdebug]
        exact decryptHandshake_abortsOnly hkey hstate hcount (by omega) (by omega)
      · rw [hdebug]
        exact .ret _

variable {past : List (Act C)}

/-! ## Whole runs -/

theorem Sound.facts (h : Sound past s) :
    (s.nextNonce < 2 ↔ s.herTempPubKey = .zero) ∧ s.nextNonce ≤ past.length + 7 := by
  obtain ⟨st, hs, hst, -⟩ := h.stage
  obtain ⟨hstate, hcount, -⟩ := hs.facts hst (le_add_left _ _)
  exact ⟨hstate, hcount⟩

/-- An excuse for one call is bad luck of the whole run. -/
theorem Sound.unlucky {list} (h : Sound past s) (hsub : ∀ a ∈ past, a ∈ list) {message}
    (hexcused : Excused s message) : Unlucky C list message := by
  obtain ⟨st, hs, hst, hdrawn⟩ := h.stage
  rcases hexcused with ⟨htext, hn, hz⟩ | ⟨htext, hest, hz⟩
  · obtain ⟨-, -, hours⟩ := hs.facts hst (le_add_left _ _)
    obtain ⟨a, ha, hkey⟩ := hdrawn _ (hours hn)
    exact .inl ⟨htext, a, hsub a ha, by rw [hkey, hz]⟩
  · obtain ⟨t, k, -, hsecret⟩ := running_of_established hs hest
    exact .inr ⟨htext, t, k, hsecret.symm.trans hz⟩

theorem Sound.of_reset {a} (hkey : knowHerKey s = true) (hauth : Hashable s) :
    Sound (a :: past) (reset s) where
  known := hkey
  auth := hauth
  stage := ⟨.idle, at_reset s, trivial, fun _ ht => nomatch ht⟩

theorem Sound.weaken {a} (h : Sound past s) : Sound (a :: past) s := by
  obtain ⟨st, hs, hst, hdrawn⟩ := h.stage
  refine ⟨h.known, h.auth, st, hs, hst.mono (by simp), fun t ht => ?_⟩
  obtain ⟨a', ha', hkey⟩ := hdrawn t ht
  exact ⟨a', mem_cons_of_mem _ ha', hkey⟩

theorem Sound.act {a} (h : Sound past s) (hlen : past.length < 2 ^ 31) (hret : act ca s a = .ret s') :
    Sound (a :: past) s' := by
  obtain ⟨st, hs, hst, hdrawn⟩ := h.stage
  have hold : ∀ t, st.ours = some t → ∃ a' ∈ a :: past, a'.drawn = some t := fun t ht =>
    (hdrawn t ht).imp fun a' ha' => ⟨mem_cons_of_mem _ ha'.1, ha'.2⟩
  cases a with
  | encrypt now draw msg hmsg =>
    simp only [CryptoAuth.act, bind_eq_ret, ret.injEq] at hret
    obtain ⟨⟨s₁, packet⟩, hret, rfl⟩ := hret
    obtain ⟨hher, st₀, n, st', hash, letter, hst₀, -, hsends, hs', -⟩ := encrypt_sends hs hret
    have hwithin : st₀.Within (past.length + 4) ∧ ∀ t, st₀.ours = some t → st.ours = some t := by
      rcases hst₀ with ⟨rfl, -⟩ | ⟨rfl, -⟩
      · exact ⟨hst, fun t ht => ht⟩
      · exact ⟨trivial, fun t ht => nomatch ht⟩
    refine ⟨by rw [knowHerKey, hher]; exact h.known, encrypt_hashable h.known h.auth hret, st', hs',
      hsends.within hwithin.1, fun t ht => ?_⟩
    rcases hsends.ours t ht with ht | rfl
    · exact hold t (hwithin.2 t ht)
    · exact ⟨_, mem_cons_self, rfl⟩
  | decrypt now packet =>
    simp only [CryptoAuth.act, bind_eq_ret, ret.injEq] at hret
    obtain ⟨⟨err, s₁, content⟩, hret, rfl⟩ := hret
    obtain ⟨hher, st', hs', hreceives⟩ := decrypt_receives hs hret
    obtain ⟨hst', hours⟩ := hreceives.within (le_add_left _ _) (by omega) hst
    exact ⟨by rw [knowHerKey, hher]; exact h.known, (decrypt_sameAuth hret).hashable h.auth, st', hs', hst',
      fun t ht => hold t (hours t ht)⟩
  | setAuth password login =>
    cases hret
    rcases setAuth_resets password login s with heq | ⟨s₀, hher, heq⟩
    · rw [heq]
      exact h.weaken
    · have hauth := @setAuth_hashable C password login s h.auth
      rw [heq] at hauth ⊢
      exact .of_reset (by rw [knowHerKey, hher]; exact h.known) hauth
  | reset =>
    cases hret
    exact .of_reset h.known h.auth
  | resetIfTimeout now =>
    rcases @resetIfTimeout_eq C now s h.known with htime | htime
    · cases htime.symm.trans hret
      exact h.weaken
    · cases htime.symm.trans hret
      exact .of_reset h.known h.auth

theorem act_abortsOnly {ca} {past} {s} {a : Act C} (h : Sound past s)
    (hlen : past.length < 2 ^ 31) : (act ca s a).AbortsOnly (Excused s) := by
  obtain ⟨hstate, hcount⟩ := h.facts
  cases a with
  | encrypt now draw msg hmsg =>
    exact (encrypt_abortsOnly h.known h.auth hstate (by omega) hmsg).bind fun _ _ => .ret _
  | decrypt now packet => exact (decrypt_abortsOnly h.known hstate (by omega)).bind fun _ _ => .ret _
  | setAuth password login => exact .ret _
  | reset => exact .ret _
  | resetIfTimeout now =>
    rcases @resetIfTimeout_eq C now s h.known with htime | htime
    · exact .inl ⟨_, htime⟩
    · exact .inl ⟨_, htime⟩

/-- What a run must leave: the temporary key of the peer fits the state, and a handshake packet takes the
counter back only by a reset. -/
structure Sane (ca : Context) (s : Session C) : Prop where
  temp : s.nextNonce < 2 ↔ s.herTempPubKey = .zero
  forward : ∀ (packet : Packet C) (err : DecryptErr) (s' : Session C) (content : List UInt8),
    decryptHandshake ca s packet.nonce packet = .ret (err, s', content) →
    s.nextNonce ≤ s'.nextNonce ∨ ∃ tempKey, s' = { reset s with herTempPubKey := tempKey, nextNonce := 2 }

theorem Sound.sane (h : Sound past s) : Sane ca s where
  temp := h.facts.1
  forward := by
    intro packet err s' content hret
    obtain ⟨-, rfl, -⟩ | ⟨hkey, -, plain, -, hshake⟩ := decryptHandshake_cases hret
    · exact .inl (le_refl _)
    obtain ⟨rfl, -⟩ | ⟨-, -, ⟨-, -, rfl⟩ | ⟨-, -, -, rfl⟩ | ⟨-, -, -, -, -, rfl⟩⟩ :=
      shakeHands_cases hkey hshake
    · exact .inl (le_refl _)
    · by_cases h0 : s.nextNonce = 0
      · exact .inl (h0 ▸ zero_le _)
      · exact .inr ⟨Key.ofBytes plain, by simp [greet, h0, CryptoAuth.reset]⟩
    · exact .inl (le_refl _)
    · left
      simp only [take]
      split
      · omega
      · omega

theorem Sound.acts {ca} {list past} {s} (h : Sound past s)
    (hlen : past.length + list.length < 2 ^ 31) :
    (∃ s', acts ca list s = .ret s' ∧ Sane ca s') ∨
      ∃ message, acts ca list s = .abort message ∧ Unlucky C (list ++ past) message := by
  induction list generalizing past s with
  | nil => exact .inl ⟨s, rfl, h.sane⟩
  | cons a list ih =>
    rw [length_cons] at hlen
    rcases @act_abortsOnly C ca past s a h (by omega) with ⟨s₁, hret⟩ | ⟨message, habort, hexcused⟩
    · rw [CryptoAuth.acts, hret]
      obtain hdone | ⟨message, habort, hunlucky⟩ := ih (h.act (by omega) hret) (by rw [length_cons]; omega)
      · exact .inl hdone
      · refine .inr ⟨message, habort, ?_⟩
        -- the order of the calls does not matter to luck
        refine hunlucky.imp_left fun hzero => ⟨hzero.1, ?_⟩
        obtain ⟨a', ha', hdrawn⟩ := hzero.2
        exact ⟨a', by grind, hdrawn⟩
    · rw [CryptoAuth.acts, habort]
      exact .inr ⟨message, rfl, h.unlucky (fun a' ha' => mem_append_right _ ha') hexcused⟩

/-- From a new session for a peer with a key, fewer than 2^31 calls: all return and leave a sane session, or
bad luck ends the run. -/
theorem acts_never_fail (C : Crypto) (ca : Context) (now : Nat) (herPublicKey : Key) (requireAuth : Bool)
    (hher : herPublicKey ≠ .zero) (list : List (Act C)) (hlen : list.length < 2 ^ 31) :
    (∃ s, acts ca list (newSession C now herPublicKey requireAuth) = .ret s ∧ Sane ca s) ∨
      ∃ message, acts ca list (newSession C now herPublicKey requireAuth) = .abort message ∧
        Unlucky C list message := by
  have hnew : Sound [] (newSession C now herPublicKey requireAuth) := by
    refine ⟨?_, (fun _ hp => nomatch hp), .idle, at_newSession now herPublicKey requireAuth, trivial, fun _ ht => nomatch ht⟩
    rw [knowHerKey, Bool.not_eq_true', Key.isZero_eq_false]
    exact hher
  simpa using @Sound.acts C ca list [] _ hnew (by simpa using hlen)

end

section
open Symbolic (crypto draw hello key node)

/-- The hello of a peer, and a message of ours. -/
theorem acts_never_fail_hello :
    key 1 ≠ .zero ∧ ∃ s, acts (node 2) [.decrypt 0 (hello 3 [7]), .encrypt 0 (draw 5) [7] (by decide)]
      (newSession crypto 0 (key 1) false) = .ret s ∧ Sane (node 2) s := by
  refine ⟨by decide, ?_⟩
  obtain hdone | ⟨message, -, hunlucky⟩ := acts_never_fail crypto (node 2) 0 (key 1) false (by decide)
    [.decrypt 0 (hello 3 [7]), .encrypt 0 (draw 5) [7] (by decide)] (by decide)
  · exact hdone
  · rcases hunlucky with ⟨-, a, ha, hdrawn⟩ | ⟨-, p, x, hz⟩
    · rcases mem_cons.mp ha with rfl | ha
      · exact nomatch hdrawn
      · rw [mem_singleton.mp ha] at hdrawn
        exact absurd (Option.some.inj hdrawn) (by decide)
    · exact absurd hz (Symbolic.correct.shared_ne_zero p x none)

end

end Hyperboria.CryptoAuth
