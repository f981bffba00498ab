/-
Replayed packets and established sessions. The code recognises a hello it has already
had by its temporary key, and it knows only the key in use. So a recorded data packet,
key packet or hello of the present handshake does nothing to an established session,
but a hello of an earlier handshake, or one that was passed over when two hellos
crossed, resets it.

`replay_keeps_iff` says exactly when all that was delivered to a session may be
delivered again.
-/
import Hyperboria.Crypto.Assertions

namespace Hyperboria.CryptoAuth

open Er

section
variable {C : Crypto}

/-- The packets delivered in a run. -/
def delivered (list : List (Act C)) : List (Packet C) :=
  list.filterMap fun
    | .decrypt _ packet => some packet
    | _ => none

/-- The packet leaves the session established, with its secret and its counter. -/
def Keeps (ca : Context) (now : Nat) (s : Session C) (packet : Packet C) : Prop :=
  ∃ err s' content, decrypt ca now s packet = .ret (err, s', content) ∧ s'.established = true ∧
    s'.sharedSecret = s.sharedSecret ∧ s'.nextNonce = s.nextNonce

/-- The packet is a hello the session can open, and its temporary key is not the one in use. -/
def ForeignHello (ca : Context) (s : Session C) (packet : Packet C) : Prop :=
  packet.nonce < 2 ∧ ∃ plain, Opens ca s packet plain ∧ Key.ofBytes plain ≠ .zero ∧
    s.herTempPubKey ≠ Key.ofBytes plain

/-- An assertion fails on the packet: on a hello of the peer once the counter of an established session has come
round to 0 or 1, on a data packet if the secret is zero. -/
def Fails (s : Session C) (packet : Packet C) : Prop :=
  (packet.nonce < 2 ∧ 120 ≤ packet.length ∧ s.herPublicKey = packet.publicKey ∧ s.nextNonce < 2) ∨
    (4 ≤ packet.nonce ∧ 20 ≤ packet.length ∧ s.sharedSecret = C.zeroSecret)

/-! ## One packet -/

theorem decryptHandshake_dropped {ca} {s} {packet : Packet C} (hkey : knowHerKey s = true)
    (h : packet.length < 120 ∨ s.herPublicKey ≠ packet.publicKey) :
    ∃ err, decryptHandshake ca s packet.nonce packet = .ret (err, s, []) := by
  have hdebug := cryptoAuthDebug_eq hkey
  unfold decryptHandshake
  split
  · exact ⟨.runt, by rw [hdebug, ret_bind]⟩
  next hlength =>
    rw [assertTrue_bind hkey, if_pos (h.resolve_left hlength), hdebug]
    exact ⟨.wrongPermPubkey, rfl⟩

variable {ca : Context} {s : Session C} {packet : Packet C}

theorem decryptHandshake_fails (hkey : knowHerKey s = true) (hlength : 120 ≤ packet.length)
    (hauthor : s.herPublicKey = packet.publicKey) (hn : s.nextNonce < 2) (hher : s.herTempPubKey ≠ .zero) :
    ¬ (decryptHandshake ca s packet.nonce packet).Returns := by
  unfold decryptHandshake
  rw [if_neg (Nat.not_lt.mpr hlength), assertTrue_bind hkey, if_neg (not_not_intro hauthor)]
  rw [returns_assertTrue_bind]
  intro h
  exact hher ((stateCheck_iff.mp h.1).mp hn)

variable {now : Nat} (hkey : knowHerKey s = true) (hest : s.established = true) (hher : s.herTempPubKey ≠ .zero)
include hkey hher

theorem ForeignHello.not_keeps (h : ForeignHello ca s packet) : ¬ Keeps ca now s packet := by
  obtain ⟨hn, plain, hopens, hz, hnew⟩ := h
  rintro ⟨err, s', content, hret, hest', -⟩
  rw [decrypt_handshake hkey (Nat.le_trans (by decide) hopens.length) (by omega) (by omega)] at hret
  obtain ⟨-, hstate, hshake⟩ := decryptHandshake_opened hopens hret
  have hnext : ¬ s.nextNonce < 2 := fun h => hher (hstate.mp h)
  rw [shakeHands_newHello hkey hn hz hnew, if_neg (fun h => by omega)] at hshake
  cases hshake
  simp [greet, show s.nextNonce ≠ 0 by omega, reset] at hest'

include hest

theorem Fails.not_keeps (h : Fails s packet) : ¬ Keeps ca now s packet := by
  rintro ⟨err, s', content, hret, -⟩
  rcases h with ⟨hn, hlong, hauthor, hnext⟩ | ⟨h4, hlength, hzero⟩
  · rw [decrypt_handshake hkey (by omega) (by omega) (by omega)] at hret
    exact decryptHandshake_fails hkey hlong hauthor hnext hher ⟨_, hret⟩
  · simp only [decrypt, Nat.not_lt.mpr hlength, hest, h4] at hret
    obtain ⟨_, hassert, -⟩ := bind_inv hret
    simp [hzero] at hassert

/-- A hello that comes to an established session. -/
theorem hello_keeps (hn : packet.nonce < 2) (hlength : 20 ≤ packet.length) (hforeign : ¬ ForeignHello ca s packet)
    (hfails : ¬ Fails s packet) : Keeps ca now s packet := by
  unfold Keeps
  rw [decrypt_handshake hkey hlength (by omega) (by omega)]
  by_cases hdropped : packet.length < 120 ∨ s.herPublicKey ≠ packet.publicKey
  · obtain ⟨err, hret⟩ := @decryptHandshake_dropped C ca s packet hkey hdropped
    exact ⟨err, s, [], hret, hest, rfl, rfl⟩
  obtain ⟨hlong, hauthor⟩ := not_or.mp hdropped
  have hnext : ¬ s.nextNonce < 2 := fun h => hfails (.inl ⟨hn, Nat.not_lt.mp hlong, not_not.mp hauthor, h⟩)
  have hstate : s.nextNonce < 2 ↔ s.herTempPubKey = .zero := iff_of_false hnext hher
  by_cases hopens : ∃ plain, Opens ca s packet plain
  · obtain ⟨plain, hopens⟩ := hopens
    rw [decryptHandshake_of_opens hkey hstate hopens]
    by_cases hz : Key.ofBytes plain = .zero
    · rw [shakeHands_wiseguy hkey hz]
      exact ⟨_, s, _, rfl, hest, rfl, rfl⟩
    have hknown : s.herTempPubKey = Key.ofBytes plain := by
      by_contra hnew
      exact hforeign ⟨hn, plain, hopens, hz, hnew⟩
    rw [shakeHands_knownHello hkey hn hz hknown]
    split
    · exact ⟨_, _, _, rfl, hest, rfl, rfl⟩
    · exact ⟨_, _, _, rfl, hest, rfl, rfl⟩
  · obtain ⟨err, -, hret⟩ := decryptHandshake_of_not_opens hkey hstate (not_exists.mp hopens)
    exact ⟨err, s, [], hret, hest, rfl, rfl⟩

theorem keeps_iff : Keeps ca now s packet ↔ ¬ (ForeignHello ca s packet ∨ Fails s packet) := by
  refine ⟨fun hkeeps hbad => hbad.elim (fun h => h.not_keeps hkey hher hkeeps) fun h => h.not_keeps hkey hest hher hkeeps,
    fun hgood => ?_⟩
  obtain ⟨hforeign, hfails⟩ := not_or.mp hgood
  have hdebug := cryptoAuthDebug_eq hkey
  by_cases hlength : 20 ≤ packet.length
  swap
  · refine ⟨.runt, s, [], ?_, hest, rfl, rfl⟩
    rw [decrypt, if_pos (by omega), hdebug, ret_bind]
  by_cases hn : packet.nonce < 2
  · exact hello_keeps hkey hest hher hn hlength hforeign hfails
  have hbar : (!s.established) = false := by rw [hest]; rfl
  by_cases h4 : 4 ≤ packet.nonce
  · have hsecret : s.sharedSecret ≠ C.zeroSecret := fun hz => hfails (.inr ⟨h4, hlength, hz⟩)
    obtain ⟨⟨ret, s', content⟩, hm⟩ := @decryptMessage_returns C s s.sharedSecret packet.nonce packet hkey
    have hher' := decryptMessage_herPublicKey hm
    have hsame : s'.established = true ∧ s'.sharedSecret = s.sharedSecret ∧ s'.nextNonce = s.nextNonce := by
      obtain ⟨-, rfl⟩ | ⟨-, -, rfl⟩ := decryptMessage_cases hm
      · exact ⟨hest, rfl, rfl⟩
      · exact ⟨hest, rfl, rfl⟩
    unfold Keeps
    simp only [decrypt, Nat.not_lt.mpr hlength, hbar, h4, if_true, if_false, Bool.false_eq_true]
    rw [assertTrue_bind (decide_eq_true hsecret), hm, ret_bind]
    split
    · exact ⟨_, _, _, rfl, hsame⟩
    · rw [cryptoAuthDebug_bind hkey hher']
      exact ⟨_, _, _, rfl, hsame⟩
  · refine ⟨.keyPktEstablishedSession, s, [], ?_, hest, rfl, rfl⟩
    simp only [decrypt, Nat.not_lt.mpr hlength, hbar, h4, if_false, Bool.false_eq_true,
      show ¬ packet.nonce ≤ 1 by omega, hdebug, ret_bind]

omit hkey hest hher

/-! ## Whole runs -/

/-- A run keeps the peer's key and the session at a stage. -/
theorem acts_at {list} {s'} {st} (hs : At s st) (h : acts ca list s = .ret s') :
    s'.herPublicKey = s.herPublicKey ∧ ∃ st', At s' st' := by
  induction list generalizing s st with
  | nil =>
    cases h
    exact ⟨rfl, st, hs⟩
  | cons a list ih =>
    obtain ⟨s₁, ha, h⟩ := bind_inv h
    have hstep : s₁.herPublicKey = s.herPublicKey ∧ ∃ st₁, At s₁ st₁ := by
      cases a with
      | encrypt now draw msg hmsg =>
        simp only [act, bind_eq_ret, ret.injEq] at ha
        obtain ⟨⟨s₂, packet⟩, hret, rfl⟩ := ha
        obtain ⟨hher, _, _, st', _, _, _, _, _, hs', _⟩ := encrypt_sends hs hret
        exact ⟨hher, st', hs'⟩
      | decrypt now packet =>
        simp only [act, bind_eq_ret, ret.injEq] at ha
        obtain ⟨⟨err, s₂, content⟩, hret, rfl⟩ := ha
        obtain ⟨hher, st', hs', -⟩ := decrypt_receives hs hret
        exact ⟨hher, st', hs'⟩
      | setAuth password login =>
        cases ha
        obtain ⟨hher, st₀, hs₀, -⟩ := (setAuth_resets password login s).at hs
        exact ⟨hher, st₀, hs₀⟩
      | reset =>
        cases ha
        exact ⟨rfl, .idle, at_reset s⟩
      | resetIfTimeout now =>
        obtain ⟨hher, st₀, hs₀, -⟩ := (resetIfTimeout_resets ha).at hs
        exact ⟨hher, st₀, hs₀⟩
    obtain ⟨hher, st₁, hs₁⟩ := hstep
    obtain ⟨hher', hst'⟩ := ih hs₁ h
    exact ⟨hher'.trans hher, hst'⟩

theorem At.herTempPubKey_ne_zero {st} (hs : At s st) (hest : s.established = true) :
    s.herTempPubKey ≠ .zero := by
  cases st with
  | talking x k n => obtain ⟨-, -, -, -, he, -⟩ := hs; simp [hest] at he
  | settled b t h n => obtain ⟨-, -, -, -, -, -, -, rfl, hz, -⟩ := hs; exact hz
  | late t h k n => obtain ⟨-, -, -, -, -, -, rfl, hz, -⟩ := hs; exact hz
  | _ => obtain ⟨-, -, he, -⟩ := hs; simp [hest] at he

/-- In a run that has established a session, everything that was delivered can be delivered again without harm
if and only if none of it is a hello of another handshake, and none fails an assertion. -/
theorem replay_keeps_iff (C : Crypto) (ca : Context) (start : Nat) (herPublicKey : Key) (requireAuth : Bool)
    (hher : herPublicKey ≠ .zero) (list : List (Act C)) (s : Session C)
    (hrun : acts ca list (newSession C start herPublicKey requireAuth) = .ret s) (hest : s.established = true)
    (now : Nat) : (∀ packet ∈ delivered list, Keeps ca now s packet) ↔
      ∀ packet ∈ delivered list, ¬ (ForeignHello ca s packet ∨ Fails s packet) := by
  obtain ⟨hher', st, hs⟩ := acts_at (at_newSession start herPublicKey requireAuth) hrun
  have hkey : knowHerKey s = true := by
    rw [knowHerKey, hher', Bool.not_eq_true', Key.isZero_eq_false]
    exact hher
  exact forall₂_congr fun packet _ => keeps_iff hkey hest (hs.herTempPubKey_ne_zero hest)

end

/-! ## A hello of an earlier handshake -/

namespace Replayed

open Symbolic (crypto data draw hello key node)

/-- The peer says hello, begins anew with another hello, and that handshake is brought to its end. -/
def run : List (Act crypto) :=
  [.decrypt 0 (hello 3 [7]), .decrypt 0 (hello 4 [7]), .encrypt 0 (draw 5) [7] (by decide), .decrypt 0 (data [7])]

/-- The session after the run. -/
def established : Session crypto :=
  { newSession crypto 0 (key 1) false with
    nextNonce := 6
    ourTempPrivKey := key 5
    ourTempPubKey := key 5
    herTempPubKey := key 4
    sharedSecret := crypto.getSharedSecret (key 5) (key 4) none
    established := true
    replayProtector := { ReplayProtector.zero with baseOffset := 5 } }

theorem run_eq : acts (node 2) run (newSession crypto 0 (key 1) false) = .ret established := by
  rfl

theorem old_hello_tears_down :
    acts (node 2) run (newSession crypto 0 (key 1) false) = .ret established ∧ established.established = true ∧
    hello 3 [7] ∈ delivered run ∧ ¬ Keeps (node 2) 0 established (hello 3 [7]) := by
  refine ⟨run_eq, rfl, List.mem_cons_self, ?_⟩
  rintro ⟨err, s', content, hret, hest, -⟩
  have hreset : decrypt (node 2) 0 established (hello 3 [7]) = .ret (.none, greet established (key 3), [7]) := rfl
  obtain ⟨-, rfl, -⟩ := ret.inj (hreset.symm.trans hret)
  exact nomatch hest

/-- Without the first hello. -/
theorem replay_keeps_one_handshake :
    acts (node 2) run.tail (newSession crypto 0 (key 1) false) = .ret established ∧
    ∀ packet ∈ delivered run.tail, Keeps (node 2) 0 established packet := by
  refine ⟨rfl, (replay_keeps_iff crypto (node 2) 0 (key 1) false (by decide) run.tail established rfl rfl 0).mpr ?_⟩
  intro packet hpacket
  have hpacket : packet = hello 4 [7] ∨ packet = data [7] := by simpa [delivered, run] using hpacket
  rcases hpacket with rfl | rfl
  · rintro (⟨-, plain, hopens, -, hne⟩ | ⟨-, -, -, hn⟩ | ⟨h4, -⟩)
    · have hplain : some ((key 4).1 ++ [7]) = some plain := hopens.opens
      exact hne (Option.some.inj hplain ▸ rfl)
    · exact absurd hn (by decide)
    · exact absurd h4 (by decide)
  · rintro (⟨hn, -⟩ | ⟨hn, -⟩ | ⟨-, -, hzero⟩)
    · exact absurd hn (by decide)
    · exact absurd hn (by decide)
    · cases hzero

end Replayed

end Hyperboria.CryptoAuth
