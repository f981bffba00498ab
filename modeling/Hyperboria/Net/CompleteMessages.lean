/-
What the session layer passes up. `passesUpComplete_iff` says exactly when a packet
from the switch makes it pass up a message the layer above cannot read: when the packet
decrypts and has no room for a data header. The length is asserted only after the room
of the route header was added to it, so that assertion never fails.
-/
import Hyperboria.Crypto.DecryptCases
import Hyperboria.Crypto.Symbolic
import Hyperboria.Net.SessionManager
import Hyperboria.Net.UpperDistributor

namespace Hyperboria.SessionManager

open Er

open CryptoAuth (headerSize seconds)

variable {C : Crypto} {now : Nat} {msg : Incoming C} {sm sm' : State C} {outs : List Out}

/-! ## What each part sends -/

variable {sess : Session C} {label : BitVec 64} {metric : Nat} {up : Routed}

theorem discoverPath_inside :
    .inside up ∉ (discoverPath now sess label metric).2.2 := by
  unfold discoverPath
  split
  · simp
  split
  · split
    · simp
    · simp
  · dsimp only
    split
    · simp
    split
    · simp [sendSession]
    · simp

variable {index : Nat}

theorem addSession_inside {ip6} {pubKey} {version}
    (h : addSession now ip6 pubKey version label metric sm = .ret (index, sess, sm', outs)) :
    .inside up ∉ outs := by
  simp only [addSession, bind_eq_ret] at h
  obtain ⟨_, -, _, -, -, -, -, rfl⟩ := h
  simp [sendSession]

theorem getSession_inside {ip6} {pubKey} {version}
    (h : getSession now ip6 pubKey version label metric sm = .ret (index, sess, sm', outs)) :
    .inside up ∉ outs := by
  simp only [getSession, bind_eq_ret] at h
  obtain ⟨_, -, found, -, h⟩ := h
  cases found with
  | none => exact addSession_inside h
  | some found =>
    cases h
    exact discoverPath_inside

variable {session : Session C}

/-- A packet that gets as far as being decrypted has the header of its kind, and nothing was passed up. -/
theorem address_found (h : address now msg sm = .ret (.found index session sm' outs)) :
    (∀ up, .inside up ∉ outs) ∧
      ((msg.nonceOrHandle > 3 ∧ 4 ≤ msg.run.nonce) ∨ (msg.nonceOrHandle ≤ 3 ∧ 124 ≤ msg.setup.length)) := by
  unfold address at h
  split at h
  next hrun =>
    simp only [addressRun, bind_eq_ret] at h
    obtain ⟨found, -, h⟩ := h
    cases found with
    | none => simp at h
    | some found =>
      dsimp only at h
      split at h
      · simp at h
      next hnonce =>
        simp only [ret.injEq, Addressed.found.injEq] at h
        obtain ⟨-, -, -, rfl⟩ := h
        exact ⟨by simp, .inl ⟨hrun, by omega⟩⟩
  next hsetup =>
    unfold addressSetup at h
    split at h
    · simp at h
    next hlength =>
    dsimp only at h
    split at h
    · simp at h
    split at h
    · simp at h
    simp only [bind_eq_ret, Prod.exists] at h
    obtain ⟨_, _, _, _, hget, _, -, -, -, -, rfl⟩ := h
    exact ⟨fun up => getSession_inside hget, .inr ⟨by omega, by omega⟩⟩

theorem popHandle_returns {content} (hcontent : msg.nonceOrHandle ≤ 3 → 4 ≤ content.length) :
    ∃ session' payload, popHandle msg session content = .ret (session', payload) ∧
      payload.length + (if msg.nonceOrHandle > 3 then 0 else 4) = content.length := by
  unfold popHandle
  split
  next hsetup =>
    have h4 := hcontent hsetup
    refine ⟨_, _, assertTrue_bind (decide_eq_true h4), ?_⟩
    rw [if_neg (by omega), List.length_drop]
    omega
  next hrun =>
    refine ⟨_, _, rfl, ?_⟩
    rw [if_pos (by omega), Nat.add_zero]

/-- One message is passed up for a packet that was decrypted, with all of its content but the handle. -/
theorem passUp_returns {content : List UInt8} (hcontent : msg.nonceOrHandle ≤ 3 → 4 ≤ content.length) :
    ∃ sm' outs up, passUp now msg index session content sm = .ret (sm', outs ++ [.inside up]) ∧
      (∀ up', .inside up' ∉ outs) ∧ up.header.isCtrl = false ∧
      up.length + (if msg.nonceOrHandle > 3 then 0 else 4) = RouteHeader.SIZE + content.length := by
  obtain ⟨session', payload, hpop, hlength⟩ := @popHandle_returns C msg session content hcontent
  have hsize : RouteHeader.SIZE + payload.length ≥ DataHeader.SIZE := Nat.le_add_right_of_le (by decide)
  simp only [passUp, hpop, ret_bind, assertTrue_bind (decide_eq_true hsize)]
  refine ⟨_, _, _, rfl, fun up' => discoverPath_inside, RouteHeader.isCtrl_of_incoming rfl, ?_⟩
  simp only [Routed.length]
  omega

/-! ## Which messages are complete -/

/-- The session a packet belongs to accepts it. -/
def Authentic (now : Nat) (msg : Incoming C) (sm : State C) : Prop :=
  ∃ index session sm' outs caSession content, address now msg sm = .ret (.found index session sm' outs) ∧
    CryptoAuth.decrypt sm'.cryptoAuth (seconds now) session.caSession msg.packet = .ret (.none, caSession, content)

/-- The bytes of a packet that are not passed up: switch header, handle and the header of its kind. -/
def overhead (msg : Incoming C) : Nat := if msg.nonceOrHandle > 3 then 12 + 4 + 20 else 12 + 120 + 4

/-- A packet its session accepts is passed up, without the headers. -/
theorem incomingFromSwitchIf_authentic (hctrl : msg.nonceOrHandle ≠ 0xffffffff) (h : Authentic now msg sm) :
    ∃ sm' outs up, incomingFromSwitchIf now msg sm = .ret (sm', outs ++ [.inside up]) ∧
      (∀ up', .inside up' ∉ outs) ∧ up.header.isCtrl = false ∧
      up.length + overhead msg = RouteHeader.SIZE + msg.length := by
  obtain ⟨index, session, sm₁, outs₁, caSession, content, haddress, hdecrypt⟩ := h
  obtain ⟨houts₁, hkind⟩ := address_found haddress
  have hrun := msg.run_length
  have hsetup := msg.setup_length
  have hnonce := msg.setup_nonce
  -- the length of the content, for either kind of packet
  have hcontent : 24 ≤ msg.length - 12 ∧ (msg.nonceOrHandle ≤ 3 → 4 ≤ content.length) ∧
      content.length + overhead msg = msg.length + (if msg.nonceOrHandle > 3 then 0 else 4) := by
    have h20 := CryptoAuth.length_of_decrypt hdecrypt
    have hlength := CryptoAuth.content_length_of_decrypt hdecrypt
    obtain ⟨h3, h4⟩ | ⟨h3, h124⟩ := hkind
    · simp only [Incoming.packet, h3, if_true, headerSize, show ¬ msg.run.nonce < 4 by omega, if_false] at h20 hlength
      simp only [overhead, h3, if_true]
      omega
    · have hgt : ¬ msg.nonceOrHandle > 3 := by omega
      simp only [Incoming.packet, hgt, if_false, headerSize, show msg.setup.nonce < 4 by omega, if_true] at h20 hlength
      simp only [overhead, hgt, if_false]
      omega
  obtain ⟨hlong, hhandle, hlength⟩ := hcontent
  obtain ⟨sm', outs, up, hpass, houts, hup, huplen⟩ :=
    @passUp_returns C now msg sm₁ index { session with caSession } content hhandle
  refine ⟨sm', outs₁ ++ outs, up, ?_, ?_, hup, by omega⟩
  · unfold incomingFromSwitchIf
    have hsize : Switch.SwitchHeader_SIZE = 12 := rfl
    rw [if_neg (by omega), if_neg hctrl, if_neg (by omega), assertTrue_bind (decide_eq_true (by omega)), haddress]
    simp only [ret_bind, hdecrypt, ne_eq, not_true, if_false, hpass, List.append_assoc]
  · intro up' hmem
    exact (List.mem_append.mp hmem).elim (houts₁ up') (houts up')

/-- Of any other packet nothing is passed up but a control frame. -/
theorem incomingFromSwitchIf_other (hret : incomingFromSwitchIf now msg sm = .ret (sm', outs))
    (h : msg.nonceOrHandle ≠ 0xffffffff → ¬ Authentic now msg sm) (hup : .inside up ∈ outs) :
    up.header.isCtrl = true := by
  unfold incomingFromSwitchIf at hret
  split at hret
  · cases hret
    cases hup
  split at hret
  · cases hret
    cases List.mem_singleton.mp hup
    exact RouteHeader.isCtrl_of_ctrlMsg rfl
  next hctrl =>
  split at hret
  · cases hret
    cases hup
  simp only [bind_eq_ret] at hret
  obtain ⟨_, -, addressed, haddress, hret⟩ := hret
  cases addressed with
  | drop sm₁ =>
    cases hret
    cases hup
  | found index session sm₁ outs₁ =>
    simp only [bind_eq_ret, Prod.exists] at hret
    obtain ⟨err, caSession, content, hdecrypt, hret⟩ := hret
    split at hret
    · cases hret
      have hnot := (address_found haddress).1 up
      simp [hnot, failedDecrypt] at hup
    next herr =>
      cases not_not.mp herr
      exact absurd ⟨index, session, sm₁, outs₁, caSession, content, haddress, hdecrypt⟩ (h hctrl)

/-- What is passed up for a packet is complete: it is a control frame, or it has a data header, so that the
distributor takes it. -/
def PassesUpComplete (now : Nat) (msg : Incoming C) (sm : State C) : Prop :=
  ∀ sm' outs, incomingFromSwitchIf now msg sm = .ret (sm', outs) → ∀ up, .inside up ∈ outs →
    (up.header.isCtrl = false → RouteHeader.SIZE + DataHeader.SIZE ≤ up.length) ∧
      ∀ ud, (UpperDistributor.incomingFromSessionManagerIf up ud).Returns

/-- What is passed up for a packet is complete unless the packet is accepted and too short for a data
header after the headers of its kind. -/
theorem passesUpComplete_iff (now : Nat) (msg : Incoming C) (sm : State C) :
    PassesUpComplete now msg sm ↔
      ¬ (msg.nonceOrHandle ≠ 0xffffffff ∧ msg.length < overhead msg + DataHeader.SIZE ∧ Authentic now msg sm) := by
  unfold PassesUpComplete
  simp only [UpperDistributor.incomingFromSessionManagerIf_returns_iff]
  constructor
  · rintro hcomplete ⟨hctrl, hshort, hauthentic⟩
    obtain ⟨sm', outs, up, hret, -, hup, hlength⟩ := incomingFromSwitchIf_authentic hctrl hauthentic
    have h := (hcomplete sm' _ hret up (by simp)).1 hup
    omega
  · intro hnot sm' outs hret up hup
    have hlong : up.header.isCtrl = false → RouteHeader.SIZE + DataHeader.SIZE ≤ up.length := by
      intro hdata
      by_cases hauthentic : msg.nonceOrHandle ≠ 0xffffffff ∧ Authentic now msg sm
      · obtain ⟨sm₁, outs₁, up₁, hret₁, houts₁, -, hlength⟩ :=
          incomingFromSwitchIf_authentic hauthentic.1 hauthentic.2
        rw [hret₁] at hret
        cases hret
        have hshort : ¬ msg.length < overhead msg + DataHeader.SIZE :=
          fun hshort => hnot ⟨hauthentic.1, hshort, hauthentic.2⟩
        have heq : up = up₁ := by simpa [houts₁] using hup
        rw [heq]
        omega
      · have hctrl := incomingFromSwitchIf_other hret (fun hctrl ha => hauthentic ⟨hctrl, ha⟩) hup
        rw [hdata] at hctrl
        cases hctrl
    exact ⟨hlong, fun _ => hlong⟩

/-- A node that has just been started. -/
def started : State Symbolic.crypto :=
  .new _ (Symbolic.node 9) 4

theorem zero_lt_word : 0 < 2 ^ 32 := by decide

theorem zeros_sized (_ : CryptoAuth.boxAt 0 ≤ 120) :
    120 = CryptoAuth.boxAt 0 + Symbolic.crypto.size ⟨none, 0, List.replicate 32 0⟩ := rfl

/-- A hello from a stranger with a handle in it and nothing else. -/
def bareHello : Incoming Symbolic.crypto where
  length := 136
  switchHeader :=
    { label := 0x8000000000000000#64, congestAndSuppressErrors := 2#8, versionAndLabelShift := 0x40#8
      trafficClass := 0xffff#16 }
  nonceOrHandle := 0
  firstSixteen := List.replicate 16 0
  setup :=
    { length := 124, nonce := 0, auth := { type := 0, lookup := List.replicate 7 0, derivations := 0, additional := 0 }
      handshakeNonce := 0, publicKey := Symbolic.key 1
      box := { secret := some (s(Symbolic.key 9, Symbolic.key 1), none), nonce := 0
               plain := (Symbolic.key 2).1 ++ [0, 0, 0, 4] }
      nonce_lt := zero_lt_word, sized := fun _ => rfl }
  run :=
    { length := 120, nonce := 0, auth := { type := 0, lookup := [], derivations := 0, additional := 0 }
      handshakeNonce := 0, publicKey := .zero
      box := { secret := none, nonce := 0, plain := List.replicate 32 0 }
      nonce_lt := zero_lt_word, sized := zeros_sized }
  ctrl := List.replicate 120 0
  setup_nonce := rfl
  setup_length := rfl
  run_length := rfl
  ctrl_length := rfl

theorem bareHello_passed_up :
    ∃ sm' event up, incomingFromSwitchIf 0 bareHello started = .ret (sm', [event, .inside up]) ∧
      up.header.isCtrl = false ∧ up.length = RouteHeader.SIZE ∧
      UpperDistributor.incomingFromSessionManagerIf up { handlers := [], noSendToHandler := 0 } =
        .abort "msg->length >= RouteHeader_SIZE + DataHeader_SIZE" :=
  ⟨_, _, _, rfl, rfl, rfl, rfl⟩

end Hyperboria.SessionManager
