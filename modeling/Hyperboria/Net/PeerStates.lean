/-
The state a peer is in, and the state of its session. `struct Peer` has a state of its
own, which is set from that of the session when a message comes in, and messages that
are not for this very router are dropped while the session is not established. But
the state of a peer that has once been established is not looked at again: if the
session is then reset, by a new hello of the peer, by a timeout or by the
administrator, the handshake that follows is done with the gate open.

`guarded_iff` says exactly which messages come through.
-/
import Hyperboria.Crypto.Equations
import Hyperboria.Crypto.Symbolic
import Hyperboria.Net.InterfaceController

namespace Hyperboria

open Er List Nat

namespace CryptoAuth

variable {C : Crypto} {ca : Context} {s s' : Session C}

/-! ## Packets that a session takes and is not established after -/

/-- The session takes a handshake packet with this temporary key in it. -/
structure Admits (s : Session C) (nonce : Nat) (tempKey : Key) : Prop where
  key : tempKey ≠ .zero
  hello : nonce < 2 → s.herTempPubKey ≠ tempKey ∨ nonce = 1 ∧ (s.nextNonce = 2 ∨ s.nextNonce = 3)
  answer : 2 ≤ nonce → ¬ DupeKey s nonce tempKey ∧ s.nextNonce ≠ 0 ∧ s.nextNonce ≠ 2 ∧ s.nextNonce ≠ 3

/-- The session takes the packet, with this content, and is not established after it: the packet is one of
the handshake, or a data packet that finds the counter of the session come round. -/
inductive Lapses (ca : Context) (s : Session C) (packet : Packet C) : List UInt8 → Prop where
  | handshake {plain : List UInt8} (hnonce : packet.nonce < 4) (hest : 2 ≤ packet.nonce → s.established = false)
      (hopens : Opens ca s packet plain) (hadmits : Admits s packet.nonce (Key.ofBytes plain)) :
      Lapses ca s packet (plain.drop 32)
  | first {plain : List UInt8} (htries : TriesFinalStep s packet)
      (hopen : C.openAfternm (C.getSharedSecret s.ourTempPrivKey s.herTempPubKey none)
        (counterNonce packet.nonce (!s.isInitiator)) packet.box = some plain)
      (hpass : (s.replayProtector.checkNonce packet.nonce).1 = true) (hround : uint32 (s.nextNonce + 3) ≤ 4) :
      Lapses ca s packet plain
  | data {plain : List UInt8} (hlength : 20 ≤ packet.length) (hnonce : 4 ≤ packet.nonce) (hest : s.established = true)
      (hopen : C.openAfternm s.sharedSecret (counterNonce packet.nonce (!s.isInitiator)) packet.box = some plain)
      (hpass : (s.replayProtector.checkNonce packet.nonce).1 = true) (hround : s.nextNonce ≤ 4) :
      Lapses ca s packet plain

variable {packet : Packet C} {content : List UInt8}

theorem Lapses.length (h : Lapses ca s packet content) :
    20 ≤ packet.length := by
  cases h with
  | handshake hnonce hest hopens hadmits => exact le_trans (by decide) hopens.length
  | first htries hopen hpass hround => exact htries.1
  | data hlength hnonce hest hopen hpass hround => exact hlength

theorem getState_eq_established : getState s = .established ↔ 4 < s.nextNonce ∧ s.established = true := by
  unfold getState
  split
  · simp_all
  · simp_all
  · simp_all
  · simp_all
  · simp_all
  next h0 h1 h2 h3 h4 =>
    have h4 : 4 < s.nextNonce := by
      by_contra hle
      interval_cases hn : s.nextNonce
      · exact h0 rfl
      · exact h1 rfl
      · exact h2 rfl
      · exact h3 rfl
      · exact h4 rfl
    cases hest : s.established with
    | true => simp [h4]
    | false => simp

variable {plain : List UInt8}

/-- A handshake packet that has been opened is taken if and only if the session admits its key. -/
theorem shakeHands_none_iff {nonce} {err} (hkey : knowHerKey s = true)
    (hstate : s.nextNonce < 2 ↔ s.herTempPubKey = .zero) (hn : nonce < 4)
    (h : shakeHands ca s nonce plain = .ret (err, s', content)) :
    err = .none ↔ Admits s nonce (Key.ofBytes plain) := by
  have herr : ∀ {r}, shakeHands ca s nonce plain = .ret r → err = r.1 := fun {r} h' => by
    rw [h] at h'
    exact congrArg Prod.fst (ret.inj h')
  by_cases hz : Key.ofBytes plain = .zero
  · rw [herr (shakeHands_wiseguy hkey hz)]
    exact iff_of_false (by simp) fun hadmits => hadmits.key hz
  by_cases hhello : nonce < 2
  · by_cases hknown : s.herTempPubKey = Key.ofBytes plain
    · rw [herr (shakeHands_knownHello hkey hhello hz hknown)]
      split
      next hrepeat => exact iff_of_true rfl ⟨hz, fun _ => .inr hrepeat, fun h2 => by omega⟩
      next hrepeat =>
        exact iff_of_false (by simp) fun hadmits => (hadmits.hello hhello).elim (fun hne => hne hknown) hrepeat
    · rw [herr (shakeHands_newHello hkey hhello hz hknown)]
      exact iff_of_true rfl ⟨hz, fun _ => .inl hknown, fun h2 => by omega⟩
  have hnonce : nonce = 2 ∨ nonce = 3 := by omega
  have hher : 4 ≤ s.nextNonce → s.herTempPubKey ≠ .zero := fun h4 hzero => by
    have := hstate.mpr hzero
    omega
  have hdupe := @isDupe_key C s nonce (Key.ofBytes plain) hnonce hher
  by_cases hdrop : DupeKey s nonce (Key.ofBytes plain)
  · rw [decide_eq_true hdrop] at hdupe
    rw [herr (shakeHands_dupe hkey hz hdupe)]
    exact iff_of_false (by simp) fun hadmits => (hadmits.answer (by omega)).1 hdrop
  rw [decide_eq_false hdrop] at hdupe
  -- the branch of the key packet either has no use for it or goes on
  simp only [shakeHands, Key.isZero_eq_false.mpr hz, hdupe, received, hhello, ret_bind] at h
  obtain ⟨verdict, hreceived, h⟩ := bind_inv h
  obtain ⟨rfl, hstray⟩ | ⟨h0, h2, h3, -, -, s₁, n, rfl, -⟩ := receivedKey_cases hreceived
  · cases h
    refine iff_of_false (by simp) fun hadmits => ?_
    obtain ⟨-, h0, h2, h3⟩ := hadmits.answer (by omega)
    exact hstray.elim h0 fun h => h.elim h2 h3
  · cases eq_of_bind_ret h
    exact iff_of_true rfl ⟨hz, fun hlt => absurd hlt hhello, fun _ => ⟨hdrop, h0, h2, h3⟩⟩

/-- After a handshake packet it has taken, a session is not established. -/
theorem shakeHands_getState {nonce} (hkey : knowHerKey s = true)
    (h : shakeHands ca s nonce plain = .ret (.none, s', content)) :
    getState s' ≠ .established := by
  rw [Ne, getState_eq_established]
  rintro ⟨h4, hest⟩
  obtain ⟨rfl, hsame⟩ | ⟨-, -, ⟨-, -, rfl⟩ | ⟨-, -, h23, rfl⟩ | ⟨-, -, hfalse, -, -, rfl⟩⟩ := shakeHands_cases hkey h
  · have := (hsame rfl).2
    omega
  · exact absurd h4 (show ¬ 4 < 2 by decide)
  · have h4 : 4 < s.nextNonce := h4
    omega
  · have h4 : 4 < if s.nextNonce ≤ 4 then 4 else s.nextNonce + 1 := h4
    have hest : s.established = true := hest
    split at h4
    · omega
    next hnext => simp [(hfalse (by omega)).1] at hest

variable {r : Decrypted C}

variable {now : Nat}

theorem decryptHandshake_of_decrypt (hlength : 20 ≤ packet.length) (hnonce : packet.nonce < 4)
    (hest : 2 ≤ packet.nonce → s.established = false) (h : decrypt ca now s packet = .ret r) :
    decryptHandshake ca s packet.nonce packet = .ret r := by
  simp only [decrypt, not_lt.mpr hlength, if_false, not_le.mpr hnonce] at h
  split at h
  · exact h
  next hest' =>
    have hhello : packet.nonce ≤ 1 := by
      by_contra hn
      exact hest' (by rw [hest (by omega)]; rfl)
    rw [if_pos hhello] at h
    obtain ⟨_, -, h⟩ := bind_inv h
    exact h

/-- What has been asserted when the first data packet has been tried. -/
theorem decrypt_tried (htries : TriesFinalStep s packet) (h : decrypt ca now s packet = .ret r) :
    knowHerKey s = true ∧ s.ourTempPrivKey ≠ .zero ∧ s.herTempPubKey ≠ .zero := by
  obtain ⟨hlength, hnonce, hest, hnext⟩ := htries
  simp only [decrypt, not_lt.mpr hlength, hest, hnonce, not_lt.mpr hnext, Bool.not_false, if_true, if_false,
    bind_eq_ret, cryptoAuthDebug_eq_ret, assertTrue_eq_ret] at h
  obtain ⟨_, hkey, _, hour, _, hher, -⟩ := h
  exact ⟨hkey, by simpa using hour, by simpa using hher⟩

/-- A packet is taken by a session that is not established after it, in the cases of `Lapses` and in no
other. -/
theorem lapses_iff {err} (h : decrypt ca now s packet = .ret (err, s', content)) :
    (err = .none ∧ getState s' ≠ .established ∧ content = plain) ↔ Lapses ca s packet plain := by
  constructor
  · rintro ⟨rfl, hstate, rfl⟩
    obtain ⟨herr, -⟩ | ⟨herr, -⟩ | ⟨-, htries, hopen, hpass, rfl⟩ |
      ⟨hest, hnonce, hopen, ⟨⟨-, hpass⟩, rfl⟩ | ⟨herr, -⟩⟩ | ⟨hnonce, hest, hshake⟩ := decrypt_cases h
    · exact absurd rfl herr
    · exact absurd rfl herr
    · refine .first htries hopen hpass ?_
      rw [Ne, getState_eq_established] at hstate
      by_contra hround
      exact hstate ⟨not_le.mp hround, rfl⟩
    · refine .data (length_of_decrypt h) hnonce hest hopen hpass ?_
      rw [Ne, getState_eq_established] at hstate
      by_contra hround
      exact hstate ⟨not_le.mp hround, hest⟩
    · exact nomatch herr
    · obtain ⟨herr, -⟩ | ⟨hkey, htemp, plain, hopens, hshake⟩ := decryptHandshake_cases hshake
      · exact absurd rfl herr
      rw [shakeHands_content hshake]
      exact .handshake hnonce hest hopens ((shakeHands_none_iff hkey htemp hnonce hshake).mp rfl)
  · rintro (⟨hnonce, hest, hopens, hadmits⟩ | ⟨htries, hopen, hpass, hround⟩ |
      ⟨hlength, hnonce, hest, hopen, hpass, hround⟩)
    · have hlength : 20 ≤ packet.length := le_trans (by decide) hopens.length
      obtain ⟨hkey, htemp, hshake⟩ :=
        decryptHandshake_opened hopens (decryptHandshake_of_decrypt hlength hnonce hest h)
      obtain rfl := (shakeHands_none_iff hkey htemp hnonce hshake).mpr hadmits
      exact ⟨rfl, shakeHands_getState hkey hshake, shakeHands_content hshake⟩
    · obtain ⟨hkey, hour, hher⟩ := decrypt_tried htries h
      rw [decrypt_first hkey htries hour hher hopen hpass] at h
      obtain ⟨rfl, rfl, rfl⟩ := ret.inj h
      exact ⟨rfl, fun hstate => absurd (getState_eq_established.mp hstate).1 (not_lt.mpr hround), rfl⟩
    · have hsecret : s.sharedSecret ≠ C.zeroSecret := by
        have hret := h
        simp only [decrypt, not_lt.mpr hlength, hest, hnonce, Bool.not_true, Bool.false_eq_true, if_true,
          if_false] at hret
        obtain ⟨_, hassert, -⟩ := bind_inv hret
        simpa using hassert
      rw [decrypt_data hlength hnonce hest hsecret hopen hpass] at h
      obtain ⟨rfl, rfl, rfl⟩ := ret.inj h
      exact ⟨rfl, fun hstate => absurd (getState_eq_established.mp hstate).1 (not_lt.mpr hround), rfl⟩

end CryptoAuth

namespace InterfaceController

open CryptoAuth

variable {C : Crypto}

/-! ## Runs -/

/-- The peer at an address. -/
def Iface.peerAt (lladdr : Sockaddr) (ici : Iface C) : Option (Peer C) :=
  match ici.peerMap.indexForKey lladdr with
  | none => none
  | some index => ici.peerMap.entries[index]?.map Map.Entry.value

/-- What can happen to an interface. A peer is named by its address on the wire or by its slot at the
switch. -/
inductive Op (C : Crypto) where
  | fromWire (now : Nat) (msg : Datagram C)
  | fromSwitch (now : Nat) (draw : Draw) (slot : Nat) (content : List UInt8)
  | ping (now : Nat)
  | pong (now : Nat) (res : PingResult) (version milliseconds slot : Nat)
  | bootstrapPeer (now : Nat) (herPublicKey : Key) (lladdr : Sockaddr) (password : List UInt8)
      (login : Option (List UInt8))
  | resetPeering (herPublicKey : Option Key)
  | disconnectPeer (herPublicKey : Key)
  | beaconState (newState : BeaconState)

/-- What is done with the peer that has the slot, if there is one. -/
def withSlot (slot : Nat) (ici : Iface C) (f : Nat → Peer C → Er (Iface C × List Out)) : Er (Iface C × List Out) :=
  match ici.peerMap.entries.findIdx? fun e => e.value.slot = slot with
  | none => .ret (ici, [])
  | some index =>
    match ici.peerMap.entries[index]? with
    | none => .ret (ici, [])
    | some e => f index e.value

def step (ici : Iface C) : Op C → Er (Iface C × List Out)
  | .fromWire now msg => handleIncomingFromWire now msg ici
  | .fromSwitch now draw slot content => withSlot slot ici fun index ep => do
      let (ici, _) ← sendFromSwitch now draw content index ep ici
      .ret (ici, [])
  | .ping now => iciPing now ici
  | .pong now res version milliseconds slot =>
      withSlot slot ici fun index ep => onPingResponse now res version milliseconds index ep ici
  | .bootstrapPeer now herPublicKey lladdr password login => do
      let (_, ici, outs) ← bootstrapPeer now herPublicKey lladdr password login ici
      .ret (ici, outs)
  | .resetPeering herPublicKey => .ret (resetPeering herPublicKey ici, [])
  | .disconnectPeer herPublicKey => do
      let (_, ici, outs) ← disconnectPeer herPublicKey ici
      .ret (ici, outs)
  | .beaconState newState => .ret (beaconState newState ici, [])

/-- A step of a run. -/
structure Step (C : Crypto) where
  before : Iface C
  op : Op C
  outs : List Out
  after : Iface C

/-- The steps of a run. -/
def trace : List (Op C) → Iface C → Er (List (Step C))
  | [], _ => .ret []
  | op :: ops, before => do
    let (after, outs) ← step before op
    let steps ← trace ops after
    .ret ({ before, op, outs, after } :: steps)

/-! ## The gate -/

/-- The label in front of the message leads to this router: its lowest byte is 1. -/
def ToRouter (content : List UInt8) : Prop := 8 ≤ content.length ∧ content.getD 7 0 = 1

instance (content : List UInt8) : Decidable (ToRouter content) := inferInstanceAs (Decidable (_ ∧ _))

/-- Whose message is handled. -/
def Op.sender : Op C → Option Sockaddr
  | .fromWire _ msg => some msg.lladdr
  | _ => none

/-- Whatever the step passes to the switch comes from a peer, in at its slot, and leads to this router unless the
peer's session is established. -/
def Step.Guarded (x : Step C) : Prop :=
  ∀ slot content, .toSwitch slot content ∈ x.outs → ∃ lladdr ep, x.op.sender = some lladdr ∧
    x.after.peerAt lladdr = some ep ∧ ep.slot = slot ∧
    (getState ep.caSession ≠ .established → ToRouter content)

/-- The message is from a peer that counts as established, its session takes it and is not established after it,
and it does not lead to this router. -/
def Step.Breach (x : Step C) : Prop :=
  ∃ now msg ep s content, x.op = .fromWire now msg ∧ msg.lladdr.bcast = false ∧
    x.before.peerAt msg.lladdr = some ep ∧ ep.incompatible = false ∧ ep.state = .ca .established ∧
    resetIfTimeout (seconds now) ep.caSession = .ret s ∧ Lapses x.before.ca s msg.content content ∧ ¬ ToRouter content

/-! ## Steps that pass nothing to the switch -/

/-- Nothing goes to the switch. -/
def Quiet (outs : List Out) : Prop := ∀ slot content, .toSwitch slot content ∉ outs

theorem quiet_nil : Quiet [] := by
  intro slot content h
  cases h

theorem Quiet.append {outs more} (h : Quiet outs) (hmore : Quiet more) : Quiet (outs ++ more) := by
  intro slot content hmem
  rcases mem_append.mp hmem with hmem | hmem
  · exact h slot content hmem
  · exact hmore slot content hmem

theorem sendPeer_quiet (ev : PeerEvent) (peer : Peer C) (latency : Nat) :
    (sendPeer ev peer latency).Ensures Quiet := by
  unfold sendPeer
  split
  · exact ensures_ret quiet_nil
  split
  · exact ensures_ret quiet_nil
  · refine ensures_bind fun _ => ensures_ret ?_
    intro slot content h
    simp at h

theorem sendPing_quiet (ep : Peer C) : Quiet (sendPing ep).2 := by
  intro slot content h
  simp [sendPing] at h

theorem closeInterface_quiet (toClose : Peer C) (ici : Iface C) :
    (closeInterface toClose ici).Ensures fun r => Quiet r.2 := by
  refine (sendPeer_quiet _ _ _).bind fun outs houts => ?_
  split
  · intro r hr
    cases hr
  · exact ensures_bind fun _ => ensures_ret houts

theorem freePeer_quiet (ep : Peer C) (ici : Iface C) : (freePeer ep ici).Ensures fun r => Quiet r.2 := by
  exact (closeInterface_quiet ep ici).bind fun r hr => ensures_ret hr

theorem pingPeer_quiet (now : Nat) (first : Bool) (index : Nat) (ep : Peer C) (ici : Iface C) :
    (pingPeer now first index ep ici).Ensures fun r => Quiet r.2.2 := by
  unfold pingPeer
  split
  · exact ensures_ret quiet_nil
  split
  · split
    · exact (sendPeer_quiet _ _ _).bind fun outs houts => ensures_ret houts
    · exact ensures_ret quiet_nil
  split
  · exact ensures_ret quiet_nil
  split
  · refine (sendPeer_quiet _ _ _).bind fun gone hgone => ?_
    exact (freePeer_quiet ep ici).bind fun r hr => ensures_ret (hgone.append hr)
  split
  · split
    · exact ensures_ret quiet_nil
    · exact (sendPeer_quiet _ _ _).bind fun gone hgone => ensures_ret (hgone.append (sendPing_quiet _))
  · exact ensures_ret (sendPing_quiet _)

theorem pingFrom_quiet (now rounds i count : Nat) (ici : Iface C) :
    (pingFrom now rounds i count ici).Ensures fun r => Quiet r.2 := by
  induction rounds generalizing i count ici with
  | zero => exact ensures_ret quiet_nil
  | succ rounds ih =>
    unfold pingFrom
    split
    · dsimp only
      split
      · exact ensures_ret quiet_nil
      · refine (pingPeer_quiet _ _ _ _ _).bind fun r hr => ?_
        split
        · exact ensures_ret hr
        · exact (ih _ _ _).bind fun more hmore => ensures_ret (hr.append hmore)
    · exact ensures_ret quiet_nil

theorem iciPing_quiet (now : Nat) (ici : Iface C) : (iciPing now ici).Ensures fun r => Quiet r.2 := by
  unfold iciPing
  dsimp only
  split
  · exact ensures_ret quiet_nil
  · exact pingFrom_quiet _ _ _ _ _

theorem onPingResponse_quiet (now : Nat) (res : PingResult) (version milliseconds index : Nat) (ep : Peer C)
    (ici : Iface C) : (onPingResponse now res version milliseconds index ep ici).Ensures fun r => Quiet r.2 := by
  unfold onPingResponse
  split
  · exact ensures_ret quiet_nil
  dsimp only
  split
  · exact ensures_ret quiet_nil
  · split
    · exact (sendPeer_quiet _ _ _).bind fun outs houts => ensures_ret houts
    · exact ensures_ret quiet_nil

theorem bootstrapPeer_quiet (now : Nat) (herPublicKey : Key) (lladdr : Sockaddr) (password : List UInt8)
    (login : Option (List UInt8)) (ici : Iface C) :
    (bootstrapPeer now herPublicKey lladdr password login ici).Ensures fun r => Quiet r.2.2 := by
  unfold bootstrapPeer
  split
  · exact ensures_ret quiet_nil
  dsimp only
  split
  · exact (closeInterface_quiet _ _).bind fun r hr => ensures_ret hr
  · exact ensures_ret (sendPing_quiet _)

theorem disconnectPeer_quiet (herPublicKey : Key) (ici : Iface C) :
    (disconnectPeer herPublicKey ici).Ensures fun r => Quiet r.2.2 := by
  unfold disconnectPeer
  split
  · exact ensures_ret quiet_nil
  · exact (freePeer_quiet _ _).bind fun r hr => ensures_ret hr

theorem acceptBeacon_quiet (now : Nat) (lladdr : Sockaddr) (password : List UInt8) (addr : Address) (ici : Iface C) :
    (acceptBeacon now lladdr password addr ici).Ensures fun r => Quiet r.2 := by
  unfold acceptBeacon
  split
  · exact ensures_ret quiet_nil
  dsimp only
  split
  · exact closeInterface_quiet _ _
  · exact (sendPeer_quiet _ _ _).bind fun outs houts => ensures_ret houts

theorem handleBeacon_quiet (now : Nat) (msg : Datagram C) (ici : Iface C) :
    (handleBeacon now msg ici).Ensures fun r => Quiet r.2 := by
  unfold handleBeacon
  split
  · exact ensures_ret quiet_nil
  split
  · exact ensures_ret quiet_nil
  split
  · exact ensures_ret quiet_nil
  refine ensures_bind fun _ => ensures_bind fun _ => ?_
  dsimp only
  split
  · exact ensures_ret quiet_nil
  split
  · exact ensures_ret quiet_nil
  split
  · exact ensures_ret quiet_nil
  · exact acceptBeacon_quiet _ _ _ _ _

variable {ici : Iface C}

theorem withSlot_quiet {slot} {f}
    (hf : ∀ index ep, (f index ep).Ensures fun r => Quiet r.2) : (withSlot slot ici f).Ensures fun r => Quiet r.2 := by
  unfold withSlot
  split
  · exact ensures_ret quiet_nil
  split
  · exact ensures_ret quiet_nil
  · exact hf _ _

theorem step_quiet {op} (hop : op.sender = none) : (step ici op).Ensures fun r => Quiet r.2 := by
  cases op with
  | fromWire now msg => cases hop
  | fromSwitch now draw slot content =>
    unfold step
    exact withSlot_quiet fun index ep => ensures_bind fun r => @ensures_ret _ _ (r.1, []) quiet_nil
  | ping now => exact iciPing_quiet now ici
  | pong now res version milliseconds slot =>
    exact withSlot_quiet fun index ep => onPingResponse_quiet now res version milliseconds index ep ici
  | bootstrapPeer now herPublicKey lladdr password login =>
    exact (bootstrapPeer_quiet _ _ _ _ _ _).bind fun r hr => ensures_ret hr
  | resetPeering herPublicKey => exact ensures_ret quiet_nil
  | disconnectPeer herPublicKey => exact (disconnectPeer_quiet _ _).bind fun r hr => ensures_ret hr
  | beaconState newState => exact ensures_ret quiet_nil

/-! ## Messages from the wire -/

theorem PeerState.value_lt {state : PeerState} :
    state.value < (PeerState.ca .established).value ↔ state ≠ .ca .established := by
  cases state with
  | ca state =>
    cases state with
    | established => simp
    | _ => simp [value]
  | _ => simp [value]

/-- A message with this content is passed on: the peer counts as established, its session is, or the message is
for this router. -/
def Passes (content : List UInt8) (ep : Peer C) : Prop :=
  ep.state = .ca .established ∨ getState ep.caSession = .established ∨ ToRouter content

theorem track_spec (now : Nat) (content : List UInt8) (ep : Peer C) (core : Switch.SwitchCore) :
    (track now content ep core).1.caSession = ep.caSession ∧ (track now content ep core).1.slot = ep.slot ∧
      Quiet (track now content ep core).2.2.2 ∧
      ((track now content ep core).2.2.1 = false ↔ Passes content ep) := by
  have hrouter : ToRouter content ↔ ¬ (content.length < 8 ∨ content.getD 7 0 ≠ 1) := by
    rw [ToRouter, not_or, not_not, not_lt]
  unfold track Passes
  dsimp only
  by_cases hstate : ep.state = .ca .established
  · rw [if_neg (fun h => PeerState.value_lt.mp h hstate), if_neg (by simp [hstate])]
    exact ⟨rfl, rfl, quiet_nil, iff_of_true rfl (.inl hstate)⟩
  rw [if_pos (PeerState.value_lt.mpr hstate)]
  split
  next hca =>
    split
    next hdrop =>
      refine ⟨rfl, rfl, quiet_nil, iff_of_false (by simp) ?_⟩
      rintro (h | h | h)
      · exact hstate h
      · exact hca h
      · exact hrouter.mp h hdrop
    next hpass =>
      have hpasses := hrouter.mpr hpass
      split
      · exact ⟨rfl, rfl, sendPing_quiet _, iff_of_true rfl (.inr (.inr hpasses))⟩
      · exact ⟨rfl, rfl, quiet_nil, iff_of_true rfl (.inr (.inr hpasses))⟩
  next hca => exact ⟨rfl, rfl, quiet_nil, iff_of_true rfl (.inr (.inl (not_not.mp hca)))⟩

/-- What the switch gets when a message has come through `CryptoAuth`, and the peer after that. -/
theorem receivedPostCryptoAuth_spec (now capacity : Nat) (content : List UInt8) (index : Nat) (ep : Peer C)
    (ici : Iface C) : (receivedPostCryptoAuth now capacity content index ep ici).Ensures fun r =>
      ∃ ep', r.1.peerMap = ici.peerMap.set index ep' ∧ ep'.caSession = ep.caSession ∧ ep'.slot = ep.slot ∧
        ∀ slot c, .toSwitch slot c ∈ r.2 ↔ slot = ep.slot ∧ c = content ∧ Passes content ep := by
  have hspec := track_spec now content ep ici.switchCore
  unfold receivedPostCryptoAuth
  generalize track now content ep ici.switchCore = tracked at hspec
  obtain ⟨ep', switchCore, dropped, pings⟩ := tracked
  obtain ⟨hsession, hslot, hquiet, hpasses⟩ := hspec
  cases dropped with
  | true =>
    refine ensures_ret ⟨ep', rfl, hsession, hslot, fun slot c => iff_of_false (hquiet slot c) ?_⟩
    exact fun h => absurd (hpasses.mpr h.2.2) (by simp)
  | false =>
    refine ensures_bind fun _ => ensures_ret ⟨ep', rfl, hsession, hslot, fun slot c => ?_⟩
    have hpass := hpasses.mp rfl
    rw [mem_append, or_iff_right (hquiet slot c), hslot]
    simp [hpass]

theorem decrypt_of_decryptAt {address capacity now} {ca} {s} {packet}
    {r : Decrypted C} (h : decryptAt address capacity ca now s packet = .ret r) : decrypt ca now s packet = .ret r := by
  unfold decryptAt at h
  split at h
  · exact h
  · obtain ⟨_, -, _, -, h⟩ := bind_inv2 h
    exact h

theorem handleKnownPeer_spec (now : Nat) (msg : Datagram C) (index : Nat) (ep : Peer C) (ici : Iface C) :
    (handleKnownPeer now msg index ep ici).Ensures fun r =>
      (ep.incompatible = true ∧ Quiet r.2) ∨
      (ep.incompatible = false ∧ ∃ s err s' content, resetIfTimeout (seconds now) ep.caSession = .ret s ∧
        decrypt ici.ca (seconds now) s msg.content = .ret (err, s', content) ∧
        ((err ≠ .none ∧ Quiet r.2) ∨
        (err = .none ∧ ∃ ep', r.1.peerMap = ici.peerMap.set index ep' ∧ ep'.caSession = s' ∧ ep'.slot = ep.slot ∧
          ∀ slot c, .toSwitch slot c ∈ r.2 ↔
            slot = ep.slot ∧ c = content ∧ Passes content { ep with caSession := s' }))) := by
  intro r h
  obtain ⟨_, -, h⟩ := bind_inv h
  have hincompatible : ep.incompatible = true ↔ ep.addr.protocolVersion ≠ 0 ∧
      (!Version.isCompatible ep.addr.protocolVersion Version.CURRENT_PROTOCOL) = true := by
    simp [Peer.incompatible]
  split at h
  next hq =>
    cases h
    exact .inl ⟨hincompatible.mpr hq, quiet_nil⟩
  next hq =>
  refine .inr ⟨by rwa [← hincompatible, Bool.not_eq_true] at hq, ?_⟩
  obtain ⟨s, htime, ⟨err, s', content⟩, hdecrypt, h⟩ := bind_inv2 h
  refine ⟨s, err, s', content, htime, decrypt_of_decryptAt hdecrypt, ?_⟩
  dsimp only at h
  split at h
  next herr =>
    cases h
    exact .inl ⟨herr, quiet_nil⟩
  next herr =>
  refine .inr ⟨not_not.mp herr, ?_⟩
  -- the pathfinder may hear that the peer is gone
  have hgone : ∃ gone rest, Quiet gone ∧ r = (rest.1, gone ++ rest.2) ∧
      receivedPostCryptoAuth now (msg.capacity - msg.lladdr.addrLen - headerSize msg.content.nonce) content index
        { ep with caSession := s' } ici = .ret rest := by
    split at h
    · obtain ⟨gone, hsend, rest, hreceived, h⟩ := bind_inv2 h
      exact ⟨gone, rest, sendPeer_quiet _ _ _ gone hsend, (ret.inj h).symm, hreceived⟩
    · rw [ret_bind] at h
      obtain ⟨rest, hreceived, h⟩ := bind_inv h
      exact ⟨[], rest, quiet_nil, (ret.inj h).symm, hreceived⟩
  obtain ⟨gone, rest, hquiet, rfl, hreceived⟩ := hgone
  obtain ⟨ep', hmap, hsession, hslot, hpasses⟩ := receivedPostCryptoAuth_spec _ _ _ _ _ _ _ hreceived
  refine ⟨ep', hmap, hsession, hslot, fun slot c => ?_⟩
  rw [mem_append, or_iff_right (hquiet slot c)]
  exact hpasses slot c

theorem peerAt_of_set {ici ici' : Iface C} {lladdr} {index} {ep}
    (hindex : ici.peerMap.indexForKey lladdr = some index) (hmap : ici'.peerMap = ici.peerMap.set index ep) :
    ici'.peerAt lladdr = some ep := by
  obtain ⟨e, hentry⟩ : ∃ e, ici.peerMap.entries[index]? = some e :=
    ⟨_, getElem?_eq_getElem (Map.lt_of_indexForKey hindex)⟩
  unfold Iface.peerAt
  rw [hmap, Map.indexForKey_set, hindex]
  dsimp only
  rw [Map.entries_set_self, hentry]
  rfl

theorem acceptPeer_spec (now capacity : Nat) (lladdr : Sockaddr) (content : List UInt8) (caSession : Session C)
    (ici : Iface C) : (acceptPeer now capacity lladdr content caSession ici).Ensures fun r =>
      ∀ slot c, .toSwitch slot c ∈ r.2 → ∃ ep, r.1.peerAt lladdr = some ep ∧ ep.slot = slot ∧
        (getState ep.caSession ≠ .established → ToRouter c) := by
  intro r h slot c hmem
  obtain ⟨_, -, _, -, h⟩ := bind_inv2 h
  dsimp only [putPeer] at h
  split at h
  · exact absurd hmem (closeInterface_quiet _ _ r h slot c)
  · obtain ⟨ep', hmap, hsession, hslot, hpasses⟩ := receivedPostCryptoAuth_spec _ _ _ _ _ _ r h
    obtain ⟨hslot', rfl, hpass⟩ := (hpasses slot c).mp hmem
    refine ⟨ep', peerAt_of_set ?_ hmap, hslot.trans hslot'.symm, fun hca => ?_⟩
    · exact (Map.indexForKey_set _ _ _ _).trans (Map.indexForKey_put lladdr _ _)
    · -- the peer does not count as established yet
      rw [hsession] at hca
      exact (hpass.resolve_left (by simp)).resolve_left hca

theorem handleUnexpectedIncoming_spec (now : Nat) (msg : Datagram C) (ici : Iface C) :
    (handleUnexpectedIncoming now msg ici).Ensures fun r =>
      ∀ slot c, .toSwitch slot c ∈ r.2 → ∃ ep, r.1.peerAt msg.lladdr = some ep ∧ ep.slot = slot ∧
        (getState ep.caSession ≠ .established → ToRouter c) := by
  have hnothing : ∀ {ici : Iface C}, (Er.ret (ici, ([] : List Out))).Ensures fun r =>
      ∀ slot c, .toSwitch slot c ∈ r.2 → ∃ ep, r.1.peerAt msg.lladdr = some ep ∧ ep.slot = slot ∧
        (getState ep.caSession ≠ .established → ToRouter c) :=
    ensures_ret fun slot c hmem => absurd hmem (quiet_nil slot c)
  refine ensures_bind fun _ => ?_
  dsimp only
  split
  · exact hnothing
  refine ensures_bind fun _ => ?_
  split
  · exact hnothing
  refine ensures_bind fun r => ?_
  split
  · exact hnothing
  · exact acceptPeer_spec _ _ _ _ _ _

/-! ## The peers that come through -/

theorem fromWire_guarded_iff {now} {msg} {ici ici' : Iface C} {outs}
    (h : handleIncomingFromWire now msg ici = .ret (ici', outs)) :
    (Step.mk ici (.fromWire now msg) outs ici').Guarded ↔ ¬ (Step.mk ici (.fromWire now msg) outs ici').Breach := by
  -- a step that passes nothing on is guarded
  have hquiet : Quiet outs → ¬ (Step.mk ici (.fromWire now msg) outs ici').Breach →
      ((Step.mk ici (.fromWire now msg) outs ici').Guarded ↔ ¬ (Step.mk ici (.fromWire now msg) outs ici').Breach) :=
    fun hquiet hbreach => iff_of_true (fun slot content hmem => absurd hmem (hquiet slot content)) hbreach
  unfold handleIncomingFromWire at h
  split at h
  next hrunt =>
    obtain ⟨rfl, rfl⟩ := ret.inj h
    refine hquiet quiet_nil ?_
    rintro ⟨_, _, ep, s, content, hop, -, -, -, -, -, hlapses, -⟩
    obtain ⟨rfl, rfl⟩ := Op.fromWire.inj hop
    have hlength := hlapses.length
    rw [msg.content_length] at hlength
    omega
  obtain ⟨_, -, _, -, h⟩ := bind_inv2 h
  split at h
  next hbcast =>
    refine hquiet (handleBeacon_quiet _ _ _ _ h) ?_
    rintro ⟨_, _, ep, s, content, hop, hbcast', -⟩
    obtain ⟨rfl, rfl⟩ := Op.fromWire.inj hop
    rw [hbcast] at hbcast'
    cases hbcast'
  next hbcast =>
  cases hindex : ici.peerMap.indexForKey msg.lladdr with
  | none =>
    rw [hindex] at h
    have hnone : ici.peerAt msg.lladdr = none := by rw [Iface.peerAt, hindex]
    refine iff_of_true ?_ ?_
    · intro slot content hmem
      obtain ⟨ep, hat, hslot, hrouter⟩ := handleUnexpectedIncoming_spec _ _ _ _ h slot content hmem
      exact ⟨msg.lladdr, ep, rfl, hat, hslot, hrouter⟩
    · rintro ⟨_, _, ep, s, content, hop, -, hat, -⟩
      obtain ⟨rfl, rfl⟩ := Op.fromWire.inj hop
      rw [hnone] at hat
      cases hat
  | some index =>
  obtain ⟨e, hentry⟩ : ∃ e, ici.peerMap.entries[index]? = some e :=
    ⟨_, getElem?_eq_getElem (Map.lt_of_indexForKey hindex)⟩
  rw [hindex] at h
  dsimp only at h
  rw [hentry] at h
  have hat : ici.peerAt msg.lladdr = some e.value := by
    rw [Iface.peerAt, hindex]
    dsimp only
    rw [hentry]
    rfl
  obtain ⟨hincompatible, hq⟩ | ⟨hcompatible, s, err, s', content, htime, hdecrypt, hdone⟩ :=
    handleKnownPeer_spec _ _ _ _ _ _ h
  · refine hquiet hq ?_
    rintro ⟨_, _, ep, s, content, hop, -, hat', hcompatible, -⟩
    obtain ⟨rfl, rfl⟩ := Op.fromWire.inj hop
    cases hat.symm.trans hat'
    rw [hincompatible] at hcompatible
    cases hcompatible
  -- what a breach says, of the peer and the session at hand
  have hbreach : (Step.mk ici (.fromWire now msg) outs ici').Breach ↔ e.value.state = .ca .established ∧
      err = .none ∧ getState s' ≠ .established ∧ ¬ ToRouter content := by
    constructor
    · rintro ⟨_, _, ep, s₁, content₁, hop, -, hat', -, hstate, htime', hlapses, hrouter⟩
      obtain ⟨rfl, rfl⟩ := Op.fromWire.inj hop
      cases hat.symm.trans hat'
      cases htime.symm.trans htime'
      obtain ⟨herr, hca, rfl⟩ := (lapses_iff hdecrypt).mpr hlapses
      exact ⟨hstate, herr, hca, hrouter⟩
    · rintro ⟨hstate, herr, hca, hrouter⟩
      exact ⟨now, msg, e.value, s, content, rfl, by simpa using hbcast, hat, hcompatible, hstate, htime,
        (lapses_iff hdecrypt).mp ⟨herr, hca, rfl⟩, hrouter⟩
  obtain ⟨herr, hq⟩ | ⟨herr, ep', hmap, hsession, hslot, hpasses⟩ := hdone
  · exact hquiet hq fun hb => herr (hbreach.mp hb).2.1
  have hat' : ici'.peerAt msg.lladdr = some ep' := peerAt_of_set hindex hmap
  rw [hbreach]
  constructor
  · rintro hguarded ⟨hstate, -, hca, hrouter⟩
    obtain ⟨lladdr, ep, hsender, hep, -, hto⟩ :=
      hguarded e.value.slot content ((hpasses _ _).mpr ⟨rfl, rfl, .inl hstate⟩)
    cases hsender
    cases hat'.symm.trans hep
    rw [hsession] at hto
    exact hrouter (hto hca)
  · intro hno slot c hmem
    obtain ⟨rfl, rfl, hpass⟩ := (hpasses slot c).mp hmem
    refine ⟨msg.lladdr, ep', rfl, hat', hslot, fun hca => ?_⟩
    rw [hsession] at hca
    rcases hpass with hstate | hestablished | hrouter
    · by_contra hrouter
      exact hno ⟨hstate, herr, hca, hrouter⟩
    · exact absurd hestablished hca
    · exact hrouter

theorem step_guarded_iff {x : Step C} (h : step x.before x.op = .ret (x.after, x.outs)) :
    x.Guarded ↔ ¬ x.Breach := by
  obtain ⟨before, op, outs, after⟩ := x
  cases hop : op.sender with
  | none =>
    refine iff_of_true ?_ ?_
    · intro slot content hmem
      exact absurd hmem (step_quiet hop _ h slot content)
    · rintro ⟨now, msg, ep, s, content, hfrom, -⟩
      obtain rfl : op = .fromWire now msg := hfrom
      cases hop
  | some lladdr =>
    cases op with
    | fromWire now msg => exact fromWire_guarded_iff h
    | _ => cases hop

theorem step_of_trace {ops} {steps} (h : trace ops ici = .ret steps) :
    ∀ x ∈ steps, step x.before x.op = .ret (x.after, x.outs) := by
  induction ops generalizing ici steps with
  | nil =>
    cases h
    intro x hx
    cases hx
  | cons op ops ih =>
    obtain ⟨⟨after, outs⟩, hstep, h⟩ := bind_inv h
    obtain ⟨rest, hrest, h⟩ := bind_inv h
    cases h
    intro x hx
    rcases mem_cons.mp hx with rfl | hx
    · exact hstep
    · exact ih hrest x hx

/-- In every run, messages of peers whose session is not established reach the switch only if they lead to this
router, if and only if no step is a breach. -/
theorem guarded_iff (C : Crypto) (ops : List (Op C)) (ici : Iface C) (steps : List (Step C))
    (h : trace ops ici = .ret steps) : (∀ x ∈ steps, x.Guarded) ↔ ∀ x ∈ steps, ¬ x.Breach :=
  forall₂_congr fun x hx => step_guarded_iff (step_of_trace h x hx)

/-! ## A second handshake -/

namespace Reopened

open Symbolic (crypto data draw hello key node)

/-- This node, and the address of a peer the administrator has told it about. -/
def start : Iface crypto := .new _ (node 2)
def lladdr : Sockaddr := { flags := 0, type := 2, prefixLen := 0, native := List.replicate 16 0 }

def datagram (content : Packet crypto) : Datagram crypto where
  address := 0
  capacity := 3496
  length := 24 + content.length
  lladdr
  content
  beacon := { version := 0, password := [], publicKey := .zero }
  aligned := by decide
  content_length := (Nat.add_sub_cancel_left 24 content.length).symm

/-- A message with a label that leads on to another node. -/
def onward : List UInt8 := [0, 0, 0, 0, 0, 0, 0, 0x13, 0, 0, 0, 0]

/-- A handshake with the peer is brought to its end. -/
def handshake : List (Op crypto) :=
  [.bootstrapPeer 0 (key 1) lladdr [7] none, .fromWire 0 (datagram (hello 4 onward)), .fromSwitch 0 (draw 5) 0 [7],
    .fromWire 0 (datagram (data onward))]

/-- The peer, or someone who has recorded it, says hello again, and its message comes through. -/
theorem hello_comes_through :
    ∃ steps, trace (handshake ++ [.fromWire 0 (datagram (hello 3 onward))]) start = .ret steps ∧
      ∃ x ∈ steps, ¬ x.Guarded := by
  refine ⟨_, rfl, _, mem_cons_of_mem _ (mem_cons_of_mem _ (mem_cons_of_mem _
    (mem_cons_of_mem _ mem_cons_self))), ?_⟩
  intro hguarded
  obtain ⟨lladdr', ep, hsender, hat, -, hrouter⟩ := hguarded 0 onward mem_cons_self
  obtain rfl : lladdr = lladdr' := Option.some.inj hsender
  have hstate := congrArg (Option.map fun ep => getState ep.caSession) hat
  have hhello : some State.receivedHello = some (getState ep.caSession) := hstate
  exact absurd (hrouter (by rw [← Option.some.inj hhello]; decide)) (by decide)

theorem guarded_handshake : ∃ steps, trace handshake start = .ret steps ∧ ∀ x ∈ steps, x.Guarded := by
  refine ⟨_, rfl, (guarded_iff crypto handshake start _ rfl).mpr ?_⟩
  intro x hx
  rintro ⟨now, msg, ep, s, content, hop, -, hat, -, hstate, -⟩
  have hstate' := congrArg (Option.map Peer.state) hat
  rw [Option.map_some, hstate] at hstate'
  rcases hx with _ | ⟨_, _ | ⟨_, _ | ⟨_, _ | ⟨_, hx⟩⟩⟩⟩
  · cases hop
  · obtain ⟨rfl, rfl⟩ := Op.fromWire.inj hop
    have hinit : some (PeerState.ca .init) = some (PeerState.ca .established) := hstate'
    cases hinit
  · cases hop
  · obtain ⟨rfl, rfl⟩ := Op.fromWire.inj hop
    have hhello : some (PeerState.ca .receivedHello) = some (PeerState.ca .established) := hstate'
    cases hhello
  · cases hx

end Reopened

end InterfaceController

end Hyperboria
