/-
No data packet is accepted twice by a session with an honest peer, over resets and
new handshakes too (`accepted_once`), and none that the peer did not send
(`received_was_sent`).

The window is emptied with every handshake, so it cannot tell alone. What the
session has accepted was sealed with a secret of the temporary key it had then. A
session that has drawn a new key has accepted nothing under it; a session that is
not established has accepted nothing under the key it has; and the window of an
established session knows all that was accepted under its key (`Window`).
-/
import Hyperboria.Crypto.Duo
import Hyperboria.Crypto.Moves

namespace Hyperboria.CryptoAuth

section
variable {C : Crypto} {net : Net C} {w w' : net.World} {e : net.Event} {i : net.Index} {s s' : Session C}
  {st st' : Stage}

/-! ## Accepting a data packet -/

/-- A data packet is accepted by a session that waits for the first one, or by one that runs and whose
window does not know it. -/
theorem Receives.data_cases {a H : Key} {packet : Packet C} {rp rp' : ReplayProtector} {err : DecryptErr}
    (h : Receives C a H packet st rp err st' rp') (herr : err = .none) (h4 : 4 ≤ packet.nonce) :
    ∃ b t k plain, C.openAfternm (C.getSharedSecret t k none) (counterNonce packet.nonce (!b)) packet.box = some plain ∧
      (st.waiting = some (b, t, k) ∧ st' = st.establish ∧ rp'.baseOffset = uint32 (packet.nonce + 1) ∨
        st.running = some (b, t, k) ∧ ¬ rp.Seen packet.nonce ∧ st' = st ∧ rp'.Seen packet.nonce) := by
  cases h with
  | unchanged hlt => exact absurd (hlt herr) (by omega)
  | rebased hne _ => exact absurd herr hne
  | greet _ _ hlt | regreet _ _ hlt | key _ _ _ hlt => exact absurd hlt (by omega)
  | establish hst _ hopen hbase => exact ⟨_, _, _, _, hopen, .inl ⟨hst, rfl, hbase⟩⟩
  | data hst _ hopen hnew hseen _ => exact ⟨_, _, _, _, hopen, .inr ⟨hst, hnew, rfl, hseen⟩⟩
  | replayed _ _ => exact nomatch herr

theorem Net.Step.accepted_cases (h : Net.Step w e w') :
    w'.accepted = w.accepted ∨ ∃ i s packet now s' content, w.sessions i = some s ∧ w.Arrives i packet ∧
      decrypt (w.context (net.node i)) now s packet = .ret (.none, s', content) ∧ 4 ≤ packet.nonce ∧
      w'.accepted = (i, packet.nonce, packet.box) :: w.accepted := by
  cases h with
  | @deliver i now s s' packet err content hs harr hret =>
    by_cases hc : err = .none ∧ 4 ≤ packet.nonce
    · obtain ⟨rfl, h4⟩ := hc
      exact .inr ⟨i, s, packet, now, s', content, hs, harr, hret, h4, if_pos ⟨rfl, h4⟩⟩
    · exact .inl (if_neg hc)
  | _ => exact .inl rfl

theorem Inv.drawn (hI : Inv w) (hp : net.HonestPeer i) (hgood : Good w.sent i st) {b : Bool} {t k : Key}
    (hst : st.waiting = some (b, t, k) ∨ st.running = some (b, t, k)) :
    Drew w.sent i b t ∧ ∃ j c q, Drew w.sent j c q ∧ C.scalarmultBase q = k := by
  have hheard : Heard w.sent i b t k → ∃ j c q, Drew w.sent j c q ∧ C.scalarmultBase q = k := fun h => by
    obtain ⟨r, hr, h4, -, -, htemp, -⟩ := h hp
    exact ⟨_, _, _, ((hI.proper r hr).data h4).1, htemp⟩
  rcases hst with hst | hst
  · obtain ⟨hdrew, hk⟩ := hgood.waiting hst
    refine ⟨hdrew, ?_⟩
    cases b with
    | true =>
      obtain ⟨j, q, hq, he⟩ := hI.late hk hp
      exact ⟨j, _, q, hq, he⟩
    | false =>
      obtain ⟨r, hr, hn, he, -⟩ := hk hp
      exact ⟨_, _, _, hI.drew_of_handshake hr hn, he⟩
  · obtain ⟨hdrew, hheard'⟩ := hgood.running hst
    exact ⟨hdrew, hheard hheard'⟩

/-- The box was sealed with temporary keys of honest nodes. -/
def Sealed (L : List net.Sent) (box : C.Cipher) : Prop :=
  ∃ j c t k d q nonce plain, Drew L j c t ∧ Drew L k d q ∧
    C.openAfternm (C.getSharedSecret t (C.scalarmultBase q) none) nonce box = some plain

theorem Sealed.mono {L L' : List net.Sent} (hsub : L ⊆ L') {box} (h : Sealed L box) : Sealed L' box := by
  obtain ⟨j, c, t, k, d, q, nonce, plain, ht, hq, hopen⟩ := h
  exact ⟨j, c, t, k, d, q, nonce, plain, ht.mono hsub, hq.mono hsub, hopen⟩

/-- What a session with an honest peer has accepted was sealed with keys that were drawn. -/
theorem sealed_of_run (hC : C.Ideal) {past : List net.World} (h : Transition.Run net.system w past) :
    ∀ i n box, (i, n, box) ∈ w.accepted → net.HonestPeer i → Sealed w.sent box := by
  refine h.invariant (I := fun w => ∀ i n box, (i, n, box) ∈ w.accepted → net.HonestPeer i → Sealed w.sent box)
    (fun w hw i n box ha => ?_) fun w past e w' hrun ih hstep i n box ha hp => ?_
  · rw [hw.2.2.1] at ha
    exact nomatch ha
  · have hsub : w.sent ⊆ w'.sent := by
      rcases Net.Step.sent_cases hstep with h | ⟨r, h, -⟩
      · rw [h]; exact fun _ h => h
      · rw [h]; exact List.subset_cons_self ..
    rcases Net.Step.accepted_cases hstep with h | ⟨j, s, packet, now, s', content, hs, harr, hret, h4, h⟩
    · exact (ih i n box (h ▸ ha) hp).mono hsub
    rw [h] at ha
    rcases List.mem_cons.mp ha with heq | ha
    · cases heq
      have hI := inv_of_run hC hrun
      obtain ⟨-, st, hat, hgood⟩ := hI.current _ s hs
      obtain ⟨-, st', -, hrec⟩ := decrypt_receives hat hret
      obtain ⟨b, t, k, plain, hopen, hst⟩ := hrec.data_cases rfl h4
      obtain ⟨ht, l, c, q, hq, rfl⟩ := hI.drawn hp hgood (hst.imp And.left And.left)
      exact ⟨_, _, _, _, _, _, _, _, ht.mono hsub, hq.mono hsub, hopen⟩
    · exact (ih i n box ha hp).mono hsub

/-- Nothing was sealed with a key that is drawn only now. -/
theorem Sealed.fresh (hC : C.Ideal) {box} (h : Sealed w.sent box) {x} (hx : w.Fresh x) {k}
    {nonce} {plain} : C.openAfternm (C.getSharedSecret x k none) nonce box ≠ some plain := by
  intro hopen
  obtain ⟨j, c, t, l, d, q, nonce', plain', ⟨r, hr, -, rfl, -⟩, ⟨r', hr', -, rfl, -⟩, hopen'⟩ := h
  obtain ⟨hsec, -⟩ := hC.open_inj hopen hopen'
  rcases Crypto.Ideal.samePair hC hsec.symm (.refl _) with ⟨he, -⟩ | ⟨-, he⟩
  · exact hx.ne_temp r hr (hC.base_inj he).symm
  · exact hx.ne_temp r' hr' (hC.base_inj he).symm

/-! ## The window -/

/-- All that was accepted under the temporary key of the session was accepted since it is established,
and the window knows it. -/
def Window (w : net.World) (i : net.Index) (rp : ReplayProtector) (st : Stage) : Prop :=
  net.HonestPeer i → ∀ {t n box k nonce plain}, st.temp = some t → (i, n, box) ∈ w.accepted →
    C.openAfternm (C.getSharedSecret t k none) nonce box = some plain → st.running.isSome = true ∧ rp.Seen n

/-- A session whose counter is at its end takes no hello with the key it holds: this key was drawn for a
key packet, and the packets sealed with the two permanent keys are hellos. -/
theorem Inv.not_met (hC : C.Ideal) (hI : Inv w) (hp : net.HonestPeer i) {t k : Key} (hasked : Asked w.sent i t k) :
    ¬ Met w.sent i k := by
  intro hmet
  obtain ⟨r₁, hr₁, h2, hlt, rfl, -, hf⟩ := hasked hp
  obtain ⟨r, hr, hn, he, hpair⟩ := hmet hp
  obtain ⟨hauthor, hkind, -⟩ := hI.drew_inj (hI.drew_of_handshake hr hn) ((hI.proper r₁ hr₁).key h2 hlt).1 he
  have h2 : ¬ r.packet.nonce < 2 := of_decide_eq_false hkind
  rw [if_neg h2] at hpair
  obtain ⟨N, hN⟩ : ∃ N, C.Alike r.her (net.pub N) := by
    rcases hpair with ⟨-, h⟩ | ⟨-, h⟩
    · exact ⟨_, h.trans hf.1⟩
    · exact ⟨_, h⟩
  rcases ((hI.proper r hr).key (by omega) hn).2 with hmet | hlate
  · obtain ⟨r₂, hr₂, -, he₂, -⟩ := hmet (hauthor ▸ hf.symm.honestPeer)
    exact hI.temp_not_alike hC hr₂ N (he₂ ▸ hN)
  · obtain ⟨j, q, hq, he₂⟩ := hlate (hauthor ▸ hf.symm.honestPeer)
    exact hI.not_alike_pub hC hq N (he₂ ▸ hN)

section receives
variable {packet : Packet C} {rp rp' : ReplayProtector} {err : DecryptErr}

/-- The window knows a data packet the session has just accepted. -/
theorem Receives.seen (hC : C.Ideal) (hI : Inv w) (hp : net.HonestPeer i) (hgood : Good w.sent i st)
    (harr : w.Arrives i packet) (h : Receives C (net.priv (net.node i)) (net.peer i) packet st rp err st' rp')
    (herr : err = .none) (h4 : 4 ≤ packet.nonce) : st'.running.isSome = true ∧ rp'.Seen packet.nonce := by
  obtain ⟨b, t, k, plain, hopen, ⟨hst, rfl, hbase⟩ | ⟨hst, -, rfl, hseen⟩⟩ := h.data_cases herr h4
  · refine ⟨by rw [Stage.establish_running hst]; rfl, .inl ?_⟩
    -- the packet is not one of the last before the counter comes round
    obtain ⟨hdrew, hkeys⟩ := hgood.waiting hst
    obtain ⟨r, -, -, hlt, -⟩ := hI.heard hC harr hp hdrew hkeys h4 hopen
    rw [hbase, uint32]
    omega
  · exact ⟨by rw [hst]; rfl, hseen⟩

/-- The window still knows what was accepted before. -/
theorem Window.receives (hC : C.Ideal) (hI : Inv w) (hgood : Good w.sent i st) (harr : w.Arrives i packet)
    (hw : Window w i rp st) (h : Receives C (net.priv (net.node i)) (net.peer i) packet st rp err st' rp') :
    Window w i rp' st' := by
  intro hp t n box k nonce plain ht ha hopen
  cases h with
  | unchanged _ => exact hw hp ht ha hopen
  | rebased _ hwait =>
    obtain ⟨v, hv⟩ := Option.isSome_iff_exists.mp hwait
    have hrun := (hw hp ht ha hopen).1
    rw [Stage.running_of_waiting hv] at hrun
    exact nomatch hrun
  | greet _ _ _ => exact nomatch ht
  | regreet hopen' hst _ =>
    cases st with
    | greeted y => exact nomatch ht
    | keyed k y => exact nomatch (hw hp ht ha hopen).1
    | late t y k n =>
      cases hst
      exact absurd (hI.met hC harr hopen') (hI.not_met hC hp hgood.2.1)
    | _ => exact nomatch hst
  | key hst _ _ _ =>
    obtain ⟨m, htake⟩ := Stage.take_eq hst (Key.ofBytes _)
    obtain ⟨htemp, hnone⟩ := Stage.of_asker hst
    rw [htake] at ht
    have hrun := (hw hp (htemp.trans ht) ha hopen).1
    rw [hnone] at hrun
    exact nomatch hrun
  | establish hst _ _ _ =>
    have htemp := Stage.temp_of_secret (.inl hst)
    rw [Stage.temp_of_secret (.inr (Stage.establish_running hst))] at ht
    have hrun := (hw hp (htemp.trans ht) ha hopen).1
    rw [Stage.running_of_waiting hst] at hrun
    exact nomatch hrun
  | data _ _ _ _ _ hkeep | replayed _ hkeep =>
    obtain ⟨hrun, hseen⟩ := hw hp ht ha hopen
    exact ⟨hrun, hkeep _ hseen⟩

end receives

theorem Window.moves (hC : C.Ideal) (hI : Inv w)
    (hseal : ∀ i n box, (i, n, box) ∈ w.accepted → net.HonestPeer i → Sealed w.sent box) (hgood : Good w.sent i st)
    (hw : Window w i s.replayProtector st) (h : Moves w e w' i s st s' st') : Window w' i s'.replayProtector st' := by
  intro hp t n box k nonce plain ht ha hopen
  cases h with
  | stay hs _ haccepted _ => exact hs ▸ hw hp ht (haccepted ha) hopen
  | hello r hfresh _ _ _ _ _ haccepted _ =>
    cases ht
    exact absurd hopen ((hseal i n box (haccepted ▸ ha) hp).fresh hC hfresh)
  | send r hsend hidle hfresh _ _ _ _ _ hwindow haccepted _ =>
    rw [haccepted] at ha
    rcases hsend.temp hidle with htemp | ⟨h2, htemp⟩
    · obtain ⟨hrun, hseen⟩ := hw hp (htemp ▸ ht) ha hopen
      exact ⟨hsend.running ▸ hrun, hwindow ▸ hseen⟩
    · cases htemp.symm.trans ht
      exact absurd hopen ((hseal i n box ha hp).fresh hC (hfresh h2))
  | receive _ harr hrec _ haccepted _ =>
    rw [haccepted] at ha
    rcases Net.World.mem_acceptedAfter ha with ha | ⟨heq, herr, h4⟩
    · exact hw.receives hC hI hgood harr hrec hp ht ha hopen
    · cases heq
      exact hrec.seen hC hI hp hgood harr herr h4

/-! ## Runs -/

theorem window_of_run (hC : C.Ideal) {past} (h : Transition.Run net.system w past) :
    ∀ i s, w.sessions i = some s → ∃ st, At s st ∧ Good w.sent i st ∧ Window w i s.replayProtector st :=
  (staged_of_run (P := fun w i s st => Window w i s.replayProtector st) hC id id (fun _ _ _ _ _ _ _ _ ht => nomatch ht)
    (fun hrun _ hI _ _ _ hgood hw hm => hw.moves hC hI (sealed_of_run hC hrun) hgood hm) h).2

/-- A session with an honest peer never accepts a data packet twice, in any run. -/
theorem accepted_once (hC : C.Ideal) {w : net.World} {past : List net.World}
    (hrun : Transition.Run net.system w past) {i : net.Index} (hp : net.HonestPeer i) :
    (w.accepted.filter fun a => a.1 = i).Nodup := by
  refine hrun.invariant (I := fun w => (w.accepted.filter fun a => a.1 = i).Nodup) (fun w hw => ?_)
    fun w past e w' hrun ih hstep => ?_
  · rw [hw.2.2.1]
    exact List.nodup_nil
  · rcases Net.Step.accepted_cases hstep with h | ⟨j, s, packet, now, s', content, hs, harr, hret, h4, h⟩
    · rw [h]; exact ih
    rw [h]
    by_cases hij : j = i
    · subst hij
      rw [List.filter_cons_of_pos (by simp)]
      refine List.nodup_cons.mpr ⟨fun hmem => ?_, ih⟩
      have ha := List.mem_of_mem_filter hmem
      obtain ⟨st, hat, -, hw⟩ := window_of_run hC hrun j s hs
      obtain ⟨-, st', -, hrec⟩ := decrypt_receives hat hret
      obtain ⟨b, t, k, plain, hopen, hst⟩ := hrec.data_cases rfl h4
      obtain ⟨hrun, hseen⟩ := hw hp (Stage.temp_of_secret (hst.imp And.left And.left)) ha hopen
      rcases hst with ⟨hst, -⟩ | ⟨-, hnew, -⟩
      · rw [Stage.running_of_waiting hst] at hrun
        exact nomatch hrun
      · exact hnew hseen
    · rw [List.filter_cons_of_neg (by simp [hij])]
      exact ih

/-! ## What is received was sent -/

/-- Data that a session with an honest peer takes in was sent under this nonce by a session of that peer for
this node, in any run. -/
theorem received_was_sent (hC : C.Ideal) {past} (hrun : Transition.Run net.system w past) (hp : net.HonestPeer i)
    {packet now content} (hs : w.sessions i = some s) (harr : w.Arrives i packet) (h4 : 4 ≤ packet.nonce)
    (hret : decrypt (w.context (net.node i)) now s packet = .ret (.none, s', content)) :
    ∃ r ∈ w.sent, net.Facing i r.author ∧ r.packet.nonce = packet.nonce ∧ r.msg = content := by
  have hI := inv_of_run hC hrun
  obtain ⟨-, st, hat, hgood⟩ := hI.current i s hs
  obtain ⟨t, k, hopen, hdrew, hheard⟩ : ∃ t k, C.openAfternm (C.getSharedSecret t k none)
      (counterNonce packet.nonce (!s.isInitiator)) packet.box = some content ∧ Drew w.sent i s.isInitiator t ∧
      Heard w.sent i s.isInitiator t k := by
    obtain ⟨herr, -⟩ | ⟨herr, -⟩ | ⟨-, ⟨-, -, he, hn⟩, hopen, -⟩ | ⟨he, -, hopen, -⟩ | ⟨hlt, -⟩ := decrypt_cases hret
    · exact absurd rfl herr
    · exact absurd rfl herr
    · obtain ⟨hdrew, hkeys⟩ := hgood.waiting (waiting_of_nextNonce hat he hn)
      obtain ⟨r, hr, hsame, -, h⟩ := hI.heard hC harr hp hdrew hkeys h4 hopen
      exact ⟨_, _, hopen, hdrew, fun _ => ⟨r, hr, by omega, h⟩⟩
    · obtain ⟨t, k, hst, hsecret⟩ := running_of_established hat he
      exact ⟨t, k, hsecret ▸ hopen, hgood.running hst⟩
    · omega
  obtain ⟨r₁, hr₁, h4₁, hf, -, rfl, -⟩ := hheard hp
  have hdrew₁ := ((hI.proper r₁ hr₁).data h4₁).1
  have hpub : ∀ {N x hash},
      C.getSharedSecret t (C.scalarmultBase r₁.temp) none ≠ C.getSharedSecret (net.priv N) x hash := by
    intro N x hash hsec
    rcases Crypto.Ideal.samePair hC hsec (.refl _) with ⟨h, -⟩ | ⟨-, h⟩
    · exact hI.not_alike_pub hC hdrew N h
    · exact hI.not_alike_pub hC hdrew₁ N h
  obtain ⟨r, hr, hopened⟩ := hI.opened hC harr hopen ⟨t, r₁.temp, none, hdrew.isHonest, hdrew₁.isHonest, rfl⟩
  cases hopened with
  | hello _ _ hsec _ => exact absurd hsec hpub
  | key _ _ _ hsec _ => exact absurd hsec hpub
  | data h4' hlt hsec hnonce hplain =>
    obtain ⟨hsame, hi⟩ := counterNonce_inj h4 h4' packet.nonce_lt (by omega) hnonce
    have hdrew₂ := ((hI.proper r hr).data h4').1
    rw [← hi] at hdrew₂
    rcases Crypto.Ideal.samePair hC hsec (.refl _) with ⟨h, -⟩ | ⟨-, h⟩
    · -- our own end seals with the other half of the nonces
      exact absurd (hI.drew_inj hdrew hdrew₂ (hC.base_inj h)).2.1 (by simp)
    · exact ⟨r, hr, (hI.drew_inj hdrew₁ hdrew₂ (hC.base_inj h)).1 ▸ hf, hsame.symm, hplain.symm⟩

/-- The key in a hello to an honest node is never known to the attacker. -/
theorem hello_key_secret (hC : C.Ideal) {past} (hrun : Transition.Run net.system w past) {r} (hr : r ∈ w.sent)
    (hn : r.packet.nonce < 2) (hp : net.HonestPeer r.author) : ¬ w.Knows (C.scalarmultBase r.temp) := by
  have hI := inv_of_run hC hrun
  exact fun hk => hI.not_hidden_of_knows hC hk (((hI.proper r hr).hello hn).hidden hp)

end

theorem accepted_once_shake : ∃ (w : duo.World) (past : List duo.World), Transition.Run duo.system w past ∧
    w.accepted.isEmpty = false ∧ (w.accepted.filter fun a => a.1 = false).Nodup := by
  obtain ⟨w, past, hrun, hw⟩ := @Duo.exists_run (Duo.shake ++ [.deliver false 2]) (fun w => !w.accepted.isEmpty)
    (by decide +kernel)
  exact ⟨w, past, hrun, by simpa using hw, accepted_once Symbolic.ideal hrun (Duo.honestPeer false)⟩

theorem received_was_sent_shake : ∃ (w : duo.World) (past : List duo.World) (i : Bool) (r : duo.Sent),
    Transition.Run duo.system w past ∧ r ∈ w.sent ∧ duo.Facing i r.author ∧ 4 ≤ r.packet.nonce := by
  obtain ⟨w, past, hrun, hw⟩ := @Duo.exists_run Duo.shake.dropLast
    (fun w => w.accepted.isEmpty && (Duo.move w (.deliver false 2)).any (!·.accepted.isEmpty)) (by decide +kernel)
  simp only [Bool.and_eq_true, Option.any_eq_true] at hw
  obtain ⟨hnone, w', hmove, hsome⟩ := hw
  obtain ⟨e, -, hstep⟩ := Duo.step_of_move hmove
  rcases hstep.accepted_cases with h | ⟨i, s, packet, now, s', content, hs, harr, hret, h4, -⟩
  · simp [h, hnone] at hsome
  · obtain ⟨r, hr, hf, hn, -⟩ := received_was_sent Symbolic.ideal hrun (Duo.honestPeer i) hs harr h4 hret
    exact ⟨w, past, i, r, hrun, hr, hf, hn ▸ h4⟩

theorem hello_key_secret_shake : ∃ (w : duo.World) (past : List duo.World) (r : duo.Sent),
    Transition.Run duo.system w past ∧ r ∈ w.sent ∧
    ¬ w.Knows (Symbolic.crypto.scalarmultBase r.temp) := by
  obtain ⟨w, past, hrun, hw⟩ := @Duo.exists_run Duo.shake (fun w => w.sent.any (·.packet.nonce < 2)) (by decide +kernel)
  obtain ⟨r, hr, hn⟩ := List.any_eq_true.mp hw
  exact ⟨w, past, r, hrun, hr, hello_key_secret Symbolic.ideal hrun hr (of_decide_eq_true hn) (Duo.honestPeer r.author)⟩

end Hyperboria.CryptoAuth
