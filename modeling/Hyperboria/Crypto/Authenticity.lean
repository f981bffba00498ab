/-
An established session is established with the right peer: whatever the attacker
does, the secret an honest node has settled on for an honest peer was held before
by a session of that peer for this node, as the other end (`established_authentic`).
-/
import Hyperboria.Crypto.Duo
import Hyperboria.Crypto.Moves

namespace Hyperboria.CryptoAuth

section
variable {C : Crypto} {net : Net C}

/-! ## Becoming established -/

/-- An established session was so before with the same secret, or a session that faces it has sent
data under this secret as the other end. -/
theorem Inv.established_step (hC : C.Ideal) {w w'} {e} (hI : Inv w) (h : Net.Step w e w')
    {i} {s'} (hp : net.HonestPeer i) (hs' : w'.sessions i = some s')
    (he : s'.established = true) :
    (∃ s, w.sessions i = some s ∧ s.established = true ∧ s.sharedSecret = s'.sharedSecret ∧
      s.isInitiator = s'.isInitiator) ∨
    ∃ r ∈ w.sent, net.Facing i r.author ∧ r.session.sharedSecret = s'.sharedSecret ∧
      r.session.isInitiator = !s'.isInitiator := by
  rcases h.moves hC hI hs' with hidle | ⟨s, hs, hfrom⟩
  · exact absurd (hidle.established_iff.mp he) (by decide)
  obtain ⟨-, st, hat, hgood⟩ := hI.current i s hs
  rcases hfrom hat hgood with hidle | ⟨st', hat', -, hmoves⟩
  · exact absurd (hidle.established_iff.mp he) (by decide)
  obtain ⟨⟨b, t, h⟩, hst'⟩ := Option.isSome_iff_exists.mp (hat'.established_iff.mp he)
  obtain ⟨hi', hsec'⟩ := hat'.of_running hst'
  -- the stage before was running with the same keys
  have hkeep : st'.running = st.running → ∃ s, w.sessions i = some s ∧ s.established = true ∧
      s.sharedSecret = s'.sharedSecret ∧ s.isInitiator = s'.isInitiator := fun hrun => by
    have hst := hrun.symm.trans hst'
    obtain ⟨hi, hsec⟩ := hat.of_running hst
    exact ⟨s, hs, hat.established_iff.mpr (by rw [hst]; rfl), hsec.trans hsec'.symm, hi.trans hi'.symm⟩
  cases hmoves with
  | stay _ _ _ _ => exact .inl (hkeep rfl)
  | hello _ _ _ _ _ _ _ _ _ => exact nomatch hst'
  | send _ hsend _ _ _ _ _ _ _ _ _ _ => exact .inl (hkeep hsend.running)
  | receive _ harr hrec _ _ _ =>
    generalize s.replayProtector = rp, s'.replayProtector = rp' at hrec
    cases hrec with
    | greet _ _ _ => exact nomatch hst'
    | key hst _ _ _ =>
      obtain ⟨n, htake⟩ := Stage.take_eq hst (Key.ofBytes _)
      rw [htake] at hst'
      exact nomatch hst'
    | establish hst hnonce hopen _ =>
      obtain ⟨hdrew, hkeys⟩ := hgood.waiting hst
      obtain ⟨r, hr, hsame, -, hf, hi, htemp, hher⟩ := hI.heard hC harr hp hdrew hkeys hnonce hopen
      rw [Stage.establish_running hst] at hst'
      cases hst'
      refine .inr ⟨r, hr, hf, ?_, by rw [hi, hi']⟩
      rw [(hI.proper r hr).secret (by omega), hsec', hher, ← htemp]
      exact hC.shared_comm _ _ _
    | _ => exact .inl (hkeep rfl)

/-! ## Runs -/

/-- What a packet says of its sender was so at some time. -/
theorem sent_of_run {w} {past} (h : Transition.Run net.system w past) :
    ∀ r ∈ w.sent, ∃ w' ∈ w :: past, w'.sessions r.author = some r.session := by
  refine h.invariant_past (I := fun w past => ∀ r ∈ w.sent, ∃ w' ∈ w :: past, w'.sessions r.author = some r.session)
    (fun w hw r hr => ?_) fun w past e w' _ ih hstep r hr => ?_
  · rw [hw.2.1] at hr
    exact nomatch hr
  · have hold : r ∈ w.sent → ∃ w₁ ∈ w' :: w :: past, w₁.sessions r.author = some r.session := fun hr => by
      obtain ⟨w₁, hw₁, hs⟩ := ih r hr
      exact ⟨w₁, List.mem_cons_of_mem _ hw₁, hs⟩
    rcases Net.Step.sent_cases hstep with hsent | ⟨r', hsent, hs, -⟩
    · exact hold (hsent ▸ hr)
    · rw [hsent] at hr
      rcases List.mem_cons.mp hr with rfl | hr
      · exact ⟨w', List.mem_cons_self, hs⟩
      · exact hold hr

theorem held_of_run (hC : C.Ideal) {w} {past} (h : Transition.Run net.system w past)
    {i} (hp : net.HonestPeer i) : ∀ s, w.sessions i = some s → s.established = true →
      ∃ w' ∈ past, ∃ j s', w'.sessions j = some s' ∧ net.Facing i j ∧ s'.sharedSecret = s.sharedSecret ∧
        s'.isInitiator = !s.isInitiator := by
  refine h.invariant_past (I := fun w past => ∀ s, w.sessions i = some s → s.established = true →
      ∃ w' ∈ past, ∃ j s', w'.sessions j = some s' ∧ net.Facing i j ∧ s'.sharedSecret = s.sharedSecret ∧
        s'.isInitiator = !s.isInitiator) (fun w hw s hs => ?_) fun w past e w' hrun ih hstep s' hs' he => ?_
  · rw [hw.1] at hs
    exact nomatch hs
  · rcases (inv_of_run hC hrun).established_step hC hstep hp hs' he with ⟨s, hs, he, hsec, hi⟩ | ⟨r, hr, hf, hsec, hi⟩
    · obtain ⟨w₁, hw₁, j, s₁, hs₁, hf, hsec₁, hi₁⟩ := ih s hs he
      exact ⟨w₁, List.mem_cons_of_mem _ hw₁, j, s₁, hs₁, hf, hsec₁.trans hsec, by rw [hi₁, hi]⟩
    · obtain ⟨w₁, hw₁, hs₁⟩ := sent_of_run hrun r hr
      exact ⟨w₁, hw₁, r.author, r.session, hs₁, hf, hsec, hi⟩

/-- Whenever a session of the honest node `A` for the honest node `B` is established, a session of `B`
for `A` has held the same secret before, as the other end. A session is for a node if its key is like that
of the node: the highest bit of a key plays no part in an exchange, and may be another one at the two ends. -/
theorem established_authentic (hC : C.Ideal) {w : net.World} {past : List net.World}
    (hrun : Transition.Run net.system w past) {A B : net.Node} {i : net.Index} {s : Session C}
    (hA : net.node i = A) (hB : C.Alike (net.peer i) (net.pub B)) (hs : w.sessions i = some s)
    (he : s.established = true) :
    ∃ w' ∈ past, ∃ j s', w'.sessions j = some s' ∧ net.node j = B ∧ C.Alike (net.peer j) (net.pub A) ∧
      s'.sharedSecret = s.sharedSecret ∧ s'.isInitiator = !s.isInitiator := by
  obtain ⟨w', hw', j, s', hs', hf, hsec, hi⟩ := held_of_run hC hrun ⟨B, hB⟩ s hs he
  exact ⟨w', hw', j, s', hs', net.distinct (hC.base_inj (hf.1.symm.trans hB)), hA ▸ hf.2, hsec, hi⟩

end

theorem established_authentic_shake : ∃ (w : duo.World) (past : List duo.World) (s : Session Symbolic.crypto),
    Transition.Run duo.system w past ∧ w.sessions false = some s ∧ s.established = true ∧
    ∃ w' ∈ past, ∃ j s', w'.sessions j = some s' ∧ duo.node j = true ∧
      Symbolic.crypto.Alike (duo.peer j) (duo.pub false) ∧ s'.sharedSecret = s.sharedSecret ∧ s'.isInitiator = !s.isInitiator := by
  obtain ⟨w, past, hrun, hw⟩ := @Duo.exists_run Duo.shake (fun w => (w.sessions false).any (·.established))
    (by decide +kernel)
  cases hs : w.sessions false with
  | none =>
    rw [hs] at hw
    exact nomatch hw
  | some s =>
    rw [hs] at hw
    exact ⟨w, past, s, hrun, hs, hw,
      @established_authentic _ _ Symbolic.ideal w past hrun false true false s rfl (.of_eq rfl) hs hw⟩

end Hyperboria.CryptoAuth
