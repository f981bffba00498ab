/-
The network seen from one session: in a step the session stays as it was, starts
over, or makes one move of the machine of stages (`Moves`). From this comes the
rule for all that is to be shown of sessions and what they have sent and accepted
(`staged_of_run`): it holds of an idle session, and every move keeps it.
-/
import Hyperboria.Crypto.Invariant

namespace Hyperboria.CryptoAuth

open Function

/-- The temporary key of the session, private, that its data is or will be sealed with. -/
def Stage.temp : Stage → Option Key
  | helloed x => some x
  | keyed k _ => some k
  | talking x _ _ => some x
  | settled _ t _ _ => some t
  | late t _ _ _ => some t
  | _ => none

section
variable {C : Crypto} {net : Net C}

variable {st : Stage}

/-! ## What a stage says of keys and secret -/

theorem At.established_iff {s : Session C} (hs : At s st) :
    s.established = true ↔ st.running.isSome = true := by
  cases st with
  | talking x k n | settled b t h n => simp [Stage.running, hs.2.2.2.2.1]
  | late t h k n => simp [Stage.running, hs.2.2.2.1]
  | _ => simp [Stage.running, hs.2.2.1]

variable {b : Bool} {t : Key}

theorem At.of_running {s} {h} (hs : At s st) (hst : st.running = some (b, t, h)) :
    s.isInitiator = b ∧ s.sharedSecret = C.getSharedSecret t h none := by
  cases st with
  | settled b t h n => cases hst; exact ⟨hs.2.2.2.1, hs.2.2.2.2.2.2.2.2.2⟩
  | late t h k n => cases hst; exact ⟨hs.2.2.1, hs.2.2.2.2.2.2.2.2⟩
  | _ => exact nomatch hst

theorem Stage.establish_running {h} (hst : st.waiting = some (b, t, h)) :
    st.establish.running = some (b, t, h) := by
  cases st with
  | keyed k y => exact hst
  | talking x k n =>
    simp only [Stage.establish]
    split
    · exact hst
    · exact hst
  | _ => cases hst

theorem Sends.running {a H} {draw} {hash} {msg} {st'} {n}
    {letter} (h : Sends C a H draw hash msg st n letter st') : st'.running = st.running := by
  cases h with
  | _ => rfl

theorem Sends.temp {a H} {draw} {hash} {msg} {st'} {n}
    {letter} (h : Sends C a H draw hash msg st n letter st') (hst : st ≠ .idle) :
    st'.temp = st.temp ∨ (n = 2 ∧ st'.temp = some draw.tempPrivKey) := by
  cases h with
  | hello => exact absurd rfl hst
  | key y => exact .inr ⟨rfl, rfl⟩
  | _ => exact .inl rfl

theorem Stage.running_of_waiting {v} (h : st.waiting = some v) : st.running = none := by
  cases st with
  | settled b t h' n => exact nomatch h
  | late t h' k n => exact nomatch h
  | _ => rfl

theorem Stage.temp_of_secret {k} (h : st.waiting = some (b, t, k) ∨ st.running = some (b, t, k)) :
    st.temp = some t := by
  cases st with
  | idle | helloed x | greeted y => rcases h with h | h <;> exact nomatch h
  | _ => rcases h with h | h <;> cases h; rfl

theorem Stage.of_asker {x} (h : st.asker = some x) : st.temp = some x ∧ st.running = none := by
  cases st with
  | helloed x => exact ⟨h, rfl⟩
  | talking x k n => exact ⟨h, rfl⟩
  | _ => exact nomatch h

/-! ## Moves -/

/-- A step of the network as a move of the session `i`, from `s` at the stage `st` to `s'` at a stage. -/
inductive Moves (w : net.World) (e : net.Event) (w' : net.World) (i : net.Index) (s : Session C) (st : Stage)
    (s' : Session C) : Stage → Prop where
  | stay (hs : s' = s) (hheld : w'.held i = w.held i ∨ (s.herTempPubKey = .zero ∧ w'.held i = []))
      (haccepted : ∀ {a}, (i, a) ∈ w'.accepted → (i, a) ∈ w.accepted)
      (hsent : ∀ {r}, r ∈ w'.sent → r ∈ w.sent ∨ r.author ≠ i) : Moves w e w' i s st s' st
  | hello {x : Key} (r : net.Sent) (hfresh : w.Fresh x) (hsent : w'.sent = r :: w.sent) (hauthor : r.author = i)
      (hsession : r.session = s') (hnonce : r.packet.nonce = 0) (htime : r.time = w.sent.length)
      (haccepted : w'.accepted = w.accepted) (hheld : w'.held i = Net.World.heldAfter s s' (w.held i)) :
      Moves w e w' i s st s' (.helloed x)
  | send {draw : Draw} {hash : Option Key} {n : Nat} {letter : Letter} {st' : Stage} (r : net.Sent)
      (hsend : Sends C (net.priv (net.node i)) (net.peer i) draw hash r.msg st n letter st') (hst : st ≠ .idle)
      (hfresh : n = 2 → w.Fresh draw.tempPrivKey) (hsent : w'.sent = r :: w.sent) (hauthor : r.author = i)
      (hsession : r.session = s') (hnonce : r.packet.nonce = n) (htime : r.time = w.sent.length)
      (hwindow : s'.replayProtector = s.replayProtector)
      (haccepted : w'.accepted = w.accepted) (hheld : w'.held i = Net.World.heldAfter s s' (w.held i)) :
      Moves w e w' i s st s' st'
  | receive {packet : Packet C} {err : DecryptErr} {st' : Stage} (hevent : e = .deliver i packet)
      (harr : w.Arrives i packet)
      (hrec : Receives C (net.priv (net.node i)) (net.peer i) packet st s.replayProtector err st' s'.replayProtector)
      (hsent : w'.sent = w.sent) (haccepted : w'.accepted = w.acceptedAfter i packet err)
      (hheld : w'.held i = Net.World.heldAfter s s' (w.held i)) : Moves w e w' i s st s' st'

/-- The step is a move of the session that stands at `st`, or the session starts over. -/
def MovesFrom (w : net.World) (e : net.Event) (w' : net.World) (i : net.Index) (s : Session C) (st : Stage)
    (s' : Session C) : Prop :=
  At s' .idle ∨ ∃ st', At s' st' ∧ Good w'.sent i st' ∧ Moves w e w' i s st s' st'

variable {w w' : net.World} {e : net.Event} {i j : net.Index} {s s' : Session C} {st : Stage}

theorem update_sessions {f : net.Index → Option (Session C)} {s₁}
    (h : Function.update f i (some s') j = some s₁) : (j = i ∧ s₁ = s') ∨ (j ≠ i ∧ f j = some s₁) := by
  by_cases hij : j = i
  · subst hij
    rw [update_self] at h
    exact .inl ⟨rfl, (Option.some.inj h).symm⟩
  · rw [update_of_ne hij] at h
    exact .inr ⟨hij, h⟩

/-- What a step adds to the packets sent. -/
theorem Net.Step.sent_cases (h : Net.Step w e w') :
    w'.sent = w.sent ∨ ∃ r, w'.sent = r :: w.sent ∧ w'.sessions r.author = some r.session ∧
      r.time = w.sent.length := by
  cases h with
  | send hs hret hfresh hmsg => exact .inr ⟨_, rfl, update_self .., rfl⟩
  | _ => exact .inl rfl

theorem Net.World.mem_acceptedAfter {packet} {err} {a}
    (h : a ∈ w.acceptedAfter i packet err) :
    a ∈ w.accepted ∨ (a = (i, packet.nonce, packet.box) ∧ err = .none ∧ 4 ≤ packet.nonce) := by
  rw [Net.World.acceptedAfter] at h
  split at h
  next hc =>
    rcases List.mem_cons.mp h with rfl | h
    · exact .inr ⟨rfl, hc⟩
    · exact .inl h
  · exact .inl h

theorem Resets.moves (h : Resets s s') (hat : At s st) (hgood : Good w.sent i st) :
    MovesFrom w e (w.put i s s') i s st s' := by
  rcases h with rfl | ⟨s₀, -, rfl⟩
  · have hheld : (w.put i s' s').held i = Net.World.heldAfter s' s' (w.held i) := update_self ..
    refine .inr ⟨st, hat, hgood, .stay rfl ?_ id .inl⟩
    by_cases hz : s'.herTempPubKey = .zero
    · exact .inr ⟨hz, by rw [hheld, Net.World.heldAfter, if_pos hz]⟩
    · exact .inl (by rw [hheld, Net.World.heldAfter, if_neg hz, if_pos rfl])
  · exact .inl (at_reset s₀)

/-- Every step is, for every session it leaves, a move of this session or none. -/
theorem Net.Step.moves (hC : C.Ideal) (hI : Inv w) (h : Net.Step w e w') (hs' : w'.sessions i = some s') :
    At s' .idle ∨ ∃ s, w.sessions i = some s ∧
      ∀ {st}, At s st → Good w.sent i st → MovesFrom w e w' i s st s' := by
  -- what the session `j` does leaves `i` alone
  have hother : ∀ {j : net.Index} {s₁ s₁' : Session C}, j ≠ i → (w.put j s₁ s₁').held i = w.held i :=
    fun hij => update_of_ne hij.symm ..
  cases h with
  | users users =>
    exact .inr ⟨s', hs', fun hat hgood => .inr ⟨_, hat, hgood, .stay rfl (.inl rfl) id .inl⟩⟩
  | create hnew hpeer =>
    obtain ⟨rfl, rfl⟩ | ⟨hij, hs⟩ := update_sessions hs'
    · exact .inl (at_newSession ..)
    · exact .inr ⟨s', hs, fun hat hgood => .inr ⟨_, hat, hgood, .stay rfl (.inl (hother hij.symm)) id .inl⟩⟩
  | setAuth password login hs =>
    obtain ⟨rfl, rfl⟩ | ⟨hij, hs⟩ := update_sessions hs'
    · exact .inr ⟨_, hs, fun hat hgood => (setAuth_resets password login _).moves hat hgood⟩
    · exact .inr ⟨s', hs, fun hat hgood => .inr ⟨_, hat, hgood, .stay rfl (.inl (hother hij.symm)) id .inl⟩⟩
  | reset hs =>
    obtain ⟨rfl, rfl⟩ | ⟨hij, hs⟩ := update_sessions hs'
    · exact .inl (at_reset _)
    · exact .inr ⟨s', hs, fun hat hgood => .inr ⟨_, hat, hgood, .stay rfl (.inl (hother hij.symm)) id .inl⟩⟩
  | timeout hs hret =>
    obtain ⟨rfl, rfl⟩ | ⟨hij, hs⟩ := update_sessions hs'
    · exact .inr ⟨_, hs, fun hat hgood => (resetIfTimeout_resets hret).moves hat hgood⟩
    · exact .inr ⟨s', hs, fun hat hgood => .inr ⟨_, hat, hgood, .stay rfl (.inl (hother hij.symm)) id .inl⟩⟩
  | @send j now draw msg s₁ s₁' packet hs hret hfresh hmsg =>
    obtain ⟨rfl, rfl⟩ | ⟨hij, hs⟩ := update_sessions hs'
    · refine .inr ⟨_, hs, fun {st} hat hgood => .inr ?_⟩
      obtain ⟨-, st₀, n, st', hash, letter, hst₀, hn, hsend, hat', hbox⟩ := encrypt_sends hat hret
      rw [(hI.current i s₁ hs).1] at hsend
      have hgood₀ := hgood.start hst₀
      obtain ⟨-, hgood', -⟩ := hI.sends (r := ⟨i, s', packet, msg, w.sent.length⟩) hgood₀ hat' hsend hn hbox
      refine ⟨st', hat', hgood', ?_⟩
      have hheld : (w.put i s₁ s').held i = Net.World.heldAfter s₁ s' (w.held i) := update_self ..
      by_cases hidle : st₀ = .idle
      · subst hidle
        cases hsend with
        | hello => exact .hello ⟨i, s', packet, msg, w.sent.length⟩ (hfresh (.inl hn)) rfl rfl rfl hn rfl rfl hheld
      · rcases hst₀ with ⟨rfl, hwindow⟩ | ⟨h, -⟩
        · exact .send ⟨i, s', packet, msg, w.sent.length⟩ hsend hidle (fun h2 => hfresh (.inr (hn.trans h2))) rfl rfl rfl
            hn rfl hwindow rfl hheld
        · exact absurd h hidle
    · refine .inr ⟨s', hs, fun hat hgood => .inr ⟨_, hat, hgood.mono (List.subset_cons_self ..), ?_⟩⟩
      refine .stay rfl (.inl (hother hij.symm)) id fun hr => ?_
      rcases List.mem_cons.mp hr with rfl | hr
      · exact .inr hij.symm
      · exact .inl hr
  | @deliver j now s₁ s₁' packet err content hs harr hret =>
    obtain ⟨rfl, rfl⟩ | ⟨hij, hs⟩ := update_sessions hs'
    · refine .inr ⟨_, hs, fun {st} hat hgood => .inr ?_⟩
      obtain ⟨-, st', hat', hrec⟩ := decrypt_receives hat hret
      rw [(hI.current i s₁ hs).1] at hrec
      exact ⟨st', hat', hI.good_receives hC hat hgood harr hrec, .receive rfl harr hrec rfl rfl (update_self ..)⟩
    · refine .inr ⟨s', hs, fun hat hgood => .inr ⟨_, hat, hgood, .stay rfl (.inl (hother hij.symm)) (fun ha => ?_) .inl⟩⟩
      rcases Net.World.mem_acceptedAfter ha with ha | ⟨ha, -⟩
      · exact ha
      · exact absurd (congrArg Prod.fst ha) hij

/-- The rule for what holds of every session: it holds of an idle one, and every move keeps it. The
runs may be those of a part of the network's system. -/
theorem staged_of_run {T : Transition.System net.World net.Event} {P : net.World → net.Index → Session C → Stage → Prop}
    (hC : C.Ideal) (hinit : ∀ {w}, T.init w → Net.Start w) (hstep : ∀ {w e w'}, T.step w e w' → Net.Step w e w')
    (hidle : ∀ {w i s}, At s .idle → P w i s .idle)
    (hmove : ∀ {w past e w' i s st s' st'}, Transition.Run T w past → T.step w e w' → Inv w → w.sessions i = some s →
      At s st → At s' st' → Good w.sent i st → P w i s st → Moves w e w' i s st s' st' → P w' i s' st')
    {past : List net.World} (h : Transition.Run T w past) :
    Inv w ∧ ∀ i s, w.sessions i = some s → ∃ st, At s st ∧ Good w.sent i st ∧ P w i s st := by
  refine h.invariant (I := fun w => Inv w ∧ ∀ i s, w.sessions i = some s → ∃ st, At s st ∧ Good w.sent i st ∧ P w i s st)
    (fun w hw => ⟨Inv.start (hinit hw), fun i s hs => ?_⟩) fun w past e w' hrun ih hst => ?_
  · rw [(hinit hw).1] at hs
    exact nomatch hs
  · obtain ⟨hI, ih⟩ := ih
    have hI' := hI.step hC (hstep hst)
    refine ⟨hI', fun i s' hs' => ?_⟩
    rcases (hstep hst).moves hC hI hs' with hat | ⟨s, hs, hfrom⟩
    · exact ⟨.idle, hat, trivial, hidle hat⟩
    · obtain ⟨st, hat, hgood, hP⟩ := ih i s hs
      rcases hfrom hat hgood with hat' | ⟨st', hat', hgood', hmoves⟩
      · exact ⟨.idle, hat', trivial, hidle hat'⟩
      · exact ⟨st', hat', hgood', hmove hrun hst hI hs hat hat' hgood hP hmoves⟩

end

end Hyperboria.CryptoAuth
