/-
The invariant of `Provenance` holds in every world a run comes to (`inv_of_run`):
one lemma for each kind of step.
-/
import Hyperboria.Crypto.Provenance

namespace Hyperboria.CryptoAuth

open Function

/-- The temporary key of the peer. -/
def Stage.her : Stage → Key
  | idle => .zero
  | helloed _ => .zero
  | greeted y => y
  | keyed _ y => y
  | talking _ k _ => k
  | settled _ _ h _ => h
  | late _ h _ _ => h

section
variable {C : Crypto} {net : Net C}

variable {s : Session C} {st : Stage}

theorem At.her_eq (hs : At s st) : s.herTempPubKey = st.her := by
  cases st with
  | idle => exact hs.2.2.2.1
  | helloed x => exact hs.2.2.2.2.2.1
  | greeted y => exact hs.2.2.2.1
  | keyed k y => exact hs.2.2.2.2.2.1
  | talking x k n => exact hs.2.2.2.2.2.2.2.1
  | settled b t h n => exact hs.2.2.2.2.2.2.2.1
  | late t h k n => exact hs.2.2.2.2.2.2.1

variable {L : List net.Sent} {h t : Key}

/-- A session sends from where it is, or after a reset. -/
theorem Good.start {i} {st₀} {p q} (hgood : Good L i st) (hst₀ : st₀ = st ∧ p ∨ st₀ = .idle ∧ q) : Good L i st₀ := by
  rcases hst₀ with ⟨rfl, -⟩ | ⟨rfl, -⟩
  · exact hgood
  · trivial

theorem Good.waiting {i} {b} (hgood : Good L i st) (hst : st.waiting = some (b, t, h)) :
    Drew L i b t ∧ (if b then Asked L i t h else Met L i h) := by
  cases st with
  | keyed k y => cases hst; exact hgood
  | talking x k n => cases hst; exact hgood
  | _ => exact nomatch hst

theorem Good.running {i} {b} (hgood : Good L i st) (hst : st.running = some (b, t, h)) :
    Drew L i b t ∧ Heard L i b t h := by
  cases st with
  | settled b t h n => cases hst; exact ⟨hgood.1, hgood.2.2⟩
  | late t h k n => cases hst; exact ⟨hgood.1, hgood.2.2.1⟩
  | _ => exact nomatch hst

theorem Good.asker {i} {x} (hgood : Good L i st) (hst : st.asker = some x) : Drew L i true x := by
  cases st with
  | helloed x => cases hst; exact hgood
  | talking x k n => cases hst; exact hgood.1
  | _ => exact nomatch hst

theorem Stage.take_eq {x} (hst : st.asker = some x) (k : Key) :
    ∃ n, st.take k = .talking x k n := by
  cases st with
  | helloed x => cases hst; exact ⟨_, rfl⟩
  | talking x k n => cases hst; exact ⟨_, rfl⟩
  | _ => exact nomatch hst

theorem Stage.establish_her : st.establish.her = st.her := by
  cases st with
  | talking x k n => simp [establish]; split <;> rfl
  | _ => rfl

namespace Inv

variable {w w' : net.World} {i : net.Index} {s' : Session C}

/-! ## Steps that send nothing -/

variable (hI : Inv w)
include hI

theorem put (hsent : w'.sent = w.sent)
    (hsess : w'.sessions = Function.update w.sessions i (some s')) (hher : s'.herPublicKey = net.peer i)
    (hst : ∃ st, At s' st ∧ Good w.sent i st)
    (hclean : ¬ net.HonestPeer i → ¬ Hidden w.sent (net.peer i) ∧ ¬ Hidden w.sent s'.herTempPubKey) : Inv w' where
  current j s hj := by
    rw [hsess] at hj
    rw [hsent]
    by_cases hij : j = i
    · subst hij
      rw [update_self] at hj
      cases hj
      exact ⟨hher, hst⟩
    · rw [update_of_ne hij] at hj
      exact hI.current j s hj
  proper := hsent ▸ hI.proper
  alive r hr := by
    rw [hsent] at hr
    rw [hsess]
    by_cases hij : r.author = i
    · exact ⟨s', by rw [hij, update_self]⟩
    · rw [update_of_ne hij]
      exact hI.alive r hr
  drew_inj := hsent ▸ hI.drew_inj
  drew_ne_pub := hsent ▸ hI.drew_ne_pub
  drew_ne_zero := hsent ▸ hI.drew_ne_zero
  clean j s hp hj := by
    rw [hsess] at hj
    rw [hsent]
    by_cases hij : j = i
    · subst hij
      rw [update_self] at hj
      cases hj
      exact hclean hp
    · rw [update_of_ne hij] at hj
      exact hI.clean j s hp hj
  clean_sent := hsent ▸ hI.clean_sent

theorem resets (hs : w.sessions i = some s) (h : Resets s s') :
    Inv (w.put i s s') := by
  obtain ⟨hher, st, hat, hgood⟩ := hI.current i s hs
  obtain ⟨hher', st₀, hat', hst₀⟩ := h.at hat
  refine hI.put rfl rfl (hher'.trans hher) ?_ fun hp => ⟨(hI.clean i s hp hs).1, ?_⟩
  · rcases hst₀ with ⟨rfl, -⟩ | ⟨rfl, -⟩
    · exact ⟨_, hat', hgood⟩
    · exact ⟨_, hat', trivial⟩
  · rw [hat'.her_eq]
    rcases hst₀ with ⟨rfl, -⟩ | ⟨rfl, -⟩
    · exact hat.her_eq ▸ (hI.clean i s hp hs).2
    · exact hI.not_hidden_zero

/-! ## Receiving -/

variable {st' : Stage} {packet : Packet C} {err : DecryptErr}

/-- The keys of the stage after a packet come from where they should. -/
theorem good_receives (hC : C.Ideal) {window window' : ReplayProtector} (hat : At s st)
    (hgood : Good w.sent i st) (harr : w.Arrives i packet)
    (h : Receives C (net.priv (net.node i)) (net.peer i) packet st window err st' window') : Good w.sent i st' := by
  cases h with
  | greet hopen _ _ => exact hI.met hC harr hopen
  | key hst hopen _ _ =>
    obtain ⟨n, htake⟩ := Stage.take_eq hst (Key.ofBytes _)
    rw [htake]
    exact ⟨hgood.asker hst, hI.asked hC harr (hgood.asker hst) hopen⟩
  | establish hst hnonce hopen _ =>
    obtain ⟨hdrew, hkeys⟩ := hgood.waiting hst
    have hheard : Heard w.sent i _ _ _ := fun hp => by
      obtain ⟨r, hr, hsame, -, hf, hi, ht, hh⟩ := hI.heard hC harr hp hdrew hkeys hnonce hopen
      exact ⟨r, hr, by omega, hf, hi, ht, hh⟩
    cases st with
    | keyed k y =>
      cases hst
      exact ⟨hgood.1, fun h => Bool.noConfusion h, hheard⟩
    | talking x k n =>
      cases hst
      obtain ⟨-, -, hlt, -⟩ := hat
      simp only [Stage.establish]
      split
      · exact ⟨hgood.1, fun _ => hgood.2, hheard⟩
      · exact ⟨hgood.1, hgood.2, hheard, fun hn => absurd hn (by omega)⟩
    | _ => cases hst
  | _ => exact hgood

/-- A session of the attacker's never holds a hidden key. -/
theorem clean_receives (hC : C.Ideal) {window window' : ReplayProtector} (hgood : Good w.sent i st)
    (hp : ¬ net.HonestPeer i) (hclean : ¬ Hidden w.sent st.her) (harr : w.Arrives i packet)
    (h : Receives C (net.priv (net.node i)) (net.peer i) packet st window err st' window') :
    ¬ Hidden w.sent st'.her := by
  cases h with
  | greet hopen _ _ => exact hI.not_hidden_taken hC harr hp (.inl ⟨_, rfl⟩) hopen
  | key hst hopen _ _ =>
    obtain ⟨n, htake⟩ := Stage.take_eq hst (Key.ofBytes _)
    rw [htake]
    exact hI.not_hidden_taken hC harr hp (.inr ⟨_, hgood.asker hst⟩) hopen
  | establish _ _ _ _ =>
    rw [Stage.establish_her]
    exact hclean
  | _ => exact hclean

theorem deliver (hC : C.Ideal) {now : Nat} {content : List UInt8} (hs : w.sessions i = some s)
    (harr : w.Arrives i packet) (hret : decrypt (w.context (net.node i)) now s packet = .ret (err, s', content)) :
    Inv { w.put i s s' with accepted := w.acceptedAfter i packet err } := by
  obtain ⟨hher, st, hat, hgood⟩ := hI.current i s hs
  obtain ⟨hher', st', hat', hrec⟩ := decrypt_receives hat hret
  rw [hher] at hrec
  refine hI.put rfl rfl (hher'.trans hher) ⟨st', hat', hI.good_receives hC hat hgood harr hrec⟩ fun hp => ?_
  obtain ⟨hpeer, hclean⟩ := hI.clean i s hp hs
  rw [hat.her_eq] at hclean
  exact ⟨hpeer, hat'.her_eq ▸ hI.clean_receives hC hgood hp hclean harr hrec⟩

/-! ## Sending -/

/-- The key an initiator holds was drawn for a key packet. -/
theorem late (hasked : Asked w.sent i t h) (hp : net.HonestPeer i) :
    ∃ j q, Drew w.sent j false q ∧ C.scalarmultBase q = h := by
  obtain ⟨r, hr, h2, hn, he, -⟩ := hasked hp
  exact ⟨r.author, r.temp, ((hI.proper r hr).key h2 hn).1, he⟩

/-- What a move of the sender puts on the list: the packet is proper, the stage good, and a key was
drawn if the packet is a first hello or a first key packet. -/
theorem sends {r : net.Sent} {draw : Draw} {hash : Option Key} {st₀ st' : Stage} {n : Nat}
    {letter : Letter} (hgood : Good w.sent r.author st₀) (hat : At r.session st')
    (h : Sends C (net.priv (net.node r.author)) (net.peer r.author) draw hash r.msg st₀ n letter st')
    (hn : r.packet.nonce = n)
    (hbox : r.packet.box = C.afternm (letter.secret C) letter.nonce letter.plain) :
    Proper (r :: w.sent) r ∧ Good (r :: w.sent) r.author st' ∧ st'.her = st₀.her ∧
      (n = 0 ∨ n = 2 → r.temp = draw.tempPrivKey) := by
  have hsub : w.sent ⊆ r :: w.sent := List.subset_cons_self r w.sent
  have hmem : r ∈ r :: w.sent := List.mem_cons_self
  have htemp : r.temp = r.session.ourTempPrivKey := rfl
  have hher : r.her = r.session.herTempPubKey := rfl
  cases h with
  | hello =>
    rw [hat.2.2.2.1] at htemp
    have hdrew : Drew (r :: w.sent) r.author true r.temp := ⟨r, hmem, rfl, rfl, hn⟩
    refine ⟨⟨.hello hash draw.handshakeNonce (by omega) ?_, fun _ => hdrew, by omega, by omega, by omega⟩, htemp ▸ hdrew, rfl,
      fun _ => htemp⟩
    rw [hbox, htemp]; rfl
  | repeatHello x =>
    rw [hat.2.2.2.1] at htemp
    have hdrew : Drew (r :: w.sent) r.author true x := Drew.mono hsub hgood
    refine ⟨⟨.hello hash draw.handshakeNonce (by omega) ?_, fun _ => htemp.symm ▸ hdrew, by omega, by omega, by omega⟩, hdrew,
      rfl, by omega⟩
    rw [hbox, htemp]; rfl
  | key y =>
    rw [hat.2.2.2.1] at htemp
    rw [hat.2.2.2.2.2.1] at hher
    have hdrew : Drew (r :: w.sent) r.author false r.temp := ⟨r, hmem, rfl, rfl, hn⟩
    have hmet : Met (r :: w.sent) r.author y := Met.mono hsub hgood
    refine ⟨⟨.key hash draw.handshakeNonce (by omega) (by omega) ?_, by omega,
      fun _ _ => ⟨hdrew, .inl (hher.symm ▸ hmet)⟩, by omega, by omega⟩, ⟨htemp ▸ hdrew, hmet⟩, rfl, fun _ => htemp⟩
    rw [hbox, htemp, hher]; rfl
  | repeatKey k y =>
    rw [hat.2.2.2.1] at htemp
    rw [hat.2.2.2.2.2.1] at hher
    have hdrew : Drew (r :: w.sent) r.author false k := hgood.1.mono hsub
    have hmet : Met (r :: w.sent) r.author y := hgood.2.mono hsub
    refine ⟨⟨.key hash draw.handshakeNonce (by omega) (by omega) ?_, by omega,
      fun _ _ => ⟨htemp.symm ▸ hdrew, .inl (hher.symm ▸ hmet)⟩, by omega, by omega⟩, ⟨hdrew, hmet⟩, rfl, by omega⟩
    rw [hbox, htemp, hher]; rfl
  | talk x k n h4 hlt =>
    obtain ⟨-, -, -, hi, -, htemp', -, hher', -, hsecret⟩ := hat
    rw [htemp'] at htemp
    rw [hher'] at hher
    have hgood' : Good (r :: w.sent) r.author (.talking x k (n + 1)) := Good.mono hsub hgood
    refine ⟨⟨.data (by omega) (by omega) ?_, by omega, by omega, fun _ => ?_, fun _ => ?_⟩, hgood', rfl, by omega⟩
    · rw [hbox, htemp, hher, hi, hn]; rfl
    · rw [htemp, hher, hi]
      exact hgood'
    · rw [hsecret, if_neg (by omega), htemp, hher]
  | data b t h n h4 hlt =>
    obtain ⟨-, -, -, hi, -, htemp', -, hher', -, hsecret⟩ := hat
    rw [htemp'] at htemp
    rw [hher'] at hher
    have hgood' : Good (r :: w.sent) r.author (.settled b t h (n + 1)) := Good.mono hsub hgood
    refine ⟨⟨.data (by omega) (by omega) ?_, by omega, by omega, fun _ => ?_, fun _ => ?_⟩, hgood', rfl, by omega⟩
    · rw [hbox, htemp, hher, hi, hn]; rfl
    · rw [htemp, hher, hi]
      cases b with
      | true => exact ⟨hgood'.1, hgood'.2.1 rfl⟩
      | false => exact ⟨hgood'.1, hgood'.2.2⟩
    · rw [hsecret, htemp, hher]
  | lateKey t h k =>
    obtain ⟨-, -, -, -, htemp', -, hher', -⟩ := hat
    rw [htemp'] at htemp
    rw [hher'] at hher
    have hdrew : Drew (r :: w.sent) r.author false r.temp := ⟨r, hmem, rfl, rfl, hn⟩
    obtain ⟨ht, hasked, hheard, -⟩ := hgood
    refine ⟨⟨.key hash draw.handshakeNonce (by omega) (by omega) ?_, by omega,
      fun _ _ => ⟨hdrew, .inr fun hp => ?_⟩, by omega, by omega⟩,
      ⟨ht.mono hsub, hasked.mono hsub, hheard.mono hsub, fun _ => htemp ▸ hdrew⟩, rfl, fun _ => htemp⟩
    · rw [hbox, htemp, hher]; rfl
    · obtain ⟨j, q, hq, he⟩ := hI.late hasked hp
      exact ⟨j, q, hq.mono hsub, he.trans hher.symm⟩
  | lateRepeat t h k =>
    obtain ⟨-, -, -, -, htemp', -, hher', -⟩ := hat
    rw [htemp'] at htemp
    rw [hher'] at hher
    obtain ⟨ht, hasked, hheard, hk⟩ := hgood
    have hdrew : Drew (r :: w.sent) r.author false k := (hk rfl).mono hsub
    refine ⟨⟨.key hash draw.handshakeNonce (by omega) (by omega) ?_, by omega,
      fun _ _ => ⟨htemp.symm ▸ hdrew, .inr fun hp => ?_⟩, by omega, by omega⟩,
      ⟨ht.mono hsub, hasked.mono hsub, hheard.mono hsub, fun _ => hdrew⟩, rfl, by omega⟩
    · rw [hbox, htemp, hher]; rfl
    · obtain ⟨j, q, hq, he⟩ := hI.late hasked hp
      exact ⟨j, q, hq.mono hsub, he.trans hher.symm⟩

omit hI

theorem drew_cons {r} {j} {c} {q} (h : Drew (r :: L) j c q) :
    Drew L j c q ∨ (j = r.author ∧ q = r.temp ∧ r.packet.nonce = if c then 0 else 2) := by
  obtain ⟨r', hr', rfl, rfl, hn⟩ := h
  rcases List.mem_cons.mp hr' with rfl | hr'
  · exact .inr ⟨rfl, rfl, hn⟩
  · exact .inl ⟨r', hr', rfl, rfl, hn⟩

theorem send (hI : Inv w) {now : Nat} {draw : Draw} {msg : List UInt8} {time : Nat} (hs : w.sessions i = some s)
    (hC : C.Ideal) (hret : encrypt (w.context (net.node i)) now draw s msg = .ret (s', packet))
    (hfresh : packet.nonce = 0 ∨ packet.nonce = 2 → w.Fresh draw.tempPrivKey)
    (hmsg : ¬ net.HonestPeer i → w.Knows (Key.ofBytes msg)) :
    Inv { w.put i s s' with sent := ⟨i, s', packet, msg, time⟩ :: w.sent } := by
  obtain ⟨hher, st, hat, hgood⟩ := hI.current i s hs
  obtain ⟨hher', st₀, n, st', hash, letter, hst₀, hn, hsend, hat', hbox⟩ := encrypt_sends hat hret
  rw [hher] at hsend
  have hgood₀ := hgood.start hst₀
  generalize hr : (⟨i, s', packet, msg, time⟩ : net.Sent) = r
  have hauthor : r.author = i := by rw [← hr]
  have hsub : w.sent ⊆ r :: w.sent := List.subset_cons_self r w.sent
  obtain ⟨hproper, hgood', hherst, htemp⟩ : Proper (r :: w.sent) r ∧ Good (r :: w.sent) i st' ∧
      st'.her = st₀.her ∧ (n = 0 ∨ n = 2 → r.temp = draw.tempPrivKey) := by
    subst hr
    exact hI.sends hgood₀ hat' hsend hn hbox
  have hnonce : r.packet.nonce = n := by rw [← hr]; exact hn
  have hdraws : ∀ {c : Bool}, (r.packet.nonce = if c then 0 else 2) → w.Fresh r.temp := fun {c} h => by
    have h02 : n = 0 ∨ n = 2 := by
      rw [hnonce] at h
      cases c with
      | true => exact .inl h
      | false => exact .inr h
    rw [htemp h02]
    exact hfresh (hn ▸ h02)
  have hold : ∀ {j c q}, Drew w.sent j c q → w.Fresh r.temp → C.scalarmultBase r.temp ≠ C.scalarmultBase q := by
    rintro j c q ⟨r', hr', -, rfl, -⟩ hf
    exact hf.ne_temp r' hr'
  -- a key that becomes hidden is the one drawn now, and the session is not the attacker's
  have hstill : ∀ {x}, ¬ Hidden w.sent x →
      (net.HonestPeer i → w.Fresh r.temp → ¬ C.Alike (C.scalarmultBase r.temp) x) → ¬ Hidden (r :: w.sent) x := by
    rintro x hx hne ⟨j, p, hp, hd, he⟩
    rcases drew_cons hd with hd | ⟨rfl, rfl, h0⟩
    · exact hx ⟨j, p, hp, hd, he⟩
    · exact hne (hauthor ▸ hp) (hdraws h0) he
  have hclean : ¬ net.HonestPeer i → ¬ Hidden (r :: w.sent) (net.peer i) ∧ ¬ Hidden (r :: w.sent) s'.herTempPubKey := by
    intro hp
    refine ⟨hstill (hI.clean i s hp hs).1 fun hp' => absurd hp' hp, hstill ?_ fun hp' => absurd hp' hp⟩
    rw [hat'.her_eq, hherst]
    rcases hst₀ with ⟨rfl, -⟩ | ⟨rfl, -⟩
    · exact hat.her_eq ▸ (hI.clean i s hp hs).2
    · exact hI.not_hidden_zero
  refine ⟨fun j s₁ hj => ?_, fun r' hr' => ?_, fun r' hr' => ?_, fun {j₁ j₂ b c p q} h₁ h₂ he => ?_,
    fun {j b p} N h => ?_, fun {j b p} h => ?_, fun j s₁ hp hj => ?_, fun r' hr' hp => ?_⟩
  · by_cases hij : j = i
    · subst hij
      rw [show (w.put j s s').sessions j = some s' from update_self ..] at hj
      cases hj
      exact ⟨hher'.trans hher, st', hat', hgood'⟩
    · rw [show (w.put i s s').sessions j = w.sessions j from update_of_ne hij ..] at hj
      obtain ⟨h₁, st₁, h₂, h₃⟩ := hI.current j s₁ hj
      exact ⟨h₁, st₁, h₂, h₃.mono hsub⟩
  · rcases List.mem_cons.mp hr' with rfl | hr'
    · exact hproper
    · exact (hI.proper r' hr').mono hsub
  · by_cases hij : r'.author = i
    · exact ⟨s', by rw [hij]; exact update_self ..⟩
    · rcases List.mem_cons.mp hr' with rfl | hr'
      · exact absurd hauthor hij
      · obtain ⟨s₁, hs₁⟩ := hI.alive r' hr'
        exact ⟨s₁, (update_of_ne hij ..).trans hs₁⟩
  · rcases drew_cons h₁ with h₁ | ⟨rfl, rfl, hn₁⟩
    · rcases drew_cons h₂ with h₂ | ⟨rfl, rfl, hn₂⟩
      · exact hI.drew_inj h₁ h₂ he
      · exact absurd he.symm (hold h₁ (hdraws hn₂))
    · rcases drew_cons h₂ with h₂ | ⟨rfl, rfl, hn₂⟩
      · exact absurd he (hold h₂ (hdraws hn₁))
      · refine ⟨rfl, ?_, rfl⟩
        rw [hn₁] at hn₂
        cases b <;> cases c <;> simp_all
  · rcases drew_cons h with h | ⟨rfl, rfl, hn₁⟩
    · exact hI.drew_ne_pub N h
    · exact (hdraws hn₁).ne_pub N
  · rcases drew_cons h with h | ⟨rfl, rfl, hn₁⟩
    · exact hI.drew_ne_zero h
    · exact (hdraws hn₁).ne_zero
  · by_cases hij : j = i
    · subst hij
      rw [show (w.put j s s').sessions j = some s' from update_self ..] at hj
      cases hj
      exact hclean hp
    · rw [show (w.put i s s').sessions j = w.sessions j from update_of_ne hij ..] at hj
      obtain ⟨h₁, h₂⟩ := hI.clean j s₁ hp hj
      exact ⟨hstill h₁ fun _ hf => (hf.ne_peer j s₁ hj hp).1, hstill h₂ fun _ hf => (hf.ne_peer j s₁ hj hp).2⟩
  · rcases List.mem_cons.mp hr' with rfl | hr'
    · subst hr
      have hknows := hI.not_hidden_of_knows hC (hmsg hp)
      exact ⟨(hclean hp).1, (hclean hp).2, hstill hknows fun hp' => absurd hp' hp⟩
    · obtain ⟨s₁, hs₁⟩ := hI.alive r' hr'
      obtain ⟨h₁, h₂, h₃⟩ := hI.clean_sent r' hr' hp
      exact ⟨hstill h₁ fun _ hf => (hf.ne_peer _ s₁ hs₁ hp).1, hstill h₂ fun _ hf => (hf.ne_sent r' hr' hp).1,
        hstill h₃ fun _ hf => (hf.ne_sent r' hr' hp).2⟩

/-! ## Runs -/

theorem start (h : Net.Start w) : Inv w := by
  obtain ⟨hsess, hsent, -⟩ := h
  have hnone : ∀ i s, w.sessions i ≠ some s := fun i s => by rw [hsess]; exact nofun
  have hdrew : ∀ {i b p}, ¬ Drew w.sent i b p := by
    rintro i b p ⟨r, hr, -⟩
    rw [hsent] at hr
    exact nomatch hr
  have hempty : ∀ r, r ∉ w.sent := fun r => by rw [hsent]; exact List.not_mem_nil
  exact ⟨fun i s h => absurd h (hnone i s), fun r hr => absurd hr (hempty r), fun r hr => absurd hr (hempty r),
    fun h => absurd h hdrew, fun _ h => absurd h hdrew, fun h => absurd h hdrew,
    fun i s _ h => absurd h (hnone i s), fun r hr => absurd hr (hempty r)⟩

theorem step (hC : C.Ideal) {e : net.Event} (hI : Inv w) (h : Net.Step w e w') : Inv w' := by
  cases h with
  | create hnew hpeer =>
    refine hI.put rfl rfl rfl ⟨.idle, at_newSession .., trivial⟩ fun hp => ⟨?_, hI.not_hidden_zero⟩
    exact hI.not_hidden_of_knows hC (hpeer hp)
  | users users =>
    exact ⟨hI.current, hI.proper, hI.alive, hI.drew_inj, hI.drew_ne_pub, hI.drew_ne_zero, hI.clean, hI.clean_sent⟩
  | setAuth password login hs => exact hI.resets hs (setAuth_resets password login _)
  | reset hs => exact hI.resets hs (resets_reset _)
  | timeout hs hret => exact hI.resets hs (resetIfTimeout_resets hret)
  | send hs hret hfresh hmsg => exact hI.send hs hC hret hfresh hmsg
  | deliver hs harr hret => exact hI.deliver hC hs harr hret

end Inv

/-- The keys of every session and of every packet come from where they should, in every world a run
comes to. -/
theorem inv_of_run (hC : C.Ideal) {w} {past}
    (h : Transition.Run net.system w past) : Inv w :=
  h.invariant (fun _ => Inv.start) fun _ _ _ _ _ hI hs => hI.step hC hs

end

end Hyperboria.CryptoAuth
