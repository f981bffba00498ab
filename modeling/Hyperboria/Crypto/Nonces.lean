/-
No two data packets are sealed with one secret and one nonce, and two sessions that
hold one secret are its two ends. The counter of a session does not go back under its
secret, as long as the session does not become established when the counter stands at
its end (`nonces_unique`, `InRange`).

The counter of an initiator that waits for the first data packet is raised by every
repeated key packet, and nothing stops it there. The first data packet then adds 3
to it, in 32 bits, and so the counter can come round (`counter_comes_round`).
-/
import Hyperboria.Crypto.Duo
import Hyperboria.Crypto.Equations
import Hyperboria.Crypto.Moves

namespace Hyperboria.CryptoAuth

/-- The counter of a stage. -/
def Stage.counter : Stage → Nat
  | idle => 0
  | helloed _ => 1
  | greeted _ => 2
  | keyed _ _ => 3
  | talking _ _ n => n
  | settled _ _ _ n => n
  | late _ _ _ n => n

section
variable {C : Crypto} {net : Net C} {w w' : net.World} {e : net.Event} {i : net.Index} {s s' : Session C}
  {st st' : Stage}

/-- The packet is the first data packet of the session, and the counter of the session has no room for
the 3 that is added to it then. -/
def Overruns (s : Session C) (packet : Packet C) : Prop :=
  s.established = false ∧ 2 ^ 32 ≤ s.nextNonce + 3 ∧ 4 ≤ packet.nonce ∧
    (C.openAfternm (C.getSharedSecret s.ourTempPrivKey s.herTempPubKey none)
      (counterNonce packet.nonce (!s.isInitiator)) packet.box).isSome = true

/-- The step makes no counter come round. -/
def InRange (w : net.World) (e : net.Event) : Prop :=
  ∀ i packet s, e = .deliver i packet → w.sessions i = some s → ¬ Overruns s packet

/-- Both packets were sealed with one secret and one nonce. -/
def SealedAlike (r r' : net.Sent) : Prop :=
  ∃ secret nonce m m', r.packet.box = C.afternm secret nonce m ∧ r'.packet.box = C.afternm secret nonce m'

/-! ## Stages and counters -/

theorem At.counter_eq (hs : At s st) : s.nextNonce = st.counter := by
  cases st with
  | _ => exact hs.1

theorem At.secret_eq (hs : At s st) (hz : s.sharedSecret ≠ C.zeroSecret) :
    (∃ x k n, st = .talking x k n ∧ 4 < n) ∨ (∃ b t h n, st = .settled b t h n) ∨ ∃ t h k n, st = .late t h k n := by
  cases st with
  | idle => exact absurd hs.2.2.2.2 hz
  | helloed x => exact absurd hs.2.2.2.2.2.2 hz
  | greeted y => exact absurd hs.2.2.2.2.2 hz
  | keyed k y => exact absurd hs.2.2.2.2.2.2.2 hz
  | talking x k n =>
    obtain ⟨-, h4, -, -, -, -, -, -, -, hsec⟩ := hs
    refine .inl ⟨x, k, n, rfl, ?_⟩
    by_contra hn
    exact hz (by rw [hsec, if_pos (by omega)])
  | settled b t h n => exact .inr (.inl ⟨b, t, h, n, rfl⟩)
  | late t h k n => exact .inr (.inr ⟨t, h, k, n, rfl⟩)

variable {a H : Key} {draw : Draw} {hash : Option Key} {msg : List UInt8} {n : Nat} {letter : Letter}
  (h : Sends C a H draw hash msg st n letter st')
include h

/-- A data packet is sent with the counter for its nonce and the temporary key of the stage. -/
theorem Sends.of_data (hat : At s' st') (h4 : 4 ≤ n) :
    n = st.counter ∧ st.temp = some s'.ourTempPrivKey := by
  cases h with
  | talk x k n _ _ | data b t h n _ _ => exact ⟨rfl, congrArg some hat.2.2.2.2.2.1.symm⟩
  | _ => omega

/-- The counter does not go back as long as the temporary key stays. -/
theorem Sends.counter_le :
    st.counter ≤ st'.counter ∧ (4 ≤ n → n < st'.counter) := by
  cases h with
  | hello => exact ⟨Nat.zero_le _, by omega⟩
  | key y => exact ⟨Nat.le_succ _, by omega⟩
  | talk x k n h4 hn | data b t h n h4 hn => exact ⟨Nat.le_succ _, fun _ => Nat.lt_succ_self _⟩
  | lateKey t h k => exact ⟨Nat.le_succ _, by omega⟩
  | _ => exact ⟨le_rfl, by omega⟩

/-- The counter has not come round. -/
def Stage.Counts (st : Stage) : Prop := ∀ t h k n, st ≠ .late t h k n

theorem Sends.counts (hst : st'.Counts) : st.Counts := by
  cases h with
  | lateKey t h k => exact absurd rfl (hst t h _ 3)
  | lateRepeat t h k => exact absurd rfl (hst t h k 3)
  | _ => exact nofun

omit h

section receives
variable {a H : Key} {packet : Packet C} {rp rp' : ReplayProtector} {err : DecryptErr}

variable {t : Key}

/-- Receiving draws no key. -/
theorem Receives.temp (h : Receives C a H packet st rp err st' rp') (ht : st'.temp = some t) :
    st.temp = some t := by
  cases h with
  | greet _ _ _ => exact nomatch ht
  | key hst _ _ _ =>
    obtain ⟨n, htake⟩ := Stage.take_eq hst (Key.ofBytes _)
    rw [htake] at ht
    exact (Stage.of_asker hst).1.trans ht
  | establish hst _ _ _ =>
    rw [Stage.temp_of_secret (.inr (Stage.establish_running hst))] at ht
    exact (Stage.temp_of_secret (.inl hst)).trans ht
  | _ => exact ht

/-- A counter that has come round stays so as long as the session keeps its key. -/
theorem Receives.counts (h : Receives C a H packet st rp err st' rp') (hst : st'.Counts) (ht : st'.temp = some t) :
    st.Counts := by
  cases h with
  | greet _ _ _ => exact nomatch ht
  | key hasker _ _ _ =>
    intro t h k n heq
    subst heq
    exact nomatch hasker
  | establish hwait _ _ _ =>
    intro t h k n heq
    subst heq
    exact nomatch hwait
  | _ => exact hst

/-- Receiving raises the counter or leaves it, unless it comes round. -/
theorem Receives.counter_le (hat : At s st) (h : Receives C a H packet st rp err st' rp')
    (hin : st'.Counts ∨ ¬ Overruns s packet) (ht : st'.temp = some t) : st.counter ≤ st'.counter := by
  cases h with
  | greet _ _ _ => cases ht
  | key hasker _ _ _ =>
    cases st with
    | helloed x => exact show 1 ≤ 4 by omega
    | talking x k n =>
      show n ≤ if n ≤ 4 then 4 else n + 1
      split <;> omega
    | _ => cases hasker
  | establish hwait hnonce hopen _ =>
    cases st with
    | keyed k y => exact show 3 ≤ 6 by omega
    | talking x k n =>
      cases hwait
      have hroom : n + 3 < 2 ^ 32 := by
        by_contra hn
        rcases hin with hst | hin
        · simp only [Stage.establish, if_neg hn] at hst
          exact absurd rfl (hst _ _ _ _)
        · obtain ⟨rfl, -, -, hi, he, rfl, -, rfl, -⟩ := hat
          exact hin ⟨he, by omega, hnonce, by rw [hi, hopen]; rfl⟩
      simp only [Stage.establish, if_pos hroom]
      exact Nat.le_add_right n 3
    | _ => cases hwait
  | _ => exact le_rfl

end receives

/-! ## The counter and the packets sent -/

/-- The data packets sent under the temporary key of the session have nonces below its counter, as long
as the counter has not come round. -/
def Counted (w : net.World) (i : net.Index) (st : Stage) : Prop :=
  st.Counts → ∀ r ∈ w.sent, r.author = i → 4 ≤ r.packet.nonce → st.temp = some r.temp → r.packet.nonce < st.counter

theorem Counted.moves (hat : At s st) (hc : Counted w i st) (h : Moves w e w' i s st s' st') : Counted w' i st' := by
  intro hst r hr hauthor h4 ht
  cases h with
  | stay _ _ _ hsent =>
    rcases hsent hr with hr | hne
    · exact hc hst r hr hauthor h4 ht
    · exact absurd hauthor hne
  | hello r₀ hfresh hsent _ _ hnonce _ _ _ =>
    rw [hsent] at hr
    rcases List.mem_cons.mp hr with rfl | hr
    · omega
    · cases ht
      exact absurd rfl (hfresh.ne_temp r hr)
  | send r₀ hsend hidle hfresh hsent _ _ hnonce _ _ _ _ =>
    rw [hsent] at hr
    rcases List.mem_cons.mp hr with rfl | hr
    · rw [hnonce] at h4 ⊢
      exact hsend.counter_le.2 h4
    · rcases hsend.temp hidle with htemp | ⟨h2, htemp⟩
      · exact (hc (hsend.counts hst) r hr hauthor h4 (htemp ▸ ht)).trans_le hsend.counter_le.1
      · have hdraw := Option.some.inj (htemp.symm.trans ht)
        exact absurd (congrArg C.scalarmultBase hdraw) ((hfresh h2).ne_temp r hr)
  | receive _ _ hrec hsent _ _ =>
    rw [hsent] at hr
    exact (hc (hrec.counts hst ht) r hr hauthor h4 (hrec.temp ht)).trans_le (hrec.counter_le hat (.inl hst) ht)

theorem counted_of_run (hC : C.Ideal) {past} (h : Transition.Run net.system w past) :
    ∀ i s, w.sessions i = some s → ∃ st, At s st ∧ Good w.sent i st ∧ Counted w i st :=
  (staged_of_run (P := fun w i _ st => Counted w i st) hC id id (fun _ _ _ _ _ _ ht => nomatch ht)
    (fun _ _ _ _ hat _ _ hc hm => hc.moves hat hm) h).2

/-! ## Secrets and ends -/

/-- A secret that is not zero is one of a key the session drew and of one drawn at the other end, for
the other kind of packet. -/
theorem Inv.secret_keys (hI : Inv w) (hp : net.HonestPeer i) (hat : At s st) (hgood : Good w.sent i st)
    (hz : s.sharedSecret ≠ C.zeroSecret) : ∃ t j q, Drew w.sent i s.isInitiator t ∧ Drew w.sent j (!s.isInitiator) q ∧
      s.sharedSecret = C.getSharedSecret t (C.scalarmultBase q) none := by
  have hheard : ∀ {b t h}, Heard w.sent i b t h → ∃ j q, Drew w.sent j (!b) q ∧ C.scalarmultBase q = h := fun h => by
    obtain ⟨r, hr, h4, -, hi, htemp, -⟩ := h hp
    exact ⟨_, _, hi ▸ ((hI.proper r hr).data h4).1, htemp⟩
  obtain ⟨x, k, n, rfl, hn⟩ | ⟨b, t, h, n, rfl⟩ | ⟨t, h, k, n, rfl⟩ := hat.secret_eq hz
  · obtain ⟨-, -, -, hi, -, -, -, -, -, hsec⟩ := hat
    obtain ⟨j, q, hq, rfl⟩ := hI.late hgood.2 hp
    rw [if_neg (by omega)] at hsec
    exact ⟨x, j, q, by rw [hi]; exact hgood.1, by rw [hi]; exact hq, hsec⟩
  · obtain ⟨hi, hsec⟩ := hat.of_running rfl
    obtain ⟨j, q, hq, rfl⟩ := hheard hgood.2.2
    exact ⟨t, j, q, hi ▸ hgood.1, hi ▸ hq, hsec⟩
  · obtain ⟨hi, hsec⟩ := hat.of_running rfl
    obtain ⟨j, q, hq, rfl⟩ := hheard hgood.2.2.1
    exact ⟨t, j, q, by rw [hi]; exact hgood.1, by rw [hi]; exact hq, hsec⟩

/-- Two sessions with one secret are its two ends. -/
theorem Inv.opposite_ends (hC : C.Ideal) (hI : Inv w) {j} (hij : i ≠ j) (hi : net.HonestPeer i)
    (hj : net.HonestPeer j) (hs : w.sessions i = some s) (hs' : w.sessions j = some s')
    (hsame : s.sharedSecret = s'.sharedSecret) (hz : s.sharedSecret ≠ C.zeroSecret) :
    s.isInitiator ≠ s'.isInitiator := by
  obtain ⟨-, st, hat, hgood⟩ := hI.current i s hs
  obtain ⟨-, st', hat', hgood'⟩ := hI.current j s' hs'
  obtain ⟨t, k, q, ht, -, hsec⟩ := hI.secret_keys hi hat hgood hz
  obtain ⟨t', k', q', ht', hq', hsec'⟩ := hI.secret_keys hj hat' hgood' (hsame ▸ hz)
  rcases Crypto.Ideal.samePair hC (hsec.symm.trans (hsame.trans hsec')) (.refl _) with ⟨he, -⟩ | ⟨he, -⟩
  · exact absurd (hI.drew_inj ht ht' (hC.base_inj he)).1 hij
  · intro h
    have hkind := (hI.drew_inj ht hq' (hC.base_inj he)).2.1
    rw [h] at hkind
    exact Bool.self_ne_not _ hkind

/-- Two data packets sealed alike have one author, one key and one number. -/
theorem Inv.alike (hC : C.Ideal) (hI : Inv w) {r r' : net.Sent} (hr : r ∈ w.sent) (hr' : r' ∈ w.sent)
    (hp : net.HonestPeer r'.author) (h4 : 4 ≤ r.packet.nonce) (h4' : 4 ≤ r'.packet.nonce) (h : SealedAlike r r') :
    r.author = r'.author ∧ r.temp = r'.temp ∧ r.packet.nonce = r'.packet.nonce := by
  obtain ⟨secret, nonce, m, m', hbox, hbox'⟩ := h
  have hd := (hI.proper r hr).data h4
  have hd' := (hI.proper r' hr').data h4'
  cases (hI.proper r hr).wrote.opened hC hbox (hC.open_afternm secret nonce m) with
  | hello _ hn _ _ => omega
  | key _ _ hn _ _ => omega
  | data _ _ hsec hcount _ =>
    cases (hI.proper r' hr').wrote.opened hC hbox' (hC.open_afternm secret nonce m') with
    | hello _ hn _ _ => omega
    | key _ _ hn _ _ => omega
    | data _ _ hsec' hcount' _ =>
      obtain ⟨hn, hflag⟩ := counterNonce_inj h4 h4' r.packet.nonce_lt r'.packet.nonce_lt (hcount.symm.trans hcount')
      obtain ⟨j, q, hq, hher, -⟩ := hI.data_her hr' h4' hp
      rcases Crypto.Ideal.samePair hC (hsec'.symm.trans hsec) (.of_eq hher.symm) with ⟨he, -⟩ | ⟨-, he⟩
      · obtain ⟨hauthor, -, htemp⟩ := hI.drew_inj hd.1 hd'.1 (hC.base_inj he).symm
        exact ⟨hauthor, htemp, hn⟩
      · rw [← hher] at he
        have hkind := (hI.drew_inj hd.1 hq (hC.base_inj he).symm).2.1
        rw [hflag] at hkind
        exact absurd hkind (Bool.self_ne_not _)

/-! ## Runs -/

/-- Two different packets that are data of sessions with honest peers are not sealed alike. -/
def Apart (r r' : net.Sent) : Prop :=
  net.HonestPeer r.author → net.HonestPeer r'.author → 4 ≤ r.packet.nonce → 4 ≤ r'.packet.nonce → ¬ SealedAlike r r'

/-- A packet that is sent is not sealed like one of those sent before. -/
theorem Counted.apart (hC : C.Ideal) {r : net.Sent} (hI : Inv w') (hsent : w'.sent = r :: w.sent) {now : Nat}
    (hc : Counted w r.author st) (hat : At s st)
    (hret : encrypt (w.context (net.node r.author)) now draw s r.msg = .ret (r.session, r.packet)) :
    ∀ r' ∈ w.sent, Apart r r' := by
  intro r' hr' _ hp' h4 h4' halike
  obtain ⟨hauthor, htemp, hn⟩ := hI.alike hC (hsent ▸ List.mem_cons_self) (hsent ▸ List.mem_cons_of_mem _ hr') hp' h4
    h4' halike
  obtain ⟨-, st₀, n, st', hash, letter, hst₀, hnonce, hsend, hat', -⟩ := encrypt_sends hat hret
  rcases hst₀ with ⟨rfl, -⟩ | ⟨rfl, -⟩
  · obtain ⟨hcount, hst⟩ := hsend.of_data hat' (hnonce ▸ h4)
    have hcounts : st₀.Counts := fun t h k m heq => by
      subst heq
      have hm : n = m := hcount
      have := hat.2.1
      omega
    have hlt := hc hcounts r' hr' hauthor.symm h4' (hst.trans (congrArg some htemp))
    omega
  · cases hsend with
    | hello => omega

theorem apart_of_run (hC : C.Ideal) {past} (h : Transition.Run net.system w past) :
    w.sent.Pairwise Apart := by
  refine h.invariant (I := fun w => w.sent.Pairwise Apart) (fun w hw => ?_) fun w past e w' hrun ih hstep => ?_
  · rw [hw.2.1]
    exact .nil
  · have hI' := (inv_of_run hC hrun).step hC hstep
    cases hstep with
    | send hs hret hfresh hmsg =>
      obtain ⟨st, hat, -, hc⟩ := counted_of_run hC hrun _ _ hs
      exact List.pairwise_cons.mpr ⟨hc.apart hC hI' rfl hat hret, ih⟩
    | _ => exact ih

/-- A step that leaves a session its secret does not take its counter back, if it stays in range. -/
theorem Inv.counter_le (hC : C.Ideal) (hI : Inv w) (hstep : Net.Step w e w') (hin : InRange w e)
    (hs : w.sessions i = some s) (hs' : w'.sessions i = some s') (hsame : s'.sharedSecret = s.sharedSecret)
    (hz : s.sharedSecret ≠ C.zeroSecret) : s.nextNonce ≤ s'.nextNonce := by
  have hz' : s'.sharedSecret ≠ C.zeroSecret := hsame ▸ hz
  rcases hstep.moves hC hI hs' with hidle | ⟨s₁, hs₁, hfrom⟩
  · exact absurd hidle.2.2.2.2 hz'
  cases hs.symm.trans hs₁
  obtain ⟨-, st, hat, hgood⟩ := hI.current i s hs
  rcases hfrom hat hgood with hidle | ⟨st', hat', -, hmoves⟩
  · exact absurd hidle.2.2.2.2 hz'
  rw [hat.counter_eq, hat'.counter_eq]
  cases hmoves with
  | stay _ _ _ _ => exact le_rfl
  | hello _ _ _ _ _ _ _ _ _ => exact absurd hat'.2.2.2.2.2.2 hz'
  | send _ hsend _ _ _ _ _ _ _ _ _ _ => exact hsend.counter_le.1
  | receive hevent _ hrec _ _ _ =>
    have hover := hin _ _ _ hevent hs
    obtain ⟨x, k, n, rfl, -⟩ | ⟨b, t, h, n, rfl⟩ | ⟨t, h, k, n, rfl⟩ := hat'.secret_eq hz'
    · exact hrec.counter_le hat (.inr hover) rfl
    · exact hrec.counter_le hat (.inr hover) rfl
    · exact hrec.counter_le hat (.inr hover) rfl

/-- In every run no two data packets of sessions with honest peers are sealed with one secret and one
nonce, and two sessions that hold one secret hold it as its two ends. A step that stays in range and leaves
a session its secret does not take its counter back. -/
theorem nonces_unique (hC : C.Ideal) {w : net.World} {past : List net.World}
    (hrun : Transition.Run net.system w past) :
    (w.sent.Pairwise fun r r' => net.HonestPeer r.author → net.HonestPeer r'.author → 4 ≤ r.packet.nonce →
      4 ≤ r'.packet.nonce → ¬ SealedAlike r r') ∧
    (∀ {i j s s'}, i ≠ j → net.HonestPeer i → net.HonestPeer j → w.sessions i = some s → w.sessions j = some s' →
      s.sharedSecret = s'.sharedSecret → s.sharedSecret ≠ C.zeroSecret → s.isInitiator ≠ s'.isInitiator) ∧
    ∀ {e w' i s s'}, net.system.step w e w' → InRange w e → w.sessions i = some s → w'.sessions i = some s' →
      s'.sharedSecret = s.sharedSecret → s.sharedSecret ≠ C.zeroSecret → s.nextNonce ≤ s'.nextNonce :=
  have hI := inv_of_run hC hrun
  ⟨apart_of_run hC hrun, fun hij hi hj hs hs' hsame hz => hI.opposite_ends hC hij hi hj hs hs' hsame hz,
    fun hstep hin hs hs' hsame hz => hI.counter_le hC hstep hin hs hs' hsame hz⟩

/-! ## A counter that comes round -/

/-- What the session and the packet are like when a repeated key packet comes to an initiator that waits
for the first data packet: the key in it is the one the session has. -/
structure RepeatsKey (s : Session C) (packet : Packet C) : Prop where
  length : 120 ≤ packet.length
  nonce : packet.nonce = 3
  waits : s.established = false
  initiator : s.isInitiator = true
  peer : s.herPublicKey = packet.publicKey
  known : knowHerKey s = true
  unauthenticated : packet.auth.type = 0 ∧ s.requireAuth = false
  key : s.herTempPubKey.isZero = false
  opens : (C.openAfternm (C.getSharedSecret s.ourTempPrivKey s.herPublicKey none) packet.handshakeNonce packet.box).any
    (fun plain => Key.ofBytes plain = s.herTempPubKey) = true

/-- Each repeated key packet raises the counter by one, with no bound but that of its 32 bits. -/
theorem RepeatsKey.decrypt {packet : Packet C} (h : RepeatsKey s packet) (ca : Context) (now : Nat)
    (h5 : 5 ≤ s.nextNonce) (hlt : s.nextNonce + 1 < 2 ^ 32) : ∃ content,
    CryptoAuth.decrypt ca now s packet =
      .ret (.none, { s with nextNonce := s.nextNonce + 1, replayProtector := .zero }, content) := by
  obtain ⟨hlen, h3, hest, hi, hpeer, hknow, ⟨hauth, hreq⟩, hz, hopens⟩ := h
  obtain ⟨plain, hopen⟩ : ∃ plain, C.openAfternm (C.getSharedSecret s.ourTempPrivKey s.herPublicKey none)
      packet.handshakeNonce packet.box = some plain :=
    Option.isSome_iff_exists.mp (Option.isSome_of_any hopens)
  have hkey : Key.ofBytes plain = s.herTempPubKey := by
    rw [hopen] at hopens
    exact of_decide_eq_true hopens
  have hshort : ¬ packet.length < 20 ∧ ¬ packet.length < 120 := by omega
  have hstate : s.nextNonce ≠ 0 ∧ s.nextNonce ≠ 1 ∧ s.nextNonce ≠ 2 ∧ s.nextNonce ≠ 3 ∧ s.nextNonce ≠ 4 := by omega
  have hlarge : 4 ≤ s.nextNonce ∧ ¬ s.nextNonce < 2 := by omega
  have hnext : uint32 (s.nextNonce + 1) = s.nextNonce + 1 := Nat.mod_eq_of_lt hlt
  exact ⟨plain.drop 32, by
    simp [CryptoAuth.decrypt, decryptHandshake, shakeHands, isDupe, received, receivedKey, recalculate,
      cryptoAuthDebug, Er.assertTrue, refusal, getAuth, hest, h3, hshort, hknow, hauth, hreq, hi, ← hpeer, hopen, hkey, hz,
      hstate, hlarge, hnext]⟩

/-- The first data packet adds 3 to the counter, in 32 bits. -/
theorem Overruns.decrypt {packet : Packet C} (h : Overruns s packet) (ca : Context) (now : Nat)
    (hlen : 20 ≤ packet.length) (h3 : 3 ≤ s.nextNonce) (hlt : s.nextNonce < 2 ^ 32) (hknow : s.herPublicKey ≠ .zero)
    (hours : s.ourTempPrivKey.isZero = false) (hhers : s.herTempPubKey.isZero = false)
    (hpass : (ReplayProtector.checkNonce packet.nonce s.replayProtector).1 = true) : ∃ s' content,
    CryptoAuth.decrypt ca now s packet = .ret (.none, s', content) ∧ s'.nextNonce < s.nextNonce ∧
      s'.sharedSecret = C.getSharedSecret s.ourTempPrivKey s.herTempPubKey none := by
  obtain ⟨hest, hover, h4, hopens⟩ := h
  obtain ⟨plain, hopen⟩ := Option.isSome_iff_exists.mp hopens
  have hne : ∀ {k : Key}, k.isZero = false → k ≠ .zero := by
    rintro _ hk rfl
    cases hk
  refine ⟨establish s now packet.nonce, plain, decrypt_first (by simpa [knowHerKey] using hknow) ⟨hlen, h4, hest, h3⟩
    (hne hours) (hne hhers) hopen hpass, ?_, rfl⟩
  show uint32 (s.nextNonce + 3) < s.nextNonce
  rw [uint32]
  omega

end

theorem nonces_unique_shake : ∃ (w : duo.World) (past : List duo.World), Transition.Run duo.system w past ∧
    (w.sent.map fun r => r.packet.nonce) = [6, 5, 4, 2, 0] ∧
    w.sent.Pairwise fun r r' => duo.HonestPeer r.author → duo.HonestPeer r'.author → 4 ≤ r.packet.nonce →
      4 ≤ r'.packet.nonce → ¬ SealedAlike r r' := by
  obtain ⟨w, past, hrun, hw⟩ := @Duo.exists_run (Duo.shake ++ [.send true 6, .send false 7])
    (fun w => (w.sent.map fun r => r.packet.nonce) = [6, 5, 4, 2, 0]) (by decide +kernel)
  exact ⟨w, past, hrun, of_decide_eq_true hw, (nonces_unique Symbolic.ideal hrun).1⟩

namespace Duo

open Symbolic (crypto)

/-- A handshake up to where node `true` has sent data and has not heard from `false` yet, that has sent
its key twice, and data. -/
def stall : List Move :=
  [.create false, .create true, .send true 3, .deliver false 0, .send false 4, .send false 5, .deliver true 1,
    .send true 6, .deliver false 3, .send false 7]

/-- Node `true` waits for the first data packet, which is on its way, and so is a repeated key packet. -/
def Stalled (s : Session crypto) (repeated first : Packet crypto) : Prop :=
  RepeatsKey s repeated ∧ s.replayProtector = .zero ∧ s.herPublicKey ≠ .zero ∧ s.ourTempPrivKey.isZero = false ∧
    s.sharedSecret = crypto.getSharedSecret s.ourTempPrivKey s.herTempPubKey none ∧ 20 ≤ first.length ∧
    first.nonce = 6 ∧ (crypto.openAfternm (crypto.getSharedSecret s.ourTempPrivKey s.herTempPubKey none)
      (counterNonce 6 false) first.box).isSome = true

instance (s : Session crypto) (repeated : Packet crypto) : Decidable (RepeatsKey s repeated) :=
  decidable_of_iff (120 ≤ repeated.length ∧ repeated.nonce = 3 ∧ s.established = false ∧ s.isInitiator = true ∧
      s.herPublicKey = repeated.publicKey ∧ knowHerKey s = true ∧ (repeated.auth.type = 0 ∧ s.requireAuth = false) ∧
      s.herTempPubKey.isZero = false ∧
      (crypto.openAfternm (crypto.getSharedSecret s.ourTempPrivKey s.herPublicKey none) repeated.handshakeNonce
        repeated.box).any (fun plain => Key.ofBytes plain = s.herTempPubKey) = true)
    ⟨fun ⟨h1, h2, h3, h4, h5, h6, h7, h8, h9⟩ => ⟨h1, h2, h3, h4, h5, h6, h7, h8, h9⟩,
      fun ⟨h1, h2, h3, h4, h5, h6, h7, h8, h9⟩ => ⟨h1, h2, h3, h4, h5, h6, h7, h8, h9⟩⟩

instance (s : Session crypto) (repeated first : Packet crypto) : Decidable (Stalled s repeated first) :=
  inferInstanceAs (Decidable (_ ∧ _))

/-- The network stands so, and the counter of `true` at `n`. -/
def StalledAt (w : duo.World) (n : Nat) : Prop :=
  ∃ s, w.sessions true = some s ∧ s.nextNonce = n ∧ ∃ r ∈ w.sent, ∃ r' ∈ w.sent, Stalled s r.packet r'.packet

theorem exists_stalled : ∃ w past, Transition.Run duo.system w past ∧ StalledAt w 5 := by
  obtain ⟨w, past, hrun, hw⟩ := @exists_run stall (fun w => (w.sessions true).any fun s => s.nextNonce = 5 &&
    w.sent.any fun r => w.sent.any fun r' => Stalled s r.packet r'.packet) (by decide +kernel)
  cases hs : w.sessions true with
  | none =>
    rw [hs] at hw
    exact nomatch hw
  | some s =>
    rw [hs] at hw
    obtain ⟨hn, hany⟩ := (Bool.and_eq_true _ _).mp hw
    obtain ⟨r, hr, hany⟩ := List.any_eq_true.mp hany
    obtain ⟨r', hr', hst⟩ := List.any_eq_true.mp hany
    exact ⟨w, past, hrun, s, hs, of_decide_eq_true hn, r, hr, r', hr', of_decide_eq_true hst⟩

theorem StalledAt.next {w} {n} (h : StalledAt w n) (h5 : 5 ≤ n) (hlt : n + 1 < 2 ^ 32) :
    ∃ e w', duo.system.step w e w' ∧ StalledAt w' (n + 1) := by
  obtain ⟨s, hs, rfl, r, hr, r', hr', hrep, hrp, hrest⟩ := h
  obtain ⟨content, hret⟩ := hrep.decrypt (w.context true) 0 h5 hlt
  refine ⟨_, _, .deliver hs (arrives hr true) hret, _, w.put_self true s _, rfl, r, hr, r', hr', ?_, rfl, hrest⟩
  exact ⟨hrep.1, hrep.2, hrep.3, hrep.4, hrep.5, hrep.6, hrep.7, hrep.8, hrep.9⟩

/-- The counter can be brought to any number. -/
theorem exists_stalledAt (n : Nat) (hlt : n + 5 < 2 ^ 32) :
    ∃ w past, Transition.Run duo.system w past ∧ StalledAt w (n + 5) := by
  induction n with
  | zero => exact exists_stalled
  | succ n ih =>
    obtain ⟨w, past, hrun, hst⟩ := ih (by omega)
    obtain ⟨e, w', hstep, hst'⟩ := hst.next (by omega) (by omega)
    exact ⟨w', w :: past, hrun.step hstep, by rwa [show n + 1 + 5 = n + 5 + 1 by omega]⟩

end Duo

/-- A session goes on with its secret, and its counter goes back. -/
theorem counter_comes_round : ∃ (w : duo.World) (past : List duo.World) (e : duo.Event) (w' : duo.World)
    (s s' : Session Symbolic.crypto), Transition.Run duo.system w past ∧ duo.system.step w e w' ∧
    w.sessions true = some s ∧ w'.sessions true = some s' ∧ s'.sharedSecret = s.sharedSecret ∧
    s.sharedSecret ≠ Symbolic.crypto.zeroSecret ∧ s'.nextNonce < s.nextNonce := by
  obtain ⟨w, past, hrun, s, hs, hn, r, hr, r', hr', hrep, hrp, hknow, hours, hsec, hlen, h6, hopens⟩ :=
    Duo.exists_stalledAt (2 ^ 32 - 6) (by omega)
  have hover : Overruns s r'.packet :=
    ⟨hrep.waits, by omega, by omega, by rw [hrep.initiator, h6]; exact hopens⟩
  obtain ⟨s', content, hret, hback, hsec'⟩ := hover.decrypt (w.context true) 0 hlen (by omega) (by omega) hknow hours
    hrep.key (by rw [h6, hrp]; decide +kernel)
  refine ⟨w, past, _, _, s, s', hrun, .deliver hs (Duo.arrives hr' true) hret, hs, w.put_self true s s',
    hsec'.trans hsec.symm, ?_, hback⟩
  rw [hsec]
  exact Symbolic.correct.shared_ne_zero _ _ _

end Hyperboria.CryptoAuth
