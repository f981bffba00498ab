/-
Two sessions that face each other and are both established have the opposite ends,
and the same secret as long as no packet brings an initiator back to a key it had
taken up since its hello and replaced since (`established_agree`, `Reverts`). With
such a packet they can settle on different secrets (`established_disagree`).

The argument is one about time. The packets are numbered in the order they were
sent. A session that is established has been sent data under its key after it drew
it, and the key it has is the last one it drew (`Dated`): from two sessions whose keys
do not belong together this makes a circle.
-/
import Hyperboria.Crypto.Duo
import Hyperboria.Crypto.Moves

namespace Hyperboria.CryptoAuth

open List

/-- The session is the one that said hello. -/
def Stage.initiator : Stage → Bool
  | helloed _ => true
  | talking _ _ _ => true
  | settled b _ _ _ => b
  | late _ _ _ _ => true
  | _ => false

section
variable {C : Crypto} {net : Net C} {w w' : net.World} {e : net.Event} {i j : net.Index} {s s' : Session C}
  {st st' : Stage}

/-- The step brings a key packet to an initiator that is not established, with a key it had before the
one it has now, after the same hello. -/
def Reverts (w : net.World) (e : net.Event) : Prop :=
  ∃ i packet s hash plain, e = .deliver i packet ∧ w.sessions i = some s ∧ s.isInitiator = true ∧
    s.established = false ∧ packet.nonce < 4 ∧
    C.openAfternm (C.getSharedSecret s.ourTempPrivKey (net.peer i) hash) packet.handshakeNonce packet.box = some plain ∧
    Key.ofBytes plain ∈ w.held i ∧ Key.ofBytes plain ≠ s.herTempPubKey

/-- The packet is a first hello or a first key packet: its temporary key was drawn for it. -/
def Net.Sent.Draws (r : net.Sent) : Prop := r.packet.nonce = 0 ∨ r.packet.nonce = 2

/-- The packet is data that `i` has sealed with the temporary key `t`. -/
def DataUnder (L : List net.Sent) (i : net.Index) (t : Key) (a : net.Sent) : Prop :=
  a ∈ L ∧ a.author = i ∧ 4 ≤ a.packet.nonce ∧ a.temp = t

/-! ## What a move changes -/

/-- What a move does to the keys of the session and to the list of its packets: it has no key any more,
it draws one, it goes on with the keys it has, or it takes up a key of the peer. -/
inductive Change (w w' : net.World) (i : net.Index) (st st' : Stage) : Prop where
  | drop (ht : st'.temp = none)
  | draw {x : Key} (hx : w.Fresh x) (ht : st'.temp = some x)
      (hsent : ∀ {r}, r ∈ w'.sent → r ∈ w.sent ∨ (r.packet.nonce < 4 ∧ r.time = w.sent.length))
      (hstart : st'.initiator = true → st'.her = .zero ∧ w'.held i = [])
  | keep (ht : st'.temp = st.temp) (hi : st'.initiator = st.initiator) (hher : st'.her = st.her)
      (hheld : w'.held i = w.held i ∨ (st.her = .zero ∧ w'.held i = []))
      (hdata : ∀ {a t}, DataUnder w'.sent i t a →
        DataUnder w.sent i t a ∨ (st.temp = some t ∧ a.her = st.her ∧ st.her ≠ .zero ∧ a.time = w.sent.length))
      (hdraw : ∀ {d}, d ∈ w'.sent → d.author = i → d.Draws → st.temp = some d.temp → d ∈ w.sent)
  | take {k : Key} (ht : st'.temp = st.temp) (hi : st'.initiator = true) (hher : st'.her = k)
      (hz : k ≠ .zero) (hi₀ : st.initiator = true) (hsent : w'.sent = w.sent)
      (hheld : w'.held i = if k = st.her then w.held i else k :: w.held i)

theorem heldAfter_keep (hher : s'.herTempPubKey = s.herTempPubKey) (held : List Key) :
    Net.World.heldAfter s s' held = held ∨ (s.herTempPubKey = .zero ∧ Net.World.heldAfter s s' held = []) := by
  by_cases hz : s'.herTempPubKey = .zero
  · exact .inr ⟨hher ▸ hz, by rw [Net.World.heldAfter, if_pos hz]⟩
  · exact .inl (by rw [Net.World.heldAfter, if_neg hz, if_pos hher])

theorem Stage.initiator_of_temp (h : st.temp = none) : st.initiator = false := by
  cases st with
  | idle => rfl
  | greeted y => rfl
  | keyed k y => rfl
  | _ => exact nomatch h

theorem Stage.establish_initiator : st.establish.initiator = st.initiator := by
  cases st with
  | talking x k n => simp [establish]; split <;> rfl
  | _ => rfl

variable {x : Key}

theorem Stage.take_keys (hst : st.asker = some x) (k : Key) :
    (st.take k).temp = st.temp ∧ (st.take k).initiator = true ∧ (st.take k).her = k ∧ st.initiator = true := by
  obtain ⟨n, htake⟩ := Stage.take_eq hst k
  cases st with
  | helloed x | talking x k n => cases hst; exact ⟨rfl, rfl, rfl, rfl⟩
  | _ => exact nomatch hst

variable (hat : At s st)
include hat

theorem At.initiator_eq : s.isInitiator = st.initiator := by
  cases st with
  | talking x k n => exact hat.2.2.2.1
  | settled b t h n => exact hat.2.2.2.1
  | late t h k n => exact hat.2.2.1
  | _ => exact hat.2.1

theorem At.of_asker (hst : st.asker = some x) :
    s.ourTempPrivKey = x ∧ s.isInitiator = true ∧ s.established = false := by
  cases st with
  | helloed x => cases hst; exact ⟨hat.2.2.2.1, hat.2.1, hat.2.2.1⟩
  | talking x k n => cases hst; exact ⟨hat.2.2.2.2.2.1, hat.2.2.2.1, hat.2.2.2.2.1⟩
  | _ => exact nomatch hst

theorem Change.of_send {r : net.Sent} (hat' : At s' st') (ht : st'.temp = st.temp)
    (hi : st'.initiator = st.initiator) (hher : st'.her = st.her) (hsent : w'.sent = r :: w.sent)
    (htime : r.time = w.sent.length) (hheld : w'.held i = Net.World.heldAfter s s' (w.held i))
    (hdata : 4 ≤ r.packet.nonce → st.temp = some r.temp ∧ r.her = st.her ∧ st.her ≠ .zero)
    (hdraw : r.Draws → st.temp ≠ some r.temp) : Change w w' i st st' := by
  refine .keep ht hi hher ?_ (fun {a t} ha => ?_) fun {d} hd _ hdraws hst => ?_
  · rw [hheld, ← hat.her_eq]
    exact heldAfter_keep (by rw [hat.her_eq, hat'.her_eq, hher]) _
  · obtain ⟨ha, hauthor, h4, rfl⟩ := ha
    rw [hsent] at ha
    rcases mem_cons.mp ha with rfl | ha
    · obtain ⟨h1, h2, h3⟩ := hdata h4
      exact .inr ⟨h1, h2, h3, htime⟩
    · exact .inl ⟨ha, hauthor, h4, rfl⟩
  · rw [hsent] at hd
    rcases mem_cons.mp hd with rfl | hd
    · exact absurd hst (hdraw hdraws)
    · exact hd

theorem Change.of_sends {r : net.Sent} {draw : Draw} {hash : Option Key} {n : Nat} {letter : Letter}
    (hat' : At s' st') (hgood : Good w.sent i st)
    (hsend : Sends C (net.priv (net.node i)) (net.peer i) draw hash r.msg st n letter st') (hidle : st ≠ .idle)
    (hfresh : n = 2 → w.Fresh draw.tempPrivKey) (hsent : w'.sent = r :: w.sent) (hsession : r.session = s')
    (hnonce : r.packet.nonce = n) (htime : r.time = w.sent.length)
    (hheld : w'.held i = Net.World.heldAfter s s' (w.held i)) : Change w w' i st st' := by
  have htemp : r.temp = s'.ourTempPrivKey := congrArg Session.ourTempPrivKey hsession
  have hher : r.her = s'.herTempPubKey := congrArg Session.herTempPubKey hsession
  have hnodraw : n ≠ 0 → n ≠ 2 → r.Draws → st.temp ≠ some r.temp := fun h0 h2 hd => by
    rcases hd with hd | hd
    · exact absurd (hnonce.symm.trans hd) h0
    · exact absurd (hnonce.symm.trans hd) h2
  cases hsend with
  | hello => exact absurd rfl hidle
  | key y =>
    refine .draw (hfresh rfl) rfl (fun {r'} hr => ?_) nofun
    rw [hsent] at hr
    rcases mem_cons.mp hr with rfl | hr
    · exact .inr ⟨by omega, htime⟩
    · exact .inl hr
  | talk x k n h4 hlt | data b t h n h4 hlt =>
    have ⟨_, _, _, _, _, hours, _, hhers, hz, _⟩ := hat'
    refine .of_send hat hat' rfl rfl rfl hsent htime hheld (fun _ => ⟨?_, ?_, hz⟩) (hnodraw (by omega) (by omega))
    · rw [htemp, hours]; rfl
    · rw [hher, hhers]; rfl
  | lateKey t h k =>
    refine .of_send hat hat' rfl rfl rfl hsent htime hheld (by omega) fun _ hst => ?_
    -- the key drawn now is not the one its data was sealed with
    obtain ⟨r₀, hr₀, -, hr₀t, -⟩ := hgood.1
    have hdrawn : t = draw.tempPrivKey := (Option.some.inj hst).trans (htemp.trans hat'.2.2.2.2.1)
    exact (hfresh rfl).ne_temp r₀ hr₀ (by rw [hr₀t, hdrawn])
  | _ => exact .of_send hat hat' rfl rfl rfl hsent htime hheld (by omega) (hnodraw (by omega) (by omega))

theorem Change.of_receives {packet : Packet C} {rp rp' : ReplayProtector} {err : DecryptErr} {a H : Key}
    (hat' : At s' st') (hrec : Receives C a H packet st rp err st' rp') (hsent : w'.sent = w.sent)
    (hheld : w'.held i = Net.World.heldAfter s s' (w.held i)) : Change w w' i st st' := by
  have hkeep : st'.temp = st.temp → st'.initiator = st.initiator → st'.her = st.her → Change w w' i st st' :=
    fun ht hi hher => by
      refine .keep ht hi hher ?_ (fun ha => .inl (hsent ▸ ha)) fun hd _ _ _ => hsent ▸ hd
      rw [hheld, ← hat.her_eq]
      exact heldAfter_keep (by rw [hat.her_eq, hat'.her_eq, hher]) _
  cases hrec with
  | greet _ _ _ => exact .drop rfl
  | key hst _ hz _ =>
    obtain ⟨ht, hi, hher, hi₀⟩ := Stage.take_keys hst (Key.ofBytes _)
    refine .take ht hi hher hz hi₀ hsent ?_
    rw [hheld, Net.World.heldAfter, hat'.her_eq, hat.her_eq, hher, if_neg hz]
  | establish hst _ _ _ =>
    refine hkeep ?_ Stage.establish_initiator Stage.establish_her
    rw [Stage.temp_of_secret (.inr (Stage.establish_running hst)), Stage.temp_of_secret (.inl hst)]
  | _ => exact hkeep rfl rfl rfl

theorem Moves.change (hat' : At s' st') (hgood : Good w.sent i st) (h : Moves w e w' i s st s' st') :
    Change w w' i st st' := by
  cases h with
  | stay hs hheld _ hsent =>
    refine .keep rfl rfl rfl (hat.her_eq ▸ hheld) (fun {a t} ha => ?_) fun {d} hd hauthor _ _ => ?_
    · obtain ⟨ha, hauthor, h⟩ := ha
      rcases hsent ha with ha | hne
      · exact .inl ⟨ha, hauthor, h⟩
      · exact absurd hauthor hne
    · rcases hsent hd with hd | hne
      · exact hd
      · exact absurd hauthor hne
  | hello r hfresh hsent _ _ hnonce htime _ hheld =>
    refine .draw hfresh rfl (fun {r'} hr => ?_) fun _ => ⟨rfl, ?_⟩
    · rw [hsent] at hr
      rcases mem_cons.mp hr with rfl | hr
      · exact .inr ⟨by omega, htime⟩
      · exact .inl hr
    · have hz : s'.herTempPubKey = .zero := hat'.her_eq
      rw [hheld, Net.World.heldAfter, if_pos hz]
  | send r hsend hidle hfresh hsent _ hsession hnonce htime _ _ hheld =>
    exact .of_sends hat hat' hgood hsend hidle hfresh hsent hsession hnonce htime hheld
  | receive _ _ hrec hsent _ hheld => exact .of_receives hat hat' hrec hsent hheld

omit hat

/-! ## The order of the packets -/

/-- What the order of the packets says of a session and its key: data under other keys was sent before
the key was drawn (`latest`); a session that has answered a hello has sent data under one key of the
peer only (`single`); all keys of the peer that the initiator has sent data under are among those it has
taken up since its hello (`mem`), and if it never went back to one, it has not left the one it has
(`back`). -/
structure Dated (w : net.World) (i : net.Index) (st : Stage) : Prop where
  latest : ∀ {a d p}, DataUnder w.sent i p a → d ∈ w.sent → d.author = i → d.Draws → st.temp = some d.temp →
    p ≠ d.temp → a.time < d.time
  single : ∀ {t a}, st.temp = some t → DataUnder w.sent i t a → st.initiator = false → a.her = st.her
  mem : ∀ {t a}, st.temp = some t → DataUnder w.sent i t a → st.initiator = true → a.her ∈ w.held i
  her_mem : st.initiator = true → st.her ≠ .zero → st.her ∈ w.held i
  start : st.initiator = true → st.her = .zero → w.held i = []
  back : ∀ {t a b}, st.temp = some t → (w.held i).Nodup → DataUnder w.sent i t a → DataUnder w.sent i t b →
    st.initiator = true → a.her = st.her → a.time < b.time → b.her = st.her

theorem Dated.of_none (ht : st.temp = none) : Dated w i st where
  latest _ _ _ _ h := nomatch ht.symm.trans h
  single h := nomatch ht.symm.trans h
  mem h := nomatch ht.symm.trans h
  her_mem h := absurd h (by rw [Stage.initiator_of_temp ht]; decide)
  start h := absurd h (by rw [Stage.initiator_of_temp ht]; decide)
  back h := nomatch ht.symm.trans h

theorem Dated.of_draw (htimes : ∀ r ∈ w.sent, r.time < w.sent.length) (hx : w.Fresh x) (ht : st'.temp = some x)
    (hsent : ∀ {r}, r ∈ w'.sent → r ∈ w.sent ∨ (r.packet.nonce < 4 ∧ r.time = w.sent.length))
    (hstart : st'.initiator = true → st'.her = .zero ∧ w'.held i = []) : Dated w' i st' := by
  have hold : ∀ {p a}, DataUnder w'.sent i p a → a ∈ w.sent := fun ha => by
    rcases hsent ha.1 with h | ⟨hlt, -⟩
    · exact h
    · exact absurd ha.2.2.1 (by omega)
  have hnone : ∀ {t a}, st'.temp = some t → ¬ DataUnder w'.sent i t a := fun hst ha => by
    cases ht.symm.trans hst
    exact hx.ne_temp _ (hold ha) (by rw [ha.2.2.2])
  exact {
    latest := fun {a d p} ha hd _ _ hst _ => by
      rcases hsent hd with hd | ⟨-, htime⟩
      · have hxd : x = d.temp := Option.some.inj (ht.symm.trans hst)
        exact absurd (congrArg C.scalarmultBase hxd) (hx.ne_temp d hd)
      · rw [htime]
        exact htimes a (hold ha)
    single := fun hst ha => absurd ha (hnone hst)
    mem := fun hst ha => absurd ha (hnone hst)
    her_mem := fun hi hz => absurd (hstart hi).1 hz
    start := fun hi _ => (hstart hi).2
    back := fun hst _ ha => absurd ha (hnone hst) }

theorem Dated.change (htimes : ∀ r ∈ w.sent, r.time < w.sent.length) (h : Dated w i st) (hc : Change w w' i st st') :
    Dated w' i st' := by
  cases hc with
  | drop ht => exact .of_none ht
  | draw hx ht hsent hstart => exact .of_draw htimes hx ht hsent hstart
  | keep ht hi hher hheld hdata hdraw =>
    have hsame : st.initiator = true → w'.held i = w.held i := fun hst => by
      rcases hheld with h' | ⟨hz, h'⟩
      · exact h'
      · rw [h', h.start hst hz]
    exact {
      latest := fun {a d p} ha hd hauthor hdraws hst hne => by
        rw [ht] at hst
        rcases hdata ha with ha | ⟨hp, -⟩
        · exact h.latest ha (hdraw hd hauthor hdraws hst) hauthor hdraws hst hne
        · exact absurd (Option.some.inj (hp.symm.trans hst)) hne
      single := fun hst ha hr => by
        rw [hher]
        rcases hdata ha with ha | ⟨-, ha, -⟩
        · exact h.single (ht ▸ hst) ha (hi ▸ hr)
        · exact ha
      mem := fun hst ha hr => by
        rw [hi] at hr
        rw [hsame hr]
        rcases hdata ha with ha | ⟨-, ha, hz, -⟩
        · exact h.mem (ht ▸ hst) ha hr
        · rw [ha]
          exact h.her_mem hr hz
      her_mem := fun hr hz => by
        rw [hi] at hr
        rw [hsame hr, hher]
        exact h.her_mem hr (hher ▸ hz)
      start := fun hr hz => by
        rw [hi] at hr
        rw [hsame hr]
        exact h.start hr (hher ▸ hz)
      back := fun {t a b} hst hnodup ha hb hr haher hlt => by
        rw [hi] at hr
        rw [hsame hr] at hnodup
        rw [hher] at haher ⊢
        rcases hdata hb with hb | ⟨-, hb, -⟩
        · rcases hdata ha with ha | ⟨-, -, -, htime⟩
          · exact h.back (ht ▸ hst) hnodup ha hb hr haher hlt
          · have := htimes b hb.1
            omega
        · exact hb }
  | @take k ht hi hher hz hi₀ hsent hheld =>
    have hsub : ∀ {y}, y ∈ w.held i → y ∈ w'.held i := fun hy => by
      rw [hheld]
      split
      · exact hy
      · exact mem_cons_of_mem _ hy
    exact {
      latest := fun ha hd hauthor hdraws hst hne => h.latest (hsent ▸ ha) (hsent ▸ hd) hauthor hdraws (ht ▸ hst) hne
      single := fun _ _ hr => absurd (hi.symm.trans hr) (by decide)
      mem := fun hst ha _ => hsub (h.mem (ht ▸ hst) (hsent ▸ ha) hi₀)
      her_mem := fun _ _ => by
        rw [hher, hheld]
        split
        next heq => rw [heq]; exact h.her_mem hi₀ (heq ▸ hz)
        · exact mem_cons_self
      start := fun _ hzero => absurd (hher.symm.trans hzero) hz
      back := fun {t a b} hst hnodup ha hb _ haher hlt => by
        rw [hheld] at hnodup
        rw [hher] at haher ⊢
        rw [hsent] at ha hb
        split at hnodup
        next heq => exact heq ▸ h.back (ht ▸ hst) hnodup ha hb hi₀ (heq ▸ haher) hlt
        · exact absurd (haher ▸ h.mem (ht ▸ hst) ha hi₀) (nodup_cons.mp hnodup).1 }

/-! ## Runs -/

/-- What a step adds to the packets sent: a packet with the next number, whose key is new if it was drawn
for it. -/
theorem Net.Step.sent_next (hI : Inv w) (h : Net.Step w e w') :
    w'.sent = w.sent ∨ ∃ r, w'.sent = r :: w.sent ∧ r.time = w.sent.length ∧ (r.Draws → w.Fresh r.temp) := by
  cases h with
  | @send i now draw msg s s' packet hs hret hfresh hmsg =>
    refine .inr ⟨⟨i, s', packet, msg, w.sent.length⟩, rfl, rfl, fun hdraws => ?_⟩
    obtain ⟨hher, st, hat, hgood⟩ := hI.current i s hs
    obtain ⟨-, st₀, n, st', hash, letter, hst₀, hn, hsend, hat', hbox⟩ := encrypt_sends hat hret
    rw [hher] at hsend
    have hgood₀ := hgood.start hst₀
    obtain ⟨-, -, -, htemp⟩ := hI.sends (r := ⟨i, s', packet, msg, w.sent.length⟩) hgood₀ hat' hsend hn hbox
    rw [htemp (hn ▸ hdraws)]
    exact hfresh hdraws
  | _ => exact .inl rfl

variable {past : List net.World}

theorem times_of_run (h : Transition.Run net.system w past) :
    ∀ r ∈ w.sent, r.time < w.sent.length := by
  refine h.invariant (I := fun w => ∀ r ∈ w.sent, r.time < w.sent.length) (fun w hw r hr => ?_)
    fun w past e w' _ ih hstep r hr => ?_
  · rw [hw.2.1] at hr
    exact nomatch hr
  · rcases Net.Step.sent_cases hstep with h | ⟨r₀, h, -, htime⟩
    · rw [h] at hr ⊢
      exact ih r hr
    · rw [h] at hr ⊢
      rcases mem_cons.mp hr with rfl | hr
      · rw [htime]
        exact Nat.lt_succ_self _
      · exact (ih r hr).trans (Nat.lt_succ_self _)

/-- Data goes out under a key of the peer only after it was drawn. -/
theorem her_drawn_of_run (hC : C.Ideal) (h : Transition.Run net.system w past) :
    ∀ a ∈ w.sent, ∀ d ∈ w.sent, net.HonestPeer a.author → 4 ≤ a.packet.nonce → d.Draws →
      C.scalarmultBase d.temp = a.her → d.time < a.time := by
  refine h.invariant (I := fun w => ∀ a ∈ w.sent, ∀ d ∈ w.sent, net.HonestPeer a.author → 4 ≤ a.packet.nonce → d.Draws →
      C.scalarmultBase d.temp = a.her → d.time < a.time) (fun w hw a ha => ?_)
    fun w past e w' hrun ih hstep a ha d hd hp h4 hdraws hher => ?_
  · rw [hw.2.1] at ha
    exact nomatch ha
  · have hI := inv_of_run hC hrun
    rcases Net.Step.sent_next hI hstep with h | ⟨r, h, htime, hfresh⟩
    · exact ih a (h ▸ ha) d (h ▸ hd) hp h4 hdraws hher
    rw [h] at ha hd
    rcases mem_cons.mp hd with rfl | hd'
    · rcases mem_cons.mp ha with rfl | ha'
      · rcases hdraws with h0 | h2 <;> omega
      · -- the key of the peer had been drawn when the data was sent
        obtain ⟨j, q, ⟨r₁, hr₁, -, rfl, -⟩, he, -⟩ := hI.data_her ha' h4 hp
        exact absurd (hher.trans he.symm) ((hfresh hdraws).ne_temp r₁ hr₁)
    · rcases mem_cons.mp ha with rfl | ha'
      · rw [htime]
        exact times_of_run hrun d hd'
      · exact ih a ha' d hd' hp h4 hdraws hher

/-- An end that has answered a hello sends data only after it has got some under the same keys. -/
theorem answered_of_run (hC : C.Ideal) (h : Transition.Run net.system w past) :
    ∀ r ∈ w.sent, net.HonestPeer r.author → 4 ≤ r.packet.nonce → r.session.isInitiator = false →
      ∃ a ∈ w.sent, a.time < r.time ∧ 4 ≤ a.packet.nonce ∧ net.Facing r.author a.author ∧
        a.session.isInitiator = true ∧ C.scalarmultBase a.temp = r.her ∧ a.her = C.scalarmultBase r.temp := by
  refine h.invariant (I := fun w => ∀ r ∈ w.sent, net.HonestPeer r.author → 4 ≤ r.packet.nonce →
      r.session.isInitiator = false → ∃ a ∈ w.sent, a.time < r.time ∧ 4 ≤ a.packet.nonce ∧
        net.Facing r.author a.author ∧ a.session.isInitiator = true ∧ C.scalarmultBase a.temp = r.her ∧
        a.her = C.scalarmultBase r.temp) (fun w hw r hr => ?_) fun w past e w' hrun ih hstep r hr hp h4 hi => ?_
  · rw [hw.2.1] at hr
    exact nomatch hr
  · have hI' := (inv_of_run hC hrun).step hC hstep
    rcases Net.Step.sent_cases hstep with h | ⟨r₀, h, -, htime⟩
    · rw [h] at hr ⊢
      exact ih r hr hp h4 hi
    · have hproper := (hI'.proper r hr).data h4
      rw [h] at hr ⊢
      rcases mem_cons.mp hr with rfl | hr
      · rw [if_neg (by rw [hi]; decide)] at hproper
        obtain ⟨a, ha, ha4, hf, hai, hat, haher⟩ := hproper.2 hp
        rw [h] at ha
        rcases mem_cons.mp ha with rfl | ha
        · exact absurd (hi.symm.trans hai) (by decide)
        · exact ⟨a, mem_cons_of_mem _ ha, htime ▸ times_of_run hrun a ha, ha4, hf, hai, hat, haher⟩
      · obtain ⟨a, ha, h⟩ := ih r hr hp h4 hi
        exact ⟨a, mem_cons_of_mem _ ha, h⟩

theorem dated_of_run (hC : C.Ideal) (h : Transition.Run net.system w past) :
    ∀ i s, w.sessions i = some s → ∃ st, At s st ∧ Good w.sent i st ∧ Dated w i st :=
  (staged_of_run (P := fun w i _ st => Dated w i st) hC id id (fun _ => .of_none rfl)
    (fun hrun _ _ _ hat hat' hgood hd hm => hd.change (times_of_run hrun) (hm.change hat hat' hgood)) h).2

/-! ## The two ends -/

theorem Stage.of_running {b} {t k} (h : st.running = some (b, t, k)) :
    st.temp = some t ∧ st.her = k ∧ st.initiator = b := by
  cases st with
  | settled b t k n | late t k k' n => cases h; exact ⟨rfl, rfl, rfl⟩
  | _ => exact nomatch h

/-- One of two sessions that are established with each other, as the other one sees it: the data packet it
was sent under its key, and the packet it drew the key for. -/
structure Ends (w : net.World) (i j : net.Index) (st : Stage) (b : Bool) (t k : Key) (r d : net.Sent) : Prop where
  dated : Dated w i st
  running : st.running = some (b, t, k)
  drew : Drew w.sent i b t
  drawn : d ∈ w.sent ∧ d.author = i ∧ d.Draws ∧ d.temp = t
  data : DataUnder w.sent j r.temp r
  flag : r.session.isInitiator = !b
  key : C.scalarmultBase r.temp = k
  her : r.her = C.scalarmultBase t

theorem exists_ends (hC : C.Ideal) (hrun : Transition.Run net.system w past) (hf : net.Facing i j)
    (honly : ∀ l, net.Facing i l → l = j) (hs : w.sessions i = some s) (he : s.established = true) :
    ∃ st b t k r d, Ends w i j st b t k r d ∧ s.isInitiator = b ∧
      s.sharedSecret = C.getSharedSecret t k none := by
  obtain ⟨st, hat, hgood, hdated⟩ := dated_of_run hC hrun i s hs
  obtain ⟨⟨b, t, k⟩, hst⟩ := Option.isSome_iff_exists.mp (hat.established_iff.mp he)
  obtain ⟨hdrew, hheard⟩ := hgood.running hst
  obtain ⟨r, hr, h4, hface, hflag, hkey, hher⟩ := hheard hf.honestPeer
  have ⟨d, hd, hauthor, htemp, hn⟩ := hdrew
  have hdraws : d.Draws := by
    cases b with
    | true => exact .inl hn
    | false => exact .inr hn
  obtain ⟨hi, hsec⟩ := hat.of_running hst
  exact ⟨st, b, t, k, r, d, ⟨hdated, hst, hdrew, ⟨hd, hauthor, hdraws, htemp⟩, ⟨hr, honly _ hface, h4, rfl⟩, hflag, hkey,
    hher⟩, hi, hsec⟩

section ends
variable {b b' : Bool} {t t' k k' : Key} {r r' d d' : net.Sent}

variable {past : List net.World}

/-- The data one end was sent was sealed with the key of the other end, or the other way round. If not,
each of the four packets would have been sent before the next one, in a circle. -/
theorem Ends.circle (hC : C.Ideal) (hrun : Transition.Run net.system w past) (hf : net.Facing i j)
    (h : Ends w i j st b t k r d) (h' : Ends w j i st' b' t' k' r' d') :
    r.temp = t' ∨ r'.temp = t := by
  by_contra hnone
  obtain ⟨hne, hne'⟩ := not_or.mp hnone
  obtain ⟨hd, hdauthor, hdraws, rfl⟩ := h.drawn
  obtain ⟨hd', hdauthor', hdraws', rfl⟩ := h'.drawn
  have h1 : r'.time < d.time :=
    h.dated.latest h'.data hd hdauthor hdraws (Stage.of_running h.running).1 hne'
  have h2 : d.time < r.time :=
    her_drawn_of_run hC hrun r h.data.1 d hd (h.data.2.1 ▸ hf.symm.honestPeer) h.data.2.2.1 hdraws h.her.symm
  have h3 : r.time < d'.time :=
    h'.dated.latest h.data hd' hdauthor' hdraws' (Stage.of_running h'.running).1 hne
  have h4 : d'.time < r'.time :=
    her_drawn_of_run hC hrun r' h'.data.1 d' hd' (h'.data.2.1 ▸ hf.honestPeer) h'.data.2.2.1 hdraws' h'.her.symm
  omega

theorem Ends.drew_data (hI : Inv w) (h : Ends w i j st b t k r d) : Drew w.sent j (!b) r.temp := by
  obtain ⟨hr, rfl, h4, -⟩ := h.data
  exact h.flag ▸ ((hI.proper r hr).data h4).1

theorem Ends.opposite (hC : C.Ideal) (hrun : Transition.Run net.system w past) (hf : net.Facing i j)
    (h : Ends w i j st b t k r d) (h' : Ends w j i st' b' t' k' r' d') : b = !b' := by
  have hI := inv_of_run hC hrun
  rcases h.circle hC hrun hf h' with heq | heq
  · have := (hI.drew_inj (h.drew_data hI) h'.drew (by rw [heq])).2.1
    rw [← this, Bool.not_not]
  · exact (hI.drew_inj (h'.drew_data hI) h.drew (by rw [heq])).2.1.symm

theorem Ends.same_secret (hC : C.Ideal) (hr : C.scalarmultBase r.temp = C.scalarmultBase t') (hk' : k' = C.scalarmultBase t)
    (h : Ends w i j st b t k r d) : C.getSharedSecret t k none = C.getSharedSecret t' k' none := by
  rw [← h.key, hr, hk']
  exact hC.shared_comm _ _ _

/-- The initiator and the other end have one secret, if the initiator never went back to a key. -/
theorem Ends.agree (hC : C.Ideal) (hrun : Transition.Run net.system w past) (hf : net.Facing i j)
    (honly : ∀ l, net.Facing j l → l = i) (h : Ends w i j st true t k r d) (h' : Ends w j i st' false t' k' r' d')
    (hnodup : (w.held i).Nodup) :
    C.getSharedSecret t k none = C.getSharedSecret t' k' none := by
  have hI := inv_of_run hC hrun
  obtain ⟨htemp, hher, hinit⟩ := Stage.of_running h.running
  obtain ⟨htemp', hher', hinit'⟩ := Stage.of_running h'.running
  by_cases heq : r.temp = t'
  · -- the other end has sent the data under the key it still has, and so to the key it still has
    refine h.same_secret hC (by rw [heq]) ?_
    rw [← hher', ← h'.dated.single htemp' (heq ▸ h.data) hinit', h.her]
  · have heq' := (h.circle hC hrun hf h').resolve_left heq
    -- the initiator has sent data to the first key, then to the second, and now has the first one
    obtain ⟨hr, hauthor, h4, -⟩ := h.data
    obtain ⟨a, ha, hlt, ha4, hface, hai, hat, haher⟩ := answered_of_run hC hrun r hr (hauthor ▸ hf.symm.honestPeer) h4 h.flag
    have haauthor : a.author = i := honly _ (hauthor ▸ hface)
    have hatemp : a.temp = t := by
      have hda := ((hI.proper a ha).data ha4).1
      exact (hI.drew_inj hda h.drew (by rw [hat, h.her])).2.2
    obtain ⟨hd', hdauthor', hdraws', rfl⟩ := h'.drawn
    have h1 : r.time < d'.time := h'.dated.latest h.data hd' hdauthor' hdraws' htemp' heq
    have h2 : d'.time < r'.time := her_drawn_of_run hC hrun r' h'.data.1 d' hd' (h'.data.2.1 ▸ hf.honestPeer)
      h'.data.2.2.1 hdraws' h'.her.symm
    have hback := h.dated.back htemp hnodup ⟨ha, haauthor, ha4, hatemp⟩ (heq' ▸ h'.data) hinit
      (by rw [haher, h.key, hher]) (by omega)
    have hsame : C.scalarmultBase r.temp = C.scalarmultBase d'.temp := by
      rw [h.key, ← h'.her, hback, hher]
    exact absurd (hI.drew_inj (h.drew_data hI) h'.drew hsame).2.2 heq

end ends

/-! ## Never going back -/

/-- An initiator takes up a key from a key packet, while it is not established. -/
theorem Moves.taken (hat : At s st) (h : Moves w e w' i s st s' st') (hi : st'.initiator = true)
    (hz : st'.her ≠ .zero) (hne : st'.her ≠ st.her) : ∃ packet x hash plain, e = .deliver i packet ∧
      st.asker = some x ∧ packet.nonce < 4 ∧
      C.openAfternm (C.getSharedSecret x (net.peer i) hash) packet.handshakeNonce packet.box = some plain ∧
      st'.her = Key.ofBytes plain := by
  cases h with
  | stay _ _ _ _ => exact absurd rfl hne
  | hello _ _ _ _ _ _ _ _ _ => exact absurd rfl hz
  | send _ hsend hidle _ _ _ _ _ _ _ _ _ =>
    cases hsend with
    | hello => exact absurd rfl hidle
    | _ => exact absurd rfl hne
  | receive hevent _ hrec _ _ _ =>
    generalize s.replayProtector = rp, s'.replayProtector = rp' at hrec
    cases hrec with
    | greet _ _ _ => exact nomatch hi
    | key hst hopen _ hnonce => exact ⟨_, _, _, _, hevent, hst, hnonce, hopen, (Stage.take_keys hst _).2.2.1⟩
    | establish _ _ _ _ => exact absurd Stage.establish_her hne
    | _ => exact absurd rfl hne

/-- The session has not gone back to a key. -/
theorem Moves.nodup (hnot : ¬ Reverts w e) (hs : w.sessions i = some s) (hat : At s st) (hat' : At s' st')
    (hgood : Good w.sent i st) (h : st.initiator = true → (w.held i).Nodup) (hm : Moves w e w' i s st s' st')
    (hi' : st'.initiator = true) : (w'.held i).Nodup := by
  cases hm.change hat hat' hgood with
  | drop ht => exact absurd hi' (by rw [Stage.initiator_of_temp ht]; decide)
  | draw _ _ _ hstart =>
    rw [(hstart hi').2]
    exact nodup_nil
  | keep _ hi _ hheld _ _ =>
    rcases hheld with hheld | ⟨-, hheld⟩
    · rw [hheld]
      exact h (hi ▸ hi')
    · rw [hheld]
      exact nodup_nil
  | @take k _ _ hher hz hi₀ _ hheld =>
    rw [hheld]
    split
    · exact h hi₀
    next hne =>
      refine nodup_cons.mpr ⟨fun hmem => hnot ?_, h hi₀⟩
      obtain ⟨packet, x, hash, plain, hevent, hasker, hnonce, hopen, hk⟩ := hm.taken hat hi' (hher ▸ hz) (hher ▸ hne)
      obtain ⟨hours, hflag, hest⟩ := hat.of_asker hasker
      rw [hher] at hk
      subst hk
      exact ⟨i, packet, s, hash, plain, hevent, hs, hflag, hest, hnonce, hours ▸ hopen, hmem, hat.her_eq ▸ hne⟩

theorem nodup_of_run (hC : C.Ideal) (h : Transition.Run (net.system.restrict fun w e => ¬ Reverts w e) w past)
    (hs : w.sessions i = some s) (hi : s.isInitiator = true) : (w.held i).Nodup := by
  obtain ⟨st, hat, -, hnodup⟩ := (staged_of_run (T := net.system.restrict fun w e => ¬ Reverts w e)
    (P := fun w i _ st => st.initiator = true → (w.held i).Nodup) hC id And.right (fun _ => nofun)
    (fun _ hstep _ hs hat hat' hgood h hm => hm.nodup hstep.1 hs hat hat' hgood h) h).2 i s hs
  exact hnodup (hat.initiator_eq ▸ hi)

/-- Whenever two sessions that are kept for each other are both established, in a run without packets that
bring an initiator back to a key it had replaced, they have one secret and are its opposite ends. -/
theorem established_agree (hC : C.Ideal) {w : net.World} {past : List net.World}
    (hrun : Transition.Run (net.system.restrict fun w e => ¬ Reverts w e) w past) {i j : net.Index}
    {s s' : Session C} (hf : net.Facing i j) (hi : ∀ l, net.Facing i l → l = j) (hj : ∀ l, net.Facing j l → l = i)
    (hs : w.sessions i = some s) (hs' : w.sessions j = some s') (he : s.established = true)
    (he' : s'.established = true) : s.sharedSecret = s'.sharedSecret ∧ s.isInitiator = !s'.isInitiator := by
  have hrun' := hrun.of_restrict
  obtain ⟨st, b, t, k, r, d, hends, rfl, hsec⟩ := exists_ends hC hrun' hf hi hs he
  obtain ⟨st', b', t', k', r', d', hends', rfl, hsec'⟩ := exists_ends hC hrun' hf.symm hj hs' he'
  have hopp := hends.opposite hC hrun' hf hends'
  refine ⟨?_, hopp⟩
  rw [hsec, hsec']
  cases hb : s'.isInitiator with
  | false =>
    have hb' : s.isInitiator = true := by rw [hopp, hb]; rfl
    rw [hb] at hends'
    rw [hb'] at hends
    exact hends.agree hC hrun' hf hj hends' (nodup_of_run hC hrun hs hb')
  | true =>
    have hb' : s.isInitiator = false := by rw [hopp, hb]; rfl
    rw [hb] at hends'
    rw [hb'] at hends
    exact (hends'.agree hC hrun' hf.symm hi hends (nodup_of_run hC hrun hs' hb)).symm

end

namespace Duo

/-- The session has only ever taken up the key it has. -/
def steady (w : duo.World) : Move → Bool
  | .deliver i _ => (w.sessions i).all fun s => (w.held i).all fun k => k = s.herTempPubKey
  | _ => true

theorem not_reverts_of_steady {w} {m} {e} (h : steady w m = true)
    (he : event w m = some e) : ¬ Reverts w e := by
  rintro ⟨i, packet, s, hash, plain, rfl, hs, -, -, -, -, hmem, hne⟩
  cases m with
  | deliver j k =>
    obtain ⟨r, -, hr⟩ := Option.map_eq_some_iff.mp he
    cases hr
    simp only [steady, hs, Option.all_some, all_eq_true, decide_eq_true_eq] at h
    exact hne (h _ hmem)
  | _ => exact nomatch he

/-- Both ends are established. -/
def bothEstablished (w : duo.World) : Bool :=
  (w.sessions false).any (·.established) && (w.sessions true).any (·.established)

theorem facing : duo.Facing false true := ⟨.of_eq rfl, .of_eq rfl⟩

theorem facing_iff {i l : Bool} (h : duo.Facing i l) : l = !i := by
  have hne : ∀ i l : Bool, Symbolic.point (duo.peer i) = Symbolic.point (duo.pub l) → l = !i := by decide
  exact hne i l (Symbolic.alike_iff.mp h.1)

end Duo

theorem established_agree_shake : ∃ (w : duo.World) (past : List duo.World) (s s' : Session Symbolic.crypto),
    Transition.Run (duo.system.restrict fun w e => ¬ Reverts w e) w past ∧ w.sessions false = some s ∧
    w.sessions true = some s' ∧ s.established = true ∧ s'.established = true ∧
    s.sharedSecret = s'.sharedSecret ∧ s.isInitiator = !s'.isInitiator := by
  obtain ⟨w, past, hrun, hw⟩ := @Duo.exists_restricted_run (fun w e => ¬ Reverts w e) Duo.steady
    Duo.not_reverts_of_steady (Duo.shake ++ [.send false 6, .deliver true 3]) Duo.bothEstablished (by decide +kernel)
  obtain ⟨h, h'⟩ := (Bool.and_eq_true _ _).mp hw
  obtain ⟨s, hs⟩ := Option.isSome_iff_exists.mp (Option.isSome_of_any h)
  obtain ⟨s', hs'⟩ := Option.isSome_iff_exists.mp (Option.isSome_of_any h')
  rw [hs] at h
  rw [hs'] at h'
  exact ⟨w, past, s, s', hrun, hs, hs', h, h', established_agree Symbolic.ideal hrun Duo.facing
    (fun _ hl => Duo.facing_iff hl) (fun _ hl => Duo.facing_iff hl) hs hs' h h'⟩

/-- Both ends are established, with different secrets. Node `false` answers the hello of `true` with one
key, is reset and answers it with another; `true` takes up the first key, then the second one, and then the
first one again from a packet that comes a second time. -/
theorem established_disagree : ∃ (w : duo.World) (past : List duo.World) (s s' : Session Symbolic.crypto),
    Transition.Run duo.system w past ∧ w.sessions false = some s ∧ w.sessions true = some s' ∧
    s.established = true ∧ s'.established = true ∧ s.sharedSecret ≠ s'.sharedSecret := by
  obtain ⟨w, past, hrun, hw⟩ := @Duo.exists_run
    (Duo.shake ++ [.send false 6, .reset false, .deliver false 0, .send false 7, .deliver true 4, .send true 8,
      .deliver false 5, .deliver true 1, .deliver true 3])
    (fun w => (w.sessions false).any fun s => (w.sessions true).any fun s' =>
      s.established && s'.established && s.sharedSecret ≠ s'.sharedSecret) (by decide +kernel)
  obtain ⟨s, hs⟩ := Option.isSome_iff_exists.mp (Option.isSome_of_any hw)
  rw [hs, Option.any_some] at hw
  obtain ⟨s', hs'⟩ := Option.isSome_iff_exists.mp (Option.isSome_of_any hw)
  rw [hs'] at hw
  obtain ⟨hboth, hne⟩ := (Bool.and_eq_true _ _).mp hw
  obtain ⟨he, he'⟩ := (Bool.and_eq_true _ _).mp hboth
  exact ⟨w, past, s, s', hrun, hs, hs', he, he', of_decide_eq_true hne⟩

end Hyperboria.CryptoAuth
