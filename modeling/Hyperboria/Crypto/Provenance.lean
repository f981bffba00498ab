/-
Where the keys of a session come from. Everything later rests on one invariant
(`Inv`): temporary keys are drawn once, by one session, for a hello or for a key
packet; the temporary key an initiator holds was drawn for it by a session of the
peer that faces it; and an established session has been sent a data packet under
its secret by a session that faces it (`Heard`).

All of it is said of the list of packets sent so far, and so is kept by every step
that sends nothing.
-/
import Hyperboria.Crypto.Network

namespace Hyperboria.CryptoAuth

section
variable {C : Crypto} {net : Net C}

/-- Two pairs of keys are alike, in some order. -/
def SamePair (C : Crypto) (a b c d : Key) : Prop := (C.Alike a c ∧ C.Alike b d) ∨ (C.Alike a d ∧ C.Alike b c)

/-! ## What the packets say -/

/-- The session `i` drew the temporary key `p`: for a hello if `b`, for a key packet if not. -/
def Drew (L : List net.Sent) (i : net.Index) (b : Bool) (p : Key) : Prop :=
  ∃ r ∈ L, r.author = i ∧ r.temp = p ∧ r.packet.nonce = if b then 0 else 2

/-- The public key is like one that was drawn for a hello to an honest node. -/
def Hidden (L : List net.Sent) (x : Key) : Prop :=
  ∃ i p, net.HonestPeer i ∧ Drew L i true p ∧ C.Alike (C.scalarmultBase p) x

/-- What was sealed in a packet: a hello, a key packet or a data packet. -/
inductive Wrote (r : net.Sent) : Prop where
  | hello (hash : Option Key) (nonce : Nonce24) (hn : r.packet.nonce < 2)
      (hbox : r.packet.box = C.afternm (C.getSharedSecret (net.priv (net.node r.author)) (net.peer r.author) hash)
        nonce ((C.scalarmultBase r.temp).1 ++ r.msg))
  | key (hash : Option Key) (nonce : Nonce24) (h2 : 2 ≤ r.packet.nonce) (hn : r.packet.nonce < 4)
      (hbox : r.packet.box = C.afternm (C.getSharedSecret (net.priv (net.node r.author)) r.her hash)
        nonce ((C.scalarmultBase r.temp).1 ++ r.msg))
  | data (h4 : 4 ≤ r.packet.nonce) (hn : r.packet.nonce < 0xfffffff0)
      (hbox : r.packet.box = C.afternm (C.getSharedSecret r.temp r.her none)
        (counterNonce r.packet.nonce r.session.isInitiator) r.msg)

/-- The key `y` has come to `i` in a box under the secret of the two permanent keys. -/
def Met (L : List net.Sent) (i : net.Index) (y : Key) : Prop :=
  net.HonestPeer i → ∃ r ∈ L, r.packet.nonce < 4 ∧ C.scalarmultBase r.temp = y ∧
    SamePair C (net.pub (net.node r.author)) (if r.packet.nonce < 2 then net.peer r.author else r.her)
      (net.pub (net.node i)) (net.peer i)

/-- The key `k` was drawn by a session that faces `i`, in answer to the hello with `x`. -/
def Asked (L : List net.Sent) (i : net.Index) (x k : Key) : Prop :=
  net.HonestPeer i → ∃ r ∈ L, 2 ≤ r.packet.nonce ∧ r.packet.nonce < 4 ∧ C.scalarmultBase r.temp = k ∧
    r.her = C.scalarmultBase x ∧ net.Facing i r.author

/-- A session that faces `i` has sent data under the secret of `t` and `h`, as the other end. -/
def Heard (L : List net.Sent) (i : net.Index) (b : Bool) (t h : Key) : Prop :=
  net.HonestPeer i → ∃ r ∈ L, 4 ≤ r.packet.nonce ∧ net.Facing i r.author ∧ r.session.isInitiator = !b ∧
    C.scalarmultBase r.temp = h ∧ r.her = C.scalarmultBase t

/-- Where the keys of a stage come from. -/
def Good (L : List net.Sent) (i : net.Index) : Stage → Prop
  | .idle => True
  | .helloed x => Drew L i true x
  | .greeted y => Met L i y
  | .keyed k y => Drew L i false k ∧ Met L i y
  | .talking x k _ => Drew L i true x ∧ Asked L i x k
  | .settled b t h _ => Drew L i b t ∧ (b = true → Asked L i t h) ∧ Heard L i b t h
  | .late t h k n => Drew L i true t ∧ Asked L i t h ∧ Heard L i true t h ∧ (n = 3 → Drew L i false k)

/-- Where the keys of a packet come from. -/
structure Proper (L : List net.Sent) (r : net.Sent) : Prop where
  wrote : Wrote r
  hello : r.packet.nonce < 2 → Drew L r.author true r.temp
  key : 2 ≤ r.packet.nonce → r.packet.nonce < 4 → Drew L r.author false r.temp ∧
    (Met L r.author r.her ∨ (net.HonestPeer r.author → ∃ j q, Drew L j false q ∧ C.scalarmultBase q = r.her))
  data : 4 ≤ r.packet.nonce → Drew L r.author r.session.isInitiator r.temp ∧
    (if r.session.isInitiator then Asked L r.author r.temp r.her else Heard L r.author false r.temp r.her)
  secret : 4 ≤ r.packet.nonce → r.session.sharedSecret = C.getSharedSecret r.temp r.her none

/-- What holds in every world a run comes to. -/
structure Inv (w : net.World) : Prop where
  current : ∀ i s, w.sessions i = some s → s.herPublicKey = net.peer i ∧ ∃ st, At s st ∧ Good w.sent i st
  proper : ∀ r ∈ w.sent, Proper w.sent r
  alive : ∀ r ∈ w.sent, ∃ s, w.sessions r.author = some s
  drew_inj : ∀ {i j b c p q}, Drew w.sent i b p → Drew w.sent j c q →
    C.scalarmultBase p = C.scalarmultBase q → i = j ∧ b = c ∧ p = q
  drew_ne_pub : ∀ {i b p} N, Drew w.sent i b p → C.scalarmultBase p ≠ net.pub N
  drew_ne_zero : ∀ {i b p}, Drew w.sent i b p → ¬ C.Alike (C.scalarmultBase p) .zero
  clean : ∀ i s, ¬ net.HonestPeer i → w.sessions i = some s →
    ¬ Hidden w.sent (net.peer i) ∧ ¬ Hidden w.sent s.herTempPubKey
  clean_sent : ∀ r ∈ w.sent, ¬ net.HonestPeer r.author →
    ¬ Hidden w.sent (net.peer r.author) ∧ ¬ Hidden w.sent r.her ∧ ¬ Hidden w.sent (Key.ofBytes r.msg)

/-! ## Later packets take nothing away -/

section mono
variable {L L' : List net.Sent} (hsub : L ⊆ L') {i : net.Index}
include hsub

variable {b : Bool}

theorem Drew.mono {p} (h : Drew L i b p) : Drew L' i b p := by
  obtain ⟨r, hr, h⟩ := h
  exact ⟨r, hsub hr, h⟩

theorem Met.mono {y} (h : Met L i y) : Met L' i y := fun hp => by
  obtain ⟨r, hr, h⟩ := h hp
  exact ⟨r, hsub hr, h⟩

theorem Asked.mono {x k} (h : Asked L i x k) : Asked L' i x k := fun hp => by
  obtain ⟨r, hr, h⟩ := h hp
  exact ⟨r, hsub hr, h⟩

theorem Heard.mono {t k} (h : Heard L i b t k) : Heard L' i b t k := fun hp => by
  obtain ⟨r, hr, h⟩ := h hp
  exact ⟨r, hsub hr, h⟩

theorem Good.mono {st} (h : Good L i st) : Good L' i st := by
  cases st with
  | idle => exact h
  | helloed x => exact Drew.mono hsub h
  | greeted y => exact Met.mono hsub h
  | keyed k y | talking x k n => exact ⟨h.1.mono hsub, h.2.mono hsub⟩
  | settled b t k n => exact ⟨h.1.mono hsub, fun hb => (h.2.1 hb).mono hsub, h.2.2.mono hsub⟩
  | late t y k n => exact ⟨h.1.mono hsub, h.2.1.mono hsub, h.2.2.1.mono hsub, fun hn => (h.2.2.2 hn).mono hsub⟩

theorem Proper.mono {r} (h : Proper L r) : Proper L' r where
  wrote := h.wrote
  hello hn := (h.hello hn).mono hsub
  key h2 hn := by
    obtain ⟨hd, hm⟩ := h.key h2 hn
    refine ⟨hd.mono hsub, hm.imp (Met.mono hsub) fun hm hp => ?_⟩
    obtain ⟨j, q, hq, he⟩ := hm hp
    exact ⟨j, q, hq.mono hsub, he⟩
  data h4 := by
    obtain ⟨hd, hm⟩ := h.data h4
    refine ⟨hd.mono hsub, ?_⟩
    split at hm
    next hi => rw [if_pos hi]; exact hm.mono hsub
    next hi => rw [if_neg hi]; exact hm.mono hsub
  secret := h.secret

end mono

/-! ## Opening a box -/

theorem counterNonce_inj {n m} {b c} (hn : 4 ≤ n) (hm : 4 ≤ m) (hn' : n < 2 ^ 32) (hm' : m < 2 ^ 32)
    (h : counterNonce n b = counterNonce m c) : n = m ∧ b = c := by
  have h := congrArg BitVec.toNat h
  simp only [counterNonce, BitVec.toNat_ofNat] at h
  rw [Nat.mod_eq_of_lt (by split <;> omega), Nat.mod_eq_of_lt (by split <;> omega)] at h
  cases b with
  | true =>
    cases c with
    | true => simp only [if_true] at h; exact ⟨by omega, rfl⟩
    | false => simp only [if_true, Bool.false_eq_true, if_false] at h; omega
  | false =>
    cases c with
    | true => simp only [if_true, Bool.false_eq_true, if_false] at h; omega
    | false => simp only [Bool.false_eq_true] at h; exact ⟨h, rfl⟩

/-- What an opened packet was: its author, its kind and the keys of its secret. -/
inductive Opened (r : net.Sent) (secret : C.Secret) (nonce : Nonce24) (plain : List UInt8) : Prop where
  | hello (hash : Option Key) (hn : r.packet.nonce < 2)
      (hsecret : secret = C.getSharedSecret (net.priv (net.node r.author)) (net.peer r.author) hash)
      (hplain : Key.ofBytes plain = C.scalarmultBase r.temp)
  | key (hash : Option Key) (h2 : 2 ≤ r.packet.nonce) (hn : r.packet.nonce < 4)
      (hsecret : secret = C.getSharedSecret (net.priv (net.node r.author)) r.her hash)
      (hplain : Key.ofBytes plain = C.scalarmultBase r.temp)
  | data (h4 : 4 ≤ r.packet.nonce) (hn : r.packet.nonce < 0xfffffff0)
      (hsecret : secret = C.getSharedSecret r.temp r.her none)
      (hnonce : nonce = counterNonce r.packet.nonce r.session.isInitiator) (hplain : plain = r.msg)

variable {nonce : Nonce24} {plain : List UInt8}

theorem Wrote.opened {r : net.Sent} {secret} {box} (hC : C.Ideal) (hr : Wrote r)
    (hbox : r.packet.box = box) (hopen : C.openAfternm secret nonce box = some plain) :
    Opened r secret nonce plain := by
  subst hbox
  cases hr with
  | hello hash n hn hbox =>
    rw [hbox] at hopen
    obtain ⟨rfl, -, rfl⟩ := hC.open_inj hopen (hC.open_afternm _ _ _)
    exact .hello hash hn rfl (Key.ofBytes_append _ _)
  | key hash n h2 hn hbox =>
    rw [hbox] at hopen
    obtain ⟨rfl, -, rfl⟩ := hC.open_inj hopen (hC.open_afternm _ _ _)
    exact .key hash h2 hn rfl (Key.ofBytes_append _ _)
  | data h4 hn hbox =>
    rw [hbox] at hopen
    obtain ⟨rfl, rfl, rfl⟩ := hC.open_inj hopen (hC.open_afternm _ _ _)
    exact .data h4 hn rfl rfl rfl

variable {p : Key}

theorem Crypto.Ideal.samePair {q x y} {hash hash'} (hC : C.Ideal)
    (h : C.getSharedSecret p x hash = C.getSharedSecret q y hash') {r} (hx : C.Alike x (C.scalarmultBase r)) :
    SamePair C (C.scalarmultBase p) x (C.scalarmultBase q) y := by
  rw [hx p hash] at h
  rcases (hC.shared_inj h).2 with ⟨hp, hy⟩ | ⟨hy, hr⟩
  · exact .inl ⟨.of_eq hp, hx.trans hy⟩
  · exact .inr ⟨hy, hr ▸ hx⟩

theorem SamePair.symm {a b c d : Key} (h : SamePair C a b c d) : SamePair C c d a b :=
  h.imp (fun h => ⟨h.1.symm, h.2.symm⟩) fun h => ⟨h.2.symm, h.1.symm⟩

variable {i : net.Index}

theorem Drew.isHonest {w : net.World} {b} (h : Drew w.sent i b p) :
    w.IsHonest p := by
  obtain ⟨r, hr, -, rfl, -⟩ := h
  exact .inr ⟨r, hr, rfl⟩

theorem Drew.hidden {L} (h : Drew L i true p) (hp : net.HonestPeer i) : Hidden L (C.scalarmultBase p) :=
  ⟨i, p, hp, h, .refl _⟩

theorem Hidden.alike {L : List net.Sent} {x y} (h : Hidden L x) (hxy : C.Alike x y) : Hidden L y := by
  obtain ⟨i, p, hp, hd, hx⟩ := h
  exact ⟨i, p, hp, hd, hx.trans hxy⟩

theorem Net.Facing.symm {j} (h : net.Facing i j) : net.Facing j i := ⟨h.2, h.1⟩

theorem Net.Facing.honestPeer {j} (h : net.Facing i j) : net.HonestPeer i := ⟨_, h.1⟩

namespace Inv

variable {w : net.World} (hI : Inv w)
include hI

variable {r : net.Sent}

/-- The author of a handshake packet drew its temporary key. -/
theorem drew_of_handshake (hr : r ∈ w.sent) (hn : r.packet.nonce < 4) :
    Drew w.sent r.author (r.packet.nonce < 2) r.temp := by
  by_cases h2 : r.packet.nonce < 2
  · simp only [h2]
    exact (hI.proper r hr).hello h2
  · simp only [h2]
    exact ((hI.proper r hr).key (by omega) hn).1

/-- The key of the receiver of a data packet was drawn by a session that faces its author, for the
other kind of packet. -/
theorem data_her (hr : r ∈ w.sent) (h4 : 4 ≤ r.packet.nonce) (hp : net.HonestPeer r.author) :
    ∃ j q, Drew w.sent j (!r.session.isInitiator) q ∧ C.scalarmultBase q = r.her ∧ net.Facing r.author j := by
  have hd := ((hI.proper r hr).data h4).2
  split at hd
  next hi =>
    obtain ⟨r₁, hr₁, h2, hn, he, -, hf⟩ := hd hp
    exact ⟨r₁.author, r₁.temp, by rw [hi]; exact ((hI.proper r₁ hr₁).key h2 hn).1, he, hf⟩
  next hi =>
    obtain ⟨r₁, hr₁, h4₁, hf, hi₁, he, -⟩ := hd hp
    refine ⟨r₁.author, r₁.temp, ?_, he, hf⟩
    have := ((hI.proper r₁ hr₁).data h4₁).1
    rw [hi₁] at this
    simpa [hi] using this

variable {q x : Key}

/-- A hidden key is drawn once, for the hellos of one session. -/
theorem hidden_drew (hC : C.Ideal) {j} {c} (h : Hidden w.sent x) (hq : Drew w.sent j c q)
    (he : C.Alike (C.scalarmultBase q) x) : net.HonestPeer j ∧ c = true := by
  obtain ⟨i, p, hp, hd, hx⟩ := h
  obtain ⟨rfl, rfl, -⟩ := hI.drew_inj hd hq (hC.base_inj (hx.trans he.symm))
  exact ⟨hp, rfl⟩

theorem not_hidden_zero : ¬ Hidden w.sent .zero := fun ⟨_, _, _, hd, hz⟩ => hI.drew_ne_zero hd hz

/-- The attacker does not know a hidden key. -/
theorem not_hidden_of_knows (hC : C.Ideal) (hk : w.Knows x) : ¬ Hidden w.sent x := by
  intro hx
  rcases hk with hk | ⟨r, hr, secret, nonce, plain, hopen, hsecret, hplain⟩
  · obtain ⟨i, p, -, ⟨r, hr, -, rfl, -⟩, he⟩ := hx
    exact hk r hr he
  have hx := hx.alike hplain.symm
  cases (hI.proper r hr).wrote.opened hC rfl hopen with
  | hello hash hn hs hplain =>
    obtain ⟨⟨M, hM⟩, -⟩ := hI.hidden_drew hC hx ((hI.proper r hr).hello hn) (.of_eq hplain.symm)
    exact hsecret ⟨_, net.priv M, hash, .inl ⟨_, rfl⟩, .inl ⟨M, rfl⟩, hs.trans (hM _ _)⟩
  | key hash h2 hn hs hplain =>
    exact absurd (hI.hidden_drew hC hx ((hI.proper r hr).key h2 hn).1 (.of_eq hplain.symm)).2 (by decide)
  | data h4 hn hs hnonce hplain =>
    by_cases hp : net.HonestPeer r.author
    · obtain ⟨j, q, hq, he, -⟩ := hI.data_her hr h4 hp
      exact hsecret ⟨r.temp, q, none, ((hI.proper r hr).data h4).1.isHonest, hq.isHonest, by rw [hs, he]⟩
    · exact (hI.clean_sent r hr hp).2.2 (hplain ▸ hx)

variable {packet : Packet C}

variable {i : net.Index}

/-- A box the attacker brings that opens under an honest secret is one of the packets sent. -/
theorem opened (hC : C.Ideal) (harr : w.Arrives i packet) {secret}
    (hopen : C.openAfternm secret nonce packet.box = some plain) (hsecret : w.HonestSecret secret) :
    ∃ r ∈ w.sent, Opened r secret nonce plain := by
  obtain ⟨r, hr, hbox⟩ := harr.unforged hopen hsecret
  exact ⟨r, hr, (hI.proper r hr).wrote.opened hC hbox hopen⟩

theorem temp_ne_pub (hr : r ∈ w.sent) (N : net.Node) : C.scalarmultBase r.temp ≠ net.pub N := by
  have hp := hI.proper r hr
  by_cases h4 : r.packet.nonce < 4
  · exact hI.drew_ne_pub N (hI.drew_of_handshake hr h4)
  · exact hI.drew_ne_pub N (hp.data (by omega)).1

variable {hash : Option Key}

/-- A key a session has drawn is like no permanent key. -/
theorem not_alike_pub (hC : C.Ideal) {b} (hx : Drew w.sent i b x) (N : net.Node) :
    ¬ C.Alike (C.scalarmultBase x) (net.pub N) := fun h => hI.drew_ne_pub N hx (hC.base_inj h)

theorem temp_not_alike (hC : C.Ideal) (hr : r ∈ w.sent) (N : net.Node) :
    ¬ C.Alike (C.scalarmultBase r.temp) (net.pub N) := fun h => hI.temp_ne_pub hr N (hC.base_inj h)

/-- A hello that opens has a key in it that was sealed with the two permanent keys. -/
theorem met (hC : C.Ideal) (harr : w.Arrives i packet)
    (hopen : C.openAfternm (C.getSharedSecret (net.priv (net.node i)) (net.peer i) hash) packet.handshakeNonce
      packet.box = some plain) :
    Met w.sent i (Key.ofBytes plain) := by
  rintro ⟨M, hM⟩
  obtain ⟨r, hr, ho⟩ := hI.opened hC harr hopen
    ⟨_, net.priv M, hash, .inl ⟨_, rfl⟩, .inl ⟨M, rfl⟩, hM _ _⟩
  cases ho with
  | hello hash hn hs hplain =>
    refine ⟨r, hr, by omega, hplain.symm, ?_⟩
    rw [if_pos hn]
    exact (Crypto.Ideal.samePair hC hs hM).symm
  | key hash h2 hn hs hplain =>
    refine ⟨r, hr, hn, hplain.symm, ?_⟩
    rw [if_neg (by omega)]
    exact (Crypto.Ideal.samePair hC hs hM).symm
  | data h4 hn hs hnonce hplain =>
    rcases Crypto.Ideal.samePair hC hs hM with ⟨h, -⟩ | ⟨-, h⟩
    · exact absurd h.symm (hI.temp_not_alike hC hr _)
    · exact absurd (h.symm.trans hM) (hI.temp_not_alike hC hr _)

/-- A key packet that opens was sent by a session that faces the one it comes to. -/
theorem asked (hC : C.Ideal) {i} (harr : w.Arrives i packet) (hx : Drew w.sent i true x)
    (hopen : C.openAfternm (C.getSharedSecret x (net.peer i) hash) packet.handshakeNonce packet.box = some plain) :
    Asked w.sent i x (Key.ofBytes plain) := by
  intro hp
  have hhidden := hx.hidden hp
  obtain ⟨M, hM⟩ := hp
  obtain ⟨r, hr, ho⟩ := hI.opened hC harr hopen ⟨x, net.priv M, hash, hx.isHonest, .inl ⟨M, rfl⟩, hM _ _⟩
  cases ho with
  | hello hash hn hs hplain =>
    exfalso
    rcases Crypto.Ideal.samePair hC hs hM with ⟨h, -⟩ | ⟨h, -⟩
    · exact hI.not_alike_pub hC hx _ h
    · by_cases hp : net.HonestPeer r.author
      · obtain ⟨N, hN⟩ := hp
        exact hI.not_alike_pub hC hx N (h.trans hN)
      · exact (hI.clean_sent r hr hp).1 (hhidden.alike h)
  | key hash h2 hn hs hplain =>
    rcases Crypto.Ideal.samePair hC hs hM with ⟨h, -⟩ | ⟨hher, hpub⟩
    · exact absurd h (hI.not_alike_pub hC hx _)
    by_cases hp : net.HonestPeer r.author
    · -- the author has its key for the answer from a packet, so it is the very key that was drawn
      rcases ((hI.proper r hr).key h2 hn).2 with hmet | hq
      · -- the hello this answers is the one with `x` in it, and so went from `i` to the author
        obtain ⟨r₂, hr₂, hn₂, he₂, hpair⟩ := hmet hp
        have hsame := hC.base_inj (he₂ ▸ hher)
        obtain ⟨hauthor, hkind, -⟩ := hI.drew_inj hx (hI.drew_of_handshake hr₂ hn₂) hsame
        rw [if_pos (by simpa using hkind.symm), ← hauthor] at hpair
        refine ⟨r, hr, h2, hn, hplain.symm, he₂.symm.trans hsame.symm, hpub, ?_⟩
        rcases hpair with ⟨h1, h2⟩ | ⟨h1, -⟩
        · exact h2.symm.trans (hpub.trans h1.symm)
        · exact h1.symm
      · obtain ⟨j, q, hq, he⟩ := hq hp
        exact absurd (hI.drew_inj hx hq (hC.base_inj (he ▸ hher))).2.1 (by decide)
    · exact absurd (hhidden.alike hher) (hI.clean_sent r hr hp).2.1
  | data h4 hn hs hnonce hplain =>
    exfalso
    rcases Crypto.Ideal.samePair hC hs hM with ⟨h, hher⟩ | ⟨-, h⟩
    · obtain ⟨hauthor, -, -⟩ := hI.drew_inj hx ((hI.proper r hr).data h4).1 (hC.base_inj h)
      obtain ⟨j, q, hq, he, -⟩ := hI.data_her hr h4 (hauthor ▸ ⟨M, hM⟩)
      exact hI.not_alike_pub hC hq M (he ▸ hher.symm.trans hM)
    · exact hI.temp_not_alike hC hr M (h.symm.trans hM)

/-- A data packet that opens under the secret of two temporary keys was sent as data. -/
theorem opened_data (hC : C.Ideal) {j k} {b c} {t q} (harr : w.Arrives k packet)
    (ht : Drew w.sent i b t) (hq : Drew w.sent j c q)
    (hopen : C.openAfternm (C.getSharedSecret t (C.scalarmultBase q) none) nonce packet.box = some plain) :
    ∃ r ∈ w.sent, 4 ≤ r.packet.nonce ∧ r.packet.nonce < 0xfffffff0 ∧
      SamePair C (C.scalarmultBase t) (C.scalarmultBase q) (C.scalarmultBase r.temp) r.her ∧
      nonce = counterNonce r.packet.nonce r.session.isInitiator := by
  obtain ⟨r, hr, ho⟩ := hI.opened hC harr hopen ⟨t, q, none, ht.isHonest, hq.isHonest, rfl⟩
  cases ho with
  | hello hash hn hs hplain | key hash h2 hn hs hplain =>
    rcases Crypto.Ideal.samePair hC hs (.refl _) with ⟨h, -⟩ | ⟨-, h⟩
    · exact absurd h (hI.not_alike_pub hC ht _)
    · exact absurd h (hI.not_alike_pub hC hq _)
  | data h4 hn hs hnonce hplain =>
    exact ⟨r, hr, h4, hn, Crypto.Ideal.samePair hC hs (.refl _), hnonce⟩

/-- The first data packet was sent by a session that faces the one it comes to, as the other end. -/
theorem heard (hC : C.Ideal) {b} {t h} (harr : w.Arrives i packet) (hp : net.HonestPeer i)
    (ht : Drew w.sent i b t) (hh : if b then Asked w.sent i t h else Met w.sent i h) (hnonce : 4 ≤ packet.nonce)
    (hopen : C.openAfternm (C.getSharedSecret t h none) (counterNonce packet.nonce (!b)) packet.box = some plain) :
    ∃ r ∈ w.sent, r.packet.nonce = packet.nonce ∧ packet.nonce < 0xfffffff0 ∧ net.Facing i r.author ∧
      r.session.isInitiator = !b ∧ C.scalarmultBase r.temp = h ∧ r.her = C.scalarmultBase t := by
  cases b with
  | true =>
    obtain ⟨r₁, hr₁, h2, hn, rfl, -, hf⟩ := hh hp
    have hd₁ := ((hI.proper r₁ hr₁).key h2 hn).1
    obtain ⟨r, hr, h4, hlt, hpair, hcount⟩ := hI.opened_data hC harr ht hd₁ hopen
    obtain ⟨hsame, hi⟩ := counterNonce_inj hnonce h4 packet.nonce_lt (by omega) hcount
    have hd := ((hI.proper r hr).data h4).1
    rw [← hi] at hd
    rcases hpair with ⟨he, -⟩ | ⟨hher, he⟩
    · exact absurd (hI.drew_inj hd ht (hC.base_inj he).symm).2.1 (by decide)
    · have he := (hC.base_inj he).symm
      rw [← (hI.drew_inj hd hd₁ he).1] at hf
      -- the author has taken its key from a hello
      obtain ⟨j, q, -, hq, -⟩ := hI.data_her hr h4 hf.symm.honestPeer
      exact ⟨r, hr, hsame.symm, by omega, hf, hi.symm, he, hq.symm.trans (hC.base_inj (hq ▸ hher)).symm⟩
  | false =>
    obtain ⟨r₀, hr₀, hn₀, rfl, hpair₀⟩ := hh hp
    have hd₀ := hI.drew_of_handshake hr₀ hn₀
    obtain ⟨r, hr, h4, hlt, hpair, hcount⟩ := hI.opened_data hC harr ht hd₀ hopen
    obtain ⟨hsame, hi⟩ := counterNonce_inj hnonce h4 packet.nonce_lt (by omega) hcount
    have hdata := (hI.proper r hr).data h4
    rw [← hi] at hdata
    rcases hpair with ⟨he, -⟩ | ⟨hher, he⟩
    · exact absurd (hI.drew_inj hdata.1 ht (hC.base_inj he).symm).2.1 (by decide)
    · -- the author said the hello, so its peer is an honest node and it asked `i` for a key
      have he := (hC.base_inj he).symm
      obtain ⟨hauthor, hkind, -⟩ := hI.drew_inj hdata.1 hd₀ he
      rw [if_pos (by simpa using hkind.symm), ← hauthor] at hpair₀
      have hp' : net.HonestPeer r.author := by
        rcases hpair₀ with ⟨-, h⟩ | ⟨-, h⟩
        · obtain ⟨M, hM⟩ := hp
          exact ⟨M, h.trans hM⟩
        · exact ⟨_, h⟩
      obtain ⟨r₁, hr₁, h2, hn, he₁, -, hf⟩ := hdata.2 hp'
      have hd₁ := ((hI.proper r₁ hr₁).key h2 hn).1
      have hkey := hC.base_inj (he₁ ▸ hher)
      rw [(hI.drew_inj hd₁ ht hkey.symm).1] at hf
      exact ⟨r, hr, hsame.symm, by omega, hf.symm, hi.symm, he, he₁.symm.trans hkey.symm⟩

/-! ## Sessions of the attacker's -/

/-- A temporary key that a session of the attacker's takes up is not hidden. The secret the packet was
opened with is one of a key of the honest node and of the attacker's permanent key. -/
theorem not_hidden_taken (hC : C.Ideal) (harr : w.Arrives i packet) (hp : ¬ net.HonestPeer i) {p}
    (hown : (∃ N, p = net.priv N) ∨ ∃ b, Drew w.sent i b p)
    (hopen : C.openAfternm (C.getSharedSecret p (net.peer i) hash) nonce packet.box = some plain) :
    ¬ Hidden w.sent (Key.ofBytes plain) := by
  rcases harr.known hp hopen with ⟨r, hr, hbox⟩ | hk
  · intro hx
    have hperm : ∀ N, ¬ C.Alike (net.peer i) (net.pub N) := fun N hN => hp ⟨N, hN⟩
    cases (hI.proper r hr).wrote.opened hC hbox hopen with
    | hello hash hn hs hplain =>
      obtain ⟨⟨M, hM⟩, -⟩ := hI.hidden_drew hC hx ((hI.proper r hr).hello hn) (.of_eq hplain.symm)
      rcases Crypto.Ideal.samePair hC hs.symm hM with ⟨-, h⟩ | ⟨h, -⟩
      · exact hperm M (h.symm.trans hM)
      · exact hperm _ h.symm
    | key hash h2 hn hs hplain =>
      exact absurd (hI.hidden_drew hC hx ((hI.proper r hr).key h2 hn).1 (.of_eq hplain.symm)).2 (by decide)
    | data h4 hn hs hnonce hplain =>
      subst hplain
      by_cases hpr : net.HonestPeer r.author
      · obtain ⟨j, q, hq, he, hf⟩ := hI.data_her hr h4 hpr
        have hd := ((hI.proper r hr).data h4).1
        rcases Crypto.Ideal.samePair hC hs.symm (.of_eq he.symm) with ⟨h, -⟩ | ⟨-, h⟩
        · rcases hown with ⟨N, rfl⟩ | ⟨b, hown⟩
          · exact hI.not_alike_pub hC hd N h
          · exact hp ((hI.drew_inj hown hd (hC.base_inj h).symm).1 ▸ hpr)
        · rw [← he] at h
          rcases hown with ⟨N, rfl⟩ | ⟨b, hown⟩
          · exact hI.not_alike_pub hC hq N h
          · exact hp ((hI.drew_inj hown hq (hC.base_inj h).symm).1 ▸ hf.symm.honestPeer)
      · exact (hI.clean_sent r hr hpr).2.2 hx
  · exact hI.not_hidden_of_knows hC hk

end Inv

end

end Hyperboria.CryptoAuth
