/-
Primitives that are what they are assumed to be: a secret is the pair of keys it
came from, without their highest bits, a box is what was sealed and how. So the laws
of `Crypto.Ideal` do not contradict each other, and runs of the protocol can be
evaluated.
-/
import Hyperboria.Crypto.Equations

namespace Hyperboria.Symbolic

/-- A sealed box: secret, nonce and plaintext. -/
structure Box (Secret : Type) where
  secret : Secret
  nonce : Nonce24
  plain : List UInt8
deriving DecidableEq

/-- The secret of two keys and a password. -/
abbrev Secret := Option (Sym2 Key × Option Key)

/-- The key without its highest bit, which no exchange looks at. -/
def point (key : Key) : Key := ⟨key.1.modify 31 (· &&& 127), by rw [List.length_modify, key.2]⟩

theorem point_point (key : Key) : point (point key) = point key := by
  apply Subtype.ext
  show (key.1.modify 31 _).modify 31 _ = key.1.modify 31 _
  rw [List.modify_modify_eq]
  exact congrArg (List.modify key.1 31) (funext fun byte => by simp [UInt8.and_assoc])

/-- Public and private keys are one but for that bit, a hash is what it hashes. -/
def crypto : Crypto where
  Secret := Secret
  zeroSecret := none
  Cipher := Box Secret
  size box := box.plain.length + 16
  scalarmultBase := point
  beforenm herPublicKey myPrivateKey := some (s(point myPrivateKey, point herPublicKey), none)
  sha256Scalarmult myPrivateKey herPublicKey hash := some (s(point myPrivateKey, point herPublicKey), some hash)
  sha256 := Key.ofBytes
  afternm secret nonce plain := { secret, nonce, plain }
  openAfternm secret nonce box := if box.secret = secret ∧ box.nonce = nonce then some box.plain else none
  addressForPublicKey key := 0xfc :: key.1.take 15
  size_afternm := fun _ _ _ => rfl
  size_of_open := by
    intro secret nonce box plain h
    split at h
    · rw [Option.some.inj h]
    · exact nomatch h

instance : DecidableEq crypto.Secret := inferInstanceAs (DecidableEq Secret)

theorem shared_eq (p x : Key) (hash : Option Key) :
    crypto.getSharedSecret p x hash = some (s(point p, point x), hash) := by
  cases hash with
  | none => rfl
  | some hash => rfl

theorem open_eq_some {secret : Secret} {nonce} {box : Box Secret} {plain}
    (h : crypto.openAfternm secret nonce box = some plain) :
    box.secret = secret ∧ box.nonce = nonce ∧ box.plain = plain := by
  simp only [crypto] at h
  split at h
  next hb => exact ⟨hb.1, hb.2, Option.some.inj h⟩
  · exact nomatch h

theorem alike_iff {x y : Key} : crypto.Alike x y ↔ point x = point y := by
  constructor
  · intro h
    have hpair := h x none
    rw [shared_eq, shared_eq] at hpair
    exact Sym2.congr_right.mp (Prod.mk.inj (Option.some.inj hpair)).1
  · intro h p hash
    rw [shared_eq, shared_eq, h]

theorem correct : crypto.Correct where
  shared_comm p q hash := by
    rw [shared_eq, shared_eq]
    show some (s(point p, point (point q)), hash) = some (s(point q, point (point p)), hash)
    rw [point_point, point_point, Sym2.eq_swap]
  shared_ne_zero p x hash := by
    rw [shared_eq]
    exact Option.some_ne_none _
  open_afternm secret nonce plain := if_pos ⟨rfl, rfl⟩

theorem ideal : crypto.Ideal where
  toCorrect := correct
  shared_inj := by
    intro p q r y hash hash' h
    rw [shared_eq, shared_eq] at h
    obtain ⟨hpair, hhash⟩ := Prod.mk.inj (Option.some.inj h)
    have hbase : point (crypto.scalarmultBase r) = point r := point_point r
    refine ⟨hhash, ?_⟩
    rw [alike_iff, alike_iff]
    rcases Sym2.eq_iff.mp hpair with ⟨hp, hr⟩ | ⟨hp, hr⟩
    · exact .inl ⟨hp, hr⟩
    · exact .inr ⟨(point_point p).trans hp, hbase.symm.trans hr⟩
  base_inj := by
    intro p q h
    have hpoint := alike_iff.mp h
    exact (point_point p).symm.trans (hpoint.trans (point_point q))
  open_inj := by
    intro secret secret' nonce nonce' box plain plain' h h'
    obtain ⟨rfl, rfl, rfl⟩ := open_eq_some h
    obtain ⟨rfl, rfl, rfl⟩ := open_eq_some h'
    exact ⟨rfl, rfl, rfl⟩

/-! ## Nodes and packets to run the protocol with -/

open CryptoAuth

/-- A key that has one byte, the node it belongs to, and random bytes with it. -/
def key (n : UInt8) : Key := ⟨List.replicate 31 0 ++ [n], rfl⟩
def node (n : UInt8) : Context := ⟨key n, key n, []⟩
def draw (n : UInt8) : Draw := ⟨⟨0, [], 0, 0⟩, 0, key n⟩

/-- The session of node 1 for node 2, and the hello it sends with the temporary key `n`. -/
def session : Session crypto := newSession crypto 0 (key 2) false
def hello (n : UInt8) (content : List UInt8) : Packet crypto :=
  handshakePacket (node 1) (draw n) session none ⟨0, [], 0, 0⟩ content

/-- The first data packet of node 1, after it said hello with the key 4 and was answered with the key 5. -/
def data (content : List UInt8) : Packet crypto :=
  dataPacket (node 1) (draw 0) { session with nextNonce := 4, isInitiator := true }
    (crypto.getSharedSecret (key 4) (key 5) none) content

end Hyperboria.Symbolic
