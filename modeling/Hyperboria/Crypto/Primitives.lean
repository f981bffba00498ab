/-
The cryptography the tree takes from NaCl, as parameters: `Crypto` names the
functions `CryptoAuth.c` calls and says of them only what is true of any sealed
box (sixteen bytes longer than what is in it). What is assumed of good primitives
are separate structures, and only the results that need them ask for them: that they
work (`Crypto.Correct`), and that nobody gets around them (`Crypto.Ideal`).

Keys are their 32 bytes. Secrets and sealed boxes are not: no function over bytes
can keep the secrets of all pairs of keys apart.
-/
import Hyperboria.Er

namespace Hyperboria

/-- Thirty-two bytes. -/
def Key : Type := { bytes : List UInt8 // bytes.length = 32 }

namespace Key

instance : DecidableEq Key := inferInstanceAs (DecidableEq { bytes : List UInt8 // bytes.length = 32 })

/-- The bytes `Bits_memset(.., 0, 32)` leaves. -/
def zero : Key := ⟨List.replicate 32 0, rfl⟩

/-- `Bits_isZero(key, 32)`. -/
def isZero (key : Key) : Bool := key = zero

/-- `Bits_memcmp(a, b, 32) < 0`. -/
def less (a b : Key) : Bool := a.1 < b.1

/-- The first 32 bytes of a buffer; the buffers of the source are longer. -/
def ofBytes (bytes : List UInt8) : Key :=
  ⟨(bytes ++ List.replicate 32 0).take 32, by simp⟩

theorem ofBytes_append (key : Key) (rest : List UInt8) : ofBytes (key.1 ++ rest) = key := by
  apply Subtype.ext
  simp only [ofBytes, List.append_assoc]
  exact List.take_left' key.2

@[simp] theorem isZero_eq_true {key} : key.isZero = true ↔ key = zero := by simp [isZero]

@[simp] theorem isZero_eq_false {key} : key.isZero = false ↔ key ≠ zero := by simp [isZero]

@[simp] theorem isZero_zero : zero.isZero = true := by simp

end Key

/-- The 24 bytes of a box's nonce, the first byte lowest. -/
abbrev Nonce24 := BitVec 192

/-- The functions of NaCl that `CryptoAuth.c` and `AddressCalc.c` call. -/
structure Crypto where
  /-- 32 bytes that came out of a key exchange -/
  Secret : Type
  [decSecret : DecidableEq Secret]
  zeroSecret : Secret
  /-- authenticator and ciphertext -/
  Cipher : Type
  [decCipher : DecidableEq Cipher]
  /-- length in bytes -/
  size : Cipher → Nat
  /-- `crypto_scalarmult_curve25519_base` -/
  scalarmultBase : Key → Key
  /-- `crypto_box_curve25519xsalsa20poly1305_beforenm`, public key first -/
  beforenm : Key → Key → Secret
  /-- `crypto_hash_sha256` over `crypto_scalarmult_curve25519` of a private and a public key, and a password hash -/
  sha256Scalarmult : Key → Key → Key → Secret
  /-- `crypto_hash_sha256` -/
  sha256 : List UInt8 → Key
  /-- `crypto_box_curve25519xsalsa20poly1305_afternm` -/
  afternm : Secret → Nonce24 → List UInt8 → Cipher
  /-- `crypto_box_curve25519xsalsa20poly1305_open_afternm` -/
  openAfternm : Secret → Nonce24 → Cipher → Option (List UInt8)
  /-- the address `AddressCalc_addressForPublicKey` writes -/
  addressForPublicKey : Key → List UInt8
  size_afternm : ∀ secret nonce plain, size (afternm secret nonce plain) = plain.length + 16
  size_of_open : ∀ {secret nonce box plain}, openAfternm secret nonce box = some plain → size box = plain.length + 16

namespace Crypto

instance (C : Crypto) : DecidableEq C.Secret := C.decSecret

instance (C : Crypto) : DecidableEq C.Cipher := C.decCipher

def getSharedSecret (C : Crypto) (myPrivateKey herPublicKey : Key) (passwordHash : Option Key) : C.Secret :=
  match passwordHash with
  | none => C.beforenm herPublicKey myPrivateKey
  | some hash => C.sha256Scalarmult myPrivateKey herPublicKey hash

/-- What the protocol needs of its primitives to work: the two ends of an exchange get one secret, that is not the
one of a session without a secret, and a box opens with the secret and the nonce it was sealed with. -/
structure Correct (C : Crypto) : Prop where
  shared_comm : ∀ p q hash, C.getSharedSecret p (C.scalarmultBase q) hash =
    C.getSharedSecret q (C.scalarmultBase p) hash
  shared_ne_zero : ∀ p x hash, C.getSharedSecret p x hash ≠ C.zeroSecret
  open_afternm : ∀ secret nonce plain, C.openAfternm secret nonce (C.afternm secret nonce plain) = some plain

/-- No exchange tells the two public keys apart. `fe_frombytes` drops the highest bit of a key, so each key is like
another one. -/
def Alike (C : Crypto) (x y : Key) : Prop := ∀ p hash, C.getSharedSecret p x hash = C.getSharedSecret p y hash

/-- What the protocol assumes of its primitives: the secret of two key pairs comes from no other keys but ones like
theirs, computed public keys are alike only if they are the same, and a box opens in one way. -/
structure Ideal (C : Crypto) : Prop extends Correct C where
  shared_inj : ∀ {p q r y hash hash'}, C.getSharedSecret p (C.scalarmultBase r) hash = C.getSharedSecret q y hash' →
    hash = hash' ∧ ((C.scalarmultBase p = C.scalarmultBase q ∧ C.Alike (C.scalarmultBase r) y) ∨
      (C.Alike (C.scalarmultBase p) y ∧ C.scalarmultBase r = C.scalarmultBase q))
  base_inj : ∀ {p q}, C.Alike (C.scalarmultBase p) (C.scalarmultBase q) → C.scalarmultBase p = C.scalarmultBase q
  open_inj : ∀ {secret secret' nonce nonce' box plain plain'}, C.openAfternm secret nonce box = some plain →
    C.openAfternm secret' nonce' box = some plain' → secret = secret' ∧ nonce = nonce' ∧ plain = plain'

section
variable {C : Crypto} {x y z : Key}

theorem Alike.refl (x : Key) : C.Alike x x := fun _ _ => rfl

theorem Alike.of_eq (h : x = y) : C.Alike x y := h ▸ .refl x

theorem Alike.symm (h : C.Alike x y) : C.Alike y x := fun p hash => (h p hash).symm

theorem Alike.trans (h : C.Alike x y) (h' : C.Alike y z) : C.Alike x z := fun p hash => (h p hash).trans (h' p hash)

end

end Crypto

end Hyperboria
