/-
`util/Bits.h`: the 64-bit reversal the switch and the session layer apply to
labels, as the mask-and-rotate code computes it, and its equation
`bitReverse64_eq`: it is the reversal of the word's 64 bits. Everything about
labels is proved of `BitVec.reverse`; the masks are seen here only. Before it, the
helpers for the length of a word.
-/
import Hyperboria.Er

namespace Hyperboria.Bits

open BitVec

/-- `Bits_log2x64`: the index of the highest bit that is set, 0 if there is none. -/
def log2x64 (number : BitVec 64) : Nat := number.toNat.log2

def maxBits64 (bitCount : Nat) : Er (BitVec 64) := do
  .assertTrue (bitCount < 64) "bitCount < 64"
  .ret ((1#64 <<< bitCount) - 1#64)

theorem log2_le_iff {n k} : n.log2 ≤ k ↔ n < 2 ^ (k + 1) := by
  by_cases hn : n = 0
  · subst hn
    simp
  · rw [← Nat.lt_succ_iff, Nat.log2_lt hn]

theorem add_mul_lt {a b k n : Nat} (ha : a < 2 ^ k) (hb : b < 2 ^ n) : a + 2 ^ k * b < 2 ^ (k + n) := by
  have h := Nat.append_lt ha hb
  rwa [← Nat.shiftLeft_add_eq_or_of_lt ha, Nat.shiftLeft_eq, Nat.mul_comm, Nat.add_comm] at h

def rotateAndMask (mask : BitVec 64) (rotateBits : Nat) (x : BitVec 64) : BitVec 64 :=
  ((x >>> rotateBits) &&& mask) ||| ((x &&& mask) <<< rotateBits)

/-- Byte `k` of a word, counted from the low end. -/
def byteAt (x : BitVec 64) (k : Nat) : BitVec 64 := (x >>> (8 * k)) &&& 0xff#64

/-- `__builtin_bswap64`. -/
def bswap64 (x : BitVec 64) : BitVec 64 :=
  (byteAt x 0 <<< 56) ||| (byteAt x 1 <<< 48) ||| (byteAt x 2 <<< 40) ||| (byteAt x 3 <<< 32) |||
  (byteAt x 4 <<< 24) ||| (byteAt x 5 <<< 16) ||| (byteAt x 6 <<< 8) ||| byteAt x 7

def bitReverse64 (toReverse : BitVec 64) : BitVec 64 :=
  let toReverse := rotateAndMask 0x5555555555555555#64 1 toReverse
  let toReverse := rotateAndMask 0x3333333333333333#64 2 toReverse
  let toReverse := rotateAndMask 0x0F0F0F0F0F0F0F0F#64 4 toReverse
  bswap64 toReverse

/-- One stage exchanges each bit with the one whose index differs in `rotateBits`. -/
def Exchanges (f : BitVec 64 → BitVec 64) (k : Nat) : Prop :=
  ∀ x i, i < 64 → (f x).getLsbD i = x.getLsbD (i ^^^ k)

theorem exchanges_stages : Exchanges (rotateAndMask 0x5555555555555555#64 1) 1 ∧
    Exchanges (rotateAndMask 0x3333333333333333#64 2) 2 ∧ Exchanges (rotateAndMask 0x0F0F0F0F0F0F0F0F#64 4) 4 ∧
    Exchanges bswap64 56 := by
  refine ⟨?_, ?_, ?_, ?_⟩
  all_goals
    intro x i hi
    simp only [rotateAndMask, bswap64, byteAt, getLsbD_or, getLsbD_and, getLsbD_shiftLeft, getLsbD_ushiftRight]
    interval_cases i <;> simp

theorem bitReverse64_eq (x : BitVec 64) : bitReverse64 x = x.reverse := by
  apply eq_of_getLsbD_eq
  intro i hi
  have hx : ∀ i < 64, ∀ k ∈ [1, 2, 4, 56], i ^^^ k < 64 := by decide
  have hr : ∀ i < 64, i ^^^ 56 ^^^ 4 ^^^ 2 ^^^ 1 = 63 - i := by decide
  have h1 := hx i hi 56 (by simp)
  have h2 := hx _ h1 4 (by simp)
  have h3 := hx _ h2 2 (by simp)
  obtain ⟨hone, htwo, hfour, hbytes⟩ := exchanges_stages
  rw [bitReverse64, hbytes _ _ hi, hfour _ _ h1, htwo _ _ h2, hone _ _ h3, hr i hi, getLsbD_reverse, getMsbD_eq_getLsbD]
  simp [hi]

end Hyperboria.Bits
