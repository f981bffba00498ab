/-
`switch/LabelSplicer.h`: paths put end to end. A label is read from its low end; its
highest bit is not part of the path but marks where it ends, and is where the next path
is put. `splice_toNat` says so in numbers.
-/
import Hyperboria.Bits

namespace Hyperboria.LabelSplicer

open BitVec Nat

open Bits (log2x64)

def unsplice (fullPath midPath : BitVec 64) : BitVec 64 := fullPath >>> log2x64 midPath

def splice (goHere viaHere : BitVec 64) : BitVec 64 :=
  let log2ViaHere := log2x64 viaHere
  if log2x64 goHere + log2ViaHere > 59 then BitVec.allOnes 64
  else ((goHere ^^^ 1#64) <<< log2ViaHere) ^^^ viaHere

def routesThrough (destination midPath : BitVec 64) : Bool :=
  if midPath > destination then false
  else if midPath < 2#64 then true
  else
    let mask := BitVec.allOnes 64 >>> (64 - log2x64 midPath)
    destination &&& mask = midPath &&& mask

variable {via : BitVec 64}

theorem toNat_eq (h : via ≠ 0) :
    via.toNat = 2 ^ log2x64 via + via.toNat % 2 ^ log2x64 via := by
  have hne : via.toNat ≠ 0 := fun h0 => h (eq_of_toNat_eq h0)
  have hlow : 2 ^ via.toNat.log2 ≤ via.toNat := log2_self_le hne
  have hhigh : via.toNat < 2 ^ via.toNat.log2 * 2 := by
    exact lt_log2_self
  have hdiv : via.toNat / 2 ^ via.toNat.log2 = 1 := Nat.div_eq_of_lt_le (by omega) (by omega)
  have h := div_add_mod via.toNat (2 ^ via.toNat.log2)
  rw [hdiv, Nat.mul_one] at h
  exact h.symm

variable {go : BitVec 64}

theorem splice_toNat (hvia : via ≠ 0) (hlen : log2x64 go + log2x64 via ≤ 59) :
    (splice go via).toNat = 2 ^ log2x64 via * go.toNat + via.toNat % 2 ^ log2x64 via := by
  have hpos := Nat.two_pow_pos (log2x64 via)
  have hw : via.toNat % 2 ^ log2x64 via < 2 ^ log2x64 via := mod_lt _ hpos
  have hgo : go.toNat < 2 ^ (59 - log2x64 via + 1) := Bits.log2_le_iff.mp (by unfold log2x64 at hlen ⊢; omega)
  have hxor : go.toNat ^^^ 1 < 2 ^ (59 - log2x64 via + 1) :=
    xor_lt_two_pow hgo (Nat.one_lt_two_pow (by omega))
  have hfits : (go.toNat ^^^ 1) <<< log2x64 via < 2 ^ 64 := by
    rw [Nat.shiftLeft_eq]
    calc (go.toNat ^^^ 1) * 2 ^ log2x64 via
        < 2 ^ (59 - log2x64 via + 1) * 2 ^ log2x64 via := Nat.mul_lt_mul_of_pos_right hxor hpos
      _ = 2 ^ 60 := by rw [← Nat.pow_add, show 59 - log2x64 via + 1 + log2x64 via = 60 by omega]
      _ < 2 ^ 64 := by decide
  unfold splice
  rw [if_neg (by omega), toNat_xor, toNat_shiftLeft, toNat_xor,
    show (1#64).toNat = 1 from rfl, mod_eq_of_lt hfits]
  -- bit by bit: below the mark the path of `via`, from there on the other one, whose lowest bit is flipped twice
  apply eq_of_testBit_eq
  intro i
  have hvia : via.toNat.testBit i =
      if i < log2x64 via then (via.toNat % 2 ^ log2x64 via).testBit i else (1).testBit (i - log2x64 via) := by
    have h := testBit_two_pow_mul_add 1 hw i
    rw [Nat.mul_one, ← toNat_eq hvia] at h
    exact h
  rw [testBit_xor, testBit_two_pow_mul_add _ hw, hvia]
  by_cases hi : i < log2x64 via
  · simp [hi, show ¬ i ≥ log2x64 via by omega]
  · simp [hi, show i ≥ log2x64 via by omega]

theorem splice_lt (hvia : via ≠ 0) (hlen : log2x64 go + log2x64 via ≤ 59) :
    (splice go via).toNat < 2 ^ 60 := by
  have hgo : go.toNat < 2 ^ (59 - log2x64 via + 1) := Bits.log2_le_iff.mp (by unfold log2x64 at hlen ⊢; omega)
  rw [splice_toNat hvia hlen]
  calc 2 ^ log2x64 via * go.toNat + via.toNat % 2 ^ log2x64 via
      < 2 ^ log2x64 via * (go.toNat + 1) := by rw [Nat.mul_succ]; omega
    _ ≤ 2 ^ log2x64 via * 2 ^ (59 - log2x64 via + 1) := Nat.mul_le_mul_left _ hgo
    _ = 2 ^ 60 := by rw [← Nat.pow_add, show log2x64 via + (59 - log2x64 via + 1) = 60 by omega]

theorem splice_eq_allOnes_iff (hvia : via ≠ 0) :
    splice go via = BitVec.allOnes 64 ↔ 59 < log2x64 go + log2x64 via := by
  constructor
  · intro h
    by_contra hlen
    have hlt := splice_lt hvia (Nat.le_of_not_lt hlen)
    rw [h] at hlt
    exact absurd hlt (by decide)
  · intro h
    rw [splice, if_pos h]

theorem mask_toNat {k} (hk : k ≤ 64) : (BitVec.allOnes 64 >>> (64 - k)).toNat = 2 ^ k - 1 := by
  rw [toNat_ushiftRight, toNat_allOnes, shiftRight_eq_div_pow]
  have hsplit : 2 ^ 64 = 2 ^ k * 2 ^ (64 - k) := by rw [← Nat.pow_add, Nat.add_sub_cancel' hk]
  have hpos := Nat.two_pow_pos (64 - k)
  have hpos' := Nat.two_pow_pos k
  rw [hsplit]
  apply Nat.div_eq_of_lt_le
  · rw [Nat.sub_mul]
    omega
  · rw [Nat.sub_add_cancel hpos']
    exact sub_lt (Nat.mul_pos hpos' hpos) Nat.one_pos

/-- A spliced path goes through the path it was spliced to, unless nothing was spliced. -/
theorem routesThrough_splice_iff (hvia : via ≠ 0) (hlen : log2x64 go + log2x64 via ≤ 59) :
    routesThrough (splice go via) via = true ↔ go ≠ 0 := by
  have hsplice := splice_toNat hvia hlen
  have heq := toNat_eq hvia
  constructor
  · rintro h rfl
    -- without the mark the path is a smaller number
    rw [routesThrough, if_pos] at h
    · cases h
    · rw [gt_iff_lt, lt_def, hsplice, show (0 : BitVec 64).toNat = 0 from rfl]
      omega
  · intro hgo
    have hone : 0 < go.toNat := Nat.pos_of_ne_zero fun h0 => hgo (eq_of_toNat_eq h0)
    have hle := Nat.le_mul_of_pos_right (2 ^ log2x64 via) hone
    unfold routesThrough
    rw [if_neg (by rw [gt_iff_lt, lt_def]; omega)]
    split
    · rfl
    · simp only [decide_eq_true_eq]
      apply eq_of_toNat_eq
      rw [toNat_and, toNat_and, mask_toNat (by omega), and_two_pow_sub_one_eq_mod,
        and_two_pow_sub_one_eq_mod, hsplice, mul_add_mod, mod_mod]

end Hyperboria.LabelSplicer
