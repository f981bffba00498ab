/-
`switch/NumberCompress.h`, the default `v3x5x8` scheme: how an interface number
is written as a director of 4, 7 or 10 bits at the low end of a label.

The functions look at the low bits of the label only. `Reads l c b` says that
the low `b` bits of `l` are the code `c`; a director written by `getCompressed`
for a number that fits is read back from any label that starts with it
(`bitsUsedForLabel_of_reads`, `getDecompressed_of_reads`).

`NumberCompress_getLabelFor` makes the first director of a label as wide as the one of the
node that asks. Nothing checks that the rest of the path still fits in the word
(`getLabelFor_padded_iff`).
-/
import Mathlib

namespace Hyperboria.NumberCompress

open BitVec

/-- `NumberCompress_v3x5x8_INTERFACES`. -/
def INTERFACES : Nat := 257

/-- `NumberCompress_v3x5x8_bitsUsedForLabel`. -/
def bitsUsedForLabel (label : BitVec 64) : Nat :=
  if 0 ≠ label &&& 0x1#64 then 4
  else if 0 ≠ label &&& 0x2#64 then 7
  else 10

/-- `NumberCompress_v3x5x8_bitsUsedForNumber`. -/
def bitsUsedForNumber (number : Nat) : Nat :=
  if number < 8 then 4
  else if number < 33 then 7
  else 10

/-- `NumberCompress_v3x5x8_getCompressed`. -/
def getCompressed (number bitsUsed : Nat) : BitVec 64 :=
  if 1 = number then 1#64
  else match bitsUsed with
    | 4 => if 0 = number then 3#64 else BitVec.ofNat 64 ((number <<< 1) ||| 1)
    -- the two long forms skip the number 1
    | 7 => if 0 = number then 2#64 else BitVec.ofNat 64 (((number - 1) <<< 2) ||| 2)
    | 10 => if 0 = number then 0#64 else BitVec.ofNat 64 ((number - 1) <<< 2)
    | _ => 0#64

/-- `NumberCompress_v3x5x8_getDecompressed`. -/
def getDecompressed (label : BitVec 64) (bitsUsed : Nat) : Nat :=
  match bitsUsed with
  | 4 =>
    let number := ((label >>> 1) &&& 0x7#64).toNat
    if 0 = number then 1 else if 1 = number then 0 else number
  | 7 =>
    let number := ((label >>> 2) &&& 0x1f#64).toNat
    if 0 ≠ number then number + 1 else number
  | 10 =>
    let number := ((label >>> 2) &&& 0xff#64).toNat
    if 0 ≠ number then number + 1 else number
  | _ => 0

/-! ## In terms of the low bits -/

/-- The three director widths. -/
def Width (b : Nat) : Prop := b = 4 ∨ b = 7 ∨ b = 10

theorem toNat_and_mask (l : BitVec 64) (k n : Nat) (hn : n ≤ 64) :
    ((l >>> k) &&& BitVec.ofNat 64 (2 ^ n - 1)).toNat = l.toNat / 2 ^ k % 2 ^ n := by
  have h64 : 2 ^ n - 1 < 2 ^ 64 :=
    Nat.lt_of_lt_of_le (Nat.sub_lt (Nat.two_pow_pos n) Nat.one_pos) (Nat.pow_le_pow_right (by omega) hn)
  rw [toNat_and, toNat_ofNat, Nat.mod_eq_of_lt h64, Nat.and_two_pow_sub_one_eq_mod,
    toNat_ushiftRight, Nat.shiftRight_eq_div_pow]

theorem and_bit_ne_zero (l : BitVec 64) (k : Nat) (hk : k < 64) :
    (0 ≠ l &&& BitVec.ofNat 64 (2 ^ k)) ↔ l.toNat / 2 ^ k % 2 = 1 := by
  have h64 : 2 ^ k < 2 ^ 64 := Nat.pow_lt_pow_right (by omega) hk
  rw [ne_comm, ne_eq, ← toNat_inj, toNat_and, toNat_ofNat,
    Nat.mod_eq_of_lt h64, Nat.and_two_pow, Nat.testBit_eq_decide_div_mod_eq]
  by_cases h : l.toNat / 2 ^ k % 2 = 1
  · simp [h]
  · simp [h]

theorem bitsUsedForLabel_eq (l : BitVec 64) :
    bitsUsedForLabel l = if l.toNat % 2 = 1 then 4 else if l.toNat / 2 % 2 = 1 then 7 else 10 := by
  have h0 := and_bit_ne_zero l 0 (by omega)
  have h1 := and_bit_ne_zero l 1 (by omega)
  simp only [Nat.reducePow, Nat.div_one] at h0 h1
  simp only [bitsUsedForLabel, h0, h1]

theorem getDecompressed_four (l : BitVec 64) :
    getDecompressed l 4 =
      if l.toNat / 2 % 8 = 0 then 1 else if l.toNat / 2 % 8 = 1 then 0 else l.toNat / 2 % 8 := by
  have h := toNat_and_mask l 1 3 (by omega)
  simp only [Nat.reducePow] at h
  simp [getDecompressed, h, eq_comm]

theorem getDecompressed_seven (l : BitVec 64) :
    getDecompressed l 7 = if l.toNat / 4 % 32 = 0 then 0 else l.toNat / 4 % 32 + 1 := by
  have h := toNat_and_mask l 2 5 (by omega)
  simp only [Nat.reducePow] at h
  simp only [getDecompressed, h]
  split <;> split <;> omega

theorem getDecompressed_ten (l : BitVec 64) :
    getDecompressed l 10 = if l.toNat / 4 % 256 = 0 then 0 else l.toNat / 4 % 256 + 1 := by
  have h := toNat_and_mask l 2 8 (by omega)
  simp only [Nat.reducePow] at h
  simp only [getDecompressed, h]
  split <;> split <;> omega

/-- The code `getCompressed` writes, as a number. -/
def code (number bitsUsed : Nat) : Nat :=
  if number = 1 then 1
  else if bitsUsed = 4 then (if number = 0 then 3 else 2 * number + 1)
  else if bitsUsed = 7 then (if number = 0 then 2 else 4 * (number - 1) + 2)
  else 4 * (number - 1)

variable {s b : Nat}

theorem getCompressed_toNat (hs : s < INTERFACES) (hb : Width b) :
    (getCompressed s b).toNat = code s b := by
  have hlt : s < 257 := hs
  have h1 : (s <<< 1) ||| 1 = 2 * s + 1 := by
    rw [← Nat.shiftLeft_add_eq_or_of_lt (by omega : 1 < 2 ^ 1)]; omega
  have h2 : ((s - 1) <<< 2) ||| 2 = 4 * (s - 1) + 2 := by
    rw [← Nat.shiftLeft_add_eq_or_of_lt (by omega : 2 < 2 ^ 2)]; omega
  have h3 : (s - 1) <<< 2 = 4 * (s - 1) := by rw [Nat.shiftLeft_eq]; omega
  rcases hb with rfl | rfl | rfl <;> simp only [getCompressed, code, eq_comm (b := s)]
  · split
    · rfl
    · split
      · rfl
      · simp only [toNat_ofNat, ↓reduceIte]; omega
  · split
    · rfl
    · split
      · rfl
      · simp only [toNat_ofNat]; simp; omega
  · split
    · rfl
    · split
      · subst_vars; rfl
      · simp only [h3]; simp; omega

/-! ## What the switch relies on -/

theorem bitsUsedForLabel_width (l : BitVec 64) : Width (bitsUsedForLabel l) := by
  rw [bitsUsedForLabel_eq]
  unfold Width
  split
  · omega
  · split <;> omega

theorem bitsUsedForNumber_width (n : Nat) : Width (bitsUsedForNumber n) := by
  unfold bitsUsedForNumber Width
  split
  · omega
  · split <;> omega

theorem bitsUsedForNumber_one : bitsUsedForNumber 1 = 4 := rfl

/-- The interface a label names exists and fits the width it was read at. -/
theorem getDecompressed_fits (l : BitVec 64) :
    getDecompressed l (bitsUsedForLabel l) < INTERFACES ∧
      bitsUsedForNumber (getDecompressed l (bitsUsedForLabel l)) ≤ bitsUsedForLabel l := by
  obtain h | h | h := bitsUsedForLabel_width l <;> rw [h]
  · rw [getDecompressed_four]; unfold INTERFACES bitsUsedForNumber; split_ifs <;> omega
  · rw [getDecompressed_seven]; unfold INTERFACES bitsUsedForNumber; split_ifs <;> omega
  · rw [getDecompressed_ten]; unfold INTERFACES bitsUsedForNumber; split_ifs <;> omega

variable {l : BitVec 64}

theorem getDecompressed_eq_one (h : getDecompressed l (bitsUsedForLabel l) = 1) :
    bitsUsedForLabel l = 4 ∧ l.toNat % 16 = 1 := by
  have hb := bitsUsedForLabel_eq l
  obtain h4 | h7 | h10 := bitsUsedForLabel_width l
  · rw [h4, getDecompressed_four] at h
    refine ⟨h4, ?_⟩
    split_ifs at hb h <;> omega
  · rw [h7, getDecompressed_seven] at h
    split_ifs at h; omega
  · rw [h10, getDecompressed_ten] at h
    split_ifs at h; omega

/-- The low `b` bits of the label are the code `c`. -/
def Reads (l : BitVec 64) (c b : Nat) : Prop := l.toNat % 2 ^ b = c

theorem code_lt (hs : s < INTERFACES) (hb : Width b) (hf : bitsUsedForNumber s ≤ b) :
    code s b < 2 ^ b := by
  have hlt : s < 257 := hs
  unfold bitsUsedForNumber at hf
  rcases hb with rfl | rfl | rfl <;> unfold code <;> split_ifs at hf ⊢ <;> omega

theorem bitsUsedForLabel_of_reads (hs : s ≠ 1) (hb : Width b) (hr : Reads l (code s b) b) : bitsUsedForLabel l = b := by
  rw [bitsUsedForLabel_eq]
  unfold Reads code at hr
  rcases hb with rfl | rfl | rfl <;> simp only [hs, if_false] at hr <;> split_ifs at hr ⊢ <;> omega

theorem getDecompressed_of_reads (hs : s ≠ 1) (hb : Width b) (hf : bitsUsedForNumber s ≤ b)
    (hr : Reads l (code s b) b) :
    getDecompressed l b = s := by
  unfold Reads code at hr
  rcases hb with rfl | rfl | rfl
  · rw [getDecompressed_four]; split_ifs at hf hr ⊢ <;> omega
  · rw [getDecompressed_seven]; split_ifs at hf hr ⊢ <;> omega
  · rw [getDecompressed_ten]; split_ifs at hf hr ⊢ <;> omega

theorem reads_getDecompressed (l : BitVec 64) :
    Reads l (code (getDecompressed l (bitsUsedForLabel l)) (bitsUsedForLabel l)) (bitsUsedForLabel l) := by
  have hb := bitsUsedForLabel_eq l
  unfold Reads code
  obtain h | h | h := bitsUsedForLabel_width l <;> rw [h] at hb ⊢
  · have hodd : l.toNat % 2 = 1 := by split_ifs at hb <;> omega
    have hnumber := getDecompressed_four l
    split_ifs at hnumber
    · rw [hnumber, if_pos rfl]
      omega
    · rw [hnumber, if_neg (by omega), if_pos rfl, if_pos rfl]
      omega
    · rw [if_neg (by omega), if_pos rfl, if_neg (by omega)]
      omega
  · have heven : l.toNat % 2 = 0 ∧ l.toNat / 2 % 2 = 1 := by split_ifs at hb <;> omega
    have hnumber := getDecompressed_seven l
    split_ifs at hnumber
    · rw [hnumber, if_neg (by omega), if_neg (by omega), if_pos rfl, if_pos rfl]
      omega
    · rw [if_neg (by omega), if_neg (by omega), if_pos rfl, if_neg (by omega)]
      omega
  · have heven : l.toNat % 2 = 0 ∧ l.toNat / 2 % 2 = 0 := by split_ifs at hb <;> omega
    have hnumber := getDecompressed_ten l
    split_ifs at hnumber
    · rw [if_neg (by omega), if_neg (by omega), if_neg (by omega)]
      omega
    · rw [if_neg (by omega), if_neg (by omega), if_neg (by omega)]
      omega

/-! ## The label handed to an asker -/

def decompress (label : BitVec 64) : Nat := getDecompressed label (bitsUsedForLabel label)

def getLabelFor (target whoIsAsking : BitVec 64) : BitVec 64 :=
  let targetBits := bitsUsedForLabel target
  let whoIsAskingBits := bitsUsedForLabel whoIsAsking
  if targetBits ≥ whoIsAskingBits then target
  else
    let targetIfaceNum := getDecompressed target targetBits
    ((target &&& (BitVec.allOnes 64 <<< targetBits)) <<< (whoIsAskingBits - targetBits)) |||
      getCompressed targetIfaceNum whoIsAskingBits

/-- What stands behind the first director of a label, with the mark at its end. -/
def remaining (label : BitVec 64) : BitVec 64 := label >>> bitsUsedForLabel label

/-- The label leads where the target does, and its first director has room for the one of the asker. -/
structure Padded (target whoIsAsking label : BitVec 64) : Prop where
  iface : decompress label = decompress target
  wide : bitsUsedForLabel whoIsAsking ≤ bitsUsedForLabel label
  rest : remaining label = remaining target

theorem shift_rest (l : BitVec 64) {k n : Nat} (h : k ≤ n) :
    (l &&& (BitVec.allOnes 64 <<< k)) <<< (n - k) = (l >>> k) <<< n := by
  apply eq_of_getLsbD_eq
  intro i hi
  simp only [getLsbD_shiftLeft, getLsbD_and, getLsbD_allOnes, getLsbD_ushiftRight, hi]
  by_cases hn : i < n
  · simp [hn]
    omega
  · simp only [hn, decide_true, decide_false, Bool.not_false, Bool.true_and, show ¬ i < n - k by omega,
      show ¬ i - (n - k) < k by omega, show i - (n - k) < 64 by omega, Bool.and_true,
      show i - (n - k) - k < 64 by omega, show k + (i - n) = i - (n - k) by omega]

variable {target who : BitVec 64}

variable (h : bitsUsedForLabel target < bitsUsedForLabel who)
include h

theorem code_decompress_lt :
    code (decompress target) (bitsUsedForLabel who) < 2 ^ bitsUsedForLabel who :=
  have hfits := getDecompressed_fits target
  code_lt hfits.1 (bitsUsedForLabel_width who) (hfits.2.trans h.le)

/-- The rest of the path moves up: what does not fit is lost. -/
theorem getLabelFor_toNat :
    (getLabelFor target who).toNat =
      2 ^ bitsUsedForLabel who * (target.toNat / 2 ^ bitsUsedForLabel target % 2 ^ (64 - bitsUsedForLabel who)) +
        code (decompress target) (bitsUsedForLabel who) := by
  have hfits := getDecompressed_fits target
  have hwidth := bitsUsedForLabel_width who
  have hle : bitsUsedForLabel who ≤ 64 := by unfold Width at hwidth; omega
  have hword : 2 ^ 64 = 2 ^ (64 - bitsUsedForLabel who) * 2 ^ bitsUsedForLabel who := by
    rw [← Nat.pow_add, Nat.sub_add_cancel hle]
  unfold getLabelFor
  rw [if_neg (Nat.not_le_of_lt h)]
  rw [shift_rest target h.le, toNat_or, toNat_shiftLeft, toNat_ushiftRight,
    Nat.shiftRight_eq_div_pow, Nat.shiftLeft_eq, hword, Nat.mul_mod_mul_right, getCompressed_toNat hfits.1 hwidth,
    Nat.mul_comm]
  exact (Nat.two_pow_add_eq_or_of_lt (code_decompress_lt h) _).symm

/-- A label that is padded out names the same interface, at the width of the asker's director. -/
theorem reads_getLabelFor :
    Reads (getLabelFor target who) (code (decompress target) (bitsUsedForLabel who)) (bitsUsedForLabel who) := by
  unfold Reads
  rw [getLabelFor_toNat h, Nat.mul_add_mod]
  exact Nat.mod_eq_of_lt (code_decompress_lt h)

theorem remaining_getLabelFor (hself : decompress target ≠ 1) :
    (remaining (getLabelFor target who)).toNat = (remaining target).toNat % 2 ^ (64 - bitsUsedForLabel who) := by
  unfold remaining
  rw [bitsUsedForLabel_of_reads hself (bitsUsedForLabel_width who) (reads_getLabelFor h), toNat_ushiftRight,
    toNat_ushiftRight, Nat.shiftRight_eq_div_pow, Nat.shiftRight_eq_div_pow, getLabelFor_toNat h,
    Nat.mul_add_div (Nat.two_pow_pos _), Nat.div_eq_of_lt (code_decompress_lt h), Nat.add_zero]

omit h

/-- The rest of the path fits behind a wider director unless six bits are added to a label of more than 58. -/
theorem remaining_fits_iff (hlt : target.toNat < 2 ^ 60) (h : bitsUsedForLabel target < bitsUsedForLabel who) :
    (remaining target).toNat < 2 ^ (64 - bitsUsedForLabel who) ↔
      target.toNat < 2 ^ 58 ∨ bitsUsedForLabel who - bitsUsedForLabel target ≤ 3 := by
  have htarget := bitsUsedForLabel_width target
  have hwho := bitsUsedForLabel_width who
  unfold remaining
  rw [toNat_ushiftRight]
  generalize bitsUsedForLabel target = targetBits at *
  generalize bitsUsedForLabel who = whoBits at *
  rcases htarget with rfl | rfl | rfl <;> rcases hwho with rfl | rfl | rfl <;> omega

theorem getLabelFor_one (who : BitVec 64) : getLabelFor 1 who = 1 := by
  unfold getLabelFor
  dsimp only
  split
  · rfl
  · rename_i h
    rw [shift_rest 1 (Nat.le_of_not_le h), show (1 : BitVec 64) >>> bitsUsedForLabel 1 = 0#64 from rfl, zero_shiftLeft, zero_or,
      show getDecompressed 1 (bitsUsedForLabel 1) = 1 from rfl]
    rfl

/-- The label for an asker, for every target that leads away from the router or is the router itself. -/
theorem getLabelFor_padded_iff (target whoIsAsking : BitVec 64) (hlt : target.toNat < 2 ^ 60)
    (hself : decompress target ≠ 1 ∨ target = 1) :
    Padded target whoIsAsking (getLabelFor target whoIsAsking) ↔
      bitsUsedForLabel whoIsAsking ≤ bitsUsedForLabel target ∨
        target ≠ 1 ∧ (target.toNat < 2 ^ 58 ∨ bitsUsedForLabel whoIsAsking - bitsUsedForLabel target ≤ 3) := by
  by_cases hwide : bitsUsedForLabel whoIsAsking ≤ bitsUsedForLabel target
  · have heq : getLabelFor target whoIsAsking = target := if_pos hwide
    rw [heq]
    exact iff_of_true ⟨rfl, hwide, rfl⟩ (.inl hwide)
  · have hlonger := Nat.lt_of_not_le hwide
    rw [or_iff_right hwide]
    by_cases hone : target = 1
    · subst hone
      refine iff_of_false (fun h => hwide ?_) (fun h => h.1 rfl)
      have hroom := h.wide
      rw [getLabelFor_one] at hroom
      exact hroom
    · have hne := hself.resolve_right hone
      have hbits := bitsUsedForLabel_of_reads hne (bitsUsedForLabel_width _) (reads_getLabelFor hlonger)
      have hfits := getDecompressed_fits target
      rw [and_iff_right hone, ← remaining_fits_iff hlt hlonger]
      constructor
      · intro h
        have hrest := congrArg BitVec.toNat h.rest
        rw [remaining_getLabelFor hlonger hne] at hrest
        rw [← hrest]
        exact Nat.mod_lt _ (Nat.two_pow_pos _)
      · intro h
        refine ⟨?_, hbits.ge, eq_of_toNat_eq ?_⟩
        · unfold decompress
          rw [hbits]
          exact getDecompressed_of_reads hne (bitsUsedForLabel_width _) (hfits.2.trans hlonger.le)
            (reads_getLabelFor hlonger)
        · rw [remaining_getLabelFor hlonger hne, Nat.mod_eq_of_lt h]

/-- The label `0x15` as it is handed to a node behind a director of seven bits. -/
theorem getLabelFor_padded_seven : Padded 0x15 0x82 (getLabelFor 0x15 0x82) ∧ getLabelFor 0x15 0x82 = 0x86 :=
  ⟨(getLabelFor_padded_iff 0x15 0x82 (by decide) (.inl (by decide))).mpr (by decide), by decide⟩

/-- A path of 59 bits loses its end when its director is made six bits longer. -/
theorem getLabelFor_loses_end : getLabelFor 0x400000000000005 0x400 = 4 ∧ ¬ Padded 0x400000000000005 0x400 4 :=
  ⟨by decide, fun h => absurd h.rest (by decide)⟩

end Hyperboria.NumberCompress
