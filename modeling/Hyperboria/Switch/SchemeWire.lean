/-
The wire format of an encoding scheme. The forms stand back to back, each in 10 bits and
its prefix, and the bits are cut into bytes with no regard to where a form begins. So the
bytes are one little-endian number (`value`), and so are the forms (`packed`): what the
writer has put out and still has in its block is the number of the forms so far, and what
the reader has in its block and still has to read is that of the forms that are left.
-/
import Hyperboria.Switch.Directors

namespace Hyperboria.EncodingScheme

open Er List BitVec Nat

open Bits (maxBits64)

/-! ## Numbers -/

/-- The number the bytes are, least significant byte first. -/
def value (bytes : List UInt8) : Nat := Nat.ofDigits 256 (bytes.map UInt8.toNat)

@[simp] theorem value_nil : value [] = 0 := rfl

@[simp] theorem value_cons (byte : UInt8) (bytes : List UInt8) :
    value (byte :: bytes) = byte.toNat + 256 * value bytes := by
  simp [value, ofDigits_cons]

theorem value_append (xs ys : List UInt8) : value (xs ++ ys) = value xs + 256 ^ xs.length * value ys := by
  simp [value, ofDigits_append]

theorem value_inj {xs ys} (hlen : xs.length = ys.length) (h : value xs = value ys) : xs = ys := by
  induction xs generalizing ys with
  | nil => exact (length_eq_zero_iff.mp hlen.symm).symm
  | cons x xs ih =>
    cases ys with
    | nil => cases hlen
    | cons y ys =>
      rw [value_cons, value_cons] at h
      have hx := x.toNat_lt
      have hy := y.toNat_lt
      have hhead : x.toNat = y.toNat := by omega
      have htail : value xs = value ys := by omega
      rw [UInt8.toNat_inj.mp hhead, ih (succ.inj hlen) htail]

theorem value_replicate (k : Nat) : value (List.replicate k 0) = 0 := by
  induction k with
  | zero => rfl
  | succ k ih => rw [List.replicate_succ, value_cons, ih]; rfl

/-- The bits a form takes. -/
def Form.width (form : Form) : Nat := 10 + form.prefixLen

/-- The form as a number of so many bits. -/
def Form.number (form : Form) : Nat := form.prefixLen + 32 * form.bitCount + 1024 * form.prefixBits.toNat

/-- The forms as one number. -/
def packed : List Form → Nat
  | [] => 0
  | form :: forms => form.number + 2 ^ form.width * packed forms

/-- The bits all the forms take. -/
def width (forms : List Form) : Nat := (forms.map Form.width).sum

@[simp] theorem width_nil : width [] = 0 := rfl

@[simp] theorem width_cons (form : Form) (forms : List Form) : width (form :: forms) = form.width + width forms := by
  simp [width]

/-- What the wire format needs of a form. -/
structure Form.Fits (form : Form) : Prop where
  bitCount_pos : 0 < form.bitCount
  bitCount_lt : form.bitCount < 32
  prefixLen_lt : form.prefixLen < 32
  prefixBits_lt : form.prefixBits.toNat < 2 ^ form.prefixLen

variable {form : Form}

theorem Scheme.fits_of_mem {S : Scheme} (h : form ∈ S.forms) : form.Fits := by
  have hb := Scheme.bounds h
  exact ⟨hb.bitCount_pos, lt_succ_of_le hb.bitCount_le, lt_succ_of_le hb.prefixLen_le, hb.fits⟩

theorem Form.Fits.number_lt (h : form.Fits) : form.number < 2 ^ form.width := by
  obtain ⟨-, hcount, hlen, hbits⟩ := h
  unfold Form.number Form.width
  rw [pow_add]
  omega

variable {forms : List Form}

theorem width_le (h : ∀ form ∈ forms, form.Fits) : width forms ≤ 41 * forms.length := by
  induction forms with
  | nil => simp
  | cons form forms ih =>
    have hlen := (h form (by simp)).prefixLen_lt
    have hrest := ih fun f hf => h f (by simp [hf])
    rw [width_cons, length_cons]
    unfold Form.width
    omega

/-! ## The writer -/

theorem toNat_or_shiftLeft {x y : BitVec 64} {k n} (hx : x.toNat < 2 ^ k) (hy : y.toNat < 2 ^ n)
    (hkn : k + n ≤ 64) : (x ||| (y <<< k)).toNat = x.toNat + 2 ^ k * y.toNat := by
  have hlt : 2 ^ k * y.toNat < 2 ^ 64 := by
    calc 2 ^ k * y.toNat < 2 ^ k * 2 ^ n := Nat.mul_lt_mul_of_pos_left hy (Nat.two_pow_pos k)
      _ = 2 ^ (k + n) := (Nat.pow_add 2 k n).symm
      _ ≤ 2 ^ 64 := Nat.pow_le_pow_right (by decide) hkn
  rw [toNat_or, toNat_shiftLeft, Nat.shiftLeft_eq, Nat.mul_comm, mod_eq_of_lt hlt, Nat.or_comm,
    ← two_pow_add_eq_or_of_lt hx]
  omega

theorem toNat_and_maxBits {x} {k} (hk : k < 64) (hx : x.toNat < 2 ^ k) :
    (x &&& BitVec.ofNat 64 (2 ^ k - 1)).toNat = x.toNat := by
  have hmask := NumberCompress.toNat_and_mask x 0 k (le_of_lt hk)
  rw [Nat.pow_zero, Nat.div_one, mod_eq_of_lt hx] at hmask
  exact hmask

variable {block : BitVec 64} {bits : Nat}

theorem encodeForm_eq (hform : form.Fits) (hblock : block.toNat < 2 ^ bits) (hbits : bits ≤ 8) :
    ∃ block', encodeForm form block bits = .ret (block', form.width) ∧
      block'.toNat = block.toNat + 2 ^ bits * form.number := by
  obtain ⟨-, hcount, hlen, hfits⟩ := hform
  have hlen32 : form.prefixLen % 2 ^ 64 = form.prefixLen := mod_eq_of_lt (by omega)
  have hcount32 : form.bitCount % 2 ^ 64 = form.bitCount := mod_eq_of_lt (by omega)
  have hprefix : form.prefixBits.toNat % 2 ^ 64 = form.prefixBits.toNat :=
    mod_eq_of_lt (Nat.lt_of_lt_of_le hfits (Nat.pow_le_pow_right (by decide) (by omega)))
  -- the three fields as numbers
  have h₁ : (BitVec.ofNat 64 form.prefixLen &&& BitVec.ofNat 64 (2 ^ 5 - 1)).toNat = form.prefixLen := by
    rw [toNat_and_maxBits (by decide) (by rw [toNat_ofNat, hlen32]; exact hlen), toNat_ofNat, hlen32]
  have h₂ : (BitVec.ofNat 64 form.bitCount &&& BitVec.ofNat 64 (2 ^ 5 - 1)).toNat = form.bitCount := by
    rw [toNat_and_maxBits (by decide) (by rw [toNat_ofNat, hcount32]; exact hcount), toNat_ofNat,
      hcount32]
  have h₃ : (form.prefixBits.setWidth 64 &&& BitVec.ofNat 64 (2 ^ form.prefixLen - 1)).toNat =
      form.prefixBits.toNat := by
    rw [toNat_and_maxBits (by omega) (by rw [toNat_setWidth, hprefix]; exact hfits), toNat_setWidth,
      hprefix]
  unfold encodeForm
  rw [maxBits64_eq (by decide), maxBits64_eq (by omega)]
  refine ⟨_, rfl, ?_⟩
  have hlt₁ : (BitVec.ofNat 64 form.prefixLen &&& BitVec.ofNat 64 (2 ^ 5 - 1)).toNat < 2 ^ 5 := h₁.trans_lt hlen
  have hlt₂ : (BitVec.ofNat 64 form.bitCount &&& BitVec.ofNat 64 (2 ^ 5 - 1)).toNat < 2 ^ 5 := h₂.trans_lt hcount
  have hb₁ := toNat_or_shiftLeft hblock hlt₁ (by omega)
  have hone := Bits.add_mul_lt hblock hlt₁
  rw [← hb₁] at hone
  have hb₂ := toNat_or_shiftLeft hone hlt₂ (by omega)
  have htwo := Bits.add_mul_lt hone hlt₂
  rw [← hb₂] at htwo
  rw [toNat_or_shiftLeft htwo (h₃.symm ▸ hfits) (by omega), hb₂, hb₁, h₁, h₂, h₃]
  unfold Form.number
  ring

theorem toNat_lowByte (block : BitVec 64) : (UInt8.ofNat (block &&& 0xff#64).toNat).toNat = block.toNat % 256 := by
  have hmask := NumberCompress.toNat_and_mask block 0 8 (by decide)
  rw [ushiftRight_zero] at hmask
  rw [show (0xff#64) = BitVec.ofNat 64 (2 ^ 8 - 1) from rfl, UInt8.toNat_ofNat']
  omega

/-- What the writer has done: put out bytes, with at most one byte's worth of bits left in the block. -/
structure Written (len total number : Nat) (out : List UInt8) (block : BitVec 64) (bits : Nat) : Prop where
  number_eq : value out + 256 ^ out.length * block.toNat = number
  total_eq : 8 * out.length + bits = total
  block_lt : block.toNat < 2 ^ bits
  room : total ≤ 8 * len

variable {rounds : Nat}

theorem drain_eq {len total number} {out} (h : Written len total number out block bits)
    (hbits : 0 < bits) (hrounds : bits ≤ 8 * rounds) :
    ∃ out' block' bits', drain len out block bits rounds = .ret (out', block', bits') ∧
      Written len total number out' block' bits' ∧ bits' ≤ 8 := by
  induction rounds generalizing out block bits with
  | zero => omega
  | succ rounds ih =>
    unfold drain
    split
    next hmore =>
      have htotal := h.total_eq
      have hroom := h.room
      rw [assertTrue_bind (decide_eq_true (by omega))]
      refine ih ⟨?_, ?_, ?_, hroom⟩ (by omega) (by omega)
      · rw [value_append, length_append, length_singleton, value_cons, value_nil, toNat_lowByte,
          toNat_ushiftRight, shiftRight_eq_div_pow, ← h.number_eq, pow_succ]
        have hsplit := mod_add_div block.toNat 256
        calc _ = value out + 256 ^ out.length * (block.toNat % 256 + 256 * (block.toNat / 256)) := by ring
          _ = _ := by rw [hsplit]
      · rw [length_append, length_singleton]
        omega
      · rw [toNat_ushiftRight, shiftRight_eq_div_pow]
        apply Nat.div_lt_of_lt_mul
        rw [← Nat.pow_add, Nat.add_sub_cancel' (by omega)]
        exact h.block_lt
    next hdone => exact ⟨out, block, bits, rfl, h, by omega⟩

theorem encodeForms_eq {len total number} (hforms : ∀ form ∈ forms, form.Fits) {out}
    (h : Written len total number out block bits) (hbits : bits ≤ 8) (hroom : total + width forms ≤ 8 * len) :
    ∃ out' block' bits', encodeForms len out block bits forms = .ret (out', block', bits') ∧
      Written len (total + width forms) (number + 2 ^ total * packed forms) out' block' bits' ∧ bits' ≤ 8 := by
  induction forms generalizing total number out block bits with
  | nil => exact ⟨out, block, bits, rfl, by simpa [packed] using h, hbits⟩
  | cons form forms ih =>
    have hform := hforms form (by simp)
    rw [width_cons] at hroom
    obtain ⟨block₁, hencode, hblock₁⟩ := encodeForm_eq hform h.block_lt hbits
    have hpow : 256 ^ out.length * 2 ^ bits = 2 ^ total := by
      rw [← h.total_eq, Nat.pow_add, Nat.pow_mul]
    have hwritten : Written len (total + form.width) (number + 2 ^ total * form.number) out block₁
        (bits + form.width) := by
      refine ⟨?_, ?_, ?_, by omega⟩
      · rw [hblock₁, Nat.mul_add, ← Nat.mul_assoc, hpow, ← Nat.add_assoc, h.number_eq]
      · rw [← h.total_eq]
        omega
      · rw [hblock₁]
        exact Bits.add_mul_lt h.block_lt hform.number_lt
    have hpos : 0 < form.width := by
      unfold Form.width
      omega
    obtain ⟨out₂, block₂, bits₂, hdrain, h₂, hle₂⟩ := drain_eq hwritten (by omega)
      (show bits + form.width ≤ 8 * (bits + form.width) by omega)
    obtain ⟨out', block', bits', hrest, h', hle'⟩ :=
      ih (fun f hf => hforms f (by simp [hf])) h₂ hle₂ (by omega)
    refine ⟨out', block', bits', ?_, ?_, hle'⟩
    · unfold encodeForms
      rw [hencode, ret_bind]
      dsimp only
      rw [hdrain]
      exact hrest
    · rw [width_cons, ← Nat.add_assoc]
      have hnumber : number + 2 ^ total * packed (form :: forms) =
          number + 2 ^ total * form.number + 2 ^ (total + form.width) * packed forms := by
        rw [packed]
        ring
      rw [hnumber]
      exact h'

/-- The string is the number of the forms, in as few bytes as their bits need. -/
theorem serialize_eq {paranoia} (hsane : isSane forms = true) (hforms : ∀ form ∈ forms, form.Fits) :
    ∃ out, serialize paranoia forms = .ret out ∧ value out = packed forms ∧
      width forms ≤ 8 * out.length ∧ 8 * out.length < width forms + 8 := by
  have hempty : Written (forms.length * 6) 0 0 [] 0 0 := ⟨rfl, rfl, by decide, zero_le _⟩
  have hwidth := width_le hforms
  obtain ⟨out, block, bits, hencode, h, hle⟩ := encodeForms_eq hforms hempty (zero_le 8) (by omega)
  rw [zero_add, zero_add, pow_zero, one_mul] at h
  have htotal := h.total_eq
  have hnumber := h.number_eq
  have hsaneOr : (!paranoia || isSane forms) = true := by rw [hsane, Bool.or_true]
  unfold serialize
  rw [assertTrue_bind hsaneOr]
  dsimp only
  rw [hencode, ret_bind]
  dsimp only
  split
  next hleft =>
    rw [assertTrue_bind (decide_eq_true (by omega))]
    have hblock : block.toNat % 256 = block.toNat :=
      mod_eq_of_lt (Nat.lt_of_lt_of_le h.block_lt (Nat.pow_le_pow_right (by decide) hle))
    refine ⟨_, rfl, ?_, ?_, ?_⟩
    · rw [value_append, value_cons, value_nil, toNat_lowByte, hblock, Nat.add_zero, hnumber]
    · rw [length_append, length_singleton]
      omega
    · rw [length_append, length_singleton]
      omega
  next hnone =>
    obtain rfl : bits = 0 := by omega
    have hblock : block.toNat = 0 := lt_one_iff.mp h.block_lt
    refine ⟨out, rfl, ?_, by omega, by omega⟩
    rw [hblock] at hnumber
    exact hnumber

/-! ## The reader -/

/-- What the reader has before it: a number of so many bits, the low ones in its block. -/
structure Ahead (total number : Nat) (data : List UInt8) (block : BitVec 64) (bits : Nat) : Prop where
  number_eq : block.toNat + 2 ^ bits * value data = number
  total_eq : bits + 8 * data.length = total
  block_lt : block.toNat < 2 ^ bits
  bits_lt : bits < 64

variable {number total : Nat} {data : List UInt8}

theorem loadBlock_ahead (h : Ahead total number data block bits) :
    Ahead total number (loadBlock data block bits).1 (loadBlock data block bits).2.1 (loadBlock data block bits).2.2 ∧
      ((loadBlock data block bits).1 = [] ∨ 56 ≤ (loadBlock data block bits).2.2) := by
  induction data generalizing block bits with
  | nil => exact ⟨h, .inl rfl⟩
  | cons byte rest ih =>
    unfold loadBlock
    split
    next hroom =>
      have hbyte : (BitVec.ofNat 64 byte.toNat).toNat = byte.toNat := by
        have := byte.toNat_lt
        rw [toNat_ofNat]
        omega
      have hlt : (BitVec.ofNat 64 byte.toNat).toNat < 2 ^ 8 := hbyte.trans_lt byte.toNat_lt
      have hblock := toNat_or_shiftLeft h.block_lt hlt (by omega)
      rw [hbyte] at hblock
      refine ih ⟨?_, ?_, ?_, by omega⟩
      · rw [hblock, ← h.number_eq, value_cons]
        ring
      · rw [← h.total_eq, length_cons]
        omega
      · rw [hblock]
        exact Bits.add_mul_lt h.block_lt byte.toNat_lt
    next hfull => exact ⟨h, .inr (Nat.le_of_not_lt hfull)⟩

theorem Ahead.low (h : Ahead total number data block bits) (hloaded : data = [] ∨ 56 ≤ bits) :
    block.toNat % 2 ^ 41 = number % 2 ^ 41 := by
  rw [← h.number_eq]
  rcases hloaded with rfl | hfull
  · rw [value_nil, Nat.mul_zero, Nat.add_zero]
  · obtain ⟨k, rfl⟩ : ∃ k, bits = 41 + k := ⟨bits - 41, by omega⟩
    rw [pow_add, mul_assoc, add_mul_mod_self_left]

theorem decodeForm_cases {d} :
    (d.toNat / 32 % 32 = 0 ∧ decodeForm d = none) ∨
      ∃ form : Form, form.Fits ∧ decodeForm d = some (form, form.width) ∧ d.toNat % 2 ^ form.width = form.number := by
  unfold decodeForm
  dsimp only
  split
  next hzero => exact .inl ⟨by omega, rfl⟩
  next hcount =>
    refine .inr ⟨_, ⟨?_, ?_, ?_, ?_⟩, rfl, ?_⟩
    · dsimp only
      omega
    · exact mod_lt _ (by decide)
    · exact mod_lt _ (by decide)
    · exact (mod_le _ _).trans_lt (mod_lt _ (Nat.two_pow_pos _))
    · have hbits : d.toNat / 1024 % 2 ^ (d.toNat % 32) < 2 ^ 32 :=
        Nat.lt_of_lt_of_le (mod_lt _ (Nat.two_pow_pos _)) (Nat.pow_le_pow_right (by decide) (by omega))
      have hten : 2 ^ 10 = 1024 := rfl
      unfold Form.width Form.number
      dsimp only
      rw [toNat_ofNat, Nat.pow_add, mod_mul, hten]
      omega

theorem Form.number_mod (h : form.Fits) : form.number % 32 = form.prefixLen := by
  have := h.prefixLen_lt
  unfold Form.number
  omega

theorem Form.eq_of_mod {f g : Form} (hf : f.Fits) (hg : g.Fits) (hnf : number % 2 ^ f.width = f.number)
    (hng : number % 2 ^ g.width = g.number) : f = g := by
  have hlow : ∀ form : Form, number % 2 ^ form.width % 32 = number % 32 := by
    intro form
    apply mod_mod_of_dvd
    exact pow_dvd_pow 2 (show 5 ≤ form.width by unfold Form.width; omega)
  have hlen : f.prefixLen = g.prefixLen := by
    rw [← Form.number_mod hf, ← Form.number_mod hg, ← hnf, ← hng, hlow, hlow]
  have hnumber : f.number = g.number := by
    rw [← hnf, ← hng]
    unfold Form.width
    rw [hlen]
  have hcf := hf.bitCount_lt
  have hcg := hg.bitCount_lt
  unfold Form.number at hnumber
  obtain ⟨fc, fl, fp⟩ := f
  obtain ⟨gc, gl, gp⟩ := g
  dsimp only at hlen hnumber hcf hcg
  have hcount : fc = gc := by omega
  have hbits : fp.toNat = gp.toNat := by omega
  rw [hlen, hcount, eq_of_toNat_eq hbits]

variable (h : Ahead total number data block bits)
include h

/-- One round of the reader: the end of the forms, or a form and what is ahead behind it. -/
theorem decodeForms_round (rounds : Nat) :
    (number / 32 % 32 = 0 ∧ ∃ r, decodeForms data block bits (rounds + 1) = .ret r ∧
        (r = none ∨ r = some [] ∧ number = 0) ∧ (number = 0 → total < 8 → r = some [])) ∨
      ∃ form : Form, form.Fits ∧ number % 2 ^ form.width = form.number ∧
        (total < form.width → decodeForms data block bits (rounds + 1) = .ret none) ∧
        (form.width ≤ total → ∃ data' block' bits',
          Ahead (total - form.width) (number / 2 ^ form.width) data' block' bits' ∧
          decodeForms data block bits (rounds + 1) =
            (decodeForms data' block' bits' rounds >>= fun forms => .ret (forms.map (form :: ·)))) := by
  obtain ⟨hload, hfull⟩ := loadBlock_ahead h
  rw [decodeForms]
  dsimp only
  generalize (loadBlock data block bits).1 = data₁ at hload hfull ⊢
  generalize (loadBlock data block bits).2.1 = block₁ at hload hfull ⊢
  generalize (loadBlock data block bits).2.2 = bits₁ at hload hfull ⊢
  have hlow := hload.low hfull
  have htotal := hload.total_eq
  have hnumber := hload.number_eq
  rcases @decodeForm_cases block₁ with ⟨hcount, hnone⟩ | ⟨form, hform, hsome, hmod⟩
  · refine .inl ⟨by omega, _, by rw [hnone], ?_, ?_⟩
    · split
      next hleft => exact .inl rfl
      next hend =>
        push Not at hend
        refine .inr ⟨rfl, ?_⟩
        rw [← hnumber, hend.1, hend.2]
        simp
    · intro hzero hshort
      rw [if_neg]
      push Not
      have hblock : block₁.toNat = 0 := by
        omega
      refine ⟨eq_of_toNat_eq (by rw [hblock]; rfl), ?_⟩
      rcases hfull with hnil | hbits
      · exact hnil
      · omega
  · have hwidth : form.width ≤ 41 := by
      have := hform.prefixLen_lt
      unfold Form.width
      omega
    have hdvd : 2 ^ form.width ∣ 2 ^ 41 := Nat.pow_dvd_pow 2 hwidth
    have hmod' : number % 2 ^ form.width = form.number := by
      rw [← hmod, ← mod_mod_of_dvd number hdvd, ← hlow, mod_mod_of_dvd _ hdvd]
    refine .inr ⟨form, hform, hmod', ?_, ?_⟩
    · intro hshort
      rw [hsome]
      exact if_pos (by omega)
    · intro hroom
      have hbits : form.width ≤ bits₁ := by
        rcases hfull with hnil | hbits
        · rw [hnil, length_nil] at htotal
          omega
        · omega
      have hpow : 2 ^ bits₁ = 2 ^ form.width * 2 ^ (bits₁ - form.width) := by
        rw [← Nat.pow_add, Nat.add_sub_cancel' hbits]
      refine ⟨data₁, block₁ >>> form.width, bits₁ - form.width, ⟨?_, by omega, ?_, ?_⟩, ?_⟩
      · rw [toNat_ushiftRight, shiftRight_eq_div_pow, ← hnumber, hpow, Nat.mul_assoc,
          add_mul_div_left _ _ (Nat.two_pow_pos _)]
      · rw [toNat_ushiftRight, shiftRight_eq_div_pow]
        apply Nat.div_lt_of_lt_mul
        rw [← hpow]
        exact hload.block_lt
      · have := hload.bits_lt
        omega
      · have hzero : form.prefixBits.toNat / 2 ^ form.prefixLen = 0 := div_eq_of_lt hform.prefixBits_lt
        rw [hsome]
        dsimp only
        rw [if_neg (Nat.not_lt.mpr hbits), assertTrue_bind (decide_eq_true hzero)]

theorem decodeForms_returns (hrounds : total < 10 * rounds) :
    ∃ r, decodeForms data block bits rounds = .ret r := by
  induction rounds generalizing total number data block bits with
  | zero => omega
  | succ rounds ih =>
    rcases decodeForms_round h rounds with ⟨-, r, hr, -⟩ | ⟨form, -, -, hshort, hlong⟩
    · exact ⟨r, hr⟩
    by_cases hroom : form.width ≤ total
    · obtain ⟨data', block', bits', h', heq⟩ := hlong hroom
      have hten : 10 ≤ form.width := by
        unfold Form.width
        omega
      obtain ⟨r, hr⟩ := ih h' (by omega)
      exact ⟨r.map (form :: ·), by rw [heq, hr, ret_bind]⟩
    · exact ⟨none, hshort (by omega)⟩

theorem decodeForms_sound (hread : decodeForms data block bits rounds = .ret (some forms)) :
    number = packed forms ∧ width forms ≤ total ∧ ∀ form ∈ forms, form.Fits := by
  induction rounds generalizing total number data block bits forms with
  | zero => cases hread
  | succ rounds ih =>
    rcases decodeForms_round h rounds with ⟨-, r, hr, hcases, -⟩ | ⟨form, hform, hmod, hshort, hlong⟩
    · rw [hr] at hread
      cases hread
      rcases hcases with hnone | ⟨hnil, hzero⟩
      · cases hnone
      · cases hnil
        exact ⟨hzero, zero_le _, by simp⟩
    by_cases hroom : form.width ≤ total
    · obtain ⟨data', block', bits', h', heq⟩ := hlong hroom
      rw [heq] at hread
      obtain ⟨r, hr, hread⟩ := bind_inv hread
      obtain ⟨rest, rfl, rfl⟩ := Option.map_eq_some_iff.mp (ret.inj hread)
      obtain ⟨hnumber, hwidth, hfits⟩ := ih h' hr
      refine ⟨?_, by rw [width_cons]; omega, ?_⟩
      · rw [packed, ← hnumber, ← hmod, mod_add_div]
      · intro f hf
        rcases mem_cons.mp hf with rfl | hf
        · exact hform
        · exact hfits f hf
    · rw [hshort (by omega)] at hread
      cases hread

/-- The forms the number is made of are read, if not even a byte is left over. -/
theorem decodeForms_complete (hrounds : total < 10 * rounds)
    (hforms : ∀ form ∈ forms, form.Fits) (hnumber : number = packed forms) (hwidth : width forms ≤ total)
    (hend : total < width forms + 8) : decodeForms data block bits rounds = .ret (some forms) := by
  induction forms generalizing total number data block bits rounds with
  | nil =>
    cases rounds with
    | zero => omega
    | succ rounds =>
      rcases decodeForms_round h rounds with ⟨-, r, hr, -, hdone⟩ | ⟨form, hform, hmod, -⟩
      · rw [hr, hdone hnumber hend]
      · exfalso
        have hpos := hform.bitCount_pos
        rw [hnumber, packed, zero_mod] at hmod
        unfold Form.number at hmod
        omega
  | cons form forms ih =>
    cases rounds with
    | zero => omega
    | succ rounds =>
      have hform := hforms form (by simp)
      rw [width_cons] at hwidth hend
      have hmod : number % 2 ^ form.width = form.number := by
        rw [hnumber, packed, add_mul_mod_self_left, mod_eq_of_lt hform.number_lt]
      have hdiv : number / 2 ^ form.width = packed forms := by
        rw [hnumber, packed, add_mul_div_left _ _ (Nat.two_pow_pos _), div_eq_of_lt hform.number_lt,
          Nat.zero_add]
      rcases decodeForms_round h rounds with ⟨hcount, -⟩ | ⟨form', hform', hmod', -, hlong⟩
      · exfalso
        have hpos := hform.bitCount_pos
        have hcount' : form.number / 32 % 32 = number / 32 % 32 := by
          rw [← hmod, show form.width = 5 + (5 + form.prefixLen) by unfold Form.width; omega, Nat.pow_add,
            mod_mul_right_div_self, Nat.pow_add, mod_mul_right_mod]
        have hlt := hform.bitCount_lt
        have hlen := hform.prefixLen_lt
        unfold Form.number at hcount'
        omega
      · obtain rfl := Form.eq_of_mod hform hform' hmod hmod'
        obtain ⟨data', block', bits', h', heq⟩ := hlong (by omega)
        have hten : 10 ≤ form.width := by
          unfold Form.width
          omega
        rw [heq, ih h' (by omega) (fun f hf => hforms f (by simp [hf])) hdiv (by omega) (by omega)]
        rfl

omit h

theorem ahead_start (data : List UInt8) : Ahead (8 * data.length) (value data) data 0 0 :=
  ⟨by simp, by omega, by decide, by decide⟩

theorem eq_append_zeros {xs ys} (hlen : xs.length ≤ ys.length) (h : value ys = value xs) :
    ys = xs ++ List.replicate (ys.length - xs.length) 0 := by
  apply value_inj
  · rw [length_append, length_replicate, Nat.add_sub_cancel' hlen]
  · rw [value_append, value_replicate, Nat.mul_zero, Nat.add_zero, h]

/-- **The wire format.** What is written of a scheme is read as that scheme; and what is read is nothing, or a
sane scheme whose serialization is the string but for zero bytes at its end. -/
theorem wire_format (paranoia : Bool) :
    (∀ scheme : Scheme, ∃ out, serialize paranoia scheme.forms = .ret out ∧
      deserialize out = .ret (some scheme.forms)) ∧
    ∀ data, ∃ r, deserialize data = .ret r ∧ ∀ forms, r = some forms →
      isSane forms = true ∧ ∃ out k, serialize paranoia forms = .ret out ∧ data = out ++ List.replicate k 0 := by
  refine ⟨?_, ?_⟩
  · intro scheme
    have hforms : ∀ form ∈ scheme.forms, form.Fits := fun _ h => Scheme.fits_of_mem h
    obtain ⟨out, hout, hvalue, hle, hlt⟩ := @serialize_eq _ paranoia scheme.sane hforms
    refine ⟨out, hout, ?_⟩
    unfold deserialize
    rw [decodeForms_complete (ahead_start out) (by omega) hforms hvalue hle hlt, ret_bind,
      Option.filter_some_pos scheme.sane]
  · intro data
    obtain ⟨r, hr⟩ := decodeForms_returns (ahead_start data) (show 8 * data.length < 10 * (data.length + 1) by omega)
    refine ⟨r.filter isSane, by unfold deserialize; rw [hr, ret_bind], ?_⟩
    intro forms hforms
    obtain ⟨rfl, hsane⟩ := Option.filter_eq_some_iff.mp hforms
    obtain ⟨hnumber, hwidth, hfits⟩ := decodeForms_sound (ahead_start data) hr
    obtain ⟨out, hout, hvalue, -, hlt⟩ := @serialize_eq _ paranoia hsane hfits
    exact ⟨hsane, out, _, hout, eq_append_zeros (by omega) (hnumber.trans hvalue.symm)⟩

end Hyperboria.EncodingScheme
