/-
`switch/EncodingScheme.c`: the ways a switch can write the number of an interface at
the low end of a label, and the conversion of a label's first director to another of
them. The model is of any scheme.
-/
import Hyperboria.Bits
import Hyperboria.Switch.NumberCompress

namespace Hyperboria.EncodingScheme

open Nat BitVec

open Bits (log2x64 maxBits64)
open NumberCompress (toNat_and_mask)

structure Form where
  bitCount : Nat
  prefixLen : Nat
  prefixBits : BitVec 32
deriving DecidableEq

/-- `NumberCompress_v3x5x8_defineScheme`. -/
def v3x5x8 : List Form :=
  [{ bitCount := 3, prefixLen := 1, prefixBits := 1#32 },
   { bitCount := 5, prefixLen := 2, prefixBits := 2#32 },
   { bitCount := 8, prefixLen := 2, prefixBits := 0#32 }]

def is358 (scheme : List Form) : Bool := scheme = v3x5x8

def formSize (form : Form) : Nat := form.bitCount + form.prefixLen

/-- `EncodingScheme_convertLabel_INVALID`. -/
def INVALID : BitVec 64 := BitVec.allOnes 64

/-- `EncodingScheme_convertLabel_convertTo_CANNONICAL`. -/
def CANNONICAL : Int := -5000

/-- The loop of `EncodingScheme_getFormNum`, from form `i` on. -/
def formNumFrom (routeLabel : BitVec 64) (i : Nat) : List Form → Er (Option Nat)
  | [] => .ret none
  | form :: forms => do
    .assertTrue (0 < form.prefixLen && form.prefixLen < 32) "form->prefixLen > 0 && form->prefixLen < 32"
    .assertTrue (0 < form.bitCount && form.bitCount < 32) "form->bitCount > 0 && form->bitCount < 32"
    if (form.prefixBits ^^^ routeLabel.setWidth 32) <<< (32 - form.prefixLen) = 0 then .ret (some i)
    else formNumFrom routeLabel (i + 1) forms

/-- `EncodingScheme_getFormNum`; `none` is `EncodingScheme_getFormNum_INVALID`. -/
def getFormNum (scheme : List Form) (routeLabel : BitVec 64) : Er (Option Nat) :=
  if scheme.length = 1 then .ret (some 0) else formNumFrom routeLabel 0 scheme

/-- Whether the low bits of a label, as many as the form has, are those of the self director. -/
def startsWithSelf (form : Form) (label : BitVec 64) : Er Bool := do
  let mask ← maxBits64 (formSize form)
  .ret (label &&& mask = 1#64)

/-- `(form->prefix & Bits_maxBits64(form->prefixLen)) == 1`. -/
def hasPrefixOne (form : Form) : Er Bool := do
  let mask ← maxBits64 form.prefixLen
  .ret (form.prefixBits.setWidth 64 &&& mask = 1#64)

/-- 0 and 1 change places. -/
def swapSelf (director : BitVec 64) : BitVec 64 :=
  if director = 1#64 then 0#64 else if director = 0#64 then 1#64 else director

/-- The number a director of this form stands for. -/
def decode (scheme : List Form) (form : Form) (director : BitVec 64) : Er (BitVec 64) :=
  -- don't pull this bug-workaround crap for sane encodings schemes
  if !is358 scheme then .ret director
  else do
    let one ← hasPrefixOne form
    if one then .ret (swapSelf director)
    else .ret (if director = 0#64 then director else director + 1#64)

/-- The director of this form for a number. -/
def encode (scheme : List Form) (form : Form) (director : BitVec 64) : Er (BitVec 64) :=
  if !is358 scheme then .ret director
  else do
    let one ← hasPrefixOne form
    if one then .ret (swapSelf director)
    else .ret (if director = 0#64 then director else director - 1#64)

/-- The loop that looks for the first form that can hold a director, from form `i` on. -/
def cannonicalFrom (director : BitVec 64) (i : Nat) : List Form → Er (Option Nat)
  | [] => .ret none
  | form :: forms => do
    let minBitsA := log2x64 director + 1
    let minBitsB := log2x64 (if director = 0#64 then director else director - 1#64) + 1
    let one ← hasPrefixOne form
    if form.bitCount ≥ (if one then minBitsA else minBitsB) then .ret (some i)
    else cannonicalFrom director (i + 1) forms

/-- The form a label is to be converted to. -/
def targetForm (scheme : List Form) (director : BitVec 64) (convertTo : Int) : Er (Option Form) :=
  if convertTo = CANNONICAL then do
    let i ← cannonicalFrom director 0 scheme
    .ret (i.bind fun i => scheme[i]?)
  -- convertTo value is insane
  else if convertTo < 0 then .ret none
  else .ret scheme[convertTo.toNat]?

/-- The label with a director of this form in front of the rest of the path. -/
def prepend (form : Form) (director routeLabel : BitVec 64) : Er (BitVec 64) :=
  -- won't fit in requested form
  if log2x64 director + 1 > form.bitCount then .ret INVALID
  else if log2x64 routeLabel + formSize form > 59 then .ret INVALID
  else do
    let label := ((((routeLabel <<< form.bitCount) ||| director) <<< form.prefixLen) ||| form.prefixBits.setWidth 64)
    let self ← startsWithSelf form label
    -- looks like a self-route
    if self then .ret INVALID else .ret label

/-- `EncodingScheme_convertLabel`, of a label whose first director is of the form `currentForm`. -/
def convertFrom (scheme : List Form) (currentForm : Form) (routeLabel : BitVec 64) (convertTo : Int) :
    Er (BitVec 64) := do
  let mask ← maxBits64 currentForm.bitCount
  let director ← decode scheme currentForm ((routeLabel >>> currentForm.prefixLen) &&& mask)
  let target ← targetForm scheme director convertTo
  match target with
  | none => .ret INVALID
  | some nextForm => do
    let director ← encode scheme nextForm director
    prepend nextForm director (routeLabel >>> currentForm.prefixLen >>> currentForm.bitCount)

def convertLabel (scheme : List Form) (routeLabel : BitVec 64) (convertTo : Int) : Er (BitVec 64) := do
  let formNum ← getFormNum scheme routeLabel
  match formNum.bind fun i => scheme[i]? with
  | none => .ret INVALID
  | some currentForm => do
    let easy ← if scheme.length = 1 then .ret true else startsWithSelf currentForm routeLabel
    -- fixed width encoding or it's a self label, this is easy
    if easy then .ret (if convertTo = 0 ∨ convertTo = CANNONICAL then routeLabel else INVALID)
    else convertFrom scheme currentForm routeLabel convertTo

def isSelfRoute (scheme : List Form) (routeLabel : BitVec 64) : Er Bool := do
  let formNum ← getFormNum scheme routeLabel
  match formNum.bind fun i => scheme[i]? with
  | none => .ret false
  | some currentForm => startsWithSelf currentForm routeLabel

def isOneHop (scheme : List Form) (routeLabel : BitVec 64) : Er Bool := do
  let fn ← getFormNum scheme routeLabel
  match fn.bind fun i => scheme[i]? with
  | none => .ret false
  | some form => .ret (log2x64 routeLabel = formSize form)

/-- What `EncodingScheme_isSane` asks of form `i` of a scheme with several forms. -/
def isSaneForm (scheme : List Form) (form : Form) (i : Nat) : Bool :=
  -- prefix must exist in order to distinguish between forms
  form.prefixLen ≠ 0 && form.prefixLen ≤ 31 &&
  form.bitCount ≠ 0 && form.bitCount ≤ 31 &&
  -- cannot be represented in the usable space in a label
  formSize form ≤ 59 &&
  -- forms must be in ascending order
  (i = 0 || (scheme[i - 1]?).all fun before => before.bitCount < form.bitCount) &&
  -- forms must be distinguishable by their prefixes
  scheme.zipIdx.all fun (other, j) => j = i || other.prefixBits.toNat % 2 ^ form.prefixLen ≠ form.prefixBits.toNat

def isSane (scheme : List Form) : Bool :=
  if scheme.length = 0 then false
  else if scheme.length > 31 then false
  else if scheme.length = 1 then
    -- fixed width encoding, prefix is not allowed and bitcount must be non-zero
    scheme.all fun form => form.prefixLen = 0 && form.prefixBits = 0 && form.bitCount ≠ 0 && form.bitCount ≤ 31
  else scheme.zipIdx.all fun (form, i) => isSaneForm scheme form i

/-- `encodeForm`: the block with the form in it from bit `bits` on, and how many bits it takes. -/
def encodeForm (form : Form) (block : BitVec 64) (bits : Nat) : Er (BitVec 64 × Nat) := do
  let five ← maxBits64 5
  let block := block ||| ((BitVec.ofNat 64 form.prefixLen &&& five) <<< bits)
  let block := block ||| ((BitVec.ofNat 64 form.bitCount &&& five) <<< (bits + 5))
  let mask ← maxBits64 form.prefixLen
  let block := block ||| ((form.prefixBits.setWidth 64 &&& mask) <<< (bits + 5 + 5))
  .ret (block, 5 + 5 + form.prefixLen)

/-- The loop of `EncodingScheme_serialize` that moves bytes out of the block, `rounds` at most; the string
has room for `len`. -/
def drain (len : Nat) (out : List UInt8) (block : BitVec 64) (bits : Nat) : Nat → Er (List UInt8 × BitVec 64 × Nat)
  | 0 => .spin
  | rounds + 1 =>
    if bits > 8 then do
      .assertTrue (out.length < len) "outIndex < (int)out->len"
      drain len (out ++ [UInt8.ofNat (block &&& 0xff#64).toNat]) (block >>> 8) (bits - 8) rounds
    else .ret (out, block, bits)

/-- The forms, one after the other. -/
def encodeForms (len : Nat) (out : List UInt8) (block : BitVec 64) (bits : Nat) :
    List Form → Er (List UInt8 × BitVec 64 × Nat)
  | [] => .ret (out, block, bits)
  | form :: forms => do
    let (block, used) ← encodeForm form block bits
    let (out, block, bits) ← drain len out block (bits + used) (bits + used)
    encodeForms len out block bits forms

def serialize (paranoia : Bool) (list : List Form) : Er (List UInt8) := do
  .assertTrue (!paranoia || isSane list) "EncodingScheme_isSane(list)"
  -- the largest that is possible for the list size
  let len := list.length * 6
  let (out, block, bits) ← encodeForms len [] 0 0 list
  if bits > 0 then do
    .assertTrue (out.length < len) "the string is too short"
    .ret (out ++ [UInt8.ofNat (block &&& 0xff#64).toNat])
  else .ret out

/-- `decodeForm`: the form and how many bits it took; `none` is the answer 0. -/
def decodeForm (d : BitVec 64) : Option (Form × Nat) :=
  let prefixLen := d.toNat % 32
  let bitCount := d.toNat / 32 % 32
  if bitCount < 1 then none
  else
    some ({ bitCount, prefixLen, prefixBits := BitVec.ofNat 32 (d.toNat / 1024 % 2 ^ prefixLen) }, 5 + 5 + prefixLen)

/-- The loop that loads data into the block; what is left of the data, and the block and its bits. -/
def loadBlock (data : List UInt8) (block : BitVec 64) (bits : Nat) : List UInt8 × BitVec 64 × Nat :=
  match data with
  | [] => ([], block, bits)
  | byte :: rest =>
    if bits < 56 then loadBlock rest (block ||| (BitVec.ofNat 64 byte.toNat <<< bits)) (bits + 8)
    else (byte :: rest, block, bits)

/-- The forms in the data, one in each round. -/
def decodeForms (data : List UInt8) (block : BitVec 64) (bits : Nat) : Nat → Er (Option (List Form))
  | 0 => .spin
  | rounds + 1 =>
    let (data, block, bits) := loadBlock data block bits
    match decodeForm block with
    -- invalid encoding, unless everything has been read
    | none => .ret (if block ≠ 0 ∨ data ≠ [] then none else some [])
    | some (next, ret) =>
      if bits < ret then .ret none
      else do
        .assertTrue (next.prefixBits.toNat / 2 ^ next.prefixLen = 0) "(next.prefix >> next.prefixLen) == 0"
        let forms ← decodeForms data (block >>> ret) (bits - ret) rounds
        .ret (forms.map (next :: ·))

/-- `EncodingScheme_deserialize`. A form takes more than a byte. -/
def deserialize (data : List UInt8) : Er (Option (List Form)) := do
  let forms ← decodeForms data 0 0 (data.length + 1)
  .ret (forms.filter isSane)

/-- A scheme as `EncodingScheme_deserialize` returns it: sane, and no prefix is longer than it says. -/
structure Scheme where
  forms : List Form
  sane : isSane forms = true
  fits : ∀ form ∈ forms, form.prefixBits.toNat < 2 ^ form.prefixLen
deriving DecidableEq

variable {d : BitVec 64} {form : Form}

theorem decodeForm_fits {ret} (h : decodeForm d = some (form, ret)) :
    form.prefixBits.toNat < 2 ^ form.prefixLen := by
  unfold decodeForm at h
  dsimp only at h
  split at h
  · cases h
  · cases h
    exact (mod_le _ _).trans_lt (mod_lt _ (Nat.two_pow_pos _))

theorem decodeForms_fits {data} {block} {bits rounds} {forms}
    (h : decodeForms data block bits rounds = .ret (some forms)) :
    ∀ form ∈ forms, form.prefixBits.toNat < 2 ^ form.prefixLen := by
  induction rounds generalizing data block bits forms with
  | zero => cases h
  | succ rounds ih =>
    unfold decodeForms at h
    dsimp only at h
    split at h
    · split at h
      · cases h
      · cases h
        simp
    next next ret hnext =>
      split at h
      · cases h
      obtain ⟨-, -, rest, hrest, h⟩ := Er.bind_inv2 h
      obtain ⟨more, rfl, rfl⟩ := Option.map_eq_some_iff.mp (Er.ret.inj h)
      intro form hform
      rcases List.mem_cons.mp hform with rfl | hform
      · exact decodeForm_fits hnext
      · exact ih hrest form hform

theorem deserialize_scheme {data} {forms} (h : deserialize data = .ret (some forms)) :
    ∃ scheme : Scheme, scheme.forms = forms := by
  obtain ⟨decoded, hdecoded, h⟩ := Er.bind_inv h
  obtain ⟨rfl, hsane⟩ := Option.filter_eq_some_iff.mp (Er.ret.inj h)
  exact ⟨⟨forms, hsane, decodeForms_fits hdecoded⟩, rfl⟩

example : deserialize [0x61, 0x14, 0x45, 0x81, 0x00] = .ret (some v3x5x8) := by decide +kernel

/-- The scheme every switch of this tree has. -/
def Scheme.v358 : Scheme := ⟨v3x5x8, by decide, by decide⟩

variable {k : Nat}

/-! ## In numbers -/

theorem maxBits64_eq (hk : k < 64) : maxBits64 k = .ret (BitVec.ofNat 64 (2 ^ k - 1)) := by
  rw [maxBits64, Er.assertTrue_bind (decide_eq_true hk)]
  congr 1
  apply eq_of_toNat_eq
  have hpos := Nat.two_pow_pos k
  rw [toNat_sub, toNat_shiftLeft, toNat_ofNat, toNat_ofNat, Nat.shiftLeft_eq]
  omega

theorem matches_iff {p} {k} (hk : k ≤ 32) (l : BitVec 64) :
    (p ^^^ l.setWidth 32) <<< (32 - k) = 0 ↔ p.toNat % 2 ^ k = l.toNat % 2 ^ k := by
  have hdvd : 2 ^ k ∣ 2 ^ 32 := Nat.pow_dvd_pow 2 hk
  have hsplit : 2 ^ 32 = 2 ^ k * 2 ^ (32 - k) := by rw [← Nat.pow_add, Nat.add_sub_cancel' hk]
  rw [← toNat_inj, toNat_shiftLeft, Nat.shiftLeft_eq, toNat_xor, toNat_setWidth,
    show (0 : BitVec 32).toNat = 0 from rfl, hsplit, mul_mod_mul_right, Nat.mul_eq_zero,
    or_iff_left (Nat.two_pow_pos _).ne', xor_mod_two_pow, Nat.xor_eq_zero_iff, ← hsplit,
    mod_mod_of_dvd _ hdvd]

theorem startsWithSelf_eq (hform : formSize form < 64) (l : BitVec 64) :
    startsWithSelf form l = .ret (decide (l.toNat % 2 ^ formSize form = 1)) := by
  have hmask := toNat_and_mask l 0 (formSize form) (by omega)
  rw [Nat.pow_zero, Nat.div_one] at hmask
  rw [startsWithSelf, maxBits64_eq hform, Er.ret_bind, ← hmask]
  congr 2
  rw [← toNat_inj]
  rfl

/-! ## The default scheme -/

/-- The first two forms of the default scheme. -/
def short : Form := { bitCount := 3, prefixLen := 1, prefixBits := 1#32 }
def medium : Form := { bitCount := 5, prefixLen := 2, prefixBits := 2#32 }

theorem log2x64_le {d} {k} : k + 1 ≥ log2x64 d + 1 ↔ d.toNat < 2 ^ (k + 1) := by
  rw [ge_iff_le, Nat.add_le_add_iff_right]
  exact Bits.log2_le_iff

theorem pred_lt_iff (hk : 0 < k) :
    (if d = 0#64 then d else d - 1#64).toNat < k ↔ d.toNat < k + 1 := by
  split
  next h0 =>
    subst h0
    simp only [toNat_ofNat]
    omega
  next h0 =>
    have hne : d.toNat ≠ 0 := fun h => h0 (eq_of_toNat_eq h)
    rw [toNat_sub_of_le (by rw [le_def]; simp; omega)]
    simp only [toNat_ofNat]
    omega

theorem swapSelf_swapSelf (d : BitVec 64) : swapSelf (swapSelf d) = d := by
  unfold swapSelf
  split
  next h1 => simp [h1]
  next h1 =>
    split
    next h0 => simp [h0]
    next h0 => rfl

theorem swapSelf_lt (hk : 2 ≤ k) (h : d.toNat < k) : (swapSelf d).toNat < k := by
  unfold swapSelf
  split
  · simp; omega
  split
  · simp; omega
  · exact h

/-- The bits of a label's first director. -/
def directorOf (form : Form) (l : BitVec 64) : BitVec 64 :=
  (l >>> form.prefixLen) &&& BitVec.ofNat 64 (2 ^ form.bitCount - 1)

theorem directorOf_toNat (h : form.bitCount ≤ 64) (l : BitVec 64) :
    (directorOf form l).toNat = l.toNat / 2 ^ form.prefixLen % 2 ^ form.bitCount :=
  toNat_and_mask l _ _ h

/-- The number of a director of the two wide forms, which have no code for 1. -/
def widen (d : BitVec 64) : BitVec 64 := if d = 0#64 then d else d + 1#64

theorem widen_toNat {d} (h : d.toNat < 256) :
    (widen d).toNat = if d.toNat = 0 then 0 else d.toNat + 1 := by
  unfold widen
  split
  next h0 => simp [h0]
  next h0 =>
    rw [if_neg (show d.toNat ≠ 0 from fun h => h0 (eq_of_toNat_eq h)), toNat_add, toNat_ofNat]
    omega

theorem narrow_widen (h : d.toNat < 256) :
    (if widen d = 0#64 then widen d else widen d - 1#64) = d := by
  have hw := widen_toNat h
  apply eq_of_toNat_eq
  split
  next h0 =>
    rw [h0] at hw ⊢
    simp only [toNat_ofNat] at hw ⊢
    split at hw
    · omega
    · omega
  next h0 =>
    have hne : (widen d).toNat ≠ 0 := fun h => h0 (eq_of_toNat_eq h)
    rw [toNat_sub_of_le (by rw [le_def]; simp; omega), hw]
    rw [hw] at hne
    split at hne
    · exact absurd rfl hne
    · next hd => simp [hd]

end Hyperboria.EncodingScheme
