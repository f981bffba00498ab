/-
`EncodingScheme_parseDirector` and `EncodingScheme_serializeDirector`, the numbers of the
interfaces behind the directors, and what `EncodingScheme_convertLabel` does to them. A
director is put together in an `int`, so a form of more than 32 bits loses the high ones
(`directorCodec_iff`). A conversion keeps the interface and what follows, and can be taken
back (`convert_roundtrip`).
-/
import Hyperboria.Switch.Directors

namespace Hyperboria

open List BitVec

namespace EncodingScheme

open Bits (log2x64 maxBits64)

/-- `EncodingScheme_parseDirector_INVALID`, -1. -/
def parseDirector_INVALID : BitVec 32 := BitVec.allOnes 32

/-- The interface of a slot of form `i`. -/
def dirOfSlot (scheme : List Form) (i : Nat) (dir : BitVec 32) : BitVec 32 :=
  -- use ^1 to flip slots 0 and 1 in variable width schemes
  if !is358 scheme then dir ^^^ (if scheme.length > 1 then 1#32 else 0#32)
  -- slot 0 must always be represented as a 1, so in 358, 0 and 1 are swapped
  else if i > 0 then dir + (if (0#32).slt dir then 1#32 else 0#32)
  else dir + ((if dir = 0#32 then 1#32 else 0#32) - (if dir = 1#32 then 1#32 else 0#32))

/-- The slot of form `i` for an interface. -/
def slotOfDir (scheme : List Form) (i : Nat) (dir : BitVec 32) : BitVec 32 :=
  if !is358 scheme then dir ^^^ (if scheme.length > 1 then 1#32 else 0#32)
  -- slot 1 is only represented in form 0 so in all other forms, it is skipped
  else if i > 0 then dir - (if (0#32).slt dir then 1#32 else 0#32)
  else dir + ((if dir = 0#32 then 1#32 else 0#32) - (if dir = 1#32 then 1#32 else 0#32))

def parseDirector (scheme : List Form) (label : BitVec 64) : Er (BitVec 32) := do
  let formNum ← getFormNum scheme label
  match formNum.bind fun i => scheme[i]?.map fun form => (i, form) with
  | none => .ret parseDirector_INVALID
  | some (i, currentForm) => do
    let mask ← maxBits64 currentForm.bitCount
    .ret (dirOfSlot scheme i (((label >>> currentForm.prefixLen) &&& mask).setWidth 32))

/-- The loops that look for a form that can hold the interface, from form `i` on. -/
def formFrom (is358 : Bool) (dir : BitVec 32) (i : Nat) : List Form → Nat
  | [] => i
  | form :: forms =>
    if (if is358 && i ≠ 0 then dir - 1#32 else dir).sshiftRight form.bitCount = 0#32 then i
    else formFrom is358 dir (i + 1) forms

/-- `EncodingScheme_serializeDirector`. The shift is one of an `int`. -/
def serializeDirector (scheme : List Form) (dir : BitVec 32) (formNum : Int) : BitVec 64 :=
  let i := if formNum < 0 then formFrom (is358 scheme) dir 0 scheme else formNum.toNat
  match scheme[i]? with
  | none => BitVec.allOnes 64
  | some f => ((slotOfDir scheme i dir <<< f.prefixLen) ||| f.prefixBits).setWidth 64

/-- The interface has a slot in form `i`. -/
def Represents (scheme : List Form) (i : Nat) (form : Form) (dir : BitVec 32) : Prop :=
  if is358 scheme ∧ i > 0 then dir ≠ 1#32 ∧ dir.toNat ≤ 2 ^ form.bitCount else dir.toNat < 2 ^ form.bitCount

instance (scheme : List Form) (i : Nat) (form : Form) (dir : BitVec 32) : Decidable (Represents scheme i form dir) := by
  unfold Represents
  infer_instance

/-- Form `i` is the first one that has a slot for the interface. -/
structure Lowest (scheme : List Form) (dir : BitVec 32) (i : Nat) (form : Form) : Prop where
  get : scheme[i]? = some form
  holds : Represents scheme i form dir
  least : ∀ (j : Nat) (g : Form), j < i → scheme[j]? = some g → ¬ Represents scheme j g dir

/-! ## Slots -/

section
variable {scheme : List Form} {form : Form} {i : Nat}

/-- The first director of a label, as `EncodingScheme_parseDirector` takes it. -/
def slot (form : Form) (label : BitVec 64) : BitVec 32 := (directorOf form label).setWidth 32

theorem slot_toNat (h : form.InRange) (label : BitVec 64) : (slot form label).toNat = form.director label.toNat := by
  have hcount := h.bitCount_le
  have hlt : form.director label.toNat < 2 ^ 32 :=
    Form.director_lt.trans_le (Nat.pow_le_pow_right (by decide) (by omega))
  rw [slot, toNat_setWidth, directorOf_toNat (by omega)]
  exact Nat.mod_eq_of_lt hlt

theorem xor_flip {d c : BitVec 32} {k} (hk : 0 < k) (hc : c.toNat ≤ 1) (h : d.toNat < 2 ^ k) :
    (d ^^^ c).toNat < 2 ^ k ∧ d ^^^ c ^^^ c = d := by
  refine ⟨Nat.xor_lt_two_pow h (hc.trans_lt (Nat.one_lt_two_pow hk.ne')), ?_⟩
  rw [xor_assoc, BitVec.xor_self, xor_zero]

theorem flip_le (scheme : List Form) : (if scheme.length > 1 then 1#32 else 0#32).toNat ≤ 1 := by
  split
  · decide
  · decide

theorem two_pow_bitCount_le (h358 : is358 scheme = true) (hi : scheme[i]? = some form) :
    2 ^ form.bitCount ≤ 2 ^ 8 := by
  have hforms : scheme = v3x5x8 := of_decide_eq_true h358
  have hshort : ∀ form ∈ v3x5x8, form.bitCount ≤ 8 := by decide
  exact Nat.pow_le_pow_right (by decide) (hshort form (hforms ▸ mem_of_getElem? hi))

variable {d : BitVec 32}

theorem slt_zero_iff (h : d.toNat < 2 ^ 31) : (0#32).slt d = true ↔ d ≠ 0#32 := by
  have hmsb : d.toInt = d.toNat := toInt_eq_toNat_of_lt (by omega)
  rw [slt_iff_toInt_lt, toInt_zero, ← toNat_inj.ne]
  exact ⟨fun h => by simp; omega, fun h => by simp at h; omega⟩

theorem dirOfSlot_spec (hform : form.InRange) (hi : scheme[i]? = some form) (hd : d.toNat < 2 ^ form.bitCount) :
    Represents scheme i form (dirOfSlot scheme i d) ∧ slotOfDir scheme i (dirOfSlot scheme i d) = d := by
  unfold Represents slotOfDir dirOfSlot
  cases h358 : is358 scheme with
  | false => exact xor_flip hform.bitCount_pos (flip_le scheme) hd
  | true =>
    have hpow := two_pow_bitCount_le h358 hi
    have htwo : 2 ≤ 2 ^ form.bitCount := Nat.le_self_pow hform.bitCount_pos.ne' 2
    simp only [Bool.not_true, Bool.false_eq_true, if_false, true_and]
    by_cases h0 : d = 0#32
    · subst h0
      split
      · exact ⟨⟨by decide, Nat.zero_le _⟩, rfl⟩
      · exact ⟨htwo, rfl⟩
    split
    · have hne : d + 1#32 ≠ 0#32 := by bv_omega
      rw [if_pos ((slt_zero_iff (by omega)).mpr h0), if_pos ((slt_zero_iff (by bv_omega)).mpr hne),
        BitVec.add_sub_cancel]
      exact ⟨⟨by bv_omega, by bv_omega⟩, rfl⟩
    · by_cases h1 : d = 1#32
      · subst h1
        exact ⟨Nat.two_pow_pos _, rfl⟩
      · simpa [h0, h1] using hd

theorem slotOfDir_spec (hform : form.InRange) (hi : scheme[i]? = some form) (hd : Represents scheme i form d) :
    (slotOfDir scheme i d).toNat < 2 ^ form.bitCount ∧ dirOfSlot scheme i (slotOfDir scheme i d) = d := by
  unfold slotOfDir dirOfSlot
  unfold Represents at hd
  cases h358 : is358 scheme with
  | false =>
    rw [h358] at hd
    exact xor_flip hform.bitCount_pos (flip_le scheme) hd
  | true =>
    have hpow := two_pow_bitCount_le h358 hi
    have htwo : 2 ≤ 2 ^ form.bitCount := Nat.le_self_pow hform.bitCount_pos.ne' 2
    simp only [h358, true_and, Bool.not_true, Bool.false_eq_true, if_false] at hd ⊢
    by_cases h0 : d = 0#32
    · subst h0
      split
      · exact ⟨Nat.two_pow_pos _, rfl⟩
      · exact ⟨htwo, rfl⟩
    by_cases hpos : i > 0
    · simp only [if_pos hpos] at hd ⊢
      have := hd.2
      have hne : d - 1#32 ≠ 0#32 := by bv_omega
      rw [if_pos ((slt_zero_iff (by omega)).mpr h0), if_pos ((slt_zero_iff (by bv_omega)).mpr hne),
        BitVec.sub_add_cancel]
      exact ⟨by bv_omega, rfl⟩
    · simp only [if_neg hpos] at hd ⊢
      by_cases h1 : d = 1#32
      · subst h1
        exact ⟨Nat.two_pow_pos _, rfl⟩
      · simpa [h0, h1] using hd

/-! ## Forms -/

theorem getFormNum_some_iff (hsane : isSane scheme = true) {label} :
    getFormNum scheme label = .ret (some i) ↔
      (∃ form, scheme[i]? = some form ∧ form.Matches label) ∧
        ∀ j g, j < i → scheme[j]? = some g → ¬ g.Matches label := by
  rw [getFormNum_matches hsane, Er.ret.injEq, findIdx?_eq_some_iff_getElem]
  constructor
  · rintro ⟨hi, hmatch, hbefore⟩
    refine ⟨⟨_, List.getElem?_eq_getElem hi, of_decide_eq_true hmatch⟩, fun j g hj hg hgm => ?_⟩
    obtain ⟨hlt, rfl⟩ := List.getElem?_eq_some_iff.mp hg
    exact hbefore j hj (decide_eq_true hgm)
  · rintro ⟨⟨form, hform, hmatch⟩, hbefore⟩
    obtain ⟨hi, rfl⟩ := List.getElem?_eq_some_iff.mp hform
    refine ⟨hi, decide_eq_true hmatch, fun j hj hgm => ?_⟩
    exact hbefore j _ hj (List.getElem?_eq_getElem (hj.trans hi)) (of_decide_eq_true hgm)

theorem parseDirector_eq (hsane : isSane scheme = true) {label}
    (hnum : getFormNum scheme label = .ret (some i)) (hi : scheme[i]? = some form) :
    parseDirector scheme label = .ret (dirOfSlot scheme i (slot form label)) := by
  have hcount := (inRange_of_mem hsane (mem_of_getElem? hi)).bitCount_le
  unfold parseDirector
  rw [hnum, Er.ret_bind, Option.bind_some, hi, Option.map_some]
  dsimp only
  rw [maxBits64_eq (by omega)]
  rfl

theorem serializeDirector_eq (hi : scheme[i]? = some form) :
    serializeDirector scheme d i = ((slotOfDir scheme i d <<< form.prefixLen) ||| form.prefixBits).setWidth 64 := by
  have hnat : ¬ (i : Int) < 0 := Int.not_lt.mpr (Int.natCast_nonneg i)
  unfold serializeDirector
  dsimp only
  rw [if_neg hnat, Int.toNat_natCast, hi]

theorem bitCount_lt (hsane : isSane scheme = true) {j} {g} (hj : scheme[j]? = some g)
    (hi : scheme[i]? = some form) (hlt : j < i) : g.bitCount < form.bitCount := by
  obtain ⟨only, rfl, -⟩ | ⟨-, hforms⟩ := isSane_cases hsane
  · have := (List.getElem?_eq_some_iff.mp hi).1
    simp only [length_singleton] at this
    omega
  induction i generalizing form with
  | zero => omega
  | succ i ih =>
    have hform := hforms (i + 1) form hi
    unfold isSaneForm at hform
    simp only [Bool.and_eq_true, Bool.or_eq_true, decide_eq_true_eq, Nat.add_sub_cancel] at hform
    obtain ⟨⟨-, hzero | hbefore⟩, -⟩ := hform
    · omega
    obtain ⟨hlen, -⟩ := List.getElem?_eq_some_iff.mp hi
    have hget : scheme[i]? = some (scheme.get ⟨i, by omega⟩) := List.getElem?_eq_getElem (by omega)
    rw [hget, Option.all_some, decide_eq_true_eq] at hbefore
    rcases Nat.lt_succ_iff_lt_or_eq.mp hlt with hji | rfl
    · exact (ih hget hji).trans hbefore
    · cases hj.symm.trans hget
      exact hbefore

/-! ## The codec -/

/-- An interface is written and read, a director is read and written, and of the forms that have a slot for an
interface the first one is chosen. -/
structure DirectorCodec (scheme : List Form) : Prop where
  parse_serialize : ∀ (i : Nat) (form : Form) (d : BitVec 32), scheme[i]? = some form → Represents scheme i form d →
    parseDirector scheme (serializeDirector scheme d i) = .ret d
  serialize_parse : ∀ (i : Nat) (form : Form) (label : BitVec 64), scheme[i]? = some form →
    getFormNum scheme label = .ret (some i) → ∃ d, parseDirector scheme label = .ret d ∧
      (serializeDirector scheme d i).toNat = label.toNat % 2 ^ formSize form
  smallest : ∀ (d : BitVec 32) (f : Int), f < 0 →
    (∃ (i : Nat) (form : Form), Lowest scheme d i form ∧ serializeDirector scheme d f = serializeDirector scheme d i) ∨
    (∀ (i : Nat) (form : Form), scheme[i]? = some form → ¬ Represents scheme i form d) ∧
      serializeDirector scheme d f = BitVec.allOnes 64

theorem sshiftRight_eq_zero_iff {k} (hk : k ≤ 31) :
    d.sshiftRight k = 0#32 ↔ d.toNat < 2 ^ k := by
  have hpow : 2 ^ k ≤ 2 ^ 31 := Nat.pow_le_pow_right (by decide) hk
  cases hmsb : d.msb with
  | false =>
    rw [sshiftRight_eq_of_msb_false hmsb, ← toNat_inj, toNat_ushiftRight, Nat.shiftRight_eq_div_pow]
    exact Nat.div_eq_zero_iff_lt (Nat.two_pow_pos k)
  | true =>
    have hge := toNat_ge_of_msb_true hmsb
    refine ⟨fun h => ?_, fun h => by omega⟩
    have hsign : (d.sshiftRight k).msb = true := by rw [msb_sshiftRight, hmsb]
    rw [h] at hsign
    cases hsign

theorem formFrom_spec (b : Bool) (d : BitVec 32) (forms : List Form) (k : Nat) :
    ∃ n, formFrom b d k forms = k + n ∧ n ≤ forms.length ∧
      (∀ j g, j < n → forms[j]? = some g →
        (if b && k + j ≠ 0 then d - 1#32 else d).sshiftRight g.bitCount ≠ 0#32) ∧
      ∀ form, forms[n]? = some form → (if b && k + n ≠ 0 then d - 1#32 else d).sshiftRight form.bitCount = 0#32 := by
  induction forms generalizing k with
  | nil => exact ⟨0, rfl, le_rfl, fun j g hj => absurd hj (Nat.not_lt_zero j), fun form h => nomatch h⟩
  | cons form forms ih =>
    unfold formFrom
    by_cases hfits : (if b && k ≠ 0 then d - 1#32 else d).sshiftRight form.bitCount = 0#32
    · rw [if_pos hfits]
      refine ⟨0, rfl, Nat.zero_le _, fun j g hj => absurd hj (Nat.not_lt_zero j), fun f hf => ?_⟩
      cases hf
      exact hfits
    · rw [if_neg hfits]
      obtain ⟨n, heq, hlen, hbefore, hat⟩ := ih (k + 1)
      refine ⟨n + 1, by rw [heq]; omega, Nat.succ_le_succ hlen, fun j g hj hg => ?_, fun f hf => ?_⟩
      · cases j with
        | zero =>
          cases hg
          exact hfits
        | succ j =>
          have := hbefore j g (Nat.lt_of_succ_lt_succ hj) hg
          rwa [Nat.add_right_comm, Nat.add_assoc] at this
      · have := hat f hf
        rwa [Nat.add_right_comm, Nat.add_assoc] at this

/-- Where interface 0 and 1 are not at issue, the loop asks whether there is a slot. -/
theorem fits_iff_represents (hform : form.InRange) (hd : is358 scheme = true → 0 < i → 2 ≤ d.toNat) :
    (if is358 scheme && i ≠ 0 then d - 1#32 else d).sshiftRight form.bitCount = 0#32 ↔ Represents scheme i form d := by
  rw [sshiftRight_eq_zero_iff hform.bitCount_le]
  unfold Represents
  by_cases hcase : is358 scheme = true ∧ i > 0
  · have htwo := hd hcase.1 hcase.2
    have hne : d ≠ 1#32 := by bv_omega
    have hcond : (is358 scheme && decide (i ≠ 0)) = true := by
      rw [hcase.1, Bool.true_and, decide_eq_true hcase.2.ne']
    rw [if_pos hcase, if_pos hcond]
    constructor
    · intro h
      exact ⟨hne, by bv_omega⟩
    · intro h
      bv_omega
  · have hcond : ¬ (is358 scheme && decide (i ≠ 0)) = true := by
      rw [Bool.and_eq_true, decide_eq_true_eq]
      exact fun h => hcase ⟨h.1, Nat.pos_of_ne_zero h.2⟩
    rw [if_neg hcase, if_neg hcond]

theorem represents_zero (h358 : is358 scheme = true) (hd : d.toNat < 2) :
    ∃ form, scheme[0]? = some form ∧ Represents scheme 0 form d := by
  have hforms : scheme = v3x5x8 := of_decide_eq_true h358
  refine ⟨short, by rw [hforms]; rfl, ?_⟩
  unfold Represents
  rw [if_neg (fun h => Nat.lt_irrefl 0 h.2)]
  exact hd.trans_le (by decide)

theorem serializeDirector_smallest (hsane : isSane scheme = true) (d : BitVec 32) {f} (hf : f < 0) :
    (∃ (i : Nat) (form : Form), Lowest scheme d i form ∧ serializeDirector scheme d f = serializeDirector scheme d i) ∨
    (∀ i form, scheme[i]? = some form → ¬ Represents scheme i form d) ∧
      serializeDirector scheme d f = BitVec.allOnes 64 := by
  have hrange : ∀ {i} {form : Form}, scheme[i]? = some form → form.InRange := fun hi =>
    inRange_of_mem hsane (mem_of_getElem? hi)
  obtain ⟨n, hn, hlen, hbefore, hat⟩ := formFrom_spec (is358 scheme) d scheme 0
  simp only [Nat.zero_add] at hn hbefore hat
  have hser : serializeDirector scheme d f = serializeDirector scheme d n := by
    have hnat : ¬ (n : Int) < 0 := Int.not_lt.mpr (Int.natCast_nonneg n)
    unfold serializeDirector
    rw [if_pos hf, if_neg hnat, Int.toNat_natCast, hn]
  by_cases hsmall : is358 scheme = true ∧ d.toNat < 2
  · -- the first form is taken
    obtain ⟨form, hzero, hrep⟩ := represents_zero hsmall.1 hsmall.2
    have hn0 : n = 0 := by
      by_contra hne
      exact hbefore 0 form (Nat.pos_of_ne_zero hne) hzero
        ((fits_iff_represents (hrange hzero) fun _ h => absurd h (Nat.lt_irrefl 0)).mpr hrep)
    subst hn0
    exact .inl ⟨0, form, ⟨hzero, hrep, fun j g hj => absurd hj (Nat.not_lt_zero j)⟩, hser⟩
  have hiff : ∀ {i} {form}, scheme[i]? = some form → ((if is358 scheme && i ≠ 0 then d - 1#32 else d).sshiftRight
      form.bitCount = 0#32 ↔ Represents scheme i form d) := fun hi =>
    fits_iff_represents (hrange hi) fun h358 _ => Nat.le_of_not_lt fun hlt => hsmall ⟨h358, hlt⟩
  rcases Nat.lt_or_eq_of_le hlen with hlt | rfl
  · have hget := List.getElem?_eq_getElem hlt
    exact .inl ⟨n, _, ⟨hget, (hiff hget).mp (hat _ hget), fun j g hj hg hrep => hbefore j g hj hg ((hiff hg).mpr hrep)⟩, hser⟩
  · refine .inr ⟨fun i form hi hrep => ?_, ?_⟩
    · exact hbefore i form (List.getElem?_eq_some_iff.mp hi).1 hi ((hiff hi).mpr hrep)
    · rw [hser]
      unfold serializeDirector
      dsimp only
      rw [if_neg (Int.not_lt.mpr (Int.natCast_nonneg _)), Int.toNat_natCast, List.getElem?_eq_none le_rfl]

theorem toNat_serialize (hfits : form.prefixBits.toNat < 2 ^ form.prefixLen) (hsize : formSize form ≤ 32)
    (hd : d.toNat < 2 ^ form.bitCount) :
    (((d <<< form.prefixLen) ||| form.prefixBits).setWidth 64).toNat = form.write d.toNat 0 := by
  have hlt : d.toNat * 2 ^ form.prefixLen < 2 ^ 32 := by
    calc d.toNat * 2 ^ form.prefixLen < 2 ^ form.bitCount * 2 ^ form.prefixLen :=
          Nat.mul_lt_mul_of_pos_right hd (Nat.two_pow_pos _)
      _ = 2 ^ formSize form := (Nat.pow_add ..).symm
      _ ≤ 2 ^ 32 := Nat.pow_le_pow_right (by decide) hsize
  have hor : ((d <<< form.prefixLen) ||| form.prefixBits).toNat = d.toNat * 2 ^ form.prefixLen + form.prefixBits.toNat := by
    rw [toNat_or, toNat_shiftLeft, Nat.shiftLeft_eq, Nat.mod_eq_of_lt hlt, Nat.mul_comm,
      Nat.two_pow_add_eq_or_of_lt hfits]
  rw [toNat_setWidth_of_le (by decide), hor, Form.write, Nat.zero_mul, Nat.zero_add]

theorem Form.write_director_zero {x} (h : form.Reads x) : form.write (form.director x) 0 = x % 2 ^ formSize form := by
  unfold Form.write Form.director formSize
  rw [← h, Nat.zero_mul, Nat.zero_add, Nat.add_comm form.bitCount, Nat.pow_add, Nat.mod_mul, Nat.mul_comm, Nat.add_comm]

theorem Scheme.directorCodec {S : Scheme} (hsize : ∀ form ∈ S.forms, formSize form ≤ 32) : DirectorCodec S.forms := by
  have hrange : ∀ {i} {form : Form}, S.forms[i]? = some form → form.InRange := fun hi =>
    inRange_of_mem S.sane (Scheme.mem_of_get hi)
  refine ⟨fun i form d hi hd => ?_, fun i form label hi hnum => ?_, fun d f hf => serializeDirector_smallest S.sane d hf⟩
  · have hfits := S.fits form (Scheme.mem_of_get hi)
    obtain ⟨hslot, hdir⟩ := slotOfDir_spec (hrange hi) hi hd
    have hwrite := toNat_serialize hfits (hsize form (Scheme.mem_of_get hi)) hslot
    rw [serializeDirector_eq hi]
    rw [parseDirector_eq S.sane (Scheme.getFormNum_eq_some_iff.mpr ⟨form, hi, hwrite ▸ Form.reads_write hfits⟩) hi]
    have hread : slot form (((slotOfDir S.forms i d <<< form.prefixLen) ||| form.prefixBits).setWidth 64) =
        slotOfDir S.forms i d := by
      apply eq_of_toNat_eq
      rw [slot_toNat (hrange hi), hwrite, Form.director_write hfits hslot]
    rw [hread, hdir]
  · obtain ⟨g, hg, hreads⟩ := Scheme.getFormNum_eq_some_iff.mp hnum
    cases hi.symm.trans hg
    have hslot : (slot form label).toNat < 2 ^ form.bitCount := by
      rw [slot_toNat (hrange hi)]
      exact Form.director_lt
    refine ⟨_, parseDirector_eq S.sane hnum hi, ?_⟩
    rw [serializeDirector_eq hi, (dirOfSlot_spec (hrange hi) hi hslot).2,
      toNat_serialize (S.fits form (Scheme.mem_of_get hi)) (hsize form (Scheme.mem_of_get hi)) hslot,
      slot_toNat (hrange hi), Form.write_director_zero hreads]

/-! ### A scheme with a form that is too long -/

theorem matches_serialize (hform : form.InRange) (d : BitVec 32) :
    form.Matches (((d <<< form.prefixLen) ||| form.prefixBits).setWidth 64) := by
  have hlen := hform.prefixLen_le
  have hdvd : 2 ^ form.prefixLen ∣ 2 ^ 32 := Nat.pow_dvd_pow 2 (by omega)
  rw [Form.matches_iff (by omega), toNat_setWidth_of_le (by decide), toNat_or, toNat_shiftLeft,
    Nat.shiftLeft_eq, Nat.or_mod_two_pow, Nat.mod_mod_of_dvd _ hdvd,
    Nat.mul_mod_left, Nat.zero_or]

theorem dirOfSlot_inj (h358 : is358 scheme = false) {j} {c d}
    (h : dirOfSlot scheme j c = dirOfSlot scheme i d) : c = d := by
  unfold dirOfSlot at h
  rw [h358] at h
  exact (xor_left_inj _).mp h

/-- If the highest slot of a form is written and read, then in that form. -/
theorem highest_slot (hsane : isSane scheme = true) (h358 : is358 scheme = false) (hi : scheme[i]? = some form)
    (hd : (slotOfDir scheme i d).toNat = 2 ^ form.bitCount - 1) (hrep : Represents scheme i form d)
    (hparse : parseDirector scheme (serializeDirector scheme d i) = .ret d) :
    getFormNum scheme (serializeDirector scheme d i) = .ret (some i) ∧
      slot form (serializeDirector scheme d i) = slotOfDir scheme i d := by
  have hform := inRange_of_mem hsane (mem_of_getElem? hi)
  have hmatch : form.Matches (serializeDirector scheme d i) := by
    rw [serializeDirector_eq hi]
    exact matches_serialize hform _
  -- some form is found, none later than this one
  have hsome : (scheme.findIdx? fun form => form.Matches (serializeDirector scheme d i)).isSome := by
    rw [findIdx?_isSome, any_eq_true]
    exact ⟨form, mem_of_getElem? hi, decide_eq_true hmatch⟩
  obtain ⟨j, hj⟩ := Option.isSome_iff_exists.mp hsome
  have hnum : getFormNum scheme (serializeDirector scheme d i) = .ret (some j) := by rw [getFormNum_matches hsane, hj]
  obtain ⟨⟨g, hg, hgm⟩, hbefore⟩ := (getFormNum_some_iff hsane).mp hnum
  have hle : j ≤ i := Nat.le_of_not_lt fun hlt => hbefore i form hlt hi hmatch
  have hslot : slot g (serializeDirector scheme d i) = slotOfDir scheme i d := by
    rw [parseDirector_eq hsane hnum hg] at hparse
    exact dirOfSlot_inj h358 ((Er.ret.inj hparse).trans (slotOfDir_spec hform hi hrep).2.symm)
  -- an earlier one has no slot so high
  have hji : j = i := by
    by_contra hne
    have hcount := bitCount_lt hsane hg hi (by omega)
    have hlt : (slot g (serializeDirector scheme d i)).toNat < 2 ^ g.bitCount := by
      rw [slot_toNat (inRange_of_mem hsane (mem_of_getElem? hg))]
      exact Form.director_lt
    have hpow : 2 ^ (g.bitCount + 1) ≤ 2 ^ form.bitCount := Nat.pow_le_pow_right (by decide) hcount
    rw [hslot] at hlt
    omega
  subst hji
  cases hi.symm.trans hg
  exact ⟨hnum, hslot⟩

theorem size_le_of_highest_slot (hform : form.InRange) (hd : d.toNat = 2 ^ form.bitCount - 1)
    (hslot : slot form (((d <<< form.prefixLen) ||| form.prefixBits).setWidth 64) = d) : formSize form ≤ 32 := by
  by_contra hsize
  have hlen := hform.prefixLen_le
  have hpos := hform.bitCount_pos
  have hlt := BitVec.isLt ((d <<< form.prefixLen) ||| form.prefixBits)
  have hdir := slot_toNat hform (((d <<< form.prefixLen) ||| form.prefixBits).setWidth 64)
  rw [hslot, toNat_setWidth_of_le (by decide), Form.director] at hdir
  have hdiv : ((d <<< form.prefixLen) ||| form.prefixBits).toNat / 2 ^ form.prefixLen < 2 ^ (32 - form.prefixLen) := by
    rw [Nat.div_lt_iff_lt_mul (Nat.two_pow_pos _), ← Nat.pow_add, Nat.sub_add_cancel (by omega)]
    exact hlt
  have hle := Nat.mod_le (((d <<< form.prefixLen) ||| form.prefixBits).toNat / 2 ^ form.prefixLen) (2 ^ form.bitCount)
  have hpow : 2 ^ (32 - form.prefixLen) ≤ 2 ^ (form.bitCount - 1) :=
    Nat.pow_le_pow_right (by decide) (by unfold formSize at hsize; omega)
  have htwo : 2 ^ form.bitCount = 2 ^ (form.bitCount - 1) * 2 := (Nat.pow_pred_mul hpos).symm
  omega

/-- The bits of a prefix are there whether or not the slot has them. -/
theorem or_prefix_of_clear (d : BitVec 32) :
    ((d &&& ~~~(form.prefixBits >>> form.prefixLen)) <<< form.prefixLen) ||| form.prefixBits =
      (d <<< form.prefixLen) ||| form.prefixBits := by
  apply eq_of_getLsbD_eq
  intro k hk
  simp only [getLsbD_or, getLsbD_shiftLeft, getLsbD_and, getLsbD_not,
    getLsbD_ushiftRight]
  by_cases hlt : k < form.prefixLen
  · simp [hlt]
  · rw [Nat.add_sub_cancel' (by omega)]
    cases form.prefixBits.getLsbD k with
    | true => simp
    | false =>
      have : k - form.prefixLen < 32 := by omega
      simp [this]

/-- So if all slots of a form are written and read, the form is short enough and the prefix no longer than it says. -/
theorem DirectorCodec.fits (h : DirectorCodec scheme) (hsane : isSane scheme = true) (h358 : is358 scheme = false)
    (hi : scheme[i]? = some form) : form.prefixBits.toNat < 2 ^ form.prefixLen ∧ formSize form ≤ 32 := by
  have hform := inRange_of_mem hsane (mem_of_getElem? hi)
  have hpow : 2 ^ form.bitCount ≤ 2 ^ 31 := Nat.pow_le_pow_right (by decide) hform.bitCount_le
  have hpos := Nat.two_pow_pos form.bitCount
  obtain ⟨ones, hones⟩ : ∃ ones : BitVec 32, ones.toNat = 2 ^ form.bitCount - 1 :=
    ⟨BitVec.ofNat 32 (2 ^ form.bitCount - 1), by rw [toNat_ofNat, Nat.mod_eq_of_lt (by omega)]⟩
  have hcode : ∀ {c : BitVec 32}, c.toNat < 2 ^ form.bitCount →
      parseDirector scheme (((c <<< form.prefixLen) ||| form.prefixBits).setWidth 64) = .ret (dirOfSlot scheme i c) := by
    intro c hc
    obtain ⟨hrep, hsame⟩ := dirOfSlot_spec hform hi hc
    have := h.parse_serialize i form _ hi hrep
    rwa [serializeDirector_eq hi, hsame] at this
  have hhigh : ones.toNat < 2 ^ form.bitCount := by omega
  obtain ⟨hrep, hsame⟩ := dirOfSlot_spec hform hi hhigh
  have hser : serializeDirector scheme (dirOfSlot scheme i ones) i =
      ((ones <<< form.prefixLen) ||| form.prefixBits).setWidth 64 := by
    rw [serializeDirector_eq hi, hsame]
  obtain ⟨hnum, hslot⟩ := highest_slot hsane h358 hi (by rw [hsame, hones]) hrep (hser ▸ hcode hhigh)
  rw [hser] at hnum
  rw [hser, hsame] at hslot
  refine ⟨?_, size_le_of_highest_slot hform hones hslot⟩
  -- the slot without the bits of the prefix is read as the highest slot
  have hclear : (form.prefixBits.toNat / 2 ^ form.prefixLen) % 2 ^ form.bitCount = 0 := by
    have hle : (ones &&& ~~~(form.prefixBits >>> form.prefixLen)).toNat ≤ ones.toNat := by
      exact Nat.and_le_left
    have hread := hcode (hle.trans_lt hhigh)
    rw [or_prefix_of_clear, hcode hhigh] at hread
    have hsame := dirOfSlot_inj h358 (Er.ret.inj hread)
    have hzero : ones &&& (form.prefixBits >>> form.prefixLen) = 0#32 := by
      conv_lhs => rw [hsame]
      rw [BitVec.and_assoc, BitVec.and_comm (~~~_), BitVec.and_not_self]
      exact and_zero
    have := congrArg BitVec.toNat hzero
    rwa [toNat_and, hones, Nat.and_comm, Nat.and_two_pow_sub_one_eq_mod, toNat_ushiftRight,
      Nat.shiftRight_eq_div_pow] at this
  obtain ⟨d, hd, hlow⟩ := h.serialize_parse i form _ hi hnum
  rw [hcode hhigh] at hd
  rw [← Er.ret.inj hd, hser, toNat_setWidth_of_le (by decide), toNat_or] at hlow
  have hlt : form.prefixBits.toNat < 2 ^ form.prefixLen * 2 ^ form.bitCount := by
    rw [← Nat.pow_add, Nat.add_comm]
    calc form.prefixBits.toNat ≤ (ones <<< form.prefixLen).toNat ||| form.prefixBits.toNat := Nat.right_le_or
      _ < 2 ^ formSize form := by
        rw [hlow]
        exact Nat.mod_lt _ (Nat.two_pow_pos _)
  rw [Nat.mod_eq_of_lt (Nat.div_lt_of_lt_mul hlt)] at hclear
  exact (Nat.div_eq_zero_iff_lt (Nat.two_pow_pos _)).mp hclear

end

/-- Directors are written and read as they should be under the schemes whose prefixes are no longer than they say and
whose forms are no longer than 32 bits, and under no other. -/
theorem directorCodec_iff (scheme : List Form) (hsane : isSane scheme = true) :
    DirectorCodec scheme ↔
      ∀ form ∈ scheme, form.prefixBits.toNat < 2 ^ form.prefixLen ∧ form.bitCount + form.prefixLen ≤ 32 := by
  constructor
  · intro h form hform
    obtain ⟨i, hi⟩ := mem_iff_getElem?.mp hform
    cases h358 : is358 scheme with
    | false => exact h.fits hsane h358 hi
    | true =>
      have hforms : scheme = v3x5x8 := of_decide_eq_true h358
      have hall : ∀ form ∈ v3x5x8, form.prefixBits.toNat < 2 ^ form.prefixLen ∧ form.bitCount + form.prefixLen ≤ 32 := by
        decide
      exact hall form (hforms ▸ hform)
  · intro h
    exact Scheme.directorCodec (S := ⟨scheme, hsane, fun form hform => (h form hform).1⟩) fun form hform => (h form hform).2

theorem directorCodec_v3x5x8 : DirectorCodec v3x5x8 :=
  (directorCodec_iff v3x5x8 (by decide)).mpr (by decide)

/-- Interface 2 has slot 3 of the two bit form, and the high bit of that slot is lost. -/
theorem long_form_loses_interface :
    let scheme : List Form := [⟨2, 31, 0⟩, ⟨3, 1, 1⟩]
    isSane scheme = true ∧ (∀ form ∈ scheme, form.prefixBits.toNat < 2 ^ form.prefixLen) ∧
      Represents scheme 0 ⟨2, 31, 0⟩ 2 ∧ parseDirector scheme (serializeDirector scheme 2 0) = .ret 0 ∧
      ¬ DirectorCodec scheme := by
  refine ⟨by decide, by decide, by decide, by decide, fun h => ?_⟩
  exact absurd (h.parse_serialize 0 ⟨2, 31, 0⟩ 2 rfl (by decide)) (by decide)

/-! ## Conversion -/

namespace Scheme

variable {S : Scheme} {form next : Form} {i j : Nat} {x label L : BitVec 64}

/-- The interface of a number of the scheme. -/
def interface (S : Scheme) (n : BitVec 64) : BitVec 32 :=
  if is358 S.forms then n.setWidth 32 else n.setWidth 32 ^^^ (if S.forms.length > 1 then 1#32 else 0#32)

theorem one_iff (h358 : is358 S.forms = true) (hi : S.forms[i]? = some form) : form.one = decide (i = 0) := by
  have hforms : S.forms = v3x5x8 := of_decide_eq_true h358
  rw [hforms] at hi
  match i with
  | 0 => exact Option.some.inj hi ▸ rfl
  | 1 => exact Option.some.inj hi ▸ rfl
  | 2 => exact Option.some.inj hi ▸ rfl
  | i + 3 => cases hi

theorem setWidth_swapSelf {d} (hd : d.toNat < 2 ^ 8) :
    (swapSelf d).setWidth 32 = d.setWidth 32 +
      ((if d.setWidth 32 = 0#32 then 1#32 else 0#32) - (if d.setWidth 32 = 1#32 then 1#32 else 0#32)) := by
  unfold swapSelf
  by_cases h1 : d = 1#64
  · subst h1
    rfl
  by_cases h0 : d = 0#64
  · subst h0
    rfl
  have hne0 : d.setWidth 32 ≠ 0#32 := by bv_omega
  have hne1 : d.setWidth 32 ≠ 1#32 := by bv_omega
  simp [h0, h1, hne0, hne1]

theorem setWidth_widen {d} (hd : d.toNat < 2 ^ 8) :
    (widen d).setWidth 32 = d.setWidth 32 + (if (0#32).slt (d.setWidth 32) then 1#32 else 0#32) := by
  have hsmall : (d.setWidth 32).toNat < 2 ^ 31 := by bv_omega
  unfold widen
  by_cases h0 : d = 0#64
  · subst h0
    rfl
  · have hne0 : d.setWidth 32 ≠ 0#32 := by bv_omega
    rw [if_neg h0, if_pos ((slt_zero_iff hsmall).mpr hne0)]
    bv_omega

/-- What `EncodingScheme_parseDirector` answers is told by the number that `EncodingScheme_convertLabel` works with. -/
theorem dirOfSlot_eq_interface (hi : S.forms[i]? = some form) (x : BitVec 64) :
    dirOfSlot S.forms i (slot form x) = S.interface (S.number form x) := by
  unfold dirOfSlot interface number dec
  cases h358 : is358 S.forms with
  | false => rfl
  | true =>
    have hpow := two_pow_bitCount_le h358 hi
    have hd : (directorOf form x).toNat < 2 ^ 8 := by
      rw [directorOf_eq (bounds (mem_of_get hi))]
      exact Form.director_lt.trans_le hpow
    simp only [Bool.not_true, Bool.false_eq_true, if_true]
    rw [one_iff h358 hi]
    by_cases hzero : i = 0
    · subst hzero
      rw [decide_eq_true rfl, if_pos rfl, setWidth_swapSelf hd]
      rfl
    · rw [if_pos (Nat.pos_of_ne_zero hzero), decide_eq_false hzero, if_neg Bool.false_ne_true, setWidth_widen hd]
      rfl

theorem parseDirector_number (hi : S.forms[i]? = some form) (hreads : form.Reads x.toNat) :
    parseDirector S.forms x = .ret (S.interface (S.number form x)) := by
  rw [parseDirector_eq S.sane (getFormNum_eq_some_iff.mpr ⟨form, hi, hreads⟩) hi, dirOfSlot_eq_interface hi]

theorem target_natCast {n} (j : Nat) : S.target n j = S.forms[j]? := by
  unfold target CANNONICAL
  rw [if_neg (by omega), if_neg (by omega), Int.toNat_natCast]

/-- A conversion that succeeds is to the form that was asked for, keeps the interface and what follows, and the
conversion back gives the label. -/
theorem convert_roundtrip (hlog : log2x64 label ≤ 59) (hi : S.forms[i]? = some form)
    (hnum : getFormNum S.forms label = .ret (some i)) (hself : isSelfRoute S.forms label = .ret false)
    (hj : S.forms[j]? = some next) (hL : convertLabel S.forms label j = .ret L) (hne : L ≠ INVALID) :
    getFormNum S.forms L = .ret (some j) ∧
      (∃ d, parseDirector S.forms label = .ret d ∧ parseDirector S.forms L = .ret d) ∧
      L >>> formSize next = label >>> formSize form ∧ convertLabel S.forms L i = .ret label := by
  obtain ⟨g, hg, hreads⟩ := getFormNum_eq_some_iff.mp hnum
  cases hi.symm.trans hg
  have hform := mem_of_get hi
  have hnoself : ¬ S.SelfRoute label := by
    rcases isSelfRoute_eq label with ⟨htrue, -⟩ | ⟨-, hno⟩
    · rw [htrue] at hself
      cases hself
    · exact hno
  rw [convertLabel_eq] at hL
  obtain ⟨g, hg, hgreads, ⟨heasy, hto, rfl⟩ | ⟨hmany, hxself, next', htarget, hd, hwrite, hyself⟩⟩ :=
    convert_cases (Er.ret.inj hL) hne
  · obtain rfl := reads_unique' hg hform hgreads hreads
    have hone : S.forms.length = 1 := heasy.resolve_right fun h => hnoself ⟨g, hform, hreads, h⟩
    have hizero : i = 0 := by
      have := (List.getElem?_eq_some_iff.mp hi).1
      omega
    have hjzero : j = 0 := by
      have := (List.getElem?_eq_some_iff.mp hj).1
      omega
    subst hizero hjzero
    cases hi.symm.trans hj
    refine ⟨hnum, ⟨_, parseDirector_number hi hreads, parseDirector_number hi hreads⟩, rfl, ?_⟩
    rw [convertLabel_eq, hL]
  · obtain rfl := reads_unique' hg hform hgreads hreads
    rw [target_natCast, hj] at htarget
    cases htarget
    have hnext := mem_of_get hj
    have hLreads : next.Reads L.toNat := hwrite ▸ Form.reads_write (bounds hnext).fits
    have hnumber := number_write hnext (number_ne_one hform hreads hxself) hd hwrite
    have hrest : L.toNat / 2 ^ formSize next = label.toNat / 2 ^ formSize g := by
      rw [hwrite, Form.rest_write (bounds hnext).fits hd]
    refine ⟨getFormNum_eq_some_iff.mpr ⟨next, hj, hLreads⟩, ⟨_, parseDirector_number hi hreads, ?_⟩, ?_, ?_⟩
    · rw [parseDirector_number hj hLreads, hnumber]
    · apply eq_of_toNat_eq
      rw [toNat_ushiftRight, toNat_ushiftRight, Nat.shiftRight_eq_div_pow, Nat.shiftRight_eq_div_pow, hrest]
    · have hrest' : L >>> next.prefixLen >>> next.bitCount = label >>> g.prefixLen >>> g.bitCount :=
        eq_of_toNat_eq (by rw [rest_toNat, rest_toNat, hrest])
      rw [convertLabel_eq, convert, find_reads hnext hLreads]
      dsimp only
      rw [if_neg (not_or.mpr ⟨hmany, hyself⟩), target_natCast, hi]
      dsimp only
      rw [hnumber, hrest', prepended_self hform hreads hlog hxself]

/-- Interface 3 in the first form of the 3/5/8 scheme, and in the second. -/
theorem convert_roundtrip_v358 :
    convertLabel v358.forms 0x17 1 = .ret 0x8a ∧
      getFormNum v358.forms 0x8a = .ret (some 1) ∧
      (∃ d, parseDirector v358.forms 0x17 = .ret d ∧ parseDirector v358.forms 0x8a = .ret d) ∧
      (0x8a : BitVec 64) >>> formSize medium = (0x17 : BitVec 64) >>> formSize short ∧
      convertLabel v358.forms 0x8a 0 = .ret 0x17 :=
  ⟨by decide, convert_roundtrip (S := v358) (i := 0) (j := 1) (by decide) rfl (by decide) (by decide) rfl (by decide)
    (by decide)⟩

end Scheme

end EncodingScheme

end Hyperboria
