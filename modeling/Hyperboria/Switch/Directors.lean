/-
Labels under any sane scheme. A form is told by its prefix, and no label has the prefixes
of two forms (`Scheme.reads_unique`); so a path can be read director by director. The
conversion of a director leaves its number as it is: two directors in their canonical
form that become the same one were the same (`codes_inj`).

Paths are numbers here. `join` puts a path behind another one.
-/
import Hyperboria.Switch.EncodingScheme
import Hyperboria.Switch.LabelSplicer

namespace Hyperboria

open Er List Nat

namespace LabelSplicer

open Bits (log2x64)

/-- The path `go` from the end of the path `via` on. -/
def join (go via : Nat) : Nat := 2 ^ via.log2 * go + via % 2 ^ via.log2

variable {a b c go via : Nat}

theorem join_one : join go 1 = go := by
  unfold join
  rw [show Nat.log2 1 = 0 from rfl, Nat.pow_zero, Nat.one_mul, Nat.add_zero]

theorem one_join (h : 0 < via) : join 1 via = via := by
  have hlow := log2_self_le h.ne'
  have hhigh : via < 2 ^ via.log2 * 2 := lt_log2_self
  unfold join
  rw [mod_eq_sub_mod hlow, mod_eq_of_lt (by omega)]
  omega

theorem join_div : join go via / 2 ^ via.log2 = go := by
  unfold join
  rw [Nat.mul_add_div (Nat.two_pow_pos _), Nat.div_eq_of_lt (Nat.mod_lt _ (Nat.two_pow_pos _)), Nat.add_zero]

theorem join_mod : join go via % 2 ^ via.log2 = via % 2 ^ via.log2 := by
  unfold join
  rw [mul_add_mod, mod_mod]

theorem log2_join (hgo : 0 < go) : (join go via).log2 = go.log2 + via.log2 := by
  have hlow := Nat.log2_self_le hgo.ne'
  have hhigh : go + 1 ≤ 2 ^ (go.log2 + 1) := Nat.lt_log2_self
  have hle : 2 ^ (go.log2 + via.log2) ≤ join go via := by
    rw [Nat.add_comm, Nat.pow_add]
    exact (Nat.mul_le_mul_left _ hlow).trans (Nat.le_add_right _ _)
  have hlt : join go via < 2 ^ (go.log2 + via.log2 + 1) := by
    calc join go via < 2 ^ via.log2 * (go + 1) := by unfold join; rw [Nat.mul_succ]; omega
      _ ≤ 2 ^ via.log2 * 2 ^ (go.log2 + 1) := Nat.mul_le_mul_left _ hhigh
      _ = 2 ^ (go.log2 + via.log2 + 1) := by rw [← Nat.pow_add]; congr 1; omega
  exact (Nat.log2_eq_iff (by have := Nat.two_pow_pos (go.log2 + via.log2); omega)).mpr ⟨hle, hlt⟩

theorem join_pos (hgo : 0 < go) : 0 < join go via :=
  (Nat.mul_pos (Nat.two_pow_pos _) hgo).trans_le (Nat.le_add_right _ _)

theorem le_join (hgo : 0 < go) (hvia : 0 < via) : via ≤ join go via := by
  conv_lhs => rw [← one_join hvia]
  exact Nat.add_le_add_right (Nat.mul_le_mul_left _ hgo) _

theorem join_assoc (hb : 0 < b) : join a (join b c) = join (join a b) c := by
  have hmod : join b c % (2 ^ c.log2 * 2 ^ b.log2) = 2 ^ c.log2 * (b % 2 ^ b.log2) + c % 2 ^ c.log2 := by
    rw [mod_mul, join_mod, join_div, add_comm]
  unfold join at hmod ⊢
  rw [show (2 ^ c.log2 * b + c % 2 ^ c.log2).log2 = b.log2 + c.log2 from log2_join hb, add_comm b.log2,
    pow_add, hmod, mul_add, ← mul_assoc, ← add_assoc]

theorem splice_eq_join {go via} (hvia : via ≠ 0) (hlen : log2x64 go + log2x64 via ≤ 59) :
    (splice go via).toNat = join go.toNat via.toNat := splice_toNat hvia hlen

theorem unsplice_toNat (fullPath midPath : BitVec 64) :
    (unsplice fullPath midPath).toNat = fullPath.toNat / 2 ^ midPath.toNat.log2 := by
  rw [unsplice, BitVec.toNat_ushiftRight, shiftRight_eq_div_pow]
  rfl

/-- A path goes through another one if its bits are those of the other up to the mark at the end. -/
theorem routesThrough_iff {destination midPath : BitVec 64} (hmid : 2 ≤ midPath.toNat) :
    routesThrough destination midPath = true ↔
      midPath.toNat ≤ destination.toNat ∧
        destination.toNat % 2 ^ midPath.toNat.log2 = midPath.toNat % 2 ^ midPath.toNat.log2 := by
  have hlog : log2x64 midPath ≤ 64 := by
    have := @Bits.log2_le_iff midPath.toNat 63
    unfold log2x64
    omega
  have htwo : ¬ midPath < 2#64 := fun h => absurd (BitVec.lt_def.mp h) (not_lt.mpr hmid)
  unfold routesThrough
  by_cases hle : midPath.toNat ≤ destination.toNat
  · rw [if_neg (fun h => absurd (BitVec.lt_def.mp h) (by omega)), if_neg htwo]
    simp only [decide_eq_true_eq, hle, true_and]
    rw [← BitVec.toNat_inj, BitVec.toNat_and, BitVec.toNat_and, mask_toNat hlog, and_two_pow_sub_one_eq_mod,
      and_two_pow_sub_one_eq_mod]
    rfl
  · rw [if_pos (BitVec.lt_def.mpr (by omega))]
    simp [hle]

end LabelSplicer

namespace EncodingScheme

open Bits (log2x64 maxBits64)

/-! ## Forms -/

/-- The label begins with the prefix of the form. -/
def Form.Reads (form : Form) (x : Nat) : Prop := x % 2 ^ form.prefixLen = form.prefixBits.toNat

instance (form : Form) (x : Nat) : Decidable (form.Reads x) := inferInstanceAs (Decidable (_ = _))

/-- The director of the form in a label. -/
def Form.director (form : Form) (x : Nat) : Nat := x / 2 ^ form.prefixLen % 2 ^ form.bitCount

/-- The label with this director of the form in front of the rest of the path. -/
def Form.write (form : Form) (director rest : Nat) : Nat :=
  (rest * 2 ^ form.bitCount + director) * 2 ^ form.prefixLen + form.prefixBits.toNat

section
variable {form : Form} {x d rest : Nat}

theorem Form.write_director_rest (h : form.Reads x) : form.write (form.director x) (x / 2 ^ formSize form) = x := by
  unfold Form.write Form.director formSize
  rw [← h, Nat.add_comm form.bitCount, Nat.pow_add, ← Nat.div_div_eq_div_mul, Nat.mul_comm _ (2 ^ form.bitCount),
    Nat.div_add_mod, Nat.mul_comm, Nat.div_add_mod]

variable (hfits : form.prefixBits.toNat < 2 ^ form.prefixLen)
include hfits

theorem Form.reads_write : form.Reads (form.write d rest) := by
  unfold Form.Reads Form.write
  rw [mul_add_mod_self_right, mod_eq_of_lt hfits]

theorem Form.write_div :
    form.write d rest / 2 ^ form.prefixLen = rest * 2 ^ form.bitCount + d := by
  unfold Form.write
  rw [Nat.mul_comm, Nat.mul_add_div (Nat.two_pow_pos _), Nat.div_eq_of_lt hfits, Nat.add_zero]

theorem Form.director_write (hd : d < 2 ^ form.bitCount) :
    form.director (form.write d rest) = d := by
  unfold Form.director
  rw [Form.write_div hfits, mul_add_mod_self_right, mod_eq_of_lt hd]

theorem Form.rest_write (hd : d < 2 ^ form.bitCount) :
    form.write d rest / 2 ^ formSize form = rest := by
  rw [formSize, Nat.add_comm, Nat.pow_add, ← Nat.div_div_eq_div_mul, Form.write_div hfits, Nat.mul_comm,
    Nat.mul_add_div (Nat.two_pow_pos _), Nat.div_eq_of_lt hd, Nat.add_zero]

omit hfits

theorem Form.director_lt : form.director x < 2 ^ form.bitCount := Nat.mod_lt _ (Nat.two_pow_pos _)

end

/-- What `getFormNum` asks of a form. -/
def Form.Matches (form : Form) (label : BitVec 64) : Prop :=
  (form.prefixBits ^^^ label.setWidth 32) <<< (32 - form.prefixLen) = 0

instance (form : Form) (label : BitVec 64) : Decidable (form.Matches label) := inferInstanceAs (Decidable (_ = _))

theorem Form.matches_iff {form : Form} {label} (hlen : form.prefixLen ≤ 32) :
    form.Matches label ↔ form.prefixBits.toNat % 2 ^ form.prefixLen = label.toNat % 2 ^ form.prefixLen :=
  EncodingScheme.matches_iff hlen label

section
variable {scheme : List Form} {form : Form}

theorem isSane_cases (h : isSane scheme = true) :
    (∃ form, scheme = [form] ∧ form.prefixLen = 0 ∧ form.prefixBits = 0 ∧ 0 < form.bitCount ∧ form.bitCount ≤ 31) ∨
    (scheme.length ≠ 1 ∧ ∀ i form, scheme[i]? = some form → isSaneForm scheme form i = true) := by
  unfold isSane at h
  split at h
  · cases h
  split at h
  · cases h
  split at h
  next hone =>
    left
    obtain ⟨form, rfl⟩ := length_eq_one_iff.mp hone
    simp only [all_cons, all_nil, Bool.and_true, Bool.and_eq_true, decide_eq_true_eq] at h
    exact ⟨form, rfl, h.1.1.1, h.1.1.2, pos_of_ne_zero h.1.2, h.2⟩
  next hone =>
    right
    refine ⟨hone, fun i form hform => ?_⟩
    rw [all_eq_true] at h
    exact h (form, i) (mem_zipIdx_iff_getElem?.mpr hform)

/-- What `EncodingScheme_isSane` asks of the numbers of each form. -/
structure Form.InRange (form : Form) : Prop where
  bitCount_pos : 0 < form.bitCount
  bitCount_le : form.bitCount ≤ 31
  prefixLen_le : form.prefixLen ≤ 31
  size_le : formSize form ≤ 59

theorem inRange_of_isSaneForm {i} (h : isSaneForm scheme form i = true) : 0 < form.prefixLen ∧ form.InRange := by
  unfold isSaneForm at h
  simp only [Bool.and_eq_true, decide_eq_true_eq] at h
  obtain ⟨⟨⟨⟨⟨⟨hpos, hlen⟩, hcount⟩, hle⟩, hsize⟩, -⟩, -⟩ := h
  exact ⟨pos_of_ne_zero hpos, pos_of_ne_zero hcount, hle, hlen, hsize⟩

theorem inRange_of_mem (hsane : isSane scheme = true) (h : form ∈ scheme) : form.InRange := by
  rcases isSane_cases hsane with ⟨only, rfl, hlen, -, hpos, hle⟩ | ⟨-, hforms⟩
  · obtain rfl := mem_singleton.mp h
    exact ⟨hpos, hle, by omega, by unfold formSize; omega⟩
  · obtain ⟨i, hi⟩ := mem_iff_getElem?.mp h
    exact (inRange_of_isSaneForm (hforms i form hi)).2

theorem formNumFrom_matches {label} (hrange : ∀ form ∈ scheme, 0 < form.prefixLen ∧ form.InRange) (i : Nat) :
    formNumFrom label i scheme = .ret ((scheme.findIdx? fun form => form.Matches label).map (· + i)) := by
  induction scheme generalizing i with
  | nil => rfl
  | cons form scheme ih =>
    obtain ⟨hpos, hform⟩ := hrange form mem_cons_self
    have hprefix : (decide (0 < form.prefixLen) && decide (form.prefixLen < 32)) = true := by
      rw [decide_eq_true hpos, decide_eq_true (lt_succ_of_le hform.prefixLen_le), Bool.and_self]
    have hbits : (decide (0 < form.bitCount) && decide (form.bitCount < 32)) = true := by
      rw [decide_eq_true hform.bitCount_pos, decide_eq_true (lt_succ_of_le hform.bitCount_le), Bool.and_self]
    rw [formNumFrom, assertTrue_bind hprefix, assertTrue_bind hbits, findIdx?_cons]
    by_cases hzero : (form.prefixBits ^^^ label.setWidth 32) <<< (32 - form.prefixLen) = 0
    · have hmatch : form.Matches label := hzero
      rw [if_pos hzero, decide_eq_true hmatch, if_pos rfl, Option.map_some, zero_add]
    · have hmatch : ¬ form.Matches label := hzero
      rw [if_neg hzero, decide_eq_false hmatch, if_neg Bool.false_ne_true,
        ih fun f hf => hrange f (mem_cons_of_mem _ hf)]
      congr 1
      rw [Option.map_map]
      congr 1
      funext k
      exact (add_right_comm k 1 i).symm

theorem getFormNum_matches (hsane : isSane scheme = true) (label : BitVec 64) :
    getFormNum scheme label = .ret (scheme.findIdx? fun form => form.Matches label) := by
  unfold getFormNum
  rcases isSane_cases hsane with ⟨only, rfl, hlen, -⟩ | ⟨hone, hforms⟩
  · have hmatch : only.Matches label := (Form.matches_iff (by omega)).mpr (by rw [hlen, pow_zero, mod_one, mod_one])
    rw [if_pos length_singleton, findIdx?_cons, decide_eq_true hmatch, if_pos rfl]
  · rw [if_neg hone, formNumFrom_matches]
    · simp only [add_zero, Option.map_id_fun', id_eq]
    · intro form hform
      obtain ⟨i, hi⟩ := mem_iff_getElem?.mp hform
      exact inRange_of_isSaneForm (hforms i form hi)

theorem findIdx?_congr {p q} (h : ∀ form ∈ scheme, p form = q form) :
    scheme.findIdx? p = scheme.findIdx? q := by
  induction scheme with
  | nil => rfl
  | cons form scheme ih =>
    rw [findIdx?_cons, findIdx?_cons, h form mem_cons_self,
      ih fun f hf => h f (mem_cons_of_mem _ hf)]

end

namespace Scheme

variable (S : Scheme)

theorem sane_cases :
    (∃ form, S.forms = [form] ∧ form.prefixLen = 0 ∧ form.prefixBits = 0 ∧ 0 < form.bitCount ∧ form.bitCount ≤ 31) ∨
    (S.forms.length ≠ 1 ∧ ∀ i form, S.forms[i]? = some form → isSaneForm S.forms form i = true) :=
  isSane_cases S.sane

/-- What is asked of a form. -/
structure Bounds (form : Form) : Prop where
  bitCount_pos : 0 < form.bitCount
  bitCount_le : form.bitCount ≤ 31
  prefixLen_le : form.prefixLen ≤ 31
  size_le : formSize form ≤ 59
  fits : form.prefixBits.toNat < 2 ^ form.prefixLen

variable {S}

variable {form : Form}

theorem bounds (h : form ∈ S.forms) : Bounds form := by
  obtain ⟨hpos, hle, hlen, hsize⟩ := inRange_of_mem S.sane h
  exact ⟨hpos, hle, hlen, hsize, S.fits form h⟩

theorem Bounds.inRange (h : Bounds form) : form.InRange :=
  ⟨h.bitCount_pos, h.bitCount_le, h.prefixLen_le, h.size_le⟩

theorem Bounds.size_pos (h : Bounds form) : 0 < formSize form := by
  have := h.bitCount_pos
  unfold formSize
  omega

variable {i : Nat}

theorem mem_of_get (h : S.forms[i]? = some form) : form ∈ S.forms := mem_of_getElem? h

variable {x : Nat}

theorem reads_unique {j} {f g} (hi : S.forms[i]? = some f) (hj : S.forms[j]? = some g) (hf : f.Reads x)
    (hg : g.Reads x) : i = j := by
  rcases S.sane_cases with ⟨only, hforms, -⟩ | ⟨-, hsane⟩
  · rw [hforms] at hi hj
    have hi' := (List.getElem?_eq_some_iff.mp hi).1
    have hj' := (List.getElem?_eq_some_iff.mp hj).1
    simp only [length_singleton] at hi' hj'
    omega
  -- the shorter of the two prefixes is the beginning of the longer one
  have key : ∀ {i j : Nat} {f g}, S.forms[i]? = some f → S.forms[j]? = some g → f.Reads x → g.Reads x →
      f.prefixLen ≤ g.prefixLen → i = j := by
    intro i j f g hi hj hf hg hle
    by_contra hne
    have hform := hsane i f hi
    unfold isSaneForm at hform
    rw [Bool.and_eq_true, all_eq_true] at hform
    have := hform.2 (g, j) (mem_zipIdx_iff_getElem?.mpr hj)
    simp only [Bool.or_eq_true, decide_eq_true_eq] at this
    rcases this with rfl | hother
    · exact hne rfl
    · refine hother ?_
      rw [← hg, mod_mod_of_dvd _ (pow_dvd_pow 2 hle)]
      exact hf
  rcases le_total f.prefixLen g.prefixLen with hle | hle
  · exact key hi hj hf hg hle
  · exact (key hj hi hg hf hle).symm

theorem form_unique {j : Nat} {f g} (hi : S.forms[i]? = some f) (hj : S.forms[j]? = some g) (hf : f.Reads x)
    (hg : g.Reads x) : f = g := by
  obtain rfl := reads_unique hi hj hf hg
  exact Option.some.inj (hi.symm.trans hj)

variable (S)

/-- The number of the form a label begins with. -/
def formNum (x : Nat) : Option Nat := S.forms.findIdx? fun form => form.Reads x

variable {S}

theorem formNum_eq_some_iff : S.formNum x = some i ↔ ∃ form, S.forms[i]? = some form ∧ form.Reads x := by
  unfold formNum
  constructor
  · intro h
    obtain ⟨hi, hreads, -⟩ := findIdx?_eq_some_iff_getElem.mp h
    exact ⟨_, getElem?_eq_getElem hi, of_decide_eq_true hreads⟩
  · intro h
    obtain ⟨form, hi, hreads⟩ := h
    have hany : (S.forms.any fun form => decide (form.Reads x)) = true :=
      any_eq_true.mpr ⟨form, mem_of_get hi, decide_eq_true hreads⟩
    obtain ⟨j, hj⟩ := Option.isSome_iff_exists.mp (findIdx?_isSome.trans hany)
    obtain ⟨hjlt, hjreads, -⟩ := findIdx?_eq_some_iff_getElem.mp hj
    rw [hj, reads_unique (getElem?_eq_getElem hjlt) hi (of_decide_eq_true hjreads) hreads]

theorem getFormNum_eq (x : BitVec 64) : getFormNum S.forms x = .ret (S.formNum x.toNat) := by
  rw [getFormNum_matches S.sane]
  congr 1
  refine findIdx?_congr fun form hform => decide_eq_decide.mpr ?_
  have hb := bounds hform
  rw [Form.matches_iff (by have := hb.prefixLen_le; omega), mod_eq_of_lt hb.fits]
  exact eq_comm

theorem getFormNum_eq_some_iff {x} :
    getFormNum S.forms x = .ret (some i) ↔ ∃ form, S.forms[i]? = some form ∧ form.Reads x.toNat := by
  rw [getFormNum_eq, ← formNum_eq_some_iff, Er.ret.injEq]

end Scheme

/-! ## Numbers -/

/-- The prefix of the form is 1. -/
def Form.one (form : Form) : Bool := form.prefixBits.toNat = 1

theorem hasPrefixOne_inRange {form} (h : form.InRange) :
    hasPrefixOne form = .ret (decide (form.prefixBits.toNat % 2 ^ form.prefixLen = 1)) := by
  have hlen := h.prefixLen_le
  have hmask : (2 ^ form.prefixLen - 1) % 2 ^ 64 = 2 ^ form.prefixLen - 1 :=
    Nat.mod_eq_of_lt ((Nat.sub_le _ _).trans_lt (Nat.pow_lt_pow_right (by omega) (by omega)))
  have hpre : form.prefixBits.toNat % 2 ^ 64 = form.prefixBits.toNat := mod_eq_of_lt (by have := form.prefixBits.isLt; omega)
  rw [hasPrefixOne, maxBits64_eq (by omega), ret_bind]
  congr 2
  rw [← BitVec.toNat_inj, BitVec.toNat_and, BitVec.toNat_setWidth, BitVec.toNat_ofNat, hmask, hpre,
    and_two_pow_sub_one_eq_mod]
  rfl

theorem hasPrefixOne_eq {form} (h : Scheme.Bounds form) : hasPrefixOne form = .ret form.one := by
  rw [hasPrefixOne_inRange h.inRange, mod_eq_of_lt h.fits]
  rfl

/-- The number one below, for the forms that have no code for 1. -/
def narrow (n : BitVec 64) : BitVec 64 := if n = 0#64 then n else n - 1#64

/-- What the search for the canonical form asks of a form. -/
def roomy (n : BitVec 64) (form : Form) : Bool :=
  form.bitCount ≥ if form.prefixBits.toNat % 2 ^ form.prefixLen = 1 then log2x64 n + 1 else log2x64 (narrow n) + 1

theorem cannonicalFrom_inRange (n : BitVec 64) (forms : List Form) (hrange : ∀ form ∈ forms, form.InRange) (i : Nat) :
    cannonicalFrom n i forms = .ret ((forms.findIdx? (roomy n)).map (· + i)) := by
  induction forms generalizing i with
  | nil => rfl
  | cons form forms ih =>
    rw [cannonicalFrom, hasPrefixOne_inRange (hrange form mem_cons_self), ret_bind, findIdx?_cons, ← narrow]
    simp only [decide_eq_true_eq]
    by_cases hroomy : roomy n form = true
    · rw [if_pos (of_decide_eq_true hroomy), if_pos hroomy, Option.map_some, zero_add]
    · rw [if_neg (fun h => hroomy (decide_eq_true h)), if_neg hroomy,
        ih fun f hf => hrange f (mem_cons_of_mem _ hf)]
      congr 1
      rw [Option.map_map]
      congr 1
      funext k
      exact (add_right_comm k 1 i).symm

theorem widen_narrow {n} (h : n ≠ 1#64) : widen (narrow n) = n := by
  unfold widen narrow
  by_cases h0 : n = 0#64
  · simp [h0]
  · have hne : n - 1#64 ≠ 0#64 := fun heq => h (by rw [← BitVec.sub_add_cancel n 1#64, heq, BitVec.zero_add])
    rw [if_neg h0, if_neg hne, BitVec.sub_add_cancel]

theorem widen_ne_one (d : BitVec 64) : widen d ≠ 1#64 := by
  unfold widen
  split
  next h0 =>
    rw [h0]
    decide
  next h0 =>
    intro h
    exact h0 (by simpa using h)

namespace Scheme

variable (S : Scheme)

/-- The number a director of this form stands for. -/
def dec (form : Form) (d : BitVec 64) : BitVec 64 :=
  if is358 S.forms then if form.one then swapSelf d else widen d else d

/-- The director of this form for a number. -/
def enc (form : Form) (n : BitVec 64) : BitVec 64 :=
  if is358 S.forms then if form.one then swapSelf n else narrow n else n

variable {S} {form : Form}

theorem decode_eq (h : Bounds form) (d : BitVec 64) : decode S.forms form d = .ret (S.dec form d) := by
  unfold decode dec
  rw [hasPrefixOne_eq h]
  cases is358 S.forms with
  | false => rfl
  | true =>
    cases form.one with
    | false => rfl
    | true => rfl

theorem encode_eq (h : Bounds form) (n : BitVec 64) : encode S.forms form n = .ret (S.enc form n) := by
  unfold encode enc
  rw [hasPrefixOne_eq h]
  cases is358 S.forms with
  | false => rfl
  | true =>
    cases form.one with
    | false => rfl
    | true => rfl

variable {n : BitVec 64}

theorem dec_enc (h : is358 S.forms = true → n ≠ 1#64) : S.dec form (S.enc form n) = n := by
  unfold dec enc
  cases h358 : is358 S.forms with
  | false => rfl
  | true =>
    cases form.one with
    | false => exact widen_narrow (h h358)
    | true => exact swapSelf_swapSelf n

variable {d : BitVec 64}

theorem enc_dec (hform : form ∈ S.forms) (hd : d.toNat < 2 ^ form.bitCount) :
    S.enc form (S.dec form d) = d := by
  unfold dec enc
  cases h358 : is358 S.forms with
  | false => rfl
  | true =>
    have hforms : S.forms = v3x5x8 := of_decide_eq_true h358
    cases hone : form.one with
    | true => exact swapSelf_swapSelf d
    | false =>
      have hshort : ∀ form ∈ v3x5x8, form.bitCount ≤ 8 := by decide
      have hbits : form.bitCount ≤ 8 := hshort form (hforms ▸ hform)
      exact narrow_widen (hd.trans_le (Nat.pow_le_pow_right (by omega) hbits))

variable (S)

/-- The number the first director of a label stands for, if the label is of this form. -/
def number (form : Form) (x : BitVec 64) : BitVec 64 := S.dec form (directorOf form x)

/-- The form can hold the number. -/
def holds (form : Form) (n : BitVec 64) : Bool :=
  form.bitCount ≥ if form.one then log2x64 n + 1 else log2x64 (narrow n) + 1

/-- The form a number is to be written in. -/
def target (n : BitVec 64) (convertTo : Int) : Option Form :=
  if convertTo = CANNONICAL then S.forms.find? fun form => holds form n
  else if convertTo < 0 then none
  else S.forms[convertTo.toNat]?

variable {S}

theorem roomy_eq_holds (h : Bounds form) : roomy n form = holds form n := by
  unfold roomy holds Form.one
  rw [mod_eq_of_lt h.fits]
  simp [decide_eq_true_eq]

theorem cannonicalFrom_eq (n : BitVec 64) (forms : List Form) (hbounds : ∀ form ∈ forms, Bounds form) :
    cannonicalFrom n 0 forms = .ret (forms.findIdx? fun form => holds form n) := by
  rw [cannonicalFrom_inRange n forms fun form hform => (hbounds form hform).inRange]
  simp only [add_zero, Option.map_id_fun']
  congr 1
  exact findIdx?_congr fun form hform => roomy_eq_holds (hbounds form hform)

theorem find_eq_findIdx (forms : List Form) (p : Form → Bool) :
    ((forms.findIdx? p).bind fun i => forms[i]?) = forms.find? p := by
  induction forms with
  | nil => rfl
  | cons form forms ih =>
    rw [findIdx?_cons, find?_cons]
    cases p form with
    | true => rfl
    | false =>
      rw [← ih]
      cases forms.findIdx? p with
      | none => rfl
      | some i => rfl

theorem targetForm_eq (n : BitVec 64) (convertTo : Int) :
    targetForm S.forms n convertTo = .ret (S.target n convertTo) := by
  unfold targetForm target
  split
  · rw [cannonicalFrom_eq n S.forms fun form hform => bounds hform, ret_bind, ← find_eq_findIdx]
  split
  · rfl
  · rfl

theorem mem_of_target {convertTo} (h : S.target n convertTo = some form) : form ∈ S.forms := by
  unfold target at h
  split at h
  · exact mem_of_find?_eq_some h
  split at h
  · cases h
  · exact mem_of_get h

/-- What `prepend` answers. -/
def prepended (form : Form) (d rest : BitVec 64) : BitVec 64 :=
  let label := ((((rest <<< form.bitCount) ||| d) <<< form.prefixLen) ||| form.prefixBits.setWidth 64)
  if form.bitCount < log2x64 d + 1 ∨ 59 < log2x64 rest + formSize form ∨ label.toNat % 2 ^ formSize form = 1 then INVALID
  else label

theorem prepend_eq (d rest : BitVec 64) : prepend form d rest = .ret (prepended form d rest) := by
  unfold prepend prepended
  dsimp only
  by_cases hd : form.bitCount < log2x64 d + 1
  · rw [if_pos hd, if_pos (.inl hd)]
  by_cases hrest : 59 < log2x64 rest + formSize form
  · rw [if_neg hd, if_pos hrest, if_pos (.inr (.inl hrest))]
  rw [if_neg hd, if_neg hrest, startsWithSelf_eq (by omega), ret_bind]
  simp only [decide_eq_true_eq, hd, hrest, false_or]
  split
  · rfl
  · rfl

theorem lt_of_log2_lt {k} (h : ¬ k < log2x64 d + 1) : d.toNat < 2 ^ k := by
  have := (@Bits.log2_le_iff d.toNat (k - 1)).mp (by unfold log2x64 at h; omega)
  rwa [Nat.sub_add_cancel (by omega)] at this

variable {rest : BitVec 64}

theorem write_lt (h : Bounds form) {d} (hd : d < 2 ^ form.bitCount) (hrest : log2x64 rest + formSize form ≤ 59) :
    form.write d rest.toNat < 2 ^ 60 := by
  have hlt : rest.toNat < 2 ^ (59 - formSize form + 1) := Bits.log2_le_iff.mp (by unfold log2x64 at hrest; omega)
  have hfits := h.fits
  calc form.write d rest.toNat
      < (rest.toNat * 2 ^ form.bitCount + d + 1) * 2 ^ form.prefixLen := by
        unfold Form.write
        rw [add_one_mul]
        omega
    _ ≤ (rest.toNat + 1) * 2 ^ form.bitCount * 2 ^ form.prefixLen :=
        mul_le_mul_right _ (by rw [add_one_mul]; omega)
    _ ≤ 2 ^ (59 - formSize form + 1) * 2 ^ form.bitCount * 2 ^ form.prefixLen :=
        mul_le_mul_right _ (mul_le_mul_right _ hlt)
    _ = 2 ^ 60 := by
        rw [← pow_add, ← pow_add]
        congr 1
        unfold formSize at hrest ⊢
        omega

theorem assembled_toNat (h : Bounds form) (hd : d.toNat < 2 ^ form.bitCount)
    (hrest : log2x64 rest + formSize form ≤ 59) :
    ((((rest <<< form.bitCount) ||| d) <<< form.prefixLen) ||| form.prefixBits.setWidth 64).toNat =
      form.write d.toNat rest.toNat := by
  have hwrite := write_lt h hd hrest
  have hmid : rest.toNat * 2 ^ form.bitCount + d.toNat < 2 ^ 64 := by
    have hpos := Nat.two_pow_pos form.prefixLen
    have : rest.toNat * 2 ^ form.bitCount + d.toNat ≤ form.write d.toNat rest.toNat :=
      (Nat.le_mul_of_pos_right _ hpos).trans (Nat.le_add_right _ _)
    omega
  have hinner : ((rest <<< form.bitCount) ||| d).toNat = rest.toNat * 2 ^ form.bitCount + d.toNat := by
    rw [BitVec.toNat_or, BitVec.toNat_shiftLeft, shiftLeft_eq, mod_eq_of_lt (by omega), mul_comm,
      two_pow_add_eq_or_of_lt hd]
  have hpre : (form.prefixBits.setWidth 64).toNat = form.prefixBits.toNat := by
    rw [BitVec.toNat_setWidth, mod_eq_of_lt (by have := form.prefixBits.isLt; omega)]
  rw [BitVec.toNat_or, BitVec.toNat_shiftLeft, shiftLeft_eq, hinner, hpre, mod_eq_of_lt, Form.write,
    mul_comm _ (2 ^ form.prefixLen), two_pow_add_eq_or_of_lt h.fits]
  unfold Form.write at hwrite
  omega

theorem prepended_ne_INVALID (h : Bounds form) (hne : prepended form d rest ≠ INVALID) :
    d.toNat < 2 ^ form.bitCount ∧ log2x64 rest + formSize form ≤ 59 ∧
      (prepended form d rest).toNat = form.write d.toNat rest.toNat ∧
      form.write d.toNat rest.toNat % 2 ^ formSize form ≠ 1 := by
  unfold prepended at hne ⊢
  dsimp only at hne ⊢
  split at hne
  · exact absurd rfl hne
  next hcond =>
    rw [not_or, not_or] at hcond
    obtain ⟨hd, hrest, hself⟩ := hcond
    have hd' := lt_of_log2_lt hd
    have hlabel := assembled_toNat h hd' (Nat.le_of_not_lt hrest)
    rw [if_neg (by rw [not_or, not_or]; exact ⟨hd, hrest, hself⟩)]
    exact ⟨hd', Nat.le_of_not_lt hrest, hlabel, hlabel ▸ hself⟩

theorem prepended_eq (h : Bounds form) (hd : d.toNat < 2 ^ form.bitCount) (hrest : log2x64 rest + formSize form ≤ 59)
    (hself : form.write d.toNat rest.toNat % 2 ^ formSize form ≠ 1) :
    (prepended form d rest).toNat = form.write d.toNat rest.toNat := by
  have hlabel := assembled_toNat h hd hrest
  have hfit : ¬ form.bitCount < log2x64 d + 1 := by
    have hpos := h.bitCount_pos
    have := (@Bits.log2_le_iff d.toNat (form.bitCount - 1)).mpr (by rwa [Nat.sub_add_cancel hpos])
    unfold log2x64
    omega
  unfold prepended
  rw [if_neg, hlabel]
  rw [hlabel, not_or, not_or]
  exact ⟨hfit, not_lt.mpr hrest, hself⟩

/-! ## Conversion -/

variable (S)

/-- The label is to the switch's own router. -/
def SelfRoute (x : BitVec 64) : Prop := ∃ form ∈ S.forms, form.Reads x.toNat ∧ x.toNat % 2 ^ formSize form = 1

/-- The label is one director long. -/
def OneHop (x : BitVec 64) : Prop := ∃ form ∈ S.forms, form.Reads x.toNat ∧ x.toNat.log2 = formSize form

/-- What `EncodingScheme_convertLabel` answers. -/
def convert (x : BitVec 64) (convertTo : Int) : BitVec 64 :=
  match S.forms.find? fun form => form.Reads x.toNat with
  | none => INVALID
  | some form =>
    if S.forms.length = 1 ∨ x.toNat % 2 ^ formSize form = 1 then
      if convertTo = 0 ∨ convertTo = CANNONICAL then x else INVALID
    else
      match S.target (S.number form x) convertTo with
      | none => INVALID
      | some next => prepended next (S.enc next (S.number form x)) (x >>> form.prefixLen >>> form.bitCount)

variable {S} {x y : BitVec 64} {convertTo : Int}

theorem form_eq_find (n : Nat) :
    ((S.formNum n).bind fun i => S.forms[i]?) = S.forms.find? fun form => form.Reads n := find_eq_findIdx _ _

theorem convertLabel_eq (x : BitVec 64) (convertTo : Int) :
    convertLabel S.forms x convertTo = .ret (S.convert x convertTo) := by
  unfold convertLabel convert
  rw [getFormNum_eq, ret_bind, form_eq_find]
  cases hfind : S.forms.find? fun form => form.Reads x.toNat with
  | none => rfl
  | some form =>
    have hb := bounds (mem_of_find?_eq_some hfind)
    have hsize := hb.size_le
    have hcount := hb.bitCount_le
    dsimp only
    rw [startsWithSelf_eq (by omega)]
    by_cases hone : S.forms.length = 1
    · simp only [hone, if_true, ret_bind, true_or]
    simp only [hone, if_false, ret_bind, false_or, decide_eq_true_eq]
    split
    · rfl
    · unfold convertFrom
      rw [maxBits64_eq (by omega), ret_bind, ← directorOf, decode_eq hb, ret_bind, ← number, targetForm_eq,
        ret_bind]
      cases htarget : S.target (S.number form x) convertTo with
      | none => rfl
      | some next =>
        have hbn := bounds (mem_of_target htarget)
        dsimp only
        rw [encode_eq hbn, ret_bind, prepend_eq]

theorem find_reads (hform : form ∈ S.forms) (hreads : form.Reads x.toNat) :
    (S.forms.find? fun form => form.Reads x.toNat) = some form := by
  obtain ⟨i, hi⟩ := mem_iff_getElem?.mp hform
  have hnum : S.formNum x.toNat = some i := formNum_eq_some_iff.mpr ⟨form, hi, hreads⟩
  rw [← form_eq_find, hnum, Option.bind_some, hi]

theorem reads_unique' {g} {n} (hf : form ∈ S.forms) (hg : g ∈ S.forms) (hfr : form.Reads n)
    (hgr : g.Reads n) : form = g := by
  obtain ⟨i, hi⟩ := mem_iff_getElem?.mp hf
  obtain ⟨j, hj⟩ := mem_iff_getElem?.mp hg
  exact form_unique hi hj hfr hgr

theorem rest_toNat (form : Form) (x : BitVec 64) :
    (x >>> form.prefixLen >>> form.bitCount).toNat = x.toNat / 2 ^ formSize form := by
  rw [BitVec.toNat_ushiftRight, BitVec.toNat_ushiftRight, Nat.shiftRight_eq_div_pow, Nat.shiftRight_eq_div_pow,
    Nat.div_div_eq_div_mul, ← Nat.pow_add, formSize, Nat.add_comm]

theorem directorOf_eq (h : Bounds form) (x : BitVec 64) : (directorOf form x).toNat = form.director x.toNat :=
  directorOf_toNat (by have := h.bitCount_le; omega) x

/-- A label that is converted keeps its number and what follows its first director. -/
theorem convert_cases (h : S.convert x convertTo = y) (hy : y ≠ INVALID) :
    ∃ form ∈ S.forms, form.Reads x.toNat ∧
      ((S.forms.length = 1 ∨ x.toNat % 2 ^ formSize form = 1) ∧ (convertTo = 0 ∨ convertTo = CANNONICAL) ∧ y = x ∨
        S.forms.length ≠ 1 ∧ x.toNat % 2 ^ formSize form ≠ 1 ∧
          ∃ next, S.target (S.number form x) convertTo = some next ∧
            (S.enc next (S.number form x)).toNat < 2 ^ next.bitCount ∧
            y.toNat = next.write (S.enc next (S.number form x)).toNat (x.toNat / 2 ^ formSize form) ∧
            y.toNat % 2 ^ formSize next ≠ 1) := by
  unfold convert at h
  split at h
  · exact absurd h.symm hy
  next form hfind =>
    have hmem := mem_of_find?_eq_some hfind
    have hfound := find?_some hfind
    have hreads : form.Reads x.toNat := of_decide_eq_true hfound
    refine ⟨form, hmem, hreads, ?_⟩
    split at h
    next heasy =>
      split at h
      next hto => exact .inl ⟨heasy, hto, h.symm⟩
      · exact absurd h.symm hy
    next heasy =>
      rw [not_or] at heasy
      split at h
      · exact absurd h.symm hy
      next next htarget =>
        obtain ⟨hd, -, hwrite, hself⟩ := prepended_ne_INVALID (bounds (mem_of_target htarget)) (h ▸ hy)
        rw [h, rest_toNat] at hwrite
        rw [rest_toNat, ← hwrite] at hself
        exact .inr ⟨heasy.1, heasy.2, next, htarget, hd, hwrite, hself⟩

/-- The number 1, which the default scheme has only one code for, is that of the self route. -/
theorem number_ne_one (hform : form ∈ S.forms) (hreads : form.Reads x.toNat)
    (hself : x.toNat % 2 ^ formSize form ≠ 1) (h358 : is358 S.forms = true) : S.number form x ≠ 1#64 := by
  unfold number dec
  rw [if_pos h358]
  cases hone : form.one with
  | false => exact widen_ne_one _
  | true =>
    intro hnum
    have hzero : directorOf form x = 0#64 := by
      have := congrArg swapSelf hnum
      rwa [if_pos rfl, swapSelf_swapSelf] at this
    refine hself ?_
    have hpre : form.prefixBits.toNat = 1 := of_decide_eq_true hone
    have hdir := directorOf_eq (bounds hform) x
    rw [hzero] at hdir
    have hlen : 0 < form.prefixLen := pos_of_ne_zero fun h0 => by
      have hfits := (bounds hform).fits
      rw [h0] at hfits
      omega
    have hone : 1 < 2 ^ formSize form := Nat.one_lt_two_pow (bounds hform).size_pos.ne'
    have hx := Form.write_director_rest hreads
    rw [← hdir, Form.write, hpre] at hx
    rw [← hx, show (0#64).toNat = 0 from rfl, add_zero (_ * _), mul_assoc, ← pow_add, ← formSize,
      mul_add_mod_self_right, mod_eq_of_lt hone]

theorem number_write (hform : form ∈ S.forms) {rest} (hn : is358 S.forms = true → n ≠ 1#64)
    (hd : (S.enc form n).toNat < 2 ^ form.bitCount) (hx : x.toNat = form.write (S.enc form n).toNat rest) :
    S.number form x = n := by
  have hdir : directorOf form x = S.enc form n := by
    apply BitVec.eq_of_toNat_eq
    rw [directorOf_eq (bounds hform), hx, Form.director_write (bounds hform).fits hd]
  rw [number, hdir, dec_enc hn]

variable (S)

/-- The first director is in the form the scheme would write its number in. -/
def Canonical (x : BitVec 64) : Prop :=
  ∀ form ∈ S.forms, form.Reads x.toNat → S.forms.length = 1 ∨ S.target (S.number form x) CANNONICAL = some form

/-- The director by which a link with this label is left, if it was entered by one of form `prev`. -/
def Codes (prev : Int) (label code : BitVec 64) : Prop :=
  ∃ i, S.formNum label.toNat = some i ∧
    if prev > i then code = S.convert label prev ∧ code ≠ INVALID else code = label

variable {S}

theorem canonical_convert (h : S.convert x CANNONICAL = y) (hy : y ≠ INVALID) (hself : ¬ S.SelfRoute y) :
    S.Canonical y := by
  intro g hg hgreads
  obtain ⟨form, hform, hreads, ⟨heasy, -, rfl⟩ | ⟨-, hxself, next, htarget, hd, hwrite, -⟩⟩ := convert_cases h hy
  · rcases heasy with hone | hself'
    · exact .inl hone
    · exact absurd ⟨form, hform, hreads, hself'⟩ hself
  · right
    have hnext := mem_of_target htarget
    obtain rfl := reads_unique' hg hnext hgreads (hwrite ▸ Form.reads_write (bounds hnext).fits)
    rw [number_write hnext (number_ne_one hform hreads hxself) hd hwrite, htarget]

theorem log2_rest_le (hb : Bounds form) (hlog : log2x64 x ≤ 59) :
    log2x64 (x >>> form.prefixLen >>> form.bitCount) + formSize form ≤ 59 := by
  have hsize := hb.size_le
  have hx : x.toNat < 2 ^ 60 := Bits.log2_le_iff.mp hlog
  have hrest : (x >>> form.prefixLen >>> form.bitCount).toNat < 2 ^ (59 - formSize form + 1) := by
    rw [rest_toNat, Nat.div_lt_iff_lt_mul (Nat.two_pow_pos _), ← Nat.pow_add]
    exact hx.trans_le (Nat.pow_le_pow_right (by decide) (by omega))
  have := Bits.log2_le_iff.mpr hrest
  unfold log2x64
  omega

theorem prepended_self (hform : form ∈ S.forms) (hreads : form.Reads x.toNat) (hlog : log2x64 x ≤ 59)
    (hself : x.toNat % 2 ^ formSize form ≠ 1) :
    prepended form (S.enc form (S.number form x)) (x >>> form.prefixLen >>> form.bitCount) = x := by
  have hb := bounds hform
  have hd : (directorOf form x).toNat < 2 ^ form.bitCount := by
    rw [directorOf_eq hb]
    exact Form.director_lt
  have hwrite : form.write (directorOf form x).toNat (x >>> form.prefixLen >>> form.bitCount).toNat = x.toNat := by
    rw [rest_toNat, directorOf_eq hb, Form.write_director_rest hreads]
  apply BitVec.eq_of_toNat_eq
  rw [number, enc_dec hform hd, prepended_eq hb hd (log2_rest_le hb hlog) (by rwa [hwrite]), hwrite]

/-- A label that begins like one in canonical form is in canonical form. -/
theorem convert_of_mod (hform : form ∈ S.forms) (hreads : form.Reads x.toNat)
    (hmod : y.toNat % 2 ^ formSize form = x.toNat % 2 ^ formSize form) (hy : log2x64 y ≤ 59)
    (h : S.convert x CANNONICAL = x) (hx : x ≠ INVALID) : S.convert y CANNONICAL = y := by
  have hb := bounds hform
  have hpow : 2 ^ formSize form = 2 ^ form.prefixLen * 2 ^ form.bitCount := by
    rw [formSize, add_comm, pow_add]
  have hreads' : form.Reads y.toNat := by
    have hdvd : 2 ^ form.prefixLen ∣ 2 ^ formSize form := ⟨_, hpow⟩
    rw [Form.Reads, ← mod_mod_of_dvd _ hdvd, hmod, mod_mod_of_dvd _ hdvd, hreads]
  have hdir : directorOf form y = directorOf form x := by
    apply BitVec.eq_of_toNat_eq
    rw [directorOf_eq hb, directorOf_eq hb, Form.director, Form.director, ← mod_mul_right_div_self, ← hpow, hmod, hpow,
      mod_mul_right_div_self]
  unfold convert
  rw [find_reads hform hreads']
  dsimp only
  split
  · simp
  next heasy =>
    obtain ⟨hone, hself⟩ := not_or.mp heasy
    have hnot : ¬ S.SelfRoute x := by
      rintro ⟨g, hg, hgreads, hgself⟩
      obtain rfl := reads_unique' hform hg hreads hgreads
      exact hself (hmod.trans hgself)
    have htarget := (canonical_convert h hx hnot form hform hreads).resolve_left hone
    rw [number, ← hdir, ← number] at htarget
    rw [htarget]
    exact prepended_self hform hreads' hy hself

theorem log2_eq_size_iff (h : Bounds form) {n} : n.log2 = formSize form ↔ n / 2 ^ formSize form = 1 := by
  have hpos := Nat.two_pow_pos (formSize form)
  have hsize := h.size_pos
  by_cases hn : n = 0
  · subst hn
    simp only [Nat.zero_div, Nat.log2_zero]
    omega
  rw [Nat.log2_eq_iff hn]
  constructor
  · intro h
    exact Nat.div_eq_of_lt_le (by omega) (by omega)
  · intro h
    have hlt := Nat.lt_mul_div_succ n hpos
    have hle := Nat.div_mul_le_self n (2 ^ formSize form)
    rw [h] at hlt hle
    omega

theorem OneHop.two_le (h : S.OneHop x) : 2 ≤ x.toNat := by
  obtain ⟨form, hform, -, hlog⟩ := h
  have hsize := (bounds hform).size_pos
  by_contra hlt
  have : x.toNat.log2 ≤ 0 := Bits.log2_le_iff.mpr (by omega)
  omega

variable {prev : Int} {code : BitVec 64}

theorem Codes.cases {label} (hform : form ∈ S.forms) (hreads : form.Reads label.toNat)
    (hlog : label.toNat.log2 = formSize form) (h : S.Codes prev label code) :
    (code = label ∧ ∀ i : Nat, S.forms[i]? = some form → prev ≤ i) ∨
    (label.toNat % 2 ^ formSize form ≠ 1 ∧ ∃ (j : Nat) (next : Form), S.forms[j]? = some next ∧ prev = j ∧
      (∀ i : Nat, S.forms[i]? = some form → i < j) ∧
      (S.enc next (S.number form label)).toNat < 2 ^ next.bitCount ∧
      code.toNat = next.write (S.enc next (S.number form label)).toNat 1) := by
  obtain ⟨i, hi, hcode⟩ := h
  obtain ⟨g, hg, hgreads⟩ := formNum_eq_some_iff.mp hi
  have hindex : ∀ k, S.forms[k]? = some form → k = i := fun k hk => reads_unique hk hg hreads hgreads
  split at hcode
  next hprev =>
    right
    obtain ⟨hcode, hne⟩ := hcode
    obtain ⟨f, hf, hfreads, ⟨-, hto, -⟩ | ⟨-, hself, next, htarget, hd, hwrite, -⟩⟩ := convert_cases hcode.symm hne
    · unfold CANNONICAL at hto
      omega
    · obtain rfl := reads_unique' hf hform hfreads hreads
      rw [(log2_eq_size_iff (bounds hform)).mp hlog] at hwrite
      refine ⟨hself, prev.toNat, next, ?_, by omega, fun k hk => by have := hindex k hk; omega, hd, hwrite⟩
      unfold target at htarget
      rwa [if_neg (by unfold CANNONICAL; omega), if_neg (by omega)] at htarget
  next hprev => exact .inl ⟨hcode, fun k hk => by have := hindex k hk; omega⟩

theorem Codes.oneHop {label} (hlabel : S.OneHop label) (h : S.Codes prev label code) :
    S.OneHop code := by
  obtain ⟨form, hform, hreads, hlog⟩ := hlabel
  rcases h.cases hform hreads hlog with ⟨rfl, -⟩ | ⟨-, j, next, hj, -, -, hd, hwrite⟩
  · exact ⟨form, hform, hreads, hlog⟩
  · have hb := bounds (mem_of_get hj)
    refine ⟨next, mem_of_get hj, hwrite ▸ Form.reads_write hb.fits, (log2_eq_size_iff hb).mpr ?_⟩
    rw [hwrite, Form.rest_write hb.fits hd]

theorem eq_of_number {y} (hform : form ∈ S.forms) (hx : form.Reads x.toNat) (hy : form.Reads y.toNat)
    (hnumber : S.number form x = S.number form y) (hrest : x.toNat / 2 ^ formSize form = y.toNat / 2 ^ formSize form) :
    x = y := by
  have hb := bounds hform
  have hlt : ∀ z, (directorOf form z).toNat < 2 ^ form.bitCount := fun z => by
    rw [directorOf_eq hb]
    exact Form.director_lt
  have hdir : directorOf form x = directorOf form y := by
    have := congrArg (S.enc form) hnumber
    rwa [number, number, enc_dec hform (hlt x), enc_dec hform (hlt y)] at this
  apply BitVec.eq_of_toNat_eq
  rw [← Form.write_director_rest hx, ← Form.write_director_rest hy, hrest, ← directorOf_eq hb, ← directorOf_eq hb, hdir]

variable {a b : BitVec 64}

/-- A label that is left as it is and one that is converted do not become the same. -/
theorem ne_of_converted {f g next} {j : Nat} (hf : f ∈ S.forms) (hfreads : f.Reads a.toNat)
    (hself : a.toNat % 2 ^ formSize f ≠ 1) (hg : g ∈ S.forms) (hgreads : g.Reads b.toNat) (hlen : S.forms.length ≠ 1)
    (hcanon : S.Canonical a ∧ S.Canonical b) (hj : S.forms[j]? = some next)
    (hbefore : ∀ i, S.forms[i]? = some f → i < j) (hd : (S.enc next (S.number f a)).toNat < 2 ^ next.bitCount)
    (hwrite : b.toNat = next.write (S.enc next (S.number f a)).toNat 1) : False := by
  have hnext := mem_of_get hj
  obtain rfl := reads_unique' hg hnext hgreads (hwrite ▸ Form.reads_write (bounds hnext).fits)
  -- both numbers are the same, and so is the form they are to be written in
  have hnumber := number_write hnext (number_ne_one hf hfreads hself) hd hwrite
  have ha := (hcanon.1 f hf hfreads).resolve_left hlen
  have hb := (hcanon.2 g hg hgreads).resolve_left hlen
  rw [hnumber, ha] at hb
  cases hb
  exact absurd (hbefore j hj) (lt_irrefl j)

theorem codes_inj (ha : S.OneHop a) (hb : S.OneHop b) (hcanon : prev ≤ 0 ∨ S.Canonical a ∧ S.Canonical b)
    (hacode : S.Codes prev a code) (hbcode : S.Codes prev b code) :
    a = b := by
  obtain ⟨f, hf, hfreads, hflog⟩ := ha
  obtain ⟨g, hg, hgreads, hglog⟩ := hb
  have hlen : ∀ {j} {h} {k : Nat}, S.forms[j]? = some h → k < j → S.forms.length ≠ 1 := by
    intro j h k hj hk
    have := (List.getElem?_eq_some_iff.mp hj).1
    omega
  obtain ⟨i, hi⟩ := mem_iff_getElem?.mp hf
  obtain ⟨k, hk⟩ := mem_iff_getElem?.mp hg
  rcases hacode.cases hf hfreads hflog with ⟨rfl, -⟩ | ⟨hself, j, next, hj, hprev, hbefore, hd, hwrite⟩
  · rcases hbcode.cases hg hgreads hglog with ⟨rfl, -⟩ | ⟨hself, j, next, hj, hprev, hbefore, hd, hwrite⟩
    · rfl
    · have hlt := hbefore k hk
      exact (ne_of_converted hg hgreads hself hf hfreads (hlen hj hlt)
        (hcanon.resolve_left (by omega)).symm hj hbefore hd hwrite).elim
  · have hlt := hbefore i hi
    have hcanon' := hcanon.resolve_left (by omega)
    rcases hbcode.cases hg hgreads hglog with ⟨rfl, -⟩ | ⟨hself', j', next', hj', hprev', -, hd', hwrite'⟩
    · exact (ne_of_converted hf hfreads hself hg hgreads (hlen hj hlt) hcanon' hj hbefore hd hwrite).elim
    · -- converted to one form, both have the same number
      obtain rfl : j = j' := by omega
      cases hj.symm.trans hj'
      have hnext := mem_of_get hj
      have hna := number_write hnext (number_ne_one hf hfreads hself) hd hwrite
      have hnb := number_write hnext (number_ne_one hg hgreads hself') hd' hwrite'
      rw [hna] at hnb
      have hfg : f = g := by
        have hfa := (hcanon'.1 f hf hfreads).resolve_left (hlen hj hlt)
        have hgb := (hcanon'.2 g hg hgreads).resolve_left (hlen hj hlt)
        rw [hnb, hgb] at hfa
        exact (Option.some.inj hfa).symm
      subst hfg
      refine eq_of_number hf hfreads hgreads hnb ?_
      rw [(log2_eq_size_iff (bounds hf)).mp hflog, (log2_eq_size_iff (bounds hf)).mp hglog]

/-! ## Paths -/

open LabelSplicer (join join_mod join_div routesThrough routesThrough_iff)

theorem reads_join {code rest} (h : form.Reads code) (hlog : code.log2 = formSize form) :
    form.Reads (join rest code) := by
  have hdvd : 2 ^ form.prefixLen ∣ 2 ^ code.log2 := pow_dvd_pow 2 (by rw [hlog, formSize]; omega)
  unfold Form.Reads at h ⊢
  rw [← h, ← mod_mod_of_dvd _ hdvd, join_mod, mod_mod_of_dvd _ hdvd]

theorem eq_of_mod_log2 {n m} (hn : 0 < n) (hm : 0 < m) (hlog : n.log2 = m.log2)
    (hmod : n % 2 ^ n.log2 = m % 2 ^ n.log2) : n = m := by
  rw [← LabelSplicer.one_join hn, ← LabelSplicer.one_join hm]
  unfold join
  rw [hlog] at hmod ⊢
  rw [hmod]

theorem OneHop.join_inj {p q} (ha : S.OneHop a) (hb : S.OneHop b) (h : join p a.toNat = join q b.toNat) :
    a = b ∧ p = q := by
  have hapos := ha.two_le
  have hbpos := hb.two_le
  obtain ⟨f, hf, hfreads, hflog⟩ := ha
  obtain ⟨g, hg, hgreads, hglog⟩ := hb
  obtain rfl := reads_unique' hf hg (reads_join hfreads hflog) (h ▸ reads_join hgreads hglog)
  have hlog : a.toNat.log2 = b.toNat.log2 := hflog.trans hglog.symm
  have hmod : join p a.toNat % 2 ^ a.toNat.log2 = join q b.toNat % 2 ^ a.toNat.log2 := by rw [h]
  rw [join_mod, hlog, join_mod] at hmod
  have hab : a = b := BitVec.eq_of_toNat_eq (eq_of_mod_log2 (by omega) (by omega) hlog (hlog ▸ hmod))
  subst hab
  refine ⟨rfl, ?_⟩
  have hdiv : join p a.toNat / 2 ^ a.toNat.log2 = join q a.toNat / 2 ^ a.toNat.log2 := by rw [h]
  rwa [join_div, join_div] at hdiv

theorem OneHop.eq_of_routesThrough {path} {p} (ha : S.OneHop a) (hb : S.OneHop b)
    (hpath : path.toNat = join p a.toNat) (h : routesThrough path b = true) : a = b := by
  have hbpos := hb.two_le
  obtain ⟨-, hmod⟩ := (routesThrough_iff hbpos).mp h
  refine (ha.join_inj hb (p := p) (q := path.toNat / 2 ^ b.toNat.log2) ?_).1
  rw [← hpath, join, ← hmod, div_add_mod]

/-! ## The predicates of the source -/

theorem isOneHop_eq_true_iff : isOneHop S.forms x = .ret true ↔ S.OneHop x := by
  unfold isOneHop
  rw [getFormNum_eq, ret_bind, form_eq_find]
  constructor
  · intro h
    split at h
    · cases h
    next form hfind =>
      have hfound := find?_some hfind
      exact ⟨form, mem_of_find?_eq_some hfind, of_decide_eq_true hfound, of_decide_eq_true (Er.ret.inj h)⟩
  · intro h
    obtain ⟨form, hmem, hreads, hlog⟩ := h
    rw [find_reads hmem hreads]
    dsimp only
    rw [decide_eq_true (show log2x64 x = formSize form from hlog)]

theorem isSelfRoute_eq (x : BitVec 64) :
    (isSelfRoute S.forms x = .ret true ∧ S.SelfRoute x) ∨ (isSelfRoute S.forms x = .ret false ∧ ¬ S.SelfRoute x) := by
  unfold isSelfRoute
  rw [getFormNum_eq, ret_bind, form_eq_find]
  cases hfind : S.forms.find? fun form => form.Reads x.toNat with
  | none =>
    refine .inr ⟨rfl, fun h => ?_⟩
    obtain ⟨form, hmem, hreads, -⟩ := h
    rw [find_reads hmem hreads] at hfind
    cases hfind
  | some form =>
    have hmem := mem_of_find?_eq_some hfind
    have hfound := find?_some hfind
    have hreads : form.Reads x.toNat := of_decide_eq_true hfound
    have hsize := (bounds hmem).size_le
    dsimp only
    rw [startsWithSelf_eq (by omega)]
    by_cases hself : x.toNat % 2 ^ formSize form = 1
    · rw [decide_eq_true hself]
      exact .inl ⟨rfl, form, hmem, hreads, hself⟩
    · rw [decide_eq_false hself]
      refine .inr ⟨rfl, fun h => ?_⟩
      obtain ⟨g, hg, hgreads, hgself⟩ := h
      obtain rfl := reads_unique' hmem hg hreads hgreads
      exact hself hgself

end Scheme

end EncodingScheme

end Hyperboria
