/-
`EncodingScheme_fromList`, `EncodingScheme_asList` and `util/Hex.c`: a scheme read from a bencoded list. The prefix
of a form is given as 32 bits, and nothing asks whether it is longer than it says: then
`EncodingScheme_isSane` compares it with prefixes that are cut to its length, and never
finds it the same. So a scheme from a list can have two forms that match one label, and
`getFormNum` answers the one that comes first (`Unambiguous`). A scheme from the wire
cannot: there the prefix is cut when it is read.

The list that is written from a scheme has the prefixes as hex without the zeros in front,
and the reader wants all eight digits. So a scheme comes back only if no prefix has a zero
in front (`fromList_asList_iff`).
-/
import Hyperboria.Benc.Object
import Hyperboria.Switch.Directors

namespace Hyperboria

open List Nat Option

namespace Hex

/-- `numForAscii`, for the characters below 128. -/
def numForAscii (c : UInt8) : Nat :=
  if 48 ≤ c ∧ c ≤ 57 then c.toNat - 48
  else if 65 ≤ c ∧ c ≤ 70 then c.toNat - 55
  else if 97 ≤ c ∧ c ≤ 102 then c.toNat - 87
  else 99

/-- `Hex_decodeByte`; `none` is the answer -1. -/
def decodeByte (highNibble lowNibble : UInt8) : Option UInt8 :=
  if 128 ≤ highNibble ∨ 128 ≤ lowNibble then none
  else
    let high := numForAscii highNibble
    let low := numForAscii lowNibble
    if high + low < 31 then some (UInt8.ofNat (high * 16 + low)) else none

/-- `Hex_decode`, into as many bytes as there are pairs of characters; `none` is `Hex_BAD_INPUT`. -/
def decode : List UInt8 → Option (List UInt8)
  | [] => some []
  | [_] => none
  | high :: low :: hex => do
    let byte ← decodeByte high low
    let bytes ← decode hex
    some (byte :: bytes)

/-- `hexEntities`. -/
def entity (nibble : Nat) : UInt8 := if nibble < 10 then UInt8.ofNat (48 + nibble) else UInt8.ofNat (87 + nibble)

/-- `Hex_encode`, into as many characters as are needed. -/
def encode : List UInt8 → List UInt8
  | [] => []
  | byte :: bytes => entity (byte.toNat / 16) :: entity (byte.toNat % 16) :: encode bytes

theorem numForAscii_entity : ∀ nibble < 16, entity nibble < 128 ∧ numForAscii (entity nibble) = nibble := by decide

theorem decodeByte_entity (byte : UInt8) : decodeByte (entity (byte.toNat / 16)) (entity (byte.toNat % 16)) = some byte := by
  have hlt := byte.toNat_lt
  obtain ⟨hhigh, hhighNum⟩ := numForAscii_entity (byte.toNat / 16) (by omega)
  obtain ⟨hlow, hlowNum⟩ := numForAscii_entity (byte.toNat % 16) (by omega)
  have hascii : ¬ (128 ≤ entity (byte.toNat / 16) ∨ 128 ≤ entity (byte.toNat % 16)) :=
    not_or.mpr ⟨UInt8.not_le.mpr hhigh, UInt8.not_le.mpr hlow⟩
  unfold decodeByte
  rw [if_neg hascii, hhighNum, hlowNum]
  rw [if_pos (by omega), div_add_mod' byte.toNat 16, UInt8.ofNat_toNat]

theorem decode_encode (bytes : List UInt8) : decode (encode bytes) = some bytes := by
  induction bytes with
  | nil => rfl
  | cons byte bytes ih =>
    rw [encode, decode, decodeByte_entity, ih]
    rfl

end Hex

namespace EncodingScheme

open Benc (Object)

/-- The keys of an entry. -/
def PREFIX_LEN : List UInt8 := "prefixLen".toUTF8.data.toList

def BIT_COUNT : List UInt8 := "bitCount".toUTF8.data.toList

def PREFIX : List UInt8 := "prefix".toUTF8.data.toList

/-- A turn of the loop of `EncodingScheme_fromList`. The numbers are cut to the 16 bits of their fields. -/
def formOf : Object → Option Form
  | .dict form => do
    let prefixLen ← Benc.Dict.getInt form PREFIX_LEN
    let bitCount ← Benc.Dict.getInt form BIT_COUNT
    let prefixStr ← Benc.Dict.getString form PREFIX
    if prefixStr.length ≠ 8 then none
    else do
      let bytes ← Hex.decode prefixStr
      some
        { bitCount := (bitCount % 2 ^ 16).toNat, prefixLen := (prefixLen % 2 ^ 16).toNat
          prefixBits := BitVec.ofNat 32 (bytes.foldl (fun n b => n * 256 + b.toNat) 0) }
  | _ => none

def fromList (scheme : List Object) : Option (List Form) := (scheme.mapM formOf).filter isSane

/-- `Endian_hostToBigEndian32`, as bytes. -/
def bigEndian32 (n : BitVec 32) : List UInt8 :=
  [UInt8.ofNat (n.toNat / 2 ^ 24), UInt8.ofNat (n.toNat / 2 ^ 16), UInt8.ofNat (n.toNat / 2 ^ 8), UInt8.ofNat n.toNat]

/-- The loop of `EncodingScheme_asList` that drops pairs of digits: it looks at the first of them only. -/
def dropZeros : List UInt8 → List UInt8
  | high :: low :: hex => if high = 48 ∧ hex ≠ [] then dropZeros hex else high :: low :: hex
  | hex => hex

/-- The prefix of a form as it is written. -/
def prefixStr (form : Form) : List UInt8 :=
  if form.prefixLen = 0 then [] else dropZeros (Hex.encode (bigEndian32 form.prefixBits))

/-- An entry of the list with these fields. -/
def entry (prefixLen bitCount : Int) (bits : List UInt8) : Object :=
  let form := Benc.Dict.put [] PREFIX_LEN (.integer prefixLen)
  let form := form.put BIT_COUNT (.integer bitCount)
  .dict (form.put PREFIX (.string bits))

/-- A turn of the loop of `EncodingScheme_asList`. -/
def entryOf (form : Form) : Object := entry form.prefixLen form.bitCount (prefixStr form)

/-- `EncodingScheme_asList`: the forms are put in front of the list, the last one first. -/
def asList (scheme : List Form) : List Object := scheme.foldr (fun form list => entryOf form :: list) []

/-! ## Which form matches a label -/

/-- The form a label begins with, if there is one. -/
def formOfLabel (scheme : List Form) (label : BitVec 64) : Er (Option Form) := do
  let i ← getFormNum scheme label
  .ret (i.bind fun i => scheme[i]?)

/-- No label is matched by two forms of the scheme, and the form that is found is the same in whichever order the
forms stand. -/
structure Unambiguous (scheme : List Form) : Prop where
  unique : ∀ (label : BitVec 64) (i j : Nat) (f g : Form), scheme[i]? = some f → scheme[j]? = some g →
    f.Matches label → g.Matches label → i = j
  order : ∀ (scheme' : List Form), scheme'.Perm scheme → ∀ label, formOfLabel scheme' label = formOfLabel scheme label

/-- The prefixes of the two forms differ in the bits both of them have. -/
def Form.Differs (f g : Form) : Prop :=
  f.prefixBits.toNat % 2 ^ min f.prefixLen g.prefixLen ≠ g.prefixBits.toNat % 2 ^ min f.prefixLen g.prefixLen

instance (f g : Form) : Decidable (f.Differs g) := inferInstanceAs (Decidable (_ ≠ _))

section
variable {scheme : List Form} {form f g : Form} {label : BitVec 64}

/-- Two forms that match one label do not differ in the bits both of them have. -/
theorem not_differs_of_matches (hf : f.prefixLen ≤ 32) (hg : g.prefixLen ≤ 32) (hfm : f.Matches label)
    (hgm : g.Matches label) : ¬ f.Differs g := by
  have hleft : 2 ^ min f.prefixLen g.prefixLen ∣ 2 ^ f.prefixLen := pow_dvd_pow 2 (min_le_left _ _)
  have hright : 2 ^ min f.prefixLen g.prefixLen ∣ 2 ^ g.prefixLen := pow_dvd_pow 2 (min_le_right _ _)
  have hfl := (Form.matches_iff hf).mp hfm
  have hgl := (Form.matches_iff hg).mp hgm
  refine not_not_intro ?_
  calc f.prefixBits.toNat % 2 ^ min f.prefixLen g.prefixLen
      = label.toNat % 2 ^ min f.prefixLen g.prefixLen := by
        rw [← mod_mod_of_dvd _ hleft, hfl, mod_mod_of_dvd _ hleft]
    _ = g.prefixBits.toNat % 2 ^ min f.prefixLen g.prefixLen := by
        rw [← mod_mod_of_dvd g.prefixBits.toNat hright, hgl, mod_mod_of_dvd _ hright]

theorem exists_matches (hf : f.prefixLen ≤ 32) (hg : g.prefixLen ≤ 32)
    (hagree : ¬ f.Differs g) : ∃ label : BitVec 64, f.Matches label ∧ g.Matches label := by
  replace hagree := not_not.mp hagree
  have hwidth : ∀ form : Form, (form.prefixBits.setWidth 64).toNat = form.prefixBits.toNat := by
    intro form
    rw [BitVec.toNat_setWidth]
    omega
  rcases le_total f.prefixLen g.prefixLen with hle | hle
  · rw [min_eq_left hle] at hagree
    refine ⟨g.prefixBits.setWidth 64, (Form.matches_iff hf).mpr ?_, (Form.matches_iff hg).mpr ?_⟩
    · rw [hwidth, hagree]
    · rw [hwidth]
  · rw [min_eq_right hle] at hagree
    refine ⟨f.prefixBits.setWidth 64, (Form.matches_iff hf).mpr ?_, (Form.matches_iff hg).mpr ?_⟩
    · rw [hwidth]
    · rw [hwidth, hagree]

theorem prefixLen_le (h : isSane scheme = true) (hform : form ∈ scheme) : form.prefixLen ≤ 32 :=
  (inRange_of_mem h hform).prefixLen_le.trans (by decide)

theorem formOfLabel_eq (hone : scheme.length ≠ 1) (hrange : ∀ form ∈ scheme, 0 < form.prefixLen ∧ form.InRange) :
    formOfLabel scheme label = .ret (scheme.find? fun form => form.Matches label) := by
  unfold formOfLabel getFormNum
  rw [if_neg hone, formNumFrom_matches hrange, Er.ret_bind, find?_eq_bind_findIdx?_getElem?]
  simp only [add_zero, Option.map_id_fun', id_eq]

/-- Where no label is matched twice, the order of the forms makes no difference. -/
theorem formOfLabel_perm {scheme'} (hsane : isSane scheme = true)
    (hunique : ∀ (i j : Nat) (f g : Form), scheme[i]? = some f → scheme[j]? = some g → f.Matches label →
      g.Matches label → i = j) (hperm : scheme'.Perm scheme) : formOfLabel scheme' label = formOfLabel scheme label := by
  rcases isSane_cases hsane with ⟨only, rfl, -⟩ | ⟨hone, hforms⟩
  · rw [perm_singleton.mp hperm]
  have hrange : ∀ form ∈ scheme, 0 < form.prefixLen ∧ form.InRange := by
    intro form hform
    obtain ⟨i, hi⟩ := mem_iff_getElem?.mp hform
    exact inRange_of_isSaneForm (hforms i form hi)
  have hsame : ∀ f ∈ scheme, ∀ g ∈ scheme, f.Matches label → g.Matches label → f = g := by
    intro f hf g hg hfm hgm
    obtain ⟨i, hi⟩ := mem_iff_getElem?.mp hf
    obtain ⟨j, hj⟩ := mem_iff_getElem?.mp hg
    obtain rfl := hunique i j f g hi hj hfm hgm
    exact some.inj (hi.symm.trans hj)
  rw [formOfLabel_eq hone hrange, formOfLabel_eq (fun h => hone (hperm.length_eq.symm.trans h))
    fun form hform => hrange form (hperm.mem_iff.mp hform)]
  congr 1
  cases hfind : scheme.find? fun form => form.Matches label with
  | none =>
    exact find?_eq_none.mpr fun form hform => find?_eq_none.mp hfind form (hperm.mem_iff.mp hform)
  | some form =>
    have hmem := mem_of_find?_eq_some hfind
    have hfound := find?_some hfind
    have hmatch : form.Matches label := of_decide_eq_true hfound
    cases hfind' : scheme'.find? fun form => form.Matches label with
    | none =>
      have hno := find?_eq_none.mp hfind' form (hperm.mem_iff.mpr hmem)
      exact absurd (decide_eq_true hmatch) hno
    | some form' =>
      have hmem' := hperm.mem_iff.mp (mem_of_find?_eq_some hfind')
      have hfound' := find?_some hfind'
      have hmatch' : form'.Matches label := of_decide_eq_true hfound'
      rw [hsame form' hmem' form hmem hmatch' hmatch]

theorem unambiguous_iff (hsane : isSane scheme = true) :
    Unambiguous scheme ↔
      ∀ (i j : Nat) (f g : Form), scheme[i]? = some f → scheme[j]? = some g → i < j → f.Differs g := by
  have hlen : ∀ {i} {f : Form}, scheme[i]? = some f → f.prefixLen ≤ 32 := fun hi => prefixLen_le hsane (mem_of_getElem? hi)
  constructor
  · intro h i j f g hi hj hlt
    by_contra hagree
    obtain ⟨label, hf, hg⟩ := exists_matches (hlen hi) (hlen hj) hagree
    exact hlt.ne (h.unique label i j f g hi hj hf hg)
  · intro h
    have hunique : ∀ label (i j : Nat) (f g : Form), scheme[i]? = some f → scheme[j]? = some g →
        f.Matches label → g.Matches label → i = j := by
      intro label i j f g hi hj hf hg
      rcases lt_trichotomy i j with hlt | rfl | hlt
      · exact absurd (h i j f g hi hj hlt) (not_differs_of_matches (hlen hi) (hlen hj) hf hg)
      · rfl
      · exact absurd (h j i g f hj hi hlt) (not_differs_of_matches (hlen hj) (hlen hi) hg hf)
    exact ⟨hunique, fun scheme' hperm label => formOfLabel_perm hsane (hunique label) hperm⟩

/-- Prefixes that are no longer than they say are compared as they should be. -/
theorem Scheme.unambiguous (S : Scheme) : Unambiguous S.forms := by
  have hreads : ∀ {label} {i : Nat} {f}, S.forms[i]? = some f → f.Matches label →
      f.Reads label.toNat := by
    intro label i f hi hmatch
    have hmem := Scheme.mem_of_get hi
    have := (Form.matches_iff (prefixLen_le S.sane hmem)).mp hmatch
    rwa [mod_eq_of_lt (S.fits f hmem), eq_comm] at this
  refine (unambiguous_iff S.sane).mpr fun i j f g hi hj hlt => ?_
  by_contra hagree
  have hf := prefixLen_le S.sane (Scheme.mem_of_get hi)
  have hg := prefixLen_le S.sane (Scheme.mem_of_get hj)
  obtain ⟨label, hfm, hgm⟩ := exists_matches hf hg hagree
  exact hlt.ne (Scheme.reads_unique hi hj (hreads hi hfm) (hreads hj hgm))

theorem get_of_mapM {list : List Object} (h : list.mapM formOf = some scheme) (i : Nat) :
    scheme[i]? = list[i]?.bind formOf := by
  induction list generalizing scheme i with
  | nil =>
    cases h
    rfl
  | cons object list ih =>
    rw [mapM_cons] at h
    obtain ⟨form, hform, h⟩ := bind_eq_some_iff.mp h
    obtain ⟨forms, hforms, h⟩ := bind_eq_some_iff.mp h
    cases h
    cases i with
    | zero => exact hform.symm
    | succ i => exact ih hforms i

end

/-- The prefixes that are written in two entries of the list differ in the bits both of them have. -/
def EntriesDiffer (list : List Object) : Prop :=
  ∀ (i j : Nat) (f g : Form), list[i]?.bind formOf = some f → list[j]?.bind formOf = some g → i < j → f.Differs g

/-- No label is matched by two forms of a scheme from the wire. A scheme from a list has that property if and only if
the prefixes in the list differ. -/
theorem prefixes_unambiguous (scheme : List Form) :
    (∀ data, deserialize data = .ret (some scheme) → Unambiguous scheme) ∧
    ∀ list, fromList list = some scheme → (Unambiguous scheme ↔ EntriesDiffer list) := by
  constructor
  · intro data h
    obtain ⟨S, rfl⟩ := deserialize_scheme h
    exact S.unambiguous
  · intro list h
    obtain ⟨hlist, hsane⟩ := filter_eq_some_iff.mp h
    simp only [unambiguous_iff hsane, get_of_mapM hlist, EntriesDiffer]

/-- Both forms match every label that ends in 01. -/
theorem overlong_ambiguous :
    let list := [entry 1 3 "10000001".toUTF8.data.toList, entry 2 5 "20000001".toUTF8.data.toList]
    fromList list = some [⟨3, 1, 0x10000001⟩, ⟨5, 2, 0x20000001⟩] ∧
      Form.Matches ⟨3, 1, 0x10000001⟩ 1 ∧ Form.Matches ⟨5, 2, 0x20000001⟩ 1 ∧
      ¬ Unambiguous [⟨3, 1, 0x10000001⟩, ⟨5, 2, 0x20000001⟩] ∧ ¬ EntriesDiffer list := by
  refine ⟨by decide, by decide, by decide, fun h => ?_, fun h => ?_⟩
  · exact absurd (h.unique 1 0 1 _ _ rfl rfl (by decide) (by decide)) (by decide)
  · exact absurd (h 0 1 ⟨3, 1, 0x10000001⟩ ⟨5, 2, 0x20000001⟩ (by decide) (by decide) (by decide)) (by decide)

/-- The 3/5/8 scheme, from the wire and from a list. -/
theorem v3x5x8_unambiguous :
    Unambiguous v3x5x8 ∧
      (Unambiguous v3x5x8 ↔ EntriesDiffer [entry 1 3 "00000001".toUTF8.data.toList,
        entry 2 5 "00000002".toUTF8.data.toList, entry 2 8 "00000000".toUTF8.data.toList]) :=
  ⟨(prefixes_unambiguous v3x5x8).1 [0x61, 0x14, 0x45, 0x81, 0x00] (by decide +kernel),
    (prefixes_unambiguous v3x5x8).2 _ (by decide)⟩

/-! ## There and back -/

theorem length_dropZeros_le (hex : List UInt8) : (dropZeros hex).length ≤ hex.length := by
  fun_induction dropZeros hex with
  | case1 high low hex _ ih => exact ih.trans (by simp [length_cons]; omega)
  | case2 => exact le_refl _
  | case3 => exact le_refl _

theorem length_dropZeros_iff {high low} {hex} (hne : hex ≠ []) :
    (dropZeros (high :: low :: hex)).length = hex.length + 2 ↔ high ≠ 48 := by
  rw [dropZeros]
  by_cases hzero : high = 48
  · rw [if_pos ⟨hzero, hne⟩]
    have hle := length_dropZeros_le hex
    exact iff_of_false (by omega) (not_not_intro hzero)
  · rw [if_neg fun h => hzero h.1]
    exact iff_of_true rfl hzero

theorem entity_eq_zero_iff : ∀ nibble < 16, Hex.entity nibble = 48 ↔ nibble = 0 := by decide

theorem length_prefixStr_iff (form : Form) :
    (prefixStr form).length = 8 ↔ form.prefixLen ≠ 0 ∧ 2 ^ 28 ≤ form.prefixBits.toNat := by
  unfold prefixStr
  split
  next hzero => exact iff_of_false (by simp) fun h => h.1 hzero
  next hpos =>
    have hbyte : (UInt8.ofNat (form.prefixBits.toNat / 2 ^ 24)).toNat = form.prefixBits.toNat / 2 ^ 24 := by
      rw [UInt8.toNat_ofNat']
      omega
    refine (length_dropZeros_iff (by rw [Hex.encode]; exact cons_ne_nil _ _)).trans ?_
    rw [ne_eq, entity_eq_zero_iff _ (by omega)]
    omega

theorem value_bigEndian32 (n : BitVec 32) :
    BitVec.ofNat 32 ((bigEndian32 n).foldl (fun n b => n * 256 + b.toNat) 0) = n := by
  apply BitVec.eq_of_toNat_eq
  simp only [bigEndian32, foldl_cons, foldl_nil, UInt8.toNat_ofNat', BitVec.toNat_ofNat]
  omega

theorem dropZeros_eq {hex} (h : (dropZeros hex).length = hex.length) : dropZeros hex = hex := by
  fun_induction dropZeros hex with
  | case1 high low hex _ _ =>
    have hle := length_dropZeros_le hex
    simp only [length_cons] at h
    omega
  | case2 => rfl
  | case3 => rfl

theorem decode_prefixStr {form} (h : (prefixStr form).length = 8) :
    Hex.decode (prefixStr form) = some (bigEndian32 form.prefixBits) := by
  have hpos := ((length_prefixStr_iff form).mp h).1
  unfold prefixStr at h ⊢
  rw [if_neg hpos] at h ⊢
  rw [dropZeros_eq h, Hex.decode_encode]

theorem formOf_entryOf {form} (hcount : form.bitCount < 2 ^ 16) (hlen : form.prefixLen < 2 ^ 16) :
    formOf (entryOf form) = some form ↔ form.prefixLen ≠ 0 ∧ 2 ^ 28 ≤ form.prefixBits.toNat := by
  have hform : formOf (entryOf form) = if (prefixStr form).length ≠ 8 then none
      else (Hex.decode (prefixStr form)).bind fun bytes => some
        { bitCount := ((form.bitCount : Int) % 2 ^ 16).toNat, prefixLen := ((form.prefixLen : Int) % 2 ^ 16).toNat
          prefixBits := BitVec.ofNat 32 (bytes.foldl (fun n b => n * 256 + b.toNat) 0) } := rfl
  have hfield : ∀ {n : Nat}, n < 2 ^ 16 → ((n : Int) % 2 ^ 16).toNat = n := fun h => by omega
  rw [hform, ← length_prefixStr_iff]
  by_cases hlength : (prefixStr form).length = 8
  · rw [if_neg (not_not_intro hlength), decode_prefixStr hlength, bind_some, hfield hcount, hfield hlen,
      value_bigEndian32]
    exact iff_of_true rfl hlength
  · rw [if_pos hlength]
    exact iff_of_false (some_ne_none _).symm hlength

theorem mapM_formOf_iff {scheme} : (asList scheme).mapM formOf = some scheme ↔
    ∀ form ∈ scheme, formOf (entryOf form) = some form := by
  induction scheme with
  | nil => exact iff_of_true rfl fun _ h => (nomatch h)
  | cons form scheme ih =>
    have hcons : asList (form :: scheme) = entryOf form :: asList scheme := rfl
    rw [forall_mem_cons, ← ih, hcons, mapM_cons]
    simp only [Option.bind_eq_bind, Option.pure_def, Option.bind_eq_some_iff, Option.some.injEq, List.cons.injEq]
    constructor
    · rintro ⟨_, hform, _, hrest, rfl, rfl⟩
      exact ⟨hform, hrest⟩
    · exact fun h => ⟨form, h.1, scheme, h.2, rfl, rfl⟩

/-- A scheme comes back from its list if and only if all its prefixes are written with eight digits. -/
theorem fromList_asList_iff (scheme : List Form) (hsane : isSane scheme = true) :
    fromList (asList scheme) = some scheme ↔
      ∀ form ∈ scheme, form.prefixLen ≠ 0 ∧ 2 ^ 28 ≤ form.prefixBits.toNat := by
  have hforms : ∀ form ∈ scheme, formOf (entryOf form) = some form ↔
      form.prefixLen ≠ 0 ∧ 2 ^ 28 ≤ form.prefixBits.toNat := by
    intro form hmem
    have hrange := inRange_of_mem hsane hmem
    have hcount := hrange.bitCount_le
    have hlen := hrange.prefixLen_le
    exact formOf_entryOf (by omega) (by omega)
  unfold fromList
  rw [filter_eq_some_iff, and_iff_left hsane, mapM_formOf_iff]
  exact forall₂_congr hforms

theorem fromList_asList_two_forms :
    fromList (asList [⟨3, 1, 0x10000001⟩, ⟨5, 2, 0x20000002⟩]) = some [⟨3, 1, 0x10000001⟩, ⟨5, 2, 0x20000002⟩] :=
  (fromList_asList_iff _ (by decide)).mpr (by decide)

/-- The prefixes of the default scheme are written as `01`, `02` and `00`. -/
theorem fromList_asList_v3x5x8 : isSane v3x5x8 = true ∧ fromList (asList v3x5x8) = none :=
  ⟨by decide, by decide⟩

end EncodingScheme

end Hyperboria
