/-
`EncodingScheme_convertLabel` to the canonical form. The search for the smallest form
takes a form whose prefix is not 1 to have one slot more than it has. That is so in the
3/5/8 scheme. In another scheme with several forms the slot after the last one of such a
form selects that form and does not fit, and the conversion fails although a later form has
the slot; a label that is not of that kind gets the lowest form that can hold its director
(`cannonical_iff`).
-/
import Hyperboria.Switch.DirectorCodec

namespace Hyperboria

open List Nat Er

namespace EncodingScheme

open Bits (log2x64 maxBits64)

/-- The label becomes one of the given form with the same director and the same rest, which is canonical; but if that
would be longer than 59 bits the conversion fails. -/
def Cannonicalised (scheme : List Form) (label : BitVec 64) (dir : BitVec 32) (form : Form) (i : Nat) (able : Form) : Prop :=
  if log2x64 (label >>> formSize form) + formSize able ≤ 59 then
    ∃ L, convertLabel scheme label CANNONICAL = .ret L ∧ L ≠ INVALID ∧ getFormNum scheme L = .ret (some i) ∧
      parseDirector scheme L = .ret dir ∧ L >>> formSize able = label >>> formSize form ∧
      convertLabel scheme L CANNONICAL = .ret L
  else convertLabel scheme label CANNONICAL = .ret INVALID

/-- The form with its prefix cut to its length. -/
def Form.cut (form : Form) : Form := { form with prefixBits := BitVec.ofNat 32 (form.prefixBits.toNat % 2 ^ form.prefixLen) }

/-- The label with a slot of the form in front of the rest of a path. -/
def rewritten (form : Form) (d : BitVec 32) (rest : BitVec 64) : BitVec 64 :=
  BitVec.ofNat 64 (form.cut.write d.toNat rest.toNat)

/-- The slot is not the one after the last slot of a form whose prefix is not 1; and the prefix of form `i` is no longer
than it says, or at least what is too long of it makes no difference to the label, and the label is of that form. -/
structure Rewritable (scheme : List Form) (i : Nat) (able : Form) (d : BitVec 32) (rest : BitVec 64) : Prop where
  room : ∀ g ∈ scheme, g.prefixBits.toNat % 2 ^ g.prefixLen ≠ 1 → d.toNat ≠ 2 ^ g.bitCount
  bits : rewritten able d rest ||| able.prefixBits.setWidth 64 = rewritten able d rest
  found : getFormNum scheme (rewritten able d rest) = .ret (some i)

/-! ## Several forms, other than 3/5/8 -/

section
variable {scheme : List Form} {form able : Form} {i k : Nat} {label : BitVec 64}

theorem Form.cut_bounds (h : form.InRange) : Scheme.Bounds form.cut := by
  have hlen := h.prefixLen_le
  refine ⟨h.bitCount_pos, h.bitCount_le, hlen, h.size_le, ?_⟩
  exact (Nat.mod_le _ _).trans_lt (Nat.mod_lt _ (Nat.two_pow_pos _))

theorem Form.cut_prefix (form : Form) : form.cut.prefixBits.toNat = form.prefixBits.toNat % 2 ^ form.prefixLen := by
  unfold Form.cut
  rw [BitVec.toNat_ofNat, mod_eq_of_lt ((mod_le _ _).trans_lt form.prefixBits.isLt)]

theorem cut_or_prefix (form : Form) :
    form.cut.prefixBits.setWidth 64 ||| form.prefixBits.setWidth 64 = form.prefixBits.setWidth 64 := by
  apply BitVec.eq_of_toNat_eq
  rw [BitVec.toNat_or, BitVec.toNat_setWidth_of_le (by decide), BitVec.toNat_setWidth_of_le (by decide), Form.cut_prefix]
  apply eq_of_testBit_eq
  intro k
  rw [testBit_or, testBit_mod_two_pow]
  cases form.prefixBits.toNat.testBit k with
  | false => simp
  | true => simp

variable (h : form.InRange)
include h

theorem toNat_setWidth_director {d : BitVec 64} (hd : d.toNat < 2 ^ form.bitCount) :
    (d.setWidth 32).toNat = d.toNat := by
  have hpow : 2 ^ form.bitCount ≤ 2 ^ 31 := Nat.pow_le_pow_right (by decide) h.bitCount_le
  rw [BitVec.toNat_setWidth, mod_eq_of_lt (by omega)]

variable {rest : BitVec 64}

theorem assembled_cut {d} (hd : d.toNat < 2 ^ form.bitCount)
    (hrest : log2x64 rest + formSize form ≤ 59) :
    (((rest <<< form.bitCount) ||| d) <<< form.prefixLen) ||| form.cut.prefixBits.setWidth 64 =
      rewritten form (d.setWidth 32) rest := by
  have hassembled := Scheme.assembled_toNat (Form.cut_bounds h) hd hrest
  apply BitVec.eq_of_toNat_eq
  rw [rewritten, BitVec.toNat_ofNat, toNat_setWidth_director h hd, ← hassembled, mod_eq_of_lt (BitVec.isLt _)]
  rfl

theorem assembled_eq {d} (hd : d.toNat < 2 ^ form.bitCount)
    (hrest : log2x64 rest + formSize form ≤ 59) :
    ((((rest <<< form.bitCount) ||| d) <<< form.prefixLen) ||| form.prefixBits.setWidth 64) =
      rewritten form (d.setWidth 32) rest ||| form.prefixBits.setWidth 64 := by
  rw [← assembled_cut h hd hrest, BitVec.or_assoc, cut_or_prefix]

variable {d : BitVec 32}

theorem rewritten_toNat (hd : d.toNat < 2 ^ form.bitCount)
    (hrest : log2x64 rest + formSize form ≤ 59) :
    (rewritten form d rest).toNat = form.cut.write d.toNat rest.toNat ∧ (rewritten form d rest).toNat < 2 ^ 60 := by
  have hlt := Scheme.write_lt (Form.cut_bounds h) hd hrest
  rw [rewritten, BitVec.toNat_ofNat, mod_eq_of_lt (by omega)]
  exact ⟨rfl, hlt⟩

variable {n : BitVec 64}

theorem roomy_iff :
    roomy n form = true ↔
      if form.prefixBits.toNat % 2 ^ form.prefixLen = 1 then n.toNat < 2 ^ form.bitCount else n.toNat ≤ 2 ^ form.bitCount := by
  obtain ⟨k, hk⟩ : ∃ k, form.bitCount = k + 1 := exists_eq_succ_of_ne_zero h.bitCount_pos.ne'
  unfold roomy
  rw [decide_eq_true_eq, hk]
  split
  · exact log2x64_le
  · rw [log2x64_le, narrow, pred_lt_iff (Nat.two_pow_pos _)]
    exact Nat.lt_succ_iff

omit h

/-- A conversion to the canonical form, where the code does nothing to the director. -/
theorem convertLabel_cannonical (hsane : isSane scheme = true) (h358 : is358 scheme = false) (hmany : scheme.length ≠ 1)
    (hk : scheme[k]? = some form) (hnum : getFormNum scheme label = .ret (some k))
    (hself : label.toNat % 2 ^ formSize form ≠ 1) :
    convertLabel scheme label CANNONICAL =
      match scheme.find? (roomy (directorOf form label)) with
      | none => .ret INVALID
      | some next => prepend next (directorOf form label) (label >>> form.prefixLen >>> form.bitCount) := by
  have hform := inRange_of_mem hsane (mem_of_getElem? hk)
  have hsize := hform.size_le
  have hcount := hform.bitCount_le
  unfold convertLabel
  rw [hnum, ret_bind, Option.bind_some, hk]
  dsimp only
  rw [if_neg hmany, startsWithSelf_eq (by omega), ret_bind, decide_eq_false hself, if_neg Bool.false_ne_true]
  unfold convertFrom targetForm decode
  rw [h358, maxBits64_eq (by omega), ret_bind, ← directorOf, if_pos Bool.not_false, ret_bind, if_pos rfl,
    cannonicalFrom_inRange _ _ fun form hform => inRange_of_mem hsane hform, ret_bind, ret_bind]
  simp only [add_zero, Option.map_id_fun', id_eq]
  rw [Scheme.find_eq_findIdx]
  cases scheme.find? (roomy (directorOf form label)) with
  | none => rfl
  | some next =>
    dsimp only
    unfold encode
    rw [h358, if_pos Bool.not_false, ret_bind]

theorem represents_iff (h358 : is358 scheme = false) (hform : form.InRange) {j} :
    Represents scheme j form (dirOfSlot scheme k d) ↔ d.toNat < 2 ^ form.bitCount := by
  unfold Represents dirOfSlot
  rw [h358, if_pos Bool.not_false]
  refine ⟨fun h => ?_, fun h => (xor_flip hform.bitCount_pos (flip_le scheme) h).1⟩
  have := (xor_flip hform.bitCount_pos (flip_le scheme) h).1
  rwa [BitVec.xor_assoc, BitVec.xor_self, BitVec.xor_zero] at this

section
variable {n : BitVec 64} (hsane : isSane scheme = true) (hi : scheme[i]? = some able)
  (hfits : n.toNat < 2 ^ able.bitCount)
  (hleast : ∀ (j : Nat) (g : Form), j < i → scheme[j]? = some g → 2 ^ g.bitCount ≤ n.toNat)
include hsane hi hfits hleast

/-- The search finds the lowest form that can hold the director, -/
theorem find_roomy (hroom : ∀ g ∈ scheme, g.prefixBits.toNat % 2 ^ g.prefixLen ≠ 1 → n.toNat ≠ 2 ^ g.bitCount) :
    scheme.find? (roomy n) = some able := by
  have hrange : ∀ {g}, g ∈ scheme → g.InRange := fun hg => inRange_of_mem hsane hg
  obtain ⟨hlt, hable⟩ := List.getElem?_eq_some_iff.mp hi
  refine find?_eq_some_iff_getElem.mpr ⟨?_, i, hlt, hable, fun j hj => ?_⟩
  · rw [roomy_iff (hrange (mem_of_getElem? hi))]
    split
    · exact hfits
    · exact hfits.le
  · have hget := getElem?_eq_getElem (hj.trans hlt)
    have hle := hleast j _ hj hget
    have hmem := mem_of_getElem? hget
    rw [Bool.not_eq_true', ← Bool.not_eq_true, roomy_iff (hrange hmem)]
    split
    · exact not_lt.mpr hle
    next hone =>
      have := hroom _ hmem hone
      omega

omit hi hfits hleast in
/-- unless there is a form whose prefix is not 1 and which is one slot short. -/
theorem find_roomy_short {g : Form} (hg : g ∈ scheme) (hone : g.prefixBits.toNat % 2 ^ g.prefixLen ≠ 1)
    (hn : n.toNat = 2 ^ g.bitCount) : scheme.find? (roomy n) = some g := by
  have hrange : ∀ {g : Form}, g ∈ scheme → g.InRange := fun hg => inRange_of_mem hsane hg
  obtain ⟨j, hj⟩ := mem_iff_getElem?.mp hg
  obtain ⟨hlt, hget⟩ := List.getElem?_eq_some_iff.mp hj
  refine find?_eq_some_iff_getElem.mpr ⟨?_, j, hlt, hget, fun c hc => ?_⟩
  · rw [roomy_iff (hrange hg), if_neg hone, hn]
  · have hgetc := getElem?_eq_getElem (hc.trans hlt)
    have hcount := Nat.pow_lt_pow_right (by decide : 1 < 2) (bitCount_lt hsane hgetc hj hc)
    rw [Bool.not_eq_true', ← Bool.not_eq_true, roomy_iff (hrange (mem_of_getElem? hgetc)), hn]
    split
    · omega
    · omega

end

theorem prepend_short (hform : form.InRange) (hn : n.toNat = 2 ^ form.bitCount) :
    prepend form n rest = .ret INVALID := by
  obtain ⟨b, hb⟩ : ∃ b, form.bitCount = b + 1 := exists_eq_succ_of_ne_zero hform.bitCount_pos.ne'
  have hlog := @log2x64_le n b
  unfold prepend
  rw [if_pos]
  rw [hb] at hn ⊢
  omega

theorem prepend_long (hlong : ¬ log2x64 rest + formSize form ≤ 59) :
    prepend form n rest = .ret INVALID := by
  unfold prepend
  split
  · rfl
  · rw [if_pos (Nat.lt_of_not_le hlong)]

theorem prepend_fits (hform : form.InRange) (hn : n.toNat < 2 ^ form.bitCount)
    (hrest : log2x64 rest + formSize form ≤ 59) :
    prepend form n rest =
      let L := rewritten form (n.setWidth 32) rest ||| form.prefixBits.setWidth 64
      .ret (if L.toNat % 2 ^ formSize form = 1 then INVALID else L) := by
  obtain ⟨b, hb⟩ : ∃ b, form.bitCount = b + 1 := exists_eq_succ_of_ne_zero hform.bitCount_pos.ne'
  have hlog := (@log2x64_le n b).mpr (by rwa [← hb])
  unfold prepend
  dsimp only
  rw [if_neg (by omega), if_neg (by omega), startsWithSelf_eq (by omega), ret_bind, assembled_eq hform hn hrest]
  simp only [decide_eq_true_eq]
  split
  · rfl
  · rfl

theorem shiftRight_size (form : Form) (label : BitVec 64) :
    label >>> form.prefixLen >>> form.bitCount = label >>> formSize form := by
  rw [← BitVec.shiftRight_add, formSize, add_comm]

variable (hform : form.InRange)
include hform

theorem directorOf_rewritten (hn : n.toNat < 2 ^ form.bitCount)
    (hrest : log2x64 rest + formSize form ≤ 59) : directorOf form (rewritten form (n.setWidth 32) rest) = n := by
  have hcount := hform.bitCount_le
  have hwidth := toNat_setWidth_director hform hn
  apply BitVec.eq_of_toNat_eq
  rw [directorOf_toNat (by omega), (rewritten_toNat hform (hwidth ▸ hn) hrest).1, hwidth]
  exact Form.director_write (Form.cut_bounds hform).fits hn

theorem rewritten_shiftRight (hd : d.toNat < 2 ^ form.bitCount)
    (hrest : log2x64 rest + formSize form ≤ 59) : rewritten form d rest >>> formSize form = rest := by
  apply BitVec.eq_of_toNat_eq
  rw [BitVec.toNat_ushiftRight, shiftRight_eq_div_pow, (rewritten_toNat hform hd hrest).1]
  exact @Form.rest_write form.cut _ _ (Form.cut_bounds hform).fits hd

theorem rewritten_not_self (hlen : 0 < form.prefixLen) (hpos : 0 < d.toNat)
    (hd : d.toNat < 2 ^ form.bitCount) (hrest : log2x64 rest + formSize form ≤ 59) :
    (rewritten form d rest).toNat % 2 ^ formSize form ≠ 1 := by
  have hfits := (Form.cut_bounds hform).fits
  have hwrite := (rewritten_toNat hform hd hrest).1
  have hreads : form.cut.Reads (rewritten form d rest).toNat := hwrite ▸ Form.reads_write hfits
  have hdirector : form.cut.director (rewritten form d rest).toNat = d.toNat := hwrite ▸ Form.director_write hfits hd
  have hlow := Form.write_director_zero hreads
  rw [hdirector] at hlow
  have htwo : 2 ≤ 2 ^ form.prefixLen := le_self_pow hlen.ne' 2
  have hge : 2 ≤ form.cut.write d.toNat 0 := by
    calc 2 ≤ 1 * 2 ^ form.prefixLen := by omega
      _ ≤ d.toNat * 2 ^ form.prefixLen := mul_le_mul_right _ hpos
      _ ≤ form.cut.write d.toNat 0 := by
        unfold Form.write
        rw [zero_mul, zero_add]
        exact le_add_right _ _
  have hsize : formSize form.cut = formSize form := rfl
  rw [hsize] at hlow
  omega

theorem eq_rewritten {L} (hmatch : form.Matches L) (hslot : slot form L = d)
    (hshift : L >>> formSize form = rest) (hd : d.toNat < 2 ^ form.bitCount)
    (hrest : log2x64 rest + formSize form ≤ 59) : L = rewritten form d rest := by
  have hlen := hform.prefixLen_le
  have hreads : form.cut.Reads L.toNat := by
    unfold Form.Reads
    rw [Form.cut_prefix]
    exact ((Form.matches_iff (by omega)).mp hmatch).symm
  have hdirector : form.cut.director L.toNat = d.toNat := by
    rw [← hslot, slot_toNat hform]
    rfl
  have hdiv : L.toNat / 2 ^ formSize form.cut = rest.toNat := by
    rw [← hshift, BitVec.toNat_ushiftRight, shiftRight_eq_div_pow]
    rfl
  have hwrite := Form.write_director_rest hreads
  rw [hdirector, hdiv] at hwrite
  apply BitVec.eq_of_toNat_eq
  rw [(rewritten_toNat hform hd hrest).1, hwrite]

omit hform

variable (hsane : isSane scheme = true) (h358 : is358 scheme = false) (hmany : scheme.length ≠ 1)
  (hk : scheme[k]? = some form) (hnum : getFormNum scheme label = .ret (some k))
  (hself : label.toNat % 2 ^ formSize form ≠ 1)
include hsane h358 hmany hk hnum hself

theorem convertLabel_found (hfind : scheme.find? (roomy (directorOf form label)) = some able)
    (hfits : (directorOf form label).toNat < 2 ^ able.bitCount)
    (hrest : log2x64 (label >>> formSize form) + formSize able ≤ 59) :
    convertLabel scheme label CANNONICAL =
      let L := rewritten able (slot form label) (label >>> formSize form) ||| able.prefixBits.setWidth 64
      .ret (if L.toNat % 2 ^ formSize able = 1 then INVALID else L) := by
  have hable := inRange_of_mem hsane (mem_of_find?_eq_some hfind)
  rw [convertLabel_cannonical hsane h358 hmany hk hnum hself, hfind]
  dsimp only
  rw [shiftRight_size, prepend_fits hable hfits hrest]
  rfl

/-- A label that is written with the slot of another one in front of what follows that, is canonical. -/
theorem Rewritable.cannonicalised (hi : scheme[i]? = some able)
    (hfind : scheme.find? (roomy (directorOf form label)) = some able)
    (hslot : 0 < (directorOf form label).toNat) (hfits : (directorOf form label).toNat < 2 ^ able.bitCount)
    (hrest : log2x64 (label >>> formSize form) + formSize able ≤ 59)
    (h : Rewritable scheme i able (slot form label) (label >>> formSize form)) :
    ∃ L, convertLabel scheme label CANNONICAL = .ret L ∧ L ≠ INVALID ∧ getFormNum scheme L = .ret (some i) ∧
      parseDirector scheme L = .ret (dirOfSlot scheme k (slot form label)) ∧
      L >>> formSize able = label >>> formSize form ∧ convertLabel scheme L CANNONICAL = .ret L := by
  have hable := inRange_of_mem hsane (mem_of_getElem? hi)
  have hlen : 0 < able.prefixLen := by
    rcases isSane_cases hsane with ⟨only, hone, -⟩ | ⟨-, hforms⟩
    · exact absurd (hone ▸ length_singleton) hmany
    · exact (inRange_of_isSaneForm (hforms i able hi)).1
  have hwidth : (slot form label).toNat = (directorOf form label).toNat := toNat_setWidth_director hable hfits
  have hnot := rewritten_not_self hable hlen (hwidth ▸ hslot) (hwidth ▸ hfits) hrest
  have hdirector : directorOf able (rewritten able (slot form label) (label >>> formSize form)) = directorOf form label :=
    directorOf_rewritten hable hfits hrest
  have hshift := rewritten_shiftRight hable (hwidth ▸ hfits) hrest
  have hread : slot able (rewritten able (slot form label) (label >>> formSize form)) = slot form label :=
    congrArg (BitVec.setWidth 32) hdirector
  refine ⟨rewritten able (slot form label) (label >>> formSize form), ?_, ?_, h.found, ?_, hshift, ?_⟩
  · rw [convertLabel_found hsane h358 hmany hk hnum hself hfind hfits hrest, h.bits]
    exact congrArg ret (if_neg hnot)
  · intro heq
    have hlt := (rewritten_toNat hable (hwidth ▸ hfits) hrest).2
    rw [heq] at hlt
    exact absurd hlt (by decide)
  · rw [parseDirector_eq hsane h.found hi, hread]
    unfold dirOfSlot
    rw [h358]
    rfl
  · rw [convertLabel_found hsane h358 hmany hi h.found hnot (hdirector ▸ hfind) (hdirector ▸ hfits)
      (by rwa [hshift]),
      hread, hshift, h.bits]
    exact congrArg ret (if_neg hnot)

theorem cannonical_iff_many (hslot : 0 < (slot form label).toNat)
    (hlowest : Lowest scheme (dirOfSlot scheme k (slot form label)) i able) :
    Cannonicalised scheme label (dirOfSlot scheme k (slot form label)) form i able ↔
      59 < log2x64 (label >>> formSize form) + formSize able ∨
        Rewritable scheme i able (slot form label) (label >>> formSize form) := by
  have hrange : ∀ {g : Form}, g ∈ scheme → g.InRange := fun hg => inRange_of_mem hsane hg
  have hform := hrange (mem_of_getElem? hk)
  have hable := hrange (mem_of_getElem? hlowest.get)
  have htoNat : (slot form label).toNat = (directorOf form label).toNat := by
    rw [slot_toNat hform, directorOf_toNat (by have := hform.bitCount_le; omega)]
    rfl
  have hfits : (directorOf form label).toNat < 2 ^ able.bitCount :=
    htoNat ▸ (represents_iff h358 hable).mp hlowest.holds
  have hleast : ∀ (j : Nat) (g : Form), j < i → scheme[j]? = some g → 2 ^ g.bitCount ≤ (directorOf form label).toNat := by
    intro j g hj hg
    have := hlowest.least j g hj hg
    rw [represents_iff h358 (hrange (mem_of_getElem? hg)), htoNat] at this
    exact Nat.le_of_not_lt this
  unfold Cannonicalised
  by_cases hroom : ∀ g ∈ scheme, g.prefixBits.toNat % 2 ^ g.prefixLen ≠ 1 → (slot form label).toNat ≠ 2 ^ g.bitCount
  · have hfind := find_roomy hsane hlowest.get hfits hleast (htoNat ▸ hroom)
    by_cases hrest : log2x64 (label >>> formSize form) + formSize able ≤ 59
    · rw [if_pos hrest, or_iff_right (not_lt.mpr hrest)]
      constructor
      · rintro ⟨L, hL, hne, hLnum, hparse, hshift, -⟩
        rw [convertLabel_found hsane h358 hmany hk hnum hself hfind hfits hrest] at hL
        replace hL := ret.inj hL
        split at hL
        · exact absurd hL.symm hne
        -- the label has the form, the slot and the rest, so it is as it should be
        obtain ⟨⟨g, hg, hmatch⟩, -⟩ := (getFormNum_some_iff hsane).mp hLnum
        cases hlowest.get.symm.trans hg
        rw [parseDirector_eq hsane hLnum hlowest.get] at hparse
        have hwrite := eq_rewritten hable hmatch (dirOfSlot_inj h358 (ret.inj hparse)) hshift (htoNat ▸ hfits) hrest
        exact ⟨hroom, hL.trans hwrite, hwrite ▸ hLnum⟩
      · intro h
        exact h.cannonicalised hsane h358 hmany hk hnum hself hlowest.get hfind (htoNat ▸ hslot) hfits hrest
    · rw [if_neg hrest, convertLabel_cannonical hsane h358 hmany hk hnum hself, hfind]
      dsimp only
      rw [shiftRight_size, prepend_long hrest]
      exact iff_of_true rfl (.inl (Nat.lt_of_not_le hrest))
  · -- the form that is found is one slot short
    obtain ⟨g, hg, hone, heq⟩ : ∃ g ∈ scheme, g.prefixBits.toNat % 2 ^ g.prefixLen ≠ 1 ∧
        (directorOf form label).toNat = 2 ^ g.bitCount := by
      push Not at hroom
      exact htoNat ▸ hroom
    have hinvalid : convertLabel scheme label CANNONICAL = .ret INVALID := by
      rw [convertLabel_cannonical hsane h358 hmany hk hnum hself, find_roomy_short hsane hg hone heq]
      exact prepend_short (hrange hg) heq
    by_cases hrest : log2x64 (label >>> formSize form) + formSize able ≤ 59
    · rw [if_pos hrest, or_iff_right (not_lt.mpr hrest), hinvalid]
      refine iff_of_false ?_ fun h => hroom h.room
      rintro ⟨L, hL, hne, -⟩
      exact hne (ret.inj hL).symm
    · rw [if_neg hrest]
      exact iff_of_true hinvalid (.inl (Nat.lt_of_not_le hrest))

end

/-! ## The 3/5/8 scheme, and one form -/

namespace Scheme

variable {S : Scheme} {form able : Form} {i k : Nat} {label : BitVec 64}

theorem number_lt (h358 : is358 S.forms = true) (hk : S.forms[k]? = some form) (x : BitVec 64) :
    (S.number form x).toNat ≤ 2 ^ 8 := by
  have hpow := two_pow_bitCount_le h358 hk
  have hd : (directorOf form x).toNat < 2 ^ 8 := by
    rw [directorOf_eq (bounds (mem_of_get hk))]
    exact Form.director_lt.trans_le hpow
  unfold number dec
  rw [if_pos h358]
  split
  · exact (swapSelf_lt (by decide) hd).le
  · unfold widen
    split
    · omega
    · bv_omega

variable {n : BitVec 64}

variable (h358 : is358 S.forms = true)
include h358

/-- The search of the 3/5/8 scheme finds the lowest form that has a slot. -/
theorem holds_iff_represents (hi : S.forms[i]? = some able) (hn : n.toNat ≤ 2 ^ 8)
    (hone : n ≠ 1#64) :
    holds able n = true ↔ Represents S.forms i able (n.setWidth 32) := by
  have hb := bounds (mem_of_get hi)
  have hwidth : (n.setWidth 32).toNat = n.toNat := by rw [BitVec.toNat_setWidth, mod_eq_of_lt (by omega)]
  have hne : n.setWidth 32 ≠ 1#32 := by bv_omega
  have hpre := one_iff h358 hi
  rw [← roomy_eq_holds hb, roomy_iff hb.inRange, mod_eq_of_lt hb.fits, Represents, hwidth]
  by_cases hzero : i = 0
  · rw [if_pos (of_decide_eq_true (hpre.trans (decide_eq_true hzero))), if_neg fun h => h.2.ne' hzero]
  · rw [if_neg (of_decide_eq_false (hpre.trans (decide_eq_false hzero))), if_pos ⟨h358, pos_of_ne_zero hzero⟩]
    exact (and_iff_right hne).symm

theorem target_lowest (hn : n.toNat ≤ 2 ^ 8) (hone : n ≠ 1#64)
    (hlowest : Lowest S.forms (n.setWidth 32) i able) : S.target n CANNONICAL = some able := by
  obtain ⟨hlt, hget⟩ := List.getElem?_eq_some_iff.mp hlowest.get
  unfold target
  refine find?_eq_some_iff_getElem.mpr ⟨(holds_iff_represents h358 hlowest.get hn hone).mpr hlowest.holds, i, hlt,
    hget, fun j hj => ?_⟩
  have hgetj := getElem?_eq_getElem (hj.trans hlt)
  rw [Bool.not_eq_true', ← Bool.not_eq_true, holds_iff_represents h358 hgetj hn hone]
  exact hlowest.least j _ hj hgetj

theorem enc_lt (hform : form ∈ S.forms) (h : holds form n = true) :
    (S.enc form n).toNat < 2 ^ form.bitCount := by
  have hb := bounds hform
  rw [← roomy_eq_holds hb, roomy_iff hb.inRange, mod_eq_of_lt hb.fits] at h
  unfold enc Form.one
  rw [if_pos h358]
  by_cases hone : form.prefixBits.toNat = 1
  · rw [if_pos hone] at h
    rw [if_pos (decide_eq_true hone)]
    exact swapSelf_lt (le_self_pow hb.bitCount_pos.ne' 2) h
  · rw [if_neg hone] at h
    rw [if_neg (fun h => hone (of_decide_eq_true h)), narrow, pred_lt_iff (Nat.two_pow_pos _)]
    exact lt_succ_of_le h

theorem write_enc_not_self (hi : S.forms[i]? = some form) {n} {rest}
    (hone : n ≠ 1#64) (hd : (S.enc form n).toNat < 2 ^ form.bitCount) :
    form.write (S.enc form n).toNat rest % 2 ^ formSize form ≠ 1 := by
  have hfits := (bounds (mem_of_get hi)).fits
  have hlow := Form.write_director_zero (@Form.reads_write form (S.enc form n).toNat rest hfits)
  rw [Form.director_write hfits hd, Form.write, zero_mul, zero_add] at hlow
  rw [← hlow]
  intro heq
  have hforms : S.forms = v3x5x8 := of_decide_eq_true h358
  have hlen : ∀ form ∈ v3x5x8, 2 ≤ 2 ^ form.prefixLen := by decide
  have htwo := hlen form (hforms ▸ mem_of_get hi)
  have hzero : (S.enc form n).toNat = 0 := by
    by_contra hne
    have := mul_le_mul_right (2 ^ form.prefixLen) (pos_of_ne_zero hne)
    omega
  have hpre : form.one = true := by
    rw [hzero, zero_mul, zero_add] at heq
    exact decide_eq_true heq
  unfold enc at hzero
  rw [if_pos h358, if_pos hpre] at hzero
  have hswap : swapSelf n = 0#64 := BitVec.eq_of_toNat_eq hzero
  exact hone ((swapSelf_swapSelf n).symm.trans (congrArg swapSelf hswap))

theorem cannonicalised_v358 (hk : S.forms[k]? = some form) (hreads : form.Reads label.toNat)
    (hself : label.toNat % 2 ^ formSize form ≠ 1)
    (hlowest : Lowest S.forms (S.interface (S.number form label)) i able) :
    Cannonicalised S.forms label (S.interface (S.number form label)) form i able := by
  have hforms : S.forms = v3x5x8 := of_decide_eq_true h358
  have hmany : S.forms.length ≠ 1 := by
    rw [hforms]
    decide
  have hone := number_ne_one (mem_of_get hk) hreads hself h358
  have hn := number_lt h358 hk label
  have hwidth : S.interface (S.number form label) = (S.number form label).setWidth 32 := if_pos h358
  have htarget := target_lowest h358 hn hone (hwidth ▸ hlowest)
  have hmem := mem_of_get hlowest.get
  have hb := bounds hmem
  have hd := enc_lt h358 hmem ((holds_iff_represents h358 hlowest.get hn hone).mpr (hwidth ▸ hlowest.holds))
  have hnot := fun rest => @write_enc_not_self S able i h358 hlowest.get _ rest hone hd
  have hconvert : convertLabel S.forms label CANNONICAL =
      .ret (prepended able (S.enc able (S.number form label)) (label >>> formSize form)) := by
    rw [convertLabel_eq, convert, find_reads (mem_of_get hk) hreads]
    dsimp only
    rw [if_neg (not_or.mpr ⟨hmany, hself⟩), htarget]
    rw [shiftRight_size]
  unfold Cannonicalised
  split
  next hrest =>
    have hwrite := prepended_eq hb hd hrest (hnot _)
    obtain ⟨L, hL⟩ : ∃ L, prepended able (S.enc able (S.number form label)) (label >>> formSize form) = L := ⟨_, rfl⟩
    rw [hL] at hwrite hconvert
    have hLreads : able.Reads L.toNat := hwrite ▸ Form.reads_write hb.fits
    have hnumber := number_write hmem (fun _ => hone) hd hwrite
    have hshift : L >>> formSize able = label >>> formSize form := by
      apply BitVec.eq_of_toNat_eq
      rw [BitVec.toNat_ushiftRight, shiftRight_eq_div_pow, hwrite, Form.rest_write hb.fits hd]
    refine ⟨L, hconvert, ?_, getFormNum_eq_some_iff.mpr ⟨able, hlowest.get, hLreads⟩, ?_, hshift, ?_⟩
    · intro heq
      have hlt := write_lt hb hd hrest
      rw [← hwrite, heq] at hlt
      exact absurd hlt (by decide)
    · rw [parseDirector_number hlowest.get hLreads, hnumber]
    · rw [convertLabel_eq, convert, find_reads hmem hLreads]
      dsimp only
      rw [if_neg (not_or.mpr ⟨hmany, hwrite ▸ hnot _⟩), hnumber, htarget]
      dsimp only
      rw [shiftRight_size, hshift, hL]
  next hrest =>
    rw [hconvert]
    exact congrArg ret (if_pos (.inr (.inl (Nat.lt_of_not_le hrest))))

omit h358

theorem cannonicalised_one (hone : S.forms.length = 1) (hk : S.forms[k]? = some form) (hreads : form.Reads label.toNat)
    (hlog : log2x64 label ≤ 59) (hlowest : Lowest S.forms (S.interface (S.number form label)) i able) :
    Cannonicalised S.forms label (S.interface (S.number form label)) form i able := by
  have hkzero : k = 0 := by
    have := (List.getElem?_eq_some_iff.mp hk).1
    omega
  have hizero : i = 0 := by
    have := (List.getElem?_eq_some_iff.mp hlowest.get).1
    omega
  subst hkzero hizero
  cases hk.symm.trans hlowest.get
  have hconvert : convertLabel S.forms label CANNONICAL = .ret label := by
    rw [convertLabel_eq, convert, find_reads (mem_of_get hk) hreads]
    dsimp only
    rw [if_pos (.inl hone), if_pos (.inr rfl)]
  have hrest := log2_rest_le (bounds (mem_of_get hk)) hlog
  rw [shiftRight_size] at hrest
  unfold Cannonicalised
  rw [if_pos hrest]
  refine ⟨label, hconvert, ?_, getFormNum_eq_some_iff.mpr ⟨form, hk, hreads⟩, parseDirector_number hk hreads, rfl, hconvert⟩
  intro heq
  rw [heq] at hlog
  exact absurd hlog (by decide)

/-- With prefixes that are no longer than they say, only the slot after the last one matters. -/
theorem rewritable_iff {d : BitVec 32} {rest : BitVec 64} (hi : S.forms[i]? = some able)
    (hd : d.toNat < 2 ^ able.bitCount) (hrest : log2x64 rest + formSize able ≤ 59) :
    Rewritable S.forms i able d rest ↔ ∀ g ∈ S.forms, g.prefixBits.toNat ≠ 1 → d.toNat ≠ 2 ^ g.bitCount := by
  have hb := bounds (mem_of_get hi)
  have hroom : (∀ g ∈ S.forms, g.prefixBits.toNat % 2 ^ g.prefixLen ≠ 1 → d.toNat ≠ 2 ^ g.bitCount) ↔
      ∀ g ∈ S.forms, g.prefixBits.toNat ≠ 1 → d.toNat ≠ 2 ^ g.bitCount :=
    forall₂_congr fun g hg => by rw [mod_eq_of_lt (bounds hg).fits]
  rw [← hroom]
  have hcut : able.cut = able := by
    unfold Form.cut
    rw [mod_eq_of_lt hb.fits, BitVec.ofNat_toNat, BitVec.setWidth_eq]
  refine ⟨fun h => h.room, fun h => ⟨h, ?_, getFormNum_eq_some_iff.mpr ⟨able, hi, ?_⟩⟩⟩
  · have hwide : (d.setWidth 64).toNat < 2 ^ able.bitCount := by rwa [BitVec.toNat_setWidth_of_le (by decide)]
    have hassembled := assembled_cut hb.inRange hwide hrest
    rw [hcut, assembled_eq hb.inRange hwide hrest] at hassembled
    simpa using hassembled
  · rw [(rewritten_toNat hb.inRange hd hrest).1, hcut]
    exact Form.reads_write hb.fits

end Scheme

/-! ## Any scheme -/

section
variable {scheme : List Form} {form : Form} {k : Nat}

theorem exists_lowest {dir} (hk : scheme[k]? = some form) (hrep : Represents scheme k form dir) :
    ∃ i able, Lowest scheme dir i able := by
  have hex : ∃ i, ∃ able, scheme[i]? = some able ∧ Represents scheme i able dir := ⟨k, form, hk, hrep⟩
  classical
  obtain ⟨able, hable, hholds⟩ := Nat.find_spec hex
  exact ⟨_, able, hable, hholds, fun j g hj hg hrep => Nat.find_min hex hj ⟨g, hg, hrep⟩⟩

theorem exists_scheme (hsane : isSane scheme = true) (h : scheme.length = 1 ∨ is358 scheme = true) :
    ∃ S : Scheme, S.forms = scheme := by
  rcases h with hone | h358
  · rcases isSane_cases hsane with ⟨only, rfl, hlen, hpre, -⟩ | ⟨hmany, -⟩
    · refine ⟨⟨[only], hsane, fun form hform => ?_⟩, rfl⟩
      rw [mem_singleton.mp hform, hlen, hpre]
      decide
    · exact absurd hone hmany
  · exact ⟨.v358, (of_decide_eq_true h358 : scheme = v3x5x8).symm⟩

end

/-- A label whose first director is not that of the router itself becomes one in the lowest form that can hold the
director, with the same director and the same rest: under a scheme with one form and under the 3/5/8 scheme always, and
under any other one just if the label is longer than 59 bits then or the slot can be rewritten. -/
theorem cannonical_iff (scheme : List Form) (hsane : isSane scheme = true) (label : BitVec 64)
    (hlog : log2x64 label ≤ 59) (k : Nat) (form : Form) (hk : scheme[k]? = some form)
    (hnum : getFormNum scheme label = .ret (some k)) (hself : isSelfRoute scheme label = .ret false) (dir : BitVec 32)
    (hdir : parseDirector scheme label = .ret dir) (hne : dir ≠ 1#32) :
    ∃ i able, Lowest scheme dir i able ∧
      (Cannonicalised scheme label dir form i able ↔
        scheme.length = 1 ∨ is358 scheme = true ∨ 59 < log2x64 (label >>> formSize form) + formSize able ∨
          Rewritable scheme i able (slot form label) (label >>> formSize form)) := by
  have hform := inRange_of_mem hsane (mem_of_getElem? hk)
  have hslot : (slot form label).toNat < 2 ^ form.bitCount := by
    rw [slot_toNat hform]
    exact Form.director_lt
  have hparse := parseDirector_eq hsane hnum hk
  cases hparse.symm.trans hdir
  have hnot : label.toNat % 2 ^ formSize form ≠ 1 := by
    have hsize := hform.size_le
    unfold isSelfRoute at hself
    rw [hnum, ret_bind, Option.bind_some, hk] at hself
    dsimp only at hself
    rw [startsWithSelf_eq (by omega)] at hself
    exact of_decide_eq_false (ret.inj hself)
  obtain ⟨i, able, hlowest⟩ := exists_lowest hk (dirOfSlot_spec hform hk hslot).1
  refine ⟨i, able, hlowest, ?_⟩
  by_cases heasy : scheme.length = 1 ∨ is358 scheme = true
  · obtain ⟨S, rfl⟩ := exists_scheme hsane heasy
    obtain ⟨g, hg, hreads⟩ := Scheme.getFormNum_eq_some_iff.mp hnum
    cases hk.symm.trans hg
    rw [← or_assoc]
    refine iff_of_true ?_ (.inl heasy)
    rw [Scheme.dirOfSlot_eq_interface hk] at hlowest ⊢
    rcases heasy with hone | h358
    · exact Scheme.cannonicalised_one hone hk hreads hlog hlowest
    · exact Scheme.cannonicalised_v358 h358 hk hreads hnot hlowest
  · rw [not_or, Bool.not_eq_true] at heasy
    obtain ⟨hmany, h358⟩ := heasy
    rw [or_iff_right hmany, h358, or_iff_right Bool.false_ne_true]
    refine cannonical_iff_many hsane h358 hmany hk hnum hnot (pos_of_ne_zero fun hzero => hne ?_) hlowest
    have hlen : 1 < scheme.length := by
      have := (List.getElem?_eq_some_iff.mp hk).1
      omega
    have hslot0 : slot form label = 0#32 := BitVec.eq_of_toNat_eq hzero
    unfold dirOfSlot
    rw [h358, hslot0, if_pos hlen]
    rfl

/-- Slot 4 of the second form is found to have room in the first form, which has the slots 0 to 3. -/
theorem slot_after_last :
    let scheme : List Form := [⟨2, 1, 0⟩, ⟨3, 1, 1⟩]
    isSane scheme = true ∧ (∀ form ∈ scheme, form.prefixBits.toNat < 2 ^ form.prefixLen) ∧ log2x64 0x19 ≤ 59 ∧
      getFormNum scheme 0x19 = .ret (some 1) ∧ isSelfRoute scheme 0x19 = .ret false ∧
      parseDirector scheme 0x19 = .ret 5 ∧ Lowest scheme 5 1 ⟨3, 1, 1⟩ ∧
      log2x64 ((0x19 : BitVec 64) >>> formSize ⟨3, 1, 1⟩) + formSize ⟨3, 1, 1⟩ ≤ 59 ∧
      convertLabel scheme 0x19 CANNONICAL = .ret INVALID ∧ ¬ Cannonicalised scheme 0x19 5 ⟨3, 1, 1⟩ 1 ⟨3, 1, 1⟩ := by
  have hinvalid : convertLabel [⟨2, 1, 0⟩, ⟨3, 1, 1⟩] 0x19 CANNONICAL = .ret INVALID := by decide
  refine ⟨by decide, by decide, by decide, by decide, by decide, by decide, ⟨rfl, by decide, fun j g hj hg => ?_⟩,
    by decide, hinvalid, fun h => ?_⟩
  · obtain rfl : j = 0 := by omega
    cases hg
    decide
  · obtain ⟨L, hL, hne, -⟩ := h
    exact hne (ret.inj (hL.symm.trans hinvalid))

theorem cannonical_iff_slot_five :
    ∃ i able, Lowest [⟨2, 1, 0⟩, ⟨3, 1, 1⟩] 4 i able ∧
      (Cannonicalised [⟨2, 1, 0⟩, ⟨3, 1, 1⟩] 0x1b 4 ⟨3, 1, 1⟩ i able ↔
        ([⟨2, 1, 0⟩, ⟨3, 1, 1⟩] : List Form).length = 1 ∨ is358 [⟨2, 1, 0⟩, ⟨3, 1, 1⟩] = true ∨
          59 < log2x64 ((0x1b : BitVec 64) >>> formSize ⟨3, 1, 1⟩) + formSize able ∨
          Rewritable [⟨2, 1, 0⟩, ⟨3, 1, 1⟩] i able (slot ⟨3, 1, 1⟩ 0x1b) ((0x1b : BitVec 64) >>> formSize ⟨3, 1, 1⟩)) :=
  cannonical_iff _ (by decide) 0x1b (by decide) 1 ⟨3, 1, 1⟩ rfl (by decide) (by decide) 4 (by decide) (by decide)

end EncodingScheme

end Hyperboria
