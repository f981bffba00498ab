/-
The way an error goes. A switch that cannot pass a message on turns the label around as it is,
half used, and sends the error back where the message came from. The path still to go then lies
where the path gone was: each switch on the way back undoes what it did on the way there
(`forwarded_back`), and the first switch sees a 1 for its router with the rest of the label, bit
reversed, above it.

Over an interface with a wide number the first switch takes such a label for its router only if
there are zeros above the 1. `error_comes_home_iff` says which labels leave them.
-/
import Hyperboria.Switch.ReturnPath

namespace Hyperboria.Switch

open NumberCompress BitVec Nat

/-- An error that a message with this label meets on its way gets past the first switch: the interface the
message leaves it by has a narrow number, or the label is short enough. -/
def LeavesRoom (label : BitVec 64) : Prop :=
  let bits := bitsUsedForLabel label
  let sourceBits := bitsUsedForNumber (getDecompressed label bits)
  sourceBits = 4 ∨ label.toNat < 2 ^ (60 + bits - sourceBits)

theorem reverse_carry (F V : Nat) : (carry F V).reverse = carry V F := by
  apply eq_of_getLsbD_eq
  intro i hi
  rw [getLsbD_reverse, getMsbD_eq_getLsbD, getLsbD_carry _ _ _ hi, getLsbD_carry _ _ _ (by omega),
    show 63 - (64 - 1 - i) = i by omega, show 64 - 1 - i = 63 - i by omega, Bool.or_comm]
  simp [hi]

theorem carry_toNat_zero (l : BitVec 64) : carry l.toNat 0 = l := by
  simp [carry]

theorem travel_append {hs hs'} {m} :
    travel (hs ++ hs') m = (travel hs m).bind (travel hs') := by
  induction hs generalizing m with
  | nil => rfl
  | cons h hs ih =>
    simp only [List.cons_append, travel]
    split
    · split
      · exact ih
      · rfl
    · rfl

/-! ## One switch -/

variable {core : SwitchCore} {l : BitVec 64}

theorem Takes.link {s d b} (h : Takes core s d b l) (hd : d ≠ 1) :
    b = bitsUsedForLabel l ∧ Reads l (code d b) b := by
  cases h.width with
  | inl hw =>
    obtain ⟨-, rfl⟩ := hw
    refine ⟨rfl, ?_⟩
    have hreads := reads_getDecompressed l
    rw [h.dest] at hreads
    exact hreads
  | inr hw => exact absurd hw.2.2.1 hd

variable {b s : Nat} {header : SwitchHeader}

/-- The label a message leaves with, turned around: the director to go back by, and what is left of the
label. -/
theorem forwarded_reverse (hs : s < INTERFACES) (hb : Width b) (hf : bitsUsedForNumber s ≤ b) :
    (forwarded header s b).label.reverse = carry (code s b) (header.label.toNat / 2 ^ b) := by
  have hlabel := @forwarded_label header s b header.label.toNat 0 (carry_toNat_zero _).symm header.label.isLt hs hb hf
  rw [Nat.mul_zero, Nat.zero_add] at hlabel
  rw [hlabel, reverse_carry]

theorem rest_lt (hb : Width b) : l.toNat / 2 ^ b < 2 ^ (64 - b) := by
  have hle := Width.le hb
  have hl := l.isLt
  rw [Nat.div_lt_iff_lt_mul (Nat.two_pow_pos b), ← Nat.pow_add, Nat.sub_add_cancel (by omega)]
  exact hl

theorem forwarded_back {header back} {s d b} (h : Takes core s d b header.label) (hd : d ≠ 1)
    (hback : back.label = (forwarded header s b).label.reverse) :
    (forwarded back d b).label = header.label.reverse := by
  obtain ⟨hw, hs, hdb, hdlt⟩ := h.fits
  obtain ⟨-, hreads⟩ := h.link hd
  have hc := code_lt h.source hw hs
  have hle := Width.le hw
  have hc64 : code s b < 2 ^ 64 := Nat.lt_of_lt_of_le hc (Nat.pow_le_pow_right (by omega) (by omega))
  rw [forwarded_reverse h.source hw hs] at hback
  rw [forwarded_label hback hc64 hdlt hw hdb, div_eq_of_lt hc, ← hreads, div_add_mod,
    ← reverse_carry, carry_toNat_zero]

/-- A switch that took a message from one link to another takes the error back. -/
theorem Takes.back {h : Hop} (htk : Takes h.core h.inIf h.outIf b header.label) (hin : Usable h.core h.inIf)
    (hne : h.inIf ≠ 1) :
    Takes h.core h.outIf h.inIf b (forwarded header h.inIf b).label.reverse := by
  obtain ⟨hw, hs, hd, hdlt⟩ := htk.fits
  have hle := Width.le hw
  have hlabel := @forwarded_reverse _ _ header htk.source hw hs
  rw [show code h.inIf b = 2 ^ b * 0 + code h.inIf b by rw [Nat.mul_zero, Nat.zero_add]] at hlabel
  exact takes_back ⟨hw, hs, hd, htk.source, hdlt⟩ hin hne hlabel (rest_lt hw) (by omega)

/-! ## The links -/

/-- Links take an error back as they took the message there, and the label with it. -/
theorem travel_back {hs : List Hop} {payload payload' : List UInt8} {m : Packet}
    (hlinks : ∀ l ∈ hs, l.inIf ≠ 1 ∧ l.outIf ≠ 1 ∧ Usable l.core l.inIf)
    (ht : travel hs (.framed header payload) = some m) :
    ∃ out, m = .framed out payload ∧ header.getLabelShift ≤ out.getLabelShift ∧
      ∀ back : SwitchHeader, back.label = out.label.reverse →
        back.getLabelShift + (out.getLabelShift - header.getLabelShift) ≤ 63 →
        ∃ home, travel (wayBack hs) (.framed back payload') = some (.framed home payload') ∧
          home.label = header.label.reverse ∧
          home.getLabelShift = back.getLabelShift + (out.getLabelShift - header.getLabelShift) := by
  induction hs generalizing header with
  | nil =>
    cases ht
    refine ⟨header, rfl, le_rfl, fun back hback _ => ⟨back, rfl, hback, ?_⟩⟩
    rw [Nat.sub_self, Nat.add_zero]
  | cons h hs ih =>
    obtain ⟨b, htk, hle, ht⟩ := travel_cons ht
    obtain ⟨hin, hout, huse⟩ := hlinks h List.mem_cons_self
    obtain ⟨out, hm, hgrow, hhome⟩ := ih (fun l hl => hlinks l (List.mem_cons_of_mem _ hl)) ht
    have hshift := @forwarded_labelShift header h.inIf b hle
    rw [hshift] at hgrow hhome
    refine ⟨out, hm, by omega, fun back hback hroom => ?_⟩
    obtain ⟨home, htravel, hlabel, hhomeShift⟩ := hhome back hback (by omega)
    have htk' : Takes h.swap.core h.swap.inIf h.swap.outIf b home.label := by
      rw [hlabel]
      exact htk.back huse hin
    have hstep := @travel_cons_of h.swap [] home payload' b htk' (by omega)
    refine ⟨forwarded home h.outIf b, ?_, forwarded_back htk hout hlabel, ?_⟩
    · rw [show wayBack (h :: hs) = wayBack hs ++ [h.swap] by simp [wayBack], travel_append, htravel,
        Option.bind_some, hstep]
      rfl
    · rw [forwarded_labelShift (by omega), hhomeShift]
      omega

/-! ## The first switch -/

theorem carry_one_mod_iff {G k} (hk : 1 ≤ k) (hk' : k ≤ 64) (hG : G < 2 ^ 63) :
    (carry 1 G).toNat % 2 ^ k = 1 ↔ G < 2 ^ (64 - k) := by
  constructor
  · intro h
    refine Nat.lt_of_not_le fun hge => ?_
    -- a bit of the path gone that reaches down into these bits of the label
    obtain ⟨i, hi, hbit⟩ := Nat.exists_ge_and_testBit_of_ge_two_pow hge
    have hi63 : i < 63 := by
      refine Nat.lt_of_not_le fun h63 => ?_
      rw [Nat.testBit_lt_two_pow (Nat.lt_of_lt_of_le hG (Nat.pow_le_pow_right (by omega) h63))] at hbit
      cases hbit
    have hlow := getLsbD_carry 1 G (63 - i) (by omega)
    rw [show 63 - (63 - i) = i by omega, hbit, Bool.or_true] at hlow
    have hone := congrArg (testBit · (63 - i)) h
    simp only [testBit_mod_two_pow] at hone
    rw [show (carry 1 G).toNat.testBit (63 - i) = true from hlow, decide_eq_true (by omega),
      Nat.testBit_lt_two_pow (Nat.one_lt_two_pow (by omega))] at hone
    cases hone
  · intro h
    rw [carry_mod h (by omega)]
    exact Nat.mod_eq_of_lt (Nat.one_lt_two_pow (by omega))

/-- The check of the return path looks for a 1 with zeros above it. -/
theorem returnPath_clear_iff {sb} (hsb : sb + 4 ≤ 64) :
    (l ^^^ 1#64) &&& returnPathMask sb = 0 ↔ l.toNat % 2 ^ (sb + 4) = 1 := by
  refine ⟨fun h => ?_, returnPath_clear hsb⟩
  apply eq_of_testBit_eq
  intro i
  rw [testBit_mod_two_pow]
  by_cases hi : i < sb + 4
  · have hbit := congrArg (BitVec.getLsbD · i) h
    have hone : (1#64).getLsbD i = (1 : Nat).testBit i := by
      rw [getLsbD_ofNat]
      simp [show i < 64 by omega]
    simp only [returnPathMask, getLsbD_and, getLsbD_ushiftRight] at hbit
    rw [getLsbD_allOnes, decide_eq_true (show 64 - sb - 4 + i < 64 by omega)] at hbit
    simpa [hi, BitVec.getLsbD] using hbit
  · rw [decide_eq_false hi, Bool.false_and, Nat.testBit_lt_two_pow (Nat.one_lt_two_pow (by omega))]

variable {payload : List UInt8}

/-- The first switch takes an error for its router if and only if the label leaves room. -/
theorem home_iff {h : Hop} {header back : SwitchHeader} (hin : h.inIf = 1) (hout : h.outIf ≠ 1)
    (huse : Usable h.core h.inIf) (htk : Takes h.core h.inIf h.outIf b header.label)
    (hback : back.label = (forwarded header h.inIf b).label.reverse) (hshift : back.getLabelShift + b ≤ 63) :
    (∃ m, travel [h.swap] (.framed back payload) = some m) ↔ LeavesRoom header.label := by
  obtain ⟨hw, hs, hd, hdlt⟩ := htk.fits
  obtain ⟨hbits, -⟩ := htk.link hout
  have hsb := Width.le (bitsUsedForNumber_width h.outIf)
  rw [forwarded_reverse htk.source hw hs, hin, show code 1 b = 1 from if_pos rfl] at hback
  have hrest := @rest_lt header.label b hw
  have hG : header.label.toNat / 2 ^ b < 2 ^ 63 :=
    Nat.lt_of_lt_of_le hrest (Nat.pow_le_pow_right (by omega) (by omega))
  have hfour : back.label.toNat % 2 ^ 4 = 1 := by
    rw [hback, carry_one_mod_iff (by omega) (by omega) hG]
    exact Nat.lt_of_lt_of_le hrest (Nat.pow_le_pow_right (by omega) (by omega))
  have hwidth : bitsUsedForLabel back.label = 4 := by
    rw [bitsUsedForLabel_eq, if_pos (by omega)]
  have hdest : getDecompressed back.label (bitsUsedForLabel back.label) = 1 := by
    rw [hwidth, getDecompressed_four, if_pos (by omega)]
  have hroom : LeavesRoom header.label ↔ bitsUsedForNumber h.outIf = 4 ∨
      (back.label ^^^ 1#64) &&& returnPathMask (bitsUsedForNumber h.outIf) = 0 := by
    unfold LeavesRoom
    dsimp only
    rw [htk.dest, ← hbits, returnPath_clear_iff (by omega), hback, carry_one_mod_iff (by omega) (by omega) hG,
      Nat.div_lt_iff_lt_mul (Nat.two_pow_pos b), ← Nat.pow_add,
      show 64 - (bitsUsedForNumber h.outIf + 4) + b = 60 + b - bitsUsedForNumber h.outIf by omega]
  rw [hroom]
  constructor
  · intro htravel
    obtain ⟨m, hm⟩ := htravel
    obtain ⟨bits, htakes, -, -⟩ := travel_cons hm
    cases htakes.width with
    | inl hnarrow =>
      have hle4 : bitsUsedForNumber h.outIf ≤ bitsUsedForLabel back.label := hnarrow.1
      exact .inl (by omega)
    | inr hwide => exact .inr hwide.2.2.2
  · intro hcase
    have hhome : ∃ bits, bits ≤ b ∧ Takes h.swap.core h.swap.inIf h.swap.outIf bits back.label := by
      by_cases hnarrow : bitsUsedForNumber h.outIf = 4
      · exact ⟨4, by omega, hdlt, hdest.trans hin.symm, huse.added, .inl huse.up,
          .inl ⟨by rw [hwidth]; exact le_of_eq hnarrow, hwidth.symm⟩⟩
      · exact ⟨bitsUsedForNumber h.outIf, hd, hdlt, hdest.trans hin.symm, huse.added,
          .inl huse.up, .inr ⟨by rw [hwidth]; exact lt_of_le_of_ne hsb.1 (Ne.symm hnarrow), rfl,
            hin, hcase.resolve_left hnarrow⟩⟩
    obtain ⟨bits, hbits', htakes⟩ := hhome
    rw [travel_cons_of htakes (by omega)]
    exact ⟨_, rfl⟩

/-! ## The whole way -/

theorem error_header {e : ErrorPacket} (h : receiveMessage core s (.framed header payload) = .error e) :
    e.switchHeader.label = header.label.reverse ∧ e.switchHeader.getLabelShift = 0 := by
  have hsend : ∀ code, sendError header payload code = .error e →
      e.switchHeader.label = header.label.reverse ∧ e.switchHeader.getLabelShift = 0 := by
    intro code hcode
    unfold sendError at hcode
    split at hcode
    · cases hcode
    split at hcode
    · cases hcode
    · cases hcode
      refine ⟨Bits.bitReverse64_eq _, ?_⟩
      show (((BitVec.ofNat 8 1 <<< 6) ||| (0#8 &&& 0x3f#8)) &&& 0x3f#8).toNat = 0
      decide
  have hgo : ∀ (dest : SwitchInterface) (cond : Prop) [Decidable cond] (full : Prop) [Decidable full] (d : Nat)
      (m : Packet),
      (if dest.added = false then sendError header payload .malformedAddress
        else if dest.state = .down ∧ cond then sendError header payload .undeliverable
        else if full then Outcome.drop else .forward d m) = .error e →
      e.switchHeader.label = header.label.reverse ∧ e.switchHeader.getLabelShift = 0 := by
    intro dest cond _ full _ d m hcode
    split at hcode
    · exact hsend _ hcode
    split at hcode
    · exact hsend _ hcode
    split at hcode
    · cases hcode
    · cases hcode
  simp only [receiveMessage, (getDecompressed_fits header.label).1, not_true, if_false, not_wrongDiscriminator,
    Bits.bitReverse64_eq] at h
  by_cases hs : s < INTERFACES
  swap
  · rw [if_pos hs] at h
    cases h
  rw [if_neg (not_not_intro hs)] at h
  generalize getDecompressed header.label (bitsUsedForLabel header.label) = dest at h
  generalize bitsUsedForNumber s = sourceBits at h
  generalize bitsUsedForLabel header.label = bits at h
  split at h
  · split at h
    · split at h
      · exact hsend _ h
      · exact hgo _ _ _ _ _ h
    split at h
    · split at h
      · exact hsend _ h
      · exact hgo _ _ _ _ _ h
    · exact hsend _ h
  · exact hgo _ _ _ _ _ h

/-- An error that a switch of the chain behind the first one answers with comes home, through the interfaces
the message came by, if and only if the label that was sent leaves room for it. -/
theorem error_comes_home_iff (h : Hop) (hs : List Hop) (core : SwitchCore) (sourceIndex : Nat)
    (sent : SwitchHeader) (payload back : List UInt8) (m : Packet) (e : ErrorPacket) (hstart : h.inIf = 1)
    (hlinkIn : ∀ l ∈ hs, l.inIf ≠ 1) (hlinkOut : ∀ l ∈ h :: hs, l.outIf ≠ 1)
    (husable : ∀ l ∈ h :: hs, Usable l.core l.inIf ∧ Usable l.core l.outIf) (hshift : sent.getLabelShift = 0)
    (hthere : travel (h :: hs) (.framed sent payload) = some m)
    (herror : receiveMessage core sourceIndex m = .error e) :
    (∃ m', travel (wayBack (h :: hs)) (.framed e.switchHeader back) = some m') ↔ LeavesRoom sent.label := by
  obtain ⟨b, htk, hle, hthere⟩ := travel_cons hthere
  have hlinks : ∀ l ∈ hs, l.inIf ≠ 1 ∧ l.outIf ≠ 1 ∧ Usable l.core l.inIf := fun l hl =>
    ⟨hlinkIn l hl, hlinkOut l (List.mem_cons_of_mem _ hl), (husable l (List.mem_cons_of_mem _ hl)).1⟩
  obtain ⟨out, rfl, hgrow, hhome⟩ := @travel_back _ hs payload back m hlinks hthere
  obtain ⟨hlabel, hzero⟩ := error_header herror
  rw [forwarded_labelShift hle] at hgrow hhome
  have hout : out.getLabelShift ≤ 63 := by
    unfold SwitchHeader.getLabelShift
    exact le_trans (by rw [toNat_and]; exact and_le_right) (show (0x3f#8).toNat ≤ 63 by decide)
  obtain ⟨home, htravel, hhomeLabel, hhomeShift⟩ := hhome e.switchHeader hlabel (by omega)
  rw [show wayBack (h :: hs) = wayBack hs ++ [h.swap] by simp [wayBack], travel_append, htravel]
  exact home_iff hstart (hlinkOut h List.mem_cons_self) (husable h List.mem_cons_self).1 htk hhomeLabel
    (by omega)

/-- A switch with nothing but its router and one link, at slot 0. -/
def deadEnd : SwitchCore := SwitchCore.new.setInterface 0 ⟨true, .up⟩

/-- Out of slot 40 of the first switch, then by slot 5 of the dead end, which nobody has, and on. -/
def astray (rest : Nat) : SwitchHeader := ⟨BitVec.ofNat 64 (156 + 2 ^ 10 * 11 + 2 ^ 14 * rest), 0#8, 0#8, 0#16⟩

/-- The first switch, left by slot 40. -/
def wideHop : Hop := ⟨openSwitch, 1, 40⟩

/-- What the dead end answers. -/
def answered (rest : Nat) : ErrorPacket :=
  { switchHeader := ⟨(forwarded (astray rest) 1 10).label.reverse, 3#8, 0x40#8, 0xffff#16⟩, handle := 0xffffffff#32
    errorType := .malformedAddress, causeHeader := forwarded (astray rest) 1 10, causePayload := [0, 0, 0, 0] }

theorem error_comes_home_short :
    travel [wideHop] (.framed (astray 1) [0, 0, 0, 0]) = some (.framed (forwarded (astray 1) 1 10) [0, 0, 0, 0]) ∧
    receiveMessage deadEnd 0 (.framed (forwarded (astray 1) 1 10) [0, 0, 0, 0]) = .error (answered 1) ∧
    ∃ m, travel (wayBack [wideHop]) (.framed (answered 1).switchHeader []) = some m := by
  have hthere : travel [wideHop] (.framed (astray 1) [0, 0, 0, 0]) =
      some (.framed (forwarded (astray 1) 1 10) [0, 0, 0, 0]) := by decide +kernel
  have herror : receiveMessage deadEnd 0 (.framed (forwarded (astray 1) 1 10) [0, 0, 0, 0]) =
      .error (answered 1) := by decide +kernel
  have husable : ∀ l ∈ [wideHop], Usable l.core l.inIf ∧ Usable l.core l.outIf := by
    intro l hl
    cases List.mem_singleton.mp hl
    exact ⟨⟨by decide, rfl, rfl⟩, ⟨by decide, rfl, rfl⟩⟩
  exact ⟨hthere, herror, (error_comes_home_iff wideHop [] deadEnd 0 (astray 1) [0, 0, 0, 0] [] _ (answered 1) rfl
    (by simp) (by simp [wideHop]) husable (by decide) hthere herror).mpr (.inr (by decide +kernel))⟩

/-- The rest of a long label stands where the first switch looks for zeros. -/
theorem error_lost :
    (astray (2 ^ 48)).getLabelShift = 0 ∧ (astray (2 ^ 48)).getSuppressErrors = false ∧
    travel [wideHop] (.framed (astray (2 ^ 48)) [0, 0, 0, 0]) =
      some (.framed (forwarded (astray (2 ^ 48)) 1 10) [0, 0, 0, 0]) ∧
    receiveMessage deadEnd 0 (.framed (forwarded (astray (2 ^ 48)) 1 10) [0, 0, 0, 0]) =
      .error (answered (2 ^ 48)) ∧
    receiveMessage openSwitch 40 (.framed (answered (2 ^ 48)).switchHeader [0, 0, 0, 0]) = .drop ∧
    travel (wayBack [wideHop]) (.framed (answered (2 ^ 48)).switchHeader [0, 0, 0, 0]) = none := by
  decide +kernel

end Hyperboria.Switch
