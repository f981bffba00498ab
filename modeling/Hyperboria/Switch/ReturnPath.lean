/-
The way back. A switch shifts the director it has used out at the low end of the
label and writes the director of the interface the message came from, bit
reversed, into the high end. So a label is at every hop two numbers in one word
(`carry`): the path still to go, and, read from the other end, the path already
gone. `carry_step` is one hop; `forward_legs` follows a message along a chain and
says what the far router sees; `back_legs` sends that label back.

`return_path`: a label that takes a message to the last router of a chain, bit
reversed there, takes a message back through the same interfaces. The room for
it is the shift limit of 63 together with the three zeros above the 1 that the
last router, as source, writes for itself.
-/
import Hyperboria.Switch.SwitchCore

namespace Hyperboria.Switch

open NumberCompress List BitVec Nat

/-! ## Two paths in one word -/

/-- The path to go `F` at the low end, the path gone `V` bit reversed at the high end. -/
def carry (F V : Nat) : BitVec 64 := BitVec.ofNat 64 F ||| (BitVec.ofNat 64 V).reverse

@[simp] theorem reverse_zero : (0#64).reverse = 0#64 := reverse_eq_zero_iff.mpr rfl

theorem getLsbD_carry (F V i : Nat) (hi : i < 64) :
    (carry F V).getLsbD i = (F.testBit i || V.testBit (63 - i)) := by
  have h : 63 - i < 64 := by omega
  rw [carry, getLsbD_or, getLsbD_ofNat, getLsbD_reverse,
    getMsbD_eq_getLsbD, getLsbD_ofNat]
  simp [hi, h]

variable {F V b : Nat}

/-- A hop moves `b` bits from one end to the other. -/
theorem carry_step {c} (hF : F < 2 ^ 64) (hc : c < 2 ^ b) :
    (carry F V >>> b) ||| (BitVec.ofNat 64 c).reverse = carry (F / 2 ^ b) (2 ^ b * V + c) := by
  apply eq_of_getLsbD_eq
  intro i hi
  have h63 : 63 - i < 64 := by omega
  rw [getLsbD_carry _ _ _ hi, testBit_two_pow_mul_add _ hc, testBit_div_two_pow,
    getLsbD_or, getLsbD_ushiftRight, getLsbD_reverse, getMsbD_eq_getLsbD,
    getLsbD_ofNat]
  by_cases hlt : b + i < 64
  · -- below the freed bits: the old word, shifted
    have hc0 : c.testBit (63 - i) = false :=
      testBit_lt_two_pow (Nat.lt_of_lt_of_le hc (Nat.pow_le_pow_right (by omega) (by omega)))
    have hge : ¬ 63 - i < b := by omega
    rw [getLsbD_carry _ _ _ hlt]
    have he : 63 - i - b = 63 - (b + i) := by omega
    simp [hc0, hge, he, Nat.add_comm i b]
  · -- the freed bits: the director of the source
    have hF0 : F.testBit (i + b) = false :=
      testBit_lt_two_pow (Nat.lt_of_lt_of_le hF (Nat.pow_le_pow_right (by omega) (by omega)))
    have hl : 63 - i < b := by omega
    rw [getLsbD_of_ge _ _ (by omega)]
    simp [hi, hF0, hl, h63]

variable {B : Nat}

/-- The low bits of the word are the path to go, up to where the path gone begins. -/
theorem carry_mod {k} (hV : V < 2 ^ B) (hk : k + B ≤ 64) :
    (carry F V).toNat % 2 ^ k = F % 2 ^ k := by
  apply eq_of_testBit_eq
  intro i
  rw [testBit_mod_two_pow, testBit_mod_two_pow]
  by_cases hi : i < k
  · have hv : V.testBit (63 - i) = false :=
      testBit_lt_two_pow (Nat.lt_of_lt_of_le hV (Nat.pow_le_pow_right (by omega) (by omega)))
    have h := getLsbD_carry F V i (by omega)
    rw [hv, Bool.or_false] at h
    simp only [hi]
    exact h
  · simp [hi]

theorem reverse_carry_zero (V : Nat) : (carry 0 V).reverse = carry V 0 := by
  simp [carry]

/-! ## Chains of switches -/

/-- One switch of a chain, with the interface the message comes in on and the one it leaves by. -/
structure Hop where
  core : SwitchCore
  inIf : Nat
  outIf : Nat

/-- The hop in the other direction. -/
def Hop.swap (h : Hop) : Hop := { h with inIf := h.outIf, outIf := h.inIf }

/-- An interface that is added and UP. -/
structure Usable (core : SwitchCore) (i : Nat) : Prop where
  lt : i < INTERFACES
  added : (core.interfaces i).added = true
  up : (core.interfaces i).state = .up

/-- A chain from the router interface of its first switch to that of its last; between two
switches the message is on a link, not at a router. -/
structure Chain (hs : List Hop) : Prop where
  start : hs.head?.map Hop.inIf = some 1
  finish : hs.getLast?.map Hop.outIf = some 1
  linkIn : ∀ h ∈ hs.tail, h.inIf ≠ 1
  linkOut : ∀ h ∈ hs.dropLast, h.outIf ≠ 1
  usable : ∀ h ∈ hs, Usable h.core h.inIf ∧ Usable h.core h.outIf

/-- The same chain from the other end. -/
def wayBack (hs : List Hop) : List Hop := (hs.map Hop.swap).reverse

/-- Send a message along the hops: each switch has to forward it out of the hop's interface. -/
def travel : List Hop → Packet → Option Packet
  | [], m => some m
  | h :: hs, m =>
    match receiveMessage h.core h.inIf m with
    | .forward d m' => if d = h.outIf then travel hs m' else none
    | _ => none

/-- A director: a code of one of the three widths whose low bits announce that width. -/
structure Director where
  width : Nat
  code : BitVec 64
  announces : bitsUsedForLabel code = width
  lt : code.toNat < 2 ^ width

/-- `director_1 | director_2 | ... | 1 << T`. -/
def pathOf : List Director → Nat
  | [] => 1
  | d :: ds => 2 ^ d.width * pathOf ds + d.code.toNat

variable {h : Hop}

theorem travel_cons {hs} {header} {payload} {m}
    (ht : travel (h :: hs) (.framed header payload) = some m) :
    ∃ bits, Takes h.core h.inIf h.outIf bits header.label ∧ header.getLabelShift + bits ≤ 63 ∧
      travel hs (.framed (forwarded header h.inIf bits) payload) = some m := by
  simp only [travel] at ht
  split at ht
  · next d m' hr =>
    split at ht
    · next hd =>
      subst hd
      obtain ⟨bits, htk, hle, rfl⟩ := receiveMessage_forward_iff.mp hr
      exact ⟨bits, htk, hle, ht⟩
    · cases ht
  · cases ht

theorem travel_cons_of {h} {hs} {header} {payload}
    {bits} (htk : Takes h.core h.inIf h.outIf bits header.label)
    (hle : header.getLabelShift + bits ≤ 63) :
    travel (h :: hs) (.framed header payload) =
      travel hs (.framed (forwarded header h.inIf bits) payload) := by
  have hr : receiveMessage h.core h.inIf (.framed header payload) =
      .forward h.outIf (.framed (forwarded header h.inIf bits) payload) :=
    receiveMessage_forward_iff.mpr ⟨bits, htk, hle, rfl⟩
  simp only [travel, hr, if_true]

/-! ## Legs: the hops of a journey with the bits each one spent -/

/-- Both interfaces of the hop fit in the bits it spent. -/
structure Leg.Fits (l : Hop × Nat) : Prop where
  width : Width l.2
  inFits : bitsUsedForNumber l.1.inIf ≤ l.2
  outFits : bitsUsedForNumber l.1.outIf ≤ l.2
  inLt : l.1.inIf < INTERFACES
  outLt : l.1.outIf < INTERFACES

/-- The path gone after the legs, having gone `V` before. -/
def gone (V : Nat) : List (Hop × Nat) → Nat
  | [] => V
  | (h, b) :: ls => gone (2 ^ b * V + code h.inIf b) ls

/-- The bits the legs spent. -/
def spent (ls : List (Hop × Nat)) : Nat := (ls.map Prod.snd).sum

@[simp] theorem spent_nil : spent [] = 0 := rfl

@[simp] theorem spent_cons (l : Hop × Nat) (ls : List (Hop × Nat)) : spent (l :: ls) = l.2 + spent ls := by
  simp [spent]

@[simp] theorem spent_append (ls ls' : List (Hop × Nat)) : spent (ls ++ ls') = spent ls + spent ls' := by
  simp [spent]

theorem gone_append (V : Nat) (ls : List (Hop × Nat)) (h : Hop) (b : Nat) :
    gone V (ls ++ [(h, b)]) = 2 ^ b * gone V ls + code h.inIf b := by
  induction ls generalizing V with
  | nil => rfl
  | cons l ls ih => exact ih _

theorem push_lt {c} (hV : V < 2 ^ B) (hc : c < 2 ^ b) : 2 ^ b * V + c < 2 ^ (B + b) := by
  rw [Nat.add_comm, Nat.add_comm B]
  exact Bits.add_mul_lt hc hV

theorem gone_lt {ls} (hf : ∀ l ∈ ls, Leg.Fits l) (hV : V < 2 ^ B) :
    gone V ls < 2 ^ (B + spent ls) := by
  induction ls generalizing V B with
  | nil => simpa [gone] using hV
  | cons l ls ih =>
    obtain ⟨h, b⟩ := l
    have hl := hf (h, b) (by simp)
    have := ih (fun l hm => hf l (by simp [hm])) (push_lt hV (code_lt hl.inLt hl.width hl.inFits))
    rw [spent_cons, ← Nat.add_assoc]
    exact this

theorem Width.le (h : Width b) : 4 ≤ b ∧ b ≤ 10 := by
  rcases h with rfl | rfl | rfl <;> omega

variable {l : BitVec 64}

theorem bitsUsedForLabel_congr {l'} (h : l.toNat % 2 ^ 2 = l'.toNat % 2 ^ 2) :
    bitsUsedForLabel l = bitsUsedForLabel l' := by
  have h0 : l.toNat % 2 = l'.toNat % 2 := by omega
  have h1 : l.toNat / 2 % 2 = l'.toNat / 2 % 2 := by omega
  rw [bitsUsedForLabel_eq, bitsUsedForLabel_eq, h0, h1]

theorem Takes.fits {core} {s d} (h : Takes core s d b l) :
    Width b ∧ bitsUsedForNumber s ≤ b ∧ bitsUsedForNumber d ≤ b ∧ d < INTERFACES := by
  have hd := getDecompressed_fits l
  rw [h.dest] at hd
  rcases h.width with ⟨hle, rfl⟩ | ⟨-, rfl, rfl, -⟩
  · exact ⟨bitsUsedForLabel_width l, hle, hd.2, hd.1⟩
  · refine ⟨bitsUsedForNumber_width s, le_rfl, ?_, hd.1⟩
    exact (Width.le (bitsUsedForNumber_width s)).1

theorem forwarded_label {header} {s b F V} (hl : header.label = carry F V)
    (hF : F < 2 ^ 64) (hs : s < INTERFACES) (hb : Width b) (hf : bitsUsedForNumber s ≤ b) :
    (forwarded header s b).label = carry (F / 2 ^ b) (2 ^ b * V + code s b) := by
  have hc : getCompressed s b = BitVec.ofNat 64 (code s b) := by
    rw [← getCompressed_toNat hs hb, ofNat_toNat, setWidth_eq]
  simp only [forwarded, hl, hc]
  exact carry_step hF (code_lt hs hb hf)

theorem forwarded_labelShift {header} {s b} (h : header.getLabelShift + b ≤ 63) :
    (forwarded header s b).getLabelShift = header.getLabelShift + b := by
  exact SwitchHeader.getLabelShift_setLabelShift _ (by omega)

/-! ## There -/

/-- Away from the last switch the bits spent are those of the director. -/
theorem Takes.director {core} {s d} {dir} {ds} (h : Takes core s d b l)
    (hd : d ≠ 1) (hl : l = carry (pathOf (dir :: ds)) V) (hV : V < 2 ^ B) (hB : B + b ≤ 63) : b = dir.width := by
  rcases h.width with ⟨-, rfl⟩ | ⟨-, -, h1, -⟩
  swap
  · exact absurd h1 hd
  have hw := Width.le (bitsUsedForLabel_width l)
  have hdw : 4 ≤ dir.width := by
    rw [← dir.announces]; exact (Width.le (bitsUsedForLabel_width _)).1
  rw [← dir.announces]
  apply bitsUsedForLabel_congr
  rw [hl, carry_mod hV (by omega), pathOf]
  obtain ⟨k, hk⟩ : ∃ k, dir.width = k + 2 := ⟨dir.width - 2, by omega⟩
  rw [hk, Nat.pow_add, Nat.mul_comm (2 ^ k), Nat.mul_assoc, mul_add_mod]

/-- A journey to the far router: the legs it was made of and the label it ends with. -/
theorem forward_legs : ∀ {hs : List Hop} {ds : List Director} {V B : Nat} {header : SwitchHeader}
    {payload : List UInt8} {m : Packet}, ds.length + 1 = hs.length →
    (∀ h ∈ hs.dropLast, h.outIf ≠ 1) → header.label = carry (pathOf ds) V → pathOf ds < 2 ^ 64 →
    V < 2 ^ B → header.getLabelShift = B → travel hs (.framed header payload) = some m →
    ∃ ls : List (Hop × Nat), ls.map Prod.fst = hs ∧ (∀ l ∈ ls, Leg.Fits l) ∧ B + spent ls ≤ 63 ∧
      ∃ out, m = .framed out payload ∧ out.label = carry 0 (gone V ls)
  | [], _, _, _, _, _, _, hlen, _, _, _, _, _, _ => by simp at hlen
  | [h], [], V, B, header, payload, m, _, _, hl, hF, _, hB, ht => by
    obtain ⟨b, htk, hle, ht⟩ := travel_cons ht
    obtain ⟨hw, hs, hd, hdlt⟩ := htk.fits
    simp only [travel, Option.some.injEq] at ht
    refine ⟨[(h, b)], rfl, ?_, by simpa [hB] using hle, _, ht.symm, ?_⟩
    · intro l hm
      simp only [mem_singleton] at hm
      subst hm
      exact ⟨hw, hs, hd, htk.source, hdlt⟩
    · rw [forwarded_label hl hF htk.source hw hs]
      have h1 : (1 : Nat) / 2 ^ b = 0 :=
        div_eq_of_lt (Nat.one_lt_two_pow (by have := Width.le hw; omega))
      simp only [pathOf, h1, gone]
  | [_], _ :: _, _, _, _, _, _, hlen, _, _, _, _, _, _ => by simp at hlen
  | _ :: _ :: _, [], _, _, _, _, _, hlen, _, _, _, _, _, _ => by simp at hlen
  | h :: h' :: hs, d :: ds, V, B, header, payload, m, hlen, hout, hl, hF, hV, hB, ht => by
    obtain ⟨b, htk, hle, ht⟩ := travel_cons ht
    obtain ⟨hw, hs', hd, hdlt⟩ := htk.fits
    have hbw := htk.director (hout h (by simp)) hl hV (by omega)
    have hdiv : pathOf (d :: ds) / 2 ^ b = pathOf ds := by
      rw [hbw, pathOf, mul_add_div (Nat.two_pow_pos _), div_eq_of_lt d.lt, Nat.add_zero]
    have hlab := forwarded_label hl hF htk.source hw hs'
    rw [hdiv] at hlab
    have hF' : pathOf ds < 2 ^ 64 := by
      rw [← hdiv]; exact Nat.lt_of_le_of_lt (Nat.div_le_self _ _) hF
    obtain ⟨ls, rfl', hfits, hsum, out, hm, hol⟩ := @forward_legs (h' :: hs) ds _ _ _ _ _
      (by simpa using hlen) (fun x hx => hout x (by simp [hx])) hlab hF'
      (push_lt hV (code_lt htk.source hw hs')) (by rw [forwarded_labelShift hle, hB]) ht
    refine ⟨(h, b) :: ls, by simp [rfl'], ?_, by rw [spent_cons]; simp only at hsum ⊢; omega, out, hm, hol⟩
    intro l hm
    simp only [mem_cons] at hm
    rcases hm with rfl | hm
    · exact ⟨hw, hs', hd, htk.source, hdlt⟩
    · exact hfits l hm

/-! ## And back -/

theorem returnPath_clear {sb} (hsb : sb + 4 ≤ 64) (h : l.toNat % 2 ^ (sb + 4) = 1) :
    (l ^^^ 1#64) &&& returnPathMask sb = 0 := by
  apply eq_of_getLsbD_eq
  intro i hi
  simp only [returnPathMask, getLsbD_and, getLsbD_ushiftRight]
  by_cases hlt : i < sb + 4
  · have hb : l.getLsbD i = (1 : Nat).testBit i := by
      rw [← h]
      simp [hlt, BitVec.getLsbD]
    have h1 : (1#64).getLsbD i = (1 : Nat).testBit i := by
      rw [getLsbD_ofNat]; simp [hi]
    simp [hb, h1]
  · rw [getLsbD_of_ge (BitVec.allOnes 64) _ (by omega)]
    simp

/-- The way back through a link: the director read is the one written on the way there. -/
theorem takes_back (hfit : Leg.Fits (h, b)) (hin : Usable h.core h.inIf) (hne : h.inIf ≠ 1)
    (hl : l = carry (2 ^ b * F + code h.inIf b) V) (hV : V < 2 ^ B) (hB : B + b ≤ 64) :
    Takes h.core h.outIf h.inIf b l := by
  have hc := code_lt hfit.inLt hfit.width hfit.inFits
  have hr : Reads l (code h.inIf b) b := by
    rw [Reads, hl, carry_mod hV (by omega), mul_add_mod, mod_eq_of_lt hc]
  have hbits := bitsUsedForLabel_of_reads hne hfit.width hr
  refine ⟨hfit.outLt, ?_, hin.added, .inl hin.up, .inl ⟨?_, hbits.symm⟩⟩
  · rw [hbits]; exact getDecompressed_of_reads hne hfit.width hfit.inFits hr
  · rw [hbits]; exact hfit.outFits

/-- The last hop back, into the first router: its director is the 1 it wrote when it sent. -/
theorem takes_home (hfit : Leg.Fits (h, b)) (hin : Usable h.core 1) (hl : l = carry 1 V) (hV : V < 2 ^ (B - 3))
    (hB : B + b ≤ 63) :
    ∃ b', b' ≤ b ∧ Takes h.core h.outIf 1 b' l := by
  have hw := Width.le hfit.width
  have hof : bitsUsedForNumber h.outIf ≤ b := hfit.outFits
  have hread : ∀ k, k ≤ b + 4 → 1 ≤ k → l.toNat % 2 ^ k = 1 := by
    intro k hk h1
    rw [hl, carry_mod hV (by omega)]
    exact mod_eq_of_lt (Nat.one_lt_two_pow (by omega))
  have h4 := hread 4 (by omega) (by omega)
  have hbits : bitsUsedForLabel l = 4 := by
    rw [bitsUsedForLabel_eq]; split
    · rfl
    · omega
  have hdest : getDecompressed l (bitsUsedForLabel l) = 1 := by
    rw [hbits, getDecompressed_four]; split
    · rfl
    · omega
  by_cases hs : bitsUsedForNumber h.outIf ≤ 4
  · exact ⟨4, by omega, hfit.outLt, hdest, hin.added, .inl hin.up, .inl ⟨by omega, hbits.symm⟩⟩
  · refine ⟨bitsUsedForNumber h.outIf, hof, hfit.outLt, hdest, hin.added, .inl hin.up,
      .inr ⟨by omega, rfl, rfl, ?_⟩⟩
    exact returnPath_clear (by omega) (hread _ (by omega) (by omega))

theorem wayBack_append (hs : List Hop) (h : Hop) : wayBack (hs ++ [h]) = h.swap :: wayBack hs := by
  simp [wayBack]

/-- The journey back along legs that start at a router, `V` gone and `B` bits spent before.
The induction is on the legs from the far end; `V` keeps three zeros at its top, which the
first hop back puts there and the last one may need. -/
theorem back_legs {ls : List (Hop × Nat)} : ∀ {V B : Nat} {header : SwitchHeader}
    {payload : List UInt8}, ls ≠ [] → ls.head?.map (·.1.inIf) = some 1 →
    (∀ l ∈ ls.tail, l.1.inIf ≠ 1) → (∀ l ∈ ls, Leg.Fits l ∧ Usable l.1.core l.1.inIf) →
    B + spent ls ≤ 63 → V < 2 ^ (B - 3) →
    (B = 0 ∧ ls.getLast?.map (·.1.outIf) = some 1 ∨ 4 ≤ B) →
    header.label = carry (gone 0 ls) V → header.getLabelShift = B →
    ∃ m, travel (wayBack (ls.map Prod.fst)) (.framed header payload) = some m := by
  induction ls using List.reverseRecOn with
  | nil => intro _ _ _ _ h; exact absurd rfl h
  | append_singleton ls l ih =>
    obtain ⟨h, b⟩ := l
    intro V B header payload _ hhead htail hall hsum hV hB hl hshift
    obtain ⟨hfit, huse⟩ := hall (h, b) (by simp)
    have hw := Width.le hfit.width
    simp only [spent_append, spent_cons, spent_nil, Nat.add_zero] at hsum
    simp only at huse hw
    rw [map_append, map_cons, map_nil, wayBack_append]
    rw [gone_append] at hl
    have hV' : V < 2 ^ B := Nat.lt_of_lt_of_le hV (Nat.pow_le_pow_right (by omega) (by omega))
    cases ls with
    | nil =>
      -- the only leg left is the first router's
      have hin : h.inIf = 1 := by simpa using hhead
      simp only [gone, Nat.mul_zero, Nat.zero_add, hin, code, if_true] at hl
      rw [hin] at huse
      obtain ⟨b', hb', htk⟩ := takes_home hfit huse hl hV (by omega)
      have htk' : Takes h.swap.core h.swap.inIf h.swap.outIf b' header.label := by
        simpa [Hop.swap, hin] using htk
      rw [travel_cons_of htk' (by omega)]
      exact ⟨_, rfl⟩
    | cons l' ls =>
      have hne : h.inIf ≠ 1 := htail (h, b) (by simp)
      have htk := takes_back hfit huse hne hl hV' (by omega)
      have htk' : Takes h.swap.core h.swap.inIf h.swap.outIf b header.label := htk
      rw [travel_cons_of htk' (by omega)]
      have hfits : ∀ x ∈ l' :: ls, Leg.Fits x := fun x hx => (hall x (mem_append_left _ hx)).1
      have hgl : gone 0 (l' :: ls) < 2 ^ (0 + spent (l' :: ls)) := gone_lt hfits (by simp)
      have hc := code_lt hfit.inLt hfit.width hfit.inFits
      have hF : 2 ^ b * gone 0 (l' :: ls) + code h.inIf b < 2 ^ 64 :=
        Nat.lt_of_lt_of_le (push_lt hgl hc) (Nat.pow_le_pow_right (by omega) (by omega))
      have hlab := forwarded_label (s := h.outIf) hl hF hfit.outLt hfit.width hfit.outFits
      rw [mul_add_div (Nat.two_pow_pos _), div_eq_of_lt hc, Nat.add_zero] at hlab
      refine ih (B := B + b) (by simp) (by simpa using hhead)
        (fun x hx => htail x (by simp at hx ⊢; exact .inl hx))
        (fun x hx => hall x (mem_append_left _ hx)) (by omega) ?_ (.inr (by omega)) hlab
        (by rw [forwarded_labelShift (by omega), hshift])
      -- the three zeros
      have hco := code_lt hfit.outLt hfit.width hfit.outFits
      rcases hB with ⟨rfl, hlast⟩ | hB
      · have ho : h.outIf = 1 := by
          rw [getLast?_concat] at hlast
          simpa using hlast
        have hV0 : V = 0 := by simpa using hV
        rw [hV0, ho]
        simp only [Nat.mul_zero, Nat.zero_add, code, if_true]
        exact Nat.one_lt_two_pow (by omega)
      · have := push_lt hV hco
        rwa [show B - 3 + b = B + b - 3 by omega] at this

/-- **The return path.** A label made of directors and a final 1 that takes a message from the
first router of a chain to the last one, reversed there, takes a message back: every switch
forwards it, out of the interface the first message came in on. -/
theorem return_path {hs : List Hop} {ds : List Director} {sent delivered back : SwitchHeader}
    {payload payload' payload'' : List UInt8} (hc : Chain hs) (hlen : ds.length + 1 = hs.length)
    (hlabel : sent.label.toNat = pathOf ds) (hshift : sent.getLabelShift = 0)
    (hthere : travel hs (.framed sent payload) = some (.framed delivered payload'))
    (hback : back.label = Bits.bitReverse64 delivered.label) (hshift' : back.getLabelShift = 0) :
    ∃ m, travel (wayBack hs) (.framed back payload'') = some m := by
  have hF : pathOf ds < 2 ^ 64 := hlabel ▸ sent.label.isLt
  have hl : sent.label = carry (pathOf ds) 0 := by simp [carry, ← hlabel]
  obtain ⟨ls, rfl, hfits, hsum, out, hm, hol⟩ :=
    forward_legs hlen hc.linkOut hl hF (V := 0) (B := 0) (by simp) hshift hthere
  simp only [Packet.framed.injEq] at hm
  rw [hm.1, hol, Bits.bitReverse64_eq, reverse_carry_zero] at hback
  have hne : ls ≠ [] := by
    rintro rfl; simp at hlen
  refine back_legs hne ?_ ?_ ?_ hsum (by simp) (.inl ⟨rfl, ?_⟩) hback hshift'
  · simpa using hc.start
  · intro l hl'
    exact hc.linkIn l.1 (by rw [← map_tail]; exact mem_map_of_mem hl')
  · intro l hl'
    exact ⟨hfits l hl', (hc.usable l.1 (mem_map_of_mem hl')).1⟩
  · simpa using hc.finish

/-- A switch with every interface added and UP. -/
def openSwitch : SwitchCore := ⟨fun _ => ⟨true, .up⟩⟩

/-- Three switches joined by links whose directors take 4, 10 and 7 bits. -/
def threeSwitches : List Hop := [⟨openSwitch, 1, 5⟩, ⟨openSwitch, 40, 3⟩, ⟨openSwitch, 20, 1⟩]

theorem chain_threeSwitches : Chain threeSwitches where
  start := rfl
  finish := rfl
  linkIn := by simp [threeSwitches]
  linkOut := by simp [threeSwitches]
  usable := by
    intro h hm
    simp only [threeSwitches, mem_cons, not_mem_nil, or_false] at hm
    rcases hm with rfl | rfl | rfl <;>
      exact ⟨⟨by decide, rfl, rfl⟩, ⟨by decide, rfl, rfl⟩⟩

theorem return_path_threeSwitches :
    ∃ m, travel (wayBack threeSwitches)
      (.framed ⟨Bits.bitReverse64 0x7272400000000000#64, 0#8, 0#8, 0#16⟩ []) = some m :=
  @return_path threeSwitches [⟨4, 11#64, by decide, by decide⟩, ⟨10, 8#64, by decide, by decide⟩]
    ⟨0x408b#64, 0#8, 0#8, 0#16⟩ ⟨0x7272400000000000#64, 0#8, 21#8, 0xffff#16⟩
    ⟨Bits.bitReverse64 0x7272400000000000#64, 0#8, 0#8, 0#16⟩ [] [] [] chain_threeSwitches rfl (by decide)
    (by decide) (by decide +kernel) rfl (by decide)

/-! ## How far a message goes -/

/-- Every hop spends at least 4 of the 63 bits that the label shift can count. -/
theorem travel_spends {hs : List Hop} {header payload m} (h : travel hs (.framed header payload) = some m) :
    header.getLabelShift + 4 * hs.length ≤ 63 := by
  induction hs generalizing header with
  | nil =>
    simp only [SwitchHeader.getLabelShift, length_nil]
    rw [BitVec.toNat_and]
    exact Nat.and_le_right
  | cons h hs ih =>
    obtain ⟨bits, htakes, hle, hrest⟩ := travel_cons h
    have hspent := ih hrest
    rw [forwarded_labelShift hle] at hspent
    have hwidth := Width.le htakes.fits.1
    simp only [length_cons]
    omega

/-- No way of wiring switches keeps a message for ever: it is passed on 15 times at most. -/
theorem longest_travel : IsGreatest {n | ∃ hs m, hs.length = n ∧ (travel hs m).isSome} 15 := by
  refine ⟨⟨replicate 15 ⟨openSwitch, 5, 5⟩, .framed ⟨0xbbbbbbbbbbbbbbb#64, 0#8, 0#8, 0#16⟩ [], rfl, by decide +kernel⟩, ?_⟩
  rintro _ ⟨hs, m, rfl, hsome⟩
  obtain ⟨m', hm'⟩ := Option.isSome_iff_exists.mp hsome
  cases m with
  | framed header payload =>
    have := travel_spends hm'
    omega
  | runt bytes =>
    cases hs with
    | nil => simp
    | cons h hs => simp [travel, receiveMessage] at hm'

/-! ## The label of a new interface -/

theorem addInterface_cases {core core' : SwitchCore} {i label} (h : core.addInterface = some (i, label, core'))
    (hrouter : (core.interfaces 1).added = true) : i ≠ 1 ∧ Usable core' i ∧
      label = carry (2 ^ bitsUsedForNumber i * 1 + code i (bitsUsedForNumber i)) 0 := by
  simp only [SwitchCore.addInterface] at h
  split at h
  · cases h
  next hfind =>
  cases h
  have hi := mem_range.mp (mem_of_find?_eq_some hfind)
  have hw := bitsUsedForNumber_width i
  refine ⟨fun h => by simpa [h, hrouter] using find?_some hfind, ⟨hi, by simp [SwitchCore.setInterface],
    by simp [SwitchCore.setInterface]⟩, ?_⟩
  rw [carry, two_pow_add_eq_or_of_lt (code_lt hi hw le_rfl), ← getCompressed_toNat hi hw, BitVec.or_comm]
  rcases hw with h | h | h <;> simp [h, BitVec.ofNat_or]

/-- The label a new interface gets leads over it, and on to the router of the switch at its other end. -/
theorem addInterface_leads {core core' far : SwitchCore} {i j label} {header : SwitchHeader}
    (hadd : core.addInterface = some (i, label, core')) (hrouter : (core.interfaces 1).added = true)
    (hfar : Usable far 1) (hj : j < INTERFACES) (hl : header.label = label) (hshift : header.getLabelShift = 0)
    (payload : List UInt8) : (travel [⟨core', 1, i⟩, ⟨far, j, 1⟩] (.framed header payload)).isSome := by
  obtain ⟨hne, hi, rfl⟩ := addInterface_cases hadd hrouter
  have hw := bitsUsedForNumber_width i
  have hle := Width.le hw
  have hc := code_lt hi.lt hw le_rfl
  have h1 : 1 < INTERFACES := by decide
  have hle' := Width.le (bitsUsedForNumber_width j)
  have htakes := takes_back (h := ⟨core', i, 1⟩) (b := bitsUsedForNumber i) (B := 0) ⟨hw, le_rfl, hle.1, hi.lt, h1⟩ hi hne hl
    (by simp) (by omega)
  -- the first switch leaves the 1 at the end of the label, which is the router's director
  have hpath := forwarded_label hl (s := 1) (by rcases hw with h | h | h <;> rw [h] at hc ⊢ <;> omega) h1 hw hle.1
  rw [mul_add_div (Nat.two_pow_pos _), div_eq_of_lt hc] at hpath
  obtain ⟨b, hb, htakes'⟩ := takes_home (h := ⟨far, 1, j⟩) (b := 10) (B := 50) ⟨.inr (.inr rfl), hle.1.trans hle.2, hle'.2, h1, hj⟩
    hfar hpath (by simp [code]) (by omega)
  rw [travel_cons_of htakes (by omega), travel_cons_of htakes' (by rw [forwarded_labelShift (by omega)]; omega)]
  rfl

theorem addInterface_leads_new : (travel [⟨SwitchCore.new.setInterface 0 ⟨true, .up⟩, 1, 0⟩, ⟨openSwitch, 40, 1⟩]
    (.framed ⟨0x13#64, 0#8, 0#8, 0#16⟩ [])).isSome :=
  @addInterface_leads .new _ openSwitch 0 40 _ ⟨0x13#64, 0#8, 0#8, 0#16⟩ rfl rfl ⟨by decide, rfl, rfl⟩ (by decide) rfl rfl []

end Hyperboria.Switch
