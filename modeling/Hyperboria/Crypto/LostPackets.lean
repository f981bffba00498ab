/-
The statistics of `crypto/ReplayProtector.h`. `lostPackets` should be the number of values
below the window that never passed, and the two other counters should share out the calls
that failed.

The loop counts the losses of a shift in an `int`. A shift by 2^31 or more is a negative
number there and takes the branch of the short shifts, so some of the bits in the window
are not counted (`Overlooks`). This happens once in the life of a window at most, since
the second time the number would not fit in its word; from then on `lostPackets` is too
great. Nothing else goes wrong until a counter wraps (`accounted_iff`).
-/
import Hyperboria.Crypto.ReplayProtector

namespace Hyperboria

open Nat

namespace ReplayProtector

section Count

variable {p q : Nat → Prop} [DecidablePred p] [DecidablePred q] {n : Nat}

theorem count_congr (h : ∀ k < n, (p k ↔ q k)) : Nat.count p n = Nat.count q n :=
  le_antisymm (count_mono_left fun k hk => (h k hk).mp) (count_mono_left fun k hk => (h k hk).mpr)

theorem count_not_add_count (n : Nat) : Nat.count (fun k => ¬ p k) n + Nat.count p n = n := by
  induction n with
  | zero => rfl
  | succ n ih =>
    rw [count_succ, count_succ]
    by_cases hp : p n
    · rw [if_neg (not_not_intro hp), if_pos hp]
      omega
    · rw [if_pos hp, if_neg hp]
      omega

end Count

variable {context : ReplayProtector} {bitfield : BitVec 64} {offset shift : Nat}

/-! ## The losses of one shift -/

/-- The bits that are set among the first `n`. -/
def marks (bitfield : BitVec 64) (n : Nat) : Nat := Nat.count (fun i => bitfield.getLsbD i = true) n

/-- The numbers that have not passed among the first `n` from the start of the window on. -/
def clear (context : ReplayProtector) (n : Nat) : Nat := Nat.count (fun i => ¬ context.bitfield.getLsbD i = true) n

theorem clear_add_marks (n : Nat) : context.clear n + marks context.bitfield n = n := count_not_add_count n

theorem marks_add (bitfield : BitVec 64) (a b : Nat) :
    marks bitfield (a + b) = marks bitfield a + Nat.count (fun i => bitfield.getLsbD (a + i) = true) b :=
  count_add _ _ _

variable {n : Nat}

theorem marks_of_ge (h : 64 ≤ n) : marks bitfield n = marks bitfield 64 := by
  obtain ⟨k, rfl⟩ := Nat.exists_eq_add_of_le h
  rw [marks_add, Nat.count_iff_forall_not.mpr, Nat.add_zero]
  intro i _
  rw [BitVec.getLsbD_of_ge _ _ (by omega)]
  exact Bool.false_ne_true

theorem popCountx64_eq (bitfield : BitVec 64) : popCountx64 bitfield = marks bitfield 64 := by
  simp [popCountx64, marks, count]

theorem popCountx64_shiftLeft {k} (h : k ≤ 64) : popCountx64 (bitfield <<< k) = marks bitfield (64 - k) := by
  have hsplit : popCountx64 (bitfield <<< k) = marks (bitfield <<< k) (k + (64 - k)) := by
    rw [Nat.add_sub_cancel' h, popCountx64_eq]
  rw [hsplit, marks_add]
  have hlow : marks (bitfield <<< k) k = 0 := by
    refine count_iff_forall_not.mpr fun i hi => ?_
    simp [hi]
  have hhigh : count (fun i => (bitfield <<< k).getLsbD (k + i) = true) (64 - k) = marks bitfield (64 - k) := by
    refine count_congr fun i hi => ?_
    rw [BitVec.getLsbD_shiftLeft]
    simp [show k + i < 64 by omega]
  rw [hlow, hhigh, zero_add]

theorem marks_above_iff {k} (h : k ≤ 64) : marks bitfield k < marks bitfield 64 ↔ bitfield >>> k ≠ 0 := by
  have hsplit := marks_add bitfield k (64 - k)
  rw [Nat.add_sub_cancel' h] at hsplit
  rw [hsplit, Nat.lt_add_right_iff_pos, Nat.pos_iff_ne_zero, Nat.count_ne_iff_exists]
  constructor
  · rintro ⟨i, -, hset⟩ hzero
    have hbit := congrArg (·.getLsbD i) hzero
    simp only [BitVec.getLsbD_ushiftRight, hset] at hbit
    exact absurd hbit (by simp)
  · intro hne
    by_contra hall
    refine hne (BitVec.eq_of_getLsbD_eq fun i hi => ?_)
    rw [BitVec.getLsbD_ushiftRight, BitVec.ofNat_eq_ofNat, BitVec.getLsbD_zero]
    by_cases hk : i < 64 - k
    · exact Bool.eq_false_iff.mpr fun hset => hall ⟨i, hk, hset⟩
    · exact BitVec.getLsbD_of_ge _ _ (by omega)

/-- A shift that is negative as an `int`, and there is a bit that is not counted then. -/
def Negative (bitfield : BitVec 64) (shift : Nat) : Prop :=
  2 ^ 31 ≤ shift ∧ shift % 64 ≠ 0 ∧ bitfield >>> (shift % 64) ≠ 0

instance (bitfield : BitVec 64) (shift : Nat) : Decidable (Negative bitfield shift) :=
  inferInstanceAs (Decidable (_ ∧ _))

/-- The losses of a shift are counted right, but for a negative one. -/
theorem lostInShift_eq (context : ReplayProtector) (hpos : 0 < shift) (hlt : shift < 2 ^ 32) :
    ∃ more : Nat, more ≤ 64 ∧ (0 < more ↔ Negative context.bitfield shift) ∧
      (lostInShift context.bitfield (asInt shift) = context.clear shift + more ∨
        lostInShift context.bitfield (asInt shift) = context.clear shift + more - 2 ^ 32) := by
  have hclear := context.clear_add_marks shift
  unfold lostInShift asInt
  by_cases hshort : shift < 2 ^ 31
  · refine ⟨0, by omega, iff_of_false (lt_irrefl 0) fun h => absurd h.1 (by omega), .inl ?_⟩
    rw [if_pos hshort, if_neg (by omega)]
    by_cases hwide : shift > 63
    · rw [if_pos (by omega), popCountx64_eq, ← marks_of_ge hwide]
      omega
    · have hk : ((64 - (shift : Int)) % 64).toNat = 64 - shift := by omega
      rw [if_neg (by omega), hk, popCountx64_shiftLeft (by omega), show 64 - (64 - shift) = shift by omega]
      omega
  · have hk : ((64 - ((shift : Int) - 2 ^ 32)) % 64).toNat = (64 - shift % 64) % 64 := by omega
    have hmono : marks context.bitfield (64 - (64 - shift % 64) % 64) ≤ marks context.bitfield 64 :=
      count_monotone _ (by omega)
    have hle : marks context.bitfield 64 ≤ 64 := count_le _
    have hwide : marks context.bitfield shift = marks context.bitfield 64 := marks_of_ge (by omega)
    refine ⟨marks context.bitfield 64 - marks context.bitfield (64 - (64 - shift % 64) % 64), by omega, ?_, .inr ?_⟩
    · unfold Negative
      rw [and_iff_right (Nat.le_of_not_lt hshort), Nat.sub_pos_iff_lt]
      by_cases hmod : shift % 64 = 0
      · rw [hmod]
        exact iff_of_false (lt_irrefl _) fun h => h.1 rfl
      · rw [and_iff_right hmod, ← marks_above_iff (by omega), show 64 - (64 - shift % 64) % 64 = shift % 64 by omega]
    · rw [if_neg hshort, if_neg (by omega), if_neg (by omega), hk, popCountx64_shiftLeft (by omega)]
      omega

theorem lose_lostPackets (context : ReplayProtector) (hpos : 0 < shift) (hlt : shift < 2 ^ 32) :
    ∃ more : Nat, more ≤ 64 ∧ (0 < more ↔ Negative context.bitfield shift) ∧
      (context.lose (lostInShift context.bitfield (asInt shift))).lostPackets % 2 ^ 32 =
        (context.lostPackets + context.clear shift + more) % 2 ^ 32 := by
  obtain ⟨more, hle, hneg, hlost⟩ := lostInShift_eq context hpos hlt
  refine ⟨more, hle, hneg, ?_⟩
  generalize lostInShift context.bitfield (asInt shift) = lost at hlost
  simp only [lose]
  omega

/-! ## The losses of one check -/

/-- The low half of the window has passed. -/
def Full (context : ReplayProtector) : Prop := context.bitfield &&& 0xffffffff#64 = 0xffffffff#64

instance (context : ReplayProtector) : Decidable context.Full := inferInstanceAs (Decidable (_ = _))

/-- The window when its full halves have been rotated out: the loop does so before it takes a loss. -/
def rotated (context : ReplayProtector) : ReplayProtector :=
  if context.Full then
    if (context.doShift 32).Full then (context.doShift 32).doShift 32 else context.doShift 32
  else context

/-- The check of `nonce` makes a negative shift. -/
def Overlooks (context : ReplayProtector) (nonce : Nat) : Prop :=
  Negative context.rotated.bitfield (nonce - (context.rotated.baseOffset + 47))

instance (context : ReplayProtector) (nonce : Nat) : Decidable (context.Overlooks nonce) :=
  inferInstanceAs (Decidable (Negative _ _))

theorem rotated_of_full (h : context.Full) : context.rotated = (context.doShift 32).rotated := by
  have hempty : ¬ ((context.doShift 32).doShift 32).Full := by
    have hzero : ((context.doShift 32).doShift 32).bitfield = 0 := by
      simp only [doShift, show ¬ 32 > 63 by decide, if_false]
      rw [← BitVec.shiftRight_add]
      exact BitVec.ushiftRight_eq_zero (by decide)
    unfold Full
    rw [hzero]
    decide
  unfold rotated
  rw [if_pos h, if_neg hempty]

theorem doShift_getLsbD (bits i : Nat) :
    (context.doShift bits).bitfield.getLsbD i = context.bitfield.getLsbD (bits + i) := by
  have hbit := @doShift_bit context bits (context.baseOffset + bits + i) (Nat.le_add_right _ _)
  rwa [show context.baseOffset + bits + i - (context.doShift bits).baseOffset = i from Nat.add_sub_cancel_left _ _,
    show context.baseOffset + bits + i - context.baseOffset = bits + i by omega] at hbit

theorem clear_add (a b : Nat) : context.clear (a + b) = context.clear a + (context.doShift a).clear b := by
  unfold clear
  rw [count_add]
  simp [doShift_getLsbD]

theorem Full.clear (h : context.Full) : context.clear 32 = 0 := by
  refine count_iff_forall_not.mpr fun i hi => not_not_intro ?_
  have hones : ∀ i < 32, (0xffffffff#64).getLsbD i = true := by decide
  have hbit := congrArg (·.getLsbD i) h
  simp only [BitVec.getLsbD_and, hones i hi, Bool.and_true] at hbit
  exact hbit

/-! The three things a round of the loop can do. -/

theorem slide_stays (h : offset ≤ 63) : slide n offset context = (offset, context) := by
  cases n with
  | zero => rfl
  | succ n => exact if_neg (not_lt.mpr h)

theorem slide_rotates (h : 63 < offset) (hfull : context.Full) :
    slide (n + 1) offset context = slide n (offset - 32) (context.doShift 32) := by
  rw [slide, if_pos h]
  exact if_pos hfull

theorem slide_loses (h : 63 < offset) (hfull : ¬ context.Full) :
    slide (n + 1) offset context =
      (47, (context.lose (lostInShift context.bitfield (asInt (offset - 47)))).doShift (offset - 47)) := by
  have hleft : offset - (offset - 47) = 47 := by omega
  rw [slide, if_pos h]
  refine (if_neg hfull).trans ?_
  rw [hleft]
  exact slide_stays (by decide)

theorem le_rotated (context : ReplayProtector) : context.baseOffset ≤ context.rotated.baseOffset := by
  unfold rotated
  split_ifs
  · exact (le_add_right _ 32).trans (le_add_right _ 32)
  · exact le_add_right _ 32
  · exact le_refl _

variable {nonce : Nat}

theorem not_overlooks (h : nonce ≤ context.baseOffset + 63) : ¬ context.Overlooks nonce := by
  intro hover
  have hbase := context.le_rotated
  have hwide := hover.1
  omega

/-- What is added to `lostPackets`: the numbers the window leaves behind that have not passed, and `over` more, if
a shift is negative. -/
structure Loses (context : ReplayProtector) (nonce : Nat) (context' : ReplayProtector) (more : Nat) : Prop where
  over_le : more ≤ 64
  over_pos_iff : 0 < more ↔ context.Overlooks nonce
  far : 0 < more → context.baseOffset + 2 ^ 31 ≤ context'.baseOffset
  lost : context'.lostPackets % 2 ^ 32 =
    (context.lostPackets + context.clear (context'.baseOffset - context.baseOffset) + more) % 2 ^ 32

theorem loses_nothing {context' : ReplayProtector} (h : nonce ≤ context.baseOffset + 63)
    (hbase : context'.baseOffset = context.baseOffset) (hlost : context'.lostPackets = context.lostPackets) :
    Loses context nonce context' 0 := by
  refine ⟨by omega, iff_of_false (lt_irrefl 0) (not_overlooks h), fun h => absurd h (lt_irrefl 0), ?_⟩
  rw [hlost, hbase, Nat.sub_self]
  rfl

theorem slide_lostPackets (n : Nat) : ∀ {offset : Nat} {context : ReplayProtector}, offset ≤ n → offset < 2 ^ 32 →
    ∃ more, Loses context (context.baseOffset + offset) (slide n offset context).2 more := by
  have hstays : ∀ {n offset : Nat} {context : ReplayProtector}, offset ≤ 63 →
      ∃ more, Loses context (context.baseOffset + offset) (slide n offset context).2 more := by
    intro n offset context hle
    rw [slide_stays hle]
    exact ⟨0, loses_nothing (Nat.add_le_add_left hle _) rfl rfl⟩
  induction n with
  | zero => exact fun hle _ => hstays (by omega)
  | succ n ih =>
    intro offset context hle hlt
    by_cases hloop : offset ≤ 63
    · exact hstays hloop
    have hloop := Nat.lt_of_not_le hloop
    by_cases hfull : context.Full
    · have hbase : (context.doShift 32).baseOffset = context.baseOffset + 32 := rfl
      obtain ⟨more, hover, hiff, hfar, hlost⟩ := @ih (offset - 32) (context.doShift 32) (by omega) (by omega)
      obtain ⟨hmono, -⟩ := @slide_window n (offset - 32) (context.doShift 32)
      rw [slide_rotates hloop hfull]
      generalize slide n (offset - 32) (context.doShift 32) = r at *
      refine ⟨more, hover, hiff.trans ?_, fun h => by have := hfar h; omega, ?_⟩
      · unfold Overlooks
        rw [rotated_of_full hfull, hbase, show context.baseOffset + 32 + (offset - 32) = context.baseOffset + offset by omega]
      · have hsplit : r.2.baseOffset - context.baseOffset = 32 + (r.2.baseOffset - (context.doShift 32).baseOffset) := by
          omega
        rw [hlost, hsplit, clear_add, hfull.clear, zero_add]
        rfl
    · obtain ⟨more, hover, hiff, hlost⟩ := lose_lostPackets context
        (by omega : 0 < offset - 47) (by omega)
      rw [slide_loses hloop hfull]
      refine ⟨more, hover, hiff.trans ?_, fun h => ?_, ?_⟩
      · unfold Overlooks rotated
        rw [if_neg hfull, show context.baseOffset + offset - (context.baseOffset + 47) = offset - 47 by omega]
      · have hwide := (hiff.mp h).1
        simp only [doShift, lose]
        omega
      · simp only [doShift]
        rw [hlost, show (context.lose _).baseOffset = context.baseOffset from rfl, Nat.add_sub_cancel_left]

theorem slide_counters (n : Nat) : ∀ {offset} {context},
    (slide n offset context).2.duplicates = context.duplicates ∧
      (slide n offset context).2.receivedOutOfRange = context.receivedOutOfRange := by
  induction n with
  | zero => exact ⟨rfl, rfl⟩
  | succ n ih =>
    intro offset context
    by_cases hloop : offset ≤ 63
    · rw [slide_stays hloop]
      exact ⟨rfl, rfl⟩
    · by_cases hfull : context.Full
      · rw [slide_rotates (Nat.lt_of_not_le hloop) hfull]
        exact ih
      · rw [slide_loses (Nat.lt_of_not_le hloop) hfull]
        exact ⟨rfl, rfl⟩

/-- The number lies before the window. -/
def Below (context : ReplayProtector) (nonce : Nat) : Prop := nonce < context.baseOffset

/-- The number lies in the window and its bit is set. -/
def Again (context : ReplayProtector) (nonce : Nat) : Prop :=
  context.baseOffset ≤ nonce ∧ context.bitfield.getLsbD (nonce - context.baseOffset) = true

instance (context : ReplayProtector) (nonce : Nat) : Decidable (context.Below nonce) :=
  inferInstanceAs (Decidable (_ < _))

instance (context : ReplayProtector) (nonce : Nat) : Decidable (context.Again nonce) :=
  inferInstanceAs (Decidable (_ ∧ _))

/-- What one check does to the counters. -/
structure Counted (context : ReplayProtector) (nonce : Nat) (passes : Bool) (context' : ReplayProtector)
    (more : Nat) : Prop extends Loses context nonce context' more where
  fails_iff : passes = false ↔ context.Below nonce ∨ context.Again nonce
  outOfRange : context'.receivedOutOfRange =
    if context.Below nonce then (context.receivedOutOfRange + 1) % 2 ^ 32 else context.receivedOutOfRange
  duplicates : context'.duplicates =
    if context.Again nonce then (context.duplicates + 1) % 2 ^ 32 else context.duplicates

theorem checkNonce_counted (context : ReplayProtector) (hword : nonce < 2 ^ 32) :
    ∃ more, Counted context nonce (context.checkNonce nonce).1 (context.checkNonce nonce).2 more := by
  by_cases hlow : nonce < context.baseOffset
  · have hcheck : context.checkNonce nonce =
        (false, { context with receivedOutOfRange := (context.receivedOutOfRange + 1) % 2 ^ 32 }) := if_pos hlow
    have hagain : ¬ context.Again nonce := fun h => absurd h.1 (not_le.mpr hlow)
    rw [hcheck]
    exact ⟨0, loses_nothing (by omega) rfl rfl, iff_of_true rfl (.inl hlow), (if_pos hlow).symm, (if_neg hagain).symm⟩
  · have hge := Nat.le_of_not_lt hlow
    obtain ⟨hmono, hbit, -⟩ := @slide_window (nonce - context.baseOffset) (nonce - context.baseOffset) context
    have hbase := @slide_base (nonce - context.baseOffset) (nonce - context.baseOffset) context
    obtain ⟨hdup, hout⟩ := @slide_counters (nonce - context.baseOffset) (nonce - context.baseOffset) context
    obtain ⟨more, hloses⟩ := @slide_lostPackets (nonce - context.baseOffset) _ context (le_refl _) (by omega)
    have hnonce := hbit nonce (by omega)
    rw [Nat.add_sub_cancel' hge] at hloses
    have hcheck : context.checkNonce nonce =
        let r := slide (nonce - context.baseOffset) (nonce - context.baseOffset) context
        if r.2.bitfield.getLsbD r.1 then (false, { r.2 with duplicates := (r.2.duplicates + 1) % 2 ^ 32 })
        else (true, { r.2 with bitfield := r.2.bitfield ||| (1#64 <<< r.1) }) := if_neg hlow
    rw [hcheck]
    generalize slide (nonce - context.baseOffset) (nonce - context.baseOffset) context = r at *
    obtain ⟨offset, slid⟩ := r
    dsimp only at *
    rw [show nonce - slid.baseOffset = offset by omega] at hnonce
    have hbelow : ¬ context.Below nonce := hlow
    by_cases hset : slid.bitfield.getLsbD offset = true
    · have hagain : context.Again nonce := ⟨hge, hnonce.symm.trans hset⟩
      rw [if_pos hset]
      exact ⟨more, ⟨hloses.1, hloses.2, hloses.3, hloses.4⟩, iff_of_true rfl (.inr hagain),
        hout.trans (if_neg hbelow).symm, by rw [if_pos hagain, ← hdup]⟩
    · have hagain : ¬ context.Again nonce := fun h => hset (hnonce.trans h.2)
      rw [if_neg hset]
      exact ⟨more, ⟨hloses.1, hloses.2, hloses.3, hloses.4⟩,
        iff_of_false (Bool.noConfusion) (fun h => h.elim hbelow hagain), hout.trans (if_neg hbelow).symm,
        hdup.trans (if_neg hagain).symm⟩

/-! ## Any number of checks -/

/-- How many of the checks are of the kind `p`, which is about the window before the check and its number. -/
def tally (p : ReplayProtector → Nat → Prop) [∀ context nonce, Decidable (p context nonce)] :
    List Nat → ReplayProtector → Nat
  | [], _ => 0
  | nonce :: nonces, context =>
    (if p context nonce then 1 else 0) + tally p nonces (context.checkNonce nonce).2

/-- The number of calls that fail. -/
def rejected (nonces : List Nat) (context : ReplayProtector) : Nat :=
  tally (fun context nonce => (context.checkNonce nonce).1 = false) nonces context

variable {nonces : List Nat}

theorem rejected_eq (hword : ∀ n ∈ nonces, n < 2 ^ 32) (context : ReplayProtector) :
    rejected nonces context = tally Below nonces context + tally Again nonces context := by
  unfold rejected
  induction nonces generalizing context with
  | nil => rfl
  | cons nonce nonces ih =>
    obtain ⟨hnonce, hword⟩ := List.forall_mem_cons.mp hword
    obtain ⟨more, hcounted⟩ := checkNonce_counted context hnonce
    have hboth : ¬ (context.Below nonce ∧ context.Again nonce) := fun h => absurd h.2.1 (not_le.mpr h.1)
    simp only [tally, hcounted.fails_iff, ih hword]
    by_cases hbelow : context.Below nonce
    · have hagain : ¬ context.Again nonce := fun h => hboth ⟨hbelow, h⟩
      simp only [hagain, or_false, if_false]
      omega
    · simp only [hbelow, false_or, if_false]
      omega

theorem counter_eq (counter : ReplayProtector → Nat) (p : ReplayProtector → Nat → Prop)
    [∀ context nonce, Decidable (p context nonce)]
    (hstep : ∀ context, ∀ nonce < 2 ^ 32, counter (context.checkNonce nonce).2 =
      if p context nonce then (counter context + 1) % 2 ^ 32 else counter context)
    (hword : ∀ n ∈ nonces, n < 2 ^ 32) {context} (hlt : counter context < 2 ^ 32) :
    counter (checkNonces nonces context) = (counter context + tally p nonces context) % 2 ^ 32 := by
  induction nonces generalizing context with
  | nil => exact (mod_eq_of_lt hlt).symm
  | cons nonce nonces ih =>
    obtain ⟨hnonce, hword⟩ := List.forall_mem_cons.mp hword
    have hnext := hstep context nonce hnonce
    rw [checkNonces, tally]
    split at hnext
    next hp =>
      rw [ih hword (by omega), if_pos hp]
      omega
    next hp => rw [ih hword (hnext ▸ hlt), hnext, if_neg hp, zero_add]

/-- The numbers below `bound` that are not among `seen`. -/
def missing (seen : List Nat) (bound : Nat) : Nat := Nat.count (fun m => m ∉ seen) bound

variable {start : Nat} {shown seen : List Nat}

/-- The numbers the window leaves behind are missing if their bits are clear. -/
theorem missing_add (h : Exact start shown seen context) (n : Nat) :
    missing seen (context.baseOffset + n) = missing seen context.baseOffset + context.clear n := by
  unfold missing clear
  rw [Nat.count_add]
  refine congrArg _ (count_congr fun i _ => not_congr ?_)
  rw [← h.bits _ (Nat.le_add_right _ _), Nat.add_sub_cancel_left]

theorem missing_cons {bound} (h : bound ≤ nonce) :
    missing (nonce :: seen) bound = missing seen bound := by
  refine count_congr fun m hm => ?_
  rw [List.mem_cons, not_or, and_iff_right (by omega)]

theorem lost_checkNonce (h : Exact start shown seen context) (hword : nonce < 2 ^ 32) :
    ∃ more : Nat, more ≤ 64 ∧ (0 < more ↔ context.Overlooks nonce) ∧
      (0 < more → context.baseOffset + 2 ^ 31 ≤ (context.checkNonce nonce).2.baseOffset) ∧
      context.baseOffset ≤ (context.checkNonce nonce).2.baseOffset ∧
      ((context.checkNonce nonce).2.lostPackets + missing seen context.baseOffset) % 2 ^ 32 =
        (context.lostPackets +
          missing (if (context.checkNonce nonce).1 then nonce :: seen else seen)
            (context.checkNonce nonce).2.baseOffset + more) % 2 ^ 32 := by
  obtain ⟨more, hcounted⟩ := checkNonce_counted context hword
  generalize hcheck : context.checkNonce nonce = r at *
  obtain ⟨passes, context'⟩ := r
  dsimp only at *
  have hmono : context.baseOffset ≤ context'.baseOffset ∧ (passes = true → context'.baseOffset ≤ nonce) := by
    obtain ⟨-, rfl, hbase, -⟩ | ⟨hle, hnonce, -⟩ := checkNonce_cases hcheck
    · exact ⟨hbase.ge, fun h => absurd h Bool.false_ne_true⟩
    · exact ⟨hle, fun _ => hnonce⟩
  have hseen : missing (if passes then nonce :: seen else seen) context'.baseOffset =
      missing seen context.baseOffset + context.clear (context'.baseOffset - context.baseOffset) := by
    rw [← missing_add h, Nat.add_sub_cancel' hmono.1]
    split
    next hpasses => exact missing_cons (hmono.2 hpasses)
    next => rfl
  refine ⟨more, hcounted.over_le, hcounted.over_pos_iff, hcounted.far, hmono.1, ?_⟩
  have hlost := hcounted.lost
  omega

/-- All checks: for each negative shift the window has moved by 2^31, and no more than 64 numbers too many are
counted for it. -/
theorem lost_checkNonces (h : Exact start shown seen context) (hword : ∀ n ∈ nonces, n < 2 ^ 32) :
    ∃ more : Nat, tally Overlooks nonces context ≤ more ∧ more ≤ 64 * tally Overlooks nonces context ∧
      context.baseOffset + 2 ^ 31 * tally Overlooks nonces context ≤ (checkNonces nonces context).baseOffset ∧
      ((checkNonces nonces context).lostPackets + missing seen context.baseOffset) % 2 ^ 32 =
        (context.lostPackets + missing ((accepted nonces context).reverse ++ seen)
          (checkNonces nonces context).baseOffset + more) % 2 ^ 32 := by
  induction nonces generalizing context shown seen with
  | nil => exact ⟨0, le_refl _, zero_le _, le_refl _, rfl⟩
  | cons nonce nonces ih =>
    obtain ⟨hnonce, hword⟩ := List.forall_mem_cons.mp hword
    obtain ⟨more, hle, hiff, hfar, hmono, hlost⟩ := lost_checkNonce h hnonce
    obtain ⟨rest, hge, hrest, hmoved, hnext⟩ := ih (h.checkNonce (Prod.eta (context.checkNonce nonce)).symm) hword
    have haccepted : (accepted (nonce :: nonces) context).reverse ++ seen =
        (accepted nonces (context.checkNonce nonce).2).reverse ++
          if (context.checkNonce nonce).1 then nonce :: seen else seen := by
      rw [accepted]
      split
      · rw [List.reverse_cons, List.append_assoc, List.singleton_append]
      · rfl
    rw [haccepted, checkNonces, tally]
    by_cases hover : context.Overlooks nonce
    · have hpos := hiff.mpr hover
      rw [if_pos hover]
      exact ⟨more + rest, by omega, by omega, by omega, by omega⟩
    · have hzero : more = 0 := by
        by_contra hne
        exact hover (hiff.mp (Nat.pos_of_ne_zero hne))
      rw [if_neg hover]
      exact ⟨rest, by omega, by omega, by omega, by omega⟩

/-- The counters after the numbers were checked from an empty window on. -/
structure Accounted (nonces : List Nat) : Prop where
  lost : (checkNonces nonces zero).lostPackets % 2 ^ 32 =
    Nat.count (fun m => m ∉ accepted nonces zero) (checkNonces nonces zero).baseOffset % 2 ^ 32
  rejected : (checkNonces nonces zero).duplicates + (checkNonces nonces zero).receivedOutOfRange = rejected nonces zero

/-- The losses are counted right if and only if no check makes a negative shift: it could be one check at most,
since the window moves by 2^31 in it. -/
theorem lostPackets_iff (hword : ∀ n ∈ nonces, n < 2 ^ 32) :
    (checkNonces nonces zero).lostPackets % 2 ^ 32 =
        Nat.count (fun m => m ∉ accepted nonces zero) (checkNonces nonces zero).baseOffset % 2 ^ 32 ↔
      tally Overlooks nonces zero = 0 := by
  have hbase := @checkNonces_base_lt zero nonces rfl (2 ^ 32) (by decide) hword
  obtain ⟨more, hge, hle, hmoved, hlost⟩ := lost_checkNonces (@exact_empty zero rfl) hword
  have hmissing : missing ((accepted nonces zero).reverse ++ []) (checkNonces nonces zero).baseOffset =
      count (fun m => m ∉ accepted nonces zero) (checkNonces nonces zero).baseOffset :=
    count_congr fun m _ => by rw [List.append_nil, List.mem_reverse]
  have hzero : missing [] zero.baseOffset = 0 := rfl
  have hfirst : zero.lostPackets = 0 := rfl
  constructor
  · intro h
    omega
  · intro h
    omega

/-- The counters are right as long as no check makes a negative shift over a bit that is set and no counter
comes to its end. -/
theorem accounted_iff (nonces : List Nat) (hword : ∀ n ∈ nonces, n < 2 ^ 32) :
    Accounted nonces ↔
      tally Overlooks nonces zero = 0 ∧ tally Below nonces zero < 2 ^ 32 ∧ tally Again nonces zero < 2 ^ 32 := by
  have hbelow : (checkNonces nonces zero).receivedOutOfRange = (0 + tally Below nonces zero) % 2 ^ 32 :=
    counter_eq receivedOutOfRange Below
      (fun context nonce h => (checkNonce_counted context h).elim fun _ h => h.outOfRange) hword (by decide)
  have hagain : (checkNonces nonces zero).duplicates = (0 + tally Again nonces zero) % 2 ^ 32 :=
    counter_eq duplicates Again
      (fun context nonce h => (checkNonce_counted context h).elim fun _ h => h.duplicates) hword (by decide)
  have hrejected := rejected_eq hword zero
  constructor
  · intro h
    have hsum := h.rejected
    exact ⟨(lostPackets_iff hword).mp h.lost, by omega, by omega⟩
  · intro h
    exact ⟨(lostPackets_iff hword).mpr h.1, by omega⟩

/-- 300 moves the window to 253, so 268 passes once and 5 is too late. -/
theorem accounted_four : Accounted [300, 268, 268, 5] :=
  (accounted_iff _ (by decide)).mpr (by decide +kernel)

/-- The number 63 passes, and then the window is shifted by 2^31 + 63: it is counted as lost. -/
theorem not_accounted_far : ¬ Accounted [63, 2 ^ 31 + 110] := by
  intro h
  have hnone := (lostPackets_iff (by decide)).mp h.lost
  have hfirst : zero.checkNonce 63 = (true, { zero with bitfield := 1#64 <<< 63 }) := by decide +kernel
  have hover : Overlooks { zero with bitfield := 1#64 <<< 63 } (2 ^ 31 + 110) := by decide +kernel
  rw [tally, hfirst, tally, if_pos hover] at hnone
  omega

end ReplayProtector

end Hyperboria
