/-
`crypto/ReplayProtector.h`: the window of packet numbers a session has accepted.
A number is seen when it lies below the window or its bit is set; a number the check
lets pass was not seen, and then it is (`checkNonce_true`). The counters are
statistics: the check writes them and never reads them.

The second half follows a window through any number of checks. It loses nothing that
is less than 33 behind the greatest number it was shown (`window_exact`).
-/
import Hyperboria.Er

namespace Hyperboria

open List

structure ReplayProtector where
  bitfield : BitVec 64
  baseOffset : Nat
  duplicates : Nat
  lostPackets : Nat
  receivedOutOfRange : Nat
deriving DecidableEq, Repr

namespace ReplayProtector

/-- The window after `Bits_memset(.., 0, ..)`. -/
def zero : ReplayProtector :=
  { bitfield := 0, baseOffset := 0, duplicates := 0, lostPackets := 0, receivedOutOfRange := 0 }

/-- `Bits_popCountx64`. -/
def popCountx64 (number : BitVec 64) : Nat := (List.range 64).countP fun i => number.getLsbD i

/-- `RelayProtector_lostInShift`. The C code does not define a shift by more than 63, which a negative
`shiftAmount` asks for; the machine takes the low six bits of the count. -/
def lostInShift (bitfield : BitVec 64) (shiftAmount : Int) : Int :=
  if shiftAmount = 0 then 0
  else if shiftAmount > 63 then shiftAmount - popCountx64 bitfield
  else shiftAmount - popCountx64 (bitfield <<< ((64 - shiftAmount) % 64).toNat)

/-- A `uint32_t` passed as an `int`. -/
def asInt (n : Nat) : Int := if n < 2 ^ 31 then n else n - 2 ^ 32

/-- `ReplayProtector_DO_SHIFT`. -/
def doShift (context : ReplayProtector) (bits : Nat) : ReplayProtector :=
  { context with
    bitfield := if bits > 63 then 0 else context.bitfield >>> bits
    baseOffset := context.baseOffset + bits }

/-- `context->lostPackets += ..`. -/
def lose (context : ReplayProtector) (lost : Int) : ReplayProtector :=
  { context with lostPackets := ((context.lostPackets + lost) % 2 ^ 32).toNat }

/-- The `while` loop: it answers the offset it leaves and the window. A round takes at least 17 from
the offset, so as many rounds as the offset are enough (`slide_offset_le`). -/
def slide : Nat → Nat → ReplayProtector → Nat × ReplayProtector
  | 0, offset, context => (offset, context)
  | n + 1, offset, context =>
    if offset > 63 then
      if context.bitfield &&& 0xffffffff#64 = 0xffffffff#64 then slide n (offset - 32) (context.doShift 32)
      else
        let context := context.lose (lostInShift context.bitfield (asInt (offset - 47)))
        slide n (offset - (offset - 47)) (context.doShift (offset - 47))
    else (offset, context)

def checkNonce (nonce : Nat) (context : ReplayProtector) : Bool × ReplayProtector :=
  if nonce < context.baseOffset then
    (false, { context with receivedOutOfRange := (context.receivedOutOfRange + 1) % 2 ^ 32 })
  else
    let (offset, context) := slide (nonce - context.baseOffset) (nonce - context.baseOffset) context
    if context.bitfield.getLsbD offset then
      (false, { context with duplicates := (context.duplicates + 1) % 2 ^ 32 })
    else (true, { context with bitfield := context.bitfield ||| (1#64 <<< offset) })

/-- The window would not let `n` pass. -/
def Seen (context : ReplayProtector) (n : Nat) : Prop :=
  n < context.baseOffset ∨ context.bitfield.getLsbD (n - context.baseOffset) = true

instance (context : ReplayProtector) (n : Nat) : Decidable (context.Seen n) :=
  inferInstanceAs (Decidable (_ ∨ _))

theorem slide_offset_le (n : Nat) : ∀ {offset} {context}, offset ≤ n →
    (slide n offset context).1 ≤ 63 := by
  induction n with
  | zero => intro offset context h; simp [slide]; omega
  | succ n ih =>
    intro offset context h
    simp only [slide]
    split
    · split
      · exact ih (by omega)
      · exact ih (by omega)
    · simp only; omega

theorem slide_base (n : Nat) : ∀ {offset} {context},
    (slide n offset context).2.baseOffset + (slide n offset context).1 = context.baseOffset + offset := by
  induction n with
  | zero => intros; rfl
  | succ n ih =>
    intro offset context
    simp only [slide]
    split
    · split
      · rw [ih]; simp [doShift]; omega
      · rw [ih]; simp only [doShift, lose]; omega
    · rfl

variable {context : ReplayProtector}

/-- A shift moves the numbers that stay in the window with their bits. -/
theorem doShift_bit {bits m} (h : (context.doShift bits).baseOffset ≤ m) :
    (context.doShift bits).bitfield.getLsbD (m - (context.doShift bits).baseOffset) =
      context.bitfield.getLsbD (m - context.baseOffset) := by
  simp only [doShift] at h ⊢
  have hm : m - context.baseOffset = bits + (m - (context.baseOffset + bits)) := by omega
  split
  next hwide =>
    rw [BitVec.getLsbD_of_ge _ (m - context.baseOffset) (by omega)]
    exact BitVec.getLsbD_zero
  next => rw [BitVec.getLsbD_ushiftRight, ← hm]

/-- The loop never moves the window back, keeps the bits of what it leaves in it, and if it moves it at
all then no further than 32 before the number that is checked. -/
theorem slide_window (n : Nat) : ∀ {offset} {context},
    context.baseOffset ≤ (slide n offset context).2.baseOffset ∧
    (∀ m, (slide n offset context).2.baseOffset ≤ m →
      (slide n offset context).2.bitfield.getLsbD (m - (slide n offset context).2.baseOffset) =
        context.bitfield.getLsbD (m - context.baseOffset)) ∧
    ((slide n offset context).2.baseOffset = context.baseOffset ∨
      (slide n offset context).2.baseOffset + 32 ≤ context.baseOffset + offset) := by
  induction n with
  | zero => intro offset context; exact ⟨Nat.le_refl _, fun _ _ => rfl, .inl rfl⟩
  | succ n ih =>
    intro offset context
    -- one round: the rest of the loop starts from the shifted window
    have hround : ∀ (context' : ReplayProtector) (bits : Nat), context'.bitfield = context.bitfield →
        context'.baseOffset = context.baseOffset → bits + 32 ≤ offset →
        context.baseOffset ≤ (slide n (offset - bits) (context'.doShift bits)).2.baseOffset ∧
        (∀ m, (slide n (offset - bits) (context'.doShift bits)).2.baseOffset ≤ m →
          (slide n (offset - bits) (context'.doShift bits)).2.bitfield.getLsbD
              (m - (slide n (offset - bits) (context'.doShift bits)).2.baseOffset) =
            context.bitfield.getLsbD (m - context.baseOffset)) ∧
        ((slide n (offset - bits) (context'.doShift bits)).2.baseOffset = context.baseOffset ∨
          (slide n (offset - bits) (context'.doShift bits)).2.baseOffset + 32 ≤ context.baseOffset + offset) := by
      intro context' bits hfield hbase hbits
      obtain ⟨hle, hbit, hroom⟩ := @ih (offset - bits) (context'.doShift bits)
      have hshift : (context'.doShift bits).baseOffset = context.baseOffset + bits := by rw [doShift, hbase]
      refine ⟨by omega, fun m hm => ?_, .inr (by omega)⟩
      rw [hbit m hm, doShift_bit (Nat.le_trans hle hm), hfield, hbase]
    simp only [slide]
    split
    · split
      · exact hround context 32 rfl rfl (by omega)
      · exact hround _ (offset - 47) rfl rfl (by omega)
    · exact ⟨Nat.le_refl _, fun _ _ => rfl, .inl rfl⟩

variable {nonce : Nat} {context' : ReplayProtector} {passes : Bool}

/-- One check, exactly. A number below the window fails. Any other passes unless its bit is set; the window
moves up to it, leaves at least 32 numbers before it if it moves at all, and has its bit then. -/
theorem checkNonce_cases (h : checkNonce nonce context = (passes, context')) :
    (nonce < context.baseOffset ∧ passes = false ∧ context'.baseOffset = context.baseOffset ∧
      context'.bitfield = context.bitfield) ∨
    (context.baseOffset ≤ context'.baseOffset ∧ context'.baseOffset ≤ nonce ∧
      (context'.baseOffset = context.baseOffset ∨ context'.baseOffset + 32 ≤ nonce) ∧
      passes = !context.bitfield.getLsbD (nonce - context.baseOffset) ∧
      ∀ m, context'.baseOffset ≤ m → (context'.bitfield.getLsbD (m - context'.baseOffset) = true ↔
        context.bitfield.getLsbD (m - context.baseOffset) = true ∨ m = nonce)) := by
  unfold checkNonce at h
  split at h
  next hlow =>
    cases h
    exact .inl ⟨hlow, rfl, rfl, rfl⟩
  next hlow =>
    have hbase := @slide_base (nonce - context.baseOffset) (nonce - context.baseOffset) context
    have hle63 := @slide_offset_le (nonce - context.baseOffset) _ context (Nat.le_refl _)
    obtain ⟨hle, hbit, hroom⟩ := @slide_window (nonce - context.baseOffset) (nonce - context.baseOffset) context
    generalize slide (nonce - context.baseOffset) (nonce - context.baseOffset) context = r at *
    obtain ⟨offset, slid⟩ := r
    simp only at hbase hle63 hle hbit hroom h
    have hoffset : nonce - slid.baseOffset = offset := by omega
    have hnonce := hbit nonce (by omega)
    rw [hoffset] at hnonce
    split at h
    next hset =>
      cases h
      rw [hset] at hnonce
      refine .inr ⟨hle, by simp only; omega, hroom.imp_right fun _ => by simp only; omega, by rw [← hnonce]; rfl,
        fun m hm => ?_⟩
      rw [hbit m hm]
      exact ⟨.inl, fun hm => hm.elim id fun hm => hm ▸ hnonce.symm⟩
    next hclear =>
      cases h
      refine .inr ⟨hle, by simp only; omega, hroom.imp_right fun _ => by simp only; omega,
        by simpa [← hnonce] using hclear, fun m hm => ?_⟩
      simp only at hm ⊢
      rw [BitVec.getLsbD_or, hbit m hm, BitVec.getLsbD_shiftLeft, BitVec.getLsbD_one]
      simp only [Bool.or_eq_true, Bool.and_eq_true, decide_eq_true_eq, Bool.not_eq_true', decide_eq_false_iff_not]
      refine or_congr_right ?_
      omega

/-- Nothing is forgotten by a check. -/
theorem Seen.checkNonce {m} (h : context.Seen m) (nonce : Nat) :
    (checkNonce nonce context).2.Seen m := by
  generalize hr : ReplayProtector.checkNonce nonce context = r
  obtain ⟨passes, context'⟩ := r
  obtain ⟨-, -, hbase, hfield⟩ | ⟨hle, -, -, -, hbits⟩ := checkNonce_cases hr
  · unfold Seen at h ⊢
    rwa [hbase, hfield]
  · by_cases hm : m < context'.baseOffset
    · exact .inl hm
    · refine .inr ((hbits m (Nat.le_of_not_lt hm)).mpr (.inl (h.resolve_left ?_)))
      omega

/-- A number that passes was not seen before, and is afterwards, with all that was. -/
theorem checkNonce_true (h : checkNonce nonce context = (true, context')) :
    ¬ context.Seen nonce ∧ context'.Seen nonce ∧ ∀ m, context.Seen m → context'.Seen m := by
  obtain ⟨-, hfails, -⟩ | ⟨hle, hnonce, -, hpasses, hbits⟩ := checkNonce_cases h
  · exact absurd hfails.symm Bool.false_ne_true
  · have hclear : context.bitfield.getLsbD (nonce - context.baseOffset) = false := by simpa using hpasses
    refine ⟨fun hseen => ?_, .inr ((hbits nonce hnonce).mpr (.inr rfl)), fun m hm => ?_⟩
    · rcases hseen with hlow | hset
      · omega
      · exact Bool.false_ne_true (hclear.symm.trans hset)
    · have := hm.checkNonce nonce
      rwa [h] at this

/-! ## Any number of checks -/

/-- The window is right about the numbers `seen`: it has the bits of those it reaches, and it has only
left behind what is below `start` or more than 32 behind one of `shown`. -/
structure Exact (start : Nat) (shown seen : List Nat) (context : ReplayProtector) : Prop where
  bits : ∀ m, context.baseOffset ≤ m → (context.bitfield.getLsbD (m - context.baseOffset) = true ↔ m ∈ seen)
  start_le : start ≤ context.baseOffset
  base : context.baseOffset = start ∨ ∃ m ∈ shown, context.baseOffset + 32 ≤ m
  seen_ge : ∀ m ∈ seen, start ≤ m
  nodup : seen.Nodup

variable {start : Nat} {seen shown : List Nat}

/-- A number passes if and only if it is not below the window and has not passed before. -/
theorem Exact.passes_iff (h : Exact start shown seen context) (hcheck : checkNonce nonce context = (passes, context')) :
    passes = true ↔ context.baseOffset ≤ nonce ∧ nonce ∉ seen := by
  obtain ⟨hlow, rfl, -⟩ | ⟨hle, hnonce, -, rfl, -⟩ := checkNonce_cases hcheck
  · exact iff_of_false Bool.false_ne_true fun hn => by omega
  · have hle' := Nat.le_trans hle hnonce
    rw [← h.bits nonce hle', Bool.not_eq_true', Bool.not_eq_true]
    exact ⟨fun hclear => ⟨hle', hclear⟩, fun hclear => hclear.2⟩

theorem Exact.checkNonce (h : Exact start shown seen context) (hcheck : checkNonce nonce context = (passes, context')) :
    Exact start (nonce :: shown) (if passes then nonce :: seen else seen) context' := by
  have hpasses := h.passes_iff hcheck
  have hstart := h.start_le
  have hshown : ∀ {b}, (∃ m ∈ shown, b + 32 ≤ m) → ∃ m ∈ nonce :: shown, b + 32 ≤ m :=
    fun ⟨m, hm, hle⟩ => ⟨m, mem_cons_of_mem _ hm, hle⟩
  obtain ⟨hlow, rfl, hbase, hfield⟩ | ⟨hle, hnonce, hroom, hbit, hbits⟩ := checkNonce_cases hcheck
  · refine ⟨?_, hbase ▸ hstart, hbase ▸ h.base.imp_right hshown, h.seen_ge, h.nodup⟩
    rw [hbase, hfield]
    exact h.bits
  have hmoved : context'.baseOffset = start ∨ ∃ m ∈ nonce :: shown, context'.baseOffset + 32 ≤ m := by
    rcases hroom with hstays | hmoves
    · rw [hstays]
      exact h.base.imp_right hshown
    · exact .inr ⟨nonce, mem_cons_self, hmoves⟩
  have hseen : ∀ m, context'.baseOffset ≤ m →
      (context'.bitfield.getLsbD (m - context'.baseOffset) = true ↔ m ∈ seen ∨ m = nonce) :=
    fun m hm => (hbits m hm).trans (or_congr_left (h.bits m (Nat.le_trans hle hm)))
  cases passes with
  | true =>
    obtain ⟨-, hnew⟩ := hpasses.mp rfl
    refine ⟨fun m hm => (hseen m hm).trans ?_, by omega, hmoved, fun m hm => ?_, nodup_cons.mpr ⟨hnew, h.nodup⟩⟩
    · rw [if_pos rfl, mem_cons, or_comm]
    · rcases mem_cons.mp hm with rfl | hm
      · omega
      · exact h.seen_ge m hm
  | false =>
    have hold : nonce ∈ seen := by
      by_contra hnew
      exact Bool.false_ne_true (hpasses.mpr ⟨by omega, hnew⟩)
    refine ⟨fun m hm => (hseen m hm).trans ?_, by omega, hmoved, h.seen_ge, h.nodup⟩
    exact ⟨fun hm => hm.elim id fun hm => hm ▸ hold, .inl⟩

/-- The window after the numbers were checked one after the other. -/
def checkNonces : List Nat → ReplayProtector → ReplayProtector
  | [], context => context
  | nonce :: nonces, context => checkNonces nonces (context.checkNonce nonce).2

/-- The numbers that pass, in their order. -/
def accepted : List Nat → ReplayProtector → List Nat
  | [], _ => []
  | nonce :: nonces, context =>
    if (context.checkNonce nonce).1 then nonce :: accepted nonces (context.checkNonce nonce).2
    else accepted nonces (context.checkNonce nonce).2

theorem Exact.checkNonces {nonces shown seen} (h : Exact start shown seen context) :
    Exact start (nonces.reverse ++ shown) ((accepted nonces context).reverse ++ seen) (checkNonces nonces context) := by
  induction nonces generalizing context shown seen with
  | nil => exact h
  | cons nonce nonces ih =>
    have hnext := ih (h.checkNonce (Prod.eta (context.checkNonce nonce)).symm)
    rw [accepted, reverse_cons, append_assoc]
    split
    next hpasses =>
      rw [if_pos hpasses] at hnext
      rwa [reverse_cons, append_assoc, singleton_append]
    next hfails =>
      rw [if_neg hfails] at hnext
      exact hnext

theorem exact_empty (h : context.bitfield = 0) : Exact context.baseOffset [] [] context where
  bits := fun m _ => by simp [h]
  start_le := Nat.le_refl _
  base := .inl rfl
  seen_ge := fun _ hm => absurd hm not_mem_nil
  nodup := nodup_nil

/-- The window stays within the word its numbers are in, so its additions do not wrap. -/
theorem checkNonces_base_lt {nonces} (h : context.bitfield = 0) {bound}
    (hstart : context.baseOffset < bound) (hnonces : ∀ m ∈ nonces, m < bound) :
    (checkNonces nonces context).baseOffset < bound := by
  rcases (@Exact.checkNonces _ _ nonces _ _ (exact_empty h)).base with hbase | ⟨m, hm, hle⟩
  · omega
  · have := hnonces m (by simpa using hm)
    omega

/-- From an empty window, whatever is checked: a number passes at most once, and only if it is not below
the start; and one that has not passed yet passes if it is not below the start and not more than 32
behind any number checked. -/
theorem window_exact (context : ReplayProtector) (hempty : context.bitfield = 0) (nonces : List Nat) :
    (accepted nonces context).Nodup ∧ (∀ n ∈ accepted nonces context, context.baseOffset ≤ n) ∧
    ∀ n, n ∉ accepted nonces context → context.baseOffset ≤ n → (∀ m ∈ nonces, m ≤ n + 32) →
      ((checkNonces nonces context).checkNonce n).1 = true := by
  have hexact := @Exact.checkNonces _ _ nonces _ _ (exact_empty hempty)
  rw [append_nil, append_nil] at hexact
  refine ⟨nodup_reverse.1 hexact.nodup, fun n hn => hexact.seen_ge n (mem_reverse.mpr hn), ?_⟩
  intro n hnew hstart hnear
  refine (hexact.passes_iff (Prod.eta ((checkNonces nonces context).checkNonce n)).symm).mpr ⟨?_, fun hn => hnew (mem_reverse.mp hn)⟩
  rcases hexact.base with hbase | ⟨m, hm, hle⟩
  · omega
  · have := hnear m (mem_reverse.mp hm)
    omega

/-- A window that starts at 5 is shown 300, which moves it to 253, and then 268 and once more 268. -/
theorem window_exact_from_five :
    accepted [300, 268, 268] { zero with baseOffset := 5 } = [300, 268] ∧
    (accepted [300, 268, 268] { zero with baseOffset := 5 }).Nodup ∧
    ((checkNonces [300, 268, 268] { zero with baseOffset := 5 }).checkNonce 269).1 = true := by
  obtain ⟨hnodup, -, hpasses⟩ := window_exact { zero with baseOffset := 5 } rfl [300, 268, 268]
  exact ⟨by decide +kernel, hnodup, hpasses 269 (by decide +kernel) (by decide) (by decide)⟩

end ReplayProtector

end Hyperboria
