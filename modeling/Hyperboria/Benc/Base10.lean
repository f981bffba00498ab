/-
`util/Base10.c`: a decimal numeral at the front of a message.

`Numeral w v rest` says what a numeral is, without a reader: an optional minus
sign, one or more digits, and then something that is not a digit. `read_of_numeral`
and `numeral_of_read`: `Base10_read` returns exactly on these, with the value modulo
2^64. Nothing checks a range: what is written reads back, but a numeral out of the
64 bits is read as another number (`codec_iff`). `Base10_write` has no meaning at
`INT64_MIN`, which it negates.
-/
import Hyperboria.Message

namespace Hyperboria.Base10

open List

/-- `chr >= '0' && chr <= '9'`. -/
def isDigit (chr : UInt8) : Bool := 48 ≤ chr && chr ≤ 57

/-- `out *= 10; out += chr - '0'`, on a 64-bit word; the build leaves an overflow to the machine. -/
def push (out : Int) (chr : UInt8) : Int := ((out * 10).bmod (2 ^ 64) + (chr.toNat - 48)).bmod (2 ^ 64)

/-- `if (negative) { out = -out; }`. -/
def signed (negative : Bool) (out : Int) : Int := if negative then (-out).bmod (2 ^ 64) else out

/-- The loop of `Base10_read`: `chr` has been popped, `bytes` are the ones after it. -/
def loop (negative : Bool) (out : Int) (chr : UInt8) (pad : List UInt8) : List UInt8 → Er (Int × Message)
  | [] =>
    if isDigit chr then .ret (signed negative (push out chr), ⟨pad, []⟩)
    else do
      let msg ← Message.epush8 ⟨pad, []⟩ chr
      .ret (signed negative out, msg)
  | c :: bytes =>
    if isDigit chr then loop negative (push out chr) c (c :: pad) bytes
    else do
      let msg ← Message.epush8 ⟨pad, c :: bytes⟩ chr
      .ret (signed negative out, msg)

/-- The part of `Base10_read` after the sign. -/
def unsignedPart (negative : Bool) (chr : UInt8) (msg : Message) : Er (Int × Message) :=
  if isDigit chr then loop negative 0 chr msg.pad msg.bytes
  else do
    let _ ← msg.epush8 chr
    .raise "No base10 characters found"

def read (msg : Message) : Er (Int × Message) := do
  let (chr, msg) ← msg.epop8
  if chr = 45 then do
    let (chr, msg) ← msg.epop8
    unsignedPart true chr msg
  else unsignedPart false chr msg

/-! ## Numerals -/

/-- The bytes before the digits. -/
def sign (negative : Bool) : List UInt8 := if negative then [45] else []

/-- `w` begins with a numeral of value `v`, and goes on with `rest`. -/
structure Numeral (w : List UInt8) (v : Int) (rest : List UInt8) : Prop where
  spelled : ∃ negative ds, ds ≠ [] ∧ (∀ d ∈ ds, isDigit d = true) ∧ w = sign negative ++ (ds ++ rest) ∧
    v = signed negative (ds.foldl push 0)
  stops : ∀ c, rest.head? = some c → isDigit c = false

theorem loop_eq (negative : Bool) (bytes : List UInt8) : ∀ out chr pad,
    loop negative out chr (chr :: pad) bytes =
      .ret (signed negative (((chr :: bytes).takeWhile isDigit).foldl push out),
        ⟨((chr :: bytes).takeWhile isDigit).reverse ++ pad, (chr :: bytes).dropWhile isDigit⟩) := by
  induction bytes with
  | nil =>
    intro out chr pad
    by_cases h : isDigit chr = true
    · simp [loop, h]
    · simp [loop, h]
  | cons c bytes ih =>
    intro out chr pad
    by_cases h : isDigit chr = true
    · rw [loop, ih]
      simp [h]
    · simp [loop, h]

theorem dropWhile_stops (w : List UInt8) : ∀ c, (w.dropWhile isDigit).head? = some c → isDigit c = false := by
  intro c hc
  have h := head?_dropWhile_not isDigit w
  simpa [hc] using h

theorem takeWhile_digits {ds rest : List UInt8} (hd : ∀ d ∈ ds, isDigit d = true)
    (hs : ∀ c, rest.head? = some c → isDigit c = false) :
    (ds ++ rest).takeWhile isDigit = ds ∧ (ds ++ rest).dropWhile isDigit = rest := by
  have hr : rest.takeWhile isDigit = [] ∧ rest.dropWhile isDigit = rest := by
    cases rest with
    | nil => simp
    | cons c rest => simp [hs c rfl]
  rw [takeWhile_append_of_pos hd, dropWhile_append_of_pos hd, hr.1, hr.2]
  simp

theorem isDigit_ne_minus {c} (h : isDigit c = true) : c ≠ 45 := by
  intro hc
  subst hc
  exact absurd h (by decide)

theorem read_cons {c} (pad bytes : List UInt8) (h : c ≠ 45) :
    read ⟨pad, c :: bytes⟩ = unsignedPart false c ⟨c :: pad, bytes⟩ := by
  simp [read, h]

theorem read_minus (pad bytes : List UInt8) (c : UInt8) :
    read ⟨pad, 45 :: c :: bytes⟩ = unsignedPart true c ⟨c :: 45 :: pad, bytes⟩ := by
  simp [read]

theorem read_of_numeral {w rest} {v} (h : Numeral w v rest) (pad : List UInt8) :
    ∃ pad', read ⟨pad, w⟩ = .ret (v, ⟨pad', rest⟩) := by
  obtain ⟨negative, ds, hne, hd, rfl, rfl⟩ := h.spelled
  obtain ⟨ht, hr⟩ := takeWhile_digits hd h.stops
  cases ds with
  | nil => exact absurd rfl hne
  | cons d ds =>
    have hdd := hd d (by simp)
    cases negative with
    | true =>
      simp only [sign, if_true, cons_append, nil_append] at ht hr ⊢
      rw [read_minus, unsignedPart, if_pos hdd, loop_eq, ht, hr]
      exact ⟨_, rfl⟩
    | false =>
      simp only [sign, Bool.false_eq_true, if_false, cons_append, nil_append] at ht hr ⊢
      rw [read_cons _ _ (isDigit_ne_minus hdd), unsignedPart, if_pos hdd, loop_eq, ht, hr]
      exact ⟨_, rfl⟩

theorem unsignedPart_sound {negative} {c} {pad bytes} {v} {m}
    (h : unsignedPart negative c ⟨c :: pad, bytes⟩ = .ret (v, m)) :
    Numeral (sign negative ++ c :: bytes) v m.bytes := by
  unfold unsignedPart at h
  split at h
  · next hc =>
    rw [loop_eq] at h
    cases h
    refine ⟨⟨negative, (c :: bytes).takeWhile isDigit, by simp [hc], ?_, by simp, rfl⟩, dropWhile_stops _⟩
    intro d hd
    exact all_eq_true.mp all_takeWhile d hd
  · simp [Er.raise] at h

theorem numeral_of_read {pad w} {v} {m} (h : read ⟨pad, w⟩ = .ret (v, m)) :
    Numeral w v m.bytes := by
  cases w with
  | nil => simp [read] at h
  | cons c w =>
    by_cases hc : c = 45
    · subst hc
      cases w with
      | nil => simp [read] at h
      | cons c w =>
        exact unsignedPart_sound h
    · rw [read_cons _ _ hc] at h
      exact unsignedPart_sound h

theorem unsignedPart_ne_spin (negative : Bool) (c : UInt8) (pad bytes : List UInt8) :
    unsignedPart negative c ⟨c :: pad, bytes⟩ ≠ .spin := by
  unfold unsignedPart
  split
  · rw [loop_eq]; simp
  · simp [Er.raise]

theorem read_ne_spin (pad w : List UInt8) : read ⟨pad, w⟩ ≠ .spin := by
  cases w with
  | nil => simp [read]
  | cons c w =>
    by_cases hc : c = 45
    · subst hc
      cases w with
      | nil => simp [read]
      | cons c w => rw [read_minus]; exact unsignedPart_ne_spin _ _ _ _
    · rw [read_cons _ _ hc]; exact unsignedPart_ne_spin _ _ _ _

theorem Numeral.length_lt {w rest} {v} (h : Numeral w v rest) : rest.length < w.length := by
  obtain ⟨negative, ds, hne, -, rfl, -⟩ := h.spelled
  have := length_pos_iff.mpr hne
  simp only [length_append]
  omega

/-! ## Writing -/

/-- `while (num > 0)` of `Base10_write`. -/
def writeDigits (msg : Message) (num : Int) : Er Message :=
  if 0 < num then do
    let msg ← msg.epush8 (UInt8.ofNat (48 + num.toNat % 10))
    writeDigits msg (num / 10)
  else .ret msg
termination_by num.toNat
decreasing_by omega

/-- `Base10_write`; `num = -num` is undefined at `INT64_MIN`. -/
def write (msg : Message) (num : Int) : Er Message :=
  if num = -2 ^ 63 then .abort "undefined: -INT64_MIN"
  else if num < 0 then do
    let msg ← writeDigits msg (-num)
    msg.epush8 45
  else if num = 0 then msg.epush8 48
  else writeDigits msg num

/-- What digits mean, without a word size. -/
def value (ds : List UInt8) : Int := ds.foldl (fun v d => v * 10 + (d.toNat - 48)) 0

/-- What a numeral means. -/
def meaning (negative : Bool) (ds : List UInt8) : Int := if negative then -value ds else value ds

theorem value_concat (ds : List UInt8) (d : UInt8) : value (ds ++ [d]) = value ds * 10 + (d.toNat - 48) := by
  simp [value]

theorem foldl_push (ds : List UInt8) : ∀ v : Int, ds.foldl push (v.bmod (2 ^ 64)) =
    (ds.foldl (fun (v : Int) d => v * 10 + (d.toNat - 48)) v).bmod (2 ^ 64) := by
  induction ds with
  | nil => exact fun _ => rfl
  | cons d ds ih =>
    intro v
    rw [foldl_cons, foldl_cons, ← ih, push, Int.bmod_add_bmod, ← Int.bmod_add_bmod, Int.bmod_mul_bmod,
      Int.bmod_add_bmod]

theorem signed_foldl (negative : Bool) (ds : List UInt8) :
    signed negative (ds.foldl push 0) = (meaning negative ds).bmod (2 ^ 64) := by
  rw [show ds.foldl push 0 = (value ds).bmod (2 ^ 64) from foldl_push ds 0, signed, meaning]
  cases negative with
  | true => simp only [if_true, Int.bmod_neg_bmod]
  | false => rfl

theorem bmod_eq_self_iff (v : Int) : v.bmod (2 ^ 64) = v ↔ -2 ^ 63 ≤ v ∧ v < 2 ^ 63 := by
  constructor
  · intro h
    have h₁ := Int.le_bmod (x := v) (m := 2 ^ 64) (by decide)
    have h₂ := Int.bmod_lt (x := v) (m := 2 ^ 64) (by decide)
    omega
  · intro h
    exact Int.bmod_eq_of_le (by omega) (by omega)

theorem read_numeral {negative} {ds rest} (hne : ds ≠ []) (hd : ∀ d ∈ ds, isDigit d = true)
    (hs : ∀ c, rest.head? = some c → isDigit c = false) (pad : List UInt8) :
    ∃ pad', read ⟨pad, sign negative ++ (ds ++ rest)⟩ = .ret ((meaning negative ds).bmod (2 ^ 64), ⟨pad', rest⟩) := by
  rw [← signed_foldl]
  exact read_of_numeral ⟨⟨negative, ds, hne, hd, rfl, rfl⟩, hs⟩ pad

theorem writeDigits_eq (k : Nat) : ∀ num pad bytes,
    0 ≤ num → num < 10 ^ k → k ≤ pad.length →
    ∃ pad' ds, writeDigits ⟨pad, bytes⟩ num = .ret ⟨pad', ds ++ bytes⟩ ∧ (∀ d ∈ ds, isDigit d = true) ∧
      value ds = num ∧ pad.length ≤ pad'.length + k ∧ (0 < num → ds ≠ []) := by
  induction k with
  | zero =>
    intro num pad bytes h0 hlt _
    obtain rfl : num = 0 := by omega
    exact ⟨pad, [], by simp [writeDigits], by simp, rfl, by omega, by omega⟩
  | succ k ih =>
    intro num pad bytes h0 hlt hk
    by_cases hpos : 0 < num
    · obtain ⟨c, pad, rfl⟩ := exists_cons_of_length_pos (Nat.lt_of_lt_of_le (Nat.succ_pos k) hk)
      simp only [length_cons] at hk ⊢
      -- the last digit is pushed first, the others go in front of it
      obtain ⟨pad', ds, hw, hd, hv, hl, -⟩ := ih (num / 10) pad (UInt8.ofNat (48 + num.toNat % 10) :: bytes)
        (by omega) (by omega) (by omega)
      have hnat : (UInt8.ofNat (48 + num.toNat % 10)).toNat = 48 + num.toNat % 10 := by
        rw [UInt8.toNat_ofNat']
        omega
      refine ⟨pad', ds ++ [UInt8.ofNat (48 + num.toNat % 10)], ?_, ?_, ?_, by omega, by simp⟩
      · rw [writeDigits, if_pos hpos, Message.epush8_cons, Er.ret_bind, hw]
        simp
      · intro d hmem
        rcases mem_append.mp hmem with h | h
        · exact hd d h
        · rw [mem_singleton.mp h, isDigit]
          simp only [Bool.and_eq_true, UInt8.le_iff_toNat_le, hnat]
          exact ⟨by simp, by simp; omega⟩
      · rw [value_concat]
        omega
    · exact ⟨pad, [], by rw [writeDigits, if_neg hpos]; rfl, by simp, by simp [value]; omega, by omega, by omega⟩

theorem write_eq {num} (hlo : -2 ^ 63 < num) (hhi : num < 2 ^ 63) {pad} (hroom : 20 ≤ pad.length)
    (rest : List UInt8) :
    ∃ negative pad' ds, write ⟨pad, rest⟩ num = .ret ⟨pad', sign negative ++ (ds ++ rest)⟩ ∧ ds ≠ [] ∧
      (∀ d ∈ ds, isDigit d = true) ∧ meaning negative ds = num := by
  unfold write
  rw [if_neg hlo.ne']
  split
  · next hneg =>
    obtain ⟨pad', ds, hw, hd, hv, hl, hne⟩ := writeDigits_eq 19 (-num) pad rest (by omega) (by omega) (by omega)
    obtain ⟨c, pad', rfl⟩ := exists_cons_of_length_pos (show 0 < pad'.length by omega)
    refine ⟨true, pad', ds, ?_, hne (by omega), hd, by simp [meaning, hv]⟩
    rw [hw]
    rfl
  · split
    · next hzero =>
      obtain ⟨c, pad', rfl⟩ := exists_cons_of_length_pos (show 0 < pad.length by omega)
      exact ⟨false, pad', [48], by simp [sign], by simp, by simp [isDigit], by simp [meaning, value, hzero]⟩
    · next hneg hzero =>
      obtain ⟨pad', ds, hw, hd, hv, -, hne⟩ := writeDigits_eq 19 num pad rest (by omega) (by omega) (by omega)
      exact ⟨false, pad', ds, by rw [hw]; rfl, hne (by omega), hd, by simp [meaning, hv]⟩

/-- What is written reads back; a numeral is read as what it means exactly when that fits. -/
theorem codec_iff (n : Int) (negative : Bool) (ds pad rest : List UInt8) (hlo : -2 ^ 63 < n) (hhi : n < 2 ^ 63)
    (hne : ds ≠ []) (hd : ∀ d ∈ ds, isDigit d = true) (hs : ∀ c, rest.head? = some c → isDigit c = false) :
    (20 ≤ pad.length → ∃ out, write ⟨pad, rest⟩ n = .ret out ∧ ∃ pad', read out = .ret (n, ⟨pad', rest⟩)) ∧
    (∃ v pad', read ⟨pad, sign negative ++ (ds ++ rest)⟩ = .ret (v, ⟨pad', rest⟩)) ∧
    ((∃ pad', read ⟨pad, sign negative ++ (ds ++ rest)⟩ = .ret (meaning negative ds, ⟨pad', rest⟩)) ∨
        (∃ e, read ⟨pad, sign negative ++ (ds ++ rest)⟩ = .abort e) ↔
      -2 ^ 63 ≤ meaning negative ds ∧ meaning negative ds < 2 ^ 63) := by
  constructor
  · intro hroom
    obtain ⟨negative, pad', ds, hw, hne, hd, rfl⟩ := write_eq hlo hhi hroom rest
    obtain ⟨pad'', hr⟩ := read_numeral hne hd hs pad'
    rw [(bmod_eq_self_iff _).mpr ⟨hlo.le, hhi⟩] at hr
    exact ⟨_, hw, pad'', hr⟩
  · obtain ⟨pad', hr⟩ := @read_numeral negative ds rest hne hd hs pad
    rw [← bmod_eq_self_iff, hr]
    refine ⟨⟨_, pad', rfl⟩, ?_, fun h => .inl ⟨pad', by rw [h]⟩⟩
    rintro (⟨_, h⟩ | ⟨_, h⟩)
    · exact (Prod.mk.inj (Er.ret.inj h)).1
    · cases h

/-- `-9223372036854775807` comes back, `99` is read up to the `e` behind it. -/
theorem codec_instance :
    (∃ out, write ⟨List.replicate 20 0, [101]⟩ (-9223372036854775807) = .ret out ∧
      ∃ pad', read out = .ret (-9223372036854775807, ⟨pad', [101]⟩)) ∧
    ∃ v pad', read ⟨List.replicate 20 0, [57, 57, 101]⟩ = .ret (v, ⟨pad', [101]⟩) := by
  obtain ⟨hwrite, hread, -⟩ := codec_iff (-9223372036854775807) false [57, 57] (List.replicate 20 0) [101]
    (by decide) (by decide) (by decide) (by simp [isDigit]) (by simp [isDigit])
  exact ⟨hwrite (by decide), hread⟩

set_option maxRecDepth 4000 in
/-- 2^64 is read as 0, and one less than `INT64_MIN` as the greatest number. -/
theorem read_wraps :
    (∃ m, read ⟨[], [49, 56, 52, 52, 54, 55, 52, 52, 48, 55, 51, 55, 48, 57, 53, 53, 49, 54, 49, 54]⟩ = .ret (0, m)) ∧
    ∃ m, read ⟨[], [45, 57, 50, 50, 51, 51, 55, 50, 48, 51, 54, 56, 53, 52, 55, 55, 53, 56, 48, 57]⟩ =
      .ret (9223372036854775807, m) :=
  ⟨⟨_, rfl⟩, _, rfl⟩

end Hyperboria.Base10
