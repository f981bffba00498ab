/-
`util/Base32.h`: bytes as characters of five bits, the low bits first. Both loops collect bits in a word and
put a digit out when there are enough of them, so what is put out, what is in the word and what is still to
be read are one number (`total`), which neither loop changes.
-/
import Hyperboria.Bits

namespace Hyperboria.Base32

open List Nat

inductive Err where
  | badInput
  | tooBig

def numForAscii : List Nat :=
  [99, 99, 99, 99, 99, 99, 99, 99, 99, 99, 99, 99, 99, 99, 99, 99,
   99, 99, 99, 99, 99, 99, 99, 99, 99, 99, 99, 99, 99, 99, 99, 99,
   99, 99, 99, 99, 99, 99, 99, 99, 99, 99, 99, 99, 99, 99, 99, 99,
   0, 1, 2, 3, 4, 5, 6, 7, 8, 9, 99, 99, 99, 99, 99, 99,
   99, 99, 10, 11, 12, 99, 13, 14, 15, 99, 16, 17, 18, 19, 20, 99,
   21, 22, 23, 24, 25, 26, 27, 28, 29, 30, 31, 99, 99, 99, 99, 99,
   99, 99, 10, 11, 12, 99, 13, 14, 15, 99, 16, 17, 18, 19, 20, 99,
   21, 22, 23, 24, 25, 26, 27, 28, 29, 30, 31, 99, 99, 99, 99, 99]

/-- The number of a character. One that is not ascii is refused like one of number 99. -/
def num (c : UInt8) : Nat := numForAscii.getD c.toNat 99

def kChars : List UInt8 := "0123456789bcdfghjklmnpqrstuvwxyz".toList.map fun c => UInt8.ofNat c.toNat

def kChar (n : Nat) : UInt8 := kChars.getD n 0

/-- The loop of `Base32_decode` and what follows it. -/
def decodeLoop (outLength : Nat) : List UInt8 → List UInt8 → Nat → Nat → Except Err (List UInt8)
  | [], output, nextByte, bits => if bits ≥ 5 ∨ nextByte ≠ 0 then .error .badInput else .ok output
  | c :: input, output, nextByte, bits =>
    let b := num c
    if b > 31 then .error .badInput
    else
      let nextByte := nextByte ||| b <<< bits
      let bits := bits + 5
      if bits ≥ 8 then
        if output.length ≥ outLength then .error .tooBig
        else decodeLoop outLength input (output ++ [UInt8.ofNat nextByte]) (nextByte >>> 8) (bits - 8)
      else decodeLoop outLength input output nextByte bits

def decode (outLength : Nat) (input : List UInt8) : Except Err (List UInt8) := decodeLoop outLength input [] 0 0

/-- The inner loop of `Base32_encode`. -/
def drain (outputLength : Nat) (output : List UInt8) (work : Nat) : Nat → Except Err (List UInt8 × Nat × Nat)
  | bits + 5 =>
    if output.length ≥ outputLength then .error .tooBig
    else drain outputLength (output ++ [kChar (work &&& 31)]) (work >>> 5) bits
  | bits => .ok (output, work, bits)

/-- The outer loop and what follows it. -/
def encodeLoop (outputLength : Nat) : List UInt8 → List UInt8 → Nat → Nat → Except Err (List UInt8)
  | [], output, work, bits =>
    if bits ≠ 0 then
      if output.length ≥ outputLength then .error .tooBig else .ok (output ++ [kChar (work &&& 31)])
    else .ok output
  | b :: input, output, work, bits => do
    let (output, work, bits) ← drain outputLength output (work ||| b.toNat <<< bits) (bits + 8)
    encodeLoop outputLength input output work bits

def encode (outputLength : Nat) (input : List UInt8) : Except Err (List UInt8) := encodeLoop outputLength input [] 0 0

/-- The text is a spelling of the bytes: the same number, and no digit more than it takes. -/
structure Spells (s x : List UInt8) : Prop where
  digits : ∀ c ∈ s, num c < 32
  number : ofDigits 32 (s.map num) = ofDigits 256 (x.map UInt8.toNat)
  long : 8 * x.length ≤ 5 * s.length
  short : 5 * s.length < 8 * x.length + 5

/-! ## Regrouping bits -/

/-- Digits of `o` bits, then a word of some bits, then digits of `a` bits, as one number. -/
def total (o a : Nat) (output : List Nat) (work bits : Nat) (input : List Nat) : Nat :=
  ofDigits (2 ^ o) output + (2 ^ o) ^ output.length * (work + 2 ^ bits * ofDigits (2 ^ a) input)

variable {o a work bits : Nat} {output input : List Nat}

theorem total_load (d : Nat) :
    total o a output work bits (d :: input) = total o a output (work + 2 ^ bits * d) (bits + a) input := by
  rw [total, total, ofDigits_cons, Nat.pow_add]
  ring

theorem total_emit : total o a output work (bits + o) input =
    total o a (output ++ [work % 2 ^ o]) (work / 2 ^ o) bits input := by
  have hwork := Nat.mod_add_div work (2 ^ o)
  rw [total, total, ofDigits_append, ofDigits_singleton, length_append, length_singleton]
  nth_rewrite 1 [← hwork]
  ring

theorem or_shiftLeft {b : Nat} (h : work < 2 ^ bits) : work ||| b <<< bits = work + 2 ^ bits * b := by
  rw [Nat.or_comm, ← Nat.shiftLeft_add_eq_or_of_lt h, Nat.shiftLeft_eq]
  ring

theorem div_lt (h : work < 2 ^ (bits + o)) : work / 2 ^ o < 2 ^ bits := by
  rw [Nat.pow_add, Nat.mul_comm] at h
  exact Nat.div_lt_of_lt_mul h

theorem byte_lt (x : List UInt8) : ∀ d ∈ x.map UInt8.toNat, d < 256 := by
  intro d hd
  obtain ⟨b, -, rfl⟩ := mem_map.mp hd
  exact b.toNat_lt

variable {L N Z nextByte : Nat} {s x out : List UInt8}

/-! ## Decoding -/

/-- What an answer says of a text with the number `N` in `Z` bits. -/
def Decoded (L N Z : Nat) (s : List UInt8) : Except Err (List UInt8) → Prop
  | .ok y => (∀ c ∈ s, num c < 32) ∧ ofDigits 256 (y.map UInt8.toNat) = N ∧ y.length = Z / 8 ∧ Z % 8 < 5 ∧ y.length ≤ L
  | .error .badInput => ¬ ((∀ c ∈ s, num c < 32) ∧ N < 256 ^ (Z / 8) ∧ Z % 8 < 5)
  | .error .tooBig => L < Z / 8

theorem Decoded.cons {c : UInt8} {r} (h : Decoded L N Z s r) (hc : num c < 32) : Decoded L N Z (c :: s) r := by
  have hall : (∀ d ∈ c :: s, num d < 32) ↔ ∀ d ∈ s, num d < 32 := by
    rw [forall_mem_cons, and_iff_right hc]
  unfold Decoded
  rw [hall]
  exact h

theorem decodeLoop_spec (hN : total 8 5 (out.map UInt8.toNat) nextByte bits (s.map num) = N)
    (hZ : 8 * out.length + bits + 5 * s.length = Z) (hnext : nextByte < 2 ^ bits) (hbits : bits < 8)
    (hout : out.length ≤ L) : Decoded L N Z s (decodeLoop L s out nextByte bits) := by
  induction s generalizing out nextByte bits with
  | nil =>
    have hlen : Z / 8 = out.length ∧ Z % 8 = bits := by
      rw [length_nil] at hZ
      omega
    simp only [total, List.map_nil, ofDigits_nil, length_map] at hN
    rw [decodeLoop]
    split_ifs with h
    · rintro ⟨-, hlt, h5⟩
      have hpos : 1 ≤ nextByte := by omega
      have := Nat.mul_le_mul_left (256 ^ out.length) hpos
      rw [hlen.1] at hlt
      norm_num at hN
      omega
    · obtain rfl : nextByte = 0 := by omega
      exact ⟨by simp, by simpa using hN, hlen.1.symm, by omega, hout⟩
  | cons c s ih =>
    rw [List.map_cons, total_load] at hN
    rw [length_cons] at hZ
    rw [decodeLoop, or_shiftLeft hnext]
    dsimp only
    split_ifs with hc h8 hfull
    · exact fun h => by have := h.1 c mem_cons_self; omega
    · show L < Z / 8
      omega
    · obtain ⟨k, hk⟩ : ∃ k, bits + 5 = k + 8 := ⟨bits - 3, by omega⟩
      have hlt := Bits.add_mul_lt hnext (show num c < 2 ^ 5 by omega)
      rw [hk] at hN hlt ⊢
      rw [total_emit] at hN
      rw [shiftRight_eq_div_pow]
      refine .cons (ih ?_ ?_ (div_lt hlt) (by omega) ?_) (by omega)
      · simpa using hN
      · simp
        omega
      · simp
        omega
    · exact .cons (ih hN (by omega) (Bits.add_mul_lt hnext (by omega)) (by omega) hout) (by omega)

/-! ## Encoding -/

/-- What is put out are characters, and they have room. -/
def Fine (L : Nat) (out : List UInt8) : Prop := out.length ≤ L ∧ ∀ c ∈ out, num c < 32

/-- What an answer says of bytes with the number `N` in `Z` bits. -/
def Encoded (L N Z : Nat) : Except Err (List UInt8) → Prop
  | .ok s => Fine L s ∧ ofDigits 32 (s.map num) = N ∧ Z ≤ 5 * s.length ∧ 5 * s.length < Z + 5
  | .error e => e = .tooBig ∧ 5 * L < Z

theorem num_kChar {n : Nat} (h : n < 2 ^ 5) : num (kChar n) = n := by
  have hall : ∀ n < 2 ^ 5, num (kChar n) = n := by decide
  exact hall n h

theorem and_31 (work : Nat) : work &&& 31 = work % 2 ^ 5 := Nat.and_two_pow_sub_one_eq_mod work 5

theorem map_snoc (out : List UInt8) (work : Nat) :
    (out ++ [kChar (work % 2 ^ 5)]).map num = out.map num ++ [work % 2 ^ 5] := by
  rw [map_append, map_singleton, num_kChar (Nat.mod_lt _ (by decide))]

theorem Fine.snoc (h : Fine L out) (hroom : ¬ out.length ≥ L) (work : Nat) : Fine L (out ++ [kChar (work % 2 ^ 5)]) := by
  have hlt : work % 2 ^ 5 < 2 ^ 5 := Nat.mod_lt _ (by decide)
  refine ⟨by simp; omega, fun c hc => ?_⟩
  rcases mem_append.mp hc with hc | hc
  · exact h.2 c hc
  · rw [mem_singleton.mp hc, num_kChar hlt]
    exact hlt

theorem encoded_drain {k : List UInt8 × Nat × Nat → Except Err (List UInt8)} {x : List Nat}
    (hN : total 5 8 (out.map num) work bits x = N) (hZ : 5 * out.length + bits + 8 * x.length = Z)
    (hwork : work < 2 ^ bits) (hout : Fine L out)
    (hk : ∀ {out work bits}, total 5 8 (out.map num) work bits x = N → 5 * out.length + bits + 8 * x.length = Z →
      work < 2 ^ bits → bits < 5 → Fine L out → Encoded L N Z (k (out, work, bits))) :
    Encoded L N Z (drain L out work bits >>= k) := by
  fun_induction drain L out work bits with
  | case1 out work bits hfull => exact ⟨rfl, by omega⟩
  | case2 out work bits hroom ih =>
    rw [total_emit] at hN
    rw [and_31, shiftRight_eq_div_pow] at ih ⊢
    refine ih ?_ ?_ (div_lt hwork) (hout.snoc hroom work)
    · rwa [map_snoc]
    · simp
      omega
  | case3 out work bits hbits =>
    refine hk hN hZ hwork (Nat.lt_of_not_le fun h => ?_) hout
    exact hbits (bits - 5) (by omega)

theorem encodeLoop_spec (hN : total 5 8 (out.map num) work bits (x.map UInt8.toNat) = N)
    (hZ : 5 * out.length + bits + 8 * x.length = Z) (hwork : work < 2 ^ bits) (hbits : bits < 5) (hout : Fine L out) :
    Encoded L N Z (encodeLoop L x out work bits) := by
  induction x generalizing out work bits with
  | nil =>
    have hlt : work < 2 ^ 5 := hwork.trans (Nat.pow_lt_pow_right (by decide) hbits)
    rw [length_nil] at hZ
    rw [encodeLoop, and_31]
    split_ifs with hne hfull
    · exact ⟨rfl, by omega⟩
    · refine ⟨hout.snoc hfull work, ?_, by simp; omega, by simp; omega⟩
      rw [map_snoc, Nat.mod_eq_of_lt hlt, ofDigits_append, ← hN]
      simp [total]
    · obtain rfl : bits = 0 := by omega
      obtain rfl : work = 0 := by omega
      exact ⟨hout, by simpa [total] using hN, by omega, by omega⟩
  | cons b x ih =>
    rw [List.map_cons, total_load] at hN
    rw [length_cons] at hZ
    rw [encodeLoop, or_shiftLeft hwork]
    refine encoded_drain hN (by simp; omega) (Bits.add_mul_lt hwork b.toNat_lt) hout ?_
    intro out work bits hN hZ hwork hbits hout
    exact ih hN (by simpa using hZ) hwork hbits hout

/-! ## Both -/

theorem encode_cases (L : Nat) (x : List UInt8) :
    (∃ s, encode L x = .ok s ∧ Spells s x ∧ s.length ≤ L) ∨ encode L x = .error .tooBig ∧ 5 * L < 8 * x.length := by
  have h := @encodeLoop_spec 0 0 L _ _ x [] rfl rfl (by decide) (by decide) ⟨by simp, by simp⟩
  rw [← encode] at h
  cases hr : encode L x with
  | ok s =>
    rw [hr] at h
    obtain ⟨⟨hlen, hd⟩, hnumber, hlong, hshort⟩ := h
    exact .inl ⟨s, rfl, ⟨hd, by simpa [total] using hnumber, by simpa using hlong, by simpa using hshort⟩, hlen⟩
  | error e =>
    rw [hr] at h
    exact .inr ⟨by rw [h.1], by simpa using h.2⟩

theorem Spells.unique {y : List UInt8} (hx : Spells s x) (hy : Spells s y) : x = y := by
  have hlen : x.length = y.length := by
    have := hx.long; have := hx.short; have := hy.long; have := hy.short
    omega
  have hmap := ofDigits_inj_of_len_eq (by decide) (by simp [hlen]) (byte_lt x) (byte_lt y)
    (hx.number.symm.trans hy.number)
  exact map_injective_iff.mpr (fun _ _ => UInt8.toNat_inj.mp) hmap

theorem decode_spells {y : List UInt8} (h : decode L s = .ok y) : Spells s y := by
  have hspec := @decodeLoop_spec 0 L _ _ 0 s [] rfl rfl (by decide) (by decide) (by simp)
  rw [← decode, h] at hspec
  obtain ⟨hd, hnumber, hlen, h5, -⟩ := hspec
  simp only [length_nil] at hlen h5
  exact ⟨hd, by simpa [total] using hnumber.symm, by omega, by omega⟩

theorem decode_of_spells (h : Spells s x) (L : Nat) :
    decode L s = if x.length ≤ L then .ok x else .error .tooBig := by
  have := h.long; have := h.short
  have hdiv : 5 * s.length / 8 = x.length := by omega
  have hmod : 5 * s.length % 8 < 5 := by omega
  have hspec := @decodeLoop_spec 0 L _ _ 0 s [] rfl rfl (by decide) (by decide) (by simp)
  rw [← decode] at hspec
  simp only [total, length_nil, List.map_nil, ofDigits_nil] at hspec
  cases hr : decode L s with
  | ok y =>
    rw [hr] at hspec
    rw [h.unique (decode_spells hr), if_pos hspec.2.2.2.2]
  | error e =>
    rw [hr] at hspec
    have hlt := ofDigits_lt_base_pow_length (by decide) (byte_lt x)
    cases e with
    | badInput =>
      refine absurd ⟨h.digits, ?_, ?_⟩ hspec
      · simp [h.number, hdiv] at hlt ⊢
        exact hlt
      · simpa using hmod
    | tooBig =>
      have hbig : L < x.length := by
        simp [Decoded, hdiv] at hspec
        exact hspec
      rw [if_neg (by omega)]

def lower (c : UInt8) : UInt8 := if 65 ≤ c ∧ c ≤ 90 then c + 32 else c

theorem lower_eq {c : UInt8} (h : num c < 32) : lower c = kChar (num c) := by
  have hall : ∀ n < 256, num (UInt8.ofNat n) < 32 → lower (UInt8.ofNat n) = kChar (num (UInt8.ofNat n)) := by
    decide +kernel
  have hc := hall c.toNat c.toNat_lt
  rw [UInt8.ofNat_toNat] at hc
  exact hc h

/-- Two spellings of the same bytes differ in the case of letters. -/
theorem Spells.lower_eq {t : List UInt8} (hs : Spells s x) (ht : Spells t x) : t.map lower = s.map lower := by
  have hlen : s.length = t.length := by
    have := hs.long; have := hs.short; have := ht.long; have := ht.short
    omega
  have hdigits {u : List UInt8} (hu : Spells u x) : ∀ d ∈ u.map num, d < 32 := by
    intro d hd
    obtain ⟨c, hc, rfl⟩ := mem_map.mp hd
    exact hu.digits c hc
  have hnum := ofDigits_inj_of_len_eq (by decide) (by simp [hlen]) (hdigits hs) (hdigits ht)
    (hs.number.trans ht.number.symm)
  have hlower {u : List UInt8} (hu : Spells u x) : u.map lower = (u.map num).map kChar := by
    rw [List.map_map]
    exact map_congr_left fun c hc => Base32.lower_eq (hu.digits c hc)
  rw [hlower hs, hlower ht, hnum]

/-- Bytes are read as they were written, and a text that is read is how the bytes are written but for the case of
letters. An output that has no room is refused. -/
theorem base32_exact :
    (∀ x m n, 8 * x.length ≤ 5 * m → x.length ≤ n → ∃ s, encode m x = .ok s ∧ decode n s = .ok x) ∧
    (∀ s n y m, decode n s = .ok y → 8 * y.length ≤ 5 * m →
      ∃ t, encode m y = .ok t ∧ t.map lower = s.map lower) ∧
    (∀ x m, 5 * m < 8 * x.length → encode m x = .error .tooBig) ∧
    ∀ s n y m, decode n s = .ok y → m < y.length → decode m s = .error .tooBig := by
  refine ⟨fun x m n hm hn => ?_, fun s n y m h hm => ?_, fun x m hm => ?_, fun s n y m h hm => ?_⟩
  · obtain ⟨s, hs, hspells, -⟩ | ⟨-, hlt⟩ := encode_cases m x
    · exact ⟨s, hs, by rw [decode_of_spells hspells, if_pos hn]⟩
    · omega
  · obtain ⟨t, ht, hspells, -⟩ | ⟨-, hlt⟩ := encode_cases m y
    · exact ⟨t, ht, (decode_spells h).lower_eq hspells⟩
    · omega
  · obtain ⟨s, -, hspells, hle⟩ | ⟨htooBig, -⟩ := encode_cases m x
    · have := hspells.long
      omega
    · exact htooBig
  · rw [decode_of_spells (decode_spells h), if_neg (by omega)]

/-- The byte 10 and the text "B0". -/
theorem base32_exact_ten :
    (∃ s, encode 2 [10] = .ok s ∧ decode 1 s = .ok [10]) ∧
      (∃ t, encode 2 [10] = .ok t ∧ t.map lower = [66, 48].map lower) ∧
      encode 1 [10] = .error .tooBig ∧ decode 0 [66, 48] = .error .tooBig :=
  ⟨base32_exact.1 [10] 2 1 (by decide) (by decide), base32_exact.2.1 [66, 48] 1 [10] 2 rfl (by decide),
    base32_exact.2.2.1 [10] 1 (by decide), base32_exact.2.2.2 [66, 48] 1 [10] 0 rfl (by decide)⟩

end Hyperboria.Base32
