/-
`crypto/Key.c`: a public key as text, 52 characters of base 32 and then `.k`. What stands behind these is not
looked at, so a longer text is read as well.
-/
import Hyperboria.Crypto.Symbolic
import Hyperboria.Dht.Address
import Hyperboria.Util.Base32

namespace Hyperboria.Key

open Base32 List

inductive ParseErr where
  | tooShort | malformed | decodeFailed | invalid

/-- `Key_parse`. A zero stands behind the bytes of a `String`, so one of 52 or 53 bytes is malformed. The address
is worked out if there is a place for it. -/
def parse (C : Crypto) (key : List UInt8) (ip6Out : Bool) : Except ParseErr Key :=
  if key.length < 52 then .error .tooShort
  else if (key.drop 52).take 2 ≠ [46, 107] then .error .malformed
  else match decode 32 (key.take 52) with
    | .error _ => .error .decodeFailed
    | .ok keyBytesOut =>
      if h : keyBytesOut.length = 32 then
        if ip6Out ∧ !AddressCalc.validAddress (C.addressForPublicKey ⟨keyBytesOut, h⟩) then .error .invalid
        else .ok ⟨keyBytesOut, h⟩
      else .error .decodeFailed

/-- `Key_stringify`, which does not look at what `Base32_encode` returns. -/
def stringify (key : Key) : List UInt8 := ((encode 53 key.1).toOption.getD []).take 52 ++ [46, 107]

variable {C : Crypto} {s : List UInt8} {ip6Out : Bool} {k : Key}

theorem parse_eq_ok : parse C s ip6Out = .ok k ↔ 52 ≤ s.length ∧ (s.drop 52).take 2 = [46, 107] ∧
    decode 32 (s.take 52) = .ok k.1 ∧ (ip6Out → AddressCalc.validAddress (C.addressForPublicKey k)) := by
  obtain ⟨bytes, hbytes⟩ := k
  rw [parse]
  split_ifs with hlen hend
  · simp; omega
  · simp [hend]
  · cases decode 32 (s.take 52) with
    | error e => simp
    | ok out =>
      dsimp only
      split_ifs <;> grind

theorem stringify_spells (key : Key) : ∃ t, stringify key = t ++ [46, 107] ∧ Spells t key.1 ∧ t.length = 52 := by
  have hkey := key.2
  obtain ⟨t, ht, hspells, -⟩ | ⟨-, hlt⟩ := encode_cases 53 key.1
  · have hlen : t.length = 52 := by
      have := hspells.long; have := hspells.short
      omega
    refine ⟨t, ?_, hspells, hlen⟩
    rw [stringify, ht]
    simp [Except.toOption, take_of_length_le, hlen]
  · omega

theorem parse_stringify {key : Key} :
    parse C (stringify key) ip6Out = .ok key ↔ (ip6Out → AddressCalc.validAddress (C.addressForPublicKey key)) := by
  obtain ⟨t, ht, hspells, hlen⟩ := stringify_spells key
  rw [parse_eq_ok, ht, ← hlen, take_left, drop_left, decode_of_spells hspells, if_pos key.2.le]
  simp

theorem spelling_iff (h : parse C s ip6Out = .ok k) : s.map lower = (stringify k).map lower ↔ s.length = 54 := by
  obtain ⟨t, ht, hspells, hlen⟩ := stringify_spells k
  obtain ⟨h52, hend, hdecode, -⟩ := parse_eq_ok.mp h
  rw [ht]
  constructor
  · intro heq
    simpa [hlen] using congrArg List.length heq
  · intro h54
    rw [take_of_length_le (by simp [h54])] at hend
    rw [map_append, (decode_spells hdecode).lower_eq hspells, ← map_append, ← hend, take_append_drop]

/-- A key that is written is read again, unless its address is asked for and not a valid one, and a text that is
read is how the key is written but for the case of letters, if nothing stands behind it. -/
theorem one_spelling_iff (C : Crypto) (key k : Key) (s : List UInt8) (ip6Out : Bool) (h : parse C s ip6Out = .ok k) :
    (parse C (stringify key) ip6Out = .ok key ∧ s.map lower = (stringify k).map lower) ↔
      (ip6Out → AddressCalc.validAddress (C.addressForPublicKey key)) ∧ s.length = 54 := by
  rw [parse_stringify, spelling_iff h]

theorem one_spelling_zero : parse Symbolic.crypto (stringify zero) false = .ok zero ∧
    (stringify zero).map lower = (stringify zero).map lower :=
  (one_spelling_iff _ _ _ _ _ rfl).mpr (by decide)

/-- A letter stands behind the text. -/
theorem parse_longer : parse Symbolic.crypto (stringify zero ++ [120]) false = .ok zero ∧
    (stringify zero ++ [120]).map lower ≠ (stringify zero).map lower := ⟨rfl, by decide⟩

end Hyperboria.Key
