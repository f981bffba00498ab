/-
`benc/serialization/json/JsonBencSerializer.c`, the printer: every entry of a list or a dictionary is
on a line of its own, two spaces further in than what it is in. The macro that writes the spaces counts
the wrong way: for more than 32 of them it goes on until the counter overflows.
-/
import Hyperboria.Benc.BencMessageReader

namespace Hyperboria.Benc.JsonBencSerializer

open Er

/-- `thirtyTwoSpaces`, or the first of them. -/
def spaces (n : Nat) : List UInt8 := List.replicate n 32

/-- The macro `PAD`, from the value of `padCounter` on. -/
def PAD (padSpaces : Nat) : Nat → Nat → Er (List UInt8)
  | 0, _ => .spin
  | fuel + 1, padCounter =>
    if 32 < padSpaces + padCounter then
      if padCounter + 32 < 2 ^ 31 then do
        let more ← PAD padSpaces fuel (padCounter + 32)
        .ret (spaces 32 ++ more)
      else .abort "padCounter += 32"
    else .ret (spaces (padSpaces - padCounter))

/-- The digits of `%.2X`. -/
def hexDigit (n : UInt8) : UInt8 := if n < 10 then 48 + n else 55 + n

def serializeChar (chr : UInt8) : List UInt8 :=
  if chr < 126 && chr > 31 && chr ≠ 92 && chr ≠ 34 then [chr] else [92, 120, hexDigit (chr / 16), hexDigit (chr % 16)]

def serializeString (string : List UInt8) : List UInt8 := [34] ++ string.flatMap serializeChar ++ [34]

/-- `serializeint64_t`. -/
def serializeInt (integer : Int) : List UInt8 :=
  (if integer < 0 then [45] else []) ++ (Nat.toDigits 10 integer.natAbs).map fun c => c.toNat.toUInt8

/-- What comes between two entries. -/
def comma (rest : Bool) : List UInt8 := if rest then [44, 10] else []

mutual

def serializeGenericWithPadding (fuel padSpaceCount : Nat) : Object → Er (List UInt8)
  | .integer number => .ret (serializeInt number)
  | .string bytes => .ret (serializeString bytes)
  | .list items => do
    let items ← serializeItems fuel padSpaceCount items
    let padding ← PAD padSpaceCount fuel 0
    .ret ([91, 10] ++ items ++ [10] ++ padding ++ [93])
  | .dict entries => do
    let entries ← serializeEntries fuel padSpaceCount entries
    let padding ← PAD padSpaceCount fuel 0
    .ret ([123, 10] ++ entries ++ [10] ++ padding ++ [125])

/-- The loop of `serializeListWithPadding`. -/
def serializeItems (fuel padSpaceCount : Nat) : List Object → Er (List UInt8)
  | [] => .ret []
  | elem :: rest => do
    let padding ← PAD (padSpaceCount + 2) fuel 0
    let elem ← serializeGenericWithPadding fuel (padSpaceCount + 2) elem
    let more ← serializeItems fuel padSpaceCount rest
    .ret (padding ++ elem ++ comma (!rest.isEmpty) ++ more)

/-- The loop of `serializeDictionaryWithPadding`. -/
def serializeEntries (fuel padSpaceCount : Nat) : Dict → Er (List UInt8)
  | [] => .ret []
  | (key, val) :: rest => do
    let padding ← PAD (padSpaceCount + 2) fuel 0
    let val ← serializeGenericWithPadding fuel (padSpaceCount + 2) val
    let more ← serializeEntries fuel padSpaceCount rest
    .ret (padding ++ serializeString key ++ [32, 58, 32] ++ val ++ comma (!rest.isEmpty) ++ more)

end

/-- `serializeDictionary`. -/
def serializeDictionary (fuel : Nat) (dictionary : Dict) : Er (List UInt8) :=
  serializeGenericWithPadding fuel 0 (.dict dictionary)

/-! ## The layout -/

mutual

/-- An object, of which the entries are at depth `n + 1`. -/
def layout (n : Nat) : Object → List UInt8
  | .integer number => serializeInt number
  | .string bytes => serializeString bytes
  | .list items => [91, 10] ++ layoutItems (n + 1) items ++ [10] ++ spaces (2 * n) ++ [93]
  | .dict entries => [123, 10] ++ layoutEntries (n + 1) entries ++ [10] ++ spaces (2 * n) ++ [125]

/-- The entries of a list at depth `n`, each on a line of its own. -/
def layoutItems (n : Nat) : List Object → List UInt8
  | [] => []
  | elem :: rest => spaces (2 * n) ++ layout n elem ++ comma (!rest.isEmpty) ++ layoutItems n rest

def layoutEntries (n : Nat) : Dict → List UInt8
  | [] => []
  | (key, val) :: rest =>
    spaces (2 * n) ++ serializeString key ++ [32, 58, 32] ++ layout n val ++ comma (!rest.isEmpty) ++ layoutEntries n rest

end

mutual

/-- No entry of the object is deeper than 16, if its own entries are at depth `n + 1`. -/
def Shallow (n : Nat) : Object → Prop
  | .integer _ => True
  | .string _ => True
  | .list items => ShallowItems (n + 1) items
  | .dict entries => ShallowEntries (n + 1) entries

def ShallowItems (n : Nat) : List Object → Prop
  | [] => True
  | elem :: rest => n ≤ 16 ∧ Shallow n elem ∧ ShallowItems n rest

def ShallowEntries (n : Nat) : Dict → Prop
  | [] => True
  | (_, val) :: rest => n ≤ 16 ∧ Shallow n val ∧ ShallowEntries n rest

end

/-- Once there is more than the first 32, there is always more. -/
theorem PAD_ne_ret {padSpaces : Nat} (h : 32 < padSpaces) (fuel padCounter : Nat) (text : List UInt8) :
    PAD padSpaces fuel padCounter ≠ .ret text := by
  induction fuel generalizing padCounter text with
  | zero => simp [PAD]
  | succ fuel ih =>
    rw [PAD, if_pos (by omega)]
    split
    · intro hret
      obtain ⟨more, hmore, -⟩ := bind_inv hret
      exact ih _ _ hmore
    · simp

theorem PAD_eq_ret_iff {n fuel : Nat} {text : List UInt8} :
    PAD (2 * n) (fuel + 1) 0 = .ret text ↔ n ≤ 16 ∧ text = spaces (2 * n) := by
  by_cases hn : n ≤ 16
  · rw [PAD, if_neg (by omega), ret.injEq, eq_comm]
    exact (and_iff_right hn).symm
  · exact iff_of_false (PAD_ne_ret (by omega) _ _ _) fun h => hn h.1

mutual

/-- What is printed is the layout, as long as no entry is too deep. -/
theorem serializeGeneric_iff {fuel n : Nat} (hn : n ≤ 16) {text : List UInt8} : ∀ {x : Object},
    serializeGenericWithPadding (fuel + 1) (2 * n) x = .ret text ↔ Shallow n x ∧ text = layout n x
  | .integer number => by simp [serializeGenericWithPadding, Shallow, layout, eq_comm]
  | .string bytes => by simp [serializeGenericWithPadding, Shallow, layout, eq_comm]
  | .list items => by
    simp only [serializeGenericWithPadding, bind_eq_ret, serializeItems_iff, PAD_eq_ret_iff, Shallow, layout]
    simp [hn, eq_comm]
  | .dict entries => by
    simp only [serializeGenericWithPadding, bind_eq_ret, serializeEntries_iff, PAD_eq_ret_iff, Shallow, layout]
    simp [hn, eq_comm]

theorem serializeItems_iff {fuel n : Nat} {text : List UInt8} : ∀ {items : List Object},
    serializeItems (fuel + 1) (2 * n) items = .ret text ↔ ShallowItems (n + 1) items ∧ text = layoutItems (n + 1) items
  | [] => by simp [serializeItems, ShallowItems, layoutItems, eq_comm]
  | elem :: rest => by
    by_cases hn : n + 1 ≤ 16
    · simp only [serializeItems, bind_eq_ret, show 2 * n + 2 = 2 * (n + 1) from rfl, PAD_eq_ret_iff,
        serializeGeneric_iff hn, serializeItems_iff,
        ShallowItems, layoutItems]
      simp [hn, eq_comm, and_assoc]
    · simp [serializeItems, bind_eq_ret, show 2 * n + 2 = 2 * (n + 1) from rfl, PAD_eq_ret_iff, ShallowItems, hn]

theorem serializeEntries_iff {fuel n : Nat} {text : List UInt8} : ∀ {entries : Dict},
    serializeEntries (fuel + 1) (2 * n) entries = .ret text ↔
      ShallowEntries (n + 1) entries ∧ text = layoutEntries (n + 1) entries
  | [] => by simp [serializeEntries, ShallowEntries, layoutEntries, eq_comm]
  | (key, val) :: rest => by
    by_cases hn : n + 1 ≤ 16
    · simp only [serializeEntries, bind_eq_ret, show 2 * n + 2 = 2 * (n + 1) from rfl, PAD_eq_ret_iff,
        serializeGeneric_iff hn, serializeEntries_iff,
        ShallowEntries, layoutEntries]
      simp [hn, eq_comm, and_assoc]
    · simp [serializeEntries, bind_eq_ret, show 2 * n + 2 = 2 * (n + 1) from rfl, PAD_eq_ret_iff, ShallowEntries, hn]

end

/-- A dictionary is printed in its layout if and only if no entry is deeper than 16. -/
theorem serializeDictionary_iff (dictionary : Dict) :
    (∃ fuel, serializeDictionary fuel dictionary = .ret (layout 0 (.dict dictionary))) ↔ Shallow 0 (.dict dictionary) := by
  constructor
  · intro ⟨fuel, hret⟩
    cases fuel with
    | zero => simp [serializeDictionary, serializeGenericWithPadding, bind_eq_ret, PAD] at hret
    | succ fuel => exact ((@serializeGeneric_iff fuel 0 (by decide) _ _).mp hret).1
  · intro h
    exact ⟨1, (@serializeGeneric_iff 0 0 (by decide) _ _).mpr ⟨h, rfl⟩⟩

/-- A list in a list, and so on. -/
def nested : Nat → Object
  | 0 => .integer 0
  | n + 1 => .list [nested n]

/-- The printing of 16 lists in a dictionary is never finished. -/
theorem serializeDictionary_sixteen : ¬ ∃ fuel text, serializeDictionary fuel [([97], nested 16)] = .ret text := by
  intro ⟨fuel, text, hret⟩
  cases fuel with
  | zero => simp [serializeDictionary, serializeGenericWithPadding, serializeEntries, PAD] at hret
  | succ fuel =>
    have hshallow := ((@serializeGeneric_iff fuel 0 (by decide) _ _).mp hret).1
    simp [Shallow, ShallowEntries, ShallowItems, nested] at hshallow

end Hyperboria.Benc.JsonBencSerializer
