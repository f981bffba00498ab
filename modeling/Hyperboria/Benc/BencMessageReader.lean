/-
`benc/serialization/standard/BencMessageReader.c`: the bencode reader, four
functions that call each other. The loops and the nesting are followed for a
number of steps (`readDict n`, ...); twice the length of the message is always
enough (`BencGrammar`), so the public functions do not take one.
-/
import Hyperboria.Benc.Base10
import Hyperboria.Benc.Object

namespace Hyperboria.Benc

def readInt (msg : Message) : Er (Int × Message) := do
  let (num, msg) ← Base10.read msg
  let (chr, msg) ← msg.epop8
  if chr ≠ 101 then .raise "Int not terminated with 'e'"
  else .ret (num, msg)

def readString (msg : Message) : Er (List UInt8 × Message) := do
  let (len, msg) ← Base10.read msg
  if len < 0 then .raise "Negative string length"
  else do
    let (chr, msg) ← msg.epop8
    if chr ≠ 58 then .raise "String not deliniated with a ':'"
    else if len > msg.length then .raise "String too long"
    else msg.epop len.toNat

mutual

/-- `readList`, with the items read so far. -/
def readList (n : Nat) (msg : Message) (last : List Object) : Er (List Object × Message) :=
  match n with
  | 0 => .spin
  | n + 1 => do
    let (chr, msg) ← msg.epop8
    if chr = 101 then .ret (last, msg)
    else do
      let msg ← msg.epush8 chr
      let (elem, msg) ← readGeneric n msg
      readList n msg (elem :: last)

/-- `readDict`, with the entries read so far. -/
def readDict (n : Nat) (msg : Message) (last : Dict) : Er (Dict × Message) :=
  match n with
  | 0 => .spin
  | n + 1 => do
    let (chr, msg) ← msg.epop8
    if chr = 101 then .ret (last, msg)
    else do
      let msg ← msg.epush8 chr
      let (key, msg) ← readString msg
      let (val, msg) ← readGeneric n msg
      readDict n msg ((key, val) :: last)

def readGeneric (n : Nat) (msg : Message) : Er (Object × Message) :=
  match n with
  | 0 => .spin
  | n + 1 => do
    let (chr, msg) ← msg.epop8
    if chr = 108 then do
      let (items, msg) ← readList n msg []
      .ret (.list items, msg)
    else if chr = 100 then do
      let (entries, msg) ← readDict n msg []
      .ret (.dict entries, msg)
    else if chr = 105 then do
      let (number, msg) ← readInt msg
      .ret (.integer number, msg)
    else if Base10.isDigit chr then do
      let msg ← msg.epush8 chr
      let (bytes, msg) ← readString msg
      .ret (.string bytes, msg)
    else
      let chr := Char.ofNat chr.toNat
      .raise s!"Unexpected character in message [{chr}]"

end

/-- The steps the reader is followed for. -/
def steps (msg : Message) : Nat := 2 * msg.length + 2

/-- `BencMessageReader_read`. -/
def read (msg : Message) : Er (Dict × Message) := do
  let (chr, msg) ← msg.epop8
  if chr ≠ 100 then .raise "Message does not begin with a 'd' to open the dictionary"
  else readDict (steps msg) msg []

/-- `BencMessageReader_readNoExcept`: the error text or NULL, the dictionary put at `outPtr`,
and the message as it is left. `er` is the variable `Er_check` no longer writes. -/
def readNoExcept (msg : Message) : Er (Option String × Option Dict × Message) := do
  let er : Option String := none
  let (out, msg) ← Er.check (read msg)
  match er with
  | some message => .ret (some message, none, msg)
  | none => .ret (none, some out, msg)

end Hyperboria.Benc
