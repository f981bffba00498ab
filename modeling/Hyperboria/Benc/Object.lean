/-
`benc/Object.h`, `benc/String.c` and `benc/Dict.c`: bencoded values, and dictionaries as linked lists
of entries. Lookup and removal take the first entry with the key; a put stops at the first entry whose
key is not below its own.
-/
import Mathlib

namespace Hyperboria.Benc

/-- `Object`. Lists and dictionaries are linked lists, in the order of their links. -/
inductive Object where
  | integer (number : Int)
  | string (bytes : List UInt8)
  | list (items : List Object)
  | dict (entries : List (List UInt8 × Object))

abbrev Dict := List (List UInt8 × Object)

/-- A byte as a `char`, which is signed. -/
def char (b : UInt8) : Int := (b.toNat : Int).bmod 256

/-- `String_compare`. -/
def stringCompare : List UInt8 → List UInt8 → Int
  | [], b => -b.length
  | a, [] => a.length
  | x :: a, y :: b => if char x - char y ≠ 0 then char x - char y else stringCompare a b

def lookupObject (key : List UInt8) : Dict → Option Object
  | [] => none
  | (k, v) :: rest => if key = k then some v else lookupObject key rest

/-- `putObject`, with the value it displaced. -/
def putObject (key : List UInt8) (value : Object) : Dict → Option Object × Dict
  | [] => (none, [(key, value)])
  | (k, v) :: rest =>
    if stringCompare key k < 0 then (none, (key, value) :: (k, v) :: rest)
    else if stringCompare key k = 0 then (some v, (k, value) :: rest)
    else ((putObject key value rest).1, (k, v) :: (putObject key value rest).2)

/-- `Dict_remove`. -/
def removeObject (key : List UInt8) : Dict → Bool × Dict
  | [] => (false, [])
  | (k, v) :: rest =>
    if key = k then (true, rest) else ((removeObject key rest).1, (k, v) :: (removeObject key rest).2)

namespace Dict

def getInt (dictionary : Dict) (key : List UInt8) : Option Int :=
  match lookupObject key dictionary with
  | some (.integer number) => some number
  | _ => none

def getString (dictionary : Dict) (key : List UInt8) : Option (List UInt8) :=
  match lookupObject key dictionary with
  | some (.string bytes) => some bytes
  | _ => none

def getDict (dictionary : Dict) (key : List UInt8) : Option Dict :=
  match lookupObject key dictionary with
  | some (.dict entries) => some entries
  | _ => none

/-- `Dict_putInt` and the others, whose answer is not looked at. -/
def put (dictionary : Dict) (key : List UInt8) (value : Object) : Dict := (putObject key value dictionary).2

end Dict

end Hyperboria.Benc
