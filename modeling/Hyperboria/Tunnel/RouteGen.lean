/-
`tunnel/RouteGen.c`: the routes for the tunnel, generated from prefixes that shall be
routed, exceptions that shall not, and local prefixes, inside of which exceptions do
not count. `getGeneratedRoutes` does it once for IPv4 and once for IPv6.

The functions of the two families differ in their words and in nothing else but one
call, which sorts the list before duplicates are looked for in IPv6 and is not there
in IPv4. What they share is written once, over a `Family`.

The lists are those of `struct RouteGen_pvt`. `QSort` is a sort: since two prefixes that
compare equal are equal, it does not matter which.
-/
import Hyperboria.Er

namespace Hyperboria

namespace RouteGen

structure Prefix4 where
  bits : BitVec 32
  prefixLen : Nat
  prefixLen_le : prefixLen ≤ 32
deriving DecidableEq

structure Prefix6 where
  highBits : BitVec 64
  lowBits : BitVec 64
  prefixLen : Nat
  prefixLen_le : prefixLen ≤ 128
deriving DecidableEq

/-! ## One prefix -/

def comparePrefixes4 (a b : Prefix4) : Int :=
  if a.prefixLen ≠ b.prefixLen then if a.prefixLen < b.prefixLen then -1 else 1
  else if a.bits ≠ b.bits then if a.bits < b.bits then 1 else -1
  else 0

def comparePrefixes6 (a b : Prefix6) : Int :=
  if a.prefixLen ≠ b.prefixLen then if a.prefixLen < b.prefixLen then -1 else 1
  else if a.highBits ≠ b.highBits then if a.highBits < b.highBits then 1 else -1
  else if a.lowBits ≠ b.lowBits then if a.lowBits < b.lowBits then 1 else -1
  else 0

def invertPrefix4 (toInvert : Prefix4) : List Prefix4 :=
  (List.range' (32 - toInvert.prefixLen) toInvert.prefixLen).map fun i =>
    { bits := (toInvert.bits &&& (BitVec.allOnes 32 <<< i)) ^^^ (1#32 <<< i)
      prefixLen := 32 - i
      prefixLen_le := Nat.sub_le 32 i }

def invertPrefix6 (toInvert : Prefix6) : List Prefix6 :=
  (List.range' (128 - toInvert.prefixLen) toInvert.prefixLen).map fun i =>
    if i ≥ 64 then
      { highBits := (toInvert.highBits &&& (BitVec.allOnes 64 <<< (i - 64))) ^^^ (1#64 <<< (i - 64))
        lowBits := 0
        prefixLen := 128 - i
        prefixLen_le := Nat.sub_le 128 i }
    else
      { highBits := toInvert.highBits
        lowBits := (toInvert.lowBits &&& (BitVec.allOnes 64 <<< i)) ^^^ (1#64 <<< i)
        prefixLen := 128 - i
        prefixLen_le := Nat.sub_le 128 i }

def isSubsetOf4 (isSubset isSuperset : Prefix4) : Bool :=
  if isSuperset.prefixLen > isSubset.prefixLen then false
  else if isSuperset.prefixLen ≥ 32 then isSuperset.bits = isSubset.bits
  else if isSuperset.prefixLen = 0 then true
  else
    let shift := 32 - isSuperset.prefixLen
    isSuperset.bits >>> shift = isSubset.bits >>> shift

def isSubsetOf6 (isSubset isSuperset : Prefix6) : Bool :=
  if isSuperset.prefixLen > isSubset.prefixLen then false
  else if isSuperset.prefixLen > 64 then
    let shift := 128 - isSuperset.prefixLen
    isSuperset.highBits = isSubset.highBits && isSuperset.lowBits >>> shift = isSubset.lowBits >>> shift
  else if isSuperset.prefixLen ≠ 0 then
    let shift := 64 - isSuperset.prefixLen
    isSuperset.highBits >>> shift = isSubset.highBits >>> shift
  else true

/-- `target` of `mergePrefixSets4`, from the highest prefix. -/
def target4 (highestPrefix : Prefix4) : Prefix4 :=
  { highestPrefix with
    bits := highestPrefix.bits ^^^
      if highestPrefix.prefixLen ≠ 0 then 1#32 <<< (32 - highestPrefix.prefixLen) else 0 }

/-- `target` of `mergePrefixSets6`, from the highest prefix. -/
def target6 (highestPrefix : Prefix6) : Prefix6 :=
  if highestPrefix.prefixLen > 64 then
    { highestPrefix with lowBits := highestPrefix.lowBits ^^^ (1#64 <<< (128 - highestPrefix.prefixLen)) }
  else if highestPrefix.prefixLen ≠ 0 then
    { highestPrefix with
      highBits := highestPrefix.highBits ^^^ (1#64 <<< (64 - highestPrefix.prefixLen)), lowBits := 0 }
  else highestPrefix

/-! ## Lists of prefixes -/

/-- The functions on single prefixes of an address family. -/
structure Family (α : Type) where
  prefixLen : α → Nat
  compare : α → α → Int
  invert : α → List α
  isSubsetOf : α → α → Bool
  target : α → α

def family4 : Family Prefix4 := ⟨Prefix4.prefixLen, comparePrefixes4, invertPrefix4, isSubsetOf4, target4⟩

def family6 : Family Prefix6 := ⟨Prefix6.prefixLen, comparePrefixes6, invertPrefix6, isSubsetOf6, target6⟩

section
variable {α : Type} (F : Family α)

/-- `ArrayList_sort`. -/
def sort (list : List α) : List α := list.insertionSort fun a b => F.compare a b ≤ 0

/-- The first loop of `mergePrefixSets`; `none` is the NULL it begins with. -/
def highestPrefix (prefixes : List α) : Option α :=
  prefixes.foldl (fun highest result =>
    match highest with
    | none => some result
    | some h => if F.prefixLen h < F.prefixLen result then some result else some h) none

/-- A prefix is added to the list unless the list has a subset of it. -/
def includeUnless (list : List α) (toInclude : α) : List α :=
  if list.any fun test => F.isSubsetOf test toInclude then list else list ++ [toInclude]

def mergePrefixSets (mergeInto prefixes : List α) : Er (List α) :=
  match highestPrefix F prefixes with
  -- `Bits_memcpy` from NULL
  | none => .abort "segmentation fault"
  | some highest =>
    let target := F.target highest
    let mergeInto := mergeInto.filter fun result => !F.isSubsetOf target result
    .ret (prefixes.foldl (includeUnless F) mergeInto)

/-- The local prefixes no prefix is a subset of. -/
def effectiveLocalPrefixes (prefixes localPrefixes : List α) : List α :=
  localPrefixes.filter fun localPfx => !prefixes.any fun pfx => F.isSubsetOf pfx localPfx

/-- The loop over the exceptions, with the effective local prefixes. -/
def mergeExceptions (mergePrefixSets : List α → List α → Er (List α)) (localPrefixes : List α) :
    List α → List α → Er (List α)
  | allPrefixes, [] => .ret allPrefixes
  | allPrefixes, pfxToInvert :: exceptions =>
    if localPrefixes.any fun localPfx => F.isSubsetOf pfxToInvert localPfx then
      mergeExceptions mergePrefixSets localPrefixes allPrefixes exceptions
    else do
      let allPrefixes ← mergePrefixSets allPrefixes (F.invert pfxToInvert)
      mergeExceptions mergePrefixSets localPrefixes allPrefixes exceptions

/-- What the loop that looks for duplicates takes from behind `pfx`. It stays at the same place after it has
removed something, unless the list ends soon after. -/
def dropSubsets (pfx : α) : List α → List α
  | [] => []
  | pfx2 :: rest =>
    if F.isSubsetOf pfx2 pfx then
      if 2 ≤ rest.length then dropSubsets pfx rest else rest
    else pfx2 :: rest

/-- The loop that looks for duplicates, which goes through the list from its end. -/
def removeSubsets : List α → List α
  | [] => []
  | pfx :: rest => pfx :: dropSubsets F pfx (removeSubsets rest)

/-- The prefixes of which nothing is in the list are added. -/
def addPrefixes (prefixes allPrefixes : List α) : List α := prefixes.foldl (includeUnless F) allPrefixes

/-- The last loop: what is a subset of a prefix. -/
def subsetsOf (prefixes allPrefixes : List α) : List α :=
  allPrefixes.filter fun pfx => prefixes.any fun pfx2 => F.isSubsetOf pfx pfx2

def isDefaultRoute : List α → Bool
  | [pfx] => F.prefixLen pfx = 0
  | _ => false

end

def mergePrefixSets4 : List Prefix4 → List Prefix4 → Er (List Prefix4) := mergePrefixSets family4

def mergePrefixSets6 : List Prefix6 → List Prefix6 → Er (List Prefix6) := mergePrefixSets family6

def isDefaultRoute4 : List Prefix4 → Bool := isDefaultRoute family4

def isDefaultRoute6 : List Prefix6 → Bool := isDefaultRoute family6

def genPrefixes4 (prefixes exceptions localPrefixes : List Prefix4) : Er (List Prefix4) := do
  let allPrefixes ←
    mergeExceptions family4 mergePrefixSets4 (effectiveLocalPrefixes family4 prefixes localPrefixes) [] exceptions
  let allPrefixes := removeSubsets family4 allPrefixes
  let allPrefixes := sort family4 (addPrefixes family4 prefixes allPrefixes)
  .ret (subsetsOf family4 prefixes allPrefixes)

/-- `genPrefixes6`, which sorts once more. -/
def genPrefixes6 (prefixes exceptions localPrefixes : List Prefix6) : Er (List Prefix6) := do
  let allPrefixes ←
    mergeExceptions family6 mergePrefixSets6 (effectiveLocalPrefixes family6 prefixes localPrefixes) [] exceptions
  let allPrefixes := removeSubsets family6 (sort family6 allPrefixes)
  let allPrefixes := sort family6 (addPrefixes family6 prefixes allPrefixes)
  .ret (subsetsOf family6 prefixes allPrefixes)

def mkPseudoDefault4 : List Prefix4 :=
  [{ bits := 0, prefixLen := 1, prefixLen_le := by decide },
    { bits := 0x80000000, prefixLen := 1, prefixLen_le := by decide }]

def mkPseudoDefault6 : List Prefix6 :=
  [{ highBits := 0, lowBits := 0, prefixLen := 1, prefixLen_le := by decide },
    { highBits := 0x8000000000000000, lowBits := 0, prefixLen := 1, prefixLen_le := by decide }]

/-! ## The generator -/

/-- The prefixes, local prefixes and exceptions of one family. -/
structure Config (α : Type) where
  prefixes : List α
  localPrefixes : List α
  exceptions : List α

structure Prefix46 where
  prefix4 : List Prefix4
  prefix6 : List Prefix6
deriving DecidableEq

end RouteGen

open RouteGen in
/-- `struct RouteGen_pvt`. -/
structure RouteGen where
  config4 : Config Prefix4
  config6 : Config Prefix6

namespace RouteGen

/-- One half of `getGeneratedRoutes`. -/
def generate {α : Type} (genPrefixes : List α → List α → List α → Er (List α)) (isDefaultRoute : List α → Bool)
    (mkPseudoDefault : List α) (config : Config α) : Er (List α) :=
  if config.prefixes.length > 0 then do
    let out ← genPrefixes config.prefixes config.exceptions config.localPrefixes
    .ret (if isDefaultRoute out then mkPseudoDefault else out)
  else .ret []

def getGeneratedRoutes (rp : RouteGen) : Er Prefix46 := do
  let prefix4 ← generate genPrefixes4 isDefaultRoute4 mkPseudoDefault4 rp.config4
  let prefix6 ← generate genPrefixes6 isDefaultRoute6 mkPseudoDefault6 rp.config6
  .ret { prefix4, prefix6 }

end RouteGen

end Hyperboria
