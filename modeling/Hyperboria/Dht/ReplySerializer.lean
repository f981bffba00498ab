/-
`dht/dhtcore/ReplySerializer.c` and `dht/dhtcore/VersionList.c`: the nodes another node
tells us of. A reply has a string of keys and paths and a string of protocol versions;
the paths are as that node sees them and are spliced to our path to it.

A node is taken over when its key has a valid address and there is room for its path
(`mem_parsed_iff`). Neither its path nor its version is looked at.
-/
import Hyperboria.Benc.Object
import Hyperboria.Dht.Address
import Hyperboria.Switch.LabelSplicer

namespace Hyperboria

/-- The big endian number of some bytes. -/
def bigEndian (bytes : List UInt8) : Nat := bytes.foldl (fun n b => n * 256 + b.toNat) 0

def VersionList.parse (str : List UInt8) : Option (List Nat) :=
  match str with
  | [] => none
  | numberSize :: bytes =>
    let numberSize := numberSize.toNat
    if numberSize = 0 ∨ numberSize > 4 then none
    else
      let length := bytes.length / numberSize
      if length * numberSize ≠ bytes.length then none
      else some ((List.range length).map fun i => bigEndian ((bytes.drop (i * numberSize)).take numberSize))

/-- `Address_parse`: a key and a path. -/
def Address.parse (input : List UInt8) : Address :=
  { Address.zero with
    key := Key.ofBytes input
    path := BitVec.ofNat 64 (bigEndian ((input.drop 32).take 8)) }

namespace ReplySerializer

/-- `Address_SERIALIZED_SIZE`. -/
def SERIALIZED_SIZE : Nat := 40

/-- The nodes as they are written in a reply; `none` if its fields are not such lists. -/
def entries (result : Benc.Dict) : Option (List Address) :=
  match result.getString [110] with
  | none => none
  | some nodes =>
    if nodes.length = 0 ∨ nodes.length % SERIALIZED_SIZE ≠ 0 then none
    else
      match (result.getString [110, 112]).bind VersionList.parse with
      | none => none
      | some versions =>
        if versions.length ≠ nodes.length / SERIALIZED_SIZE then none
        else some ((List.range versions.length).map fun i =>
          { Address.parse (nodes.drop (i * SERIALIZED_SIZE)) with protocolVersion := versions.getD i 0 })

/-- The loop of `ReplySerializer_parse`: one node, or nothing if it is dropped. -/
def parseEntry (C : Crypto) (fromNode : Address) (splicePath : Bool) (addr : Address) : Option Address :=
  let addr := addr.getPrefix C
  let path := if splicePath then LabelSplicer.splice addr.path fromNode.path else addr.path
  if splicePath ∧ path = BitVec.allOnes 64 then none
  else
    let addr := { addr with path }.getPrefix C
    if !AddressCalc.validAddress addr.ip6 then none else some addr

def parse (C : Crypto) (fromNode : Address) (result : Benc.Dict) (splicePath : Bool) : Option (List Address) :=
  (entries result).map fun list => list.filterMap (parseEntry C fromNode splicePath)

/-- The nodes that are taken over from a reply. -/
def parsed (C : Crypto) (fromNode : Address) (result : Benc.Dict) : List Address :=
  (parse C fromNode result true).getD []

/-! ## Which nodes are taken over -/

/-- A node of a reply as it is taken over. -/
def takenOver (C : Crypto) (fromNode e : Address) : Address :=
  { e with ip6 := C.addressForPublicKey e.key, path := LabelSplicer.splice e.path fromNode.path }

theorem ip6_of_mem_entries {result} {list} (h : entries result = some list)
    {e} (he : e ∈ list) : e.ip6 = List.replicate 16 0 := by
  unfold entries at h
  split at h
  · cases h
  split at h
  · cases h
  split at h
  · cases h
  split at h
  · cases h
  · cases h
    obtain ⟨i, -, rfl⟩ := List.mem_map.mp he
    rfl

theorem parseEntry_eq {C} {fromNode e} (he : e.ip6 = List.replicate 16 0) :
    parseEntry C fromNode true e =
      if LabelSplicer.splice e.path fromNode.path = BitVec.allOnes 64 then none
      else if !AddressCalc.validAddress (C.addressForPublicKey e.key) then none
      else some (takenOver C fromNode e) := by
  have hfirst : e.getPrefix C = { e with ip6 := C.addressForPublicKey e.key } := by rw [Address.getPrefix, if_pos he]
  have hagain : (takenOver C fromNode e).getPrefix C = takenOver C fromNode e := by
    unfold Address.getPrefix
    split
    · rfl
    · rfl
  unfold takenOver at hagain
  simp only [parseEntry, hfirst, if_true, true_and, hagain, takenOver]

theorem mem_parsed_iff {C} {fromNode addr} {result} :
    addr ∈ parsed C fromNode result ↔ ∃ e ∈ (entries result).getD [],
      LabelSplicer.splice e.path fromNode.path ≠ BitVec.allOnes 64 ∧
      AddressCalc.validAddress (C.addressForPublicKey e.key) = true ∧ addr = takenOver C fromNode e := by
  unfold parsed parse
  cases hentries : entries result with
  | none => simp
  | some list =>
    simp only [Option.map_some, Option.getD_some, List.mem_filterMap]
    refine exists_congr fun e => and_congr_right fun he => ?_
    rw [parseEntry_eq (ip6_of_mem_entries hentries he)]
    split
    next hfull => exact iff_of_false (by simp) fun h => h.1 hfull
    next hroom =>
      split
      next hbad =>
        rw [Bool.not_eq_true'] at hbad
        exact iff_of_false (by simp) fun h => Bool.false_ne_true (hbad.symm.trans h.2.1)
      next hgood =>
        rw [Bool.not_eq_true', Bool.not_eq_false] at hgood
        rw [Option.some.injEq, eq_comm]
        exact ⟨fun h => ⟨hroom, hgood, h⟩, fun h => h.2.2⟩

end ReplySerializer

end Hyperboria
