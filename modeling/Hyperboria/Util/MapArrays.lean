/-
`util/Map.h` with handles, as it is in memory: arrays that are longer than what they hold,
a `count` that is unsigned and indexes that are not. A map compiled without
`Map_KEY_TYPE` has no hash function here, and then every `put` adds an entry.

For all calls of `put` and `remove` the arrays are a finite map (`Behaves`): a handle
stands for one entry from the `put` that made it to the `remove` that takes it away, and
it is found where it is. There are two exceptions. An empty map takes the index -1, which
a failed lookup returns, for that of its last entry, and `count` wraps. And from 2^31
entries on an index is a negative number (`behaves_iff`). Up to there the calls on a map
with keys are those of `Map` (`Inv.refines`), which the other modules use.
-/
import Hyperboria.Er
import Hyperboria.Util.Map

namespace Hyperboria

open List Nat

/-- One place of the arrays. -/
structure Map.Slot (κ ν : Type) extends Map.Entry κ ν where
  hashCode : UInt32

/-- `struct Map_CONTEXT`. The arrays are kept as far as they have been written. -/
structure MapArrays (κ ν : Type) where
  slots : List (Map.Slot κ ν)
  nextHandle : Nat
  count : Nat
  capacity : Nat

namespace MapArrays

variable {κ ν : Type}

/-- A `uint32_t` as an `int`. -/
def asInt (n : Nat) : Int := if n < 2 ^ 31 then n else n - 2 ^ 32

/-- An `int` that is -1 if there is no index. -/
def indexOr (index : Option Nat) : Int :=
  match index with
  | some i => asInt i
  | none => -1

/-- `Map_new`. -/
def new : MapArrays κ ν := { slots := [], nextHandle := 0, count := 0, capacity := 0 }

/-- `indexForKey`. The loop would leave the arrays if `count` were too great. -/
def indexForKey [DecidableEq κ] (hash : κ → UInt32) (key : κ) (map : MapArrays κ ν) : Er Int := do
  .assertTrue (map.count ≤ map.slots.length) "out of bounds"
  .ret (indexOr ((map.slots.take map.count).findIdx? fun s => s.hashCode = hash key ∧ s.key = key))

def indexForHandle (handle : Nat) (map : MapArrays κ ν) : Int :=
  indexOr (Map.bisect { entries := map.slots.map (·.toEntry), nextHandle := map.nextHandle } handle 0 map.count)

/-- `map->count - 1`. -/
def countLess (map : MapArrays κ ν) : Nat := (map.count + 2 ^ 32 - 1) % 2 ^ 32

/-- `remove`: what it returns, and the map. `Bits_memmove` moves the places behind the index up to the last
entry by one. -/
def remove (index : Int) (map : MapArrays κ ν) : Int × MapArrays κ ν :=
  if 0 ≤ index ∧ index < asInt map.countLess then
    let i := index.toNat
    (0, { map with
      slots := map.slots.take i ++ (map.slots.drop (i + 1)).take (map.count - i - 1) ++ map.slots.drop (map.count - 1)
      count := map.countLess })
  else if index = asInt map.countLess then (0, { map with count := map.countLess })
  else (-1, map)

/-- The arrays with room for one more. -/
def grown (map : MapArrays κ ν) : MapArrays κ ν :=
  if map.count = map.capacity then { map with capacity := (map.capacity + 10) % 2 ^ 32 } else map

/-- The lookup of a `put`; without keys there is none. -/
def lookup [DecidableEq κ] (hash : Option (κ → UInt32)) (key : κ) (map : MapArrays κ ν) : Er Int :=
  match hash with
  | some hash => map.indexForKey hash key
  | none => .ret (-1)

/-- What is written for a new entry. -/
def newSlot (hash : Option (κ → UInt32)) (key : κ) (value : ν) (map : MapArrays κ ν) : Map.Slot κ ν :=
  { handle := map.nextHandle, key, value
    hashCode := match hash with
      | some hash => hash key
      | none => 0 }

/-- A new entry at the place `count`. -/
def append (hash : Option (κ → UInt32)) (key : κ) (value : ν) (map : MapArrays κ ν) : MapArrays κ ν :=
  { map with
    slots := map.slots.take map.count ++ [map.newSlot hash key value] ++ map.slots.drop (map.count + 1)
    nextHandle := (map.nextHandle + 1) % 2 ^ 32
    count := (map.count + 1) % 2 ^ 32 }

/-- `put`: what it returns, and the map. An index below zero would be a place in front of the arrays. -/
def put [DecidableEq κ] (hash : Option (κ → UInt32)) (key : κ) (value : ν) (map : MapArrays κ ν) :
    Er (Int × MapArrays κ ν) := do
  let map := map.grown
  let i ← map.lookup hash key
  if i < 0 then do
    .assertTrue (0 ≤ asInt map.count) "out of bounds"
    .ret (asInt map.count, map.append hash key value)
  else .ret (i, { map with slots := map.slots.modify i.toNat fun s => { s with value } })

/-- A call that changes the map. -/
inductive Op (κ ν : Type) where
  | put (key : κ) (value : ν)
  | remove (index : Int)

def step [DecidableEq κ] (hash : Option (κ → UInt32)) (op : Op κ ν) (map : MapArrays κ ν) :
    Er (Int × MapArrays κ ν) :=
  match op with
  | .put key value => map.put hash key value
  | .remove index => .ret (map.remove index)

/-! ## A finite map -/

/-- The entries of the map: what stands in the first `count` places. -/
def live (map : MapArrays κ ν) : List (Map.Entry κ ν) := (map.slots.take map.count).map (·.toEntry)

def handles (map : MapArrays κ ν) : List Nat := map.live.map Map.Entry.handle

def keys (map : MapArrays κ ν) : List κ := map.live.map Map.Entry.key

/-- The index of the entry a `put` of this key should write to, if there is one. -/
def place [DecidableEq κ] (hash : Option (κ → UInt32)) (key : κ) (map : MapArrays κ ν) : Option Nat :=
  match hash with
  | some _ => map.live.findIdx? fun e => e.key = key
  | none => none

/-- What a call should do to the entries: replace a value, add an entry with a new handle, take away the entry
with the index. -/
def Expected [DecidableEq κ] (hash : Option (κ → UInt32)) (map : MapArrays κ ν) (op : Op κ ν) (ret : Int)
    (map' : MapArrays κ ν) : Prop :=
  match op with
  | .put key value =>
    match map.place hash key with
    | some i => ret = i ∧ map'.live = map.live.modify i (fun e => { e with value }) ∧ map'.nextHandle = map.nextHandle
    | none => ret = map.live.length ∧ map'.live = map.live ++ [{ handle := map.nextHandle, key, value }] ∧
      map'.nextHandle = map.nextHandle + 1
  | .remove index =>
    if 0 ≤ index ∧ index < map.live.length then
      ret = 0 ∧ map'.live = map.live.eraseIdx index.toNat ∧ map'.nextHandle = map.nextHandle
    else ret = -1 ∧ map' = map

/-- Handles rise and keys occur once, and a handle is found exactly where it is. -/
structure Sound (hash : Option (κ → UInt32)) (map : MapArrays κ ν) : Prop where
  rises : map.handles.Pairwise (· < ·)
  once : hash.isSome → map.keys.Nodup
  found : ∀ (i : Nat) (handle : Nat), map.handles[i]? = some handle → map.indexForHandle handle = i
  notFound : ∀ handle, handle ∉ map.handles → map.indexForHandle handle = -1

/-- The map is as it should be, and so is what every call does to it. A handle that was not there before a call
has not been in use before, `used` being all that have. -/
def Behaves [DecidableEq κ] (hash : Option (κ → UInt32)) : List Nat → List (Op κ ν) → MapArrays κ ν → Prop
  | _, [], map => map.Sound hash
  | used, op :: ops, map => map.Sound hash ∧ ∃ ret map', step hash op map = .ret (ret, map') ∧
    map.Expected hash op ret map' ∧ (∀ handle ∈ map'.handles, handle ∈ map.handles ∨ handle ∉ used) ∧
    Behaves hash (map'.handles ++ used) ops map'

/-- The call does not remove -1 from an empty map, and does not add an entry to 2^31 others. -/
def Allowed [DecidableEq κ] (hash : Option (κ → UInt32)) (map : MapArrays κ ν) (op : Op κ ν) : Prop :=
  match op with
  | .put key _ => (map.place hash key).isSome ∨ map.live.length < 2 ^ 31
  | .remove index => index = -1 → map.live ≠ []

/-- All calls are allowed in the map they are made on. -/
def AllAllowed [DecidableEq κ] (hash : Option (κ → UInt32)) : List (Op κ ν) → MapArrays κ ν → Prop
  | [], _ => True
  | op :: ops, map => map.Allowed hash op ∧ ∀ ret map', step hash op map = .ret (ret, map') → AllAllowed hash ops map'

/-- The number of calls of `put`. -/
def puts (ops : List (Op κ ν)) : Nat := ops.countP fun op => match op with
  | .put .. => true
  | .remove _ => false

theorem puts_cons (op : Op κ ν) (ops : List (Op κ ν)) : puts (op :: ops) = puts [op] + puts ops :=
  @countP_append _ _ [op] ops

/-! ## The arrays -/

/-- What the calls keep. -/
structure Inv (hash : Option (κ → UInt32)) (map : MapArrays κ ν) : Prop where
  written : map.count ≤ map.slots.length
  fits : map.slots.length ≤ map.capacity
  count_le : map.count ≤ 2 ^ 31
  capacity_le : map.capacity ≤ 2 ^ 31 + 10
  rises : map.handles.Pairwise (· < ·)
  below : ∀ handle ∈ map.handles, handle < map.nextHandle
  hashed : ∀ h, hash = some h → ∀ s ∈ map.slots.take map.count, s.hashCode = h s.key
  once : hash.isSome → map.keys.Nodup

theorem inv_new (hash : Option (κ → UInt32)) : (new : MapArrays κ ν).Inv hash where
  written := Nat.le_refl _
  fits := Nat.le_refl _
  count_le := Nat.zero_le _
  capacity_le := Nat.zero_le _
  rises := List.Pairwise.nil
  below := fun _ h => nomatch h
  hashed := fun _ _ _ h => nomatch h
  once := fun _ => nodup_nil

variable {hash : Option (κ → UInt32)} {map : MapArrays κ ν}

theorem Inv.length_live (h : map.Inv hash) : map.live.length = map.count := by
  unfold live
  rw [length_map, length_take, Nat.min_eq_left h.written]

theorem asInt_of_lt {n} (h : n < 2 ^ 31) : asInt n = n := if_pos h

theorem getElem?_live {i} (h : i < map.count) : map.live[i]? = (map.slots.map (·.toEntry))[i]? := by
  unfold live
  rw [map_take, getElem?_take_of_lt h]

/-- What the arrays hold, as a `Map`. -/
def toMap (map : MapArrays κ ν) : Map κ ν := { entries := map.live, nextHandle := map.nextHandle }

theorem Inv.rising (h : map.Inv hash) : map.toMap.Rising := pairwise_map.mp h.rises

theorem Inv.indexForHandle_eq (h : map.Inv hash) (handle : Nat) :
    map.indexForHandle handle = indexOr (map.toMap.indexForHandle handle) := by
  unfold indexForHandle Map.indexForHandle
  rw [show map.toMap.entries.length = map.count from h.length_live]
  exact congrArg indexOr (Map.bisect_congr fun i hi => (getElem?_live (by omega)).symm)

theorem Inv.sound (h : map.Inv hash) : map.Sound hash := by
  have hfind : ∀ {handle i}, map.toMap.indexForHandle handle = some i ↔ map.handles[i]? = some handle := by
    intro handle i
    have hget : map.handles[i]? = map.live[i]?.map Map.Entry.handle := getElem?_map
    rw [h.rising.indexForHandle_iff, hget, Option.map_eq_some_iff]
    rfl
  refine ⟨h.rises, h.once, fun i handle hi => ?_, fun handle hnot => ?_⟩
  · have hlt := (List.getElem?_eq_some_iff.mp hi).1
    have hlen : map.handles.length = map.count := by rw [handles, length_map, h.length_live]
    have hle := h.count_le
    rw [h.indexForHandle_eq, hfind.mpr hi]
    exact asInt_of_lt (by omega)
  · rw [h.indexForHandle_eq,
      Option.eq_none_iff_forall_ne_some.mpr fun i hi => hnot (mem_of_getElem? (hfind.mp hi))]
    rfl

/-! ## One call -/

theorem findIdx?_congr {α : Type} {l : List α} {p q} (h : ∀ a ∈ l, p a = q a) : l.findIdx? p = l.findIdx? q := by
  induction l with
  | nil => rfl
  | cons a l ih =>
    rw [findIdx?_cons, findIdx?_cons, h a mem_cons_self, ih fun b hb => h b (mem_cons_of_mem _ hb)]

theorem forall_mem_modify {α : Type} {p : α → Prop} {f} {l : List α} (hl : ∀ a ∈ l, p a)
    (hf : ∀ a, p a → p (f a)) (i : Nat) : ∀ a ∈ l.modify i f, p a := by
  intro a ha
  obtain ⟨j, hj⟩ := mem_iff_getElem?.mp ha
  rw [getElem?_modify] at hj
  obtain ⟨b, hb, rfl⟩ := Option.map_eq_some_iff.mp hj
  have hpb := hl b (mem_of_getElem? hb)
  split
  · exact hf b hpb
  · exact hpb

theorem Inv.countLess (h : map.Inv hash) (hpos : 0 < map.count) : map.countLess = map.count - 1 := by
  have hle := h.count_le
  unfold MapArrays.countLess
  omega

theorem Inv.remove_lt (h : map.Inv hash) {i} (hi : i < map.count) :
    ∃ slots, map.remove i = (0, { map with slots, count := map.count - 1 }) ∧ slots.length = map.slots.length ∧
      slots.take (map.count - 1) = (map.slots.take map.count).eraseIdx i := by
  have hwritten := h.written
  have hlast : asInt map.countLess = (map.count - 1 : Nat) := by
    have hle := h.count_le
    rw [h.countLess (by omega), asInt_of_lt (by omega)]
  have herase : (map.slots.take map.count).eraseIdx i =
      map.slots.take i ++ (map.slots.drop (i + 1)).take (map.count - (i + 1)) := by
    rw [eraseIdx_eq_take_drop_succ, take_take, Nat.min_eq_left (by omega), drop_take]
  unfold remove
  rw [hlast, h.countLess (by omega)]
  by_cases hmiddle : i < map.count - 1
  · rw [if_pos ⟨by omega, by omega⟩]
    refine ⟨_, rfl, ?_, ?_⟩
    · simp only [length_append, length_take, length_drop]
      omega
    · rw [herase]
      refine take_left' ?_
      simp only [length_append, length_take, length_drop]
      omega
  · rw [if_neg (by omega), if_pos (by omega)]
    refine ⟨map.slots, rfl, rfl, ?_⟩
    rw [herase, show map.count - (i + 1) = 0 by omega, take_zero, append_nil]
    exact congrArg (map.slots.take ·) (by omega)

theorem Inv.remove [DecidableEq κ] (h : map.Inv hash) {index} (hallowed : map.Allowed hash (.remove index)) :
    map.Expected hash (.remove index) (map.remove index).1 (map.remove index).2 ∧ (map.remove index).2.Inv hash := by
  unfold Expected Allowed at *
  dsimp only at *
  have hlen := h.length_live
  have hle := h.count_le
  by_cases hin : 0 ≤ index ∧ index < map.live.length
  · rw [if_pos hin]
    obtain ⟨i, rfl⟩ := Int.eq_ofNat_of_zero_le hin.1
    have hi : i < map.count := by omega
    obtain ⟨slots, hremove, hlength, htake⟩ := h.remove_lt hi
    have hlive : ({ map with slots, count := map.count - 1 } : MapArrays κ ν).live = map.live.eraseIdx i := by
      unfold live
      rw [htake, eraseIdx_map]
    have hsub := eraseIdx_sublist map.live i
    rw [hremove]
    refine ⟨⟨rfl, hlive, rfl⟩, ?_⟩
    have hwritten := h.written
    have hfits := h.fits
    constructor
    · dsimp only
      omega
    · dsimp only
      omega
    · dsimp only
      omega
    · exact h.capacity_le
    · unfold handles
      rw [hlive]
      exact h.rises.sublist (hsub.map _)
    · intro handle hmem
      unfold handles at hmem
      rw [hlive] at hmem
      exact h.below handle ((hsub.map _).subset hmem)
    · intro hash' heq s hs
      rw [htake] at hs
      exact h.hashed hash' heq s ((eraseIdx_sublist _ _).subset hs)
    · intro hkeyed
      unfold keys
      rw [hlive]
      exact (h.once hkeyed).sublist (hsub.map _)
  · have hout : map.remove index = (-1, map) := by
      unfold MapArrays.remove
      by_cases hpos : 0 < map.count
      · rw [h.countLess hpos, asInt_of_lt (by omega), if_neg (by omega), if_neg (by omega)]
      · have hnil : map.live = [] := length_eq_zero_iff.mp (by omega)
        have hminus : asInt map.countLess = -1 := by
          unfold MapArrays.countLess
          rw [show map.count = 0 by omega]
          decide
        rw [hminus, if_neg (by omega), if_neg fun heq => hallowed heq hnil]
    rw [hout, if_neg hin]
    exact ⟨⟨rfl, rfl⟩, h⟩

theorem Inv.grown (h : map.Inv hash) : map.grown.Inv hash ∧ map.grown.count < map.grown.capacity := by
  have hwritten := h.written
  have hfits := h.fits
  have hle := h.count_le
  unfold MapArrays.grown
  split
  next hfull =>
    refine ⟨⟨hwritten, ?_, hle, ?_, h.rises, h.below, h.hashed, h.once⟩, ?_⟩
    · dsimp only
      omega
    · dsimp only
      omega
    · dsimp only
      omega
  next hroom => exact ⟨h, by omega⟩

theorem live_grown (map : MapArrays κ ν) : map.grown.live = map.live := by
  unfold grown
  split
  · rfl
  · rfl

theorem nextHandle_grown (map : MapArrays κ ν) : map.grown.nextHandle = map.nextHandle := by
  unfold grown
  split
  · rfl
  · rfl

theorem Inv.modify (h : map.Inv hash) (i : Nat) (value : ν) :
    ({ map with slots := map.slots.modify i fun s => { s with value } } : MapArrays κ ν).live =
        map.live.modify i (fun e => { e with value }) ∧
      ({ map with slots := map.slots.modify i fun s => { s with value } } : MapArrays κ ν).Inv hash := by
  have htake : (map.slots.modify i fun s => { s with value }).take map.count =
      (map.slots.take map.count).modify i fun s => { s with value } := take_modify _ _ _ _
  have hlive : ({ map with slots := map.slots.modify i fun s => { s with value } } : MapArrays κ ν).live =
      map.live.modify i (fun e => { e with value }) := by
    unfold live
    rw [htake]
    refine Map.map_modify ?_ _ _
    exact fun _ => rfl
  refine ⟨hlive, ?_, ?_, h.count_le, h.capacity_le, ?_, ?_, ?_, ?_⟩
  · rw [length_modify]
    exact h.written
  · rw [length_modify]
    exact h.fits
  · unfold handles
    rw [hlive, Map.map_modify_same]
    · exact h.rises
    · exact fun _ => rfl
  · unfold handles
    rw [hlive, Map.map_modify_same]
    · exact h.below
    · exact fun _ => rfl
  · intro hash' heq s hs
    rw [htake] at hs
    refine forall_mem_modify (h.hashed hash' heq) ?_ i s hs
    exact fun _ hs => hs
  · unfold keys
    rw [hlive, Map.map_modify_same]
    · exact h.once
    · exact fun _ => rfl

section Put

variable [DecidableEq κ] {key : κ} {value : ν}

theorem place_grown : map.grown.place hash key = map.place hash key := by
  unfold place
  rw [live_grown]

theorem Inv.lookup_eq (h : map.Inv hash) (key : κ) : map.lookup hash key = .ret (indexOr (map.place hash key)) := by
  cases hash with
  | none => rfl
  | some hash =>
    have hfind : (map.slots.take map.count).findIdx? (fun s => s.hashCode = hash key ∧ s.key = key) =
        map.live.findIdx? fun e => e.key = key := by
      unfold live
      rw [findIdx?_map]
      refine findIdx?_congr fun s hs => ?_
      have hhashed := h.hashed hash rfl s hs
      simp only [Function.comp_apply, decide_eq_decide]
      exact ⟨fun hboth => hboth.2, fun hkey => ⟨by rw [hhashed, hkey], hkey⟩⟩
    unfold lookup indexForKey place
    dsimp only
    rw [Er.assertTrue_bind (decide_eq_true h.written), hfind]

theorem place_lt {i} (h : map.place hash key = some i) : i < map.live.length := by
  cases hash with
  | none => exact nomatch h
  | some hash => exact (findIdx?_eq_some_iff_getElem.mp h).1

theorem notMem_keys (hkeyed : hash.isSome) (h : map.place hash key = none) : key ∉ map.keys := by
  cases hash with
  | none => exact nomatch hkeyed
  | some hash =>
    intro hmem
    obtain ⟨e, he, hkey⟩ := mem_map.mp hmem
    have hnot := findIdx?_eq_none_iff.mp h e he
    simp [hkey] at hnot

variable (h : map.Inv hash)
include h

theorem Inv.put_some {i} (hplace : map.place hash key = some i) :
    map.put hash key value = .ret ((i : Int),
      { map.grown with slots := map.grown.slots.modify i fun s => { s with value } }) := by
  have hlt := place_lt hplace
  have hlen := h.length_live
  have hle := h.count_le
  have hindex : indexOr (some i) = i := asInt_of_lt (by omega)
  unfold MapArrays.put
  dsimp only
  rw [h.grown.1.lookup_eq key, place_grown, hplace, Er.ret_bind, hindex, if_neg (by omega), Int.toNat_natCast]

theorem Inv.put_none (hplace : map.place hash key = none) :
    map.put hash key value =
      .assertTrue (0 ≤ asInt map.grown.count) "out of bounds" >>=
        fun _ => .ret (asInt map.grown.count, map.grown.append hash key value) := by
  unfold MapArrays.put
  dsimp only
  rw [h.grown.1.lookup_eq key, place_grown, hplace, Er.ret_bind]
  exact if_pos (by decide)

theorem Inv.append (hroom : map.count < map.capacity) (hlt : map.count < 2 ^ 31)
    (hnext : map.nextHandle + 1 < 2 ^ 32) (hplace : map.place hash key = none) :
    (map.append hash key value).live = map.live ++ [{ handle := map.nextHandle, key, value }] ∧
      (map.append hash key value).nextHandle = map.nextHandle + 1 ∧ (map.append hash key value).Inv hash := by
  have hwritten := h.written
  have hfits := h.fits
  have hlength : (map.slots.take map.count).length = map.count := by
    rw [length_take, Nat.min_eq_left hwritten]
  have hcount : (map.append hash key value).count = map.count + 1 := mod_eq_of_lt (by omega)
  have hhandle : (map.append hash key value).nextHandle = map.nextHandle + 1 := mod_eq_of_lt (by omega)
  have hslots : (map.append hash key value).slots.length = max map.slots.length (map.count + 1) := by
    simp only [MapArrays.append, length_append, length_drop, length_singleton]
    omega
  have htake : (map.append hash key value).slots.take (map.append hash key value).count =
      map.slots.take map.count ++ [map.newSlot hash key value] := by
    rw [hcount]
    exact take_left' (by rw [length_append, hlength, length_singleton])
  have hlive : (map.append hash key value).live = map.live ++ [{ handle := map.nextHandle, key, value }] := by
    rw [live, htake, map_append]
    rfl
  have hhandles : (map.append hash key value).handles = map.handles ++ [map.nextHandle] := by
    rw [handles, hlive, map_append]
    rfl
  have hkeys : (map.append hash key value).keys = map.keys ++ [key] := by
    rw [keys, hlive, map_append]
    rfl
  refine ⟨hlive, hhandle, ?_, ?_, ?_, h.capacity_le, ?_, ?_, ?_, ?_⟩
  · omega
  · rw [hslots]
    exact Nat.max_le.mpr ⟨hfits, hroom⟩
  · omega
  · rw [hhandles]
    refine pairwise_append.mpr ⟨h.rises, pairwise_singleton _ _, fun a ha b hb => ?_⟩
    rw [mem_singleton.mp hb]
    exact h.below a ha
  · intro handle hmem
    rw [hhandles, mem_append, mem_singleton] at hmem
    rw [hhandle]
    rcases hmem with hmem | rfl
    · exact lt_succ_of_lt (h.below handle hmem)
    · exact lt_succ_self _
  · intro hash' heq s hs
    rw [htake, mem_append, mem_singleton] at hs
    rcases hs with hs | rfl
    · exact h.hashed hash' heq s hs
    · subst heq
      rfl
  · intro hkeyed
    rw [hkeys]
    exact nodup_append.mpr ⟨h.once hkeyed, nodup_singleton _, fun a ha b hb hab =>
      notMem_keys hkeyed hplace (mem_singleton.mp hb ▸ hab ▸ ha)⟩

theorem Inv.put (hallowed : map.Allowed hash (.put key value))
    (hnext : map.nextHandle + 1 < 2 ^ 32) :
    ∃ ret map', map.put hash key value = .ret (ret, map') ∧ map.Expected hash (.put key value) ret map' ∧
      map'.Inv hash := by
  have hgrown := h.grown
  cases hplace : map.place hash key with
  | some i =>
    obtain ⟨hlive, hinv⟩ := hgrown.1.modify i value
    refine ⟨_, _, h.put_some hplace, ?_, hinv⟩
    unfold Expected
    dsimp only
    rw [hplace]
    exact ⟨rfl, hlive.trans (by rw [live_grown]), nextHandle_grown map⟩
  | none =>
    have hlt : map.live.length < 2 ^ 31 := by
      unfold Allowed at hallowed
      dsimp only at hallowed
      rw [hplace] at hallowed
      exact hallowed.resolve_left (by decide)
    have hcount : map.grown.count = map.live.length := by rw [← live_grown, hgrown.1.length_live]
    have hindex : asInt map.grown.count = map.live.length := by rw [hcount, asInt_of_lt hlt]
    obtain ⟨hlive, hhandle, hinv⟩ := @Inv.append _ _ _ _ _ key value hgrown.1 hgrown.2 (by omega)
      (by rw [nextHandle_grown]; exact hnext) (place_grown.trans hplace)
    refine ⟨asInt map.grown.count, _, ?_, ?_, hinv⟩
    · exact (h.put_none hplace).trans (Er.assertTrue_bind (decide_eq_true (by omega)))
    · unfold Expected
      dsimp only
      rw [hplace]
      exact ⟨hindex, by rw [hlive, live_grown, nextHandle_grown], by rw [hhandle, nextHandle_grown]⟩

theorem Inv.step {op} (hallowed : map.Allowed hash op)
    (hnext : map.nextHandle + puts [op] < 2 ^ 32) :
    ∃ ret map', step hash op map = .ret (ret, map') ∧ map.Expected hash op ret map' ∧ map'.Inv hash := by
  cases op with
  | put key value => exact h.put hallowed hnext
  | remove index =>
    obtain ⟨hexpected, hinv⟩ := h.remove hallowed
    exact ⟨_, _, rfl, hexpected, hinv⟩

theorem Inv.not_expected {op} (hnot : ¬ map.Allowed hash op) {ret}
    {map'} (hstep : MapArrays.step hash op map = .ret (ret, map')) : ¬ map.Expected hash op ret map' := by
  have hlen := h.length_live
  cases op with
  | put key value =>
    unfold Allowed at hnot
    rw [not_or, Option.not_isSome_iff_eq_none] at hnot
    have hcount : map.grown.count = map.live.length := by rw [← live_grown, h.grown.1.length_live]
    have hle := h.count_le
    have hneg : asInt map.grown.count < 0 := by
      unfold asInt
      split
      · omega
      · omega
    have hput : map.put hash key value = .ret (ret, map') := hstep
    rw [h.put_none hnot.1, Er.bind_eq_ret] at hput
    obtain ⟨_, hassert, -⟩ := hput
    exact absurd (of_decide_eq_true (Er.assertTrue_eq_ret.mp hassert)) (by omega)
  | remove index =>
    obtain ⟨rfl, hnil⟩ := Classical.not_imp.mp hnot
    have hzero : map.count = 0 := by rw [← hlen, not_not.mp hnil]; rfl
    have hremove : map.remove (-1) = (0, { map with count := map.countLess }) := by
      have hminus : asInt map.countLess = -1 := by
        unfold MapArrays.countLess
        rw [hzero]
        decide
      unfold MapArrays.remove
      rw [hminus, if_neg (by omega), if_pos rfl]
    obtain ⟨rfl, -⟩ := Prod.mk.inj (hremove.symm.trans (Er.ret.inj hstep))
    intro hexpected
    exact absurd hexpected.1 (by decide)

omit h

theorem Expected.handles {op} {ret} {map'} (h : map.Expected hash op ret map') :
    map.nextHandle ≤ map'.nextHandle ∧ map'.nextHandle ≤ map.nextHandle + puts [op] ∧
      ∀ handle ∈ map'.handles, handle ∈ map.handles ∨ handle = map.nextHandle := by
  cases op with
  | put key value =>
    have hputs : puts [Op.put key value] = 1 := rfl
    unfold Expected at h
    dsimp only at h
    unfold MapArrays.handles
    cases hplace : map.place hash key with
    | some i =>
      rw [hplace] at h
      obtain ⟨-, hlive, hnext⟩ := h
      refine ⟨by omega, by omega, fun handle hmem => .inl ?_⟩
      rw [hlive, Map.map_modify_same] at hmem
      · exact hmem
      · exact fun _ => rfl
    | none =>
      rw [hplace] at h
      obtain ⟨-, hlive, hnext⟩ := h
      refine ⟨by omega, by omega, fun handle hmem => ?_⟩
      rw [hlive, map_append, mem_append] at hmem
      exact hmem.imp_right mem_singleton.mp
  | remove index =>
    unfold Expected at h
    dsimp only at h
    split at h
    · obtain ⟨-, hlive, hnext⟩ := h
      refine ⟨by omega, by omega, fun handle hmem => .inl ?_⟩
      unfold MapArrays.handles at hmem ⊢
      rw [hlive] at hmem
      exact ((eraseIdx_sublist _ _).map _).subset hmem
    · obtain ⟨-, rfl⟩ := h
      exact ⟨Nat.le_refl _, Nat.le_add_right _ _, fun _ hmem => .inl hmem⟩

/-! ## The map without its memory -/

/-- The calls on the arrays of a map with keys are those on the `Map` they hold. -/
theorem Inv.refines {h : κ → UInt32} (hinv : map.Inv (some h)) (hlt : map.live.length < 2 ^ 31)
    (hnext : map.nextHandle + 1 < 2 ^ 32) :
    (∃ map', map.put (some h) key value = .ret ((map.toMap.put key value).1, map') ∧
        map'.toMap = (map.toMap.put key value).2 ∧ map'.Inv (some h)) ∧
      (∀ i < map.live.length, (map.remove i).2.toMap = map.toMap.remove i ∧ (map.remove i).2.Inv (some h)) ∧
      map.indexForKey h key = .ret (indexOr (map.toMap.indexForKey key)) ∧
      ∀ handle, map.indexForHandle handle = indexOr (map.toMap.indexForHandle handle) := by
  refine ⟨?_, fun i hi => ?_, hinv.lookup_eq key, hinv.indexForHandle_eq⟩
  · obtain ⟨ret, map', hput, hexpected, hinv'⟩ := @Inv.put _ _ _ _ _ key value hinv (.inr hlt) hnext
    have hplace : map.place (some h) key = map.toMap.indexForKey key := rfl
    unfold Expected at hexpected
    dsimp only at hexpected
    rw [hplace] at hexpected
    unfold Map.put
    cases hkey : map.toMap.indexForKey key with
    | some i =>
      rw [hkey] at hexpected
      obtain ⟨rfl, hlive, hsame⟩ := hexpected
      exact ⟨map', hput, by simp only [toMap, Map.set, hlive, hsame], hinv'⟩
    | none =>
      rw [hkey] at hexpected
      obtain ⟨rfl, hlive, hafter⟩ := hexpected
      refine ⟨map', hput, ?_, hinv'⟩
      simp only [toMap, hlive, hafter, mod_eq_of_lt hnext]
  · have hallowed : map.Allowed (some h) (.remove i) := fun heq => absurd heq (by omega)
    obtain ⟨hexpected, hinv'⟩ := hinv.remove hallowed
    unfold Expected at hexpected
    dsimp only at hexpected
    rw [if_pos ⟨Int.natCast_nonneg i, Int.ofNat_lt.mpr hi⟩, Int.toNat_natCast] at hexpected
    refine ⟨?_, hinv'⟩
    simp only [toMap, Map.remove, hexpected.2.1, hexpected.2.2]

/-! ## Any calls -/

theorem Inv.behaves_run_iff (h : map.Inv hash) {used} (hused : ∀ handle ∈ used, handle < map.nextHandle)
    (ops : List (Op κ ν)) (hputs : map.nextHandle + puts ops < 2 ^ 32) :
    Behaves hash used ops map ↔ AllAllowed hash ops map := by
  induction ops generalizing map used with
  | nil => exact iff_of_true h.sound trivial
  | cons op ops ih =>
    rw [puts_cons] at hputs
    -- what the rest of the calls start from
    have hrest : ∀ {ret} {map'}, map.Expected hash op ret map' → map'.Inv hash →
        (Behaves hash (map'.handles ++ used) ops map' ↔ AllAllowed hash ops map') := by
      intro ret map' hexpected hinv
      obtain ⟨hge, hle, -⟩ := hexpected.handles
      refine ih hinv (fun handle hmem => ?_) (by omega)
      rcases mem_append.mp hmem with hmem | hmem
      · exact hinv.below handle hmem
      · exact Nat.lt_of_lt_of_le (hused handle hmem) hge
    constructor
    · intro hbehaves
      obtain ⟨-, ret, map', hstep, hexpected, -, hnext⟩ := hbehaves
      have hallowed : map.Allowed hash op := by
        by_contra hnot
        exact h.not_expected hnot hstep hexpected
      refine ⟨hallowed, fun ret' map'' hstep' => ?_⟩
      obtain ⟨ret₀, map₀, hstep₀, hexpected₀, hinv₀⟩ := h.step hallowed (by omega)
      cases hstep.symm.trans hstep₀
      cases hstep.symm.trans hstep'
      exact (hrest hexpected hinv₀).mp hnext
    · rintro ⟨hallowed, hnext⟩
      obtain ⟨ret, map', hstep, hexpected, hinv⟩ := h.step hallowed (by omega)
      refine ⟨h.sound, ret, map', hstep, hexpected, fun handle hmem => ?_, (hrest hexpected hinv).mpr (hnext ret map' hstep)⟩
      rcases hexpected.handles.2.2 handle hmem with hold | rfl
      · exact .inl hold
      · exact .inr fun hmem => absurd (hused _ hmem) (Nat.lt_irrefl _)

/-- For any calls with fewer than 2^32 among them that put: the arrays are a finite map throughout if and only if
no call removes -1 from an empty map and none adds an entry to 2^31 others. -/
theorem behaves_iff (hash : Option (κ → UInt32)) (ops : List (Op κ ν)) (hputs : puts ops < 2 ^ 32) :
    Behaves hash [] ops new ↔ AllAllowed hash ops new :=
  (inv_new hash).behaves_run_iff (fun _ hmem => absurd hmem not_mem_nil) ops (by
    rw [show (new : MapArrays κ ν).nextHandle = 0 from rfl, Nat.zero_add]
    exact hputs)

end Put

theorem behaves_four_calls :
    Behaves (some fun _ => 7) [] [Op.put 1 10, .put 2 20, .put 1 30, .remove 0] (new : MapArrays Nat Nat) := by
  refine (behaves_iff _ _ (by decide)).mpr ⟨.inr (show _ < 2147483648 by decide), fun _ _ h₁ => ?_⟩
  cases h₁
  refine ⟨.inr (show _ < 2147483648 by decide), fun _ _ h₂ => ?_⟩
  cases h₂
  refine ⟨.inl rfl, fun _ _ h₃ => ?_⟩
  exact ⟨fun h => absurd h (by decide), fun _ _ _ => trivial⟩

/-- An empty map takes -1 for an index of its own. -/
theorem remove_from_empty :
    (new : MapArrays Nat Nat).remove (-1) = (0, { (new : MapArrays Nat Nat) with count := 2 ^ 32 - 1 }) ∧
      ¬ Behaves none [] [Op.remove (-1)] (new : MapArrays Nat Nat) := by
  have hremove : (new : MapArrays Nat Nat).remove (-1) = (0, { (new : MapArrays Nat Nat) with count := 2 ^ 32 - 1 }) := by
    simp [remove, countLess, asInt, new]
  refine ⟨hremove, ?_⟩
  rintro ⟨-, ret, map', hstep, hexpected, -⟩
  obtain ⟨rfl, -⟩ := Prod.mk.inj (hremove.symm.trans (Er.ret.inj hstep))
  exact absurd hexpected.1 (by decide)

end MapArrays

end Hyperboria
