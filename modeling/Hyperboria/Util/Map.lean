/-
`util/Map.h` with keys and handles: parallel arrays of handles, keys and values, of
which the handles rise along the array. So a handle is found by halving
(`bisect_eq_some_iff`).
-/
import Mathlib

namespace Hyperboria

open List

/-- One place of the arrays. -/
structure Map.Entry (κ ν : Type) where
  handle : Nat
  key : κ
  value : ν

/-- `struct Map_CONTEXT`. -/
structure Map (κ ν : Type) where
  entries : List (Map.Entry κ ν)
  nextHandle : Nat

namespace Map

variable {κ ν : Type}

/-- The array `handles`. -/
def handles (map : Map κ ν) : List Nat := map.entries.map Entry.handle

def new : Map κ ν := { entries := [], nextHandle := 0 }

/-- `indexForKey`; `none` is the -1 of the source. -/
def indexForKey [DecidableEq κ] (key : κ) (map : Map κ ν) : Option Nat := map.entries.findIdx? fun e => e.key = key

/-- The loop of `indexForHandle`: the handle is looked for in the `bufferLen` places from `base` on. -/
def bisect (map : Map κ ν) (handle base bufferLen : Nat) : Option Nat :=
  if bufferLen = 0 then none
  else
    let middle := base + bufferLen / 2
    match map.entries[middle]? with
    | none => none
    | some e =>
      if e.handle ≤ handle then
        if e.handle = handle then some middle
        else bisect map handle (middle + 1) ((bufferLen - 1) / 2)
      else bisect map handle base (bufferLen / 2)
termination_by bufferLen

def indexForHandle (handle : Nat) (map : Map κ ν) : Option Nat := bisect map handle 0 map.entries.length

def remove (index : Nat) (map : Map κ ν) : Map κ ν := { map with entries := map.entries.eraseIdx index }

/-- The array `values` with another value at `index`. -/
def set (index : Nat) (value : ν) (map : Map κ ν) : Map κ ν :=
  { map with entries := map.entries.modify index fun e => { e with value } }

/-- `put`: the index of the entry, and the map. -/
def put [DecidableEq κ] (key : κ) (value : ν) (map : Map κ ν) : Nat × Map κ ν :=
  match map.indexForKey key with
  | some index => (index, map.set index value)
  | none =>
    (map.entries.length,
      { entries := map.entries ++ [{ handle := map.nextHandle, key, value }]
        nextHandle := (map.nextHandle + 1) % 2 ^ 32 })

theorem map_modify {α β : Type} {f} {g} {k : α → β} (h : ∀ a, k (f a) = g (k a)) (l : List α) (i : Nat) :
    (l.modify i f).map k = (l.map k).modify i g := by
  apply ext_getElem?
  intro j
  rw [getElem?_map, getElem?_modify, getElem?_modify, getElem?_map]
  cases l[j]? with
  | none => rfl
  | some a =>
    by_cases hij : i = j
    · simp [hij, h]
    · simp [hij]

/-- What a change does not touch is the same in all elements when one of them is changed. -/
theorem map_modify_same {α β : Type} {f} {k : α → β} (h : ∀ a, k (f a) = k a) (l : List α) (i : Nat) :
    (l.modify i f).map k = l.map k := by
  rw [map_modify (g := id) h]
  exact modify_id _ _

theorem indexForKey_eq [DecidableEq κ] (key : κ) (map : Map κ ν) :
    map.indexForKey key = (map.entries.map Entry.key).findIdx? fun k => k = key := by
  rw [findIdx?_map]
  rfl

@[simp] theorem indexForKey_set [DecidableEq κ] (index : Nat) (value : ν) (key : κ) (map : Map κ ν) :
    (map.set index value).indexForKey key = map.indexForKey key := by
  rw [indexForKey_eq, indexForKey_eq]
  refine congrArg (List.findIdx? _) (map_modify_same ?_ map.entries index)
  exact fun _ => rfl

theorem entries_set_self (index : Nat) (value : ν) (map : Map κ ν) :
    (map.set index value).entries[index]? = map.entries[index]?.map fun e => { e with value } := by
  simp [set]

variable {map : Map κ ν} {e : Entry κ ν}

/-- The entries of a map where one value was replaced. -/
theorem mem_set {index} {value} (h : e ∈ (map.set index value).entries) : e.value = value ∨ e ∈ map.entries := by
  obtain ⟨j, hj⟩ := mem_iff_getElem?.mp h
  simp only [set, getElem?_modify, Option.map_eq_map, Option.map_eq_some_iff] at hj
  obtain ⟨f, hf, rfl⟩ := hj
  split
  · exact .inl rfl
  · exact .inr (mem_of_getElem? hf)

theorem lt_of_indexForKey [DecidableEq κ] {key} {index} (h : map.indexForKey key = some index) :
    index < map.entries.length := by
  unfold indexForKey at h
  rw [findIdx?_eq_some_iff_getElem] at h
  exact h.1

theorem mem_put [DecidableEq κ] {key} {value} (h : e ∈ (map.put key value).2.entries) :
    e.value = value ∨ e ∈ map.entries := by
  unfold put at h
  split at h
  · exact mem_set h
  · refine (mem_append.mp h).symm.imp_left fun hnew => ?_
    rw [mem_singleton.mp hnew]

theorem indexForKey_put [DecidableEq κ] (key : κ) (value : ν) (map : Map κ ν) :
    (map.put key value).2.indexForKey key = some (map.put key value).1 := by
  cases h : map.indexForKey key with
  | some index =>
    unfold put
    rw [h]
    exact (indexForKey_set index value key map).trans h
  | none =>
    have hnone : map.entries.findIdx? (fun e => e.key = key) = none := h
    unfold put
    rw [h]
    unfold indexForKey
    rw [findIdx?_append, hnone]
    simp

/-- The handles of the entries rise along the array. -/
def Rising (map : Map κ ν) : Prop := map.entries.Pairwise fun e f => e.handle < f.handle

variable {i : Nat}

theorem Rising.lt_iff {j} {f} (h : map.Rising) (he : map.entries[i]? = some e) (hf : map.entries[j]? = some f) :
    i < j ↔ e.handle < f.handle := by
  have hrises : ∀ {i j : Nat} {e f : Entry κ ν}, i < j → map.entries[i]? = some e → map.entries[j]? = some f →
      e.handle < f.handle := by
    intro i j e f hij he hf
    obtain ⟨hi, he⟩ := List.getElem?_eq_some_iff.mp he
    obtain ⟨hj, hf⟩ := List.getElem?_eq_some_iff.mp hf
    have hlt := pairwise_iff_getElem.mp h i j hi hj hij
    rwa [he, hf] at hlt
  constructor
  · exact fun hlt => hrises hlt he hf
  · intro hlt
    rcases Nat.lt_trichotomy i j with hij | rfl | hji
    · exact hij
    · cases he.symm.trans hf
      omega
    · have := hrises hji hf he
      omega

/-- The search looks at no other places. -/
theorem bisect_congr {map' : Map κ ν} {handle base bufferLen}
    (h : ∀ i < base + bufferLen, map'.entries[i]? = map.entries[i]?) :
    bisect map' handle base bufferLen = bisect map handle base bufferLen := by
  induction bufferLen using Nat.strong_induction_on generalizing base with
  | _ bufferLen ih =>
    rw [bisect.eq_1 map', bisect.eq_1 map]
    by_cases hzero : bufferLen = 0
    · rw [if_pos hzero, if_pos hzero]
    · simp only [if_neg hzero]
      rw [h _ (by omega), ih (bufferLen / 2) (by omega) fun i hi => h i (by omega),
        ih ((bufferLen - 1) / 2) (by omega) fun i hi => h i (by omega)]

theorem bisect_eq_some_iff (h : map.Rising) {handle base bufferLen} (hle : base + bufferLen ≤ map.entries.length) :
    bisect map handle base bufferLen = some i ↔
      base ≤ i ∧ i < base + bufferLen ∧ ∃ e, map.entries[i]? = some e ∧ e.handle = handle := by
  fun_induction bisect map handle base bufferLen with
  | case1 base => exact iff_of_false (fun h => nomatch h) fun h => absurd h.2.1 (by omega)
  | case2 base bufferLen hpos middle hnone =>
    have := getElem?_eq_none_iff.mp hnone
    omega
  | case3 base bufferLen hpos middle e hmiddle hge heq =>
    constructor
    · intro hfound
      obtain rfl := Option.some.inj hfound
      exact ⟨by omega, by omega, e, hmiddle, heq⟩
    · rintro ⟨hlow, hhigh, f, hf, hhandle⟩
      have hbefore := h.lt_iff hf hmiddle
      have hafter := h.lt_iff hmiddle hf
      exact congrArg some (by omega)
  | case4 base bufferLen hpos middle e hmiddle hge hne ih =>
    -- the handle is greater than the one in the middle
    rw [ih (by omega)]
    constructor
    · rintro ⟨hlow, hhigh, hfound⟩
      exact ⟨by omega, by omega, hfound⟩
    · rintro ⟨hlow, hhigh, f, hf, hhandle⟩
      have hafter := h.lt_iff hmiddle hf
      exact ⟨by omega, by omega, f, hf, hhandle⟩
  | case5 base bufferLen hpos middle e hmiddle hlt ih =>
    rw [ih (by omega)]
    constructor
    · rintro ⟨hlow, hhigh, hfound⟩
      exact ⟨hlow, by omega, hfound⟩
    · rintro ⟨hlow, hhigh, f, hf, hhandle⟩
      have hbefore := h.lt_iff hf hmiddle
      exact ⟨hlow, by omega, f, hf, hhandle⟩

theorem Rising.indexForHandle_iff (h : map.Rising) {handle} :
    map.indexForHandle handle = some i ↔ ∃ e, map.entries[i]? = some e ∧ e.handle = handle := by
  unfold indexForHandle
  rw [bisect_eq_some_iff h (Nat.le_of_eq (Nat.zero_add _))]
  constructor
  · exact fun hfound => hfound.2.2
  · intro hfound
    obtain ⟨e, he, -⟩ := id hfound
    have hi := (List.getElem?_eq_some_iff.mp he).1
    exact ⟨Nat.zero_le _, by omega, hfound⟩

theorem Rising.eq_of_handle (h : map.Rising) {j} {f} (he : map.entries[i]? = some e)
    (hf : map.entries[j]? = some f) (heq : e.handle = f.handle) : i = j := by
  have hij := h.lt_iff he hf
  have hji := h.lt_iff hf he
  omega

theorem Rising.modify (h : map.Rising) (i : Nat) {f} (hf : ∀ e, (f e).handle = e.handle) :
    Rising { map with entries := map.entries.modify i f } := by
  have hhandles : (map.entries.map Entry.handle).Pairwise (· < ·) := pairwise_map.mpr h
  rw [← map_modify_same hf map.entries i] at hhandles
  exact pairwise_map.mp hhandles

theorem Rising.remove {map : Map κ ν} (h : map.Rising) (i : Nat) : (map.remove i).Rising :=
  List.Pairwise.sublist (eraseIdx_sublist _ _) h

end Map

end Hyperboria
