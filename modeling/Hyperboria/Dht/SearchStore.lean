/-
`dht/dhtcore/SearchStore.c`: the nodes a search is going to ask, best last, and those
it has asked.
-/
import Hyperboria.Dht.Address

namespace Hyperboria.SearchStore

def SEARCH_NODES : Nat := 256

/-- `struct SearchStore_Search_pvt`. -/
structure Search where
  searchStackSize : Nat
  nodesAskedIndex : Nat
  searchTarget : List UInt8
  searchStack : Nat → Address
  nodesAsked : Nat → Address

def newSearch (searchTarget : List UInt8) : Search :=
  { searchStackSize := 0, nodesAskedIndex := 0, searchTarget, searchStack := fun _ => .zero
    nodesAsked := fun _ => .zero }

/-- The loop of `SearchStore_addNodeToSearch`, with `n` more places of `nodesAsked` from `i` on: whether
the node has been asked. -/
def askedFrom (key : Key) (search : Search) (i : Nat) : Nat → Bool
  | 0 => false
  | n + 1 =>
    if key = (search.nodesAsked i).key then true
    -- short circuit a common case where the nodesAskedIndex has not yet wrapped
    else if i = search.nodesAskedIndex ∧ (search.nodesAsked i).key.isZero then false
    else askedFrom key search (i + 1) n

/-- `SearchStore_addNodeToSearch`: whether the node was added. -/
def addNodeToSearch (addr : Address) (search : Search) : Bool × Search :=
  if askedFrom addr.key search 0 SEARCH_NODES then (false, search)
  -- nodes are added worst-to-best so replace the last entry
  else if search.searchStackSize < SEARCH_NODES then
    (true, { search with
      searchStackSize := search.searchStackSize + 1
      searchStack := Function.update search.searchStack search.searchStackSize addr })
  else
    (true, { search with
      searchStack := Function.update search.searchStack (search.searchStackSize - 1) addr })

def getNextNode (search : Search) : Option (Address × Search) :=
  if search.searchStackSize = 0 then none
  else
    let address := search.searchStack (search.searchStackSize - 1)
    some (address,
      { search with
        searchStackSize := search.searchStackSize - 1
        nodesAsked := Function.update search.nodesAsked search.nodesAskedIndex address
        nodesAskedIndex := (search.nodesAskedIndex + 1) % SEARCH_NODES })

/-- Every node the search is going to ask is one of `P`. -/
def Holds (P : Address → Prop) (search : Search) : Prop := ∀ i < search.searchStackSize, P (search.searchStack i)

theorem Holds.addNodeToSearch {P} {search} (h : Holds P search) {addr}
    (haddr : P addr) : Holds P (addNodeToSearch addr search).2 := by
  unfold SearchStore.addNodeToSearch
  split
  · exact h
  split
  · intro i hi
    by_cases hlast : i = search.searchStackSize
    · simp only [hlast, Function.update_self]
      exact haddr
    · simp only [ne_eq, hlast, not_false_eq_true, Function.update_of_ne]
      exact h i (by have := hi; dsimp only at this; omega)
  · intro i hi
    by_cases hlast : i = search.searchStackSize - 1
    · simp only [hlast, Function.update_self]
      exact haddr
    · simp only [ne_eq, hlast, not_false_eq_true, Function.update_of_ne]
      exact h i hi

theorem Holds.getNextNode {P} {search search'} {addr} (h : Holds P search)
    (hnext : getNextNode search = some (addr, search')) : P addr ∧ Holds P search' := by
  unfold SearchStore.getNextNode at hnext
  split at hnext
  · cases hnext
  next hsize =>
    obtain ⟨rfl, rfl⟩ := hnext
    exact ⟨h _ (by omega), fun i hi => h i (by have := hi; dsimp only at this; omega)⟩

end Hyperboria.SearchStore
