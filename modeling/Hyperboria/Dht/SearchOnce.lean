/-
Whom a search asks. The nodes that were asked are kept in a ring of 256 places, those to be
asked on a stack; a node is put on the stack unless it is in the ring. Nothing looks at the
stack, so a node that is added twice before it is asked is asked twice.

`asks_once` says when that cannot happen: no node is added that is still on the stack, and no
node is asked once the ring is full.
-/
import Hyperboria.Dht.SearchStore

namespace Hyperboria.SearchStore

open List Function Nat

/-! ## Calls and answers -/

/-- A call on a search. -/
inductive Call where
  | addNodeToSearch (addr : Address)
  | getNextNode

/-- What a call answers. -/
inductive Answer where
  | added (addr : Address) (ok : Bool)
  | returned (addr : Option Address)
deriving DecidableEq

/-- One call. -/
def answer (search : Search) : Call → Answer × Search
  | .addNodeToSearch addr => (.added addr (addNodeToSearch addr search).1, (addNodeToSearch addr search).2)
  | .getNextNode =>
    match getNextNode search with
    | none => (.returned none, search)
    | some (addr, search) => (.returned (some addr), search)

/-- Calls one after the other. -/
def answers (search : Search) : List Call → List Answer
  | [] => []
  | call :: calls => (answer search call).1 :: answers (answer search call).2 calls

/-- The keys of the nodes that were returned, in order. -/
def returnedKeys (as : List Answer) : List Key :=
  as.filterMap fun
    | .returned (some addr) => some addr.key
    | _ => none

/-- No node is returned twice, and a node is refused exactly if it was returned before. -/
structure AsksOnce (as : List Answer) : Prop where
  distinct : (returnedKeys as).Nodup
  refused : ∀ before addr ok after, as = before ++ .added addr ok :: after →
    (ok = false ↔ addr.key ∈ returnedKeys before)

/-! ## The ring -/

/-- The search after the nodes with these keys were asked, and no other. -/
structure Tidy (search : Search) (asked : List Key) : Prop where
  asked_le : asked.length ≤ SEARCH_NODES
  index : search.nodesAskedIndex = asked.length % SEARCH_NODES
  ring : ∀ i key, asked[i]? = some key → (search.nodesAsked i).key = key
  free : ∀ i, asked.length ≤ i → i < SEARCH_NODES → (search.nodesAsked i).key = .zero
  nonzero : ∀ key ∈ asked, key ≠ .zero
  size_le : search.searchStackSize ≤ SEARCH_NODES
  pending : ∀ i < search.searchStackSize, (search.searchStack i).key ≠ .zero ∧ (search.searchStack i).key ∉ asked
  apart : ∀ i j, i < j → j < search.searchStackSize → (search.searchStack i).key ≠ (search.searchStack j).key

theorem tidy_newSearch (searchTarget : List UInt8) : Tidy (newSearch searchTarget) [] where
  asked_le := Nat.zero_le _
  index := rfl
  ring := by simp
  free := fun _ _ _ => rfl
  nonzero := by simp
  size_le := zero_le _
  pending := fun _ h => absurd h (not_lt_zero _)
  apart := fun _ _ _ h => absurd h (not_lt_zero _)

variable {search : Search}

theorem askedFrom_sound {key} {i n} (h : askedFrom key search i n = true) :
    ∃ j, i ≤ j ∧ j < i + n ∧ key = (search.nodesAsked j).key := by
  induction n generalizing i with
  | zero => cases h
  | succ n ih =>
    unfold askedFrom at h
    split at h
    next hkey => exact ⟨i, Nat.le_refl i, by omega, hkey⟩
    next =>
      split at h
      · cases h
      · obtain ⟨j, hij, hjn, hkey⟩ := ih h
        exact ⟨j, by omega, by omega, hkey⟩

/-- The scan comes to place `j` unless it meets the end of a ring that has not wrapped. -/
theorem askedFrom_complete {key} {i j n} (hij : i ≤ j) (hjn : j < i + n)
    (hkey : key = (search.nodesAsked j).key)
    (hgo : ∀ k, i ≤ k → k < j → ¬ (k = search.nodesAskedIndex ∧ (search.nodesAsked k).key.isZero = true)) :
    askedFrom key search i n = true := by
  induction n generalizing i with
  | zero => omega
  | succ n ih =>
    unfold askedFrom
    split
    · rfl
    next hne =>
      have hlt : i < j := Nat.lt_of_le_of_ne hij (by rintro rfl; exact hne hkey)
      rw [if_neg (hgo i (Nat.le_refl i) hlt)]
      exact ih hlt (by omega) fun k hk hkj => hgo k (by omega) hkj

namespace Tidy

variable {search : Search} {asked : List Key}

theorem askedFrom_iff (h : Tidy search asked) {key} (hkey : key ≠ .zero) :
    askedFrom key search 0 SEARCH_NODES = true ↔ key ∈ asked := by
  constructor
  · intro hasked
    obtain ⟨j, -, hj, rfl⟩ := askedFrom_sound hasked
    by_cases hlt : j < asked.length
    · rw [h.ring j _ (getElem?_eq_getElem hlt)]
      exact getElem_mem hlt
    · exact absurd (h.free j (by omega) (by omega)) hkey
  · intro hmem
    obtain ⟨j, hj⟩ := mem_iff_getElem?.mp hmem
    have hlt := (List.getElem?_eq_some_iff.mp hj).1
    have hle := h.asked_le
    refine askedFrom_complete (zero_le j) (by omega) (h.ring j key hj).symm ?_
    intro k _ hk hend
    have hmem' := getElem_mem (show k < asked.length by omega)
    have hzero := h.ring k _ (getElem?_eq_getElem (show k < asked.length by omega))
    rw [Key.isZero_eq_true.mp hend.2] at hzero
    exact h.nonzero _ hmem' hzero.symm

/-- A node that is not on the stack is put there, or refused because it was asked. -/
theorem add (h : Tidy search asked) {addr} (hkey : addr.key ≠ .zero)
    (hnew : ∀ i < search.searchStackSize, (search.searchStack i).key ≠ addr.key) :
    ((addNodeToSearch addr search).1 = false ↔ addr.key ∈ asked) ∧ Tidy (addNodeToSearch addr search).2 asked := by
  unfold addNodeToSearch
  by_cases hasked : askedFrom addr.key search 0 SEARCH_NODES = true
  · rw [if_pos hasked]
    exact ⟨by simp [(h.askedFrom_iff hkey).mp hasked], h⟩
  have hmem : addr.key ∉ asked := fun hin => hasked ((h.askedFrom_iff hkey).mpr hin)
  rw [if_neg hasked]
  have hsize := h.size_le
  -- the place the node is put at; the places below it are as they were
  have hput : ∀ top size, (∀ i, i < size → i ≠ top → i < search.searchStackSize) → top < size → size ≤ top + 1 →
      size ≤ SEARCH_NODES → Tidy { search with
        searchStackSize := size, searchStack := Function.update search.searchStack top addr } asked := by
    intro top size hbelow htop hle hmax
    refine ⟨h.asked_le, h.index, h.ring, h.free, h.nonzero, hmax, ?_, ?_⟩
    · intro i hi
      dsimp only at hi ⊢
      by_cases hit : i = top
      · rw [hit, update_self]
        exact ⟨hkey, hmem⟩
      · rw [update_of_ne hit]
        exact h.pending i (hbelow i hi hit)
    · intro i j hij hj
      dsimp only at hj ⊢
      rw [update_of_ne (show i ≠ top by omega)]
      by_cases hjt : j = top
      · rw [hjt, update_self]
        exact hnew i (hbelow i (by omega) (by omega))
      · rw [update_of_ne hjt]
        exact h.apart i j hij (hbelow j hj hjt)
  split
  next hroom =>
    exact ⟨by simp [hmem], hput search.searchStackSize (search.searchStackSize + 1) (by omega) (by omega) (by omega)
      (by omega)⟩
  next hfull =>
    have hpos : 0 < SEARCH_NODES := by decide
    exact ⟨by simp [hmem], hput (search.searchStackSize - 1) search.searchStackSize (by omega) (by omega) (by omega)
      (by omega)⟩

/-- The next node was not asked before; the ring has a place for it. -/
theorem next (h : Tidy search asked) (hroom : asked.length < SEARCH_NODES) {addr} {search'}
    (hnext : getNextNode search = some (addr, search')) :
    addr.key ∉ asked ∧ Tidy search' (asked ++ [addr.key]) := by
  unfold getNextNode at hnext
  split at hnext
  · cases hnext
  next hsome =>
    cases hnext
    have htop : search.searchStackSize - 1 < search.searchStackSize := by omega
    obtain ⟨hnonzero, hnew⟩ := h.pending _ htop
    have hindex : search.nodesAskedIndex = asked.length := by rw [h.index, mod_eq_of_lt hroom]
    refine ⟨hnew, ?_, ?_, ?_, ?_, ?_, ?_, ?_, ?_⟩
    · rw [length_append]
      exact hroom
    · rw [hindex, length_append, length_singleton]
    · intro i key hi
      dsimp only
      rw [hindex]
      by_cases hlast : i = asked.length
      · subst hlast
        rw [getElem?_append_right (Nat.le_refl _), Nat.sub_self] at hi
        rw [update_self]
        exact Option.some.inj hi
      · have hlt := (List.getElem?_eq_some_iff.mp hi).1
        rw [length_append, length_singleton] at hlt
        rw [getElem?_append_left (by omega)] at hi
        rw [update_of_ne hlast]
        exact h.ring i key hi
    · intro i hi hlt
      rw [length_append, length_singleton] at hi
      dsimp only
      rw [update_of_ne (by omega)]
      exact h.free i (by omega) hlt
    · intro key hkey
      rcases mem_append.mp hkey with hkey | hkey
      · exact h.nonzero key hkey
      · rw [mem_singleton.mp hkey]
        exact hnonzero
    · have := h.size_le
      dsimp only
      omega
    · intro i hi
      dsimp only at hi ⊢
      obtain ⟨hi₁, hi₂⟩ := h.pending i (by omega)
      refine ⟨hi₁, fun hmem => ?_⟩
      rcases mem_append.mp hmem with hmem | hmem
      · exact hi₂ hmem
      · exact h.apart i _ (by omega) htop (mem_singleton.mp hmem)
    · intro i j hij hj
      dsimp only at hj ⊢
      exact h.apart i j hij (by omega)

end Tidy

/-! ## Runs -/

/-- The node to be added has a key and is not on the stack; the node to be asked does not push another one
out of the ring. -/
def Careful (search : Search) : Call → Prop
  | .addNodeToSearch addr =>
    addr.key ≠ .zero ∧ ∀ i < search.searchStackSize, (search.searchStack i).key ≠ addr.key
  | .getNextNode => search.searchStackSize = 0 ∨ (search.nodesAsked search.nodesAskedIndex).key = .zero

/-- Each call is `Careful` when it is made. -/
def CarefulRun (search : Search) : List Call → Prop
  | [] => True
  | call :: calls => Careful search call ∧ CarefulRun (answer search call).2 calls

theorem returnedKeys_cons (a : Answer) (as : List Answer) : returnedKeys (a :: as) = returnedKeys [a] ++ returnedKeys as := by
  rw [returnedKeys, returnedKeys, returnedKeys, ← filterMap_append]
  rfl

/-- What one call does to a tidy search. -/
theorem Tidy.answer {asked} (h : Tidy search asked) {call} (hcareful : Careful search call) :
    (∀ key ∈ returnedKeys [(SearchStore.answer search call).1], key ∉ asked) ∧
      (∀ addr ok, (SearchStore.answer search call).1 = .added addr ok → (ok = false ↔ addr.key ∈ asked)) ∧
      Tidy (SearchStore.answer search call).2 (asked ++ returnedKeys [(SearchStore.answer search call).1]) := by
  cases call with
  | addNodeToSearch addr =>
    obtain ⟨hiff, htidy⟩ := h.add hcareful.1 hcareful.2
    refine ⟨by simp [SearchStore.answer, returnedKeys], ?_, by simpa [SearchStore.answer, returnedKeys] using htidy⟩
    intro addr' ok heq
    obtain ⟨rfl, rfl⟩ := Answer.added.inj heq
    exact hiff
  | getNextNode =>
    cases hnext : SearchStore.getNextNode search with
    | none =>
      have hans : SearchStore.answer search .getNextNode = (.returned none, search) := by
        rw [SearchStore.answer, hnext]
      rw [hans]
      exact ⟨by simp [returnedKeys], by simp, by simpa [returnedKeys] using h⟩
    | some found =>
      obtain ⟨addr, search'⟩ := found
      have hans : SearchStore.answer search .getNextNode = (.returned (some addr), search') := by
        rw [SearchStore.answer, hnext]
      have hroom : asked.length < SEARCH_NODES := by
        rcases hcareful with hempty | hfree
        · rw [SearchStore.getNextNode, if_pos hempty] at hnext
          cases hnext
        · refine Nat.lt_of_le_of_ne h.asked_le fun hfull => ?_
          have hpos : 0 < asked.length := by rw [hfull]; decide
          rw [h.index, hfull, Nat.mod_self, h.ring 0 _ (getElem?_eq_getElem hpos)] at hfree
          exact h.nonzero _ (getElem_mem hpos) hfree
      obtain ⟨hnew, htidy⟩ := h.next hroom hnext
      rw [hans]
      refine ⟨?_, by simp, htidy⟩
      intro key hkey
      rw [mem_singleton.mp hkey]
      exact hnew

theorem Tidy.answers {asked} {calls} (h : Tidy search asked)
    (hcareful : CarefulRun search calls) (hnodup : asked.Nodup) :
    (asked ++ returnedKeys (answers search calls)).Nodup ∧
      ∀ before addr ok after, SearchStore.answers search calls = before ++ .added addr ok :: after →
        (ok = false ↔ addr.key ∈ asked ++ returnedKeys before) := by
  induction calls generalizing search asked with
  | nil =>
    refine ⟨by simpa [SearchStore.answers, returnedKeys] using hnodup, ?_⟩
    intro before addr ok after heq
    exact absurd heq.symm (by simp [SearchStore.answers])
  | cons call calls ih =>
    obtain ⟨hcall, hrest⟩ := hcareful
    obtain ⟨hnew, hadd, htidy⟩ := h.answer hcall
    have hnodup' : (asked ++ returnedKeys [(SearchStore.answer search call).1]).Nodup := by
      refine nodup_append.mpr ⟨hnodup, ?_, fun x hx y hy => by rintro rfl; exact hnew x hy hx⟩
      cases hans : (SearchStore.answer search call).1 with
      | added addr ok => exact nodup_nil
      | returned addr =>
        cases addr with
        | none => exact nodup_nil
        | some addr => exact nodup_cons.mpr ⟨not_mem_nil, nodup_nil⟩
    obtain ⟨hdistinct, hrefused⟩ := ih htidy hrest hnodup'
    refine ⟨?_, ?_⟩
    · rw [SearchStore.answers, returnedKeys_cons, ← append_assoc]
      exact hdistinct
    · intro before addr ok after heq
      cases before with
      | nil =>
        obtain ⟨hhead, -⟩ := List.cons.inj heq
        rw [hadd addr ok hhead]
        simp [returnedKeys]
      | cons first before =>
        obtain ⟨rfl, htail⟩ := List.cons.inj heq
        rw [hrefused before addr ok after htail, returnedKeys_cons (SearchStore.answer search call).1 before,
          append_assoc]

/-- **A search asks a node once**, if no node is added that is still to be asked and the ring is not overrun. -/
theorem asks_once {searchTarget : List UInt8} {calls : List Call} (h : CarefulRun (newSearch searchTarget) calls) :
    AsksOnce (answers (newSearch searchTarget) calls) := by
  obtain ⟨hdistinct, hrefused⟩ := (tidy_newSearch searchTarget).answers h nodup_nil
  exact ⟨hdistinct, hrefused⟩

/-- A node with a key. -/
def someNode : Address := { protocolVersion := 20, ip6 := List.replicate 16 0xfc, key := .ofBytes [1], path := 0x13 }

theorem asks_once_someNode :
    AsksOnce (answers (newSearch []) [.addNodeToSearch someNode, .getNextNode, .addNodeToSearch someNode]) :=
  asks_once ⟨⟨by decide, fun _ h => absurd h (not_lt_zero _)⟩, .inr rfl,
    ⟨by decide, fun _ h => absurd h (not_lt_zero _)⟩, trivial⟩

/-- The same node added twice is asked twice. -/
theorem someNode_asked_twice : ¬ AsksOnce (answers (newSearch [])
    [.addNodeToSearch someNode, .addNodeToSearch someNode, .getNextNode, .getNextNode]) := by
  intro h
  exact absurd h.distinct (by decide +kernel)

end Hyperboria.SearchStore
