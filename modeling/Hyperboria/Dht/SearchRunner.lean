/-
`dht/dhtcore/SearchRunner.c`: searches for a node. A search asks the nodes of its
`SearchStore_Search` one after the other, the next one whenever an answer comes in, a request
times out or the timer of the search runs out; what is answered is added to the search.

`uses_distinct_iff` is about one answer: the test for duplicates compares an entry with itself,
so every entry but the last is left out.
-/
import Hyperboria.Dht.Replies

namespace Hyperboria.SearchRunner

open List

open SearchStore (addNodeToSearch getNextNode newSearch)

def DEFAULT_MAX_CONCURRENT_SEARCHES : Nat := 30

def DEFAULT_MAX_REQUESTS : Nat := 8

def DEFAULT_MAX_REQUESTS_IF_FOUND : Nat := 8

/-- A request that is out: the handle of its ping and the node it was sent to. -/
structure Request where
  handle : Nat
  address : Address

/-- `struct SearchRunner_Search`. The searches are told apart by their `number`; `callback` is whether
`pub.callback` is set, and `requests` are the pings that hang on the allocator of the search. -/
structure ActiveSearch where
  number : Nat
  callback : Bool
  totalRequests : Nat
  maxRequests : Nat
  maxRequestsIfFound : Nat
  numFinds : Nat
  target : Address
  search : SearchStore.Search
  lastNodeAsked : Address
  requests : List Request

/-! ## Answers -/

def isDuplicateEntry (list : List Address) (index : Nat) : Bool :=
  (list.drop (index + 1)).any fun elem => elem.key = elem.key

/-- What the loop of `searchReplyCallback` works on: the target, whose address is worked out when it is
first compared, the entry that is held back, the nodes that were handed to the search, in order, and what
became of the search and of the mill. -/
structure Progress where
  target : Address
  best : Option Address
  added : List Address
  search : SearchStore.Search
  mill : RumorMill

/-- `SearchStore_addNodeToSearch`, as the loop calls it. -/
def Progress.add (p : Progress) (addr : Address) : Progress :=
  { p with added := p.added ++ [addr], search := (addNodeToSearch addr p.search).2 }

/-- A node of an answer is put into the mill, unless `NodeStore_getBest` finds one with its address. -/
def rumor (C : Crypto) (known : List UInt8 → Bool) (mill : RumorMill) (elem : Address) : Er RumorMill :=
  if known elem.ip6 then .ret mill else RumorMill.addNode C mill elem

/-- A turn of the loop of `searchReplyCallback`. -/
def considerEntry (C : Crypto) (known : List UInt8 → Bool) (s : ActiveSearch) (sender elem : Address)
    (duplicate : Bool) (p : Progress) : Er Progress :=
  if duplicate then .ret p
  else
    let p' := { p with target := p.target.getPrefix C }
    if Address.closest C p.target elem sender ≥ 0 then .ret p'
    -- old queries coming in late...
    else if s.lastNodeAsked.path ≠ sender.path then .ret p'
    else do
      let mill ← rumor C known p'.mill elem
      let p' := { p' with mill }
      if elem.ip6 = p'.target.ip6 then
        match p'.best with
        | none => .ret { p' with best := some elem }
        | some best =>
          if elem.path < best.path then .ret { p'.add best with best := some elem }
          else .ret (p'.add elem)
      else .ret (p'.add elem)

/-- The loop of `searchReplyCallback` over the entries of the list from `index` on. -/
def considerEntries (C : Crypto) (known : List UInt8 → Bool) (s : ActiveSearch) (sender : Address)
    (list : List Address) : Nat → List Address → Progress → Er Progress
  | _, [], p => .ret p
  | index, elem :: rest, p => do
    let p ← considerEntry C known s sender elem (isDuplicateEntry list index) p
    considerEntries C known s sender list (index + 1) rest p

/-- `searchReplyCallback`: the search, the mill and the nodes that were handed to the search. -/
def searchReplyCallback (C : Crypto) (known : List UInt8 → Bool) (sender : Address) (result : Benc.Dict)
    (s : ActiveSearch) (mill : RumorMill) : Er (ActiveSearch × RumorMill × List Address) := do
  let numFinds := if sender.ip6 = s.target.ip6 then s.numFinds + 1 else s.numFinds
  let list := ReplySerializer.parsed C sender result
  let start := { target := s.target, best := none, added := [], search := s.search, mill : Progress }
  let p ← considerEntries C known s sender list 0 list start
  let p := match p.best with
    | none => p
    | some best => p.add best
  .ret ({ s with numFinds, target := p.target, search := p.search }, p.mill, p.added)

/-! ## Searches -/

/-- What can be seen of the searches: one is started, with its limits; the target answers; `pub.callback`
is called; `searchStep` takes a turn; a request is sent; a search is freed. -/
inductive Act where
  | started (search : Nat) (callback : Bool) (maxRequests maxRequestsIfFound : Nat)
  | found (search : Nat)
  | call (search : Nat) (milliseconds : Nat) (sender : Option Address)
  | turn (search : Nat)
  | request (search : Nat) (address : Address)
  | freed (search : Nat)
deriving DecidableEq

/-- The search an act is of. -/
def Act.search : Act → Nat
  | .started n _ _ _ | .found n | .call n _ _ | .turn n | .request n _ | .freed n => n

/-- `struct SearchRunner_pvt`; `active` is the list that starts at `firstSearch`. -/
structure Runner where
  searches : Nat
  maxConcurrentSearches : Nat
  active : List ActiveSearch
  mill : RumorMill
  router : RouterModule.State
  nextNumber : Nat
  nextHandle : Nat

def new (mill : RumorMill) (router : RouterModule.State) : Runner :=
  { searches := 0, maxConcurrentSearches := DEFAULT_MAX_CONCURRENT_SEARCHES, active := [], mill, router
    nextNumber := 0, nextHandle := 0 }

/-- A search has changed. -/
def Runner.put (r : Runner) (s : ActiveSearch) : Runner :=
  { r with active := r.active.map fun t => if t.number = s.number then s else t }

/-- `pub.callback`, if it is set. -/
def ActiveSearch.calls (s : ActiveSearch) (milliseconds : Nat) (sender : Option Address) : List Act :=
  if s.callback then [.call s.number milliseconds sender] else []

/-- The end of a search in `searchStep`: the callback is told, and the search is freed with its requests
(`searchOnFree`). -/
def finish (r : Runner) (s : ActiveSearch) : Er (Runner × List Act) := do
  .assertTrue (r.searches > 0) "search->runner->searches > 0"
  .ret ({ r with active := r.active.filter fun t => t.number ≠ s.number, searches := r.searches - 1 },
    .turn s.number :: s.calls 0 none ++ [.freed s.number])

def searchStep (r : Runner) (s : ActiveSearch) : Er (Runner × List Act) :=
  match getNextNode s.search with
  | none => finish r s
  | some (address, search) =>
    if s.totalRequests ≥ s.maxRequests then finish r s
    else if s.numFinds > 0 ∧ s.totalRequests ≥ s.maxRequestsIfFound then finish r s
    else do
      let router ← RouterModule.newMessage address r.router
      let s := { s with
        search, lastNodeAsked := address, totalRequests := s.totalRequests + 1
        requests := s.requests ++ [{ handle := r.nextHandle, address }] }
      .ret ({ r with router, nextHandle := r.nextHandle + 1 }.put s, [.turn s.number, .request s.number address])

/-- `searchCallback` for an answer: the search hears of it, then the callback, then the search goes on. -/
def answered (C : Crypto) (known : List UInt8 → Bool) (r : Runner) (s : ActiveSearch) (lagMilliseconds : Nat)
    (sender : Address) (result : Benc.Dict) : Er (Runner × List Act) := do
  let (s', mill, _) ← searchReplyCallback C known sender result s r.mill
  let (r', acts) ← searchStep { r with mill } s'
  .ret (r', (if sender.ip6 = s.target.ip6 then [.found s.number] else []) ++
    s.calls lagMilliseconds (some sender) ++ acts)

/-- `searchCallback` for a request that timed out: there is no sender. -/
def timedOut (r : Runner) (s : ActiveSearch) (lagMilliseconds : Nat) : Er (Runner × List Act) := do
  let (r', acts) ← searchStep r s
  .ret (r', s.calls lagMilliseconds none ++ acts)

/-- `SearchRunner_search`; `nodes` are what `NodeStore_getClosestNodes` finds, and whether a callback is
set is up to the caller. -/
def search (r : Runner) (target : List UInt8) (maxRequests maxRequestsIfFound : Int) (callback : Bool)
    (nodes : List Address) : Runner × List Act :=
  if r.searches > r.maxConcurrentSearches then (r, [])
  else
    let maxRequests := if maxRequests < 1 then DEFAULT_MAX_REQUESTS else maxRequests.toNat
    let maxRequestsIfFound :=
      if maxRequestsIfFound < 1 then DEFAULT_MAX_REQUESTS_IF_FOUND else maxRequestsIfFound.toNat
    if nodes = [] then (r, [])
    else
      let s : ActiveSearch :=
        { number := r.nextNumber, callback, totalRequests := 0, maxRequests, maxRequestsIfFound, numFinds := 0
          target := { Address.zero with ip6 := target }
          search := nodes.foldl (fun sss address => (addNodeToSearch address sss).2) (newSearch target)
          lastNodeAsked := .zero, requests := [] }
      ({ r with searches := r.searches + 1, active := s :: r.active, nextNumber := r.nextNumber + 1 },
        [.started r.nextNumber callback maxRequests maxRequestsIfFound])

/-- What happens to the searches. A request is named by its handle; `known` is what the store knows when
the answer comes in. -/
inductive Event where
  | search (target : List UInt8) (maxRequests maxRequestsIfFound : Int) (callback : Bool) (nodes : List Address)
  | reply (handle milliseconds : Nat) (sender : Address) (result : Benc.Dict) (known : List UInt8 → Bool)
  | requestTimeout (handle milliseconds : Nat)
  | continueTimeout (search : Nat)

/-- The search a request belongs to, and the request. -/
def Runner.requested (r : Runner) (handle : Nat) : Option (ActiveSearch × Request) :=
  r.active.findSome? fun s => (s.requests.find? fun q => q.handle = handle).map fun q => (s, q)

/-- The ping of a request is over: `onResponseOrTimeout` counts it, and the pinger frees it. -/
def Runner.landed (r : Runner) : Runner :=
  { r with router := { r.router with pingsInFlight := r.router.pingsInFlight - 1 } }

/-- See `Runner.landed`. -/
def ActiveSearch.landed (s : ActiveSearch) (handle : Nat) : ActiveSearch :=
  { s with requests := s.requests.filter fun q => q.handle ≠ handle }

/-- One event; the timers of the event base and `onResponseOrTimeout` lead here. -/
def step (C : Crypto) (r : Runner) : Event → Er (Runner × List Act)
  | .search target maxRequests maxRequestsIfFound callback nodes =>
    .ret (search r target maxRequests maxRequestsIfFound callback nodes)
  | .reply handle milliseconds sender result known =>
    match r.requested handle with
    | none => .ret (r, [])
    | some (s, q) =>
      if q.address.ip6 ≠ sender.ip6 then .ret (r.landed.put (s.landed handle), [])
      -- prevent division by zero
      else answered C known r.landed (s.landed handle) (if milliseconds = 0 then 1 else milliseconds) sender result
  | .requestTimeout handle milliseconds =>
    match r.requested handle with
    | none => .ret (r, [])
    | some (s, _) => timedOut r.landed (s.landed handle) milliseconds
  | .continueTimeout n =>
    match r.active.find? fun s => s.number = n with
    | none => .ret (r, [])
    | some s => searchStep r s

/-- Events one after the other, and what was seen. -/
def steps (C : Crypto) (r : Runner) : List Event → Er (Runner × List Act)
  | [] => .ret (r, [])
  | event :: events => do
    let (r', acts) ← step C r event
    let (r'', acts') ← steps C r' events
    .ret (r'', acts ++ acts')

/-! ## Which answers are used -/

/-- Every distinct entry that is closer than the sender is handed to the search, and only what occurs
again is a duplicate. -/
structure UsesDistinct (C : Crypto) (target sender : Address) (list added : List Address) : Prop where
  used : ∀ (i : Nat) elem, list[i]? = some elem → Address.closest C target elem sender < 0 →
    (∀ (j : Nat) later, i < j → list[j]? = some later → later.key ≠ elem.key) → elem ∈ added
  skipped : ∀ (i : Nat) elem, list[i]? = some elem → isDuplicateEntry list i = true →
    ∃ (j : Nat) (later : Address), i < j ∧ list[j]? = some later ∧ later.key = elem.key

theorem isDuplicateEntry_iff {list} {index} :
    isDuplicateEntry list index = true ↔ index + 1 < list.length := by
  unfold isDuplicateEntry
  rw [any_eq_true]
  constructor
  · intro h
    obtain ⟨elem, helem, -⟩ := h
    have hpos := length_pos_of_mem helem
    rw [length_drop] at hpos
    omega
  · intro h
    have hpos : 0 < (list.drop (index + 1)).length := by
      rw [length_drop]
      omega
    exact ⟨_, getElem_mem hpos, decide_eq_true rfl⟩

/-- The loop looks at the last entry only. -/
theorem considerEntries_last {C} {known} {s} {sender last}
    {list rest} {index} {p} (hlength : list.length = index + rest.length + 1) :
    considerEntries C known s sender list index (rest ++ [last]) p =
      considerEntry C known s sender last false p := by
  induction rest generalizing index with
  | nil =>
    have hlast : isDuplicateEntry list index = false := by
      rw [← Bool.not_eq_true, isDuplicateEntry_iff]
      simp only [length_nil] at hlength
      omega
    rw [nil_append, considerEntries, hlast]
    cases considerEntry C known s sender last false p <;> rfl
  | cons elem rest ih =>
    have hmore : isDuplicateEntry list index = true := by
      rw [isDuplicateEntry_iff]
      simp only [length_cons] at hlength
      omega
    rw [cons_append, considerEntries, hmore]
    unfold considerEntry
    rw [if_pos rfl, Er.ret_bind, ih (by simp only [length_cons] at hlength; omega)]
    rfl

/-- An entry that is looked at, is closer than the sender and comes from the node asked last is handed to
the search or held back. -/
theorem considerEntry_takes {C} {known} {s} {sender elem}
    {p p'} (h : considerEntry C known s sender elem false p = .ret p')
    (hcloser : Address.closest C p.target elem sender < 0) (hlast : sender.path = s.lastNodeAsked.path) :
    elem ∈ p'.added ∨ p'.best = some elem := by
  unfold considerEntry at h
  rw [if_neg Bool.false_ne_true] at h
  dsimp only at h
  rw [if_neg (by omega), if_neg (by rw [hlast]; exact fun h => h rfl)] at h
  obtain ⟨mill, -, h⟩ := Er.bind_inv h
  have hadd : ∀ p : Progress, elem ∈ (p.add elem).added := fun p =>
    mem_append_right _ mem_cons_self
  split at h
  · split at h
    · cases h
      exact .inr rfl
    split at h
    · cases h
      exact .inr rfl
    · cases h
      exact .inl (hadd _)
  · cases h
    exact .inl (hadd _)

/-- If only what occurs again is a duplicate, every entry has the key of a later one and so of the last. -/
theorem UsesDistinct.key_last {C} {target sender elem last} {list added}
    (h : UsesDistinct C target sender list added) (helem : elem ∈ list)
    (hlast : list[list.length - 1]? = some last) : elem.key = last.key := by
  have hkey : ∀ n i elem, i + n + 1 = list.length → list[i]? = some elem → elem.key = last.key := by
    intro n
    -- by induction on the number of entries that follow
    induction n using Nat.strongRecOn with
    | ind n ih =>
      intro i elem hi helem
      cases n with
      | zero =>
        rw [show i = list.length - 1 by omega, hlast] at helem
        cases helem
        rfl
      | succ n =>
        obtain ⟨j, later, hij, hlater, hsame⟩ := h.skipped i elem helem (isDuplicateEntry_iff.mpr (by omega))
        have hj := (List.getElem?_eq_some_iff.mp hlater).1
        rw [← hsame]
        exact ih (list.length - 1 - j) (by omega) j later (by omega) hlater
  obtain ⟨i, hi, rfl⟩ := mem_iff_getElem.mp helem
  exact hkey (list.length - 1 - i) i _ (by omega) (getElem?_eq_getElem hi)

/-- An answer of the node asked last is used as it should be if and only if all of its entries have one key. -/
theorem uses_distinct_iff (C : Crypto) (known : List UInt8 → Bool) (sender : Address) (result : Benc.Dict)
    (s s' : ActiveSearch) (mill mill' : RumorMill) (added : List Address)
    (hlast : sender.path = s.lastNodeAsked.path)
    (h : searchReplyCallback C known sender result s mill = .ret (s', mill', added)) :
    UsesDistinct C s.target sender (ReplySerializer.parsed C sender result) added ↔
      ∀ a ∈ ReplySerializer.parsed C sender result, ∀ b ∈ ReplySerializer.parsed C sender result, a.key = b.key := by
  obtain ⟨p, hp, h⟩ := Er.bind_inv h
  generalize ReplySerializer.parsed C sender result = list at hp ⊢
  constructor
  · intro huses a ha b hb
    have hpos := length_pos_of_mem ha
    have hl := getElem?_eq_getElem (show list.length - 1 < list.length by omega)
    rw [huses.key_last ha hl, huses.key_last hb hl]
  · intro hsame
    constructor
    · intro i elem helem hcloser honly
      obtain ⟨hi, helem'⟩ := List.getElem?_eq_some_iff.mp helem
      have hend : i = list.length - 1 := by
        by_contra hne
        have hl : list.length - 1 < list.length := by omega
        exact honly _ _ (by omega) (getElem?_eq_getElem hl)
          (hsame _ (getElem_mem hl) _ (helem' ▸ getElem_mem hi))
      have hsplit : list = list.dropLast ++ [elem] := by
        have hne : list ≠ [] := ne_nil_of_length_pos (by omega)
        subst hend
        rw [← helem', getElem_length_sub_one_eq_getLast, dropLast_append_getLast hne]
      have hlength : list.length = 0 + list.dropLast.length + 1 := by
        rw [length_dropLast]
        omega
      rw [show considerEntries C known s sender list 0 list = considerEntries C known s sender list 0
        (list.dropLast ++ [elem]) from congrArg _ hsplit, considerEntries_last hlength] at hp
      cases h
      cases considerEntry_takes hp hcloser hlast with
      | inl hin =>
        split
        · exact hin
        · exact mem_append_left _ hin
      | inr hbest =>
        rw [hbest]
        exact mem_append_right _ mem_cons_self
    · intro i elem helem hdup
      rw [isDuplicateEntry_iff] at hdup
      obtain ⟨hi, rfl⟩ := List.getElem?_eq_some_iff.mp helem
      exact ⟨i + 1, _, Nat.lt_succ_self i, getElem?_eq_getElem hdup,
        hsame _ (getElem_mem hdup) _ (getElem_mem hi)⟩

/-- A search for the node with the key of sevens, which has asked a neighbour of ours. -/
def asking : ActiveSearch :=
  { number := 0, callback := true, totalRequests := 1, maxRequests := 8, maxRequestsIfFound := 8, numFinds := 0
    target := { Address.zero with ip6 := 0xfc :: List.replicate 15 7 }
    search := newSearch (0xfc :: List.replicate 15 7)
    lastNodeAsked := ReplySerializer.neighbour, requests := [] }

/-- A mill with room for some nodes. -/
def emptyMill : RumorMill := { selfAddr := .zero, capacity := 8, addresses := [] }

/-- An answer that names the nodes with these bytes for a key, all at the same path. -/
def namingAll (keys : List UInt8) : Benc.Dict :=
  [([110], .string (keys.flatMap fun b => List.replicate 32 b ++ [0, 0, 0, 0, 0, 0, 0, 0x15])),
    ([110, 112], .string (1 :: keys.map fun _ => 21))]

theorem uses_distinct_twice : ∃ s' mill' added,
    searchReplyCallback Symbolic.crypto (fun _ => false) ReplySerializer.neighbour (namingAll [7, 7]) asking
      emptyMill = .ret (s', mill', added) ∧
    UsesDistinct Symbolic.crypto asking.target ReplySerializer.neighbour
      (ReplySerializer.parsed Symbolic.crypto ReplySerializer.neighbour (namingAll [7, 7])) added := by
  refine ⟨_, _, _, rfl, ?_⟩
  exact (uses_distinct_iff Symbolic.crypto (fun _ => false) ReplySerializer.neighbour (namingAll [7, 7]) asking _
    emptyMill _ _ rfl rfl).mpr (by decide +kernel)

theorem target_left_out : ∃ s' mill' added,
    searchReplyCallback Symbolic.crypto (fun _ => false) ReplySerializer.neighbour (namingAll [7, 6]) asking
      emptyMill = .ret (s', mill', added) ∧
    ¬ UsesDistinct Symbolic.crypto asking.target ReplySerializer.neighbour
      (ReplySerializer.parsed Symbolic.crypto ReplySerializer.neighbour (namingAll [7, 6])) added := by
  refine ⟨_, _, _, rfl, fun h => ?_⟩
  obtain ⟨j, later, hj, hlater, hkey⟩ := h.skipped 0 _ rfl (by decide +kernel)
  match j, hj with
  | 1, _ =>
    cases hlater
    exact absurd hkey (by decide +kernel)
  | j + 2, _ => cases hlater

end Hyperboria.SearchRunner
