/-
The peers of an interface as `net/InterfaceController.c` has them in memory. `peerMap`
holds pointers: a key is the address that is kept in a peer, a value is a peer. `put` with
an address that is known replaces the value and keeps the key and the handle. Two of the
three places that make peers look whether the address is known; `bootstrapPeer` does not,
and then there are two peers with one handle (`linked_of_allowed`).

A message is taken up here where it has been accepted: a beacon with the address of its
sender, a hello with the session that decrypted it.
-/
import Hyperboria.Crypto.Symbolic
import Hyperboria.Net.InterfaceController
import Hyperboria.Transition

namespace Hyperboria

open Er List Function Option

namespace PeerHeap

open CryptoAuth (Context Session newSession seconds setAuth)
open InterfaceController (BootstrapPeer Out Peer Sockaddr sendPeer sendPeer_returns sendPing track)

/-- An entry of the map: the peer that keeps the address the key points to, and the peer the value points to. -/
structure Ref where
  keyOf : Nat
  peer : Nat
deriving DecidableEq

/-- The controller, one of its interfaces, and the peers that have not been freed. Addresses from `brk` on
have not been given out. -/
structure Heap (C : Crypto) where
  ca : Context
  switchCore : Switch.SwitchCore
  pingAfterMilliseconds : Nat
  peerMap : Map Sockaddr Ref
  peers : Nat → Option (Peer C)
  brk : Nat

variable {C : Crypto}

/-- `InterfaceController_newIface`. -/
def Heap.new (C : Crypto) (ca : Context) : Heap C :=
  { ca, switchCore := .new, pingAfterMilliseconds := 3 * 1024, peerMap := .new, peers := fun _ => none, brk := 0 }

/-- `*peer = ep`. -/
def Heap.write (peer : Nat) (ep : Peer C) (heap : Heap C) : Heap C :=
  { heap with peers := Function.update heap.peers peer (some ep) }

/-- `Map_EndpointsBySockaddr_put`. -/
def put (lladdr : Sockaddr) (peer : Nat) (map : Map Sockaddr Ref) : Nat × Map Sockaddr Ref :=
  match map.indexForKey lladdr with
  | some index =>
    (index, { map with entries := map.entries.modify index fun e => { e with value := { e.value with peer } } })
  | none => map.put lladdr { keyOf := peer, peer }

/-- A peer is allocated and put in the map. -/
def addPeer (ep : Peer C) (heap : Heap C) : Nat × Peer C × Heap C :=
  let peer := heap.brk
  let (index, peerMap) := put ep.lladdr peer heap.peerMap
  let ep := { ep with handle := peerMap.handles.getD index 0 }
  (peer, ep, { heap with peerMap, brk := peer + 1 }.write peer ep)

def closeInterface (toClose : Nat) (ep : Peer C) (heap : Heap C) : Er (Heap C × List Out) := do
  let outs ← sendPeer .peerGone ep 0xffff
  match heap.peerMap.indexForHandle ep.handle with
  | none => .abort "index >= 0"
  | some index => do
    .assertTrue (heap.peerMap.entries[index]?.any fun e => e.value.peer = toClose)
      "toClose->ici->peerMap.values[index] == toClose"
    .ret ({ heap with peerMap := heap.peerMap.remove index }, outs)

/-- `Allocator_free` of a peer that has no interface at the switch. -/
def free (peer : Nat) (ep : Peer C) (heap : Heap C) : Er (Heap C × List Out) := do
  let (heap, outs) ← closeInterface peer ep heap
  .ret ({ heap with peers := Function.update heap.peers peer none }, outs)

/-- `Allocator_free` of a peer. -/
def freePeer (peer : Nat) (ep : Peer C) (heap : Heap C) : Er (Heap C × List Out) := do
  let (heap, outs) ← free peer ep heap
  .ret ({ heap with switchCore := heap.switchCore.removeInterface ep.slot }, outs)

/-- `timeOfLastMessage` of a peer that has just been made. -/
def timeOfNewPeer (now : Nat) (heap : Heap C) : Nat := (now + 2 ^ 64 - heap.pingAfterMilliseconds - 1) % 2 ^ 64

/-- The keys `bootstrapPeer` takes. -/
def goodKey (herPublicKey : Key) (heap : Heap C) : Bool :=
  AddressCalc.validAddress (C.addressForPublicKey herPublicKey) && heap.ca.publicKey ≠ herPublicKey

/-- The peer `bootstrapPeer` makes. -/
def configured (C : Crypto) (now : Nat) (herPublicKey : Key) (lladdr : Sockaddr) (password : List UInt8)
    (login : Option (List UInt8)) : Peer C :=
  { Peer.new (setAuth (some password) login (newSession C (seconds now) herPublicKey false)) lladdr with
    addr := { Address.zero with key := herPublicKey }.getPrefix C }

/-- The peer `handleBeacon` makes. -/
def heard (C : Crypto) (now : Nat) (lladdr : Sockaddr) (password : List UInt8) (addr : Address) : Peer C :=
  { Peer.new (setAuth (some password) none (newSession C (seconds now) addr.key false)) lladdr with
    isIncomingConnection := true, addr }

/-- The peer `handleUnexpectedIncoming` makes. -/
def calling (lladdr : Sockaddr) (caSession : Session C) : Peer C :=
  { Peer.new caSession lladdr with isIncomingConnection := true, state := .unauthenticated }

/-- `InterfaceController_bootstrapPeer`. -/
def bootstrapPeer (now : Nat) (herPublicKey : Key) (lladdr : Sockaddr) (password : List UInt8)
    (login : Option (List UInt8)) (heap : Heap C) : Er (BootstrapPeer × Heap C × List Out) :=
  if !goodKey herPublicKey heap then .ret (.badKey, heap, [])
  else
    let (peer, ep, heap) := addPeer (configured C now herPublicKey lladdr password login) heap
    match heap.switchCore.addInterface with
    | none => do
      let (heap, outs) ← free peer ep heap
      .ret (.outOfSpace, heap, outs)
    | some (slot, path, switchCore) =>
      let (ep, pings) := sendPing
        { ep with slot, addr := { ep.addr with path }, timeOfLastMessage := timeOfNewPeer now heap }
      .ret (.ok, { heap with switchCore }.write peer ep, pings)

/-- `handleBeacon`, once the beacon has been found to be that of a node at `addr`. -/
def acceptBeacon (now : Nat) (lladdr : Sockaddr) (password : List UInt8) (addr : Address) (heap : Heap C) :
    Er (Heap C × List Out) :=
  match (heap.peerMap.indexForKey lladdr).bind fun index => heap.peerMap.entries[index]? with
  | some e =>
    -- the password might have changed
    .ret ({ heap with
      peers := fun peer => (heap.peers peer).map fun ep =>
        if peer = e.value.peer then { ep with caSession := setAuth (some password) none ep.caSession } else ep }, [])
  | none =>
    let (peer, ep, heap) := addPeer (heard C now lladdr password addr) heap
    match heap.switchCore.addInterface with
    | none => free peer ep heap
    | some (slot, path, switchCore) => do
      let ep := { ep with slot, addr := { ep.addr with path }, timeOfLastMessage := timeOfNewPeer now heap }
      let outs ← sendPeer .peer ep 0xffff
      .ret ({ heap with switchCore }.write peer ep, outs)

def receivedPostCryptoAuth (now capacity : Nat) (content : List UInt8) (peer : Nat) (ep : Peer C) (heap : Heap C) :
    Er (Heap C × List Out) :=
  let (ep, switchCore, dropped, pings) := track now content ep heap.switchCore
  let heap := { heap with switchCore }.write peer ep
  if dropped then .ret (heap, pings)
  else do
    .assertTrue (capacity % 4 = 0) "!(msg->capacity % 4)"
    .ret (heap, pings ++ [.toSwitch ep.slot content])

/-- `handleUnexpectedIncoming`, once the first message of the peer has been decrypted. -/
def acceptPeer (now capacity : Nat) (lladdr : Sockaddr) (content : List UInt8) (caSession : Session C)
    (heap : Heap C) : Er (Heap C × List Out) := do
  .assertTrue (!caSession.herPublicKey.isZero) "!Bits_isZero(ep->caSession->herPublicKey, 32)"
  .assertTrue (heap.peerMap.indexForKey lladdr).isNone
    "Map_EndpointsBySockaddr_indexForKey(&lladdr, &ici->peerMap) == -1"
  let (peer, ep, heap) := addPeer (calling lladdr caSession) heap
  match heap.switchCore.addInterface with
  | none => free peer ep heap
  | some (slot, path, switchCore) =>
    let ep := { ep with
      slot
      timeOfLastMessage := timeOfNewPeer now heap
      addr := { ep.addr with
        path, key := caSession.herPublicKey, ip6 := C.addressForPublicKey caSession.herPublicKey } }
    receivedPostCryptoAuth now capacity content peer ep { heap with switchCore }

/-! ## Runs -/

/-- What else the controller does with a peer. -/
structure Change (C : Crypto) where
  apply : Nat → Peer C → Peer C
  handle_eq : ∀ peer ep, (apply peer ep).handle = ep.handle
  lladdr_eq : ∀ peer ep, (apply peer ep).lladdr = ep.lladdr

/-- What happens on the interface. The last one is anything that makes and frees no peer: messages of known
peers, pings, messages to peers. -/
inductive Event (C : Crypto) where
  | bootstrap (now : Nat) (herPublicKey : Key) (lladdr : Sockaddr) (password : List UInt8)
      (login : Option (List UInt8))
  | beacon (now : Nat) (lladdr : Sockaddr) (password : List UInt8) (addr : Address)
  | packet (now capacity : Nat) (lladdr : Sockaddr) (content : List UInt8) (caSession : Session C)
  | remove (peer : Nat)
  | other (change : Change C) (switchCore : Switch.SwitchCore)

/-- A peer is freed, if it is there. -/
def removePeer (peer : Nat) (heap : Heap C) : Er (Heap C) :=
  match heap.peers peer with
  | none => .ret heap
  | some ep => do
    let (heap, _) ← freePeer peer ep heap
    .ret heap

def step (event : Event C) (heap : Heap C) : Er (Heap C) :=
  match event with
  | .bootstrap now herPublicKey lladdr password login => do
    let (_, heap, _) ← bootstrapPeer now herPublicKey lladdr password login heap
    .ret heap
  | .beacon now lladdr password addr => do
    let (heap, _) ← acceptBeacon now lladdr password addr heap
    .ret heap
  | .packet now capacity lladdr content caSession => do
    let (heap, _) ← acceptPeer now capacity lladdr content caSession heap
    .ret heap
  | .remove peer => removePeer peer heap
  | .other change switchCore =>
    .ret { heap with switchCore, peers := fun peer => (heap.peers peer).map (change.apply peer) }

/-- An interface from its start on. -/
def events (C : Crypto) : Transition.System (Heap C) (Event C) where
  init heap := ∃ ca, heap = .new C ca
  step heap event heap' := step event heap = .ret heap'

/-- A live peer is the value of the map under its handle, and its address is the key there. -/
def Linked (heap : Heap C) : Prop :=
  ∀ peer ep, heap.peers peer = some ep →
    ∃ index e, heap.peerMap.indexForHandle ep.handle = some index ∧ heap.peerMap.entries[index]? = some e ∧
      e.value.peer = peer ∧ e.value.keyOf = peer ∧ e.key = ep.lladdr

/-- What `closeInterface` asserts. -/
def closeAsserts : List String := ["index >= 0", "toClose->ici->peerMap.values[index] == toClose"]

/-- The handles have not wrapped. -/
def Fresh (heap : Heap C) : Prop := ∀ e ∈ heap.peerMap.entries, e.handle < heap.peerMap.nextHandle

/-- Peers are made for addresses that are not in the map, with handles greater than those in it. -/
def Allowed (heap : Heap C) : Event C → Prop
  | .bootstrap _ herPublicKey lladdr _ _ =>
    goodKey herPublicKey heap = true → heap.peerMap.indexForKey lladdr = none ∧ Fresh heap
  | .beacon _ lladdr _ _ => heap.peerMap.indexForKey lladdr = none → Fresh heap
  | .packet _ _ lladdr _ _ => heap.peerMap.indexForKey lladdr = none → Fresh heap
  | .remove _ => True
  | .other _ _ => True

/-! ## The invariant -/

/-- What the map has to do with a peer. -/
def Heap.links (heap : Heap C) (peer : Nat) : Option (Nat × Sockaddr) :=
  (heap.peers peer).map fun ep => (ep.handle, ep.lladdr)

/-- Peers and entries stand for each other. -/
structure Sound (heap : Heap C) : Prop where
  rising : heap.peerMap.Rising
  linked : ∀ peer handle lladdr, heap.links peer = some (handle, lladdr) →
    ∃ e ∈ heap.peerMap.entries, e.handle = handle ∧ e.value = ⟨peer, peer⟩ ∧ e.key = lladdr
  live : ∀ e ∈ heap.peerMap.entries, ∃ lladdr, heap.links e.value.peer = some (e.handle, lladdr)
  below : ∀ peer, heap.brk ≤ peer → heap.links peer = none

variable {heap heap' : Heap C}

theorem sound_new (C : Crypto) (ca : Context) : Sound (.new C ca) where
  rising := List.Pairwise.nil
  linked _ _ _ h := nomatch h
  live _ h := nomatch h
  below _ _ := rfl

theorem Sound.congr (h : Sound heap) (hmap : heap'.peerMap = heap.peerMap) (hlinks : heap'.links = heap.links)
    (hbrk : heap'.brk = heap.brk) : Sound heap' where
  rising := hmap ▸ h.rising
  linked := by
    rw [hmap, hlinks]
    exact h.linked
  live := by
    rw [hmap, hlinks]
    exact h.live
  below := by
    rw [hbrk, hlinks]
    exact h.below

theorem Sound.isLinked (h : Sound heap) : Linked heap := by
  intro peer ep hpeer
  have hlink : heap.links peer = some (ep.handle, ep.lladdr) := by rw [Heap.links, hpeer]; rfl
  obtain ⟨e, he, hhandle, hvalue, hkey⟩ := h.linked peer _ _ hlink
  obtain ⟨index, hat⟩ := mem_iff_getElem?.mp he
  have hindex := h.rising.indexForHandle_iff.mpr ⟨e, hat, hhandle⟩
  exact ⟨index, e, hindex, hat, by rw [hvalue], by rw [hvalue], hkey⟩

theorem links_write (heap : Heap C) (peer : Nat) (ep : Peer C) :
    (heap.write peer ep).links = Function.update heap.links peer (some (ep.handle, ep.lladdr)) := by
  funext p
  by_cases hp : p = peer
  · rw [hp]
    simp [Heap.links, Heap.write]
  · rw [update_of_ne hp]
    simp [Heap.links, Heap.write, hp]

variable {peer : Nat} {ep : Peer C}

theorem Sound.write (h : Sound heap) (hlink : heap.links peer = some (ep.handle, ep.lladdr)) :
    Sound (heap.write peer ep) :=
  h.congr rfl (by rw [links_write, ← hlink, update_eq_self]) rfl

/-! ## Making a peer -/

/-- The entry of a new peer. -/
def newEntry (lladdr : Sockaddr) (heap : Heap C) : Map.Entry Sockaddr Ref :=
  { handle := heap.peerMap.nextHandle, key := lladdr, value := { keyOf := heap.brk, peer := heap.brk } }

variable {lladdr : Sockaddr}

theorem put_unknown (hnew : heap.peerMap.indexForKey lladdr = none) :
    put lladdr heap.brk heap.peerMap =
      (heap.peerMap.entries.length,
        { entries := heap.peerMap.entries ++ [newEntry lladdr heap]
          nextHandle := (heap.peerMap.nextHandle + 1) % 2 ^ 32 }) := by
  unfold put Map.put
  rw [hnew]
  rfl

theorem addPeer_unknown (hnew : heap.peerMap.indexForKey ep.lladdr = none) :
    addPeer ep heap =
      (heap.brk, { ep with handle := heap.peerMap.nextHandle },
        { heap with
          peerMap :=
            { entries := heap.peerMap.entries ++ [newEntry ep.lladdr heap]
              nextHandle := (heap.peerMap.nextHandle + 1) % 2 ^ 32 }
          brk := heap.brk + 1 }.write heap.brk { ep with handle := heap.peerMap.nextHandle }) := by
  have hhandle : (Map.handles
      { entries := heap.peerMap.entries ++ [newEntry ep.lladdr heap]
        nextHandle := (heap.peerMap.nextHandle + 1) % 2 ^ 32 }).getD heap.peerMap.entries.length 0 =
      heap.peerMap.nextHandle := by
    simp [Map.handles, newEntry]
  unfold addPeer
  dsimp only
  rw [put_unknown hnew, hhandle]

theorem Sound.addPeer (h : Sound heap) (hnew : heap.peerMap.indexForKey ep.lladdr = none) (hfresh : Fresh heap)
    {ep'} (hadd : addPeer ep heap = (peer, ep', heap')) :
    Sound heap' ∧ heap'.links peer = some (ep'.handle, ep'.lladdr) := by
  rw [addPeer_unknown hnew] at hadd
  obtain ⟨rfl, rfl, rfl⟩ := hadd
  have hold : ∀ {p} {link}, heap.links p = some link → p ≠ heap.brk := by
    intro p link hlink hp
    rw [h.below p (Nat.le_of_eq hp.symm)] at hlink
    exact nomatch hlink
  refine ⟨⟨?_, fun p handle lladdr hlink => ?_, fun e he => ?_, fun p hp => ?_⟩, ?_⟩
  · refine pairwise_append.mpr ⟨h.rising, pairwise_singleton _ _, fun e he f hf => ?_⟩
    rw [mem_singleton.mp hf]
    exact hfresh e he
  · rw [links_write] at hlink
    by_cases hp : p = heap.brk
    · rw [hp, update_self] at hlink
      cases hlink
      exact ⟨_, mem_append_right _ (mem_singleton_self _), rfl, by rw [hp]; rfl, rfl⟩
    · rw [update_of_ne hp] at hlink
      obtain ⟨e, he, hentry⟩ := h.linked p handle lladdr hlink
      exact ⟨e, mem_append_left _ he, hentry⟩
  · rw [links_write]
    rcases mem_append.mp he with he | he
    · obtain ⟨lladdr, hlink⟩ := h.live e he
      rw [update_of_ne (hold hlink)]
      exact ⟨lladdr, hlink⟩
    · rw [mem_singleton.mp he]
      exact ⟨ep.lladdr, update_self _ _ _⟩
  · rw [links_write, update_of_ne (Nat.ne_of_gt hp)]
    exact h.below p (Nat.le_of_succ_le hp)
  · rw [links_write]
    exact update_self _ _ _

/-! ## Freeing a peer -/

variable {index : Nat}

theorem free_eq {e} (hindex : heap.peerMap.indexForHandle ep.handle = some index)
    (hat : heap.peerMap.entries[index]? = some e) (hvalue : e.value.peer = peer) :
    ∃ outs, free peer ep heap =
      .ret ({ heap with peerMap := heap.peerMap.remove index, peers := Function.update heap.peers peer none }, outs) := by
  obtain ⟨outs, hsend⟩ := sendPeer_returns .peerGone ep 0xffff
  refine ⟨outs, ?_⟩
  unfold free closeInterface
  simp [hsend, hindex, hat, hvalue, assertTrue_bind]

theorem Sound.free (h : Sound heap) (hlink : heap.links peer = some (ep.handle, ep.lladdr)) :
    ∃ heap' outs, free peer ep heap = .ret (heap', outs) ∧ Sound heap' := by
  obtain ⟨e, he, hhandle, hvalue, -⟩ := h.linked peer _ _ hlink
  obtain ⟨index, hat⟩ := mem_iff_getElem?.mp he
  have hindex := h.rising.indexForHandle_iff.mpr ⟨e, hat, hhandle⟩
  obtain ⟨outs, hfree⟩ := free_eq hindex hat (congrArg Ref.peer hvalue)
  refine ⟨_, outs, hfree, ?_⟩
  have hlinks : Heap.links { heap with
      peerMap := heap.peerMap.remove index, peers := Function.update heap.peers peer none } =
      Function.update heap.links peer none := by
    funext p
    by_cases hp : p = peer
    · rw [hp]
      simp [Heap.links]
    · rw [update_of_ne hp]
      simp [Heap.links, hp]
  -- the other entries are those of other peers
  have hother : ∀ f ∈ heap.peerMap.entries, f.value.peer ≠ peer ↔ f ∈ heap.peerMap.entries.eraseIdx index := by
    intro f hf
    obtain ⟨j, hj⟩ := mem_iff_getElem?.mp hf
    rw [mem_eraseIdx_iff_getElem?]
    constructor
    · intro hne
      refine ⟨j, fun heq => hne ?_, hj⟩
      cases hj.symm.trans (heq ▸ hat)
      exact congrArg Ref.peer hvalue
    · intro ⟨k, hk, hfk⟩ heq
      obtain ⟨lladdr, hf⟩ := h.live f hf
      rw [heq, hlink] at hf
      have hhandles : f.handle = e.handle := (Prod.mk.inj (some.inj hf)).1.symm.trans hhandle.symm
      exact hk (h.rising.eq_of_handle hfk hat hhandles)
  refine ⟨h.rising.remove index, fun p handle lladdr hp => ?_, fun f hf => ?_, fun p hp => ?_⟩
  · rw [hlinks] at hp
    by_cases heq : p = peer
    · rw [heq, update_self] at hp
      exact nomatch hp
    · rw [update_of_ne heq] at hp
      obtain ⟨f, hf, hentry⟩ := h.linked p handle lladdr hp
      refine ⟨f, (hother f hf).mp ?_, hentry⟩
      rw [hentry.2.1]
      exact heq
  · have hmem := mem_of_mem_eraseIdx hf
    rw [hlinks, update_of_ne ((hother f hmem).mpr hf)]
    exact h.live f hmem
  · rw [hlinks]
    by_cases heq : p = peer
    · rw [heq, update_self]
    · rw [update_of_ne heq]
      exact h.below p hp

/-! ## Every event -/

theorem Sound.setSwitchCore (h : Sound heap) (switchCore : Switch.SwitchCore) : Sound { heap with switchCore } :=
  h.congr rfl rfl rfl

variable {now : Nat}

theorem Sound.bootstrapPeer (h : Sound heap) {herPublicKey} {password} {login}
    (hallowed : Allowed heap (.bootstrap now herPublicKey lladdr password login)) :
    (bootstrapPeer now herPublicKey lladdr password login heap).Meets (· ∉ closeAsserts) fun r => Sound r.2.1 := by
  unfold PeerHeap.bootstrapPeer
  by_cases hgood : goodKey herPublicKey heap = true
  · obtain ⟨hnew, hfresh⟩ := hallowed hgood
    rw [if_neg (show ¬ (!goodKey herPublicKey heap) = true by rw [hgood]; decide)]
    rcases hadd : PeerHeap.addPeer (configured C now herPublicKey lladdr password login) heap with ⟨peer, ep, heap₁⟩
    obtain ⟨hsound, hlink⟩ := h.addPeer hnew hfresh hadd
    dsimp only
    cases heap₁.switchCore.addInterface with
    | none =>
      obtain ⟨heap₂, outs, hfree, hsound₂⟩ := hsound.free hlink
      simp only [hfree]
      exact meets_ret hsound₂
    | some added => exact meets_ret ((hsound.setSwitchCore _).write hlink)
  · rw [Bool.eq_false_iff.mpr hgood]
    exact meets_ret h

theorem Sound.acceptBeacon (h : Sound heap) {password} {addr}
    (hallowed : Allowed heap (.beacon now lladdr password addr)) :
    (acceptBeacon now lladdr password addr heap).Meets (· ∉ closeAsserts) fun r => Sound r.1 := by
  unfold PeerHeap.acceptBeacon
  split
  next e _ =>
    refine meets_ret (h.congr rfl ?_ rfl)
    funext p
    simp only [Heap.links, Option.map_map]
    congr 1
    funext ep
    by_cases hp : p = e.value.peer
    · simp [hp]
    · simp [hp]
  next hnone =>
    have hnew : heap.peerMap.indexForKey lladdr = none := by
      rw [Option.bind_eq_none_iff] at hnone
      refine Option.eq_none_iff_forall_ne_some.mpr fun index hindex => ?_
      have hlt := Map.lt_of_indexForKey hindex
      exact absurd (hnone index hindex) (by simp [hlt])
    rcases hadd : PeerHeap.addPeer (heard C now lladdr password addr) heap with ⟨peer, ep, heap₁⟩
    obtain ⟨hsound, hlink⟩ := h.addPeer hnew (hallowed hnew) hadd
    dsimp only
    cases heap₁.switchCore.addInterface with
    | none =>
      obtain ⟨heap₂, outs, hfree, hsound₂⟩ := hsound.free hlink
      rw [hfree]
      exact meets_ret hsound₂
    | some added =>
      obtain ⟨outs, hsend⟩ := sendPeer_returns .peer
        { ep with slot := added.1, addr := { ep.addr with path := added.2.1 }
                  timeOfLastMessage := timeOfNewPeer now heap₁ } 0xffff
      simp only [hsend]
      exact meets_ret ((hsound.setSwitchCore _).write hlink)

theorem track_link (now : Nat) (content : List UInt8) (ep : Peer C) (core : Switch.SwitchCore) :
    (track now content ep core).1.handle = ep.handle ∧ (track now content ep core).1.lladdr = ep.lladdr := by
  unfold track
  dsimp only
  split
  · split
    · split
      · exact ⟨rfl, rfl⟩
      split
      · exact ⟨rfl, rfl⟩
      · exact ⟨rfl, rfl⟩
    · exact ⟨rfl, rfl⟩
  split
  · exact ⟨rfl, rfl⟩
  · exact ⟨rfl, rfl⟩

theorem Sound.receivedPostCryptoAuth (h : Sound heap) {now capacity peer} {content}
    (hlink : heap.links peer = some (ep.handle, ep.lladdr)) :
    (receivedPostCryptoAuth now capacity content peer ep heap).Meets (· ∉ closeAsserts) fun r => Sound r.1 := by
  have htrack := track_link now content ep heap.switchCore
  have hsound : Sound (Heap.write peer (track now content ep heap.switchCore).1
      { heap with switchCore := (track now content ep heap.switchCore).2.1 }) :=
    (h.setSwitchCore _).write (by rw [htrack.1, htrack.2]; exact hlink)
  unfold PeerHeap.receivedPostCryptoAuth
  dsimp only
  split
  · exact meets_ret hsound
  · exact Er.Meets.bind (meets_assertTrue fun _ => by decide) fun _ _ => meets_ret hsound

theorem Sound.acceptPeer (h : Sound heap) {now capacity} {content} {caSession}
    (hallowed : Allowed heap (.packet now capacity lladdr content caSession)) :
    (acceptPeer now capacity lladdr content caSession heap).Meets (· ∉ closeAsserts) fun r => Sound r.1 := by
  refine Er.Meets.bind (meets_assertTrue fun _ => by decide) fun _ _ => ?_
  by_cases hnew : heap.peerMap.indexForKey lladdr = none
  · rw [assertTrue_bind (by rw [hnew]; rfl)]
    rcases hadd : PeerHeap.addPeer (calling lladdr caSession) heap with ⟨peer, ep, heap₁⟩
    obtain ⟨hsound, hlink⟩ := h.addPeer hnew (hallowed hnew) hadd
    dsimp only
    cases heap₁.switchCore.addInterface with
    | none =>
      obtain ⟨heap₂, outs, hfree, hsound₂⟩ := hsound.free hlink
      rw [hfree]
      exact meets_ret hsound₂
    | some added => exact (hsound.setSwitchCore _).receivedPostCryptoAuth hlink
  · have hfail : (heap.peerMap.indexForKey lladdr).isNone = false := by
      rw [isNone_eq_false_iff, isSome_iff_ne_none]
      exact hnew
    rw [hfail]
    exact meets_abort (by decide)

theorem Sound.removePeer (h : Sound heap) (peer : Nat) : (removePeer peer heap).Meets (· ∉ closeAsserts) Sound := by
  unfold PeerHeap.removePeer
  cases hpeer : heap.peers peer with
  | none => exact meets_ret h
  | some ep =>
    have hlink : heap.links peer = some (ep.handle, ep.lladdr) := by rw [Heap.links, hpeer]; rfl
    obtain ⟨heap₁, outs, hfree, hsound⟩ := h.free hlink
    simp only [freePeer, hfree]
    exact meets_ret (hsound.setSwitchCore _)

theorem Sound.step (h : Sound heap) {event} (hallowed : Allowed heap event) :
    (step event heap).Meets (· ∉ closeAsserts) Sound := by
  cases event with
  | bootstrap now herPublicKey lladdr password login =>
    exact (h.bootstrapPeer hallowed).bind fun r hr => meets_ret hr
  | beacon now lladdr password addr => exact (h.acceptBeacon hallowed).bind fun r hr => meets_ret hr
  | packet now capacity lladdr content caSession =>
    exact (h.acceptPeer hallowed).bind fun r hr => meets_ret hr
  | remove peer => exact h.removePeer peer
  | other change switchCore =>
    refine meets_ret (h.congr rfl ?_ rfl)
    funext p
    simp only [Heap.links, Option.map_map]
    congr 1
    funext ep
    simp [change.handle_eq, change.lladdr_eq]

/-! ## An address that is known -/

theorem not_linked (hpeer : heap.peers peer = some ep) (hgone : ∀ e ∈ heap.peerMap.entries, e.value.peer ≠ peer) :
    ¬ Linked heap := by
  intro hlinked
  obtain ⟨index, e, -, hat, hvalue, -⟩ := hlinked peer ep hpeer
  exact hgone e (mem_of_getElem? hat) hvalue

theorem remove_abort {peer index : Nat} {ep} {e}
    (hpeer : heap.peers peer = some ep) (hrising : heap.peerMap.Rising) (hat : heap.peerMap.entries[index]? = some e)
    (hhandle : e.handle = ep.handle) (hother : e.value.peer ≠ peer) :
    step (.remove peer) heap = .abort "toClose->ici->peerMap.values[index] == toClose" := by
  have hindex := hrising.indexForHandle_iff.mpr ⟨e, hat, hhandle⟩
  obtain ⟨outs, hsend⟩ := sendPeer_returns .peerGone ep 0xffff
  simp [step, removePeer, freePeer, free, closeInterface, hpeer, hsend, hindex, hat, hother, Er.assertTrue]

theorem put_known (h : Sound heap) (hindex : heap.peerMap.indexForKey lladdr = some index) :
    ∃ (e : Map.Entry Sockaddr Ref) (map : Map Sockaddr Ref), put lladdr heap.brk heap.peerMap = (index, map) ∧
      map.Rising ∧ map.handles.getD index 0 = e.handle ∧
        map.entries[index]? = some { e with value := { e.value with peer := heap.brk } } ∧
      (∃ ep, heap.peers e.value.peer = some ep) ∧ e.value.peer ≠ heap.brk ∧
      ∀ f ∈ map.entries, f.value.peer ≠ e.value.peer := by
  have hlt := Map.lt_of_indexForKey hindex
  obtain ⟨e, hat⟩ : ∃ e, heap.peerMap.entries[index]? = some e := ⟨_, getElem?_eq_getElem hlt⟩
  obtain ⟨lladdr', hlink⟩ := h.live e (mem_of_getElem? hat)
  obtain ⟨ep, hpeer, -⟩ := Option.map_eq_some_iff.mp hlink
  have hold : e.value.peer ≠ heap.brk := by
    intro heq
    rw [h.below _ (Nat.le_of_eq heq.symm)] at hlink
    exact nomatch hlink
  let map := { heap.peerMap with
    entries := heap.peerMap.entries.modify index fun e => { e with value := { e.value with peer := heap.brk } } }
  have hat' : map.entries[index]? = some { e with value := { e.value with peer := heap.brk } } := by
    simp [map, hat]
  refine ⟨e, map, ?_, h.rising.modify index fun _ => rfl, ?_, hat', ⟨ep, hpeer⟩, hold, fun f hf heq => ?_⟩
  · unfold put
    rw [hindex]
  · simp [Map.handles, hat']
  · obtain ⟨j, hj⟩ := mem_iff_getElem?.mp hf
    simp only [map, getElem?_modify, Option.map_eq_map, Option.map_eq_some_iff] at hj
    obtain ⟨f', hf', rfl⟩ := hj
    by_cases hij : index = j
    · rw [if_pos hij] at heq
      exact hold heq.symm
    · rw [if_neg hij] at heq
      obtain ⟨lladdr'', hlink'⟩ := h.live f' (mem_of_getElem? hf')
      rw [heq, hlink] at hlink'
      have hhandles : e.handle = f'.handle := (Prod.mk.inj (Option.some.inj hlink')).1
      exact hij (h.rising.eq_of_handle hat hf' hhandles)

theorem Sound.bootstrap_known (h : Sound heap) (now : Nat) {herPublicKey} (password : List UInt8)
    (login : Option (List UInt8)) (hgood : goodKey herPublicKey heap = true)
    (hindex : heap.peerMap.indexForKey lladdr = some index) :
    ∃ heap', PeerHeap.step (.bootstrap now herPublicKey lladdr password login) heap = .ret heap' ∧ ¬ Linked heap' := by
  obtain ⟨e, map, hput, hrising, hhandle, hat, ⟨ep, hpeer⟩, hold, hgone⟩ := put_known h hindex
  let ep₁ : Peer C := { configured C now herPublicKey lladdr password login with handle := e.handle }
  let heap₁ : Heap C := Heap.write heap.brk ep₁ { heap with peerMap := map, brk := heap.brk + 1 }
  have hadd : PeerHeap.addPeer (configured C now herPublicKey lladdr password login) heap = (heap.brk, ep₁, heap₁) := by
    have hput' : put (configured C now herPublicKey lladdr password login).lladdr heap.brk heap.peerMap = (index, map) :=
      hput
    unfold PeerHeap.addPeer
    dsimp only
    rw [hput', hhandle]
  have hkept : ∀ ep', Function.update heap.peers heap.brk ep' e.value.peer = some ep := by
    intro ep'
    rw [update_of_ne hold]
    exact hpeer
  simp only [PeerHeap.step, PeerHeap.bootstrapPeer]
  rw [if_neg (show ¬ (!goodKey herPublicKey heap) = true by rw [hgood]; decide), hadd]
  cases heap₁.switchCore.addInterface with
  | none =>
    have hindex₁ : heap₁.peerMap.indexForHandle ep₁.handle = some index :=
      hrising.indexForHandle_iff.mpr ⟨_, hat, rfl⟩
    obtain ⟨outs, hfree⟩ := free_eq hindex₁ hat rfl
    refine ⟨_, by rw [hfree]; rfl, @not_linked C _ e.value.peer ep ?_ ?_⟩
    · simp only [heap₁, Heap.write, update_idem]
      exact hkept none
    · exact fun f hf => hgone f (mem_of_mem_eraseIdx hf)
  | some added =>
    refine ⟨_, rfl, @not_linked C _ e.value.peer ep ?_ hgone⟩
    simp only [heap₁, Heap.write, update_idem]
    exact hkept _

/-! ## The peers of an interface -/

/-- As long as peers are made for new addresses and the handles do not wrap, every live peer is found under
its handle and can be freed. Of a `bootstrapPeer` the address is all that matters: it breaks the map if the
address is there. -/
theorem linked_of_allowed {past : List (Heap C)} (h : Transition.Run ((events C).restrict Allowed) heap past) :
    Linked heap ∧
      (∀ event, Allowed heap event → ∀ text ∈ closeAsserts, step event heap ≠ .abort text) ∧
      ∀ now herPublicKey lladdr password login, goodKey herPublicKey heap = true →
        (heap.peerMap.indexForKey lladdr).isSome →
        ∃ heap', step (.bootstrap now herPublicKey lladdr password login) heap = .ret heap' ∧ ¬ Linked heap' := by
  have hsound : Sound heap := by
    refine Transition.Run.invariant (I := Sound) ?_ ?_ h
    · intro heap ⟨ca, hnew⟩
      rw [hnew]
      exact sound_new C ca
    · intro heap past event heap' _ hsound ⟨hallowed, hstep⟩
      exact (hsound.step hallowed).2 heap' hstep
  refine ⟨hsound.isLinked, fun event hallowed text htext habort => ?_, ?_⟩
  · exact (hsound.step hallowed).1 text habort htext
  · intro now herPublicKey lladdr password login hgood hknown
    obtain ⟨index, hindex⟩ := isSome_iff_exists.mp hknown
    exact hsound.bootstrap_known now password login hgood hindex

/-- An interface that has just been started. -/
def atStart : Heap Symbolic.crypto :=
  .new _ (Symbolic.node 9)

/-- An address on the link. -/
def neighbor (n : UInt8) : Sockaddr := { flags := 0, type := 2, prefixLen := 0, native := [n] }

theorem linked_two_peers :
    ∃ heap past, Transition.Run ((events Symbolic.crypto).restrict Allowed) heap past ∧
      (heap.peers 0).isSome ∧ (heap.peers 1).isSome ∧ Linked heap := by
  have h₀ : Transition.Run ((events Symbolic.crypto).restrict Allowed) atStart [] := .start ⟨_, rfl⟩
  have hbootstrap : ((events _).restrict Allowed).step atStart (.bootstrap 0 (Symbolic.key 1) (neighbor 1) [7] none) _ :=
    ⟨fun _ => ⟨rfl, fun e he => nomatch he⟩, rfl⟩
  have h₁ := h₀.step hbootstrap
  have h₂ := h₁.step (show ((events _).restrict Allowed).step _
    (.beacon 0 (neighbor 2) [7] { Address.zero with key := Symbolic.key 2 }) _ from ⟨fun _ => by unfold Fresh; decide, rfl⟩)
  exact ⟨_, _, h₂, rfl, rfl, (linked_of_allowed h₂).1⟩

/-- Two peers are configured for one address, and the first one is to be freed. -/
theorem bootstrap_twice :
    ∃ heap past, Transition.Run (events Symbolic.crypto) heap past ∧ ¬ Linked heap ∧
      step (.remove 0) heap = .abort "toClose->ici->peerMap.values[index] == toClose" := by
  have h₀ : Transition.Run (events Symbolic.crypto) atStart [] := .start ⟨_, rfl⟩
  have h₁ := h₀.step (show (events _).step _ (.bootstrap 0 (Symbolic.key 1) (neighbor 1) [7] none) _ from rfl)
  have h₂ := h₁.step (show (events _).step _ (.bootstrap 0 (Symbolic.key 2) (neighbor 1) [7] none) _ from rfl)
  refine ⟨_, _, h₂, @not_linked _ _ 0 _ rfl (by decide), ?_⟩
  exact remove_abort (e := { handle := 0, key := neighbor 1, value := ⟨0, 1⟩ }) rfl (pairwise_singleton _ _)
    (show _[0]? = _ from rfl) rfl (by decide)

end PeerHeap

end Hyperboria
