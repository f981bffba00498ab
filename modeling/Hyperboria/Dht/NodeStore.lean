/-
`dht/dhtcore/Node.h`, `Node.c` and `NodeStore.c`: the nodes a router knows and the links
between them. Each node has a best parent, the link it is reached by, and with it a cost
and a path. When the cost of a link changes, the child looks for its best parent again,
and the nodes whose parent has changed are marked until they have done so too
(`findBestParent`). A path is looked up by walking along the links it goes through
(`findClosest`). A node that is discovered becomes the child of the last node its path
goes through, and links that turn out to go through it are split.

Nodes and links are cells of memory, pointers are addresses. A red-black tree is the list
of its elements in order. `Defined(PARANOIA)` is 1 in every build, so the checks are always
made and the shortcut of `destroyNode` is never taken; whether the macro `PARANOIA` is
defined, and `Assert_ifParanoid` with it, is a parameter. `TESTING` and the full
verification the tests can turn on are not modelled. What a caller is told through
`onBestPathChange`, the times nodes and links were last seen, and the log are left out.
-/
import Hyperboria.Heap
import Hyperboria.Dht.RumorMill
import Hyperboria.Switch.EncodingScheme
import Hyperboria.Switch.LabelSplicer

namespace Hyperboria

open Bits (log2x64 bitReverse64)
open EncodingScheme (Scheme)
open LabelSplicer (splice routesThrough)

/-- A loop of the source that runs for this many rounds is taken for one that does not end. -/
def rounds : Nat := 2 ^ 64

def UINT64_MAX : BitVec 64 := BitVec.allOnes 64

def UINT32_MAX : BitVec 32 := BitVec.allOnes 32

/-- `struct Node_Two*`. -/
abbrev NodeId := Nat

/-- `struct Node_Link*`. -/
abbrev LinkId := Nat

/-- `struct Node_Two`. The IPv6 address has been worked out: `Address_getPrefix` leaves it as it is. -/
structure Node where
  /-- `cost_pvt` -/
  cost : BitVec 64
  marked : Bool
  address : Address
  encodingScheme : Scheme
  /-- the links that begin here, in the order of `comparePeers` -/
  peerTree : List LinkId
  /-- the links that end here -/
  reversePeers : List LinkId
  /-- `bestParent_pvt` -/
  bestParent : Option LinkId
deriving DecidableEq

/-- `struct Node_Link`. -/
structure Link where
  inverseLinkEncodingFormNumber : Int
  linkCost : BitVec 32
  parent : NodeId
  child : NodeId
  /-- `parent` and `child` have been set to `NULL` -/
  unlinked : Bool
  nextInSplitList : Option LinkId
  cannonicalLabel : BitVec 64
  discoveredPath : BitVec 64
deriving DecidableEq

/-- `struct NodeStore_pvt`. -/
structure NodeStore where
  nodes : Heap Node
  links : Heap Link
  selfNode : NodeId
  selfLink : Option LinkId
  /-- all nodes, in the order of `compareNodes` -/
  nodeTree : List NodeId
  linksToFree : List LinkId
  renumberMill : RumorMill
  peerCount : Int
  linkedNodes : Int
  nodeCount : Int
  nodeCapacity : Int
  linkCount : Int
  linkCapacity : Int
  disarmCheck : Nat
deriving DecidableEq

namespace NodeStore

/-- The node at this address. -/
def node (s : NodeStore) (n : NodeId) : Er Node :=
  match s.nodes.get? n with
  | some node => .ret node
  | none => .abort "use of a node that was freed"

/-- The link at this address, whose ends are looked at. -/
def link (s : NodeStore) (l : LinkId) : Er Link :=
  match s.links.get? l with
  | some link => if link.unlinked then .abort "an end of the link is NULL" else .ret link
  | none => .abort "use of a link that was freed"

/-- `link->cannonicalLabel`. -/
def label (s : NodeStore) (l : LinkId) : BitVec 64 := (s.links.get? l).elim 0 (·.cannonicalLabel)

def setNode (s : NodeStore) (n : NodeId) (node : Node) : NodeStore := { s with nodes := s.nodes.set n node }

def setLink (s : NodeStore) (l : LinkId) (link : Link) : NodeStore := { s with links := s.links.set l link }

/-- `store->selfLink`, where it is used. -/
def theSelfLink (s : NodeStore) : Er LinkId :=
  match s.selfLink with
  | some l => .ret l
  | none => .abort "selfLink is NULL"

/-! ## Order -/

/-- `comparePeers`: longer labels come first. -/
def comparePeers (a b : BitVec 64) : Int :=
  let log2Diff : Int := log2x64 b - log2x64 a
  if log2Diff ≠ 0 then log2Diff
  else if bitReverse64 a < bitReverse64 b then 1
  else if a = b then 0
  else -1

/-- `RB_INSERT` into a tree of peers: a link whose label is there already is not put in. -/
def insertPeer (s : NodeStore) (l : LinkId) : List LinkId → List LinkId
  | [] => [l]
  | x :: xs =>
    if comparePeers (s.label l) (s.label x) < 0 then l :: x :: xs
    else if comparePeers (s.label l) (s.label x) = 0 then x :: xs
    else x :: insertPeer s l xs

/-- `RB_NEXT`. -/
def nextPeer (l : LinkId) : List LinkId → Option LinkId
  | [] => none
  | x :: xs => if x = l then xs.head? else nextPeer l xs

/-- The words of the address in the order `compareNodes` looks at them. -/
def sortKey (address : Address) : List UInt8 := address.ip6.drop 8 ++ address.ip6.take 8

/-- `RB_INSERT` into the tree of nodes. -/
def insertNode (s : NodeStore) (n : NodeId) (address : Address) : List NodeId → List NodeId
  | [] => [n]
  | x :: xs =>
    match s.nodes.get? x with
    | some other =>
      if sortKey address < sortKey other.address then n :: x :: xs
      else if address.ip6 = other.address.ip6 then x :: xs
      else x :: insertNode s n address xs
    | none => x :: insertNode s n address xs

def nodeForIp (s : NodeStore) (ip6 : List UInt8) : Option NodeId :=
  s.nodeTree.find? fun n => (s.nodes.get? n).any fun node => node.address.ip6 = ip6

/-! ## `Node.c` -/

/-- The loop of `Node_isAncestorOf`. -/
def ancestorFrom (s : NodeStore) (ancestor : NodeId) : Nat → NodeId → Er Bool
  | 0, _ => .spin
  | fuel + 1, nn =>
    if nn = ancestor then .ret true
    else do
      let node ← s.node nn
      match node.bestParent with
      | none => .ret false
      | some l => do
        let next ← s.link l
        if next.parent = nn then .ret false else ancestorFrom s ancestor fuel next.parent

/-- `Node_isAncestorOf`. -/
def isAncestorOf (s : NodeStore) (ancestor child : NodeId) : Er Bool := ancestorFrom s ancestor rounds child

/-- `Node_setParentCostAndPath`. -/
def setParentCostAndPath (s : NodeStore) (n : NodeId) (bestParent : Option LinkId) (cost path : BitVec 64) :
    Er NodeStore := do
  match bestParent with
  | some l => do
    let link ← s.link l
    .assertTrue (link.child = n) "bestParent->child == node"
    .assertTrue (cost ≠ UINT64_MAX) "cost != UINT64_MAX"
    .assertTrue (path ≠ UINT64_MAX) "path != UINT64_MAX"
    if link.parent = n then do
      .assertTrue (cost = 0) "cost == 0"
      .assertTrue (path = 1) "path == 1"
    else do
      let ancestor ← isAncestorOf s n link.parent
      .assertTrue (!ancestor) "!Node_isAncestorOf(node, bestParent->parent)"
  | none => do
    .assertTrue (cost = UINT64_MAX) "cost == UINT64_MAX"
    .assertTrue (path = UINT64_MAX) "path == UINT64_MAX"
  let node ← s.node n
  .ret (s.setNode n { node with bestParent, cost, address := { node.address with path } })

/-- `Node_isOneHopLink`. -/
def isOneHopLink (s : NodeStore) (link : Link) : Er Bool := do
  let parent ← s.node link.parent
  let num ← EncodingScheme.getFormNum parent.encodingScheme.forms link.cannonicalLabel
  match num.bind fun i => parent.encodingScheme.forms[i]? with
  | none => .abort "num > -1 && num < ps->count"
  | some form => .ret (EncodingScheme.formSize form = log2x64 link.cannonicalLabel)

/-! ## The checks of `PARANOIA` -/

/-- The loop of `_checkNode` that goes up to the self node. -/
def checkChain (s : NodeStore) : Nat → NodeId → Er Unit
  | 0, _ => .spin
  | fuel + 1, nn => do
    let node ← s.node nn
    match node.bestParent with
    | none => .abort "Node_getBestParent(nn) is NULL"
    | some l => do
      let best ← s.link l
      let parent ← s.node best.parent
      .assertTrue (routesThrough node.address.path parent.address.path)
        "LabelSplicer_routesThrough(nn->address.path, Node_getBestParent(nn)->parent->address.path)"
      if best.parent = s.selfNode then .ret () else checkChain s fuel best.parent

/-- What `_checkNode` asks of the links that end at the node. -/
def checkReversePeers (s : NodeStore) (n : NodeId) : List LinkId → Er Unit
  | [] => .ret ()
  | l :: ls => do
    let link ← s.link l
    .assertTrue (link.child = n) "link->child == node"
    let parent ← s.node link.parent
    .assertTrue ((parent.peerTree.find? fun x => s.label x = s.label l) = some l)
      "RB_FIND(PeerRBTree, &link->parent->peerTree, link) == link"
    .assertTrue (parent.peerTree.contains l) "ok"
    checkReversePeers s n ls

/-- What `_checkNode` asks of the links that begin at the node, from the last one on. -/
def checkPeers (s : NodeStore) (n : NodeId) (node : Node) (lastLabel : Option (BitVec 64)) : List LinkId → Er Unit
  | [] => .ret ()
  | l :: ls => do
    let link ← s.link l
    let parent ← s.node link.parent
    let self ← EncodingScheme.isSelfRoute parent.encodingScheme.forms link.cannonicalLabel
    .assertTrue (!self || some l = s.selfLink)
      "!EncodingScheme_isSelfRoute(link->parent->encodingScheme, link->cannonicalLabel) || link == store->selfLink"
    let child ← s.node link.child
    .assertTrue (node.bestParent.isSome || child.bestParent ≠ some l)
      "Node_getBestParent(node) || Node_getBestParent(link->child) != link"
    .assertTrue (link.parent = n) "link->parent == node"
    .assertTrue (lastLabel ≠ some link.cannonicalLabel)
      "!lastLink || link->cannonicalLabel != lastLink->cannonicalLabel"
    .assertTrue (link.cannonicalLabel < UINT64_MAX && link.cannonicalLabel > 0)
      "link->cannonicalLabel < UINT64_MAX && link->cannonicalLabel > 0"
    .assertTrue (link.inverseLinkEncodingFormNumber < child.encodingScheme.forms.length)
      "link->inverseLinkEncodingFormNumber < link->child->encodingScheme->count"
    .assertTrue (child.reversePeers.contains l) "rlink && \"child contains reverse link\""
    checkPeers s n node (some link.cannonicalLabel) ls

/-- `_checkNode`. -/
def checkNode (s : NodeStore) (n : NodeId) : Er Unit := do
  let node ← s.node n
  let self ← s.node s.selfNode
  let cannonical ←
    EncodingScheme.convertLabel self.encodingScheme.forms node.address.path EncodingScheme.CANNONICAL
  .assertTrue (node.address.path = cannonical)
    "node->address.path == EncodingScheme_convertLabel(store->pub.selfNode->encodingScheme, node->address.path, EncodingScheme_convertLabel_convertTo_CANNONICAL)"
  checkReversePeers s n node.reversePeers
  checkPeers s n node none node.peerTree.reverse
  if node.bestParent.isSome then do
    .assertTrue (node.address.path ≠ UINT64_MAX) "node->address.path != UINT64_MAX"
    .assertTrue (node.cost ≠ UINT64_MAX) "Node_getCost(node) != UINT64_MAX"
    checkChain s rounds n
  else do
    .assertTrue (node.address.path = UINT64_MAX) "node->address.path == UINT64_MAX"
    .assertTrue (node.cost = UINT64_MAX) "Node_getCost(node) == UINT64_MAX"

/-- The loop of `_verify`: each node is checked, and those with a best parent are counted. -/
def checkNodes (s : NodeStore) : List NodeId → Er Int
  | [] => .ret 0
  | n :: ns => do
    checkNode s n
    let node ← s.node n
    let linkedNodes ← checkNodes s ns
    .ret (if node.bestParent.isSome then linkedNodes + 1 else linkedNodes)

/-- `check` and `verify`. -/
def check (s : NodeStore) : Er Unit :=
  if s.disarmCheck ≠ 0 then .ret ()
  else do
    let self ← s.node s.selfNode
    .assertTrue (self.bestParent = s.selfLink || s.selfLink.isNone)
      "Node_getBestParent(store->pub.selfNode) == store->selfLink || !store->selfLink"
    let linkedNodes ← checkNodes s s.nodeTree
    .assertTrue (linkedNodes = s.linkedNodes) "linkedNodes == store->pub.linkedNodes"
    .assertTrue ((s.nodeTree.length : Int) = s.nodeCount) "nodeCount == store->pub.nodeCount"

/-- `Assert_ifParanoid`. -/
def assertIfParanoid (paranoia expr : Bool) (text : String) : Er Unit :=
  if paranoia then .assertTrue expr text else .ret ()

/-! ## Best parents -/

def extendRoute_INVALID : BitVec 64 := UINT64_MAX - 1

def extendRoute_TOOLONG : BitVec 64 := UINT64_MAX

def extendRoute (routeToParent : BitVec 64) (parentScheme : Scheme) (routeParentToChild : BitVec 64)
    (previousLinkEncoding : Int) : Er (BitVec 64) := do
  .assertTrue (routeParentToChild ≠ EncodingScheme.INVALID)
    "routeParentToChild != EncodingScheme_convertLabel_INVALID"
  let nextLinkEncoding ← EncodingScheme.getFormNum parentScheme.forms routeParentToChild
  match nextLinkEncoding with
  -- they sent us a 'silly' route
  | none => .ret extendRoute_INVALID
  | some nextLinkEncoding =>
    if previousLinkEncoding > nextLinkEncoding then do
      let routeParentToChild ←
        EncodingScheme.convertLabel parentScheme.forms routeParentToChild previousLinkEncoding
      .assertTrue (routeParentToChild ≠ EncodingScheme.INVALID)
        "routeParentToChild != EncodingScheme_convertLabel_INVALID"
      .ret (splice routeParentToChild routeToParent)
    else .ret (splice routeParentToChild routeToParent)

def update (s : NodeStore) (l : LinkId) (linkCostDiff : Int) : Er NodeStore := do
  let link ← s.link l
  let cost : Int := linkCostDiff + link.linkCost.toNat
  let linkCost : BitVec 32 :=
    if cost > UINT32_MAX.toNat then UINT32_MAX
    else if cost < 1024 then 1024
    else BitVec.ofInt 32 cost
  let minMultiHopCost : BitVec 32 := 1 <<< 20
  let oneHop ← isOneHopLink s link
  -- give multi-hop links some minimum cost
  let linkCost := if !oneHop && linkCost < minMultiHopCost then minMultiHopCost else linkCost
  .ret (s.setLink l { link with linkCost })

def isPeer (s : NodeStore) (n : NodeId) : Er Bool := do
  let node ← s.node n
  match node.bestParent with
  | none => .ret false
  | some l => do
    let bp ← s.link l
    if bp.parent = s.selfNode then isOneHopLink s bp else .ret false

def guessCostOfChild (s : NodeStore) (link : Link) : Er (BitVec 64) := do
  let parent ← s.node link.parent
  let guess := parent.cost + link.linkCost.setWidth 64
  -- we wrapped around
  let guess := if guess < parent.cost then UINT64_MAX else guess
  .assertTrue (guess ≥ parent.cost) "guess >= Node_getCost(link->parent)"
  .ret guess

/-- `bestLink`, `bestCost` and `bestPath` of `findBestParent0`. -/
structure Best where
  link : Option LinkId
  cost : BitVec 64
  path : BitVec 64
deriving DecidableEq

/-- Whether the best link so far is one hop and this one is not. -/
def isMoreHops (s : NodeStore) (best : Option LinkId) (link : Link) : Er Bool :=
  match best with
  | none => .ret false
  | some b => do
    let bestLink ← s.link b
    let bestOneHop ← isOneHopLink s bestLink
    if bestOneHop then do
      let oneHop ← isOneHopLink s link
      .ret (!oneHop)
    else .ret false

/-- A turn of the first loop of `findBestParent0`. -/
def considerLink (s : NodeStore) (n : NodeId) (best : Best) (l : LinkId) : Er Best := do
  let link ← s.link l
  if link.linkCost = UINT32_MAX then .ret best
  else do
    let cost ← guessCostOfChild s link
    if best.cost ≤ cost then .ret best
    else do
      let moreHops ← isMoreHops s best.link link
      if moreHops then .ret best
      else do
        let parent ← s.node link.parent
        match parent.bestParent with
        | none => .ret best
        | some parentBest => do
          let ancestor ← isAncestorOf s n link.parent
          if ancestor then .ret best
          else do
            let parentLink ← s.link parentBest
            let path ← extendRoute parent.address.path parent.encodingScheme link.cannonicalLabel
              parentLink.inverseLinkEncodingFormNumber
            if path = extendRoute_TOOLONG then .ret best
            else if path = extendRoute_INVALID then .ret best
            else do
              .assertTrue (routesThrough path parent.address.path)
                "LabelSplicer_routesThrough(path, link->parent->address.path)"
              .ret { link := some l, cost, path }

/-- The first loop of `findBestParent0`. -/
def considerLinks (s : NodeStore) (n : NodeId) (best : Best) : List LinkId → Er Best
  | [] => .ret best
  | l :: ls => do
    let best ← considerLink s n best l
    considerLinks s n best ls

/-- The second loop of `findBestParent0`. -/
def markChildren (s : NodeStore) (cost bestCost : BitVec 64) : List LinkId → Er NodeStore
  | [] => .ret s
  | l :: ls => do
    let link ← s.link l
    let child ← s.node link.child
    if cost > bestCost ∨ child.bestParent = some l then
      markChildren (s.setNode link.child { child with marked := true }) cost bestCost ls
    else markChildren s cost bestCost ls

def findBestParent0 (s : NodeStore) (n : NodeId) : Er (NodeStore × Bool) := do
  let node ← s.node n
  let s := s.setNode n { node with marked := false }
  if n = s.selfNode then .ret (s, false)
  else do
    let best ← considerLinks s n { link := none, cost := UINT64_MAX, path := UINT64_MAX } node.reversePeers
    if best.cost ≠ node.cost ∨ best.path ≠ node.address.path then do
      let linkedNodes := if node.bestParent.isNone then s.linkedNodes + 1 else s.linkedNodes
      let linkedNodes := if best.link.isNone then linkedNodes - 1 else linkedNodes
      let s ← markChildren { s with linkedNodes } node.cost best.cost node.peerTree
      let s ← setParentCostAndPath s n best.link best.cost best.path
      .ret (s, true)
    else .ret (s, false)

/-- A round of the loop of `findBestParent`: each marked node looks for its best parent. -/
def sweep (s : NodeStore) : List NodeId → Er (NodeStore × Bool)
  | [] => .ret (s, false)
  | n :: ns => do
    let node ← s.node n
    if node.marked then do
      let (s, changed) ← findBestParent0 s n
      let (s, ret) ← sweep s ns
      .ret (s, changed || ret)
    else sweep s ns

/-- The loop of `findBestParent`, with the number of rounds that are left. -/
def settle (s : NodeStore) : Nat → Er NodeStore
  | 0 => .abort "cycle++ < 10000"
  | cycles + 1 => do
    let (s, ret) ← sweep s s.nodeTree
    if ret then settle s cycles else .ret s

def findBestParent (s : NodeStore) (n : NodeId) : Er (NodeStore × Bool) := do
  let (s, changed) ← findBestParent0 s n
  if !changed then .ret (s, false)
  else do
    let s ← settle s 10000
    .ret (s, true)

def handleLinkNews (s : NodeStore) (l : LinkId) (newLinkCost : BitVec 32) : Er NodeStore := do
  let link ← s.link l
  let linkCostDiff : Int := newLinkCost.toNat - link.linkCost.toNat
  let s ← update s l linkCostDiff
  let (s, modified) ← findBestParent s link.child
  if modified then do
    check s
    .ret s
  else .ret s

/-! ## Links -/

/-- What `NodeStore_unlinkNodes` and `linkNodes` ask of a link that begins at the self node. -/
def assertPeerLink (s : NodeStore) (link : Link) : Er Unit :=
  if link.parent = s.selfNode then do
    let oneHop ← isOneHopLink s link
    .assertTrue oneHop "Node_isOneHopLink(link)"
  else .ret ()

/-- The end of `NodeStore_unlinkNodes`: the link is taken out of both lists. -/
def detach (paranoia : Bool) (s : NodeStore) (l : LinkId) : Er NodeStore := do
  let link ← s.link l
  -- remove the entry from the reversePeers
  let child ← s.node link.child
  .assertTrue (child.reversePeers.contains l) "current"
  let s := s.setNode link.child { child with reversePeers := child.reversePeers.erase l }
  -- remove the RBTree entry
  let parent ← s.node link.parent
  assertIfParanoid paranoia ((parent.peerTree.find? fun x => s.label x = s.label l) = some l)
    "link == RB_FIND(PeerRBTree, &parent->peerTree, link)"
  let s := s.setNode link.parent { parent with peerTree := parent.peerTree.erase l }
  .ret { s.setLink l { link with unlinked := true } with linksToFree := l :: s.linksToFree }

def unlinkNodes (paranoia : Bool) (s : NodeStore) (l : LinkId) : Er NodeStore := do
  let link ← s.link l
  let _ ← s.node link.child
  let _ ← s.node link.parent
  check s
  if link.parent = s.selfNode ∧ some l = s.selfLink then .ret s
  else do
    assertPeerLink s link
    let s := if link.parent = s.selfNode then { s with peerCount := s.peerCount - 1 } else s
    let s ← handleLinkNews s l UINT32_MAX
    check s
    let s ← detach paranoia s l
    check s
    .ret s

/-- The first link a node is a child of, the self link, makes it the self node. -/
def setSelf (s : NodeStore) (l : LinkId) (child : NodeId) (cannonicalLabel : BitVec 64) : Er NodeStore := do
  .assertTrue (cannonicalLabel = 1) "cannonicalLabel == 1"
  .assertTrue (s.nodeCount = 0) "!store->pub.nodeCount"
  .assertTrue s.selfLink.isNone "!store->selfLink"
  let s ← setParentCostAndPath { s with selfLink := some l } child (some l) 0 1
  .ret { s with linkedNodes := s.linkedNodes + 1 }

/-- The store entry `linkNodes` makes for a child that has none. -/
def storeEntry (s : NodeStore) (l : LinkId) (parent child : NodeId) (address : Address)
    (cannonicalLabel : BitVec 64) : Er NodeStore :=
  if (nodeForIp s address.ip6).isSome then .ret s
  else do
    let s ← if child = parent then setSelf s l child cannonicalLabel else .ret s
    .ret { s with nodeTree := insertNode s child address s.nodeTree, nodeCount := s.nodeCount + 1 }

/-- The middle of `linkNodes`: a new link, in both lists. -/
def attach (paranoia : Bool) (s : NodeStore) (parent child : NodeId) (cannonicalLabel : BitVec 64)
    (inverseLinkEncodingFormNumber : Int) (discoveredPath : BitVec 64) : Er NodeStore := do
  let l := s.links.next
  let s := { s with
    linkCount := s.linkCount + 1
    links := s.links.alloc
      { inverseLinkEncodingFormNumber, linkCost := 0, parent, child, unlinked := false, nextInSplitList := none
        cannonicalLabel, discoveredPath } }
  -- reverse link
  let childNode ← s.node child
  let s := s.setNode child { childNode with reversePeers := l :: childNode.reversePeers }
  -- forward link
  let parentNode ← s.node parent
  assertIfParanoid paranoia (parentNode.peerTree.all fun x => s.label x ≠ cannonicalLabel)
    "!RB_FIND(PeerRBTree, &parent->peerTree, link)"
  let s := s.setNode parent { parentNode with peerTree := insertPeer s l parentNode.peerTree }
  storeEntry s l parent child childNode.address cannonicalLabel

/-- What `linkNodes` asks of the label. -/
def assertCannonical (scheme : Scheme) (cannonicalLabel : BitVec 64) : Er Unit := do
  let definitelyCannonical ← EncodingScheme.convertLabel scheme.forms cannonicalLabel EncodingScheme.CANNONICAL
  .assertTrue (definitelyCannonical = cannonicalLabel) "definitelyCannonical == cannonicalLabel"

def linkNodes (paranoia : Bool) (s : NodeStore) (parent child : NodeId) (cannonicalLabel : BitVec 64)
    (linkCostDiff : Int) (inverseLinkEncodingFormNumber : Int) (discoveredPath : BitVec 64) :
    Er (NodeStore × LinkId) := do
  check s
  .assertTrue (cannonicalLabel ≠ 1 || s.selfLink.isNone) "cannonicalLabel != 1 || store->selfLink == NULL"
  let parentNode ← s.node parent
  assertCannonical parentNode.encodingScheme cannonicalLabel
  match parentNode.peerTree.reverse.find? fun l =>
      (s.links.get? l).any fun link => link.child = child && link.cannonicalLabel = cannonicalLabel with
  | some l => do
    let link ← s.link l
    -- this can happen when the child renumbers but the parent did not
    let s := s.setLink l { link with inverseLinkEncodingFormNumber }
    let s ← handleLinkNews s l (BitVec.ofInt 32 (linkCostDiff + link.linkCost.toNat))
    .ret (s, l)
  | none => do
    .assertTrue (parentNode.peerTree.all fun l => s.label l ≠ cannonicalLabel) "0"
    .assertTrue (cannonicalLabel ≤ discoveredPath) "cannonicalLabel <= discoveredPath"
    let l := s.links.next
    let s ← attach paranoia s parent child cannonicalLabel inverseLinkEncodingFormNumber discoveredPath
    let s ← handleLinkNews s l (BitVec.ofInt 32 linkCostDiff)
    if parent = s.selfNode ∧ child ≠ s.selfNode then do
      let link ← s.link l
      assertPeerLink s link
      let s := { s with peerCount := s.peerCount + 1 }
      check s
      .ret (s, l)
    else do
      check s
      .ret (s, l)

/-! ## Walking along a path -/

def removeLinkFromLabel_IMPOSSIBLE : BitVec 64 := UINT64_MAX

def removeLinkFromLabel_OVERSIZE : BitVec 64 := UINT64_MAX - 1

def removeLinkFromLabel (s : NodeStore) (link : Link) (label : BitVec 64) : Er (BitVec 64) := do
  -- first we splice off the parent's director leaving the child's director
  let unspliced := LabelSplicer.unsplice label link.cannonicalLabel
  let child ← s.node link.child
  let formNum ← EncodingScheme.getFormNum child.encodingScheme.forms unspliced
  let formNum : Int := formNum.elim (-1) fun i => i
  -- can't get there from here
  if formNum < link.inverseLinkEncodingFormNumber then .ret removeLinkFromLabel_IMPOSSIBLE
  else do
    let cannonical ← EncodingScheme.convertLabel child.encodingScheme.forms unspliced EncodingScheme.CANNONICAL
    -- check that they didn't waste space by sending an oversize encoding form
    if formNum > link.inverseLinkEncodingFormNumber ∧ cannonical ≠ unspliced then .ret removeLinkFromLabel_OVERSIZE
    else do
      .assertTrue (cannonical ≠ EncodingScheme.INVALID) "cannonical != EncodingScheme_convertLabel_INVALID"
      .ret cannonical

def firstHopInPath_INVALID : BitVec 64 := UINT64_MAX

def firstHopInPath_NO_NEXT_LINK : BitVec 64 := UINT64_MAX - 1

/-- The first of these links the path goes through, from the place on where its own label would stand. -/
def nextOnPath (s : NodeStore) (label : BitVec 64) (peers : List LinkId) : Option LinkId :=
  (peers.dropWhile fun l => comparePeers label (s.label l) > 0).find? fun l => routesThrough label (s.label l)

/-- `firstHopInPath`: the answer, and `outLink` if it was written. -/
def firstHopInPath (s : NodeStore) (label : BitVec 64) (parentLink : LinkId) : Er (BitVec 64 × Option LinkId) := do
  let parent ← s.link parentLink
  let node ← s.node parent.child
  match nextOnPath s label node.peerTree with
  | none => .ret (firstHopInPath_NO_NEXT_LINK, none)
  | some nextLink =>
    if some nextLink = s.selfLink then .ret (firstHopInPath_NO_NEXT_LINK, none)
    -- there can be loopy links because they are kept around in the hope that they'll be split later
    else if nextLink = parentLink then .ret (firstHopInPath_NO_NEXT_LINK, none)
    else do
      let next ← s.link nextLink
      if label = next.cannonicalLabel then .ret (1, some nextLink)
      else if !routesThrough label next.cannonicalLabel then .ret (firstHopInPath_NO_NEXT_LINK, none)
      else do
        let label ← removeLinkFromLabel s next label
        if label >>> 63 ≠ 0 then .ret (firstHopInPath_INVALID, some nextLink) else .ret (label, some nextLink)

def findClosest_INVALID : BitVec 64 := UINT64_MAX

/-- The loop of `findClosest`: the answer, and `output` if it was written. -/
def closestFrom (s : NodeStore) : Nat → BitVec 64 → LinkId → Er (BitVec 64 × Option LinkId)
  | 0, _, _ => .spin
  | fuel + 1, path, parentLink => do
    let (nextPath, nextLink) ← firstHopInPath s path parentLink
    if nextPath = firstHopInPath_NO_NEXT_LINK then .ret (path, some parentLink)
    else if firstHopInPath_INVALID = nextPath then .ret (findClosest_INVALID, none)
    else
      match nextLink with
      | none => .abort "nextLink"
      | some nextLink => closestFrom s fuel nextPath nextLink

def findClosest (s : NodeStore) (path : BitVec 64) (parentLink : LinkId) : Er (BitVec 64 × Option LinkId) :=
  closestFrom s rounds path parentLink

def linkForPath (s : NodeStore) (path : BitVec 64) : Er (Option LinkId) := do
  let selfLink ← s.theSelfLink
  let (pathParentChild, out) ← findClosest s path selfLink
  .ret (if pathParentChild ≠ 1 then none else out)

def getRouteLabel_PARENT_NOT_FOUND : BitVec 64 := UINT64_MAX - 1

def getRouteLabel_CHILD_NOT_FOUND : BitVec 64 := UINT64_MAX - 2

def getRouteLabel_ERR (x : BitVec 64) : Bool := UINT64_MAX - 3 ≤ x

def getRouteLabel (s : NodeStore) (pathToParent pathParentToChild : BitVec 64) : Er (BitVec 64) := do
  let selfLink ← s.theSelfLink
  let (rest, linkToParent) ← findClosest s pathToParent selfLink
  if rest ≠ 1 then .ret getRouteLabel_PARENT_NOT_FOUND
  else
    match linkToParent with
    | none => .abort "linkToParent is not set"
    | some linkToParent => do
      let parentLink ← s.link linkToParent
      let parent ← s.node parentLink.child
      match parent.peerTree.reverse.find? fun l => s.label l = pathParentToChild with
      | none => .ret getRouteLabel_CHILD_NOT_FOUND
      | some linkToChild =>
        if linkToParent = selfLink then .ret (s.label linkToChild)
        else
          extendRoute pathToParent parent.encodingScheme (s.label linkToChild)
            parentLink.inverseLinkEncodingFormNumber

/-! ## Discovery -/

def freePendingLinks (s : NodeStore) : NodeStore :=
  { s with
    links := s.linksToFree.foldl Heap.free s.links
    linkCount := s.linkCount - s.linksToFree.length
    linksToFree := [] }

section
variable (C : Crypto) (paranoia : Bool)

/-- `RumorMill_addNode` of the mill of the store. -/
def addToMill (s : NodeStore) (address : Address) : Er NodeStore := do
  let renumberMill ← s.renumberMill.addNode C address
  .ret { s with renumberMill }

def discoverLinkC (s : NodeStore) (closestKnown : LinkId) (pathKnownParentChild : BitVec 64) (child : NodeId)
    (discoveredPath : BitVec 64) (inverseLinkEncodingFormNumber : Int) : Er (NodeStore × Option LinkId) := do
  -- make sure this link cannot be split before beginning
  let (pathParentChild, closest) ← findClosest s pathKnownParentChild closestKnown
  if pathParentChild = findClosest_INVALID then .ret (s, none)
  else
    match closest with
    | none => .abort "closest is NULL"
    | some closest => do
      let closestLink ← s.link closest
      let parent ← s.node closestLink.child
      let oneHop ← EncodingScheme.isOneHop parent.encodingScheme.forms pathParentChild
      if !oneHop then .ret (s, none)
      else if closestLink.child = child then
        -- link is already known, or it is a loopey route
        .ret (s, if pathParentChild = 1 then some closest else none)
      else do
        let self ← EncodingScheme.isSelfRoute parent.encodingScheme.forms pathParentChild
        if self then
          -- it might be that an evil switch modified the path in transit
          if discoveredPath = parent.address.path then do
            let childNode ← s.node child
            let s ← addToMill C s { childNode.address with path := parent.address.path }
            check s
            .ret (s, none)
          else do
            let grandParent ← s.node closestLink.parent
            let nextClosest := grandParent.bestParent
            let s ← unlinkNodes paranoia s closest
            match nextClosest with
            | none => .abort "closest is NULL"
            | some nextClosest => do
              let nextLink ← s.link nextClosest
              let (s, l) ← linkNodes paranoia s nextLink.child child closestLink.cannonicalLabel 0
                inverseLinkEncodingFormNumber discoveredPath
              check s
              .ret (s, some l)
        else do
          let (s, l) ← linkNodes paranoia s closestLink.child child pathParentChild 0 inverseLinkEncodingFormNumber
            discoveredPath
          check s
          .ret (s, some l)

/-- The loop of `fixLink` that puts a link into the list of those to be looked at next, `before` which it comes. -/
def insertSplit (s : NodeStore) (outLinks : Option LinkId) (childLink : LinkId) :
    Nat → Option LinkId → Option LinkId → Er (NodeStore × Option LinkId)
  | 0, _, _ => .spin
  | fuel + 1, last, x =>
    if x = some childLink then .ret (s, outLinks)
    else
      match x.bind s.links.get?, s.links.get? childLink with
      | some here, some link =>
        if here.cannonicalLabel ≤ link.cannonicalLabel then
          insertSplit s outLinks childLink fuel x here.nextInSplitList
        else putSplit s outLinks childLink last x link
      | none, some link => putSplit s outLinks childLink last x link
      | _, none => .abort "use of a link that was freed"
where
  /-- `childLink->nextInSplitList = *x; *x = childLink;` -/
  putSplit (s : NodeStore) (outLinks : Option LinkId) (childLink : LinkId) (last x : Option LinkId) (link : Link) :
      Er (NodeStore × Option LinkId) :=
    let s := s.setLink childLink { link with nextInSplitList := x }
    match last with
    | none => .ret (s, some childLink)
    | some l =>
      match s.links.get? l with
      | none => .abort "use of a link that was freed"
      | some before => .ret (s.setLink l { before with nextInSplitList := some childLink }, outLinks)

/-- Splitting one link in `fixLink`: a path from the child to the grandchild is discovered. -/
def splitLink (s : NodeStore) (parentLink : LinkId) (parentLabel : BitVec 64) (l : LinkId)
    (outLinks : Option LinkId) : Er (NodeStore × Option LinkId) := do
  let split ← s.link l
  let child := (s.links.get? parentLink).bind fun link => if link.unlinked then none else some link.child
  -- loopey route, kill it and let the bestParent pivit over to parentLink
  if child = some split.child then .ret (s, outLinks)
  else
    -- unsplice and cannonicalize so we now have a path from child to grandchild
    match child with
    | none => .abort "parentLink->child"
    | some child => do
      let childNode ← s.node child
      let parent ← s.link parentLink
      let childToGrandchild ← EncodingScheme.convertLabel childNode.encodingScheme.forms
        (LabelSplicer.unsplice split.cannonicalLabel parentLabel) EncodingScheme.CANNONICAL
      .assertTrue (childToGrandchild < UINT64_MAX) "childToGrandchild < UINT64_MAX"
      .assertTrue (childToGrandchild ≠ 1) "childToGrandchild != 1"
      .assertTrue (split.cannonicalLabel ≠ parentLabel) "splitLink->cannonicalLabel != parentLink->cannonicalLabel"
      -- we forgot what was the discovered path, so we'll just assume the worst among these two possibilities
      let discoveredPath := if childToGrandchild > parent.discoveredPath then childToGrandchild else parent.discoveredPath
      let (s, childLink) ← discoverLinkC C paranoia s parentLink childToGrandchild split.child discoveredPath
        split.inverseLinkEncodingFormNumber
      match childLink with
      | none => .ret (s, outLinks)
      | some childLink =>
        match s.links.get? childLink with
        | none => .abort "use of a link that was freed"
        | some link =>
          if link.nextInSplitList.isSome then .ret (s, outLinks)
          else insertSplit s outLinks childLink rounds none outLinks

/-- The loop of `fixLink` over the links of the parent. -/
def fixLinkFrom (parentLink : LinkId) (parent : NodeId) (parentLabel : BitVec 64) :
    Nat → NodeStore → Option LinkId → Bool → Option LinkId → Er (NodeStore × Option LinkId)
  | 0, _, _, _, _ => .spin
  | _ + 1, s, outLinks, _, none => .ret (s, outLinks)
  | fuel + 1, s, outLinks, verifyOrder, some l => do
    let node ← s.node parent
    if l = parentLink then
      fixLinkFrom parentLink parent parentLabel fuel s outLinks true (nextPeer l node.peerTree)
    else if !routesThrough (s.label l) parentLabel then
      fixLinkFrom parentLink parent parentLabel fuel s outLinks verifyOrder (nextPeer l node.peerTree)
    else do
      .assertTrue (!verifyOrder) "!verifyOrder"
      let (s, outLinks) ← splitLink C paranoia s parentLink parentLabel l outLinks
      check s
      let node ← s.node parent
      let next := nextPeer l node.peerTree
      let s ← unlinkNodes paranoia s l
      fixLinkFrom parentLink parent parentLabel fuel s outLinks verifyOrder next

def fixLink (s : NodeStore) (parentLink : LinkId) (outLinks : Option LinkId) : Er (NodeStore × Option LinkId) := do
  let link ← s.link parentLink
  let parent ← s.node link.parent
  fixLinkFrom C paranoia parentLink link.parent link.cannonicalLabel rounds s outLinks false parent.peerTree.head?

def fixLinks : Nat → NodeStore → Option LinkId → Option LinkId → Er (NodeStore × Option LinkId)
  | 0, _, _, _ => .spin
  | _ + 1, s, none, outLinks => .ret (s, outLinks)
  | fuel + 1, s, some l, outLinks =>
    match s.links.get? l with
    | none => .abort "use of a link that was freed"
    | some link => do
      let next := link.nextInSplitList
      let s := s.setLink l { link with nextInSplitList := none }
      -- else the parent link has been trashed by splitting another link
      let (s, outLinks) ← if link.unlinked then .ret (s, outLinks) else fixLink C paranoia s l outLinks
      fixLinks fuel s next outLinks

/-- The loop of `discoverLink`: the links put into one list while the other is worked off. -/
def fixAll : Nat → NodeStore → Option LinkId → Er NodeStore
  | 0, _, _ => .spin
  | _ + 1, s, none => .ret s
  | fuel + 1, s, some l => do
    let (s, outLinks) ← fixLinks C paranoia rounds s (some l) none
    fixAll fuel s outLinks

def discoverLink (s : NodeStore) (path : BitVec 64) (child : NodeId) (inverseLinkEncodingFormNumber : Int) :
    Er (NodeStore × Option LinkId) := do
  let selfLink ← s.theSelfLink
  let (s, link) ← discoverLinkC C paranoia s selfLink path child path inverseLinkEncodingFormNumber
  match link with
  | none => .ret (s, none)
  | some l => do
    let s ← fixAll C paranoia rounds s (some l)
    check s
    .ret (s, some l)

end

/-! ## Which node to drop -/

def bucketForAddr (source dest : Address) : Nat :=
  let one := RumorMill.firstLong source.ip6 ^^^ RumorMill.firstLong dest.ip6
  if one ≠ 0 then 63 - log2x64 one
  else 64 + (63 - log2x64 (RumorMill.firstLong (sortKey source) ^^^ RumorMill.firstLong (sortKey dest)))

/-- What `Address_getPrefix` returns. -/
def prefixOf (address : Address) : BitVec 32 :=
  BitVec.ofNat 32 (((address.ip6.drop 8).take 4).foldl (fun n b => n * 256 + b.toNat) 0)

def whichIsWorse (s : NodeStore) (one two : NodeId) : Er NodeId := do
  let peerOne ← isPeer s one
  let peerTwo ← isPeer s two
  -- a peer is nevar worse
  if peerOne && !peerTwo then .ret two
  else if peerTwo && !peerOne then .ret one
  else do
    let nodeOne ← s.node one
    let nodeTwo ← s.node two
    let farOne := nodeOne.address.path = UINT64_MAX
    let farTwo := nodeTwo.address.path = UINT64_MAX
    if farOne ∧ ¬ farTwo then .ret one
    else if farTwo ∧ ¬ farOne then .ret two
    else if nodeOne.address.protocolVersion < Version.CURRENT_PROTOCOL ∧
        nodeTwo.address.protocolVersion ≥ Version.CURRENT_PROTOCOL then .ret one
    else if nodeTwo.address.protocolVersion < Version.CURRENT_PROTOCOL ∧
        nodeOne.address.protocolVersion ≥ Version.CURRENT_PROTOCOL then .ret two
    else do
      let self ← s.node s.selfNode
      let selfPrefix := prefixOf self.address
      let distOne := (prefixOf nodeOne.address ^^^ selfPrefix).setWidth 64 + nodeOne.cost
      let distTwo := (prefixOf nodeTwo.address ^^^ selfPrefix).setWidth 64 + nodeTwo.cost
      .ret (if distOne < distTwo then two else one)

/-- The worse of a node and the worst so far. -/
def worseThan (s : NodeStore) (n : NodeId) (worst : Option NodeId) : Er (Option NodeId) :=
  match worst with
  | none => .ret (some n)
  | some worst => do
    let worse ← whichIsWorse s n worst
    .ret (some (if worse = n then n else worst))

/-- The insertion of a node into the list of `NodeStore_getNodesForBucket`, which has room for `count`. -/
def insertBucket (s : NodeStore) : Nat → NodeId → List NodeId → Er (List NodeId)
  | 0, _, nodes => .ret nodes
  | _ + 1, newNode, [] => .ret [newNode]
  | count + 1, newNode, n :: nodes => do
    let new ← s.node newNode
    let old ← s.node n
    let swap ←
      if new.marked && !old.marked then .ret true
      else do
        let worse ← whichIsWorse s n newNode
        .ret (decide (worse = n))
    if swap then do
      let nodes ← insertBucket s count n nodes
      .ret (newNode :: nodes)
    else do
      let nodes ← insertBucket s count newNode nodes
      .ret (n :: nodes)

/-- The loop of `NodeStore_getNodesForBucket`. -/
def nodesForBucketFrom (s : NodeStore) (self : Address) (bucket count : Nat) (nodes : List NodeId) :
    List NodeId → Er (List NodeId)
  | [] => .ret nodes
  | n :: ns => do
    let nn ← s.node n
    if nn.cost = UINT64_MAX then nodesForBucketFrom s self bucket count nodes ns
    else if bucketForAddr self nn.address = bucket then do
      let nodes ← insertBucket s count n nodes
      nodesForBucketFrom s self bucket count nodes ns
    else nodesForBucketFrom s self bucket count nodes ns

def getNodesForBucket (s : NodeStore) (bucket count : Nat) : Er (List NodeId) := do
  let self ← s.node s.selfNode
  nodesForBucketFrom s self.address bucket count [] s.nodeTree

def bucketSize : Nat := 4

def bucketNumber : Nat := 128

/-- These nodes get this mark. -/
def markAll (s : NodeStore) (marked : Bool) : List NodeId → Er NodeStore
  | [] => .ret s
  | n :: ns => do
    let node ← s.node n
    markAll (s.setNode n { node with marked }) marked ns

def markNodesForBucket (s : NodeStore) (bucket count : Nat) : Er NodeStore := do
  let nodes ← getNodesForBucket s bucket count
  markAll s true nodes

/-- The loop of `markKeyspaceNodes` over these buckets. -/
def markBuckets (s : NodeStore) : List Nat → Er NodeStore
  | [] => .ret s
  | bucket :: buckets => do
    let s ← markNodesForBucket s bucket bucketSize
    markBuckets s buckets

def markKeyspaceNodes (s : NodeStore) : Er NodeStore := markBuckets s (List.range bucketNumber)

/-- The first loop of `getWorstNode`: best parents are marked, and the worst of the unreachable nodes is found. -/
def worstUnreachable (s : NodeStore) (worst : Option NodeId) : List NodeId → Er (NodeStore × Option NodeId)
  | [] => .ret (s, worst)
  | n :: ns => do
    let nn ← s.node n
    match nn.bestParent with
    | some l => do
      let parentLink ← s.link l
      let parent ← s.node parentLink.parent
      worstUnreachable (s.setNode parentLink.parent { parent with marked := true }) worst ns
    | none => do
      let worst ← worseThan s n worst
      worstUnreachable s worst ns

/-- The second loop of `getWorstNode`: the worst of the nodes without a mark; marks are taken away. -/
def worstUnmarked (s : NodeStore) (worst : Option NodeId) : List NodeId → Er (NodeStore × Option NodeId)
  | [] => .ret (s, worst)
  | n :: ns => do
    let nn ← s.node n
    if nn.marked then worstUnmarked (s.setNode n { nn with marked := false }) worst ns
    else do
      let worst ← worseThan s n worst
      worstUnmarked s worst ns

/-- The third loop of `getWorstNode`. -/
def worstOfAll (s : NodeStore) (worst : Option NodeId) : List NodeId → Er (Option NodeId)
  | [] => .ret worst
  | n :: ns => do
    let worst ← worseThan s n worst
    worstOfAll s worst ns

def getWorstNode (s : NodeStore) : Er (NodeStore × NodeId) := do
  let (s, worst) ← worstUnreachable s none s.nodeTree
  match worst with
  | some worst => do
    let s ← markAll s false s.nodeTree
    .ret (s, worst)
  | none => do
    -- mark the nodes that we need to protect for keyspace reasons
    let s ← markKeyspaceNodes s
    let (s, worst) ← worstUnmarked s none s.nodeTree
    match worst with
    | some worst => .ret (s, worst)
    | none => do
      let worst ← worstOfAll s none s.nodeTree
      match worst with
      | some worst => .ret (s, worst)
      | none => .abort "worst"

/-- The links are unlinked one after the other. -/
def unlinkAll (paranoia : Bool) (s : NodeStore) : List LinkId → Er NodeStore
  | [] => .ret s
  | l :: ls => do
    let s ← unlinkNodes paranoia s l
    unlinkAll paranoia s ls

/-- `destroyNode`. The self node is allocated together with the store. -/
def destroyNode (paranoia : Bool) (s : NodeStore) (n : NodeId) : Er NodeStore := do
  let node ← s.node n
  let s ← unlinkAll paranoia s node.peerTree
  let node ← s.node n
  let s ← unlinkAll paranoia s node.reversePeers
  let node ← s.node n
  .assertTrue node.bestParent.isNone "!Node_getBestParent(node)"
  assertIfParanoid paranoia (nodeForIp s node.address.ip6 = some n) "node == RB_FIND(NodeRBTree, &store->nodeTree, node)"
  if n = s.selfNode then .abort "use of the store after it was freed"
  else .ret { s with nodeTree := s.nodeTree.erase n, nodeCount := s.nodeCount - 1, nodes := s.nodes.free n }

/-! ## Costs -/

def latencyWindow : Nat := 8

def costAfterDecay (oldCost : BitVec 32) : BitVec 32 :=
  let newCost := oldCost.toNat - oldCost.toNat / latencyWindow
  if newCost < 1024 then 1024 else BitVec.ofNat 32 newCost

def costAfterTimeout (oldCost : BitVec 32) : BitVec 32 :=
  let newCost := oldCost.toNat * latencyWindow / (latencyWindow - 1)
  if newCost > UINT32_MAX.toNat then UINT32_MAX else BitVec.ofNat 32 newCost

/-- `calcNextCost`; the cost is cut to 32 bits on the way to `costAfterDecay`. -/
def calcNextCost (oldCost : BitVec 64) : Er (BitVec 32) := do
  let out := costAfterDecay (oldCost.setWidth 32)
  .assertTrue (out ≥ 1024) "out >= 1024 && out != UINT64_MAX"
  .ret out

/-! ## The operations -/

section
variable (C : Crypto) (paranoia : Bool)

/-- The walk of `discoverNode` along a path that was not accepted: the link whose child cannot be left that way. -/
def badLink (s : NodeStore) : Nat → BitVec 64 → LinkId → Er (Option LinkId)
  | 0, _, _ => .spin
  | fuel + 1, path, lastLink => do
    let (path, nextLink) ← firstHopInPath s path lastLink
    -- discoverNode() failed for some other reason
    if path = firstHopInPath_NO_NEXT_LINK then .ret none
    else if path = firstHopInPath_INVALID then .ret nextLink
    else
      match nextLink with
      | none => .abort "nextLink is NULL"
      | some nextLink => badLink s fuel path nextLink

/-- The first loop of `discoverNode`. -/
def discoverLoop (path : BitVec 64) (child : NodeId) (inverseLinkEncodingFormNumber : Int) :
    Nat → NodeStore → Er (NodeStore × Option LinkId)
  | 0, _ => .spin
  | fuel + 1, s => do
    let (s, link) ← discoverLink C paranoia s path child inverseLinkEncodingFormNumber
    match link with
    | some l => .ret (s, some l)
    | none => do
      -- we might have a broken link in the store which is causing new links to be rejected
      let selfLink ← s.theSelfLink
      let lastLink ← badLink s rounds path selfLink
      match lastLink with
      | none => .ret (s, none)
      | some lastLink => do
        let link ← s.link lastLink
        let node ← s.node link.child
        if routesThrough path node.address.path then do
          .assertTrue (lastLink ≠ selfLink) "lastLink != store->selfLink"
          let s ← unlinkNodes paranoia s lastLink
          discoverLoop path child inverseLinkEncodingFormNumber fuel s
        else .ret (s, none)

/-- The second loop of `discoverNode`: nodes are dropped until the store is no longer too full. -/
def evict : Nat → NodeStore → Option LinkId → Er (NodeStore × Option LinkId)
  | 0, _, _ => .spin
  | fuel + 1, s, link =>
    if s.nodeCount - s.peerCount > s.nodeCapacity ∨ s.linkCount > s.linkCapacity then do
      let (s, worst) ← getWorstNode s
      let peer ← isPeer s worst
      .assertTrue (!peer) "!isPeer(worst, store)"
      let link ←
        match link with
        | none => .ret none
        | some l => do
          let ends ← s.link l
          .ret (if worst = ends.parent ∨ worst = ends.child then none else some l)
      let s ← destroyNode paranoia s worst
      evict fuel (freePendingLinks s) link
    else .ret (s, link)

/-- What `discoverNode` asks at its end: the link that is returned is found among those of its parent. -/
def assertFound (s : NodeStore) (parent : NodeId) : Option LinkId → Er Unit
  | none => .ret ()
  | some l =>
    if paranoia then do
      let node ← s.node parent
      .assertTrue ((node.peerTree.find? fun x => s.label x = s.label l) = some l)
        "!link || RB_FIND(PeerRBTree, &parent->peerTree, link) == link"
    else .ret ()

/-- What `discoverNode` does once it knows the node for the address, or that there is none. -/
def discoverChild (s : NodeStore) (address : Address) (scheme : Scheme) (inverseLinkEncodingFormNumber : Int)
    (known : Option NodeId) : Er (NodeStore × Option LinkId) := do
  let child := known.getD s.nodes.next
  let s :=
    if known.isSome then s
    else { s with
      nodes := s.nodes.alloc
        { cost := 0, marked := false, address, encodingScheme := scheme, peerTree := [], reversePeers := []
          bestParent := none } }
  let (s, link) ← discoverLoop C paranoia address.path child inverseLinkEncodingFormNumber rounds s
  match link with
  | none => do
    check s
    .ret (if known.isSome then s else { s with nodes := s.nodes.free child }, none)
  | some l => do
    let link ← s.link l
    check s
    let newLinkCost ← calcNextCost (link.linkCost.setWidth 64)
    let s ← handleLinkNews s l newLinkCost
    check s
    let (s, out) ← evict paranoia rounds (freePendingLinks s) (some l)
    check s
    assertFound paranoia s link.parent out
    .ret (s, out)

def discoverNode (s : NodeStore) (address : Address) (scheme : Scheme) (inverseLinkEncodingFormNumber : Int) :
    Er (NodeStore × Option LinkId) := do
  let selfLink ← s.theSelfLink
  let self ← s.link selfLink
  match nodeForIp s address.ip6 with
  | none => discoverChild C paranoia s address scheme inverseLinkEncodingFormNumber none
  | some child =>
    if child = self.child then .ret (s, none)
    else do
      let node ← s.node child
      if node.encodingScheme ≠ scheme then do
        -- box reset *and* they just updated and changed their encoding scheme
        let s ← addToMill C s node.address
        -- the message came from far away and we will not trust it
        if address.path > (node.address.path ||| (node.address.path <<< 3)) then .ret (s, none)
        else do
          let s ← destroyNode paranoia s child
          discoverChild C paranoia s address scheme inverseLinkEncodingFormNumber none
      else
        let address' := { node.address with protocolVersion := address.protocolVersion }
        discoverChild C paranoia (s.setNode child { node with address := address' }) address scheme
          inverseLinkEncodingFormNumber (some child)

def NodeStore_discoverNode (s : NodeStore) (address : Address) (scheme : Scheme)
    (inverseLinkEncodingFormNumber : Int) : Er (NodeStore × Option LinkId) := do
  let (s, out) ← discoverNode C paranoia { s with disarmCheck := s.disarmCheck + 1 } address scheme
    inverseLinkEncodingFormNumber
  let s := { s with disarmCheck := s.disarmCheck - 1 }
  check s
  .ret (s, out)

def disconnectedPeer (s : NodeStore) (path : BitVec 64) : Er NodeStore := do
  let nl ← linkForPath s path
  match nl with
  | none => .ret s
  | some nl => unlinkNodes paranoia s nl

def addLinkToMill (s : NodeStore) (link : Link) : Er NodeStore := do
  let child ← s.node link.child
  let parent ← s.node link.parent
  let path ← getRouteLabel s parent.address.path link.cannonicalLabel
  .assertTrue (!getRouteLabel_ERR path) "!NodeStore_getRouteLabel_ERR(addr.path)"
  addToMill C s { child.address with path }

/-- What `NodeStore_brokenLink` asks of the link at the end of the path under `PARANOIA`. -/
def assertLinkForPath (s : NodeStore) (path : BitVec 64) (l : LinkId) : Er Unit :=
  if paranoia then do
    let found ← linkForPath s path
    .assertTrue (found = some l) "NodeStore_linkForPath(nodeStore, path) == link"
  else .ret ()

/-- The loop of `NodeStore_brokenLink`. -/
def brokenLinkFrom (s : NodeStore) (path pathAtErrorHop : BitVec 64) : Nat → LinkId → BitVec 64 → Er NodeStore
  | 0, _, _ => .spin
  | fuel + 1, l, thisPath => do
    let (nextPath, out) ← firstHopInPath s thisPath l
    let l := out.getD l
    .assertTrue (log2x64 thisPath < 63) "1 is shifted by 64"
    let mask := (1#64 <<< (log2x64 thisPath + 1)) - 1
    let link ← s.link l
    let parent ← s.node link.parent
    let child ← s.node link.child
    let cannonicalPath ← getRouteLabel s parent.address.path link.cannonicalLabel
    .assertTrue (!getRouteLabel_ERR cannonicalPath || cannonicalPath = UINT64_MAX || parent.address.path = UINT64_MAX)
      "!NodeStore_getRouteLabel_ERR(cannonicalPath) || cannonicalPath == UINT64_MAX || link->parent->address.path == UINT64_MAX"
    if pathAtErrorHop &&& mask ≥ nextPath then do
      let cannPathAtErrorHop ← EncodingScheme.convertLabel child.encodingScheme.forms (pathAtErrorHop &&& mask)
        EncodingScheme.CANNONICAL
      if cannPathAtErrorHop = UINT64_MAX ∨ cannPathAtErrorHop &&& mask ≠ thisPath then
        -- error, or wrong path
        nextRound fuel l nextPath
      else if path ≠ cannonicalPath ∧ !getRouteLabel_ERR cannonicalPath then addLinkToMill C s link
      else unlinkNodes paranoia s l
    else if firstHopInPath_NO_NEXT_LINK = nextPath ∧ thisPath = 1 then do
      assertLinkForPath paranoia s path l
      -- probably caused by long path
      if path >>> 56 ≠ 0 then .ret s
      else if path ≠ cannonicalPath ∧ !getRouteLabel_ERR cannonicalPath then addLinkToMill C s link
      else unlinkNodes paranoia s l
    else nextRound fuel l nextPath
where
  /-- The end of the loop's body. -/
  nextRound (fuel : Nat) (l : LinkId) (nextPath : BitVec 64) : Er NodeStore :=
    if firstHopInPath_NO_NEXT_LINK = nextPath then .ret s
    else if firstHopInPath_INVALID = nextPath then .ret s
    else brokenLinkFrom s path pathAtErrorHop fuel l nextPath

def brokenLink (s : NodeStore) (path pathAtErrorHop : BitVec 64) : Er NodeStore := do
  let selfLink ← s.theSelfLink
  brokenLinkFrom C paranoia s path pathAtErrorHop rounds selfLink path

/-- The loop of `updatePathCost`. -/
def updatePathCost : Nat → NodeStore → LinkId → BitVec 64 → Er NodeStore
  | 0, _, _, _ => .spin
  | fuel + 1, s, l, pathFrag => do
    let (nextPath, nextLink) ← firstHopInPath s pathFrag l
    if nextPath ≥ firstHopInPath_NO_NEXT_LINK then .ret s
    else
      match nextLink with
      | none => .abort "nextLink is NULL"
      | some nextLink => do
        let link ← s.link l
        let next ← s.link nextLink
        assertIfParanoid paranoia (next.parent = link.child) "nextLink->parent == link->child"
        let newLinkCost ← calcNextCost (next.linkCost.setWidth 64)
        check s
        let s ← handleLinkNews s nextLink newLinkCost
        check s
        updatePathCost fuel s nextLink nextPath

def pathResponse (s : NodeStore) (path : BitVec 64) : Er NodeStore := do
  let link ← linkForPath s path
  match link with
  | none => .ret s
  | some l =>
    if some l = s.selfLink then .ret s
    else do
      let link ← s.link l
      let node ← s.node link.child
      let _ ← calcNextCost (if node.address.path = path then node.cost else UINT64_MAX)
      let selfLink ← s.theSelfLink
      let s ← updatePathCost paranoia rounds { s with disarmCheck := s.disarmCheck + 1 } selfLink path
      let s := { s with disarmCheck := s.disarmCheck - 1 }
      check s
      .ret s

def pathTimeout (s : NodeStore) (path : BitVec 64) : Er NodeStore := do
  let link ← linkForPath s path
  match link with
  | none => .ret s
  | some l => do
    let link ← s.link l
    let node ← s.node link.child
    -- we probably did not ping it along the node's best path
    let s ← addToMill C s node.address
    if node.address.path ≠ path then .ret s
    else do
      let parent ← s.node link.parent
      -- all we know for sure is that link->child didn't respond
      let s ← if link.parent ≠ s.selfNode then addToMill C s parent.address else .ret s
      check s
      let s ← handleLinkNews s l (costAfterTimeout link.linkCost)
      check s
      .ret s

def DEFAULT_NODE_CAPACITY : Int := 128

def DEFAULT_LINK_CAPACITY : Int := 4096

def new (myAddress : Address) (renumberMill : RumorMill) : Er NodeStore := do
  let selfNode : Node :=
    { cost := 0, marked := false, address := myAddress, encodingScheme := .v358, peerTree := [], reversePeers := []
      bestParent := none }
  let out : NodeStore :=
    { nodes := Heap.empty.alloc selfNode, links := Heap.empty, selfNode := 0, selfLink := none, nodeTree := []
      linksToFree := [], renumberMill, peerCount := 0, linkedNodes := 0, nodeCount := 0
      nodeCapacity := DEFAULT_NODE_CAPACITY, linkCount := 0, linkCapacity := DEFAULT_LINK_CAPACITY, disarmCheck := 0 }
  let (out, _) ← linkNodes paranoia out 0 0 1 0 0 1
  let self ← out.node 0
  .ret (out.setNode 0 { self with address := { self.address with protocolVersion := Version.CURRENT_PROTOCOL } })

end

end NodeStore

end Hyperboria
