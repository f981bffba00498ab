/-
What the operations of the node store leave alone. Looking for best parents changes costs,
paths, marks and best parents only (`SameWiring`): which links there are, between which
nodes and with which labels, is changed in two places, where a link is made (`Attached`)
and where it is taken out (`Detached`).
-/
import Hyperboria.Dht.NodeStore
import Hyperboria.Switch.Directors

namespace Hyperboria

open Er Option

/-- What a node has, apart from how it is reached. -/
def Node.frame (node : Node) : Node :=
  { node with
    cost := 0, marked := false, bestParent := none
    address := { node.address with path := 0, protocolVersion := 0 } }

/-- What a link has, apart from its cost. -/
def Link.frame (link : Link) : Link := { link with linkCost := 0, nextInSplitList := none }

section
variable {a b : Node}

variable (h : a.frame = b.frame)
include h

theorem Node.peerTree_of_frame : a.peerTree = b.peerTree := congrArg (·.peerTree) h

theorem Node.reversePeers_of_frame : a.reversePeers = b.reversePeers :=
  congrArg (·.reversePeers) h

theorem Node.scheme_of_frame : a.encodingScheme = b.encodingScheme :=
  congrArg (·.encodingScheme) h

theorem Node.ip6_of_frame : a.address.ip6 = b.address.ip6 := congrArg (·.address.ip6) h

end

section
variable {a b : Link}

variable (h : a.frame = b.frame)
include h

theorem Link.parent_of_frame : a.parent = b.parent := congrArg (·.parent) h

theorem Link.child_of_frame : a.child = b.child := congrArg (·.child) h

theorem Link.label_of_frame : a.cannonicalLabel = b.cannonicalLabel :=
  congrArg (·.cannonicalLabel) h

theorem Link.inverse_of_frame :
    a.inverseLinkEncodingFormNumber = b.inverseLinkEncodingFormNumber :=
  congrArg (·.inverseLinkEncodingFormNumber) h

theorem Link.unlinked_of_frame : a.unlinked = b.unlinked := congrArg (·.unlinked) h

end

namespace NodeStore

/-- A link that has not been taken out. -/
def Live (s : NodeStore) (l : LinkId) (link : Link) : Prop := s.links.get? l = some link ∧ link.unlinked = false

section
variable {s : NodeStore} {n : NodeId} {node : Node} {l : LinkId} {link : Link}

theorem node_eq_ret : s.node n = .ret node ↔ s.nodes.get? n = some node := by
  unfold NodeStore.node
  cases s.nodes.get? n with
  | none => simp
  | some node => simp

theorem link_eq_ret : s.link l = .ret link ↔ s.Live l link := by
  unfold NodeStore.link Live
  cases s.links.get? l with
  | none => simp
  | some link' =>
    cases hunlinked : link'.unlinked with
    | true =>
      simp only [hunlinked, if_true, some.injEq, reduceCtorEq, false_iff, not_and]
      intro h
      rw [← h, hunlinked]
      decide
    | false =>
      simp only [hunlinked, Bool.false_eq_true, if_false, ret.injEq, some.injEq, iff_self_and]
      intro h
      rw [← h, hunlinked]

theorem Live.unique {link'} (h : s.Live l link) (h' : s.Live l link') : link = link' :=
  some.inj (h.1.symm.trans h'.1)

theorem label_eq (h : s.links.get? l = some link) : s.label l = link.cannonicalLabel := by
  unfold label
  rw [h]
  rfl

variable {α : Type} {post : α → Prop}

theorem ensures_node {f} (h : ∀ node, s.nodes.get? n = some node → (f node).Ensures post) :
    (s.node n >>= f).Ensures post :=
  Er.Ensures.bind (fun _ => node_eq_ret.mp) h

theorem ensures_link {f} (h : ∀ link, s.Live l link → (f link).Ensures post) :
    (s.link l >>= f).Ensures post :=
  Er.Ensures.bind (fun _ => link_eq_ret.mp) h

end

/-! ## Looking for best parents -/

/-- The same nodes and the same links between them. -/
structure SameWiring (s s' : NodeStore) : Prop where
  node : ∀ n, (s'.nodes.get? n).map Node.frame = (s.nodes.get? n).map Node.frame
  link : ∀ l, (s'.links.get? l).map Link.frame = (s.links.get? l).map Link.frame
  nextNode : s'.nodes.next = s.nodes.next
  nextLink : s'.links.next = s.links.next
  selfNode : s'.selfNode = s.selfNode
  selfLink : s'.selfLink = s.selfLink
  nodeTree : s'.nodeTree = s.nodeTree
  linksToFree : s'.linksToFree = s.linksToFree
  peerCount : s'.peerCount = s.peerCount
  nodeCount : s'.nodeCount = s.nodeCount
  nodeCapacity : s'.nodeCapacity = s.nodeCapacity
  linkCount : s'.linkCount = s.linkCount
  linkCapacity : s'.linkCapacity = s.linkCapacity

namespace SameWiring

variable {s s' s'' : NodeStore} {n : NodeId} {node : Node} {l : LinkId} {link : Link}

theorem refl (s : NodeStore) : SameWiring s s :=
  ⟨fun _ => rfl, fun _ => rfl, rfl, rfl, rfl, rfl, rfl, rfl, rfl, rfl, rfl, rfl, rfl⟩

variable (h : SameWiring s s')
include h

theorem trans (h' : SameWiring s' s'') : SameWiring s s'' where
  node n := (h'.node n).trans (h.node n)
  link l := (h'.link l).trans (h.link l)
  nextNode := h'.nextNode.trans h.nextNode
  nextLink := h'.nextLink.trans h.nextLink
  selfNode := h'.selfNode.trans h.selfNode
  selfLink := h'.selfLink.trans h.selfLink
  nodeTree := h'.nodeTree.trans h.nodeTree
  linksToFree := h'.linksToFree.trans h.linksToFree
  peerCount := h'.peerCount.trans h.peerCount
  nodeCount := h'.nodeCount.trans h.nodeCount
  nodeCapacity := h'.nodeCapacity.trans h.nodeCapacity
  linkCount := h'.linkCount.trans h.linkCount
  linkCapacity := h'.linkCapacity.trans h.linkCapacity

theorem node_before (hn : s'.nodes.get? n = some node) :
    ∃ old, s.nodes.get? n = some old ∧ node.frame = old.frame := by
  have hmap := h.node n
  rw [hn] at hmap
  cases hold : s.nodes.get? n with
  | none =>
    rw [hold] at hmap
    cases hmap
  | some old =>
    rw [hold] at hmap
    exact ⟨old, rfl, some.inj hmap⟩

theorem node_after (hn : s.nodes.get? n = some node) :
    ∃ new, s'.nodes.get? n = some new ∧ new.frame = node.frame := by
  have hmap := h.node n
  rw [hn] at hmap
  cases hnew : s'.nodes.get? n with
  | none =>
    rw [hnew] at hmap
    cases hmap
  | some new =>
    rw [hnew] at hmap
    exact ⟨new, rfl, some.inj hmap⟩

theorem live_before (hl : s'.Live l link) : ∃ old, s.Live l old ∧ link.frame = old.frame := by
  have hmap := h.link l
  rw [hl.1] at hmap
  cases hold : s.links.get? l with
  | none =>
    rw [hold] at hmap
    cases hmap
  | some old =>
    rw [hold] at hmap
    have hframe := some.inj hmap
    exact ⟨old, ⟨hold, (Link.unlinked_of_frame hframe).symm.trans hl.2⟩, hframe⟩

theorem live_after (hl : s.Live l link) : ∃ new, s'.Live l new ∧ new.frame = link.frame := by
  have hmap := h.link l
  rw [hl.1] at hmap
  cases hnew : s'.links.get? l with
  | none =>
    rw [hnew] at hmap
    cases hmap
  | some new =>
    rw [hnew] at hmap
    have hframe := some.inj hmap
    exact ⟨new, ⟨hnew, (Link.unlinked_of_frame hframe).trans hl.2⟩, hframe⟩

theorem label (l : LinkId) : s'.label l = s.label l := by
  have hmap := h.link l
  unfold NodeStore.label
  cases hold : s.links.get? l with
  | none =>
    rw [hold] at hmap
    cases hnew : s'.links.get? l with
    | none => rfl
    | some new =>
      rw [hnew] at hmap
      cases hmap
  | some old =>
    rw [hold] at hmap
    cases hnew : s'.links.get? l with
    | none =>
      rw [hnew] at hmap
      cases hmap
    | some new =>
      rw [hnew] at hmap
      have hframe : new.frame = old.frame := some.inj hmap
      exact Link.label_of_frame hframe

omit h

theorem setNode (hn : s.nodes.get? n = some node) {new} (hframe : new.frame = node.frame) :
    SameWiring s (s.setNode n new) := by
  refine ⟨fun m => ?_, fun _ => rfl, Heap.next_set, rfl, rfl, rfl, rfl, rfl, rfl, rfl, rfl, rfl, rfl⟩
  show ((s.nodes.set n new).get? m).map Node.frame = _
  rw [Heap.get?_set hn]
  split
  next hm =>
    rw [hm, hn]
    exact congrArg some hframe
  · rfl

theorem setLink (hl : s.links.get? l = some link) {new} (hframe : new.frame = link.frame) :
    SameWiring s (s.setLink l new) := by
  refine ⟨fun _ => rfl, fun k => ?_, rfl, Heap.next_set, rfl, rfl, rfl, rfl, rfl, rfl, rfl, rfl, rfl⟩
  show ((s.links.set l new).get? k).map Link.frame = _
  rw [Heap.get?_set hl]
  split
  next hk =>
    rw [hk, hl]
    exact congrArg some hframe
  · rfl

end SameWiring

variable {s : NodeStore}

theorem setParentCostAndPath_sameWiring (s : NodeStore) (n : NodeId) (best : Option LinkId) (cost path : BitVec 64) :
    (setParentCostAndPath s n best cost path).Ensures (SameWiring s) := by
  have hset : (do let node ← s.node n
                  Er.ret (s.setNode n { node with
                    bestParent := best, cost, address := { node.address with path } })).Ensures (SameWiring s) :=
    ensures_node fun node hn => ensures_ret (SameWiring.setNode hn rfl)
  cases best with
  | none => exact ensures_bind fun _ => ensures_bind fun _ => hset
  | some l =>
    refine ensures_bind fun link => ensures_bind fun _ => ensures_bind fun _ => ensures_bind fun _ => ?_
    split
    · exact ensures_bind fun _ => ensures_bind fun _ => hset
    · exact ensures_bind fun _ => ensures_bind fun _ => hset

theorem markChildren_sameWiring (s : NodeStore) (cost bestCost : BitVec 64) (ls : List LinkId) :
    (markChildren s cost bestCost ls).Ensures (SameWiring s) := by
  induction ls generalizing s with
  | nil => exact ensures_ret (SameWiring.refl s)
  | cons l ls ih =>
    refine ensures_link fun link hl => ensures_node fun child hchild => ?_
    split
    · intro s' hs'
      have hmark : SameWiring s (s.setNode link.child { child with marked := true }) := SameWiring.setNode hchild rfl
      exact hmark.trans (ih _ s' hs')
    · exact ih s

theorem findBestParent0_sameWiring (s : NodeStore) (n : NodeId) :
    (findBestParent0 s n).Ensures fun r => SameWiring s r.1 := by
  refine ensures_node fun node hn => ?_
  have hunmark : SameWiring s (s.setNode n { node with marked := false }) := SameWiring.setNode hn rfl
  dsimp only
  split
  · exact ensures_ret hunmark
  refine ensures_bind fun best => ?_
  split
  · refine Er.Ensures.bind (markChildren_sameWiring _ _ _ _) fun s₁ h₁ => ?_
    refine Er.Ensures.bind (setParentCostAndPath_sameWiring _ _ _ _ _) fun s₂ h₂ => ensures_ret ?_
    have hcount : ∀ k, SameWiring s { s.setNode n { node with marked := false } with linkedNodes := k } := fun k =>
      ⟨hunmark.node, hunmark.link, hunmark.nextNode, rfl, rfl, rfl, rfl, rfl, rfl, rfl, rfl, rfl, rfl⟩
    exact ((hcount _).trans h₁).trans h₂
  · exact ensures_ret hunmark

theorem sweep_sameWiring (s : NodeStore) (ns : List NodeId) : (sweep s ns).Ensures fun r => SameWiring s r.1 := by
  induction ns generalizing s with
  | nil => exact ensures_ret (SameWiring.refl s)
  | cons n ns ih =>
    refine ensures_node fun node hn => ?_
    split
    · refine Er.Ensures.bind (findBestParent0_sameWiring s n) fun r h => ?_
      refine Er.Ensures.bind (ih r.1) fun r' h' => ensures_ret ?_
      exact h.trans h'
    · exact ih s

theorem update_cases {l} {diff} {s'} (h : update s l diff = .ret s') :
    ∃ link linkCost, s.Live l link ∧ s' = s.setLink l { link with linkCost } ∧ 1024 ≤ linkCost.toNat ∧
      (diff + link.linkCost.toNat = UINT32_MAX.toNat → linkCost = UINT32_MAX) := by
  obtain ⟨link, hl, oneHop, -, h⟩ := bind_inv2 h
  refine ⟨link, _, link_eq_ret.mp hl, (ret.inj h).symm, ?_, ?_⟩
  · have hmax : UINT32_MAX.toNat = 4294967295 := by decide
    have hfirst : 1024 ≤ (if diff + link.linkCost.toNat > UINT32_MAX.toNat then UINT32_MAX
        else if diff + link.linkCost.toNat < 1024 then 1024
        else BitVec.ofInt 32 (diff + link.linkCost.toNat) : BitVec 32).toNat := by
      split
      · omega
      split
      · decide
      · rw [BitVec.toNat_ofInt]
        omega
    have hsecond : ∀ (few : Bool) (b c : BitVec 32), 1024 ≤ b.toNat → 1024 ≤ c.toNat →
        1024 ≤ (if few then b else c).toNat := by
      intro few b c hb hc
      cases few with
      | true => exact hb
      | false => exact hc
    exact hsecond _ _ _ (by decide) hfirst
  · intro hcost
    have hmax : UINT32_MAX.toNat = 4294967295 := by decide
    have hofInt : BitVec.ofInt 32 (diff + link.linkCost.toNat) = UINT32_MAX := by
      rw [hcost]
      decide
    rw [if_neg (show ¬ diff + (link.linkCost.toNat : Int) > UINT32_MAX.toNat by omega),
      if_neg (show ¬ diff + (link.linkCost.toNat : Int) < 1024 by omega), hofInt, if_neg]
    rw [Bool.and_eq_true, not_and]
    intro _
    decide

theorem handleLinkNews_cases {l} {cost} {s'} (h : handleLinkNews s l cost = .ret s') :
    ∃ link s₁ modified, s.Live l link ∧ update s l (cost.toNat - link.linkCost.toNat) = .ret s₁ ∧
      findBestParent s₁ link.child = .ret (s', modified) := by
  obtain ⟨link, hl, s₁, hupdate, h⟩ := bind_inv2 h
  obtain ⟨⟨s₂, modified⟩, hfind, h⟩ := bind_inv h
  dsimp only at h
  refine ⟨link, s₁, modified, link_eq_ret.mp hl, hupdate, ?_⟩
  split at h
  · obtain ⟨-, -, h⟩ := bind_inv h
    cases h
    exact hfind
  · cases h
    exact hfind

end NodeStore

end Hyperboria
