/-
The operations of the node store as sequences of moves (`Operation.moves`), and the stores that
can come about (`Reachable`): they are sound (`Reachable.sound`).
-/
import Hyperboria.Crypto.Symbolic
import Hyperboria.Dht.Eviction

namespace Hyperboria

open Er List Option

open EncodingScheme (Scheme)

namespace NodeStore

/-! ## Discovery -/

section
variable {C : Crypto} {paranoia : Bool} {s s' : NodeStore}

theorem joins_alloc (hs : Wired s) {node : Node} (hlength : node.address.ip6.length = 16)
    (hnone : nodeForIp s node.address.ip6 = none) : Joins { s with nodes := s.nodes.alloc node } s.nodes.next := by
  have hget : ∀ m, (s.nodes.alloc node).get? m = if m = s.nodes.next then some node else s.nodes.get? m := fun m =>
    Heap.get?_alloc
  refine ⟨fun heq => ?_, node, (hget _).trans (if_pos rfl), hlength, .inr ?_⟩
  · obtain ⟨self, hself, _⟩ := hs.listed.node s.selfNode hs.selfTree
    have hlt := Heap.lt_next hself
    exact Nat.lt_irrefl _ (heq.trans_lt hlt)
  · refine nodeForIp_eq_none_iff.mpr fun m hm other hother => ?_
    have hother := (hget m).symm.trans hother
    split at hother
    next heq =>
      obtain ⟨old, hold, _⟩ := hs.listed.node m hm
      have hlt := Heap.lt_next hold
      exact absurd (heq ▸ hlt) (Nat.lt_irrefl _)
    · exact nodeForIp_eq_none_iff.mp hnone m hm other hother

/-- A discovery up to the point where nodes are dropped. -/
structure Found (s : NodeStore) (l : LinkId) (s' : NodeStore) : Prop where
  moves : Moves s s'
  link : s.links.next ≤ l ∧ l < s'.links.next

variable {l : LinkId} {out : Option LinkId}

/-- The end of `discoverNode`, once a link has been made. -/
theorem found_of_linked {s₁ s₂ : NodeStore} (hprepared : Prepared s s₁) (hlinked : Linked s₁ l s₂)
    (h : (do
      let link ← s₂.link l
      check s₂
      let newLinkCost ← calcNextCost (link.linkCost.setWidth 64)
      let s ← handleLinkNews s₂ l newLinkCost
      check s
      let (s, out) ← evict paranoia rounds (freePendingLinks s) (some l)
      check s
      assertFound paranoia s link.parent out
      Er.ret (s, out)) = .ret (s', out)) :
    ∃ s₃, Found s l s₃ ∧ evict paranoia rounds s₃ (some l) = .ret (s', out) := by
  obtain ⟨link, _, _, _, h⟩ := bind_inv2 h
  obtain ⟨cost, _, s₃, hnews, h⟩ := bind_inv2 h
  obtain ⟨_, _, ⟨s₄, out'⟩, hevict, h⟩ := bind_inv2 h
  obtain ⟨_, _, h⟩ := bind_inv h
  cases eq_of_bind_ret h
  refine ⟨_, ?_, hevict⟩
  obtain ⟨link, linkCost, hnews, _⟩ := handleLinkNews_news hnews
  obtain ⟨_, _, hnext⟩ := hprepared.moves.self
  refine ⟨?_, hlinked.link.1 ▸ hnext, ?_⟩
  · exact ((hprepared.moves.tail hlinked.move).tail (.news hnews)).tail .freePending
  · have hfree : (freePendingLinks s₃).links.next = s₃.links.next := Heap.next_foldl_free
    rw [hfree, hnews.sameWiring.nextLink]
    exact hlinked.link.2

variable {address : Address} {scheme : Scheme} {inv : Int}

/-- What `discoverNode` does for a node that is known, or one that has just been made. -/
theorem discoverChild_known {child}
    (h : discoverChild C paranoia s address scheme inv (some child) = .ret (s', out)) (hs : Sound s)
    (hjoins : s.Joins child) :
    (out = none ∧ Prepared s s') ∨ ∃ l s₁, Found s l s₁ ∧ evict paranoia rounds s₁ (some l) = .ret (s', out) := by
  obtain ⟨⟨s₂, link⟩, hloop, h⟩ := bind_inv h
  obtain ⟨s₁, hprepared, hcases⟩ := discoverLoop_moves hloop hs hjoins
  rcases hcases with ⟨rfl, rfl⟩ | ⟨l, rfl, hlinked⟩
  · cases eq_of_bind_ret h
    exact .inl ⟨rfl, hprepared⟩
  · exact .inr ⟨l, found_of_linked hprepared hlinked h⟩

theorem discoverChild_new (h : discoverChild C paranoia s address scheme inv none = .ret (s', out)) (hs : Sound s)
    (hlength : address.ip6.length = 16) (hnone : nodeForIp s address.ip6 = none) :
    (out = none ∧ Prepared s s') ∨ ∃ l s₁, Found s l s₁ ∧ evict paranoia rounds s₁ (some l) = .ret (s', out) := by
  obtain ⟨⟨s₂, link⟩, hloop, h⟩ := bind_inv h
  generalize hnode : ({ cost := 0, marked := false, address, encodingScheme := scheme, peerTree := [], reversePeers := []
                        bestParent := none } : Node) = node at hloop
  have hfresh : Fresh node := by
    subst hnode
    exact ⟨rfl, rfl, rfl, rfl, hlength⟩
  have halloc : Move s { s with nodes := s.nodes.alloc node } := .alloc node hfresh
  have hjoins : Joins { s with nodes := s.nodes.alloc node } s.nodes.next := by
    subst hnode
    exact joins_alloc hs.wired hlength hnone
  obtain ⟨s₁, hprepared, hcases⟩ := discoverLoop_moves hloop (halloc.sound hs) hjoins
  have hall : Prepared s s₁ := ⟨.head halloc hprepared.moves, hprepared.tree, hprepared.count⟩
  rcases hcases with ⟨rfl, rfl⟩ | ⟨l, rfl, hlinked⟩
  · cases eq_of_bind_ret h
    -- the node that was made is not in the tree
    have hnot : s.nodes.next ∉ s₂.nodeTree := by
      intro hin
      rw [hall.tree] at hin
      obtain ⟨old, hold, _⟩ := hs.wired.listed.node _ hin
      exact Nat.lt_irrefl _ (Heap.lt_next hold)
    exact .inl ⟨rfl, hall.moves.tail (.drop hnot), hall.tree, hall.count⟩
  · exact .inr ⟨l, found_of_linked hall hlinked h⟩

theorem addToMill_cases (h : addToMill C s address = .ret s') :
    ∃ renumberMill, s' = { s with renumberMill } := by
  obtain ⟨renumberMill, _, h⟩ := bind_inv h
  exact ⟨renumberMill, (ret.inj h).symm⟩

theorem theSelfLink_eq (hs : Wired s) {link} (hl : s.theSelfLink = .ret l) (hlink : s.Live l link) :
    s.selfLink = some l ∧ link.child = s.selfNode := by
  obtain ⟨k, _, hk, _⟩ := hs.selfLink
  rw [theSelfLink, hk] at hl
  cases hl
  exact ⟨hk, (hs.ofSelf hk.symm hlink).2.1⟩

theorem discoverNode_moves {address : Address} {scheme : Scheme} {inv : Int} {out : Option LinkId}
    (h : discoverNode C paranoia s address scheme inv = .ret (s', out)) (hs : Sound s)
    (hlength : address.ip6.length = 16) :
    ∃ s₀, Moves s s₀ ∧ ((out = none ∧ Prepared s₀ s') ∨
      ∃ l s₁, Found s₀ l s₁ ∧ evict paranoia rounds s₁ (some l) = .ret (s', out)) := by
  obtain ⟨selfLink, hselfLink, self, hself, h⟩ := bind_inv2 h
  obtain ⟨_, hself⟩ := theSelfLink_eq hs.wired hselfLink (link_eq_ret.mp hself)
  split at h
  next hnone => exact ⟨s, .refl, discoverChild_new h hs hlength hnone⟩
  next child hfound =>
    obtain ⟨hin, node, hnode, hip⟩ := (nodeForIp_eq_some_iff hs.wired.listed).mp hfound
    split at h
    · cases h
      exact ⟨s, .refl, .inl ⟨rfl, .refl s⟩⟩
    next hother =>
      rw [hself] at hother
      obtain ⟨node', hnode', h⟩ := bind_inv h
      cases hnode.symm.trans (node_eq_ret.mp hnode')
      split at h
      next hscheme =>
        obtain ⟨s₁, hmill, h⟩ := bind_inv h
        obtain ⟨mill, rfl⟩ := addToMill_cases hmill
        have hquiet : Move s { s with renumberMill := mill } := .quiet mill s.disarmCheck
        have hs₁ := hquiet.sound hs
        split at h
        · cases h
          exact ⟨s, .refl, .inl ⟨rfl, .mill s mill⟩⟩
        next hnear =>
          obtain ⟨s₂, hdestroy, h⟩ := bind_inv h
          have hdestroyed := destroyNode_destroyed hdestroy hs₁ hin
          have hs₂ := hdestroyed.moves.sound hs₁
          have hnone : nodeForIp s₂ address.ip6 = none := by
            refine nodeForIp_eq_none_iff.mpr fun m hm other hget heq => ?_
            rw [hdestroyed.tree] at hm
            obtain ⟨old, hold, hip'⟩ := hdestroyed.before m other hget
            have hmem := mem_of_mem_erase hm
            have hmc := hs.wired.listed.ip6_inj hmem hin hold hnode ((hip'.symm.trans heq.symm).trans hip.symm)
            exact (hs.wired.listed.nodup.mem_erase_iff.mp hm).1 hmc
          exact ⟨s₂, .head hquiet hdestroyed.moves, discoverChild_new h hs₂ hlength hnone⟩
      · have hversion : Move s (s.setNode child { node with
            address := { node.address with protocolVersion := address.protocolVersion } }) := .version hnode hother _
        have hjoins : Joins (s.setNode child { node with
            address := { node.address with protocolVersion := address.protocolVersion } }) child := by
          obtain ⟨other, hget, hlen⟩ := hs.wired.listed.node child hin
          cases hnode.symm.trans hget
          exact ⟨hother, _, Heap.get?_set_self hnode, hlen, .inl hin⟩
        exact ⟨_, .single hversion, discoverChild_known h (hversion.sound hs) hjoins⟩

/-- All of `NodeStore_discoverNode`. A link that is returned has just been made. -/
theorem NodeStore_discoverNode_moves (h : NodeStore_discoverNode C paranoia s address scheme inv = .ret (s', out))
    (hs : Sound s) (hlength : address.ip6.length = 16) :
    Moves s s' ∧ ∀ l, out = some l → s.links.next ≤ l ∧ l < s'.links.next := by
  obtain ⟨⟨s₁, out₁⟩, hdiscover, h⟩ := bind_inv h
  cases eq_of_bind_ret h
  have harm : Move s { s with disarmCheck := s.disarmCheck + 1 } := .quiet s.renumberMill _
  obtain ⟨s₀, hcleared, hcases⟩ := discoverNode_moves hdiscover (harm.sound hs) hlength
  have hclear : Moves s s₀ := .head harm hcleared
  have hdisarm : Move s₁ { s₁ with disarmCheck := s₁.disarmCheck - 1 } := .quiet s₁.renumberMill _
  rcases hcases with ⟨rfl, hprepared⟩ | ⟨l, s₂, hfound, hevict⟩
  · exact ⟨(hclear.trans hprepared.moves).tail hdisarm, fun l hl => nomatch hl⟩
  · have hs₂ := hfound.moves.sound (hclear.sound hs)
    obtain ⟨hmoves, _, hout⟩ := evict_moves hevict hs₂
    refine ⟨((hclear.trans hfound.moves).trans hmoves).tail hdisarm, fun k hk => ?_⟩
    rcases hout with hnone | hsame
    · cases hnone.symm.trans hk
    · cases hsame.symm.trans hk
      exact ⟨hclear.self.2.2.trans hfound.link.1, hfound.link.2.trans_le hmoves.self.2.2⟩

/-! ## The other operations -/

section
variable (s) (renumberMill : RumorMill)

theorem checkChain_mill (fuel : Nat) (n : NodeId) : checkChain { s with renumberMill } fuel n = checkChain s fuel n := by
  induction fuel generalizing n with
  | zero => rfl
  | succ fuel ih =>
    unfold checkChain
    simp only [ih]
    rfl

theorem checkReversePeers_mill (n : NodeId) (ls : List LinkId) :
    checkReversePeers { s with renumberMill } n ls = checkReversePeers s n ls := by
  induction ls with
  | nil => rfl
  | cons l ls ih =>
    unfold checkReversePeers
    simp only [ih]
    rfl

theorem checkPeers_mill (n : NodeId) (node : Node) (last : Option (BitVec 64)) (ls : List LinkId) :
    checkPeers { s with renumberMill } n node last ls = checkPeers s n node last ls := by
  induction ls generalizing last with
  | nil => rfl
  | cons l ls ih =>
    unfold checkPeers
    simp only [ih]
    rfl

theorem checkNodes_mill (ns : List NodeId) : checkNodes { s with renumberMill } ns = checkNodes s ns := by
  induction ns with
  | nil => rfl
  | cons n ns ih =>
    unfold checkNodes checkNode
    simp only [checkReversePeers_mill, checkPeers_mill, checkChain_mill, ih]
    rfl

theorem check_mill : check { s with renumberMill } = check s := by
  unfold check
  simp only [checkNodes_mill]
  rfl

end

/-- What an operation other than `discoverNode` does. The last of its checks is made on the store it leaves. -/
structure Settles (s s' : NodeStore) : Prop where
  prepared : Prepared s s'
  check : check s = .ret () → check s' = .ret ()

theorem Settles.refl (s : NodeStore) : Settles s s := ⟨.refl s, id⟩

theorem Settles.mill (s : NodeStore) (renumberMill : RumorMill) : Settles s { s with renumberMill } :=
  ⟨.mill s renumberMill, fun h => (check_mill s renumberMill).trans h⟩

theorem unlinkNodes_settles (h : unlinkNodes paranoia s l = .ret s') (hs : Sound s) : Settles s s' := by
  obtain ⟨hcheck, ⟨_, rfl⟩ | ⟨_, hmove, hunlinked⟩⟩ := unlinkNodes_moves h hs
  · exact .refl s'
  · exact ⟨hunlinked.prepared hmove, fun _ => hcheck⟩

theorem handleLinkNews_prepared {cost} (h : handleLinkNews s l cost = .ret s') : Prepared s s' := by
  obtain ⟨link, linkCost, hnews, _⟩ := handleLinkNews_news h
  exact ⟨.single (.news hnews), hnews.sameWiring.nodeTree, hnews.sameWiring.nodeCount⟩

variable {path : BitVec 64}

theorem addLinkToMill_settles {link} (h : addLinkToMill C s link = .ret s') : Settles s s' := by
  obtain ⟨_, _, _, _, h⟩ := bind_inv2 h
  obtain ⟨_, _, _, _, h⟩ := bind_inv2 h
  obtain ⟨mill, rfl⟩ := addToMill_cases h
  exact .mill s mill

theorem brokenLinkFrom_settles {pathAtErrorHop thisPath} {fuel}
    (h : brokenLinkFrom C paranoia s path pathAtErrorHop fuel l thisPath = .ret s') (hs : Sound s) :
    Settles s s' := by
  induction fuel generalizing l thisPath with
  | zero =>
    unfold brokenLinkFrom at h
    cases h
  | succ fuel ih =>
    have hnext : ∀ {l nextPath}, brokenLinkFrom.nextRound C paranoia s path pathAtErrorHop fuel l nextPath = .ret s' →
        Settles s s' := by
      intro l nextPath h
      unfold brokenLinkFrom.nextRound at h
      split at h
      · cases h
        exact .refl s
      split at h
      · cases h
        exact .refl s
      · exact ih h
    unfold brokenLinkFrom at h
    obtain ⟨⟨nextPath, out⟩, _, h⟩ := bind_inv h
    obtain ⟨_, _, link, _, h⟩ := bind_inv2 h
    obtain ⟨_, _, _, _, h⟩ := bind_inv2 h
    obtain ⟨_, _, _, _, h⟩ := bind_inv2 h
    split at h
    · obtain ⟨_, _, h⟩ := bind_inv h
      split at h
      · exact hnext h
      split at h
      · exact addLinkToMill_settles h
      · exact unlinkNodes_settles h hs
    split at h
    · obtain ⟨_, _, h⟩ := bind_inv h
      split at h
      · cases h
        exact .refl s
      split at h
      · exact addLinkToMill_settles h
      · exact unlinkNodes_settles h hs
    · exact hnext h

theorem disconnectedPeer_settles (h : disconnectedPeer paranoia s path = .ret s') (hs : Sound s) :
    Settles s s' := by
  obtain ⟨nl, _, h⟩ := bind_inv h
  split at h
  · cases h
    exact .refl s
  · exact unlinkNodes_settles h hs

theorem updatePathCost_prepared {fuel : Nat} (h : updatePathCost paranoia fuel s l path = .ret s') : Prepared s s' := by
  induction fuel generalizing s l path with
  | zero => cases h
  | succ fuel ih =>
    obtain ⟨⟨nextPath, nextLink⟩, _, h⟩ := bind_inv h
    dsimp only at h
    split at h
    · obtain rfl := ret.inj h
      exact .refl s
    split at h
    · cases h
    · obtain ⟨_, _, _, _, h⟩ := bind_inv2 h
      obtain ⟨_, _, _, _, h⟩ := bind_inv2 h
      obtain ⟨_, _, s₁, hnews, h⟩ := bind_inv2 h
      obtain ⟨_, _, h⟩ := bind_inv h
      exact (handleLinkNews_prepared hnews).trans (ih h)

theorem Prepared.disarm (s : NodeStore) (disarmCheck : Nat) : Prepared s { s with disarmCheck } :=
  ⟨.single (.quiet s.renumberMill disarmCheck), rfl, rfl⟩

theorem pathResponse_settles (h : pathResponse paranoia s path = .ret s') : Settles s s' := by
  obtain ⟨link, _, h⟩ := bind_inv h
  split at h
  · cases h
    exact .refl s
  split at h
  · cases h
    exact .refl s
  · obtain ⟨_, _, _, _, h⟩ := bind_inv2 h
    obtain ⟨_, _, _, _, h⟩ := bind_inv2 h
    obtain ⟨s₁, hupdate, _, hcheck, h⟩ := bind_inv2 h
    cases h
    exact ⟨((Prepared.disarm s _).trans (updatePathCost_prepared hupdate)).trans (.disarm s₁ _), fun _ => hcheck⟩

theorem pathTimeout_settles (h : pathTimeout C s path = .ret s') : Settles s s' := by
  obtain ⟨link, _, h⟩ := bind_inv h
  split at h
  · cases h
    exact .refl s
  next l _ =>
    obtain ⟨link, _, node, _, h⟩ := bind_inv2 h
    obtain ⟨s₁, hmill, h⟩ := bind_inv h
    obtain ⟨mill, rfl⟩ := addToMill_cases hmill
    split at h
    · cases h
      exact .mill s mill
    · obtain ⟨parent, _, h⟩ := bind_inv h
      have hrest : ∀ s₂ : NodeStore, Prepared s s₂ → (do
          check s₂
          let s ← handleLinkNews s₂ l (costAfterTimeout link.linkCost)
          check s
          Er.ret s) = .ret s' → Settles s s' := by
        intro s₂ hs₂ h
        obtain ⟨_, _, s₃, hnews, h⟩ := bind_inv2 h
        obtain ⟨_, hcheck, h⟩ := bind_inv h
        cases h
        exact ⟨hs₂.trans (handleLinkNews_prepared hnews), fun _ => hcheck⟩
      split at h
      · obtain ⟨s₂, hmill₂, h⟩ := bind_inv h
        obtain ⟨mill₂, rfl⟩ := addToMill_cases hmill₂
        exact hrest _ (.mill s mill₂) h
      · exact hrest _ (.mill s mill) h

/-! ## The first store -/

/-- The store of `NodeStore_new` once the self link has been made. -/
def started (myAddress : Address) (renumberMill : RumorMill) (linkCost : BitVec 32) : NodeStore :=
  { nodes := Heap.empty.alloc
      { cost := 0, marked := false, address := { myAddress with path := 1 }, encodingScheme := .v358, peerTree := [0]
        reversePeers := [0], bestParent := some 0 }
    links := Heap.empty.alloc { newLink 0 0 1 0 1 with linkCost }
    selfNode := 0, selfLink := some 0, nodeTree := [0], linksToFree := [], renumberMill, peerCount := 0, linkedNodes := 1
    nodeCount := 1, nodeCapacity := DEFAULT_NODE_CAPACITY, linkCount := 1, linkCapacity := DEFAULT_LINK_CAPACITY
    disarmCheck := 0 }

theorem attach_self (paranoia : Bool) (myAddress : Address) (renumberMill : RumorMill) :
    attach paranoia
      { nodes := Heap.empty.alloc
          { cost := 0, marked := false, address := myAddress, encodingScheme := .v358, peerTree := [], reversePeers := []
            bestParent := none }
        links := Heap.empty, selfNode := 0, selfLink := none, nodeTree := [], linksToFree := [], renumberMill
        peerCount := 0, linkedNodes := 0, nodeCount := 0, nodeCapacity := DEFAULT_NODE_CAPACITY, linkCount := 0
        linkCapacity := DEFAULT_LINK_CAPACITY, disarmCheck := 0 } 0 0 1 0 1 = .ret (started myAddress renumberMill 0) := by
  cases paranoia with
  | false => rfl
  | true => rfl

theorem findBestParent_self {modified : Bool} (h : findBestParent s s.selfNode = .ret (s', modified)) :
    ∃ node, s.nodes.get? s.selfNode = some node ∧ s' = s.setNode s.selfNode { node with marked := false } := by
  obtain ⟨⟨s₁, changed⟩, hfirst, h⟩ := bind_inv h
  obtain ⟨node, hnode, hfirst⟩ := bind_inv hfirst
  dsimp only [NodeStore.setNode] at hfirst
  rw [if_pos rfl] at hfirst
  cases hfirst
  cases h
  exact ⟨node, node_eq_ret.mp hnode, rfl⟩

theorem new_cases {myAddress : Address} {renumberMill : RumorMill} (h : new paranoia myAddress renumberMill = .ret s) :
    ∃ linkCost, 1024 ≤ linkCost.toNat ∧
      s = started { myAddress with protocolVersion := Version.CURRENT_PROTOCOL } renumberMill linkCost := by
  obtain ⟨⟨s₁, l⟩, hlink, h⟩ := bind_inv h
  obtain ⟨node, s₂, s₃, _, rfl, _, hattach, hnews, rfl⟩ :=
    linkNodes_cases hlink fun node hnode x hx => by
      cases hnode
      cases hx
  cases (attach_self paranoia myAddress renumberMill).symm.trans hattach
  obtain ⟨link, s₄, modified, hlive, hupdate, hbest⟩ := handleLinkNews_cases hnews
  obtain ⟨link', linkCost, hlive', rfl, hleast, _⟩ := update_cases hupdate
  obtain rfl := hlive.unique hlive'
  cases hlive.1
  obtain ⟨self, hself, rfl⟩ := findBestParent_self hbest
  cases hself
  obtain ⟨self, hself, h⟩ := bind_inv h
  cases node_eq_ret.mp hself
  cases h
  exact ⟨linkCost, hleast, rfl⟩

theorem get?_alloc_empty {α} {v w : α} {i} (h : (Heap.empty.alloc v).get? i = some w) : i = 0 ∧ w = v := by
  have h := Heap.get?_alloc.symm.trans h
  split at h
  next hi => exact ⟨hi, (some.inj h).symm⟩
  · cases h

theorem started_sound {myAddress : Address} (renumberMill : RumorMill) (linkCost : BitVec 32)
    (nodeCapacity linkCapacity : Int) (hlength : myAddress.ip6.length = 16) :
    Sound { started myAddress renumberMill linkCost with nodeCapacity, linkCapacity } := by
  refine ⟨⟨⟨fun n hn => ?_, pairwise_singleton _ _⟩, mem_cons_self, ?_, ?_, ?_, ?_, ?_, ?_, ?_, ?_, ?_, ?_, ?_,
    nodup_nil⟩, ?_⟩
  · obtain rfl := mem_singleton.mp hn
    exact ⟨_, rfl, hlength⟩
  · intro node hn
    obtain ⟨_, rfl⟩ := get?_alloc_empty hn
    rfl
  · exact ⟨0, _, rfl, ⟨rfl, rfl⟩, rfl, rfl, rfl, rfl⟩
  · intro l link hlive _
    obtain ⟨rfl, _⟩ := get?_alloc_empty hlive.1
    rfl
  · intro n node hn l hl
    obtain ⟨rfl, rfl⟩ := get?_alloc_empty hn
    obtain rfl := mem_singleton.mp hl
    exact ⟨_, ⟨rfl, rfl⟩, rfl⟩
  · intro n node hn l hl
    obtain ⟨rfl, rfl⟩ := get?_alloc_empty hn
    obtain rfl := mem_singleton.mp hl
    exact ⟨_, ⟨rfl, rfl⟩, rfl⟩
  · intro l link hlive
    obtain ⟨rfl, rfl⟩ := get?_alloc_empty hlive.1
    exact ⟨mem_cons_self, _, rfl, mem_cons_self⟩
  · intro l link hlive
    obtain ⟨rfl, rfl⟩ := get?_alloc_empty hlive.1
    exact ⟨mem_cons_self, _, rfl, mem_cons_self⟩
  · intro n node hn
    obtain ⟨_, rfl⟩ := get?_alloc_empty hn
    exact pairwise_singleton _ _
  · intro n node hn
    obtain ⟨_, rfl⟩ := get?_alloc_empty hn
    exact nodup_singleton _
  · intro l link node hlive hself
    obtain ⟨rfl, _⟩ := get?_alloc_empty hlive.1
    exact absurd rfl hself
  · intro l
    refine ⟨fun h => (nomatch h), fun ⟨link, hlink, hunlinked⟩ => ?_⟩
    obtain ⟨_, rfl⟩ := get?_alloc_empty hlink
    cases hunlinked
  · intro n node l hn hl
    obtain ⟨rfl, rfl⟩ := get?_alloc_empty hn
    cases hl
    refine ⟨Nat.zero_lt_one, fun link hlink => ?_⟩
    obtain ⟨_, rfl⟩ := get?_alloc_empty hlink
    rfl

end

/-! ## Runs -/

/-- A call of the store. -/
inductive Operation
  | discoverNode (address : Address) (scheme : Scheme) (inverseLinkEncodingFormNumber : Int)
  | unlinkNodes (link : LinkId)
  | brokenLink (path pathAtErrorHop : BitVec 64)
  | disconnectedPeer (path : BitVec 64)
  | pathResponse (path : BitVec 64)
  | pathTimeout (path : BitVec 64)

/-- An IPv6 address has 16 bytes. -/
def Operation.Valid : Operation → Prop
  | .discoverNode address _ _ => address.ip6.length = 16
  | _ => True

instance (op : Operation) : Decidable op.Valid :=
  match op with
  | .discoverNode address _ _ => inferInstanceAs (Decidable (address.ip6.length = 16))
  | .unlinkNodes _ | .brokenLink _ _ | .disconnectedPeer _ | .pathResponse _ | .pathTimeout _ =>
    inferInstanceAs (Decidable True)

section
variable (C : Crypto) (paranoia : Bool)

def Operation.run (s : NodeStore) : Operation → Er NodeStore
  | .discoverNode address scheme inverseLinkEncodingFormNumber => do
    let (s, _) ← NodeStore_discoverNode C paranoia s address scheme inverseLinkEncodingFormNumber
    .ret s
  | .unlinkNodes link => NodeStore.unlinkNodes paranoia s link
  | .brokenLink path pathAtErrorHop => NodeStore.brokenLink C paranoia s path pathAtErrorHop
  | .disconnectedPeer path => NodeStore.disconnectedPeer paranoia s path
  | .pathResponse path => NodeStore.pathResponse paranoia s path
  | .pathTimeout path => NodeStore.pathTimeout C s path

/-- The stores that come about from a new one, whatever capacity it was given. -/
inductive Reachable : NodeStore → Prop
  | new {myAddress : Address} {renumberMill : RumorMill} {s : NodeStore} (hlength : myAddress.ip6.length = 16)
    (h : NodeStore.new paranoia myAddress renumberMill = .ret s) (nodeCapacity linkCapacity : Int)
    (hcapacity : 1 ≤ nodeCapacity) : Reachable { s with nodeCapacity, linkCapacity }
  | step {s s' : NodeStore} (hs : Reachable s) (op : Operation) (hvalid : op.Valid)
    (h : op.run C paranoia s = .ret s') : Reachable s'

/-- Calls one after the other. -/
def runAll (s : NodeStore) : List Operation → Er NodeStore
  | [] => .ret s
  | op :: ops => do
    let s ← op.run C paranoia s
    runAll s ops

end

section
variable {C : Crypto} {paranoia : Bool} {s s' : NodeStore}

theorem Operation.settles {op : Operation} (h : op.run C paranoia s = .ret s') (hs : Sound s) :
    (∃ address scheme inv, op = .discoverNode address scheme inv) ∨ Settles s s' := by
  cases op with
  | discoverNode address scheme inv => exact .inl ⟨address, scheme, inv, rfl⟩
  | unlinkNodes l => exact .inr (unlinkNodes_settles h hs)
  | brokenLink path pathAtErrorHop =>
    obtain ⟨selfLink, _, h⟩ := bind_inv h
    exact .inr (brokenLinkFrom_settles h hs)
  | disconnectedPeer path => exact .inr (disconnectedPeer_settles h hs)
  | pathResponse path => exact .inr (pathResponse_settles h)
  | pathTimeout path => exact .inr (pathTimeout_settles h)

theorem Operation.moves {op : Operation} (h : op.run C paranoia s = .ret s') (hvalid : op.Valid) (hs : Sound s) :
    Moves s s' := by
  rcases op.settles h hs with ⟨address, scheme, inv, rfl⟩ | hsettles
  · obtain ⟨⟨s₁, out⟩, hdiscover, h⟩ := bind_inv h
    cases h
    exact (NodeStore_discoverNode_moves hdiscover hs hvalid).1
  · exact hsettles.prepared.moves

theorem Reachable.induction {P : NodeStore → Prop} (h : Reachable C paranoia s)
    (hnew : ∀ myAddress renumberMill linkCost nodeCapacity linkCapacity,
      myAddress.ip6.length = 16 → 1 ≤ nodeCapacity → 1024 ≤ linkCost.toNat →
      P { started myAddress renumberMill linkCost with nodeCapacity, linkCapacity })
    (hmove : ∀ a b, Sound a → P a → Move a b → P b) : Sound s ∧ P s := by
  induction h with
  | @new myAddress renumberMill s hlength hstart nodeCapacity linkCapacity hcapacity =>
    obtain ⟨linkCost, hleast, rfl⟩ := new_cases hstart
    exact ⟨started_sound renumberMill linkCost nodeCapacity linkCapacity hlength,
      hnew _ renumberMill linkCost nodeCapacity linkCapacity hlength hcapacity hleast⟩
  | step _ op hvalid hrun ih => exact (Operation.moves hrun hvalid ih.1).induction ih.1 ih.2 hmove

theorem Reachable.sound (h : Reachable C paranoia s) : Sound s :=
  (h.induction (fun _ _ _ _ _ _ _ _ => trivial) fun _ _ _ _ _ => trivial).1

theorem Reachable.runAll {ops} (hs : Reachable C paranoia s) (hvalid : ∀ op ∈ ops, op.Valid)
    (h : runAll C paranoia s ops = .ret s') : Reachable C paranoia s' := by
  induction ops generalizing s with
  | nil => exact ret.inj h ▸ hs
  | cons op ops ih =>
    obtain ⟨s₁, hrun, h⟩ := bind_inv h
    exact ih (.step hs op (hvalid op mem_cons_self) hrun)
      (fun other hother => hvalid other (mem_cons_of_mem _ hother)) h

end

/-! ## One router -/

/-- The address of a host, told by one byte of it. -/
def host (byte : UInt8) (path : BitVec 64) : Address :=
  { protocolVersion := 20, ip6 := List.replicate 15 0xfc ++ [byte], key := Key.ofBytes [byte], path }

/-- What `EncodingScheme_defineFixedWidthScheme` makes of 31 bits. -/
def fixed31 : Scheme := ⟨[⟨31, 0, 0⟩], by decide, by decide⟩

/-- The store of host 0 after these calls. -/
def history (paranoia : Bool) (nodeCapacity linkCapacity : Int) (ops : List Operation) : Er NodeStore := do
  let s ← new paranoia (host 0 0) { selfAddr := host 0 1, capacity := 8, addresses := [] }
  runAll Symbolic.crypto paranoia { s with nodeCapacity, linkCapacity } ops

theorem Reachable.of_history {paranoia} {nodeCapacity linkCapacity} {ops} {s}
    (hcapacity : 1 ≤ nodeCapacity) (hvalid : ∀ op ∈ ops, op.Valid)
    (h : history paranoia nodeCapacity linkCapacity ops = .ret s) : Reachable Symbolic.crypto paranoia s := by
  obtain ⟨s₁, hnew, h⟩ := bind_inv h
  exact Reachable.runAll (.new rfl hnew nodeCapacity linkCapacity hcapacity) hvalid h

/-! ## Discovering a node again -/

/-- A call of `NodeStore_discoverNode` returns this link and leaves the nodes, the links and the best parents alone. -/
def Rediscovers (C : Crypto) (paranoia : Bool) (s : NodeStore) (address : Address) (scheme : Scheme) (inv : Int)
    (l : LinkId) : Prop :=
  ∃ s', NodeStore_discoverNode C paranoia s address scheme inv = .ret (s', some l) ∧ s'.nodeTree = s.nodeTree ∧
    (∀ k, (∃ link, s'.Live k link) ↔ ∃ link, s.Live k link) ∧
    ∀ n, (s'.nodes.get? n).map (·.bestParent) = (s.nodes.get? n).map (·.bestParent)

/-- The path to a node that is known ends at that node with the label 1 left, which is not one hop. So a link that was
found is not found again: what is returned, if anything, has just been made. -/
theorem not_rediscovers {C : Crypto} {paranoia : Bool} {s s₁ : NodeStore} {address : Address} {scheme : Scheme}
    {inv : Int} {l : LinkId} (hs : Reachable C paranoia s) (hlength : address.ip6.length = 16)
    (h : NodeStore_discoverNode C paranoia s address scheme inv = .ret (s₁, some l)) :
    ¬ Rediscovers C paranoia s₁ address scheme inv l := by
  rintro ⟨s₂, hagain, _⟩
  obtain ⟨hmoves, hfirst⟩ := NodeStore_discoverNode_moves h hs.sound hlength
  obtain ⟨_, hsecond⟩ := NodeStore_discoverNode_moves hagain (hmoves.sound hs.sound) hlength
  exact absurd (hfirst l rfl).2 (Nat.not_lt.mpr (hsecond l rfl).1)

theorem not_rediscovers_peer : ∃ s s₁ l, Reachable Symbolic.crypto true s ∧
    NodeStore_discoverNode Symbolic.crypto true s (host 1 0x13) .v358 0 = .ret (s₁, some l) ∧
    ¬ Rediscovers Symbolic.crypto true s₁ (host 1 0x13) .v358 0 l := by
  obtain ⟨s, hs⟩ : (history true 128 4096 []).Returns := ⟨_, rfl⟩
  have hreachable := Reachable.of_history (by decide) (by decide) hs
  obtain ⟨⟨s₁, l⟩, hfirst⟩ : ∃ r : NodeStore × LinkId,
      NodeStore_discoverNode Symbolic.crypto true s (host 1 0x13) .v358 0 = .ret (r.1, some r.2) := by
    cases hs
    exact ⟨(_, _), rfl⟩
  exact ⟨s, s₁, l, hreachable, hfirst, not_rediscovers hreachable rfl hfirst⟩

/-- A peer that is discovered a second time: no link is returned. -/
theorem peer_found_once : ∃ s s₁ s₂ l, Reachable Symbolic.crypto true s ∧
    NodeStore_discoverNode Symbolic.crypto true s (host 1 0x13) .v358 0 = .ret (s₁, some l) ∧
    NodeStore_discoverNode Symbolic.crypto true s₁ (host 1 0x13) .v358 0 = .ret (s₂, none) := by
  obtain ⟨s, hs⟩ : (history true 128 4096 []).Returns := ⟨_, rfl⟩
  have hreachable := Reachable.of_history (by decide) (by decide) hs
  cases hs
  exact ⟨_, _, _, _, hreachable, rfl, rfl⟩

end NodeStore

end Hyperboria
