/-
What the operations of the node store come down to (`Move`): news of a link, a link that is taken
out or made, a node that comes or goes. Every operation is a sequence of such moves (`Moves`), and
what each of them keeps, the operations keep.
-/
import Hyperboria.Dht.Walk

namespace Hyperboria

open Option

namespace NodeStore

/-- A node that has just been allocated. -/
structure Fresh (node : Node) : Prop where
  peers : node.peerTree = []
  reverse : node.reversePeers = []
  best : node.bestParent = none
  cost : node.cost = 0
  length : node.address.ip6.length = 16

/-- A step of an operation. -/
inductive Move (s : NodeStore) : NodeStore → Prop
  | quiet (renumberMill : RumorMill) (disarmCheck : Nat) : Move s { s with renumberMill, disarmCheck }
  | news {l : LinkId} {link : Link} {linkCost : BitVec 32} {s' : NodeStore} (h : News s l link linkCost s') :
    Move s s'
  | unlink {l : LinkId} {link : Link} {peerCount : Int} {s₁ s' : NodeStore} (hself : some l ≠ s.selfLink)
    (hcount : peerCount = if link.parent = s.selfNode then s.peerCount - 1 else s.peerCount)
    (hnews : News { s with peerCount } l link UINT32_MAX s₁)
    (hdetach : Detached s₁ l { link with linkCost := UINT32_MAX } s') : Move s s'
  | link {link : Link} {linkCost : BitVec 32} {peerCount : Int} {s₁ s₂ : NodeStore} (hlinked : link.unlinked = false)
    (hjoins : s.Joins link.child) (hparent : link.parent ∈ s.nodeTree)
    (hfresh : ∀ node, s.nodes.get? link.parent = some node → ∀ x ∈ node.peerTree, s.label x ≠ link.cannonicalLabel)
    (hlabels : ∀ node, s.nodes.get? link.parent = some node →
      Labels node.encodingScheme (link.parent = s.selfNode) link.cannonicalLabel)
    (hattach : Attached s link s₁) (hnews : News s₁ s.links.next link linkCost s₂)
    (hcount : peerCount = if link.parent = s.selfNode then s.peerCount + 1 else s.peerCount) :
    Move s { s₂ with peerCount }
  | alloc (node : Node) (hfresh : Fresh node) : Move s { s with nodes := s.nodes.alloc node }
  | drop {n : NodeId} (hn : n ∉ s.nodeTree) : Move s { s with nodes := s.nodes.free n }
  | remove {n : NodeId} {node : Node} (hn : s.nodes.get? n = some node) (hself : n ≠ s.selfNode)
    (hpeers : node.peerTree = []) (hreverse : node.reversePeers = []) (hbest : node.bestParent = none)
    (htree : n ∈ s.nodeTree) :
    Move s { s with nodeTree := s.nodeTree.erase n, nodeCount := s.nodeCount - 1, nodes := s.nodes.free n }
  | freePending : Move s (freePendingLinks s)
  | marks {nodes : Heap Node} {marks : NodeId → Bool}
    (hnode : ∀ m, nodes.get? m = (s.nodes.get? m).map fun node => { node with marked := marks m })
    (hnext : nodes.next = s.nodes.next) (hclear : ∀ m ∈ s.nodeTree, marks m = false) : Move s { s with nodes }
  | version {n : NodeId} {node : Node} (hn : s.nodes.get? n = some node) (hself : n ≠ s.selfNode)
    (protocolVersion : Nat) :
    Move s (s.setNode n { node with address := { node.address with protocolVersion } })

/-! ## What every move keeps -/

variable {s s' : NodeStore} {l : LinkId}

theorem live_of_links {link} (h : s'.links = s.links) :
    s'.Live l link ↔ s.Live l link := by
  unfold Live
  rw [h]

variable (hs : Wired s)
include hs

/-- A change of nodes that leaves tree, links and lists alone keeps the wiring. -/
theorem Wired.setNodes (htree : s'.nodeTree = s.nodeTree) (hselfNode : s'.selfNode = s.selfNode)
    (hselfLink : s'.selfLink = s.selfLink) (hlinks : s'.links = s.links) (hfree : s'.linksToFree = s.linksToFree)
    (hnode : ∀ n node', s'.nodes.get? n = some node' →
      (∃ node, s.nodes.get? n = some node ∧ node'.frame = node.frame) ∨
      n ∉ s.nodeTree ∧ node'.peerTree = [] ∧ node'.reversePeers = [])
    (hkept : ∀ n ∈ s.nodeTree, ∀ node, s.nodes.get? n = some node →
      ∃ node', s'.nodes.get? n = some node' ∧ node'.frame = node.frame) :
    Wired s' := by
  refine hs.congr (htree ▸ .refl _) hselfNode hselfLink ?_ (fun l link hl => ?_) (fun l link hl => ?_)
    (fun n node hn => ?_) (fun n hn => ?_) (fun l link hl => ?_) (fun l => ?_) (hfree ▸ hs.pendingNodup)
  · rw [htree, hselfNode]
    exact hs.selfTree
  · exact ⟨link, (live_of_links hlinks).mp hl, rfl⟩
  · exact ⟨link, (live_of_links hlinks).mpr hl, rfl⟩
  · rw [htree]
    exact hnode n node hn
  · exact hkept n (htree ▸ hn)
  · rw [htree]
    exact ⟨(hs.parent l link hl).1, (hs.child l link hl).1⟩
  · rw [hfree, hlinks]
    exact hs.pending l

theorem Wired.same (hnodes : s'.nodes = s.nodes) (htree : s'.nodeTree = s.nodeTree)
    (hselfNode : s'.selfNode = s.selfNode) (hselfLink : s'.selfLink = s.selfLink) (hlinks : s'.links = s.links)
    (hfree : s'.linksToFree = s.linksToFree) : Wired s' :=
  hs.setNodes htree hselfNode hselfLink hlinks hfree (fun _ node hn => .inl ⟨node, hnodes ▸ hn, rfl⟩)
    fun _ _ node hn => ⟨node, hnodes.symm ▸ hn, rfl⟩

variable {n : NodeId}

theorem Wired.setNode {node new} (hn : s.nodes.get? n = some node)
    (hframe : new.frame = node.frame) : Wired (s.setNode n new) :=
  (SameWiring.setNode hn hframe).wired hs

theorem Wired.freeNode (hn : n ∉ s.nodeTree) :
    Wired { s with nodes := s.nodes.free n } := by
  refine hs.setNodes rfl rfl rfl rfl rfl (fun m node hm => ?_) (fun m hm node hnode => ?_)
  · have hm : (s.nodes.free n).get? m = some node := hm
    rw [Heap.get?_free] at hm
    split at hm
    · cases hm
    · exact .inl ⟨node, hm, rfl⟩
  · refine ⟨node, ?_, rfl⟩
    have hmn : m ≠ n := fun heq => hn (heq ▸ hm)
    rw [Heap.get?_free, if_neg hmn, hnode]

theorem Wired.removeNode {node} {count} (hn : s.nodes.get? n = some node)
    (hself : n ≠ s.selfNode) (hpeers : node.peerTree = []) (hreverse : node.reversePeers = []) :
    Wired { s with nodeTree := s.nodeTree.erase n, nodeCount := count, nodes := s.nodes.free n } := by
  have hget : ∀ m, m ≠ n → (s.nodes.free n).get? m = s.nodes.get? m := fun m hm => by rw [Heap.get?_free, if_neg hm]
  have hnot : n ∉ s.nodeTree.erase n := hs.listed.nodup.not_mem_erase
  refine hs.congr List.erase_sublist rfl rfl ((List.mem_erase_of_ne (Ne.symm hself)).mpr hs.selfTree)
    (fun l link hl => ⟨link, hl, rfl⟩) (fun l link hl => ⟨link, hl, rfl⟩) (fun m other hm => ?_)
    (fun m hm other hother => ?_) (fun l link hl => ?_) hs.pending hs.pendingNodup
  · have hm : (s.nodes.free n).get? m = some other := hm
    rw [Heap.get?_free] at hm
    split at hm
    · cases hm
    · exact .inl ⟨other, hm, rfl⟩
  · refine ⟨other, ?_, rfl⟩
    rw [hget m fun hmn => hnot (hmn ▸ hm), hother]
  · obtain ⟨hparent, parent, hp, hlp⟩ := hs.parent l link hl
    obtain ⟨hchild, child, hc, hlc⟩ := hs.child l link hl
    refine ⟨(List.mem_erase_of_ne fun heq => ?_).mpr hparent, (List.mem_erase_of_ne fun heq => ?_).mpr hchild⟩
    · rw [heq, hn] at hp
      rw [← some.inj hp, hpeers] at hlp
      cases hlp
    · rw [heq, hn] at hc
      rw [← some.inj hc, hreverse] at hlc
      cases hlc

theorem freePendingLinks_live {link} :
    (freePendingLinks s).Live l link ↔ s.Live l link := by
  unfold Live freePendingLinks
  rw [Heap.get?_foldl_free]
  split
  next hl =>
    obtain ⟨other, hother, hunlinked⟩ := (hs.pending l).mp hl
    constructor
    · intro h
      cases h.1
    · intro h
      rw [h.1] at hother
      rw [← some.inj hother, h.2] at hunlinked
      cases hunlinked
  · exact Iff.rfl

theorem Wired.freePending : Wired (freePendingLinks s) := by
  refine hs.congr (.refl _) rfl rfl hs.selfTree (fun l link hl => ⟨link, (freePendingLinks_live hs).mp hl, rfl⟩)
    (fun l link hl => ⟨link, (freePendingLinks_live hs).mpr hl, rfl⟩) (fun n node hn => .inl ⟨node, hn, rfl⟩)
    (fun n _ node hn => ⟨node, hn, rfl⟩) (fun l link hl => ⟨(hs.parent l link hl).1, (hs.child l link hl).1⟩)
    (fun l => ⟨fun hl => (nomatch hl), fun ⟨link, hlink, hunlinked⟩ => ?_⟩) List.nodup_nil
  have hlink : (s.linksToFree.foldl Heap.free s.links).get? l = some link := hlink
  rw [Heap.get?_foldl_free] at hlink
  split at hlink
  · cases hlink
  next hl => exact absurd ((hs.pending l).mpr ⟨link, hlink, hunlinked⟩) hl

omit hs

section
variable {s s' : NodeStore}

theorem Move.wired (h : Move s s') (hs : Wired s) : Wired s' := by
  cases h with
  | quiet => exact hs.same rfl rfl rfl rfl rfl rfl
  | news hnews => exact hnews.sameWiring.wired hs
  | @unlink l link peerCount s₁ _ hself _ hnews hdetach =>
    have hs₀ : Wired { s with peerCount } := hs.same rfl rfl rfl rfl rfl rfl
    have hlive := hnews.live_after
    exact hdetach.wired (hnews.sameWiring.wired hs₀) hlive (hnews.sameWiring.selfLink ▸ hself)
  | @link link linkCost peerCount s₁ s₂ hlinked hjoins hparent hfresh hlabels hattach hnews =>
    have hs₁ := hattach.wired hs hlinked hjoins hparent hfresh hlabels
    exact (hnews.sameWiring.wired hs₁).same rfl rfl rfl rfl rfl rfl
  | alloc node hfresh =>
    have hget : ∀ m, (s.nodes.alloc node).get? m = if m = s.nodes.next then some node else s.nodes.get? m :=
      fun m => Heap.get?_alloc
    have hnext : s.nodes.next ∉ s.nodeTree := by
      intro hmem
      obtain ⟨other, hother, _⟩ := hs.listed.node _ hmem
      rw [Heap.get?_next] at hother
      cases hother
    refine hs.setNodes rfl rfl rfl rfl rfl (fun m other hm => ?_) (fun m hm other hother => ?_)
    · have hm := (hget m).symm.trans hm
      split at hm
      next hmn =>
        cases hm
        exact .inr ⟨hmn ▸ hnext, hfresh.peers, hfresh.reverse⟩
      · exact .inl ⟨other, hm, rfl⟩
    · have hmn : m ≠ s.nodes.next := fun heq => hnext (heq ▸ hm)
      refine ⟨other, (hget m).trans ?_, rfl⟩
      rw [if_neg hmn, hother]
  | drop hn => exact hs.freeNode hn
  | remove hn hself hpeers hreverse => exact hs.removeNode hn hself hpeers hreverse
  | freePending => exact hs.freePending
  | @marks nodes marks hnode hnext _ =>
    refine hs.setNodes rfl rfl rfl rfl rfl (fun m other hm => ?_) (fun m _ other hother => ?_)
    · have hm := (hnode m).symm.trans hm
      obtain ⟨old, hold, rfl⟩ := map_eq_some_iff.mp hm
      exact .inl ⟨old, hold, rfl⟩
    · exact ⟨{ other with marked := marks m }, (hnode m).trans (congrArg _ hother), rfl⟩
  | version hn => exact hs.setNode hn rfl

theorem BestEnds.congr (hs : BestEnds s) (hnext : s.links.next ≤ s'.links.next)
    (hnode : ∀ n node' l, s'.nodes.get? n = some node' → node'.bestParent = some l →
      ∃ node, s.nodes.get? n = some node ∧ node.bestParent = some l)
    (hlink : ∀ l link', l < s.links.next → s'.links.get? l = some link' →
      ∃ link, s.links.get? l = some link ∧ link'.child = link.child) :
    BestEnds s' := by
  intro n node' l hn hl
  obtain ⟨node, hold, hbest⟩ := hnode n node' l hn hl
  obtain ⟨hlt, hchild⟩ := hs n node l hold hbest
  refine ⟨hlt.trans_le hnext, fun link' hlink' => ?_⟩
  obtain ⟨link, hlink, heq⟩ := hlink l link' hlt hlink'
  rw [heq]
  exact hchild link hlink

theorem Move.bestEnds (h : Move s s') (hs : BestEnds s) : BestEnds s' := by
  have hsame : ∀ l link', l < s.links.next → s.links.get? l = some link' →
      ∃ link, s.links.get? l = some link ∧ link'.child = link.child := fun _ link' _ hlink => ⟨link', hlink, rfl⟩
  cases h with
  | quiet => exact hs.congr le_rfl (fun n node l hn hl => ⟨node, hn, hl⟩) hsame
  | news hnews => exact hnews.bestEnds hs
  | @unlink l link peerCount s₁ _ _ _ hnews hdetach =>
    have hs₀ : BestEnds { s with peerCount } := hs.congr le_rfl (fun n node l hn hl => ⟨node, hn, hl⟩) hsame
    have hlive := hnews.live_after
    exact hdetach.bestEnds (hnews.bestEnds hs₀) hlive
  | @link link linkCost peerCount s₁ s₂ _ _ _ _ _ hattach hnews =>
    have hs₂ := hnews.bestEnds (hattach.bestEnds hs)
    exact hs₂.congr le_rfl (fun n node l hn hl => ⟨node, hn, hl⟩) fun _ link' _ hlink => ⟨link', hlink, rfl⟩
  | alloc node hfresh =>
    refine hs.congr le_rfl (fun m other l hm hl => ?_) hsame
    rw [Heap.get?_alloc] at hm
    split at hm
    · rw [← some.inj hm, hfresh.best] at hl
      cases hl
    · exact ⟨other, hm, hl⟩
  | @drop n _ | @remove n node =>
    refine hs.congr le_rfl (fun m other l hm hl => ?_) hsame
    rw [Heap.get?_free] at hm
    split at hm
    · cases hm
    · exact ⟨other, hm, hl⟩
  | freePending =>
    refine hs.congr Heap.next_foldl_free.ge (fun n node l hn hl => ⟨node, hn, hl⟩) fun l link' _ hlink => ?_
    have hlink : (s.linksToFree.foldl Heap.free s.links).get? l = some link' := hlink
    rw [Heap.get?_foldl_free] at hlink
    split at hlink
    · cases hlink
    · exact ⟨link', hlink, rfl⟩
  | @marks nodes marks hnode _ _ =>
    refine hs.congr le_rfl (fun m other l hm hl => ?_) hsame
    have hm := (hnode m).symm.trans hm
    obtain ⟨old, hold, rfl⟩ := map_eq_some_iff.mp hm
    exact ⟨old, hold, hl⟩
  | @version n node hn _ v =>
    refine hs.congr le_rfl (fun m other l hm hl => ?_) hsame
    have hm : (s.nodes.set n _).get? m = some other := hm
    rw [Heap.get?_set hn] at hm
    split at hm
    next hmn =>
      cases hm
      exact ⟨node, hmn ▸ hn, hl⟩
    · exact ⟨other, hm, hl⟩

/-- The self node and the self link stay, and no address of a link is given out again. -/
theorem Move.self (h : Move s s') :
    s'.selfNode = s.selfNode ∧ s'.selfLink = s.selfLink ∧ s.links.next ≤ s'.links.next := by
  cases h with
  | news hnews => exact ⟨hnews.sameWiring.selfNode, hnews.sameWiring.selfLink, hnews.sameWiring.nextLink.ge⟩
  | unlink _ _ hnews hdetach =>
    have h := hnews.sameWiring
    exact ⟨hdetach.selfNode.trans h.selfNode, hdetach.selfLink.trans h.selfLink, (hdetach.nextLink.trans h.nextLink).ge⟩
  | @link _ _ _ _ s₂ _ _ _ _ _ hattach hnews =>
    have h := hnews.sameWiring
    refine ⟨h.selfNode.trans hattach.selfNode, h.selfLink.trans hattach.selfLink, ?_⟩
    have hnext : s₂.links.next = s.links.next + 1 := by
      rw [h.nextLink, hattach.links, Heap.next_alloc]
    exact (Nat.le_succ _).trans_eq hnext.symm
  | freePending => exact ⟨rfl, rfl, Heap.next_foldl_free.ge⟩
  | _ => exact ⟨rfl, rfl, le_rfl⟩

end

/-! ## Sequences of moves -/

abbrev Moves : NodeStore → NodeStore → Prop := Relation.ReflTransGen Move

/-- What holds whenever a move can be made. -/
structure Sound (s : NodeStore) : Prop where
  wired : Wired s
  ends : BestEnds s

section
variable {s s' : NodeStore}

theorem Move.sound (h : Move s s') (hs : Sound s) : Sound s' := ⟨h.wired hs.wired, h.bestEnds hs.ends⟩

theorem Moves.induction {P : NodeStore → Prop} (h : Moves s s') (hs : Sound s) (hP : P s)
    (hmove : ∀ a b, Sound a → P a → Move a b → P b) : Sound s' ∧ P s' := by
  induction h with
  | refl => exact ⟨hs, hP⟩
  | tail _ hstep ih => exact ⟨hstep.sound ih.1, hmove _ _ ih.1 ih.2 hstep⟩

theorem Moves.sound (h : Moves s s') (hs : Sound s) : Sound s' :=
  (h.induction hs trivial fun _ _ _ _ _ => trivial).1

theorem Moves.self (h : Moves s s') :
    s'.selfNode = s.selfNode ∧ s'.selfLink = s.selfLink ∧ s.links.next ≤ s'.links.next := by
  induction h with
  | refl => exact ⟨rfl, rfl, le_rfl⟩
  | tail _ hstep ih =>
    obtain ⟨hnode, hlink, hnext⟩ := hstep.self
    exact ⟨hnode.trans ih.1, hlink.trans ih.2.1, ih.2.2.trans hnext⟩

end

/-! ## A link is taken out -/

/-- What a store is like once a link has been taken out. -/
structure Unlinked (s : NodeStore) (l : LinkId) (s' : NodeStore) : Prop where
  tree : s'.nodeTree = s.nodeTree
  self : s'.selfNode = s.selfNode
  count : s'.nodeCount = s.nodeCount
  before : ∀ n node', s'.nodes.get? n = some node' → ∃ node, s.nodes.get? n = some node ∧
    node'.address.ip6 = node.address.ip6 ∧ node'.encodingScheme = node.encodingScheme ∧
    (∀ x ∈ node'.peerTree, x ∈ node.peerTree ∧ x ≠ l) ∧ ∀ x ∈ node'.reversePeers, x ∈ node.reversePeers ∧ x ≠ l
  after : ∀ n node, s.nodes.get? n = some node → ∃ node', s'.nodes.get? n = some node' ∧
    node'.address.ip6 = node.address.ip6
  label : ∀ k, s'.label k = s.label k
  live : ∀ k link', s'.Live k link' → ∃ link, s.Live k link ∧ link'.frame = link.frame

theorem unlinkNodes_moves {paranoia} (h : unlinkNodes paranoia s l = .ret s') (hs : Sound s) :
    check s' = .ret () ∧ (some l = s.selfLink ∧ s' = s ∨
      some l ≠ s.selfLink ∧ Move s s' ∧ Unlinked s l s') := by
  obtain ⟨link, hlink, h⟩ := Er.bind_inv h
  have hlive := link_eq_ret.mp hlink
  obtain ⟨_, _, _, _, h⟩ := Er.bind_inv2 h
  obtain ⟨_, hcheck, h⟩ := Er.bind_inv h
  split at h
  next hself =>
    cases h
    exact ⟨hcheck, .inl ⟨hself.2, rfl⟩⟩
  next hnot =>
    have hself : some l ≠ s.selfLink := by
      intro heq
      exact hnot ⟨(hs.wired.ofSelf heq hlive).1, heq⟩
    obtain ⟨_, _, s₁, hnews, h⟩ := Er.bind_inv2 h
    obtain ⟨_, _, s₂, hdetach, h⟩ := Er.bind_inv2 h
    obtain ⟨_, hcheck, h⟩ := Er.bind_inv h
    cases h
    generalize hcount : (if link.parent = s.selfNode then s.peerCount - 1 else s.peerCount) = peerCount
    have hstart : (if link.parent = s.selfNode then { s with peerCount := s.peerCount - 1 } else s) =
        { s with peerCount } := by
      rw [← hcount]
      split
      · rfl
      · rfl
    rw [hstart] at hnews
    obtain ⟨link', linkCost, hnews, hmax⟩ := handleLinkNews_news hnews
    obtain rfl := hmax rfl
    obtain rfl : link = link' := hlive.unique hnews.live
    obtain ⟨link₁, hlive₁, hdetach⟩ := detach_cases hdetach
    have hlive₁' := hnews.live_after
    obtain rfl := hlive₁.unique hlive₁'
    have hsame := hnews.sameWiring
    have hs₁ : Wired s₁ := hsame.wired (hs.wired.same rfl rfl rfl rfl rfl rfl)
    refine ⟨hcheck, .inr ⟨hself, .unlink hself hcount.symm hnews hdetach, ?_⟩⟩
    refine ⟨hdetach.nodeTree.trans hsame.nodeTree, hdetach.selfNode.trans hsame.selfNode, ?_, fun n node' hn => ?_,
      fun n node hn => ?_, fun k => (hdetach.label hlive₁ k).trans (hsame.label k),
      fun k link' hk => hsame.live_before (hdetach.live_iff.mp hk).2⟩
    · obtain ⟨_, _, rfl⟩ := hdetach.rest
      exact hsame.nodeCount
    · obtain ⟨mid, hmid, rfl⟩ := hdetach.node_before hn
      obtain ⟨node, hnode, hframe⟩ := hsame.node_before hmid
      have hpeers := Node.peerTree_of_frame hframe
      have hreverse := Node.reversePeers_of_frame hframe
      have hip := Node.ip6_of_frame hframe
      have hscheme := Node.scheme_of_frame hframe
      refine ⟨node, hnode, hip, hscheme, fun x hx => ?_, fun x hx => ?_⟩
      · rw [← hpeers]
        exact (Detached.mem_peerTree hs₁ hlive₁ hmid).mp hx
      · rw [← hreverse]
        exact (Detached.mem_reversePeers hs₁ hlive₁ hmid).mp hx
    · obtain ⟨mid, hmid, hframe⟩ := hsame.node_after hn
      have hip := Node.ip6_of_frame hframe
      exact ⟨_, hdetach.node_after hmid, hip⟩

theorem Unlinked.joins (h : Unlinked s l s') (hn : s.Joins n) : s'.Joins n := by
  obtain ⟨node, hnode, hlength, hin⟩ := hn.node
  obtain ⟨node', hnode', hip⟩ := h.after n node hnode
  refine ⟨h.self ▸ hn.other, node', hnode', hip ▸ hlength, ?_⟩
  rw [h.tree, hip]
  refine hin.imp_right fun hnone => nodeForIp_eq_none_iff.mpr fun m hm other hother => ?_
  obtain ⟨old, hold, hip', _⟩ := h.before m other hother
  rw [hip']
  exact nodeForIp_eq_none_iff.mp hnone m (h.tree ▸ hm) old hold

end NodeStore

end Hyperboria
