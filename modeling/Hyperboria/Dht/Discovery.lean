/-
The discovery of a node as a sequence of moves. A node that is discovered becomes the child of the
last node its path goes through, by a link that is made for it: `discoverNode` never answers with a
link that was there before (`discoverLoop_moves`).

In a build without `PARANOIA` a link can be made whose label its parent has already. It goes into no
list of peers, and looking for links to split then finds the other one and aborts (`fixAll_dup`).
-/
import Hyperboria.Dht.Moves

namespace Hyperboria

open Er List

open EncodingScheme (Scheme)
open LabelSplicer (routesThrough unsplice)

namespace NodeStore

/-! ## A link is made -/

variable {label path : BitVec 64} {diff inv : Int}

variable {paranoia : Bool} {s s' : NodeStore} {parent child : NodeId} {l : LinkId}

theorem linkNodes_cases (h : linkNodes paranoia s parent child label diff inv path = .ret (s', l))
    (hnew : ∀ node, s.nodes.get? parent = some node → ∀ x ∈ node.peerTree, ∀ link, s.links.get? x = some link →
      link.child = child → link.cannonicalLabel ≠ label) :
    ∃ node s₁ s₂, s.nodes.get? parent = some node ∧ l = s.links.next ∧ (∀ x ∈ node.peerTree, s.label x ≠ label) ∧
      attach paranoia s parent child label inv path = .ret s₁ ∧
      handleLinkNews s₁ l (BitVec.ofInt 32 diff) = .ret s₂ ∧
      s' = { s₂ with
        peerCount := if parent = s₂.selfNode ∧ child ≠ s₂.selfNode then s₂.peerCount + 1 else s₂.peerCount } := by
  obtain ⟨_, _, _, _, h⟩ := bind_inv2 h
  obtain ⟨node, hnode, h⟩ := bind_inv h
  have hnode := node_eq_ret.mp hnode
  obtain ⟨_, _, h⟩ := bind_inv h
  split at h
  next x hfind =>
    have hx := mem_reverse.mp (mem_of_find?_eq_some hfind)
    have hfound := find?_some hfind
    obtain ⟨link, hlink, hsame⟩ := (Option.any_eq_true _ _).mp hfound
    rw [Bool.and_eq_true, decide_eq_true_eq, decide_eq_true_eq] at hsame
    exact absurd hsame.2 (hnew node hnode x hx link hlink hsame.1)
  next hfind =>
    obtain ⟨_, hall, _, _, h⟩ := bind_inv2 h
    obtain ⟨s₁, hattach, s₂, hnews, h⟩ := bind_inv2 h
    have hfresh : ∀ x ∈ node.peerTree, s.label x ≠ label := by
      intro x hx
      rw [assertTrue_eq_ret, all_eq_true] at hall
      exact of_decide_eq_true (hall x hx)
    split at h
    next hpeer =>
      obtain ⟨_, _, _, _, h⟩ := bind_inv2 h
      obtain ⟨_, _, h⟩ := bind_inv h
      cases h
      refine ⟨node, s₁, s₂, hnode, rfl, hfresh, hattach, hnews, ?_⟩
      rw [if_pos hpeer]
    next hpeer =>
      obtain ⟨_, _, h⟩ := bind_inv h
      obtain ⟨rfl, rfl⟩ := Prod.mk.inj (ret.inj h)
      refine ⟨node, s₁, s₂, hnode, rfl, hfresh, hattach, hnews, ?_⟩
      rw [if_neg hpeer]

theorem attach_news {s₁ s₂ : NodeStore} {cost : BitVec 32} (hs : Wired s) (hparent : parent ∈ s.nodeTree)
    (hattach : attach paranoia s parent child label inv path = .ret s₁)
    (hnews : handleLinkNews s₁ s.links.next cost = .ret s₂) :
    Attached s (newLink parent child label inv path) s₁ ∧
      ∃ linkCost, News s₁ s.links.next (newLink parent child label inv path) linkCost s₂ := by
  have hattach := attach_cases hattach fun other heq hother => by
    have hfound := (nodeForIp_eq_some_iff hs.listed).mpr ⟨heq ▸ hparent, other, hother, rfl⟩
    rw [hfound]
    exact Option.some_ne_none child
  obtain ⟨link, linkCost, hnews, _⟩ := handleLinkNews_news hnews
  obtain rfl := ((hattach.live_iff rfl).mpr (.inl ⟨rfl, rfl⟩)).unique hnews.live
  exact ⟨hattach, linkCost, hnews⟩

/-- What a store is like once a link has been made. -/
structure Linked (s : NodeStore) (l : LinkId) (s' : NodeStore) : Prop where
  move : Move s s'
  link : l = s.links.next ∧ l < s'.links.next
  live : ∃ link, s'.Live l link ∧ link.nextInSplitList = none

theorem linkNodes_linked (h : linkNodes paranoia s parent child label diff inv path = .ret (s', l)) (hs : Sound s)
    (hjoins : s.Joins child) (hparent : parent ∈ s.nodeTree)
    (hnew : ∀ node, s.nodes.get? parent = some node → ∀ x ∈ node.peerTree, ∀ link, s.links.get? x = some link →
      link.child = child → link.cannonicalLabel ≠ label)
    (hlabels : ∀ node, s.nodes.get? parent = some node → Labels node.encodingScheme (parent = s.selfNode) label) :
    Linked s l s' := by
  obtain ⟨node, s₁, s₂, hnode, rfl, hfresh, hattach, hnews, rfl⟩ := linkNodes_cases h hnew
  have hfresh : ∀ node, s.nodes.get? parent = some node → ∀ x ∈ node.peerTree, s.label x ≠ label := by
    intro node' hnode'
    cases hnode.symm.trans hnode'
    exact hfresh
  obtain ⟨hattach, linkCost, hnews⟩ := attach_news hs.wired hparent hattach hnews
  have hsame := hnews.sameWiring
  have hself : s₂.selfNode = s.selfNode := hsame.selfNode.trans hattach.selfNode
  have hcount : s₂.peerCount = s.peerCount := by
    rw [hsame.peerCount]
    obtain ⟨_, _, _, rfl⟩ := hattach.rest
    rfl
  refine ⟨.link rfl hjoins hparent hfresh hlabels hattach hnews ?_, ⟨rfl, ?_⟩, ?_⟩
  · rw [hself, hcount]
    by_cases hp : parent = s.selfNode
    · rw [if_pos ⟨hp, hjoins.other⟩]
      exact (if_pos hp).symm
    · rw [if_neg fun hand => hp hand.1]
      exact (if_neg hp).symm
  · rw [hsame.nextLink, hattach.links, Heap.next_alloc]
    exact Nat.lt_succ_self _
  · exact ⟨_, hnews.live_after, rfl⟩

/-! ## Discovery of a link -/

theorem linkNodes_label (h : linkNodes paranoia s parent child label diff inv path = .ret (s', l)) :
    label ≠ 1 ∨ s.selfLink = none := by
  obtain ⟨_, _, _, hone, _⟩ := bind_inv2 h
  have hone := assertTrue_eq_ret.mp hone
  rw [Bool.or_eq_true, decide_eq_true_eq, Option.isNone_iff_eq_none] at hone
  exact hone

variable {child : NodeId}

variable {C : Crypto} {out : Option LinkId}

/-- What `discoverLinkC` comes to from us on: nothing but perhaps an address in the mill, or a link from where the path
ends, or one in place of the last link of the path. -/
theorem discoverLinkC_cases {selfLink : LinkId}
    (h : discoverLinkC C paranoia s selfLink path child path inv = .ret (s', out)) :
    (out = none ∧ ∃ renumberMill, s' = { s with renumberMill }) ∨
    ∃ b o closest parent l, Relation.ReflTransGen (Hop s) (selfLink, path) b ∧
      firstHopInPath s b.2 b.1 = .ret (firstHopInPath_NO_NEXT_LINK, o) ∧ s.Live b.1 closest ∧
      s.nodes.get? closest.child = some parent ∧ parent.encodingScheme.OneHop b.2 ∧ closest.child ≠ child ∧
      out = some l ∧
      (¬ parent.encodingScheme.SelfRoute b.2 ∧ linkNodes paranoia s closest.child child b.2 0 inv path = .ret (s', l) ∨
        parent.encodingScheme.SelfRoute b.2 ∧ ∃ grandParent next nextLink s₁,
          s.nodes.get? closest.parent = some grandParent ∧ grandParent.bestParent = some next ∧
          unlinkNodes paranoia s b.1 = .ret s₁ ∧ s₁.Live next nextLink ∧
          linkNodes paranoia s₁ nextLink.child child closest.cannonicalLabel 0 inv path = .ret (s', l)) := by
  obtain ⟨⟨rest, closest⟩, hfind, h⟩ := bind_inv h
  dsimp only at h
  split at h
  · cases h
    exact .inl ⟨rfl, s.renumberMill, rfl⟩
  split at h
  · cases h
  next closest =>
  obtain ⟨b, hwalk, ⟨⟨o, hend⟩, rfl, hb⟩ | ⟨_, _, hb⟩⟩ := closestFrom_cases hfind
  · cases hb
    obtain ⟨closestLink, hlink, h⟩ := bind_inv h
    have hlive := link_eq_ret.mp hlink
    obtain ⟨parent, hparent, h⟩ := bind_inv h
    have hparent := node_eq_ret.mp hparent
    obtain ⟨oneHop, hoh, h⟩ := bind_inv h
    split at h
    · cases h
      exact .inl ⟨rfl, s.renumberMill, rfl⟩
    next hhop =>
    rw [Bool.not_eq_true', Bool.not_eq_false] at hhop
    subst hhop
    have hhop := EncodingScheme.Scheme.isOneHop_eq_true_iff.mp hoh
    split at h
    · -- a path that is at its end is not one director long, so the link that is known is not answered
      cases h
      refine .inl ⟨if_neg fun hone => ?_, s.renumberMill, rfl⟩
      have htwo := hhop.two_le
      rw [hone] at htwo
      exact absurd htwo (by decide)
    next hne =>
    obtain ⟨self, hselfRoute, h⟩ := bind_inv h
    rcases EncodingScheme.Scheme.isSelfRoute_eq (S := parent.encodingScheme) b.2 with ⟨htrue, hyes⟩ | ⟨hfalse, hno⟩
    · rw [htrue] at hselfRoute
      cases hselfRoute
      rw [if_pos rfl] at h
      split at h
      · obtain ⟨childNode, _, s₁, hmill, h⟩ := bind_inv2 h
        cases eq_of_bind_ret h
        obtain ⟨mill, _, hmill⟩ := bind_inv hmill
        exact .inl ⟨rfl, mill, (ret.inj hmill).symm⟩
      · obtain ⟨grandParent, hgrand, s₁, hunlink, h⟩ := bind_inv2 h
        split at h
        · cases h
        next next hnext =>
        obtain ⟨nextLink, hnextLink, ⟨s₂, l⟩, hlinkNodes, h⟩ := bind_inv2 h
        cases eq_of_bind_ret h
        exact .inr ⟨b, o, closestLink, parent, l, hwalk, hend, hlive, hparent, hhop, hne, rfl, .inr ⟨hyes, grandParent,
          next, nextLink, s₁, node_eq_ret.mp hgrand, hnext, hunlink, link_eq_ret.mp hnextLink, hlinkNodes⟩⟩
    · rw [hfalse] at hselfRoute
      cases hselfRoute
      rw [if_neg Bool.false_ne_true] at h
      obtain ⟨⟨s₂, l⟩, hlinkNodes, h⟩ := bind_inv h
      cases eq_of_bind_ret h
      exact .inr ⟨b, o, closestLink, parent, l, hwalk, hend, hlive, hparent, hhop, hne, rfl, .inl ⟨hno, hlinkNodes⟩⟩
  · cases hb

/-- How a store is left by the discovery of a link. -/
inductive Discovered (s : NodeStore) : NodeStore → Option LinkId → Prop
  /-- nothing is made of it, but an address may be in the mill -/
  | nothing (renumberMill : RumorMill) : Discovered s { s with renumberMill } none
  | new {l : LinkId} {s' : NodeStore} (h : Linked s l s') : Discovered s s' (some l)
  /-- the last link of the path gives way to the new one -/
  | instead {k l : LinkId} {s₁ s' : NodeStore} (hmove : Move s s₁) (hunlinked : Unlinked s k s₁)
    (h : Linked s₁ l s') : Discovered s s' (some l)

theorem discoverLink_discovered (h : discoverLink C paranoia s path child inv = .ret (s', out)) (hs : Sound s)
    (hjoins : s.Joins child) :
    Discovered s s' out := by
  obtain ⟨selfLink, self, hself, hselfLive, _⟩ := hs.wired.selfLink
  obtain ⟨selfLink', hself', h⟩ := bind_inv h
  unfold theSelfLink at hself'
  rw [hself] at hself'
  cases hself'
  obtain ⟨⟨s₂, link⟩, hC, h⟩ := bind_inv h
  -- once the link is made there is nothing to split
  have hdone : ∀ {s₁ l}, Sound s₁ → s₁.selfLink = s.selfLink → link = some l → Linked s₁ l s₂ → s' = s₂ ∧ out = some l := by
    intro s₁ l hs₁ hselfLink hlink hlinked
    rw [hlink] at h
    obtain ⟨s₃, hfix, _, _, h⟩ := bind_inv2 h
    cases h
    obtain ⟨newLink, hnew, hlist⟩ := hlinked.live
    have hs₂ := (hlinked.move.sound hs₁).wired
    have hne : some l ≠ s₂.selfLink := by
      rw [hlinked.move.self.2.1, hselfLink]
      intro heq
      obtain ⟨k, selfLink₁, hk, hlive, _⟩ := hs₁.wired.selfLink
      rw [← hselfLink, hk] at heq
      have hlt := Heap.lt_next hlive.1
      rw [← Option.some.inj heq, hlinked.link.1] at hlt
      exact Nat.lt_irrefl _ hlt
    exact ⟨fixAll_eq hs₂ hnew hne hlist hfix, rfl⟩
  rcases discoverLinkC_cases hC with ⟨rfl, mill, rfl⟩ | ⟨b, o, closest, parent, l, hwalk, hend, hclosest, hparent,
    hhop, hne, hlink, ⟨hnot, hnodes⟩ | ⟨_, grandParent, next, nextLink, s₁, hgrand, hnext, hunlink, hnextLink, hnodes⟩⟩
  · cases h
    exact .nothing mill
  · have hlinked := linkNodes_linked hnodes hs hjoins (hs.wired.child _ closest hclosest).1
      (fun node hn x hx other hother hends hlabel => by
        -- a peer with this label is the last link of the walk, that ends somewhere else
        cases hparent.symm.trans hn
        obtain rfl := label_of_end hs.wired hend hclosest hparent hhop.two_le hx ((label_eq hother).trans hlabel)
        cases hclosest.1.symm.trans hother
        exact hne hends)
      (fun node hn => by
        rw [hparent] at hn
        rw [← Option.some.inj hn]
        exact labels_of_end hs.wired hself hwalk hclosest hparent hhop hnot)
    obtain ⟨rfl, rfl⟩ := hdone hs rfl hlink hlinked
    exact .new hlinked
  · obtain ⟨_, ⟨hisSelf, rfl⟩ | ⟨hnotSelf, hmove, hunlinked⟩⟩ := unlinkNodes_moves hunlink hs
    · -- the self link is not taken out, and no second link can have its label
      rw [(hs.wired.ofSelf hisSelf hclosest).2.2.1] at hnodes
      rcases linkNodes_label hnodes with hne | hnone
      · exact absurd rfl hne
      · cases hisSelf.trans hnone
    · have hs₁ := hmove.sound hs
      obtain ⟨old, hold, hframe⟩ := hunlinked.live next nextLink hnextLink
      have hchild : nextLink.child = closest.parent := by
        rw [Link.child_of_frame hframe]
        exact (hs.ends _ grandParent next hgrand hnext).2 old hold.1
      rw [hchild] at hnodes
      have hlinked := linkNodes_linked hnodes hs₁ (hunlinked.joins hjoins)
        (hunlinked.tree ▸ (hs.wired.parent _ closest hclosest).1)
        (fun node hn x hx other hother _ hlabel => by
          obtain ⟨old, hold, _, _, hpeers, _⟩ := hunlinked.before _ node hn
          obtain ⟨hx, hxne⟩ := hpeers x hx
          obtain ⟨_, old', hold', hmem⟩ := hs.wired.parent _ closest hclosest
          cases hold.symm.trans hold'
          refine hxne ((hs.wired.ordered _ old hold).label_inj hx hmem ?_)
          rw [← hunlinked.label x, label_eq hother, hlabel, label_eq hclosest.1])
        (fun node hn => by
          obtain ⟨old, hold, _, hscheme, _⟩ := hunlinked.before _ node hn
          rw [hscheme, hunlinked.self]
          exact hs.wired.label _ closest old hclosest hnotSelf hold)
      obtain ⟨rfl, rfl⟩ := hdone hs₁ hmove.self.2.1 hlink hlinked
      exact .instead hmove hunlinked hlinked

/-- Moves that leave the tree and the count of nodes alone. -/
structure Prepared (s s' : NodeStore) : Prop where
  moves : Moves s s'
  tree : s'.nodeTree = s.nodeTree
  count : s'.nodeCount = s.nodeCount

theorem Prepared.refl (s : NodeStore) : Prepared s s := ⟨.refl, rfl, rfl⟩

theorem Prepared.trans {s''} (h : Prepared s s') (h' : Prepared s' s'') : Prepared s s'' :=
  ⟨h.moves.trans h'.moves, h'.tree.trans h.tree, h'.count.trans h.count⟩

theorem Prepared.mill (s : NodeStore) (renumberMill : RumorMill) : Prepared s { s with renumberMill } :=
  ⟨.single (.quiet renumberMill s.disarmCheck), rfl, rfl⟩

theorem Unlinked.prepared (h : Unlinked s l s') (hmove : Move s s') : Prepared s s' :=
  ⟨.single hmove, h.tree, h.count⟩

/-- `discoverLoop` makes one link, and before that takes some out. -/
theorem discoverLoop_moves {fuel : Nat} (h : discoverLoop C paranoia path child inv fuel s = .ret (s', out))
    (hs : Sound s) (hjoins : s.Joins child) :
    ∃ s₁, Prepared s s₁ ∧ (out = none ∧ s' = s₁ ∨ ∃ l, out = some l ∧ Linked s₁ l s') := by
  induction fuel generalizing s with
  | zero => cases h
  | succ fuel ih =>
    obtain ⟨⟨s₁, link⟩, hdiscover, h⟩ := bind_inv h
    have hdiscovered := discoverLink_discovered hdiscover hs hjoins
    dsimp only at h
    split at h
    next l =>
      cases h
      cases hdiscovered with
      | new hlinked => exact ⟨s, .refl s, .inr ⟨l, rfl, hlinked⟩⟩
      | instead hmove hunlinked hlinked => exact ⟨_, hunlinked.prepared hmove, .inr ⟨l, rfl, hlinked⟩⟩
    · cases hdiscovered with
      | nothing mill =>
      have hmill := Prepared.mill s mill
      have hs₁ := hmill.moves.sound hs
      have hjoins₁ : Joins { s with renumberMill := mill } child := ⟨hjoins.other, hjoins.node⟩
      obtain ⟨selfLink, hselfLink, lastLink, _, h⟩ := bind_inv2 h
      split at h
      · cases h
        exact ⟨_, hmill, .inl ⟨rfl, rfl⟩⟩
      next lastLink =>
      obtain ⟨link, _, node, _, h⟩ := bind_inv2 h
      split at h
      · obtain ⟨_, hnotSelf, s₂, hunlink, h⟩ := bind_inv2 h
        obtain ⟨_, ⟨_, rfl⟩ | ⟨_, hmove, hunlinked⟩⟩ := unlinkNodes_moves hunlink hs₁
        · obtain ⟨s₃, hprepared, hout⟩ := ih h hs₁ hjoins₁
          exact ⟨s₃, hmill.trans hprepared, hout⟩
        · obtain ⟨s₃, hprepared, hout⟩ := ih h (hmove.sound hs₁) (hunlinked.joins hjoins₁)
          exact ⟨s₃, (hmill.trans (hunlinked.prepared hmove)).trans hprepared, hout⟩
      · cases h
        exact ⟨_, hmill, .inl ⟨rfl, rfl⟩⟩

/-! ## A node is dropped -/

/-- What the store is like once these links have been taken out, all but the self link. -/
theorem unlinkAll_moves {ls : List LinkId} (h : unlinkAll paranoia s ls = .ret s') (hs : Sound s) :
    Prepared s s' ∧
      (∀ n node', s'.nodes.get? n = some node' → ∃ node, s.nodes.get? n = some node ∧
        node'.address.ip6 = node.address.ip6 ∧
        (∀ x ∈ node'.peerTree, x ∈ node.peerTree ∧ (x ∈ ls → some x = s.selfLink)) ∧
        ∀ x ∈ node'.reversePeers, x ∈ node.reversePeers ∧ (x ∈ ls → some x = s.selfLink)) := by
  induction ls generalizing s with
  | nil =>
    obtain rfl := ret.inj h
    exact ⟨.refl s, fun n node hn => ⟨node, hn, rfl, fun x hx => ⟨hx, fun hnil => (nomatch hnil)⟩,
      fun x hx => ⟨hx, fun hnil => (nomatch hnil)⟩⟩⟩
  | cons l ls ih =>
    obtain ⟨s₁, hunlink, h⟩ := bind_inv h
    obtain ⟨_, ⟨hisSelf, heq⟩ | ⟨_, hmove, hunlinked⟩⟩ := unlinkNodes_moves hunlink hs
    · rw [heq] at h
      obtain ⟨hprepared, hbefore⟩ := ih h hs
      have hcons : ∀ {x}, (x ∈ ls → some x = s.selfLink) → x ∈ l :: ls → some x = s.selfLink := by
        intro x hx hmem
        rcases mem_cons.mp hmem with rfl | hmem
        · exact hisSelf
        · exact hx hmem
      refine ⟨hprepared, fun n node' hn => ?_⟩
      obtain ⟨node, hnode, hip, hpeers, hreverse⟩ := hbefore n node' hn
      exact ⟨node, hnode, hip, fun x hx => ⟨(hpeers x hx).1, hcons (hpeers x hx).2⟩,
        fun x hx => ⟨(hreverse x hx).1, hcons (hreverse x hx).2⟩⟩
    · obtain ⟨hprepared, hbefore⟩ := ih h (hmove.sound hs)
      rw [hmove.self.2.1] at hbefore
      have hcons : ∀ {x}, x ≠ l → (x ∈ ls → some x = s.selfLink) → x ∈ l :: ls → some x = s.selfLink := by
        intro x hne hx hmem
        exact hx ((mem_cons.mp hmem).resolve_left hne)
      refine ⟨(hunlinked.prepared hmove).trans hprepared, fun n node' hn => ?_⟩
      obtain ⟨mid, hmid, hip, hpeers, hreverse⟩ := hbefore n node' hn
      obtain ⟨node, hnode, hip', _, hpeers', hreverse'⟩ := hunlinked.before n mid hmid
      refine ⟨node, hnode, hip.trans hip', fun x hx => ?_, fun x hx => ?_⟩
      · obtain ⟨hx, hxls⟩ := hpeers x hx
        obtain ⟨hx, hxl⟩ := hpeers' x hx
        exact ⟨hx, hcons hxl hxls⟩
      · obtain ⟨hx, hxls⟩ := hreverse x hx
        obtain ⟨hx, hxl⟩ := hreverse' x hx
        exact ⟨hx, hcons hxl hxls⟩

/-- What the store is like once a node has been dropped. -/
structure Destroyed (s : NodeStore) (n : NodeId) (s' : NodeStore) : Prop where
  moves : Moves s s'
  tree : s'.nodeTree = s.nodeTree.erase n
  before : ∀ m node', s'.nodes.get? m = some node' → ∃ node, s.nodes.get? m = some node ∧
    node'.address.ip6 = node.address.ip6
  count : s'.nodeCount = s.nodeCount - 1

theorem destroyNode_cases {n : NodeId} (h : destroyNode paranoia s n = .ret s') :
    ∃ node s₁ node₁ s₂ node₂, s.nodes.get? n = some node ∧ unlinkAll paranoia s node.peerTree = .ret s₁ ∧
      s₁.nodes.get? n = some node₁ ∧ unlinkAll paranoia s₁ node₁.reversePeers = .ret s₂ ∧
      s₂.nodes.get? n = some node₂ ∧ node₂.bestParent = none ∧ n ≠ s₂.selfNode ∧
      s' = { s₂ with nodeTree := s₂.nodeTree.erase n, nodeCount := s₂.nodeCount - 1, nodes := s₂.nodes.free n } := by
  obtain ⟨node, hnode, s₁, hpeers, h⟩ := bind_inv2 h
  obtain ⟨node₁, hnode₁, s₂, hreverse, h⟩ := bind_inv2 h
  obtain ⟨node₂, hnode₂, _, hbest, h⟩ := bind_inv2 h
  obtain ⟨_, _, h⟩ := bind_inv h
  split at h
  · cases h
  next hself =>
    exact ⟨node, s₁, node₁, s₂, node₂, node_eq_ret.mp hnode, hpeers, node_eq_ret.mp hnode₁, hreverse,
      node_eq_ret.mp hnode₂, Option.isNone_iff_eq_none.mp (assertTrue_eq_ret.mp hbest), hself, (ret.inj h).symm⟩

theorem destroyNode_destroyed {n} (h : destroyNode paranoia s n = .ret s') (hs : Sound s)
    (htree : n ∈ s.nodeTree) : Destroyed s n s' := by
  obtain ⟨node, s₁, node₁, s₂, node₂, hnode, hpeers, hnode₁, hreverse, hnode₂, hbest, hself, rfl⟩ :=
    destroyNode_cases h
  obtain ⟨hprepared₁, hbefore₁⟩ := unlinkAll_moves hpeers hs
  have hs₁ := hprepared₁.moves.sound hs
  obtain ⟨_, hselfLink₁, _⟩ := hprepared₁.moves.self
  obtain ⟨hprepared₂, hbefore₂⟩ := unlinkAll_moves hreverse hs₁
  have hs₂ := hprepared₂.moves.sound hs₁
  obtain ⟨hselfNode₂, hselfLink₂, _⟩ := hprepared₂.moves.self
  -- no link of another node is the self link
  have hpeerSelf : ∀ {t} {other x}, Wired t → n ≠ t.selfNode → t.nodes.get? n = some other →
      x ∈ other.peerTree ∨ x ∈ other.reversePeers → some x ≠ t.selfLink := by
    intro t other x ht hne hother hx heq
    rcases hx with hx | hx
    · obtain ⟨link, hlink, hends⟩ := ht.peer n other hother x hx
      exact hne (hends.symm.trans (ht.ofSelf heq hlink).1)
    · obtain ⟨link, hlink, hends⟩ := ht.reverse n other hother x hx
      exact hne (hends.symm.trans (ht.ofSelf heq hlink).2.1)
  obtain ⟨old₁, hold₁, _, hpeers₁, _⟩ := hbefore₁ n node₁ hnode₁
  cases hnode.symm.trans hold₁
  obtain ⟨old₂, hold₂, _, hpeers₂, hreverse₂⟩ := hbefore₂ n node₂ hnode₂
  cases hnode₁.symm.trans hold₂
  have hpeersNil : node₂.peerTree = [] := by
    refine eq_nil_iff_forall_not_mem.mpr fun x hx => ?_
    have hx₁ := (hpeers₂ x hx).1
    have hx' := hpeers₁ x hx₁
    exact hpeerSelf hs₁.wired (hselfNode₂ ▸ hself) hnode₁ (.inl hx₁) (hselfLink₁ ▸ hx'.2 hx'.1)
  have hreverseNil : node₂.reversePeers = [] := by
    refine eq_nil_iff_forall_not_mem.mpr fun x hx => ?_
    have hx' := hreverse₂ x hx
    exact hpeerSelf hs₂.wired hself hnode₂ (.inr hx) (hselfLink₂ ▸ hx'.2 hx'.1)
  have hprepared := hprepared₁.trans hprepared₂
  refine ⟨?_, congrArg (fun tree => List.erase tree n) hprepared.tree, fun m node' hm => ?_, ?_⟩
  · refine hprepared.moves.tail ?_
    exact .remove hnode₂ hself hpeersNil hreverseNil hbest (hprepared.tree ▸ htree)
  · have hm : (s₂.nodes.free n).get? m = some node' := hm
    rw [Heap.get?_free] at hm
    split at hm
    · cases hm
    · obtain ⟨mid, hmid, hip₂, _⟩ := hbefore₂ m node' hm
      obtain ⟨old, hold, hip₁, _⟩ := hbefore₁ m mid hmid
      exact ⟨old, hold, hip₂.trans hip₁⟩
  · exact congrArg (· - 1) hprepared.count

end NodeStore

end Hyperboria
