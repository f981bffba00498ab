/-
What holds of the nodes and links of a store between and during its operations (`Wired`): every
link is in the list of the node it begins at and in that of the node it ends at, and in no other;
the lists of peers are in order, so that no two links of a node have one label; and the label of a
link is one director of its parent's scheme.
-/
import Hyperboria.Dht.Wiring

namespace Hyperboria

open List Option

open Bits (log2x64 bitReverse64)
open EncodingScheme (Scheme)

namespace NodeStore

variable {a b : BitVec 64}

/-! ## The order of peers -/

theorem bitReverse64_inj (h : bitReverse64 a = bitReverse64 b) : a = b := by
  rw [Bits.bitReverse64_eq, Bits.bitReverse64_eq] at h
  rw [← BitVec.reverse_reverse_eq (x := a), h, BitVec.reverse_reverse_eq]

/-- One label comes before the other: it is longer, or its bits are from the low end on the greater. -/
theorem comparePeers_neg_iff : comparePeers a b < 0 ↔
    log2x64 b < log2x64 a ∨ log2x64 a = log2x64 b ∧ (bitReverse64 b).toNat < (bitReverse64 a).toNat := by
  unfold comparePeers
  dsimp only
  split
  · omega
  next hlog =>
    split
    next hlt =>
      have hlt := BitVec.lt_def.mp hlt
      omega
    next hlt =>
      have hlt : ¬ (bitReverse64 a).toNat < (bitReverse64 b).toNat := fun h => hlt (BitVec.lt_def.mpr h)
      split
      next hab =>
        subst hab
        omega
      next hab =>
        have hne : (bitReverse64 a).toNat ≠ (bitReverse64 b).toNat := fun h =>
          hab (bitReverse64_inj (BitVec.eq_of_toNat_eq h))
        omega

theorem comparePeers_eq_zero_iff : comparePeers a b = 0 ↔ a = b := by
  constructor
  · intro h
    unfold comparePeers at h
    dsimp only at h
    split at h
    · omega
    split at h
    · cases h
    split at h
    next hab => exact hab
    · cases h
  · intro h
    subst h
    simp [comparePeers]

theorem comparePeers_irrefl : ¬ comparePeers a a < 0 := by
  rw [comparePeers_eq_zero_iff.mpr rfl]
  exact lt_irrefl 0

theorem comparePeers_trans {c} (hab : comparePeers a b < 0) (hbc : comparePeers b c < 0) :
    comparePeers a c < 0 := by
  rw [comparePeers_neg_iff] at hab hbc ⊢
  omega

theorem comparePeers_flip (hab : ¬ comparePeers a b < 0) (hne : a ≠ b) : comparePeers b a < 0 := by
  have hrev : (bitReverse64 a).toNat ≠ (bitReverse64 b).toNat := fun h =>
    hne (bitReverse64_inj (BitVec.eq_of_toNat_eq h))
  rw [comparePeers_neg_iff] at hab ⊢
  omega

/-- The links are in the order of their labels. -/
def Ordered (s : NodeStore) (peers : List LinkId) : Prop :=
  peers.Pairwise fun a b => comparePeers (s.label a) (s.label b) < 0

section
variable {s : NodeStore} {l x : LinkId} {peers : List LinkId}

variable (h : s.Ordered peers)
include h

theorem Ordered.labels : (peers.map s.label).Nodup := by
  refine pairwise_map.mpr (List.Pairwise.imp (fun {a b} hab heq => ?_) h)
  rw [heq] at hab
  exact comparePeers_irrefl hab

theorem Ordered.label_inj (hl : l ∈ peers) (hx : x ∈ peers) (heq : s.label l = s.label x) :
    l = x :=
  inj_on_of_nodup_map h.labels hl hx heq

theorem Ordered.nodup : peers.Nodup := .of_map _ h.labels

omit h

theorem mem_insertPeer (hnew : ∀ y ∈ peers, s.label y ≠ s.label l) : x ∈ insertPeer s l peers ↔ x = l ∨ x ∈ peers := by
  induction peers with
  | nil => simp [insertPeer]
  | cons y peers ih =>
    have hy : comparePeers (s.label l) (s.label y) ≠ 0 := fun h =>
      hnew y mem_cons_self (comparePeers_eq_zero_iff.mp h).symm
    unfold insertPeer
    split
    · exact mem_cons
    rw [mem_cons, ih fun z hz => hnew z (mem_cons_of_mem _ hz), mem_cons, or_left_comm]

theorem Ordered.insertPeer (h : s.Ordered peers) (hnew : ∀ y ∈ peers, s.label y ≠ s.label l) :
    s.Ordered (NodeStore.insertPeer s l peers) := by
  induction peers with
  | nil => exact pairwise_singleton _ _
  | cons y peers ih =>
    obtain ⟨hy, hrest⟩ := pairwise_cons.mp h
    have hyl := hnew y mem_cons_self
    have hnew' : ∀ z ∈ peers, s.label z ≠ s.label l := fun z hz => hnew z (mem_cons_of_mem _ hz)
    unfold NodeStore.insertPeer
    split
    next hlt =>
      refine pairwise_cons.mpr ⟨fun z hz => ?_, h⟩
      rcases mem_cons.mp hz with hzy | hz
      · exact hzy ▸ hlt
      · exact comparePeers_trans hlt (hy z hz)
    next hlt =>
      rw [if_neg fun h0 => hyl (comparePeers_eq_zero_iff.mp h0).symm]
      refine pairwise_cons.mpr ⟨fun z hz => ?_, ih hrest hnew'⟩
      rcases (mem_insertPeer hnew').mp hz with hzl | hz
      · exact hzl ▸ comparePeers_flip hlt (Ne.symm hyl)
      · exact hy z hz

theorem Ordered.congr {s' : NodeStore} (h : s.Ordered peers) (hlabel : ∀ l ∈ peers, s'.label l = s.label l) :
    s'.Ordered peers := by
  refine List.Pairwise.imp_of_mem (fun ha hb hab => ?_) h
  rw [hlabel _ ha, hlabel _ hb]
  exact hab

end

/-! ## The order of nodes -/

/-- Where a node stands in the tree. -/
def keyOf (s : NodeStore) (n : NodeId) : List UInt8 := (s.nodes.get? n).elim [] fun node => sortKey node.address

theorem sortKey_inj {a b} (ha : a.ip6.length = 16) (hb : b.ip6.length = 16) (h : sortKey a = sortKey b) :
    a.ip6 = b.ip6 := by
  obtain ⟨hdrop, htake⟩ := append_inj h (by simp [ha, hb])
  rw [← take_append_drop 8 a.ip6, htake, hdrop, take_append_drop]

/-- The nodes are there, with addresses in order. -/
structure Listed (s : NodeStore) (tree : List NodeId) : Prop where
  node : ∀ n ∈ tree, ∃ node, s.nodes.get? n = some node ∧ node.address.ip6.length = 16
  order : tree.Pairwise fun a b => s.keyOf a < s.keyOf b

section
variable {s : NodeStore} {n x : NodeId} {node : Node} {tree : List NodeId}

theorem keyOf_eq (h : s.nodes.get? n = some node) : s.keyOf n = sortKey node.address := by
  unfold keyOf
  rw [h]
  rfl

theorem Listed.keys (h : s.Listed tree) : (tree.map s.keyOf).Nodup := by
  refine pairwise_map.mpr (List.Pairwise.imp (fun {a b} hab heq => ?_) h.order)
  rw [heq] at hab
  exact List.lt_irrefl _ hab

theorem Listed.nodup (h : s.Listed tree) : tree.Nodup := .of_map _ h.keys

theorem Listed.tail (h : s.Listed (x :: tree)) : s.Listed tree :=
  ⟨fun m hm => h.node m (mem_cons_of_mem _ hm), (pairwise_cons.mp h.order).2⟩

/-- Two nodes of the tree with one address are one. -/
theorem Listed.ip6_inj {a b} {na nb} (h : s.Listed tree) (ha : a ∈ tree) (hb : b ∈ tree)
    (hna : s.nodes.get? a = some na) (hnb : s.nodes.get? b = some nb) (heq : na.address.ip6 = nb.address.ip6) :
    a = b := by
  refine inj_on_of_nodup_map h.keys ha hb ?_
  rw [keyOf_eq hna, keyOf_eq hnb, sortKey, sortKey, heq]

theorem mem_insertNode {address} (hlisted : s.Listed tree)
    (hnew : ∀ m ∈ tree, ∀ other, s.nodes.get? m = some other → address.ip6 ≠ other.address.ip6) :
    x ∈ insertNode s n address tree ↔ x = n ∨ x ∈ tree := by
  induction tree with
  | nil => simp [insertNode]
  | cons y tree ih =>
    obtain ⟨other, hother, _⟩ := hlisted.node y mem_cons_self
    have hip := hnew y mem_cons_self other hother
    unfold insertNode
    simp only [hother]
    split
    · exact mem_cons
    rw [mem_cons, ih hlisted.tail fun m hm => hnew m (mem_cons_of_mem _ hm), mem_cons, or_left_comm]

theorem Listed.insertNode (hlisted : s.Listed tree) (hn : s.nodes.get? n = some node)
    (hlength : node.address.ip6.length = 16)
    (hnew : ∀ m ∈ tree, ∀ other, s.nodes.get? m = some other → node.address.ip6 ≠ other.address.ip6) :
    s.Listed (NodeStore.insertNode s n node.address tree) := by
  refine ⟨fun m hm => ?_, ?_⟩
  · rcases (mem_insertNode hlisted hnew).mp hm with hmn | hm
    · exact hmn ▸ ⟨node, hn, hlength⟩
    · exact hlisted.node m hm
  induction tree with
  | nil => exact pairwise_singleton _ _
  | cons y tree ih =>
    obtain ⟨other, hother, hylength⟩ := hlisted.node y mem_cons_self
    obtain ⟨hy, _⟩ := pairwise_cons.mp hlisted.order
    have hip := hnew y mem_cons_self other hother
    have hnew' : ∀ m ∈ tree, ∀ other, s.nodes.get? m = some other → node.address.ip6 ≠ other.address.ip6 :=
      fun m hm => hnew m (mem_cons_of_mem _ hm)
    unfold NodeStore.insertNode
    simp only [hother]
    split
    next hlt =>
      rw [← keyOf_eq hn, ← keyOf_eq hother] at hlt
      refine pairwise_cons.mpr ⟨fun z hz => ?_, hlisted.order⟩
      rcases mem_cons.mp hz with hzy | hz
      · exact hzy ▸ hlt
      · exact List.lt_trans hlt (hy z hz)
    next hlt =>
      have hgt : s.keyOf y < s.keyOf n := by
        rw [keyOf_eq hn, keyOf_eq hother]
        by_contra hgt
        exact hip (sortKey_inj hlength hylength (List.le_antisymm hgt hlt))
      refine pairwise_cons.mpr ⟨fun z hz => ?_, ih hlisted.tail hnew'⟩
      rcases (mem_insertNode hlisted.tail hnew').mp hz with hzn | hz
      · exact hzn ▸ hgt
      · exact hy z hz

theorem nodeForIp_eq_some_iff {ip6 : List UInt8} (hlisted : s.Listed s.nodeTree) :
    nodeForIp s ip6 = some n ↔ n ∈ s.nodeTree ∧ ∃ node, s.nodes.get? n = some node ∧ node.address.ip6 = ip6 := by
  unfold nodeForIp
  constructor
  · intro h
    have hfound := find?_some h
    refine ⟨mem_of_find?_eq_some h, ?_⟩
    simpa [Option.any_eq_true] using hfound
  · intro ⟨hmem, node, hn, hip⟩
    cases hfind : s.nodeTree.find? fun n => (s.nodes.get? n).any fun node => node.address.ip6 = ip6 with
    | none =>
      have := find?_eq_none.mp hfind n hmem
      simp [hn, hip] at this
    | some m =>
      have hfound := find?_some hfind
      have hm : ∃ node, s.nodes.get? m = some node ∧ node.address.ip6 = ip6 := by
        simpa [Option.any_eq_true] using hfound
      obtain ⟨other, hother, hip'⟩ := hm
      rw [hlisted.ip6_inj (mem_of_find?_eq_some hfind) hmem hother hn (hip'.trans hip.symm)]

theorem nodeForIp_eq_none_iff {ip6 : List UInt8} :
    nodeForIp s ip6 = none ↔ ∀ m ∈ s.nodeTree, ∀ other, s.nodes.get? m = some other → ip6 ≠ other.address.ip6 := by
  unfold nodeForIp
  rw [find?_eq_none]
  constructor
  · intro h m hm other hother heq
    exact h m hm (by simp [hother, heq])
  · intro h m hm hany
    have hex : ∃ node, s.nodes.get? m = some node ∧ node.address.ip6 = ip6 := by
      simpa [Option.any_eq_true] using hany
    obtain ⟨other, hother, heq⟩ := hex
    exact h m hm other hother heq.symm

end

/-! ## The wiring -/

/-- A label that a link which begins at a node with this scheme may have. The labels of our own links
are as they were given to us, those of others have been brought into their canonical form. -/
structure Labels (scheme : Scheme) (own : Prop) (label : BitVec 64) : Prop where
  oneHop : scheme.OneHop label
  notSelf : ¬ scheme.SelfRoute label
  canonical : ¬ own → scheme.Canonical label

structure Wired (s : NodeStore) : Prop where
  listed : s.Listed s.nodeTree
  selfTree : s.selfNode ∈ s.nodeTree
  selfScheme : ∀ node, s.nodes.get? s.selfNode = some node → node.encodingScheme = .v358
  selfLink : ∃ l link, s.selfLink = some l ∧ s.Live l link ∧ link.parent = s.selfNode ∧ link.child = s.selfNode ∧
    link.cannonicalLabel = 1 ∧ link.inverseLinkEncodingFormNumber = 0
  /-- Only the self link leads to us. -/
  toSelf : ∀ l link, s.Live l link → link.child = s.selfNode → some l = s.selfLink
  peer : ∀ n node, s.nodes.get? n = some node → ∀ l ∈ node.peerTree, ∃ link, s.Live l link ∧ link.parent = n
  reverse : ∀ n node, s.nodes.get? n = some node → ∀ l ∈ node.reversePeers, ∃ link, s.Live l link ∧ link.child = n
  parent : ∀ l link, s.Live l link →
    link.parent ∈ s.nodeTree ∧ ∃ node, s.nodes.get? link.parent = some node ∧ l ∈ node.peerTree
  child : ∀ l link, s.Live l link →
    link.child ∈ s.nodeTree ∧ ∃ node, s.nodes.get? link.child = some node ∧ l ∈ node.reversePeers
  ordered : ∀ n node, s.nodes.get? n = some node → s.Ordered node.peerTree
  nodup : ∀ n node, s.nodes.get? n = some node → node.reversePeers.Nodup
  label : ∀ l link node, s.Live l link → some l ≠ s.selfLink → s.nodes.get? link.parent = some node →
    Labels node.encodingScheme (link.parent = s.selfNode) link.cannonicalLabel
  /-- The links that have been taken out wait to be freed. -/
  pending : ∀ l, l ∈ s.linksToFree ↔ ∃ link, s.links.get? l = some link ∧ link.unlinked = true
  pendingNodup : s.linksToFree.Nodup

/-- A best parent ends at its node, if it is still there at all. -/
def BestEnds (s : NodeStore) : Prop :=
  ∀ n node l, s.nodes.get? n = some node → node.bestParent = some l →
    l < s.links.next ∧ ∀ link, s.links.get? l = some link → link.child = n

variable {s s' : NodeStore}

theorem Wired.ofSelf {l} {link} (hs : Wired s) (hself : some l = s.selfLink) (hlive : s.Live l link) :
    link.parent = s.selfNode ∧ link.child = s.selfNode ∧ link.cannonicalLabel = 1 ∧
      link.inverseLinkEncodingFormNumber = 0 := by
  obtain ⟨k, other, hk, hother, hends⟩ := hs.selfLink
  cases hself.trans hk
  rw [hlive.unique hother]
  exact hends

theorem Listed.congr {tree : List NodeId} (h : s.Listed tree)
    (hnode : ∀ n ∈ tree, ∀ node, s.nodes.get? n = some node →
      ∃ node', s'.nodes.get? n = some node' ∧ node'.address.ip6 = node.address.ip6) :
    s'.Listed tree := by
  have hkey : ∀ n ∈ tree, s'.keyOf n = s.keyOf n := by
    intro n hn
    obtain ⟨node, hnode₀, _⟩ := h.node n hn
    obtain ⟨node', hnode', hip⟩ := hnode n hn node hnode₀
    rw [keyOf_eq hnode₀, keyOf_eq hnode', sortKey, sortKey, hip]
  refine ⟨fun n hn => ?_, ?_⟩
  · obtain ⟨node, hnode₀, hlength⟩ := h.node n hn
    obtain ⟨node', hnode', hip⟩ := hnode n hn node hnode₀
    exact ⟨node', hnode', hip ▸ hlength⟩
  · refine List.Pairwise.imp_of_mem (fun ha hb hab => ?_) h.order
    rw [hkey _ ha, hkey _ hb]
    exact hab

/-- The wiring depends on nothing but the lists of the nodes, the ends and labels of the links and the tree. A node
that no link ends at or begins at may come or go. -/
theorem Wired.congr (hs : Wired s) (htree : s'.nodeTree.Sublist s.nodeTree) (hselfNode : s'.selfNode = s.selfNode)
    (hselfLink : s'.selfLink = s.selfLink) (hselfTree : s'.selfNode ∈ s'.nodeTree)
    (hbefore : ∀ l link', s'.Live l link' → ∃ link, s.Live l link ∧ link'.frame = link.frame)
    (hafter : ∀ l link, s.Live l link → ∃ link', s'.Live l link' ∧ link'.frame = link.frame)
    (hnode : ∀ n node', s'.nodes.get? n = some node' →
      (∃ node, s.nodes.get? n = some node ∧ node'.frame = node.frame) ∨
      n ∉ s'.nodeTree ∧ node'.peerTree = [] ∧ node'.reversePeers = [])
    (hkept : ∀ n ∈ s'.nodeTree, ∀ node, s.nodes.get? n = some node →
      ∃ node', s'.nodes.get? n = some node' ∧ node'.frame = node.frame)
    (hends : ∀ l link, s.Live l link → link.parent ∈ s'.nodeTree ∧ link.child ∈ s'.nodeTree)
    (hpending : ∀ l, l ∈ s'.linksToFree ↔ ∃ link, s'.links.get? l = some link ∧ link.unlinked = true)
    (hnodup : s'.linksToFree.Nodup) : Wired s' := by
  have hlisted : s.Listed s'.nodeTree :=
    ⟨fun n hn => hs.listed.node n (htree.mem hn), hs.listed.order.sublist htree⟩
  have hlabel : ∀ l link', s'.Live l link' → s'.label l = s.label l := by
    intro l link' hlive
    obtain ⟨link, hold, hframe⟩ := hbefore l link' hlive
    rw [label_eq hlive.1, label_eq hold.1]
    exact Link.label_of_frame hframe
  have hpeer : ∀ n node', s'.nodes.get? n = some node' →
      ∀ l ∈ node'.peerTree, ∃ link, s'.Live l link ∧ link.parent = n := by
    intro n node' hn l hl
    rcases hnode n node' hn with ⟨node, hold, hframe⟩ | ⟨_, hnil, _⟩
    · have hpeers := Node.peerTree_of_frame hframe
      obtain ⟨link, hlive, hparent⟩ := hs.peer n node hold l (hpeers ▸ hl)
      obtain ⟨link', hlive', hframe'⟩ := hafter l link hlive
      exact ⟨link', hlive', (Link.parent_of_frame hframe').trans hparent⟩
    · rw [hnil] at hl
      cases hl
  refine ⟨?_, hselfTree, ?_, ?_, ?_, hpeer, ?_, ?_, ?_, ?_, ?_, ?_, hpending, hnodup⟩
  · refine hlisted.congr fun n hn node hold => ?_
    obtain ⟨node', hn', hframe⟩ := hkept n hn node hold
    exact ⟨node', hn', Node.ip6_of_frame hframe⟩
  · intro node' hn
    rcases hnode _ node' hn with ⟨node, hold, hframe⟩ | ⟨hnot, _⟩
    · have hscheme := Node.scheme_of_frame hframe
      exact hscheme.trans (hs.selfScheme node (hselfNode ▸ hold))
    · exact absurd hselfTree hnot
  · obtain ⟨l, link, hl, hlive, hparent, hchild, hone, hinv⟩ := hs.selfLink
    obtain ⟨link', hlive', hframe⟩ := hafter l link hlive
    have hparent' := Link.parent_of_frame hframe
    have hchild' := Link.child_of_frame hframe
    have hlabel' := Link.label_of_frame hframe
    have hinv' := Link.inverse_of_frame hframe
    rw [hselfLink, hselfNode]
    exact ⟨l, link', hl, hlive', hparent'.trans hparent, hchild'.trans hchild, hlabel'.trans hone, hinv'.trans hinv⟩
  · intro l link' hlive hchild
    obtain ⟨link, hold, hframe⟩ := hbefore l link' hlive
    have hchild' := Link.child_of_frame hframe
    rw [hselfLink]
    exact hs.toSelf l link hold (hchild'.symm.trans (hchild.trans hselfNode))
  · intro n node' hn l hl
    rcases hnode n node' hn with ⟨node, hold, hframe⟩ | ⟨_, _, hnil⟩
    · have hpeers := Node.reversePeers_of_frame hframe
      obtain ⟨link, hlive, hchild⟩ := hs.reverse n node hold l (hpeers ▸ hl)
      obtain ⟨link', hlive', hframe'⟩ := hafter l link hlive
      exact ⟨link', hlive', (Link.child_of_frame hframe').trans hchild⟩
    · rw [hnil] at hl
      cases hl
  · intro l link' hlive
    obtain ⟨link, hold, hframe⟩ := hbefore l link' hlive
    have hparent := Link.parent_of_frame hframe
    have htree' := (hends l link hold).1
    obtain ⟨_, node, hn, hmem⟩ := hs.parent l link hold
    obtain ⟨node', hn', hframe'⟩ := hkept _ htree' node hn
    have hpeers := Node.peerTree_of_frame hframe'
    rw [hparent]
    exact ⟨htree', node', hn', hpeers ▸ hmem⟩
  · intro l link' hlive
    obtain ⟨link, hold, hframe⟩ := hbefore l link' hlive
    have hchild := Link.child_of_frame hframe
    have htree' := (hends l link hold).2
    obtain ⟨_, node, hn, hmem⟩ := hs.child l link hold
    obtain ⟨node', hn', hframe'⟩ := hkept _ htree' node hn
    have hpeers := Node.reversePeers_of_frame hframe'
    rw [hchild]
    exact ⟨htree', node', hn', hpeers ▸ hmem⟩
  · intro n node' hn
    rcases hnode n node' hn with ⟨node, hold, hframe⟩ | ⟨_, hnil, _⟩
    · have hpeers := Node.peerTree_of_frame hframe
      have hordered := hs.ordered n node hold
      rw [← hpeers] at hordered
      refine hordered.congr fun l hl => ?_
      obtain ⟨link, hlive, _⟩ := hpeer n node' hn l hl
      exact hlabel l link hlive
    · rw [hnil]
      exact List.Pairwise.nil
  · intro n node' hn
    rcases hnode n node' hn with ⟨node, hold, hframe⟩ | ⟨_, _, hnil⟩
    · have hpeers := Node.reversePeers_of_frame hframe
      rw [hpeers]
      exact hs.nodup n node hold
    · rw [hnil]
      exact nodup_nil
  · intro l link' node' hlive hne hn
    obtain ⟨link, hold, hframe⟩ := hbefore l link' hlive
    have hparent := Link.parent_of_frame hframe
    have hone := Link.label_of_frame hframe
    rw [hparent] at hn ⊢
    rcases hnode _ node' hn with ⟨node, holdNode, hframe'⟩ | ⟨hnot, _⟩
    · have hscheme := Node.scheme_of_frame hframe'
      rw [hscheme, hone, hselfNode]
      exact hs.label l link node hold (hselfLink ▸ hne) holdNode
    · exact absurd (hends l link hold).1 hnot

namespace SameWiring

variable {s s' : NodeStore}

theorem pending (h : SameWiring s s') (l : LinkId) : (∃ link, s'.links.get? l = some link ∧ link.unlinked = true) ↔
    ∃ link, s.links.get? l = some link ∧ link.unlinked = true := by
  have hmap := h.link l
  cases hold : s.links.get? l with
  | none =>
    rw [hold] at hmap
    simp [map_eq_none_iff.mp hmap]
  | some old =>
    rw [hold] at hmap
    obtain ⟨new, hnew, hframe⟩ := map_eq_some_iff.mp hmap
    have hunlinked := Link.unlinked_of_frame hframe
    simp [hnew, hunlinked]

theorem wired (h : SameWiring s s') (hs : Wired s) : Wired s' := by
  refine hs.congr (h.nodeTree ▸ .refl _) h.selfNode h.selfLink ?_ (fun l link => h.live_before)
    (fun l link => h.live_after) (fun n node hn => .inl (h.node_before hn)) (fun n _ node hn => h.node_after hn)
    (fun l link hlive => ?_) (fun l => ?_) ?_
  · rw [h.nodeTree, h.selfNode]
    exact hs.selfTree
  · rw [h.nodeTree]
    exact ⟨(hs.parent l link hlive).1, (hs.child l link hlive).1⟩
  · rw [h.linksToFree, h.pending l]
    exact hs.pending l
  · rw [h.linksToFree]
    exact hs.pendingNodup

end SameWiring

/-! ## A link is taken out -/

/-- What `detach` does: the link is in no list any more, and waits to be freed. -/
structure Detached (s : NodeStore) (l : LinkId) (link : Link) (s' : NodeStore) : Prop where
  rest : ∃ nodes links, s' = { s with nodes, links, linksToFree := l :: s.linksToFree }
  node : ∀ n, s'.nodes.get? n = (s.nodes.get? n).map fun node =>
    { node with
      reversePeers := if n = link.child then node.reversePeers.erase l else node.reversePeers
      peerTree := if n = link.parent then node.peerTree.erase l else node.peerTree }
  link : ∀ k, s'.links.get? k = if k = l then some { link with unlinked := true } else s.links.get? k
  nextNode : s'.nodes.next = s.nodes.next
  nextLink : s'.links.next = s.links.next

variable {paranoia : Bool} {l : LinkId}

theorem detach_cases (h : detach paranoia s l = .ret s') :
    ∃ link, s.Live l link ∧ Detached s l link s' := by
  obtain ⟨link, hlive, h⟩ := Er.bind_inv h
  have hlive := link_eq_ret.mp hlive
  obtain ⟨child, hchild, h⟩ := Er.bind_inv h
  have hchild := node_eq_ret.mp hchild
  obtain ⟨_, _, parent, hparent, h⟩ := Er.bind_inv2 h
  have hparent := node_eq_ret.mp hparent
  obtain ⟨_, _, h⟩ := Er.bind_inv h
  cases h
  refine ⟨link, hlive, ⟨_, _, rfl⟩, fun n => ?_, fun k => Heap.get?_set hlive.1, ?_, Heap.next_set⟩
  · have hparent' : (s.nodes.set link.child { child with reversePeers := child.reversePeers.erase l }).get? link.parent =
        some parent := hparent
    show ((s.nodes.set link.child _).set link.parent _).get? n = _
    rw [Heap.get?_set hparent', Heap.get?_set hchild]
    rw [Heap.get?_set hchild] at hparent'
    by_cases hnp : n = link.parent
    · rw [if_pos hnp, hnp]
      by_cases hpc : link.parent = link.child
      · rw [if_pos hpc] at hparent'
        cases hparent'
        rw [hpc, hchild]
        simp
      · rw [if_neg hpc] at hparent'
        rw [hparent']
        simp [hpc]
    · rw [if_neg hnp]
      by_cases hnc : n = link.child
      · rw [if_pos hnc, hnc, hchild]
        simp [hnc ▸ hnp]
      · rw [if_neg hnc]
        simp [hnp, hnc]
  · show ((s.nodes.set link.child _).set link.parent _).next = _
    rw [Heap.next_set, Heap.next_set]

namespace Detached

variable {s s' : NodeStore} {l k : LinkId} {link other : Link} {n : NodeId} {node : Node}

variable (h : Detached s l link s')
include h

theorem selfNode : s'.selfNode = s.selfNode := by
  obtain ⟨_, _, rfl⟩ := h.rest
  rfl

theorem selfLink : s'.selfLink = s.selfLink := by
  obtain ⟨_, _, rfl⟩ := h.rest
  rfl

theorem nodeTree : s'.nodeTree = s.nodeTree := by
  obtain ⟨_, _, rfl⟩ := h.rest
  rfl

theorem linksToFree : s'.linksToFree = l :: s.linksToFree := by
  obtain ⟨_, _, rfl⟩ := h.rest
  rfl

theorem live_iff : s'.Live k other ↔ k ≠ l ∧ s.Live k other := by
  unfold Live
  rw [h.link]
  by_cases hkl : k = l
  · rw [if_pos hkl]
    constructor
    · intro ⟨heq, hunlinked⟩
      rw [← some.inj heq] at hunlinked
      cases hunlinked
    · intro hne
      exact absurd hkl hne.1
  · rw [if_neg hkl]
    exact (and_iff_right hkl).symm

theorem node_before (hn : s'.nodes.get? n = some node) :
    ∃ old, s.nodes.get? n = some old ∧ node = { old with
      reversePeers := if n = link.child then old.reversePeers.erase l else old.reversePeers
      peerTree := if n = link.parent then old.peerTree.erase l else old.peerTree } := by
  rw [h.node] at hn
  obtain ⟨old, hold, heq⟩ := map_eq_some_iff.mp hn
  exact ⟨old, hold, heq.symm⟩

theorem node_after (hn : s.nodes.get? n = some node) :
    s'.nodes.get? n = some { node with
      reversePeers := if n = link.child then node.reversePeers.erase l else node.reversePeers
      peerTree := if n = link.parent then node.peerTree.erase l else node.peerTree } := by
  rw [h.node, hn]
  rfl

theorem label (hlive : s.Live l link) (k : LinkId) : s'.label k = s.label k := by
  unfold NodeStore.label
  rw [h.link]
  by_cases hkl : k = l
  · rw [if_pos hkl, hkl, hlive.1]
    rfl
  · rw [if_neg hkl]

omit h

/-- The link is in no list any more, and all others are where they were. -/
theorem mem_peerTree (hs : Wired s) (hlive : s.Live l link) (hn : s.nodes.get? n = some node) :
    k ∈ (if n = link.parent then node.peerTree.erase l else node.peerTree) ↔ k ∈ node.peerTree ∧ k ≠ l := by
  split
  · rw [(hs.ordered n node hn).nodup.mem_erase_iff, and_comm]
  next hnp =>
    refine (and_iff_left_of_imp fun hk heq => ?_).symm
    obtain ⟨other, hother, hparent⟩ := hs.peer n node hn k hk
    rw [heq] at hother
    rw [hother.unique hlive] at hparent
    exact hnp hparent.symm

theorem mem_reversePeers (hs : Wired s) (hlive : s.Live l link) (hn : s.nodes.get? n = some node) :
    k ∈ (if n = link.child then node.reversePeers.erase l else node.reversePeers) ↔ k ∈ node.reversePeers ∧ k ≠ l := by
  split
  · rw [(hs.nodup n node hn).mem_erase_iff, and_comm]
  next hnc =>
    refine (and_iff_left_of_imp fun hk heq => ?_).symm
    obtain ⟨other, hother, hchild⟩ := hs.reverse n node hn k hk
    rw [heq] at hother
    rw [hother.unique hlive] at hchild
    exact hnc hchild.symm

theorem wired (h : Detached s l link s') (hs : Wired s) (hlive : s.Live l link) (hself : some l ≠ s.selfLink) :
    Wired s' := by
  refine ⟨?_, ?_, ?_, ?_, ?_, ?_, ?_, ?_, ?_, ?_, ?_, ?_, ?_, ?_⟩
  · rw [h.nodeTree]
    exact hs.listed.congr fun n _ node hn => ⟨_, h.node_after hn, rfl⟩
  · rw [h.nodeTree, h.selfNode]
    exact hs.selfTree
  · intro node hn
    rw [h.selfNode] at hn
    obtain ⟨old, hold, rfl⟩ := h.node_before hn
    exact hs.selfScheme old hold
  · obtain ⟨k, other, hk, hother, hends⟩ := hs.selfLink
    rw [h.selfLink, h.selfNode]
    exact ⟨k, other, hk, h.live_iff.mpr ⟨fun hkl => hself (hkl ▸ hk.symm), hother⟩, hends⟩
  · intro k other hother hchild
    rw [h.selfLink]
    exact hs.toSelf k other (h.live_iff.mp hother).2 (hchild.trans h.selfNode)
  · intro n node hn k hk
    obtain ⟨old, hold, rfl⟩ := h.node_before hn
    obtain ⟨hk, hne⟩ := (mem_peerTree hs hlive hold).mp hk
    obtain ⟨other, hother, hparent⟩ := hs.peer n old hold k hk
    exact ⟨other, h.live_iff.mpr ⟨hne, hother⟩, hparent⟩
  · intro n node hn k hk
    obtain ⟨old, hold, rfl⟩ := h.node_before hn
    obtain ⟨hk, hne⟩ := (mem_reversePeers hs hlive hold).mp hk
    obtain ⟨other, hother, hchild⟩ := hs.reverse n old hold k hk
    exact ⟨other, h.live_iff.mpr ⟨hne, hother⟩, hchild⟩
  · intro k other hother
    obtain ⟨hne, hother⟩ := h.live_iff.mp hother
    obtain ⟨htree, node, hn, hk⟩ := hs.parent k other hother
    rw [h.nodeTree]
    exact ⟨htree, _, h.node_after hn, (mem_peerTree hs hlive hn).mpr ⟨hk, hne⟩⟩
  · intro k other hother
    obtain ⟨hne, hother⟩ := h.live_iff.mp hother
    obtain ⟨htree, node, hn, hk⟩ := hs.child k other hother
    rw [h.nodeTree]
    exact ⟨htree, _, h.node_after hn, (mem_reversePeers hs hlive hn).mpr ⟨hk, hne⟩⟩
  · intro n node hn
    obtain ⟨old, hold, rfl⟩ := h.node_before hn
    have hordered := (hs.ordered n old hold).congr fun k _ => h.label hlive k
    split
    · exact hordered.sublist erase_sublist
    · exact hordered
  · intro n node hn
    obtain ⟨old, hold, rfl⟩ := h.node_before hn
    dsimp only
    split
    · exact (hs.nodup n old hold).erase l
    · exact hs.nodup n old hold
  · intro k other node hother hne hn
    obtain ⟨old, hold, rfl⟩ := h.node_before hn
    rw [h.selfNode]
    exact hs.label k other old (h.live_iff.mp hother).2 (h.selfLink ▸ hne) hold
  · intro k
    rw [h.linksToFree, mem_cons, h.link, hs.pending]
    by_cases hkl : k = l
    · rw [if_pos hkl]
      exact iff_of_true (.inl hkl) ⟨_, rfl, rfl⟩
    · rw [if_neg hkl, or_iff_right hkl]
  · rw [h.linksToFree]
    refine nodup_cons.mpr ⟨fun hl => ?_, hs.pendingNodup⟩
    obtain ⟨other, hother, hunlinked⟩ := (hs.pending l).mp hl
    rw [hlive.1] at hother
    rw [← some.inj hother, hlive.2] at hunlinked
    cases hunlinked

theorem bestEnds (h : Detached s l link s') (hs : BestEnds s) (hlive : s.Live l link) : BestEnds s' := by
  intro n node k hn hk
  obtain ⟨old, hold, rfl⟩ := h.node_before hn
  obtain ⟨hlt, hchild⟩ := hs n old k hold hk
  refine ⟨h.nextLink ▸ hlt, fun other hother => ?_⟩
  rw [h.link] at hother
  split at hother
  next hkl =>
    cases hother
    exact hchild link (hkl ▸ hlive.1)
  · exact hchild other hother

end Detached

/-! ## A link is made -/

theorem insertPeer_congr {peers} (h : s'.links = s.links) :
    insertPeer s' l peers = insertPeer s l peers := by
  induction peers with
  | nil => rfl
  | cons x peers ih =>
    unfold insertPeer NodeStore.label
    rw [h, ih]

theorem insertNode_congr {n} {address} {tree} (h : s'.nodes = s.nodes) :
    insertNode s' n address tree = insertNode s n address tree := by
  induction tree with
  | nil => rfl
  | cons x tree ih =>
    unfold insertNode
    rw [h, ih]

theorem nodeForIp_congr {ip6 : List UInt8} (htree : s'.nodeTree = s.nodeTree)
    (hnode : ∀ n, (s'.nodes.get? n).map (·.address.ip6) = (s.nodes.get? n).map (·.address.ip6)) :
    nodeForIp s' ip6 = nodeForIp s ip6 := by
  unfold nodeForIp
  congr 1
  funext n
  have hmap := hnode n
  cases hold : s.nodes.get? n with
  | none =>
    rw [hold] at hmap
    rw [map_eq_none_iff.mp hmap]
  | some old =>
    rw [hold] at hmap
    obtain ⟨new, hnew, hip⟩ := map_eq_some_iff.mp hmap
    rw [hnew, any_some, any_some, hip]

/-- The link `attach` makes. -/
def newLink (parent child : NodeId) (cannonicalLabel : BitVec 64) (inverseLinkEncodingFormNumber : Int)
    (discoveredPath : BitVec 64) : Link :=
  { inverseLinkEncodingFormNumber, linkCost := 0, parent, child, unlinked := false, nextInSplitList := none
    cannonicalLabel, discoveredPath }

/-- What `attach` does for a link that does not lead to us: it is in both lists, and its child in the tree. -/
structure Attached (s : NodeStore) (link : Link) (s' : NodeStore) : Prop where
  rest : ∃ nodes nodeTree nodeCount, s' = { s with
    nodes, nodeTree, nodeCount, links := s.links.alloc link, linkCount := s.linkCount + 1 }
  node : ∀ n, s'.nodes.get? n = (s.nodes.get? n).map fun node =>
    { node with
      reversePeers := if n = link.child then s.links.next :: node.reversePeers else node.reversePeers
      peerTree := if n = link.parent then insertPeer s' s.links.next node.peerTree else node.peerTree }
  nextNode : s'.nodes.next = s.nodes.next
  tree : ∃ child, s.nodes.get? link.child = some child ∧
    (nodeForIp s child.address.ip6 ≠ none ∧ s'.nodeTree = s.nodeTree ∧ s'.nodeCount = s.nodeCount ∨
      nodeForIp s child.address.ip6 = none ∧ s'.nodeCount = s.nodeCount + 1 ∧
        s'.nodeTree = insertNode s' link.child child.address s.nodeTree)

variable {parent child : NodeId} {label : BitVec 64}

theorem storeEntry_cases {address} (h : storeEntry s l parent child address label = .ret s')
    (hne : nodeForIp s address.ip6 = none → child ≠ parent) :
    (nodeForIp s address.ip6 ≠ none ∧ s' = s) ∨ (nodeForIp s address.ip6 = none ∧
      s' = { s with nodeTree := insertNode s child address s.nodeTree, nodeCount := s.nodeCount + 1 }) := by
  unfold storeEntry at h
  split at h
  next hsome => exact .inl ⟨isSome_iff_ne_none.mp hsome, (Er.ret.inj h).symm⟩
  next hnone =>
    rw [Bool.not_eq_true, isSome_eq_false_iff, isNone_iff_eq_none] at hnone
    rw [if_neg (hne hnone)] at h
    exact .inr ⟨hnone, (Er.ret.inj h).symm⟩

theorem attach_nodes {path : BitVec 64} {inv : Int} (h : attach paranoia s parent child label inv path = .ret s') :
    ∃ childNode nodes, s.nodes.get? child = some childNode ∧ nodes.next = s.nodes.next ∧
      (∀ t : NodeStore, t.links = s.links.alloc (newLink parent child label inv path) →
        ∀ n, nodes.get? n = (s.nodes.get? n).map fun node =>
          { node with
            reversePeers := if n = child then s.links.next :: node.reversePeers else node.reversePeers
            peerTree := if n = parent then insertPeer t s.links.next node.peerTree else node.peerTree }) ∧
      storeEntry { s with
        nodes, links := s.links.alloc (newLink parent child label inv path), linkCount := s.linkCount + 1 }
        s.links.next parent child childNode.address label = .ret s' := by
  obtain ⟨childNode, hchild, h⟩ := Er.bind_inv h
  have hchild : s.nodes.get? child = some childNode := node_eq_ret.mp hchild
  obtain ⟨parentNode, hparent, h⟩ := Er.bind_inv h
  have hparent : (s.nodes.set child { childNode with
      reversePeers := s.links.next :: childNode.reversePeers }).get? parent = some parentNode := node_eq_ret.mp hparent
  obtain ⟨_, _, h⟩ := Er.bind_inv h
  refine ⟨childNode, _, hchild, ?_, fun t ht n => ?_, h⟩
  · rw [Heap.next_set]
    exact Heap.next_set
  · show ((s.nodes.set child { childNode with reversePeers := s.links.next :: childNode.reversePeers }).set parent _).get?
        n = _
    rw [Heap.get?_set hparent]
    rw [Heap.get?_set hchild] at hparent
    by_cases hnp : n = parent
    · rw [if_pos hnp, hnp, ← insertPeer_congr ht]
      by_cases hpc : parent = child
      · rw [if_pos hpc] at hparent
        cases hparent
        rw [hpc, hchild]
        simp
      · rw [if_neg hpc] at hparent
        rw [hparent]
        simp [hpc]
    · rw [if_neg hnp, Heap.get?_set hchild]
      by_cases hnc : n = child
      · rw [if_pos hnc, hnc, hchild]
        simp [hnc ▸ hnp]
      · rw [if_neg hnc]
        simp [hnp, hnc]

theorem attach_cases {path} {inv : Int} (h : attach paranoia s parent child label inv path = .ret s')
    (hknown : ∀ node, child = parent → s.nodes.get? child = some node → nodeForIp s node.address.ip6 ≠ none) :
    Attached s (newLink parent child label inv path) s' := by
  obtain ⟨childNode, nodes, hchild, hnext, hnode, h⟩ := attach_nodes h
  have hfound : nodeForIp { s with
      nodes, links := s.links.alloc (newLink parent child label inv path), linkCount := s.linkCount + 1 }
      childNode.address.ip6 = nodeForIp s childNode.address.ip6 := by
    refine nodeForIp_congr rfl fun n => ?_
    rw [hnode { s with links := s.links.alloc (newLink parent child label inv path) } rfl, Option.map_map]
    rfl
  rcases storeEntry_cases h (fun hnone heq => hknown childNode heq hchild (hfound ▸ hnone)) with
    ⟨hsome, rfl⟩ | ⟨hnone, rfl⟩
  · exact ⟨⟨_, _, _, rfl⟩, hnode _ rfl, hnext, childNode, hchild, .inl ⟨hfound ▸ hsome, rfl, rfl⟩⟩
  · exact ⟨⟨_, _, _, rfl⟩, hnode _ rfl, hnext, childNode, hchild, .inr ⟨hfound ▸ hnone, rfl, insertNode_congr rfl⟩⟩

/-- A node that a link may be made to: it is in the tree, or its address is not. -/
structure Joins (s : NodeStore) (n : NodeId) : Prop where
  other : n ≠ s.selfNode
  node : ∃ node, s.nodes.get? n = some node ∧ node.address.ip6.length = 16 ∧
    (n ∈ s.nodeTree ∨ nodeForIp s node.address.ip6 = none)

namespace Attached

variable {s s' : NodeStore} {k : LinkId} {link other : Link} {n : NodeId} {node : Node}

variable (h : Attached s link s')
include h

theorem selfNode : s'.selfNode = s.selfNode := by
  obtain ⟨_, _, _, rfl⟩ := h.rest
  rfl

theorem selfLink : s'.selfLink = s.selfLink := by
  obtain ⟨_, _, _, rfl⟩ := h.rest
  rfl

theorem links : s'.links = s.links.alloc link := by
  obtain ⟨_, _, _, rfl⟩ := h.rest
  rfl

theorem linksToFree : s'.linksToFree = s.linksToFree := by
  obtain ⟨_, _, _, rfl⟩ := h.rest
  rfl

theorem link_eq : s'.links.get? k = if k = s.links.next then some link else s.links.get? k := by
  rw [h.links, Heap.get?_alloc]

theorem live_iff (hlinked : link.unlinked = false) :
    s'.Live k other ↔ k = s.links.next ∧ other = link ∨ s.Live k other := by
  unfold Live
  rw [h.link_eq]
  by_cases hk : k = s.links.next
  · rw [if_pos hk, hk, Heap.get?_next]
    constructor
    · intro ⟨heq, _⟩
      exact .inl ⟨rfl, (some.inj heq).symm⟩
    · intro hcases
      rcases hcases with ⟨_, rfl⟩ | ⟨hnone, _⟩
      · exact ⟨rfl, hlinked⟩
      · cases hnone
  · rw [if_neg hk]
    simp [hk]

theorem node_before (hn : s'.nodes.get? n = some node) :
    ∃ old, s.nodes.get? n = some old ∧ node = { old with
      reversePeers := if n = link.child then s.links.next :: old.reversePeers else old.reversePeers
      peerTree := if n = link.parent then insertPeer s' s.links.next old.peerTree else old.peerTree } := by
  rw [h.node] at hn
  obtain ⟨old, hold, heq⟩ := map_eq_some_iff.mp hn
  exact ⟨old, hold, heq.symm⟩

theorem node_after (hn : s.nodes.get? n = some node) :
    s'.nodes.get? n = some { node with
      reversePeers := if n = link.child then s.links.next :: node.reversePeers else node.reversePeers
      peerTree := if n = link.parent then insertPeer s' s.links.next node.peerTree else node.peerTree } := by
  rw [h.node, hn]
  rfl

theorem label_next : s'.label s.links.next = link.cannonicalLabel := by
  unfold NodeStore.label
  rw [h.link_eq, if_pos rfl]
  rfl

theorem label_of_ne (hk : k ≠ s.links.next) : s'.label k = s.label k := by
  unfold NodeStore.label
  rw [h.link_eq, if_neg hk]

theorem listed_before (hs : Wired s) : s'.Listed s.nodeTree :=
  hs.listed.congr fun _ _ _ hm => ⟨_, h.node_after hm, rfl⟩

theorem ip6_ne {ip6} (hnone : s.nodeForIp ip6 = none) :
    ∀ m ∈ s.nodeTree, ∀ other, s'.nodes.get? m = some other → ip6 ≠ other.address.ip6 := by
  intro m hm other hother
  obtain ⟨old, hold, rfl⟩ := h.node_before hother
  exact nodeForIp_eq_none_iff.mp hnone m hm old hold

theorem mem_nodeTree (hs : Wired s) (hjoins : s.Joins link.child) :
    n ∈ s'.nodeTree ↔ n = link.child ∨ n ∈ s.nodeTree := by
  obtain ⟨child, hchild, hcases⟩ := h.tree
  obtain ⟨child', hchild', _, hin⟩ := hjoins.node
  cases hchild.symm.trans hchild'
  rcases hcases with ⟨hsome, htree, _⟩ | ⟨hnone, _, htree⟩
  · have hmem := hin.resolve_right hsome
    rw [htree]
    constructor
    · exact .inr
    · intro hcases
      rcases hcases with rfl | hn
      · exact hmem
      · exact hn
  · rw [htree, mem_insertNode (h.listed_before hs)]
    exact h.ip6_ne hnone

theorem listed (hs : Wired s) (hjoins : s.Joins link.child) : s'.Listed s'.nodeTree := by
  obtain ⟨child, hchild, hcases⟩ := h.tree
  obtain ⟨child', hchild', hlength, _⟩ := hjoins.node
  cases hchild.symm.trans hchild'
  rcases hcases with ⟨_, htree, _⟩ | ⟨hnone, _, htree⟩
  · rw [htree]
    exact h.listed_before hs
  · have hinserted := (h.listed_before hs).insertNode (h.node_after hchild) hlength (h.ip6_ne hnone)
    rw [htree]
    exact hinserted

theorem wired (hs : Wired s) (hlinked : link.unlinked = false) (hjoins : s.Joins link.child)
    (hparent : link.parent ∈ s.nodeTree)
    (hfresh : ∀ node, s.nodes.get? link.parent = some node → ∀ x ∈ node.peerTree, s.label x ≠ link.cannonicalLabel)
    (hlabels : ∀ node, s.nodes.get? link.parent = some node →
      Labels node.encodingScheme (link.parent = s.selfNode) link.cannonicalLabel) : Wired s' := by
  have hne : ∀ n node, s.nodes.get? n = some node → ∀ x ∈ node.peerTree, x ≠ s.links.next := by
    intro n node hn x hx heq
    obtain ⟨other, hlive, _⟩ := hs.peer n node hn x hx
    rw [heq] at hlive
    exact absurd hlive.1 (by simp [Heap.get?_next])
  have hnew : ∀ node, s.nodes.get? link.parent = some node →
      ∀ x ∈ node.peerTree, s'.label x ≠ s'.label s.links.next := by
    intro node hn x hx
    rw [h.label_next, h.label_of_ne (hne _ node hn x hx)]
    exact hfresh node hn x hx
  have hpeers : ∀ n node, s.nodes.get? n = some node → ∀ x,
      x ∈ (if n = link.parent then insertPeer s' s.links.next node.peerTree else node.peerTree) ↔
        n = link.parent ∧ x = s.links.next ∨ x ∈ node.peerTree := by
    intro n node hn x
    split
    next hnp =>
      rw [mem_insertPeer (hnew node (hnp ▸ hn))]
      simp [hnp]
    next hnp => simp [hnp]
  have hlast : s'.Live s.links.next link := (h.live_iff hlinked).mpr (.inl ⟨rfl, rfl⟩)
  refine ⟨h.listed hs hjoins, ?_, ?_, ?_, ?_, ?_, ?_, ?_, ?_, ?_, ?_, ?_, ?_, ?_⟩
  · rw [h.mem_nodeTree hs hjoins, h.selfNode]
    exact .inr hs.selfTree
  · intro node hn
    rw [h.selfNode] at hn
    obtain ⟨old, hold, rfl⟩ := h.node_before hn
    exact hs.selfScheme old hold
  · obtain ⟨k, other, hk, hother, hends⟩ := hs.selfLink
    rw [h.selfLink, h.selfNode]
    exact ⟨k, other, hk, (h.live_iff hlinked).mpr (.inr hother), hends⟩
  · intro k other hother hchild
    rw [h.selfLink]
    rw [h.selfNode] at hchild
    rcases (h.live_iff hlinked).mp hother with ⟨_, rfl⟩ | hother
    · exact absurd hchild hjoins.other
    · exact hs.toSelf k other hother hchild
  · intro n node hn k hk
    obtain ⟨old, hold, rfl⟩ := h.node_before hn
    rcases (hpeers n old hold k).mp hk with ⟨hnp, rfl⟩ | hk
    · exact ⟨link, hlast, hnp.symm⟩
    · obtain ⟨other, hother, hends⟩ := hs.peer n old hold k hk
      exact ⟨other, (h.live_iff hlinked).mpr (.inr hother), hends⟩
  · intro n node hn k hk
    obtain ⟨old, hold, rfl⟩ := h.node_before hn
    dsimp only at hk
    have hold' : k ∈ old.reversePeers → ∃ other, s'.Live k other ∧ other.child = n := by
      intro hk
      obtain ⟨other, hother, hends⟩ := hs.reverse n old hold k hk
      exact ⟨other, (h.live_iff hlinked).mpr (.inr hother), hends⟩
    split at hk
    next hnc =>
      rcases mem_cons.mp hk with rfl | hk
      · exact ⟨link, hlast, hnc.symm⟩
      · exact hold' hk
    · exact hold' hk
  · intro k other hother
    rw [h.mem_nodeTree hs hjoins]
    rcases (h.live_iff hlinked).mp hother with ⟨rfl, rfl⟩ | hother
    · obtain ⟨node, hn, _⟩ := hs.listed.node _ hparent
      exact ⟨.inr hparent, _, h.node_after hn, (hpeers _ node hn _).mpr (.inl ⟨rfl, rfl⟩)⟩
    · obtain ⟨htree, node, hn, hk⟩ := hs.parent k other hother
      exact ⟨.inr htree, _, h.node_after hn, (hpeers _ node hn _).mpr (.inr hk)⟩
  · intro k other hother
    rw [h.mem_nodeTree hs hjoins]
    rcases (h.live_iff hlinked).mp hother with ⟨rfl, rfl⟩ | hother
    · obtain ⟨node, hn, _⟩ := hjoins.node
      exact ⟨.inl rfl, _, h.node_after hn, by simp⟩
    · obtain ⟨htree, node, hn, hk⟩ := hs.child k other hother
      refine ⟨.inr htree, _, h.node_after hn, ?_⟩
      dsimp only
      split
      · exact mem_cons_of_mem _ hk
      · exact hk
  · intro n node hn
    obtain ⟨old, hold, rfl⟩ := h.node_before hn
    have hordered : s'.Ordered old.peerTree :=
      (hs.ordered n old hold).congr fun x hx => h.label_of_ne (hne n old hold x hx)
    split
    next hnp => exact hordered.insertPeer (hnew old (hnp ▸ hold))
    · exact hordered
  · intro n node hn
    obtain ⟨old, hold, rfl⟩ := h.node_before hn
    dsimp only
    split
    · refine nodup_cons.mpr ⟨fun hmem => ?_, hs.nodup n old hold⟩
      obtain ⟨other, hother, _⟩ := hs.reverse n old hold _ hmem
      exact absurd hother.1 (by simp [Heap.get?_next])
    · exact hs.nodup n old hold
  · intro k other node hother hself hn
    obtain ⟨old, hold, rfl⟩ := h.node_before hn
    rw [h.selfNode]
    rcases (h.live_iff hlinked).mp hother with ⟨rfl, rfl⟩ | hother
    · exact hlabels old hold
    · exact hs.label k other old hother (h.selfLink ▸ hself) hold
  · intro k
    rw [h.linksToFree, hs.pending, h.link_eq]
    by_cases hk : k = s.links.next
    · rw [if_pos hk, hk, Heap.get?_next]
      constructor
      · intro ⟨_, hnone, _⟩
        cases hnone
      · intro ⟨other, heq, hunlinked⟩
        rw [← some.inj heq, hlinked] at hunlinked
        cases hunlinked
    · rw [if_neg hk]
  · rw [h.linksToFree]
    exact hs.pendingNodup

theorem bestEnds (hs : BestEnds s) : BestEnds s' := by
  intro n node k hn hk
  obtain ⟨old, hold, rfl⟩ := h.node_before hn
  obtain ⟨hlt, hchild⟩ := hs n old k hold hk
  rw [h.links, Heap.next_alloc]
  refine ⟨hlt.trans (Nat.lt_succ_self _), fun other hother => ?_⟩
  rw [Heap.get?_alloc, if_neg (Nat.ne_of_lt hlt)] at hother
  exact hchild other hother

end Attached

end NodeStore

end Hyperboria
