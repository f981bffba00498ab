/-
Between the calls of the store the best parents of the nodes make a tree with the self node at its root
(`Routed`): what a node is reached by fits what its parent is reached by now, and nobody is marked.

While news of a link is handled that is not so. A node that has had its turn fits its parent, and so does
every other one that is not marked; one that is marked may still have what its parent had before. But the
path it has is the path of a way that is there (`Staged`), and no two ways have the same path. So a node
whose cost and path stay the same in its turn has the right best parent already.
-/
import Hyperboria.Dht.Moves
import Hyperboria.Dht.Spells
import Hyperboria.Ways

namespace Hyperboria

open Option

open EncodingScheme (Scheme)
open LabelSplicer (join)

/-- What a node is reached by, and how its own links are written. -/
def Node.route (node : Node) : Option LinkId × BitVec 64 × BitVec 64 × Scheme :=
  (node.bestParent, node.cost, node.address.path, node.encodingScheme)

section
variable {a b : Node}

variable (h : a.route = b.route)
include h

theorem Node.best_of_route : a.bestParent = b.bestParent := congrArg (·.1) h

theorem Node.cost_of_route : a.cost = b.cost := congrArg (·.2.1) h

theorem Node.path_of_route : a.address.path = b.address.path := congrArg (·.2.2.1) h

theorem Node.scheme_of_route : a.encodingScheme = b.encodingScheme := congrArg (·.2.2.2) h

end

namespace NodeStore

/-- What the node is reached by fits what its parent is reached by. -/
def Agrees (s : NodeStore) (node : Node) : Prop :=
  match node.bestParent with
  | none => node.cost = UINT64_MAX ∧ node.address.path = UINT64_MAX
  | some l => s.Fits l node.cost node.address.path

/-- No link is cheaper than that. -/
def Priced (s : NodeStore) : Prop := ∀ l link, s.Live l link → 1024 ≤ link.linkCost.toNat

structure Routed (s : NodeStore) : Prop where
  self : ∃ node, s.nodes.get? s.selfNode = some node ∧ node.bestParent = s.selfLink ∧ node.cost = 0 ∧
    node.address.path = 1
  ends : ∀ n node l, s.nodes.get? n = some node → node.bestParent = some l → ∃ link, s.Live l link ∧ link.child = n
  agrees : ∀ n ∈ s.nodeTree, n ≠ s.selfNode → ∀ node, s.nodes.get? n = some node → s.Agrees node
  /-- A node that is not in the tree has just been allocated. -/
  outside : ∀ n node, s.nodes.get? n = some node → n ∉ s.nodeTree → node.bestParent = none ∧ node.cost = 0
  ascends : Ways.Ascends s.Up
  priced : Priced s
  unmarked : ∀ n ∈ s.nodeTree, ∀ node, s.nodes.get? n = some node → node.marked = false

variable {cost path : BitVec 64}

variable {s s' : NodeStore} {l : LinkId}

theorem Fits.mono (h : s.Fits l cost path)
    (hlink : ∀ link, s.Live l link → ∃ link', s'.Live l link' ∧ link'.parent = link.parent ∧
      link'.cannonicalLabel = link.cannonicalLabel ∧ link'.linkCost = link.linkCost)
    (hparent : ∀ link parent, s.Live l link → s.nodes.get? link.parent = some parent →
      ∃ parent', s'.nodes.get? link.parent = some parent' ∧ parent'.route = parent.route)
    (hbest : ∀ link parent k other, s.Live l link → s.nodes.get? link.parent = some parent →
      parent.bestParent = some k → s.Live k other → ∃ other', s'.Live k other' ∧
      other'.inverseLinkEncodingFormNumber = other.inverseLinkEncodingFormNumber) :
    s'.Fits l cost path := by
  obtain ⟨⟨link, parent, parentBest, parentLink, hlive, hmax, hp, hpbest, hplink, hcost, hpath⟩, hfinite, hshort,
    hvalid⟩ := h
  obtain ⟨link', hlive', hends, hlabel, hlinkCost⟩ := hlink link hlive
  obtain ⟨parent', hp', hroute⟩ := hparent link parent hlive hp
  obtain ⟨parentLink', hplink', hinverse⟩ := hbest link parent parentBest parentLink hlive hp hpbest hplink
  refine ⟨⟨link', parent', parentBest, parentLink', hlive', hlinkCost ▸ hmax, hends ▸ hp',
    (Node.best_of_route hroute).trans hpbest, hplink', ?_, ?_⟩, hfinite, hshort, hvalid⟩
  · rw [Node.cost_of_route hroute, hlinkCost, hcost]
  · rw [Node.path_of_route hroute, Node.scheme_of_route hroute, hlabel, hinverse, hpath]

/-- What changes neither what nodes are reached by nor the links they are reached by. -/
theorem Routed.congr (hs : Routed s) (hselfNode : s'.selfNode = s.selfNode) (hselfLink : s'.selfLink = s.selfLink)
    (hback : ∀ l link, s'.Live l link → s.Live l link)
    (hbest : ∀ n node l link, s.nodes.get? n = some node → node.bestParent = some l → s.Live l link → s'.Live l link)
    (hnode : ∀ n node', s'.nodes.get? n = some node' →
      (∃ node, s.nodes.get? n = some node ∧ node'.route = node.route ∧ (n ∈ s'.nodeTree ↔ n ∈ s.nodeTree)) ∨
      node'.bestParent = none ∧ (n ∈ s'.nodeTree → node'.cost = UINT64_MAX ∧ node'.address.path = UINT64_MAX) ∧
        (n ∉ s'.nodeTree → node'.cost = 0))
    (hparent : ∀ n node, s.nodes.get? n = some node → (n = s.selfNode ∨ ∃ l link, s.Live l link ∧ link.parent = n) →
      ∃ node', s'.nodes.get? n = some node' ∧ node'.route = node.route)
    (hmarks : ∀ n ∈ s'.nodeTree, ∀ node', s'.nodes.get? n = some node' → node'.marked = false) : Routed s' := by
  refine ⟨?_, fun n node' l hn hl => ?_, fun n htree hself node' hn => ?_, fun n node' hn hout => ?_,
    hs.ascends.mono fun n p hup => ?_, fun l link hlive => hs.priced l link (hback l link hlive), hmarks⟩
  · obtain ⟨node, hself, hroot, hcost, hpath⟩ := hs.self
    obtain ⟨node', hself', hroute⟩ := hparent _ node hself (.inl rfl)
    exact ⟨node', hselfNode ▸ hself', (Node.best_of_route hroute).trans (hroot.trans hselfLink.symm),
      (Node.cost_of_route hroute).trans hcost, (Node.path_of_route hroute).trans hpath⟩
  · rcases hnode n node' hn with ⟨node, hold, hroute, _⟩ | ⟨hnone, _⟩
    · have hold' := (Node.best_of_route hroute).symm.trans hl
      obtain ⟨link, hlive, hchild⟩ := hs.ends n node l hold hold'
      exact ⟨link, hbest n node l link hold hold' hlive, hchild⟩
    · cases hnone.symm.trans hl
  · rcases hnode n node' hn with ⟨node, hold, hroute, hiff⟩ | ⟨hnone, hfar, _⟩
    · have hagrees := hs.agrees n (hiff.mp htree) (hselfNode ▸ hself) node hold
      unfold Agrees at hagrees ⊢
      rw [Node.best_of_route hroute, Node.cost_of_route hroute, Node.path_of_route hroute]
      split
      next hnone =>
        rw [hnone] at hagrees
        exact hagrees
      next l hl =>
        rw [hl] at hagrees
        refine hagrees.mono (fun link hlive => ⟨link, hbest n node l link hold hl hlive, rfl, rfl, rfl⟩)
          (fun link parent hlive hp => hparent _ parent hp (.inr ⟨l, link, hlive, rfl⟩))
          fun link parent k other hlive hp hk hother => ⟨other, hbest _ parent k other hp hk hother, rfl⟩
    · unfold Agrees
      rw [hnone]
      exact hfar htree
  · rcases hnode n node' hn with ⟨node, hold, hroute, hiff⟩ | ⟨hnone, _, hfresh⟩
    · obtain ⟨hnone, hcost⟩ := hs.outside n node hold (mt hiff.mpr hout)
      exact ⟨(Node.best_of_route hroute).trans hnone, (Node.cost_of_route hroute).trans hcost⟩
    · exact ⟨hnone, hfresh hout⟩
  · obtain ⟨node', l, link, hn, hl, hlive, hp, hne⟩ := hup
    rcases hnode n node' hn with ⟨node, hold, hroute, _⟩ | ⟨hnone, _⟩
    · exact ⟨node, l, link, hold, (Node.best_of_route hroute).symm.trans hl, hback l link hlive, hp, hne⟩
    · cases hnone.symm.trans hl

/-! ## While news is handled -/

structure Staged (s : NodeStore) : Prop where
  self : ∃ node, s.nodes.get? s.selfNode = some node ∧ node.bestParent = s.selfLink ∧ node.cost = 0 ∧
    node.address.path = 1
  ends : ∀ n node l, s.nodes.get? n = some node → node.bestParent = some l → ∃ link, s.Live l link ∧ link.child = n
  /-- Nodes have the path of a way that ends with their best parent. -/
  spells : ∀ n node l, s.nodes.get? n = some node → node.bestParent = some l →
    node.cost ≠ UINT64_MAX ∧ ∃ k, s.selfLink = some k ∧ Spells s k node.address.path.toNat l
  far : ∀ n node, s.nodes.get? n = some node → node.bestParent = none → node.cost = UINT64_MAX ∨ node.cost = 0
  outside : ∀ n node, s.nodes.get? n = some node → n ∉ s.nodeTree → node.bestParent = none ∧ node.cost = 0
  ascends : Ways.Ascends s.Up

/-- The path is that of the parent and the director of the link. -/
theorem Fits.passes (h : s.Fits l cost path) (hself : some l ≠ s.selfLink)
    (hparent : ∀ link parent pl, s.Live l link → s.nodes.get? link.parent = some parent →
      parent.bestParent = some pl → (∃ plink, s.Live pl plink ∧ plink.child = link.parent) ∧
      0 < parent.address.path.toNat) :
    ∃ link parent pl code, s.Live l link ∧ s.nodes.get? link.parent = some parent ∧ parent.bestParent = some pl ∧
      cost.toNat = parent.cost.toNat + link.linkCost.toNat ∧ Passes s pl l code ∧
      path.toNat = join code.toNat parent.address.path.toNat ∧ path.toNat < 2 ^ 60 := by
  obtain ⟨⟨link, parent, pl, plink, hlive, _, hp, hpbest, hplive, hcost, hroute⟩, _, hshort, hvalid⟩ := h
  obtain ⟨⟨plink', hplive', hchild⟩, hpos⟩ := hparent link parent pl hlive hp hpbest
  obtain rfl := hplive.unique hplive'
  have hroot : parent.address.path ≠ 0 := fun heq => by
    rw [heq] at hpos
    exact absurd hpos (Nat.lt_irrefl 0)
  obtain ⟨code, hcode, hjoin⟩ := extendRoute_cases hroute hvalid hshort hroot
  exact ⟨link, parent, pl, code, hlive, hp, hpbest, hcost,
    ⟨⟨plink, link, parent, hplive, hlive, hchild.symm, hchild ▸ hp, hcode⟩, hself⟩, hjoin⟩

/-- The way to the parent and the link make a way. -/
theorem Fits.spells {k} (h : s.Fits l cost path) (hs : Wired s) (hself : some l ≠ s.selfLink)
    (hparent : ∀ link parent pl, s.Live l link → s.nodes.get? link.parent = some parent →
      parent.bestParent = some pl → (∃ plink, s.Live pl plink ∧ plink.child = link.parent) ∧
      Spells s k parent.address.path.toNat pl) :
    Spells s k path.toNat l := by
  obtain ⟨link, parent, pl, code, hlive, hp, hpbest, _, hpasses, hjoin, _⟩ :=
    h.passes hself fun link parent pl hlive hp hpl =>
    (hparent link parent pl hlive hp hpl).imp_right Spells.pos
  have htwo := hpasses.two_le hs
  rw [hjoin]
  exact (hparent link parent pl hlive hp hpbest).2.snoc hpasses (by omega)

variable {node : Node}

variable {n : NodeId}

theorem Fits.parent_ne {link} (h : s.Fits l node.cost node.address.path) (hn : s.nodes.get? n = some node)
    (hlive : s.Live l link) (hleast : 1024 ≤ link.linkCost.toNat) : link.parent ≠ n := by
  obtain ⟨⟨link', parent, _, _, hlive', _, hp, _, _, hcost, _⟩, _⟩ := h
  obtain rfl := hlive.unique hlive'
  intro heq
  rw [heq, hn] at hp
  rw [← some.inj hp] at hcost
  omega

theorem Routed.mem_nodeTree (hs : Routed s) (hn : s.nodes.get? n = some node) (hl : node.bestParent = some l) :
    n ∈ s.nodeTree := by
  by_contra hout
  cases (hs.outside n node hn hout).1.symm.trans hl

theorem Routed.fits (hs : Routed s) (hn : s.nodes.get? n = some node) (hl : node.bestParent = some l)
    (hself : n ≠ s.selfNode) :
    s.Fits l node.cost node.address.path := by
  have hagrees := hs.agrees n (hs.mem_nodeTree hn hl) hself node hn
  unfold Agrees at hagrees
  rwa [hl] at hagrees

/-- The best parent of a node other than ours is not the self link. -/
theorem best_ne_selfLink (hs : Wired s) {link} (hlive : s.Live l link) (hchild : link.child = n)
    (hself : n ≠ s.selfNode) : some l ≠ s.selfLink := by
  intro heq
  exact hself (hchild.symm.trans (hs.ofSelf heq hlive).2.1)

variable {k : LinkId} (hs : Routed s) (hw : Wired s)
include hs hw

/-- The path of a node is that of the way it is reached by. -/
theorem Routed.spells (hk : s.selfLink = some k) (hn : s.nodes.get? n = some node) (hl : node.bestParent = some l) :
    node.cost ≠ UINT64_MAX ∧ Spells s k node.address.path.toNat l := by
  induction hs.ascends n generalizing node l with
  | intro n _ ih =>
    by_cases hself : n = s.selfNode
    · obtain ⟨self, hget, hroot, hcost, hpath⟩ := hs.self
      rw [hself, hget] at hn
      cases hn
      obtain rfl := some.inj (hl.symm.trans (hroot.trans hk))
      rw [hcost, hpath]
      exact ⟨by decide, .nil l⟩
    · have hfits := hs.fits hn hl hself
      obtain ⟨link, hlive, hchild⟩ := hs.ends n node l hn hl
      refine ⟨hfits.finite, hfits.spells hw (best_ne_selfLink hw hlive hchild hself)
        fun link' parent pl hlive' hp hpl => ?_⟩
      obtain rfl := hlive.unique hlive'
      have hne := hfits.parent_ne hn hlive (hs.priced l link hlive)
      exact ⟨hs.ends _ parent pl hp hpl, (ih link.parent ⟨node, l, link, hn, hl, hlive, rfl, hne⟩ hp hpl).2⟩

theorem Routed.path_lt (hn : s.nodes.get? n = some node) (hl : node.bestParent = some l) (hself : n ≠ s.selfNode) :
    node.address.path.toNat < 2 ^ 60 := by
  obtain ⟨k, _, hk, _⟩ := hw.selfLink
  obtain ⟨link, hlive, hchild⟩ := hs.ends n node l hn hl
  obtain ⟨_, _, _, _, _, _, _, _, _, _, hlt⟩ :=
    (hs.fits hn hl hself).passes (best_ne_selfLink hw hlive hchild hself) fun _ parent pl _ hp hpl =>
      ⟨hs.ends _ parent pl hp hpl, (hs.spells hw hk hp hpl).2.pos⟩
  exact hlt

/-- Nodes that are reached are not far away. -/
theorem Routed.cost_le (hn : s.nodes.get? n = some node) (hl : node.bestParent = some l) :
    node.cost.toNat ≤ 2 ^ 32 * node.address.path.toNat.log2 := by
  obtain ⟨k, _, hk, _⟩ := hw.selfLink
  induction hs.ascends n generalizing node l with
  | intro n _ ih =>
    by_cases hself : n = s.selfNode
    · obtain ⟨self, hget, _, hcost, _⟩ := hs.self
      rw [hself, hget] at hn
      cases hn
      rw [hcost]
      exact Nat.zero_le _
    · have hfits := hs.fits hn hl hself
      obtain ⟨link, hlive, hchild⟩ := hs.ends n node l hn hl
      obtain ⟨link', parent, pl, code, hlive', hp, hpl, hcost, hpasses, hjoin, _⟩ :=
        hfits.passes (best_ne_selfLink hw hlive hchild hself) fun _ parent pl _ hp hpl =>
          ⟨hs.ends _ parent pl hp hpl, (hs.spells hw hk hp hpl).2.pos⟩
      obtain rfl := hlive.unique hlive'
      have hne := hfits.parent_ne hn hlive (hs.priced l link hlive)
      have hrest := ih link.parent ⟨node, l, link, hn, hl, hlive, rfl, hne⟩ hp hpl
      have htwo := hpasses.two_le hw
      have hlog : 1 ≤ code.toNat.log2 := (Nat.le_log2 (by omega)).mpr htwo
      rw [hjoin, LabelSplicer.log2_join (by omega)]
      omega

theorem Routed.staged : Staged s := by
  obtain ⟨k, _, hk, _⟩ := hw.selfLink
  refine ⟨hs.self, hs.ends, fun n node l hn hl => ?_, fun n node hn hnone => ?_, hs.outside, hs.ascends⟩
  · obtain ⟨hcost, hspells⟩ := hs.spells hw hk hn hl
    exact ⟨hcost, k, hk, hspells⟩
  · by_cases htree : n ∈ s.nodeTree
    · by_cases hself : n = s.selfNode
      · obtain ⟨self, hget, hroot, _⟩ := hs.self
        rw [hself, hget] at hn
        cases hn
        cases hnone.symm.trans (hroot.trans hk)
      · have hagrees := hs.agrees n htree hself node hn
        unfold Agrees at hagrees
        rw [hnone] at hagrees
        exact .inl hagrees.1
    · exact .inr (hs.outside n node hn htree).2

/-! ## A turn -/

omit hs hw

section
variable {s s' : NodeStore} {n : NodeId} {changed : Bool}

variable (h : Turn s n s' changed)
include h

/-- A turn changes at most what its node is reached by. -/
theorem Turn.route :
    (∀ m, m ≠ n → (s'.nodes.get? m).map Node.route = (s.nodes.get? m).map Node.route) ∧
      ∃ node new, s.nodes.get? n = some node ∧ s'.nodes.get? n = some new ∧
        (new.route = node.route ∨ n ≠ s.selfNode ∧ ∃ best : Best, best.Sound s n node.reversePeers ∧
          (∀ l, best.link = some l → ∃ link, s.Live l link ∧ link.child = n) ∧
          new.route = (best.link, best.cost, best.path, node.encodingScheme)) := by
  have hunmark : ∀ node, s.nodes.get? n = some node → ∀ m, m ≠ n →
      ((s.setNode n { node with marked := false }).nodes.get? m).map Node.route = (s.nodes.get? m).map Node.route :=
    fun node hn m hm => congrArg _ (Heap.get?_set_of_ne hm)
  cases h with
  | self node hn _ | keep node best hn => exact ⟨hunmark node hn, node, _, hn, Heap.get?_set_self hn, .inl rfl⟩
  | change node best nodes marks hn hself hbest hends _ hnode =>
    refine ⟨fun m hm => ?_, node, { node with
      bestParent := best.link, cost := best.cost, address := { node.address with path := best.path }
      marked := marks n }, hn, ?_, .inr ⟨hself, best, hbest, hends, rfl⟩⟩
    · rw [hnode, map_map]
      refine map_congr fun other _ => ?_
      dsimp [Function.comp_apply]
      rw [if_neg hm]
      rfl
    · rw [hnode, hn]
      dsimp [map_some]
      rw [if_pos rfl]

theorem Turn.up {m p} (hm : m ≠ n) (hup : s'.Up m p) : s.Up m p := by
  obtain ⟨node', l, link, hget, hl, hlive, hp, hne⟩ := hup
  have hmap := h.route.1 m hm
  rw [hget] at hmap
  obtain ⟨node, hold, hroute⟩ := map_eq_some_iff.mp hmap.symm
  exact ⟨node, l, link, hold, (Node.best_of_route hroute).trans hl, (live_of_links h.links).mp hlive, hp, hne⟩

theorem Turn.ascends (hs : Ways.Ascends s.Up) : Ways.Ascends s'.Up := by
  obtain ⟨_, node, new, hn, hnew, hcases⟩ := h.route
  rcases hcases with hroute | ⟨_, best, hbest, _, hroute⟩
  · refine hs.mono fun m p hup => ?_
    by_cases hm : m = n
    · subst hm
      obtain ⟨node', l, link, hget, hl, hlive, hp, hne⟩ := hup
      cases hnew.symm.trans hget
      exact ⟨node, l, link, hn, (Node.best_of_route hroute).symm.trans hl, (live_of_links h.links).mp hlive, hp, hne⟩
    · exact h.up hm hup
  · refine hs.repoint (n := n) (fun m p hm hup => h.up hm hup) fun p hup => ?_
    obtain ⟨node', l, link, hget, hl, hlive, rfl, _⟩ := hup
    cases hnew.symm.trans hget
    have hlink : best.link = some l := (congrArg (·.1) hroute).symm.trans hl
    unfold Best.Sound at hbest
    rw [hlink] at hbest
    exact hbest.2.apart link ((live_of_links h.links).mp hlive)

theorem Turn.node_cases {m : NodeId} {node'} (hm : s'.nodes.get? m = some node') :
    ∃ node, s.nodes.get? m = some node ∧ (node'.route = node.route ∨ m = n ∧ n ≠ s.selfNode ∧
      ∃ best : Best, best.Sound s n node.reversePeers ∧
        (∀ l, best.link = some l → ∃ link, s.Live l link ∧ link.child = n) ∧
        node'.route = (best.link, best.cost, best.path, node.encodingScheme)) := by
  obtain ⟨hother, node, new, hn, hnew, hcases⟩ := h.route
  by_cases hmn : m = n
  · subst hmn
    cases hnew.symm.trans hm
    refine ⟨node, hn, hcases.imp_right fun ⟨hself, best, hbest⟩ => ⟨rfl, hself, best, hbest⟩⟩
  · have hmap := hother m hmn
    rw [hm] at hmap
    obtain ⟨old, hold, hroute⟩ := map_eq_some_iff.mp hmap.symm
    exact ⟨old, hold, .inl hroute.symm⟩

omit h

variable {l : LinkId}

/-- An offer is the end of a way. -/
theorem Staged.spells_best (hs : Staged s) (hw : Wired s) {best : Best} {ls} {k}
    (hbest : best.Sound s n ls) (hl : best.link = some l) (hends : ∃ link, s.Live l link ∧ link.child = n)
    (hself : n ≠ s.selfNode) (hk : s.selfLink = some k) :
    best.cost ≠ UINT64_MAX ∧ Spells s k best.path.toNat l := by
  unfold Best.Sound at hbest
  rw [hl] at hbest
  obtain ⟨link, hlive, hchild⟩ := hends
  refine ⟨hbest.2.fits.finite, hbest.2.fits.spells hw (best_ne_selfLink hw hlive hchild hself)
    fun link' parent pl _ hp hpl => ?_⟩
  obtain ⟨_, k', hk', hspells⟩ := hs.spells _ parent pl hp hpl
  cases hk.symm.trans hk'
  exact ⟨hs.ends _ parent pl hp hpl, hspells⟩

theorem Staged.turn (hs : Staged s) (hw : Wired s) (h : Turn s n s' changed) (htree : n ∈ s.nodeTree) : Staged s' := by
  have hsame := h.sameWiring
  have hlive : ∀ l link, s'.Live l link ↔ s.Live l link := fun l link => live_of_links h.links
  obtain ⟨k, _, hk, _⟩ := hw.selfLink
  refine ⟨?_, fun m node' l hm hl => ?_, fun m node' l hm hl => ?_, fun m node' hm hnone => ?_,
    fun m node' hm hout => ?_, h.ascends hs.ascends⟩
  · obtain ⟨self, hself, hroot, hcost, hpath⟩ := hs.self
    obtain ⟨self', hself', _⟩ := hsame.node_after hself
    obtain ⟨old, hold, hroute | ⟨heq, hne, _⟩⟩ := h.node_cases hself'
    · cases hself.symm.trans hold
      refine ⟨self', hsame.selfNode ▸ hself', ?_, (Node.cost_of_route hroute).trans hcost,
        (Node.path_of_route hroute).trans hpath⟩
      rw [Node.best_of_route hroute, hroot, hsame.selfLink]
    · exact absurd heq.symm hne
  · obtain ⟨node, hnode, hroute | ⟨rfl, _, best, _, hends, hroute⟩⟩ := h.node_cases hm
    · obtain ⟨link, hlink, hchild⟩ := hs.ends m node l hnode ((Node.best_of_route hroute).symm.trans hl)
      exact ⟨link, (hlive l link).mpr hlink, hchild⟩
    · obtain ⟨link, hlink, hchild⟩ := hends l ((congrArg (·.1) hroute).symm.trans hl)
      exact ⟨link, (hlive l link).mpr hlink, hchild⟩
  · obtain ⟨node, hnode, hroute | ⟨rfl, hself, best, hbest, hends, hroute⟩⟩ := h.node_cases hm
    · obtain ⟨hcost, k', hk', hspells⟩ := hs.spells m node l hnode ((Node.best_of_route hroute).symm.trans hl)
      rw [Node.cost_of_route hroute, Node.path_of_route hroute]
      exact ⟨hcost, k', hsame.selfLink.trans hk', hsame.spells hspells⟩
    · have hlink : best.link = some l := (congrArg (·.1) hroute).symm.trans hl
      obtain ⟨hcost, hspells⟩ := hs.spells_best hw hbest hlink (hends l hlink) hself hk
      have hcost' : node'.cost = best.cost := congrArg (·.2.1) hroute
      have hpath' : node'.address.path = best.path := congrArg (·.2.2.1) hroute
      rw [hcost', hpath']
      exact ⟨hcost, k, hsame.selfLink.trans hk, hsame.spells hspells⟩
  · obtain ⟨node, hnode, hroute | ⟨rfl, hself, best, hbest, hends, hroute⟩⟩ := h.node_cases hm
    · rw [Node.cost_of_route hroute]
      exact hs.far m node hnode ((Node.best_of_route hroute).symm.trans hnone)
    · have hlink : best.link = none := (congrArg (·.1) hroute).symm.trans hnone
      have hcost' : node'.cost = best.cost := congrArg (·.2.1) hroute
      unfold Best.Sound at hbest
      rw [hlink] at hbest
      exact .inl (hcost'.trans hbest.1)
  · rw [hsame.nodeTree] at hout
    obtain ⟨node, hnode, hroute | ⟨rfl, _⟩⟩ := h.node_cases hm
    · obtain ⟨hnone, hcost⟩ := hs.outside m node hnode hout
      exact ⟨(Node.best_of_route hroute).trans hnone, (Node.cost_of_route hroute).trans hcost⟩
    · exact absurd htree hout

/-- Who is not marked, apart from one node, fits its parent. -/
def Due (s : NodeStore) (but : NodeId → Prop) : Prop :=
  ∀ n ∈ s.nodeTree, n ≠ s.selfNode → ¬ but n → ∀ node, s.nodes.get? n = some node → node.marked = false → s.Agrees node

theorem agrees_iff : s.Agrees node ↔
    (node.bestParent = none → node.cost = UINT64_MAX ∧ node.address.path = UINT64_MAX) ∧
      ∀ l, node.bestParent = some l → s.Fits l node.cost node.address.path := by
  unfold Agrees
  cases node.bestParent with
  | none => exact ⟨fun h => ⟨fun _ => h, fun l hl => (nomatch hl)⟩, fun h => h.1 rfl⟩
  | some l => exact ⟨fun h => ⟨fun hnone => (nomatch hnone), fun k hk => some.inj hk ▸ h⟩, fun h => h.2 l rfl⟩

theorem Agrees.of_route {node node'} (h : s.Agrees node) (hroute : node'.route = node.route) : s.Agrees node' := by
  unfold Agrees at h ⊢
  rwa [Node.best_of_route hroute, Node.cost_of_route hroute, Node.path_of_route hroute]

theorem Turn.fits (h : Turn s n s' changed) (hfits : s.Fits l cost path)
    (hparent : ∀ link, s.Live l link → link.parent ≠ n ∨ ∀ node new, s.nodes.get? n = some node →
      s'.nodes.get? n = some new → new.route = node.route) :
    s'.Fits l cost path := by
  have hlive : ∀ l link, s.Live l link → s'.Live l link := fun l link => (live_of_links h.links).mpr
  refine hfits.mono (fun link hl => ⟨link, hlive l link hl, rfl, rfl, rfl⟩) (fun link parent hl hp => ?_)
    fun _ _ k other _ _ _ hother => ⟨other, hlive k other hother, rfl⟩
  obtain ⟨parent', hp', _⟩ := h.sameWiring.node_after hp
  refine ⟨parent', hp', ?_⟩
  obtain ⟨old, hold, hroute | ⟨heq, _⟩⟩ := h.node_cases hp'
  · cases hp.symm.trans hold
    exact hroute
  · rcases hparent link hl with hne | hsame
    · exact absurd heq hne
    · exact hsame parent parent' (heq ▸ hp) (heq ▸ hp')

theorem Turn.agrees (h : Turn s n s' changed) (hagrees : s.Agrees node)
    (hparent : ∀ l link, node.bestParent = some l → s.Live l link → link.parent ≠ n ∨
      ∀ node new, s.nodes.get? n = some node → s'.nodes.get? n = some new → new.route = node.route) :
    s'.Agrees node := by
  unfold Agrees at hagrees ⊢
  split
  next hnone =>
    rw [hnone] at hagrees
    exact hagrees
  next l hl =>
    rw [hl] at hagrees
    exact h.fits hagrees fun link hlive => hparent l link hl hlive

/-- A node that keeps its cost and path has the best parent that was found: no two ways have the same path. -/
theorem Staged.agrees_of_keep (hs : Staged s) (hpriced : Priced s) (hw : Wired s) {best : Best}
    (hn : s.nodes.get? n = some node) (hself : n ≠ s.selfNode) (hbest : best.Sound s n node.reversePeers)
    (hcost : best.cost = node.cost) (hpath : best.path = node.address.path) : s.Agrees node := by
  unfold Best.Sound at hbest
  unfold Agrees
  rw [← hcost, ← hpath]
  cases hl : best.link with
  | none =>
    rw [hl] at hbest
    cases hbestParent : node.bestParent with
    | none => exact hbest
    | some l => exact absurd (hcost.symm.trans hbest.1) (hs.spells n node l hn hbestParent).1
  | some l =>
    have hsound := hbest
    rw [hl] at hbest
    obtain ⟨link, hlive, hchild⟩ := hw.reverse n node hn l hbest.1
    cases hbestParent : node.bestParent with
    | none =>
      rcases hs.far n node hn hbestParent with hmax | hzero
      · exact absurd (hcost.trans hmax) hbest.2.fits.finite
      · obtain ⟨⟨link', parent, _, _, hlive', _, _, _, _, hsum, _⟩, _⟩ := hbest.2.fits
        have hleast := hpriced l link' hlive'
        rw [hcost, hzero] at hsum
        exact absurd hsum (by show ¬ 0 = _; omega)
    | some l' =>
      obtain ⟨_, k, hk, hspells⟩ := hs.spells n node l' hn hbestParent
      obtain ⟨_, hspells'⟩ := hs.spells_best hw hsound hl ⟨link, hlive, hchild⟩ hself hk
      rw [hpath] at hspells'
      obtain rfl := hspells'.unique hspells hw
      exact hbest.2.fits

/-- After its turn a node fits its parent, and who was reached through it is marked. -/
theorem Due.turn (hdue : Due s (· = n)) (hs : Staged s) (hpriced : Priced s) (hw : Wired s) (h : Turn s n s' changed) :
    Due s' fun _ => False := by
  have hsame := h.sameWiring
  intro m htree hself _ node' hm hunmarked
  rw [hsame.nodeTree] at htree
  rw [hsame.selfNode] at hself
  have hturn := h
  cases h with
  | self node hn hown =>
    have hmn : m ≠ n := fun heq => hself (heq.trans hown)
    have hold : s.nodes.get? m = some node' := (Heap.get?_set_of_ne hmn).symm.trans hm
    exact hturn.agrees (hdue m htree hself hmn node' hold hunmarked) fun _ _ _ _ => .inr fun old new hget hnew => by
      cases hn.symm.trans hget
      cases (Heap.get?_set_self hn).symm.trans hnew
      rfl
  | keep node best hn hown hbest hcost hpath =>
    have hroute : ∀ old new, s.nodes.get? n = some old →
        (s.setNode n { node with marked := false }).nodes.get? n = some new → new.route = old.route := by
      intro old new hget hnew
      cases hn.symm.trans hget
      cases (Heap.get?_set_self hn).symm.trans hnew
      rfl
    by_cases hmn : m = n
    · subst hmn
      have hagrees := hs.agrees_of_keep hpriced hw hn hown hbest hcost hpath
      exact (hturn.agrees hagrees fun _ _ _ _ => .inr hroute).of_route (hroute node node' hn hm)
    · have hold : s.nodes.get? m = some node' := (Heap.get?_set_of_ne hmn).symm.trans hm
      exact hturn.agrees (hdue m htree hself hmn node' hold hunmarked) fun _ _ _ _ => .inr hroute
  | change node best nodes marks hn hown hbest hends _ hnode _ hkept hreached =>
    have hm : nodes.get? m = some node' := hm
    rw [hnode] at hm
    obtain ⟨old, hold, rfl⟩ := map_eq_some_iff.mp hm
    by_cases hmn : m = n
    · subst hmn
      cases hn.symm.trans hold
      unfold Best.Sound at hbest
      rw [if_pos rfl]
      refine agrees_iff.mpr ⟨fun hnone => ?_, fun l hl => ?_⟩
      · have hnone : best.link = none := hnone
        rw [hnone] at hbest
        exact hbest
      · have hl : best.link = some l := hl
        rw [hl] at hbest
        exact hturn.fits hbest.2.fits fun link hlive => .inl fun heq => hbest.2.apart link hlive (heq ▸ .refl)
    · rw [if_neg hmn] at hunmarked ⊢
      have hunmarked : marks m = false := hunmarked
      have hbefore : old.marked = false := by
        by_contra hmarked
        rw [Bool.not_eq_false] at hmarked
        exact absurd (hkept m old hmn hold hmarked) (by rw [hunmarked]; exact Bool.false_ne_true)
      have hagrees := hdue m htree hself hmn old hold hbefore
      refine (hturn.agrees hagrees fun l link hl hlive => .inl fun heq => ?_).of_route rfl
      obtain ⟨link', hlive', hchild⟩ := hs.ends m old l hold hl
      obtain rfl := hlive.unique hlive'
      obtain ⟨_, owner, howner, hmem⟩ := hw.parent l link hlive
      rw [heq, hn] at howner
      cases howner
      have hmark := hreached l hmem link old hlive (hchild ▸ hold) hl
      rw [hchild, hunmarked] at hmark
      cases hmark

theorem Turn.priced (h : Turn s n s' changed) (hs : Priced s) : Priced s' := fun l link hlive =>
  hs l link ((live_of_links h.links).mp hlive)

theorem Staged.routed (hs : Staged s) (hpriced : Priced s) (hdue : Due s fun _ => False)
    (hunmarked : ∀ m ∈ s.nodeTree, ∀ node, s.nodes.get? m = some node → node.marked = false) : Routed s :=
  ⟨hs.self, hs.ends, fun m hm hself node hn => hdue m hm hself id node hn (hunmarked m hm node hn), hs.outside,
    hs.ascends, hpriced, hunmarked⟩

/-- A turn without a change takes the mark of its node away. -/
theorem Turn.unmarked (h : Turn s n s' false)
    (hs : ∀ m ∈ s.nodeTree, m ≠ n → ∀ node, s.nodes.get? m = some node → node.marked = false) :
    ∀ m ∈ s'.nodeTree, ∀ node, s'.nodes.get? m = some node → node.marked = false := by
  have hset : ∀ node, s.nodes.get? n = some node → ∀ m ∈ s.nodeTree, ∀ node',
      (s.setNode n { node with marked := false }).nodes.get? m = some node' → node'.marked = false := by
    intro node hn m hm node' hget
    have hget : (s.nodes.set n _).get? m = some node' := hget
    rw [Heap.get?_set hn] at hget
    split at hget
    · rw [← some.inj hget]
    next hmn => exact hs m hm hmn node' hget
  cases h with
  | self node hn _ => exact hset node hn
  | keep node best hn => exact hset node hn

/-- When news has been handled all is in order again. -/
theorem News.routed {link} {linkCost} (h : News s l link linkCost s') (hw : Wired s)
    (hstaged : Staged (s.setLink l { link with linkCost })) (hpriced : Priced (s.setLink l { link with linkCost }))
    (hdue : Due (s.setLink l { link with linkCost }) (· = link.child))
    (hunmarked : ∀ m ∈ s.nodeTree, m ≠ link.child → ∀ node, s.nodes.get? m = some node → node.marked = false) :
    Routed s' := by
  have hset : SameWiring s (s.setLink l { link with linkCost }) := SameWiring.setLink h.live.1 rfl
  have hw₀ := hset.wired hw
  have htree : link.child ∈ s.nodeTree := (hw.child l link h.live).1
  obtain ⟨s₁, modified, hturn, hcases⟩ := h.turns
  have hstaged₁ := hstaged.turn hw₀ hturn htree
  have hpriced₁ := hturn.priced hpriced
  have hdue₁ := hdue.turn hstaged hpriced hw₀ hturn
  rcases hcases with ⟨rfl, rfl⟩ | ⟨_, hturns, hmarks⟩
  · exact hstaged₁.routed hpriced₁ hdue₁ (hturn.unmarked hunmarked)
  · have hall : Staged s' ∧ Priced s' ∧ Due s' (fun _ => False) ∧ Wired s' := by
      have hw₁ := hturn.sameWiring.wired hw₀
      clear hmarks h
      induction hturns with
      | refl => exact ⟨hstaged₁, hpriced₁, hdue₁, hw₁⟩
      | tail _ hmarked ih =>
        obtain ⟨hstaged, hpriced, hdue, hw⟩ := ih
        obtain ⟨m, _, _, hm, _, _, hturn⟩ := hmarked
        exact ⟨hstaged.turn hw hturn hm, hturn.priced hpriced,
          Due.turn (fun n hn hself _ => hdue n hn hself id) hstaged hpriced hw hturn, hturn.sameWiring.wired hw⟩
    exact hall.1.routed hall.2.1 hall.2.2.1 hmarks

end

/-! ## Every move -/

section
variable {s s' : NodeStore} {l : LinkId} {link : Link} {linkCost : BitVec 32}

theorem live_setLink (hlive : s.Live l link) {other} :
    (s.setLink l { link with linkCost }).Live k other ↔
      k = l ∧ other = { link with linkCost } ∨ k ≠ l ∧ s.Live k other := by
  show ((s.links.set l { link with linkCost }).get? k = some other ∧ _) ↔ _
  rw [Heap.get?_set hlive.1]
  by_cases hk : k = l
  · rw [if_pos hk]
    constructor
    · intro h
      exact .inl ⟨hk, (some.inj h.1).symm⟩
    · rintro (⟨_, rfl⟩ | ⟨hne, _⟩)
      · exact ⟨rfl, hlive.2⟩
      · exact absurd hk hne
  · rw [if_neg hk]
    constructor
    · exact fun h => .inr ⟨hk, h⟩
    · rintro (⟨heq, _⟩ | ⟨_, h⟩)
      · exact absurd heq hk
      · exact h

theorem Staged.setLink (hs : Staged s) (hlive : s.Live l link) : Staged (s.setLink l { link with linkCost }) := by
  have hsame : SameWiring s (s.setLink l { link with linkCost }) := SameWiring.setLink hlive.1 rfl
  refine ⟨hs.self, fun n node k hn hk => ?_, fun n node k hn hk => ?_, hs.far, hs.outside,
    hs.ascends.mono fun a b hup => ?_⟩
  · obtain ⟨other, hother, hchild⟩ := hs.ends n node k hn hk
    obtain ⟨new, hnew, hframe⟩ := hsame.live_after hother
    exact ⟨new, hnew, (Link.child_of_frame hframe).trans hchild⟩
  · obtain ⟨hcost, k', hk', hspells⟩ := hs.spells n node k hn hk
    exact ⟨hcost, k', hk', hsame.spells hspells⟩
  · obtain ⟨node, k, other, hn, hk, hother, hp, hne⟩ := hup
    obtain ⟨old, hold, hframe⟩ := hsame.live_before hother
    exact ⟨node, k, old, hn, hk, hold, (Link.parent_of_frame hframe).symm.trans hp, hne⟩

theorem Priced.setLink (hs : ∀ k other, s.Live k other → k ≠ l → 1024 ≤ other.linkCost.toNat) (hlive : s.Live l link)
    (hleast : 1024 ≤ linkCost.toNat) : Priced (s.setLink l { link with linkCost }) := by
  intro k other hother
  rcases (live_setLink hlive).mp hother with ⟨_, rfl⟩ | ⟨hne, hold⟩
  · exact hleast
  · exact hs k other hold hne

/-- Another cost of a link concerns its child only. -/
theorem Due.setLink (hs : Due s (· = link.child)) (hstaged : Staged s) (hlive : s.Live l link) :
    Due (s.setLink l { link with linkCost }) (· = link.child) := by
  have hsame : SameWiring s (s.setLink l { link with linkCost }) := SameWiring.setLink hlive.1 rfl
  intro n hn hself hbut node hget hunmarked
  have hagrees := agrees_iff.mp (hs n hn hself hbut node hget hunmarked)
  refine agrees_iff.mpr ⟨hagrees.1, fun k hk => (hagrees.2 k hk).mono (fun other hother => ?_)
    (fun _ parent _ hp => ⟨parent, hp, rfl⟩) fun _ _ j other _ _ _ hother => ?_⟩
  · have hkl : k ≠ l := fun heq => by
      subst heq
      obtain ⟨link', hlive', hchild⟩ := hstaged.ends n node k hget hk
      obtain rfl := hlive.unique hlive'
      exact hbut hchild.symm
    exact ⟨other, (live_setLink hlive).mpr (.inr ⟨hkl, hother⟩), rfl, rfl, rfl⟩
  · obtain ⟨new, hnew, hframe⟩ := hsame.live_after hother
    exact ⟨new, hnew, Link.inverse_of_frame hframe⟩

theorem Routed.due (hs : Routed s) (but : NodeId → Prop) : Due s but := fun n hn hself _ node hget _ =>
  hs.agrees n hn hself node hget

theorem Routed.news (hs : Routed s) (hw : Wired s) (h : News s l link linkCost s') : Routed s' :=
  have hstaged := hs.staged hw
  h.routed hw (hstaged.setLink h.live)
    (Priced.setLink (fun k other hother _ => hs.priced k other hother) h.live h.least)
    ((hs.due _).setLink hstaged h.live) fun m hm _ => hs.unmarked m hm

theorem Routed.best_ne (hs : Routed s) (hlive : s.Live l link) (hmax : link.linkCost = UINT32_MAX)
    (hself : some l ≠ s.selfLink) {n : NodeId} (hn : s.nodes.get? n = some node) :
    node.bestParent ≠ some l := by
  intro hl
  by_cases hown : n = s.selfNode
  · obtain ⟨self, hget, hroot, _⟩ := hs.self
    rw [hown, hget] at hn
    cases hn
    exact hself (hl.symm.trans hroot)
  · obtain ⟨⟨link', _, _, _, hlive', hne, _⟩, _⟩ := hs.fits hn hl hown
    obtain rfl := hlive.unique hlive'
    exact hne hmax

theorem Routed.detached (hs : Routed s) (hlive : s.Live l link) (hmax : link.linkCost = UINT32_MAX)
    (hself : some l ≠ s.selfLink) (h : Detached s l link s') : Routed s' := by
  refine hs.congr h.selfNode h.selfLink (fun k other hother => (h.live_iff.mp hother).2)
    (fun n node k other hn hk hother => h.live_iff.mpr ⟨fun heq => ?_, hother⟩) (fun n node' hn => ?_)
    (fun n node hn _ => ?_) fun n hn node' hget => ?_
  · exact hs.best_ne hlive hmax hself hn (heq ▸ hk)
  · obtain ⟨node, hnode, rfl⟩ := h.node_before hn
    exact .inl ⟨node, hnode, rfl, by rw [h.nodeTree]⟩
  · exact ⟨_, h.node_after hn, rfl⟩
  · obtain ⟨node, hnode, rfl⟩ := h.node_before hget
    exact hs.unmarked n (h.nodeTree ▸ hn) node hnode

end

section
variable {s s' : NodeStore} {link : Link}

theorem Attached.staged (h : Attached s link s') (hs : Staged s) (hw : Wired s) (hlinked : link.unlinked = false)
    (hjoins : s.Joins link.child) : Staged s' := by
  have hlive : ∀ k other, s.Live k other → s'.Live k other :=
    fun k other hother => (h.live_iff hlinked).mpr (.inr hother)
  refine ⟨?_, fun n node' k hn hk => ?_, fun n node' k hn hk => ?_, fun n node' hn hnone => ?_,
    fun n node' hn hout => ?_, hs.ascends.mono fun a b hup => ?_⟩
  · obtain ⟨self, hself, hroot, hcost, hpath⟩ := hs.self
    have hself' := h.node_after hself
    rw [← h.selfNode] at hself'
    exact ⟨_, hself', hroot.trans h.selfLink.symm, hcost, hpath⟩
  · obtain ⟨node, hnode, rfl⟩ := h.node_before hn
    obtain ⟨other, hother, hchild⟩ := hs.ends n node k hnode hk
    exact ⟨other, hlive k other hother, hchild⟩
  · obtain ⟨node, hnode, rfl⟩ := h.node_before hn
    obtain ⟨hcost, k', hk', hspells⟩ := hs.spells n node k hnode hk
    refine ⟨hcost, k', h.selfLink.trans hk', hspells.mono h.selfLink (fun j other hother => ?_) fun m other hm => ?_⟩
    · exact ⟨other, hlive j other hother, rfl⟩
    · exact ⟨_, h.node_after hm, rfl⟩
  · obtain ⟨node, hnode, rfl⟩ := h.node_before hn
    exact hs.far n node hnode hnone
  · obtain ⟨node, hnode, rfl⟩ := h.node_before hn
    exact hs.outside n node hnode fun hin => hout ((h.mem_nodeTree hw hjoins).mpr (.inr hin))
  · obtain ⟨node', k, other, hn, hk, hother, hp, hne⟩ := hup
    obtain ⟨node, hnode, rfl⟩ := h.node_before hn
    obtain ⟨old, hold, _⟩ := hs.ends a node k hnode hk
    obtain rfl := hother.unique (hlive k old hold)
    exact ⟨node, k, other, hnode, hk, hold, hp, hne⟩

theorem Attached.due (h : Attached s link s') (hs : Routed s) (hw : Wired s) (hlinked : link.unlinked = false)
    (hjoins : s.Joins link.child) : Due s' (· = link.child) := by
  have hlive : ∀ k other, s.Live k other → s'.Live k other :=
    fun k other hother => (h.live_iff hlinked).mpr (.inr hother)
  intro n hn hself hbut node' hget _
  obtain ⟨node, hnode, rfl⟩ := h.node_before hget
  have htree := ((h.mem_nodeTree hw hjoins).mp hn).resolve_left hbut
  have hagrees := agrees_iff.mp (hs.agrees n htree (h.selfNode ▸ hself) node hnode)
  refine agrees_iff.mpr ⟨hagrees.1, fun k hk => (hagrees.2 k hk).mono (fun other hother => ?_) (fun _ parent _ hp => ?_)
    fun _ _ j other _ _ _ hother => ⟨other, hlive j other hother, rfl⟩⟩
  · exact ⟨other, hlive k other hother, rfl, rfl, rfl⟩
  · exact ⟨_, h.node_after hp, rfl⟩

theorem Routed.attached {s₂} {linkCost} (hs : Routed s) (hw : Wired s) (hw' : Wired s')
    (hlinked : link.unlinked = false) (hjoins : s.Joins link.child) (h : Attached s link s')
    (hnews : News s' s.links.next link linkCost s₂) : Routed s₂ := by
  have hstaged := h.staged (hs.staged hw) hw hlinked hjoins
  refine hnews.routed hw' (hstaged.setLink hnews.live)
    (Priced.setLink (fun k other hother hne => ?_) hnews.live hnews.least)
    ((h.due hs hw hlinked hjoins).setLink hstaged hnews.live) fun m hm hmn node' hget => ?_
  · rcases (h.live_iff hlinked).mp hother with ⟨heq, _⟩ | hold
    · exact absurd heq hne
    · exact hs.priced k other hold
  · obtain ⟨node, hnode, rfl⟩ := h.node_before hget
    exact hs.unmarked m (((h.mem_nodeTree hw hjoins).mp hm).resolve_left hmn) node hnode

end

theorem Routed.same (hs : Routed s) (hnodes : s'.nodes = s.nodes) (htree : s'.nodeTree = s.nodeTree)
    (hselfNode : s'.selfNode = s.selfNode) (hselfLink : s'.selfLink = s.selfLink)
    (hlive : ∀ l link, s'.Live l link ↔ s.Live l link) : Routed s' := by
  refine hs.congr hselfNode hselfLink (fun l link => (hlive l link).mp) (fun _ _ l link _ _ => (hlive l link).mpr)
    (fun n node' hn => .inl ⟨node', hnodes ▸ hn, rfl, by rw [htree]⟩) (fun n node hn _ => ⟨node, hnodes ▸ hn, rfl⟩)
    fun n hn node' hget => hs.unmarked n (htree ▸ hn) node' (hnodes ▸ hget)

/-- A node that no link begins at may come, go or lose its best parent. -/
theorem Routed.setAlone (hs : Routed s) (hselfNode : s'.selfNode = s.selfNode) (hselfLink : s'.selfLink = s.selfLink)
    (hlinks : s'.links = s.links)
    (hother : ∀ m, m ≠ n → s'.nodes.get? m = s.nodes.get? m ∧ (m ∈ s'.nodeTree ↔ m ∈ s.nodeTree))
    (hself : n ≠ s.selfNode) (halone : ∀ l link, s.Live l link → link.parent ≠ n)
    (hnode : ∀ node', s'.nodes.get? n = some node' → node'.bestParent = none ∧
      (n ∈ s'.nodeTree → node'.cost = UINT64_MAX ∧ node'.address.path = UINT64_MAX ∧ node'.marked = false) ∧
      (n ∉ s'.nodeTree → node'.cost = 0)) :
    Routed s' := by
  refine hs.congr hselfNode hselfLink (fun l link => (live_of_links hlinks).mp)
    (fun _ _ l link _ _ => (live_of_links hlinks).mpr) (fun m node' hm => ?_) (fun m node hm hparent => ?_)
    fun m htree node' hm => ?_
  · by_cases hmn : m = n
    · obtain ⟨hnone, hin, hout⟩ := hnode node' (hmn ▸ hm)
      rw [hmn]
      exact .inr ⟨hnone, fun h => ⟨(hin h).1, (hin h).2.1⟩, hout⟩
    · exact .inl ⟨node', (hother m hmn).1 ▸ hm, rfl, (hother m hmn).2⟩
  · have hmn : m ≠ n := by
      rintro rfl
      rcases hparent with heq | ⟨l, link, hlive, heq⟩
      · exact hself heq
      · exact halone l link hlive heq
    exact ⟨node, (hother m hmn).1.trans hm, rfl⟩
  · by_cases hmn : m = n
    · subst hmn
      exact ((hnode node' hm).2.1 htree).2.2
    · exact hs.unmarked m ((hother m hmn).2.mp htree) node' ((hother m hmn).1 ▸ hm)

theorem Wired.alone_of_notMem (hw : Wired s) (hn : n ∉ s.nodeTree) :
    ∀ l link, s.Live l link → link.parent ≠ n :=
  fun l link hlive heq => hn (heq ▸ (hw.parent l link hlive).1)

theorem Wired.alone_of_peers (hw : Wired s) (hn : s.nodes.get? n = some node) (hpeers : node.peerTree = []) :
    ∀ l link, s.Live l link → link.parent ≠ n := by
  rintro l link hlive rfl
  obtain ⟨_, parent, hparent, hmem⟩ := hw.parent l link hlive
  rw [hn] at hparent
  rw [← some.inj hparent, hpeers] at hmem
  cases hmem

theorem Move.routed (h : Move s s') (hs : Routed s) (hw : Wired s) : Routed s' := by
  cases h with
  | quiet => exact hs.same rfl rfl rfl rfl fun _ _ => Iff.rfl
  | news hnews => exact hs.news hw hnews
  | @unlink l link peerCount s₁ _ hself _ hnews hdetach =>
    have hs₀ : Routed { s with peerCount } := hs.same rfl rfl rfl rfl fun _ _ => Iff.rfl
    have hw₀ : Wired { s with peerCount } := hw.same rfl rfl rfl rfl rfl rfl
    have hlive := hnews.live_after
    exact (hs₀.news hw₀ hnews).detached hlive rfl (hnews.sameWiring.selfLink ▸ hself) hdetach
  | @link link linkCost peerCount s₁ s₂ hlinked hjoins hparent hfresh hlabels hattach hnews =>
    have hw₁ := hattach.wired hw hlinked hjoins hparent hfresh hlabels
    exact (hs.attached hw hw₁ hlinked hjoins hattach hnews).same rfl rfl rfl rfl fun _ _ => Iff.rfl
  | alloc node hfresh =>
    have hnext : s.nodes.next ∉ s.nodeTree := fun hmem => by
      obtain ⟨other, hother, _⟩ := hw.listed.node _ hmem
      rw [Heap.get?_next] at hother
      cases hother
    have hget : ∀ m, (s.nodes.alloc node).get? m = if m = s.nodes.next then some node else s.nodes.get? m :=
      fun m => Heap.get?_alloc
    refine hs.setAlone rfl rfl rfl (fun m hm => ⟨?_, Iff.rfl⟩)
      (fun heq : s.nodes.next = s.selfNode => hnext (heq ▸ hw.selfTree))
      (hw.alone_of_notMem hnext) fun node' hnode' => ?_
    · exact (hget m).trans (if_neg hm)
    · rw [hget, if_pos rfl] at hnode'
      cases hnode'
      exact ⟨hfresh.best, fun hmem => absurd hmem hnext, fun _ => hfresh.cost⟩
  | @drop n hn =>
    have hget : ∀ m, (s.nodes.free n).get? m = if m = n then none else s.nodes.get? m := fun m => Heap.get?_free
    refine hs.setAlone rfl rfl rfl (fun m hm => ⟨?_, Iff.rfl⟩) (fun heq : n = s.selfNode => hn (heq ▸ hw.selfTree))
      (hw.alone_of_notMem hn) fun node' hnode' => ?_
    · exact (hget m).trans (if_neg hm)
    · rw [hget, if_pos rfl] at hnode'
      cases hnode'
  | @remove n node hn hself hpeers hreverse hbest htree =>
    have hget : ∀ m, (s.nodes.free n).get? m = if m = n then none else s.nodes.get? m := fun m => Heap.get?_free
    refine hs.setAlone rfl rfl rfl (fun m hm => ⟨?_, List.mem_erase_of_ne hm⟩) hself (hw.alone_of_peers hn hpeers)
      fun node' hnode' => ?_
    · exact (hget m).trans (if_neg hm)
    · rw [hget, if_pos rfl] at hnode'
      cases hnode'
  | freePending => exact hs.same rfl rfl rfl rfl fun _ _ => freePendingLinks_live hw
  | @marks nodes marks hnode hnext hclear =>
    refine hs.congr rfl rfl (fun _ _ => id) (fun _ _ _ _ _ _ => id) (fun m node' hm => ?_) (fun m node hm _ => ?_)
      fun m htree node' hm => ?_
    · obtain ⟨node, hold, rfl⟩ := map_eq_some_iff.mp ((hnode m).symm.trans hm)
      exact .inl ⟨node, hold, rfl, Iff.rfl⟩
    · exact ⟨{ node with marked := marks m }, (hnode m).trans (congrArg _ hm), rfl⟩
    · obtain ⟨node, hold, rfl⟩ := map_eq_some_iff.mp ((hnode m).symm.trans hm)
      exact hclear m htree
  | @version n node hn _ v =>
    have hget : ∀ m, (s.nodes.set n { node with address := { node.address with protocolVersion := v } }).get? m =
        if m = n then some { node with address := { node.address with protocolVersion := v } } else s.nodes.get? m := by
      intro m
      by_cases hm : m = n
      · rw [if_pos hm, hm]
        exact Heap.get?_set_self hn
      · rw [if_neg hm]
        exact Heap.get?_set_of_ne hm
    refine hs.congr rfl rfl (fun _ _ => id) (fun _ _ _ _ _ _ => id) (fun m node' hm => ?_) (fun m old hm _ => ?_)
      fun m htree node' hm => ?_
    · have hm := (hget m).symm.trans hm
      split at hm
      next heq =>
        cases hm
        exact .inl ⟨node, heq ▸ hn, rfl, Iff.rfl⟩
      · exact .inl ⟨node', hm, rfl, Iff.rfl⟩
    · by_cases heq : m = n
      · subst heq
        cases hn.symm.trans hm
        exact ⟨_, (hget m).trans (if_pos rfl), rfl⟩
      · exact ⟨old, (hget m).trans ((if_neg heq).trans hm), rfl⟩
    · have hm := (hget m).symm.trans hm
      split at hm
      next heq =>
        cases hm
        exact hs.unmarked n (heq ▸ htree) node hn
      · exact hs.unmarked m htree node' hm

end NodeStore

end Hyperboria
