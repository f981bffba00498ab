/-
The routing tree of every store that can come about: the best parents lead from each node that is reached
to the self link, the costs of the links on the way add up to the cost of the node, and its path is that
of its parent, extended (`routing_tree`).
-/
import Hyperboria.Dht.Operations
import Hyperboria.Dht.Routing

namespace Hyperboria

namespace NodeStore

/-- The chain of best parents from a link to the self link, what the links on it cost together and the path
that `extendRoute` makes along it. -/
inductive Chain (s : NodeStore) : LinkId → Nat → BitVec 64 → Prop
  | self {l : LinkId} (hself : s.selfLink = some l) : Chain s l 0 1
  | step {l parentBest : LinkId} {link parentLink : Link} {parent : Node} {cost : Nat} {path path' : BitVec 64}
    (hlive : s.Live l link) (hparent : s.nodes.get? link.parent = some parent)
    (hbest : parent.bestParent = some parentBest) (hparentLive : s.Live parentBest parentLink)
    (hends : parentLink.child = link.parent) (hrest : Chain s parentBest cost path)
    (hroute : extendRoute path parent.encodingScheme link.cannonicalLabel parentLink.inverseLinkEncodingFormNumber =
      .ret path') : Chain s l (cost + link.linkCost.toNat) path'

theorem started_routed {myAddress} (renumberMill : RumorMill) {linkCost}
    (nodeCapacity linkCapacity : Int) (hleast : 1024 ≤ linkCost.toNat) :
    Routed { started myAddress renumberMill linkCost with nodeCapacity, linkCapacity } := by
  refine ⟨⟨_, rfl, rfl, rfl, rfl⟩, fun n node l hn hl => ?_, fun n hn hself => ?_, fun n node hn hout => ?_, fun n => ?_,
    fun l link hlive => ?_, fun n _ node hn => ?_⟩
  · obtain ⟨rfl, rfl⟩ := get?_alloc_empty hn
    cases hl
    exact ⟨_, ⟨rfl, rfl⟩, rfl⟩
  · exact absurd (List.mem_singleton.mp hn) hself
  · obtain ⟨rfl, rfl⟩ := get?_alloc_empty hn
    exact absurd List.mem_cons_self hout
  · refine .intro n fun p hup => ?_
    obtain ⟨node, l, link, hn, _, hlive, hp, hne⟩ := hup
    obtain ⟨rfl, rfl⟩ := get?_alloc_empty hn
    obtain ⟨rfl, rfl⟩ := get?_alloc_empty hlive.1
    exact absurd hp.symm hne
  · obtain ⟨_, rfl⟩ := get?_alloc_empty hlive.1
    exact hleast
  · obtain ⟨_, rfl⟩ := get?_alloc_empty hn
    rfl

section
variable {C : Crypto} {paranoia : Bool} {s : NodeStore}

theorem Reachable.routed (h : Reachable C paranoia s) : Routed s :=
  (h.induction (fun _ renumberMill _ nodeCapacity linkCapacity _ _ => started_routed renumberMill nodeCapacity linkCapacity)
    fun _ _ hs hrouted hmove => hmove.routed hrouted hs.wired).2

theorem Routed.chain (hs : Routed s) {n : NodeId} {node} {l} (hn : s.nodes.get? n = some node)
    (hl : node.bestParent = some l) : s.Chain l node.cost.toNat node.address.path := by
  -- the induction goes up the tree: what the chain of the parent comes to is what the parent says
  induction hs.ascends n generalizing node l with
  | intro n _ ih =>
    by_cases hself : n = s.selfNode
    · obtain ⟨self, hget, hroot, hcost, hpath⟩ := hs.self
      rw [hself, hget] at hn
      cases hn
      rw [hcost, hpath]
      exact .self (hroot.symm.trans hl)
    · have hfits := hs.fits hn hl hself
      obtain ⟨⟨link, parent, parentBest, parentLink, hlive, _, hp, hpbest, hplive, hcost, hroute⟩, _⟩ := hs.fits hn hl hself
      have hne := hfits.parent_ne hn hlive (hs.priced l link hlive)
      obtain ⟨other, hother, hends⟩ := hs.ends _ parent parentBest hp hpbest
      obtain rfl := hplive.unique hother
      rw [hcost]
      exact .step hlive hp hpbest hplive hends (ih link.parent ⟨node, l, link, hn, hl, hlive, rfl, hne⟩ hp hpbest) hroute

/-- Every node with a best parent is the end of a chain from the self link that has its cost and path, no node is
above itself, and nobody is marked. -/
theorem routing_tree (hs : Reachable C paranoia s) :
    (∀ n node l, s.nodes.get? n = some node → node.bestParent = some l →
      (∃ link, s.Live l link ∧ link.child = n) ∧ s.Chain l node.cost.toNat node.address.path) ∧
    (∃ self, s.nodes.get? s.selfNode = some self ∧ self.bestParent = s.selfLink) ∧
    (∀ n, ¬ Relation.TransGen s.Up n n) ∧
    ∀ n ∈ s.nodeTree, ∀ node, s.nodes.get? n = some node → node.marked = false := by
  have hrouted := hs.routed
  obtain ⟨self, hself, hroot, _⟩ := hrouted.self
  exact ⟨fun n node l hn hl => ⟨hrouted.ends n node l hn hl, hrouted.chain hn hl⟩, ⟨self, hself, hroot⟩,
    hrouted.ascends.acyclic, hrouted.unmarked⟩

/-- A peer, and a node behind it. -/
theorem reachable_two_hops : ∃ s, history true 128 4096 [.discoverNode (host 1 0x13) .v358 0,
    .discoverNode (host 2 0x133) .v358 0] = .ret s ∧ Reachable Symbolic.crypto true s := by
  refine Exists.imp (fun s hrun => ⟨hrun, ?_⟩) ⟨_, rfl⟩
  exact Reachable.of_history (by decide) (by decide) hrun

theorem routing_tree_two_hops : ∃ s node, Reachable Symbolic.crypto true s ∧ s.nodes.get? 2 = some node ∧
    node.bestParent = some 2 ∧ node.address.path = 0x133 ∧ s.Chain 2 node.cost.toNat 0x133 := by
  obtain ⟨s, hrun, hs⟩ := reachable_two_hops
  obtain ⟨node, hnode, hbest, hpath⟩ : ∃ node, s.nodes.get? 2 = some node ∧ node.bestParent = some 2 ∧
      node.address.path = 0x133 := by
    cases hrun
    exact ⟨_, rfl, rfl, rfl⟩
  exact ⟨s, node, hs, hnode, hbest, hpath, hpath ▸ ((routing_tree hs).1 2 node 2 hnode hbest).2⟩

/-- The path of a node that is reached leads to no other node. Neither it nor the cost of the node can overflow. -/
theorem routes_distinct (hs : Reachable C paranoia s) {n m : NodeId} {node other : Node} {l k : LinkId}
    (hn : s.nodes.get? n = some node) (hl : node.bestParent = some l) (hm : s.nodes.get? m = some other)
    (hk : other.bestParent = some k) :
    (node.address.path = other.address.path ↔ n = m) ∧ node.address.path.toNat < 2 ^ 60 ∧
      node.cost.toNat ≤ 2 ^ 32 * 59 := by
  have hrouted := hs.routed
  have hw := hs.sound.wired
  obtain ⟨self, _, hself, -⟩ := hw.selfLink
  have hlt : node.address.path.toNat < 2 ^ 60 := by
    by_cases h : n = s.selfNode
    · obtain ⟨_, hget, -, -, hpath⟩ := hrouted.self
      cases (h ▸ hget).symm.trans hn
      simp [hpath]
    · exact hrouted.path_lt hw hn hl h
  refine ⟨⟨fun h => ?_, fun h => ?_⟩, hlt, (hrouted.cost_le hw hn hl).trans ?_⟩
  · have hspells := (hrouted.spells hw hself hn hl).2
    rw [h] at hspells
    obtain rfl := hspells.unique (hrouted.spells hw hself hm hk).2 hw
    obtain ⟨link, hlive, rfl⟩ := hrouted.ends n node l hn hl
    obtain ⟨link', hlive', rfl⟩ := hrouted.ends m other l hm hk
    rw [hlive.unique hlive']
  · subst h
    rw [Option.some.inj (hn.symm.trans hm)]
  · exact Nat.mul_le_mul_left _ (Bits.log2_le_iff.mpr hlt)

theorem routes_distinct_two_hops : ∃ s, Reachable Symbolic.crypto true s ∧ ∃ node other, s.nodes.get? 1 = some node ∧
    s.nodes.get? 2 = some other ∧ (node.address.path = other.address.path ↔ 1 = 2) := by
  obtain ⟨s, hrun, hs⟩ := reachable_two_hops
  refine ⟨s, hs, ?_⟩
  cases hrun
  exact ⟨_, _, rfl, rfl, (routes_distinct hs (n := 1) (m := 2) rfl rfl rfl rfl).1⟩

end

end NodeStore

end Hyperboria
