/-
The checks of the store are made again and again while it is changed, and last of all at the end of each
call. So they hold between the calls (`Reachable.check`), where a query may make them.
-/
import Hyperboria.Dht.Operations

namespace Hyperboria

open Er

open EncodingScheme (Scheme)

namespace NodeStore

section
variable {C : Crypto} {paranoia : Bool} {s s' : NodeStore}

theorem Operation.check {op : Operation} (h : op.run C paranoia s = .ret s') (hsound : Sound s)
    (hs : check s = .ret ()) : check s' = .ret () := by
  rcases op.settles h hsound with ⟨address, scheme, inv, rfl⟩ | hsettles
  · obtain ⟨⟨s₁, out⟩, hdiscover, h⟩ := bind_inv h
    obtain ⟨⟨s₂, out₂⟩, _, hdiscover⟩ := bind_inv hdiscover
    obtain ⟨_, hcheck, hdiscover⟩ := bind_inv hdiscover
    cases hdiscover
    exact ret.inj h ▸ hcheck
  · exact hsettles.check hs

theorem started_check (myAddress : Address) (renumberMill : RumorMill) (linkCost : BitVec 32)
    (nodeCapacity linkCapacity : Int) :
    check { started myAddress renumberMill linkCost with nodeCapacity, linkCapacity } = .ret () := by
  generalize hs : { started myAddress renumberMill linkCost with nodeCapacity, linkCapacity } = s
  have hnode : s.node 0 = .ret
      { cost := 0, marked := false, address := { myAddress with path := 1 }, encodingScheme := .v358, peerTree := [0]
        reversePeers := [0], bestParent := some 0 } := by subst hs; rfl
  have hlink : s.link 0 = .ret { newLink 0 0 1 0 1 with linkCost } := by subst hs; rfl
  have hself : s.selfNode = 0 := by subst hs; rfl
  have hselfLink : s.selfLink = some 0 := by subst hs; rfl
  have hcannonical : EncodingScheme.convertLabel Scheme.v358.forms 1 EncodingScheme.CANNONICAL = .ret 1 := rfl
  have hroute : EncodingScheme.isSelfRoute Scheme.v358.forms 1 = .ret true := rfl
  have hchain : checkChain s rounds 0 = .ret () := by
    obtain ⟨fuel, hfuel⟩ := rounds_eq
    rw [hfuel, checkChain, hnode, ret_bind, hself]
    dsimp only
    rw [hlink, ret_bind]
    dsimp only [newLink]
    rw [hnode, ret_bind]
    rfl
  have hpeers : checkReversePeers s 0 [0] = .ret () := by
    rw [checkReversePeers, hlink, ret_bind]
    dsimp only [newLink]
    rw [hnode, ret_bind]
    subst hs
    rfl
  have hlinks : ∀ node : Node, node.bestParent = some 0 → checkPeers s 0 node none [0] = .ret () := by
    intro node hbest
    rw [checkPeers, hlink, ret_bind]
    dsimp only [newLink]
    rw [hnode, ret_bind, hroute, ret_bind, hselfLink, hbest]
    rfl
  have hcheck : checkNode s 0 = .ret () := by
    rw [checkNode, hnode, ret_bind, hself, hnode, ret_bind]
    rw [hcannonical, ret_bind, hpeers, List.reverse_singleton, hlinks _ rfl, hchain]
    rfl
  have htree : s.nodeTree = [0] := by subst hs; rfl
  unfold check
  rw [hself, hnode, ret_bind, htree, checkNodes, hcheck, hnode]
  subst hs
  rfl

theorem checkNodes_mem {ns : List NodeId} {linkedNodes : Int} (h : checkNodes s ns = .ret linkedNodes) {n : NodeId}
    (hn : n ∈ ns) : NodeStore.checkNode s n = .ret () := by
  induction ns generalizing linkedNodes with
  | nil => cases hn
  | cons m ns ih =>
    obtain ⟨_, hcheck, _, _, h⟩ := bind_inv2 h
    obtain ⟨_, hrest, _⟩ := bind_inv h
    rcases List.mem_cons.mp hn with rfl | hn
    · exact hcheck
    · exact ih hrest hn

/-- The checks that are made while the store is changed hold between the calls. -/
theorem Reachable.check (h : Reachable C paranoia s) : check s = .ret () := by
  induction h with
  | new _ hstart nodeCapacity linkCapacity _ =>
    obtain ⟨linkCost, _, rfl⟩ := new_cases hstart
    exact started_check _ _ _ _ _
  | step hs op _ hrun ih => exact op.check hrun hs.sound ih

theorem Reachable.checkNode (h : Reachable C paranoia s) {n} (hn : n ∈ s.nodeTree) (harmed : s.disarmCheck = 0) :
    checkNode s n = .ret () := by
  have hcheck := h.check
  unfold NodeStore.check at hcheck
  rw [harmed, if_neg (by decide)] at hcheck
  obtain ⟨_, _, _, _, hcheck⟩ := bind_inv2 hcheck
  obtain ⟨_, hnodes, _⟩ := bind_inv hcheck
  exact checkNodes_mem hnodes hn

end

end NodeStore

end Hyperboria
