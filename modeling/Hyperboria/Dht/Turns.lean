/-
How a node looks for its best parent. Each link that ends at it is an offer (`Offers`): a cost and a
path, made of those of the link's parent. A turn of `findBestParent0` takes the best one (`Turn`);
if that is another one than before, the children that were reached through the node are marked, and
the rounds of `findBestParent` go on until nobody is marked (`findBestParent_cases`).
-/
import Hyperboria.Dht.Wired

namespace Hyperboria

open Er List Option

open EncodingScheme (Scheme)
open LabelSplicer (routesThrough)

theorem rounds_eq : ∃ fuel, rounds = fuel + 1 := ⟨2 ^ 64 - 1, rfl⟩

namespace NodeStore

/-! ## Offers -/

/-- The best parent of the node begins at the other one. -/
def Up (s : NodeStore) (n parent : NodeId) : Prop :=
  ∃ node l link, s.nodes.get? n = some node ∧ node.bestParent = some l ∧ s.Live l link ∧ link.parent = parent ∧
    parent ≠ n

/-- The link leads on from its parent at this cost and along this path. -/
structure Fits (s : NodeStore) (l : LinkId) (cost path : BitVec 64) : Prop where
  fits : ∃ link parent parentBest parentLink, s.Live l link ∧ link.linkCost ≠ UINT32_MAX ∧
    s.nodes.get? link.parent = some parent ∧ parent.bestParent = some parentBest ∧ s.Live parentBest parentLink ∧
    cost.toNat = parent.cost.toNat + link.linkCost.toNat ∧
    extendRoute parent.address.path parent.encodingScheme link.cannonicalLabel
      parentLink.inverseLinkEncodingFormNumber = .ret path
  finite : cost ≠ UINT64_MAX
  short : path ≠ UINT64_MAX
  valid : path ≠ extendRoute_INVALID

/-- The link offers this to the node: it does not begin below it. -/
structure Offers (s : NodeStore) (n : NodeId) (l : LinkId) (cost path : BitVec 64) : Prop where
  fits : s.Fits l cost path
  apart : ∀ link, s.Live l link → ¬ Relation.ReflTransGen s.Up link.parent n

/-- What the links looked at so far come to. -/
def Best.Sound (s : NodeStore) (n : NodeId) (ls : List LinkId) (best : Best) : Prop :=
  match best.link with
  | none => best.cost = UINT64_MAX ∧ best.path = UINT64_MAX
  | some l => l ∈ ls ∧ s.Offers n l best.cost best.path

section
variable {s : NodeStore} {n : NodeId} {l : LinkId} {link : Link} {best best' : Best}

theorem ancestorFrom_false {a b} {fuel} (h : ancestorFrom s a fuel b = .ret false) :
    ¬ Relation.ReflTransGen s.Up b a := by
  induction fuel generalizing b with
  | zero => cases h
  | succ fuel ih =>
    unfold ancestorFrom at h
    split at h
    · cases h
    next hne =>
      intro hup
      rcases Relation.ReflTransGen.cases_head hup with heq | ⟨c, hstep, hrest⟩
      · exact hne heq
      · obtain ⟨node, l, link, hn, hl, hlive, hc, hcb⟩ := hstep
        rw [node_eq_ret.mpr hn, ret_bind, hl] at h
        dsimp only at h
        rw [link_eq_ret.mpr hlive, ret_bind, hc, if_neg hcb] at h
        exact ih h hrest

theorem isAncestorOf_false {a b} (h : isAncestorOf s a b = .ret false) : ¬ Relation.ReflTransGen s.Up b a :=
  ancestorFrom_false h

theorem guessCostOfChild_cases {cost} (h : guessCostOfChild s link = .ret cost) :
    ∃ parent, s.nodes.get? link.parent = some parent ∧
      (cost ≠ UINT64_MAX → cost.toNat = parent.cost.toNat + link.linkCost.toNat) := by
  obtain ⟨parent, hparent, _, _, h⟩ := bind_inv2 h
  refine ⟨parent, node_eq_ret.mp hparent, fun hne => ?_⟩
  have hcost := ret.inj h
  have hwidth : (link.linkCost.setWidth 64).toNat = link.linkCost.toNat := by
    rw [BitVec.toNat_setWidth]
    omega
  split at hcost
  · exact absurd hcost.symm hne
  next hwrap =>
    rw [← hcost, BitVec.toNat_add]
    rw [BitVec.lt_def, BitVec.toNat_add] at hwrap
    omega

theorem considerLink_sound {ls} (h : considerLink s n best l = .ret best') (hl : l ∈ ls)
    (hbest : best.Sound s n ls) : best'.Sound s n ls := by
  obtain ⟨link, hlive, h⟩ := bind_inv h
  have hlive := link_eq_ret.mp hlive
  split at h
  · exact ret.inj h ▸ hbest
  next hmax =>
  obtain ⟨cost, hcost, h⟩ := bind_inv h
  split at h
  · exact ret.inj h ▸ hbest
  next hless =>
  obtain ⟨_, _, h⟩ := bind_inv h
  split at h
  · exact ret.inj h ▸ hbest
  obtain ⟨parent, hparent, h⟩ := bind_inv h
  have hparent := node_eq_ret.mp hparent
  split at h
  · exact ret.inj h ▸ hbest
  next parentBest hparentBest =>
  obtain ⟨ancestor, hancestor, h⟩ := bind_inv h
  split at h
  · exact ret.inj h ▸ hbest
  next hnot =>
  obtain ⟨parentLink, hparentLink, path, hpath, h⟩ := bind_inv2 h
  split at h
  · exact ret.inj h ▸ hbest
  next hlong =>
  split at h
  · exact ret.inj h ▸ hbest
  next hvalid =>
  cases eq_of_bind_ret h
  have hne : cost ≠ UINT64_MAX := by
    intro heq
    subst heq
    apply hless
    show best.cost.toNat ≤ 2 ^ 64 - 1
    omega
  obtain ⟨parent', hparent', hsum⟩ := guessCostOfChild_cases hcost
  cases hparent.symm.trans hparent'
  rw [Bool.not_eq_true] at hnot
  subst hnot
  refine ⟨hl, ⟨⟨link, parent, parentBest, parentLink, hlive, hmax, hparent, hparentBest, link_eq_ret.mp hparentLink,
    hsum hne, hpath⟩, hne, hlong, hvalid⟩, fun link' hlive' => ?_⟩
  obtain rfl := hlive.unique hlive'
  exact isAncestorOf_false hancestor

theorem considerLinks_sound {ls ms} (h : considerLinks s n best ms = .ret best')
    (hsub : ∀ l ∈ ms, l ∈ ls) (hbest : best.Sound s n ls) : best'.Sound s n ls := by
  induction ms generalizing best with
  | nil => exact ret.inj h ▸ hbest
  | cons l ms ih =>
    obtain ⟨mid, hmid, h⟩ := bind_inv h
    exact ih h (fun k hk => hsub k (mem_cons_of_mem _ hk))
      (considerLink_sound hmid (hsub l mem_cons_self) hbest)

end

variable {s s' : NodeStore}

theorem up_congr {a b : NodeId} (hlinks : s'.links = s.links)
    (hnode : ∀ m, m ≠ a → (s.nodes.get? m).map (·.bestParent) = (s'.nodes.get? m).map (·.bestParent))
    (h : Relation.ReflTransGen s'.Up b a) : Relation.ReflTransGen s.Up b a := by
  induction h using Relation.ReflTransGen.head_induction_on with
  | refl => exact .refl
  | @head b c hstep _ ih =>
    by_cases hba : b = a
    · exact hba ▸ .refl
    · obtain ⟨node, l, link, hn, hl, hlive, hc, hcb⟩ := hstep
      have hmap := hnode b hba
      rw [hn] at hmap
      obtain ⟨old, hold, hbest⟩ := map_eq_some_iff.mp hmap
      refine .head ⟨old, l, link, hold, hbest.trans hl, ?_, hc, hcb⟩ ih
      unfold Live at hlive ⊢
      rwa [hlinks] at hlive

variable {l : LinkId} {cost path : BitVec 64}

/-- What a link leads to is made of the link, and of what its parent is reached by. -/
theorem Fits.congr (h : s.Fits l cost path) (hlinks : s'.links = s.links)
    (hnode : ∀ link, s.Live l link → (s'.nodes.get? link.parent).map (fun node => { node with marked := false }) =
      (s.nodes.get? link.parent).map fun node => { node with marked := false }) :
    s'.Fits l cost path := by
  obtain ⟨⟨link, parent, parentBest, parentLink, hlive, hmax, hparent, hbest, hparentLink, hcost, hpath⟩,
    hfinite, hshort, hvalid⟩ := h
  have hmap := hnode link hlive
  rw [hparent] at hmap
  obtain ⟨parent', hparent', heq⟩ := map_eq_some_iff.mp hmap
  have hlive' : ∀ k other, s.Live k other → s'.Live k other := by
    intro k other hother
    unfold Live
    rw [hlinks]
    exact hother
  have hsame : parent'.bestParent = parent.bestParent := congrArg (·.bestParent) heq
  have hcost' : parent'.cost = parent.cost := congrArg (·.cost) heq
  have hpath' : parent'.address = parent.address := congrArg (·.address) heq
  have hscheme : parent'.encodingScheme = parent.encodingScheme := congrArg (·.encodingScheme) heq
  refine ⟨⟨link, parent', parentBest, parentLink, hlive' _ _ hlive, hmax, hparent', hsame.trans hbest,
    hlive' _ _ hparentLink, ?_, ?_⟩, hfinite, hshort, hvalid⟩
  · rw [hcost', hcost]
  · rw [hpath', hscheme, hpath]

variable {n : NodeId}

theorem Offers.congr (h : s.Offers n l cost path) (hlinks : s'.links = s.links)
    (hnode : ∀ m, m ≠ n → (s'.nodes.get? m).map (fun node => { node with marked := false }) =
      (s.nodes.get? m).map fun node => { node with marked := false }) :
    s'.Offers n l cost path := by
  refine ⟨h.fits.congr hlinks fun link hlive => hnode _ fun heq => h.apart link hlive (heq ▸ .refl),
    fun link hlive hup => ?_⟩
  unfold Live at hlive
  rw [hlinks] at hlive
  refine h.apart link hlive (up_congr hlinks (fun m hm => ?_) hup)
  have hbests := congrArg (Option.map Node.bestParent) (hnode m hm)
  rw [Option.map_map, Option.map_map] at hbests
  exact hbests.symm

/-! ## A turn -/

/-- What `markChildren` does: nodes get a mark, those that are reached by one of the links among them. -/
structure Marking (s : NodeStore) (ls : List LinkId) (s' : NodeStore) (marks : NodeId → Bool) : Prop where
  rest : ∃ nodes, s' = { s with nodes }
  node : ∀ m, s'.nodes.get? m = (s.nodes.get? m).map fun node => { node with marked := marks m }
  next : s'.nodes.next = s.nodes.next
  kept : ∀ m node, s.nodes.get? m = some node → node.marked = true → marks m = true
  reached : ∀ l ∈ ls, ∀ link child, s.Live l link → s.nodes.get? link.child = some child →
    child.bestParent = some l → marks link.child = true

theorem markChildren_marking {bestCost} {ls} (h : markChildren s cost bestCost ls = .ret s') :
    ∃ marks, Marking s ls s' marks := by
  induction ls generalizing s with
  | nil =>
    obtain rfl := ret.inj h
    refine ⟨fun m => (s.nodes.get? m).elim false (·.marked), ⟨_, rfl⟩, fun m => ?_, rfl, fun m node hm hmarked => ?_,
      fun l hl => (nomatch hl)⟩
    · cases hm : s.nodes.get? m with
      | none => rfl
      | some node => rfl
    · rw [hm]
      exact hmarked
  | cons l ls ih =>
    obtain ⟨link, hlink, h⟩ := bind_inv h
    have hlink := link_eq_ret.mp hlink
    obtain ⟨child, hchild, h⟩ := bind_inv h
    have hchild := node_eq_ret.mp hchild
    split at h
    · obtain ⟨marks, ⟨nodes, hrest⟩, hnode, hnext, hkept, hreached⟩ := ih h
      have hget : ∀ m, (s.setNode link.child { child with marked := true }).nodes.get? m =
          if m = link.child then some { child with marked := true } else s.nodes.get? m := fun m => Heap.get?_set hchild
      have hhere : marks link.child = true := hkept link.child { child with marked := true }
        (by rw [hget, if_pos rfl]) rfl
      refine ⟨marks, ⟨nodes, hrest⟩, fun m => ?_, hnext.trans Heap.next_set, fun m node hm hmarked => ?_,
        fun k hk link' child' hlink' hchild' hbest => ?_⟩
      · rw [hnode, hget]
        split
        next hm =>
          rw [hm, hchild]
          rfl
        · rfl
      · by_cases hmc : m = link.child
        · rw [hmc]
          exact hhere
        · exact hkept m node (by rw [hget, if_neg hmc, hm]) hmarked
      · by_cases hmc : link'.child = link.child
        · rw [hmc]
          exact hhere
        · rcases mem_cons.mp hk with rfl | hk
          · exact absurd (congrArg Link.child (hlink'.unique hlink)) hmc
          · exact hreached k hk link' child' hlink' (by rw [hget, if_neg hmc, hchild']) hbest
    next hnot =>
      obtain ⟨marks, hrest, hnode, hnext, hkept, hreached⟩ := ih h
      refine ⟨marks, hrest, hnode, hnext, hkept, fun k hk link' child' hlink' hchild' hbest => ?_⟩
      rcases mem_cons.mp hk with rfl | hk
      · obtain rfl := hlink'.unique hlink
        cases hchild.symm.trans hchild'
        exact absurd (.inr hbest) hnot
      · exact hreached k hk link' child' hlink' hchild' hbest

/-- What `setParentCostAndPath` does, and what it has asked before. -/
theorem setParentCostAndPath_cases {best} (h : setParentCostAndPath s n best cost path = .ret s') :
    ∃ node, s.nodes.get? n = some node ∧
      s' = s.setNode n { node with bestParent := best, cost, address := { node.address with path } } ∧
      ∀ l, best = some l → ∃ link, s.Live l link ∧ link.child = n := by
  have hset : ∀ {s'}, (do
      let node ← s.node n
      ret (s.setNode n { node with bestParent := best, cost, address := { node.address with path } })) = .ret s' →
      ∃ node, s.nodes.get? n = some node ∧
        s' = s.setNode n { node with bestParent := best, cost, address := { node.address with path } } := by
    intro s' h
    obtain ⟨node, hnode, h⟩ := bind_inv h
    exact ⟨node, node_eq_ret.mp hnode, (ret.inj h).symm⟩
  cases best with
  | none =>
    obtain ⟨_, _, _, _, h⟩ := bind_inv2 h
    obtain ⟨node, hnode, heq⟩ := hset h
    exact ⟨node, hnode, heq, fun l hl => (nomatch hl)⟩
  | some l =>
    obtain ⟨link, hlink, _, hchild, h⟩ := bind_inv2 h
    obtain ⟨_, _, _, _, h⟩ := bind_inv2 h
    have hchild := of_decide_eq_true (assertTrue_eq_ret.mp hchild)
    have hends : ∀ k, some l = some k → ∃ link, s.Live k link ∧ link.child = n := by
      intro k hk
      cases hk
      exact ⟨link, link_eq_ret.mp hlink, hchild⟩
    split at h
    · obtain ⟨_, _, _, _, h⟩ := bind_inv2 h
      obtain ⟨node, hnode, heq⟩ := hset h
      exact ⟨node, hnode, heq, hends⟩
    · obtain ⟨_, _, _, _, h⟩ := bind_inv2 h
      obtain ⟨node, hnode, heq⟩ := hset h
      exact ⟨node, hnode, heq, hends⟩

/-- The count of nodes with a best parent after one node has got another one. -/
def countChanged (linkedNodes : Int) (old new : Option LinkId) : Int :=
  if new.isNone then (if old.isNone then linkedNodes + 1 else linkedNodes) - 1
  else if old.isNone then linkedNodes + 1 else linkedNodes

/-- What `findBestParent0` does. -/
inductive Turn (s : NodeStore) (n : NodeId) : NodeStore → Bool → Prop
  | self (node : Node) (hn : s.nodes.get? n = some node) (hself : n = s.selfNode) :
    Turn s n (s.setNode n { node with marked := false }) false
  | keep (node : Node) (best : Best) (hn : s.nodes.get? n = some node) (hself : n ≠ s.selfNode)
    (hbest : best.Sound s n node.reversePeers) (hcost : best.cost = node.cost) (hpath : best.path = node.address.path) :
    Turn s n (s.setNode n { node with marked := false }) false
  | change (node : Node) (best : Best) (nodes : Heap Node) (marks : NodeId → Bool) (hn : s.nodes.get? n = some node)
    (hself : n ≠ s.selfNode) (hbest : best.Sound s n node.reversePeers)
    (hends : ∀ l, best.link = some l → ∃ link, s.Live l link ∧ link.child = n)
    (hdiff : best.cost ≠ node.cost ∨ best.path ≠ node.address.path)
    (hnode : ∀ m, nodes.get? m = (s.nodes.get? m).map fun other =>
      if m = n then
        { other with
          bestParent := best.link, cost := best.cost, address := { other.address with path := best.path }
          marked := marks m }
      else { other with marked := marks m })
    (hnext : nodes.next = s.nodes.next)
    (hkept : ∀ m other, m ≠ n → s.nodes.get? m = some other → other.marked = true → marks m = true)
    (hreached : ∀ l ∈ node.peerTree, ∀ link other, s.Live l link → s.nodes.get? link.child = some other →
      other.bestParent = some l → marks link.child = true) :
    Turn s n { s with nodes, linkedNodes := countChanged s.linkedNodes node.bestParent best.link } true

variable {changed : Bool}

theorem findBestParent0_turn (h : findBestParent0 s n = .ret (s', changed)) : Turn s n s' changed := by
  obtain ⟨node, hn, h⟩ := bind_inv h
  have hn := node_eq_ret.mp hn
  dsimp only at h
  have hget : ∀ m, (s.setNode n { node with marked := false }).nodes.get? m =
      if m = n then some { node with marked := false } else s.nodes.get? m := fun m => Heap.get?_set hn
  split at h
  next hself =>
    cases h
    exact .self node hn hself
  next hself =>
    obtain ⟨best, hbest, h⟩ := bind_inv h
    have hsound : best.Sound s n node.reversePeers := by
      have hsound := considerLinks_sound hbest (fun l hl => hl) ⟨rfl, rfl⟩
      unfold Best.Sound at hsound ⊢
      split
      next hnone =>
        rw [hnone] at hsound
        exact hsound
      next l hl =>
        rw [hl] at hsound
        refine ⟨hsound.1, hsound.2.congr rfl fun m hm => ?_⟩
        rw [hget, if_neg hm]
    split at h
    next hdiff =>
      obtain ⟨s₁, hmark, s₂, hset, h⟩ := bind_inv2 h
      cases h
      obtain ⟨marks, ⟨nodes, rfl⟩, hnode, hnext, hkept, hreached⟩ := markChildren_marking hmark
      obtain ⟨node₁, hn₁, rfl, hends⟩ := setParentCostAndPath_cases hset
      have hnode₁ : node₁ = { node with marked := marks n } := by
        have := hnode n
        rw [hn₁] at this
        have hsome : (s.setNode n { node with marked := false }).nodes.get? n = some { node with marked := false } := by
          rw [hget, if_pos rfl]
        exact some.inj (this.trans (congrArg _ hsome))
      have hmap : ∀ m, (nodes.set n { node₁ with
          bestParent := best.link, cost := best.cost, address := { node₁.address with path := best.path } }).get? m =
          (s.nodes.get? m).map fun other =>
            if m = n then
              { other with
                bestParent := best.link, cost := best.cost, address := { other.address with path := best.path }
                marked := marks m }
            else { other with marked := marks m } := by
        intro m
        rw [Heap.get?_set hn₁]
        split
        next hm =>
          rw [hm, hn, hnode₁]
          rfl
        next hm =>
          refine (hnode m).trans ?_
          rw [hget, if_neg hm]
      have hturn := Turn.change node best _ marks hn hself hsound (fun l hl => ?_) hdiff hmap (by
        rw [Heap.next_set]
        exact hnext.trans Heap.next_set) (fun m other hm hother hmarked => ?_)
        (fun l hl link other hlive hother hbestl => ?_)
      · exact hturn
      · exact hends l hl
      · exact hkept m other (by rw [← hother]; exact Heap.get?_set_of_ne hm) hmarked
      · by_cases hm : link.child = n
        · exact hreached l hl link { node with marked := false } hlive (by rw [hm]; exact Heap.get?_set_self hn)
            (by rw [hm, hn] at hother; rw [← some.inj hother] at hbestl; exact hbestl)
        · exact hreached l hl link other hlive (by rw [← hother]; exact Heap.get?_set_of_ne hm) hbestl
    next hsame =>
      cases h
      rw [not_or, not_not, not_not] at hsame
      exact .keep node best hn hself hsound hsame.1 hsame.2

theorem Turn.sameWiring (h : Turn s n s' changed) : SameWiring s s' := by
  cases h with
  | self node hn _ | keep node best hn => exact SameWiring.setNode hn rfl
  | change node best nodes marks _ _ _ _ _ hnode hnext =>
    refine ⟨fun m => ?_, fun _ => rfl, hnext, rfl, rfl, rfl, rfl, rfl, rfl, rfl, rfl, rfl, rfl⟩
    rw [hnode, Option.map_map]
    refine map_congr fun other _ => ?_
    split
    · rfl
    · rfl

/-- A turn leaves the best parents where they end. -/
theorem Turn.bestEnds (h : Turn s n s' changed) (hs : BestEnds s) :
    BestEnds s' := by
  have hunmark : ∀ node, s.nodes.get? n = some node → BestEnds (s.setNode n { node with marked := false }) := by
    intro node hn m other l hm hl
    have hm : (s.nodes.set n _).get? m = some other := hm
    rw [Heap.get?_set hn] at hm
    split at hm
    next hmn =>
      cases hm
      rw [hmn]
      exact hs n node l hn hl
    · exact hs m other l hm hl
  cases h with
  | self node hn _ => exact hunmark node hn
  | keep node best hn => exact hunmark node hn
  | change node best nodes marks hn _ _ hends _ hnode =>
    intro m other l hm hl
    rw [hnode] at hm
    obtain ⟨old, hold, heq⟩ := map_eq_some_iff.mp hm
    split at heq
    next hmn =>
      obtain rfl := heq
      obtain ⟨link, hlive, hchild⟩ := hends l hl
      refine ⟨Heap.lt_next hlive.1, fun link' hlink' => ?_⟩
      cases hlive.1.symm.trans hlink'
      rw [hmn, hchild]
    · obtain rfl := heq
      exact hs m old l hold hl

/-! ## Rounds -/

/-- A marked node has its turn. -/
def MarkedTurn (s s' : NodeStore) : Prop :=
  ∃ n node changed, n ∈ s.nodeTree ∧ s.nodes.get? n = some node ∧ node.marked = true ∧ Turn s n s' changed

theorem sweep_unchanged {ns} (h : sweep s ns = .ret (s', false)) {m : NodeId} {node'}
    (hm : s'.nodes.get? m = some node') (hmarked : node'.marked = true) :
    m ∉ ns ∧ ∃ node, s.nodes.get? m = some node ∧ node.marked = true := by
  induction ns generalizing s with
  | nil =>
    cases h
    exact ⟨not_mem_nil, node', hm, hmarked⟩
  | cons n ns ih =>
    obtain ⟨node, hn, h⟩ := bind_inv h
    have hn := node_eq_ret.mp hn
    split at h
    · obtain ⟨⟨s₁, changed⟩, hturn, h⟩ := bind_inv h
      obtain ⟨⟨s₂, ret⟩, hrest, h⟩ := bind_inv h
      obtain ⟨rfl, hor⟩ := Prod.mk.inj (Er.ret.inj h)
      obtain ⟨rfl, rfl⟩ := Bool.or_eq_false_iff.mp hor
      obtain ⟨hmns, mid, hmid, hmidMarked⟩ := ih hrest
      have hunmark : s₁ = s.setNode n { node with marked := false } := by
        cases findBestParent0_turn hturn with
        | self node' hn' _ | keep node' best hn' => rw [some.inj (hn.symm.trans hn')]
      rw [hunmark] at hmid
      have hmid : (s.nodes.set n { node with marked := false }).get? m = some mid := hmid
      rw [Heap.get?_set hn] at hmid
      split at hmid
      next hmn =>
        rw [← some.inj hmid] at hmidMarked
        cases hmidMarked
      next hmn => exact ⟨not_mem_cons_of_ne_of_not_mem hmn hmns, mid, hmid, hmidMarked⟩
    next hunmarked =>
      obtain ⟨hmns, mid, hmid, hmidMarked⟩ := ih h
      refine ⟨not_mem_cons_of_ne_of_not_mem (fun hmn => ?_) hmns, mid, hmid, hmidMarked⟩
      rw [hmn, hn] at hmid
      rw [some.inj hmid] at hunmarked
      exact hunmarked hmidMarked

theorem sweep_turns {ns} {ret} (h : sweep s ns = .ret (s', ret)) (hns : ∀ n ∈ ns, n ∈ s.nodeTree) :
    Relation.ReflTransGen MarkedTurn s s' := by
  induction ns generalizing s ret with
  | nil =>
    cases h
    exact .refl
  | cons n ns ih =>
    obtain ⟨node, hn, h⟩ := bind_inv h
    have hn := node_eq_ret.mp hn
    split at h
    next hmarked =>
      obtain ⟨⟨s₁, changed⟩, hturn, h⟩ := bind_inv h
      obtain ⟨⟨s₂, ret'⟩, hrest, h⟩ := bind_inv h
      cases h
      have hturn := findBestParent0_turn hturn
      refine .head ⟨n, node, changed, hns n mem_cons_self, hn, hmarked, hturn⟩ (ih hrest fun m hm => ?_)
      rw [hturn.sameWiring.nodeTree]
      exact hns m (mem_cons_of_mem _ hm)
    · exact ih h fun m hm => hns m (mem_cons_of_mem _ hm)

/-- When the rounds are over nobody is marked. -/
theorem settle_turns {cycles} (h : settle s cycles = .ret s') :
    Relation.ReflTransGen MarkedTurn s s' ∧
      ∀ m ∈ s'.nodeTree, ∀ node, s'.nodes.get? m = some node → node.marked = false := by
  induction cycles generalizing s with
  | zero => cases h
  | succ cycles ih =>
    obtain ⟨⟨s₁, ret⟩, hsweep, h⟩ := bind_inv h
    have hturns := sweep_turns hsweep fun _ hn => hn
    dsimp only at h
    split at h
    · obtain ⟨hrest, hmarks⟩ := ih h
      exact ⟨hturns.trans hrest, hmarks⟩
    next hret =>
      cases h
      rw [Bool.not_eq_true] at hret
      subst hret
      refine ⟨hturns, fun m hm node hnode => ?_⟩
      rw [(sweep_sameWiring s s.nodeTree _ hsweep).nodeTree] at hm
      by_contra hmarked
      rw [Bool.not_eq_false] at hmarked
      exact (sweep_unchanged hsweep hnode hmarked).1 hm

theorem findBestParent_cases {modified} (h : findBestParent s n = .ret (s', modified)) :
    ∃ s₁, Turn s n s₁ modified ∧ (modified = false ∧ s' = s₁ ∨ modified = true ∧
      Relation.ReflTransGen MarkedTurn s₁ s' ∧
      ∀ m ∈ s'.nodeTree, ∀ node, s'.nodes.get? m = some node → node.marked = false) := by
  obtain ⟨⟨s₁, changed⟩, hturn, h⟩ := bind_inv h
  have hturn := findBestParent0_turn hturn
  dsimp only at h
  split at h
  next hunchanged =>
    obtain ⟨rfl, rfl⟩ := Prod.mk.inj (ret.inj h)
    rw [Bool.not_eq_true'] at hunchanged
    subst hunchanged
    exact ⟨s₁, hturn, .inl ⟨rfl, rfl⟩⟩
  next hchanged =>
    obtain ⟨s₂, hsettle, h⟩ := bind_inv h
    cases h
    have hchanged : changed = true := by simpa using hchanged
    subst hchanged
    exact ⟨s₁, hturn, .inr ⟨rfl, settle_turns hsettle⟩⟩

/-! ## News of a link -/

theorem BestEnds.setLink {link new} (hs : BestEnds s) (hlink : s.links.get? l = some link)
    (hchild : new.child = link.child) : BestEnds (s.setLink l new) := by
  intro n node k hn hk
  obtain ⟨hlt, hends⟩ := hs n node k hn hk
  refine ⟨hlt.trans_eq Heap.next_set.symm, fun other hother => ?_⟩
  have hother : (s.links.set l new).get? k = some other := hother
  rw [Heap.get?_set hlink] at hother
  split at hother
  next hkl =>
    cases hother
    rw [hchild]
    exact hends link (hkl ▸ hlink)
  · exact hends other hother

theorem Turn.links (h : Turn s n s' changed) : s'.links = s.links := by
  cases h with
  | _ => rfl

/-- What `handleLinkNews` does: the link has another cost, its child has a turn, and then those who are marked. -/
structure News (s : NodeStore) (l : LinkId) (link : Link) (linkCost : BitVec 32) (s' : NodeStore) : Prop where
  live : s.Live l link
  least : 1024 ≤ linkCost.toNat
  turns : ∃ s₁ modified, Turn (s.setLink l { link with linkCost }) link.child s₁ modified ∧
    (modified = false ∧ s' = s₁ ∨ modified = true ∧ Relation.ReflTransGen MarkedTurn s₁ s' ∧
      ∀ m ∈ s'.nodeTree, ∀ node, s'.nodes.get? m = some node → node.marked = false)

theorem handleLinkNews_news {cost} (h : handleLinkNews s l cost = .ret s') :
    ∃ link linkCost, News s l link linkCost s' ∧ (cost = UINT32_MAX → linkCost = UINT32_MAX) := by
  obtain ⟨link, s₁, modified, hlive, hupdate, hfind⟩ := handleLinkNews_cases h
  obtain ⟨link', linkCost, hlive', rfl, hleast, hmax⟩ := update_cases hupdate
  obtain rfl := hlive.unique hlive'
  refine ⟨link, linkCost, ⟨hlive, hleast, ?_⟩, fun hcost => hmax (by rw [hcost]; omega)⟩
  obtain ⟨s₁, hturn, hcases⟩ := findBestParent_cases hfind
  exact ⟨s₁, modified, hturn, hcases⟩

namespace News

variable {s s' : NodeStore} {l : LinkId} {link : Link} {linkCost : BitVec 32}

variable (h : News s l link linkCost s')
include h

/-- What holds once the link has its cost and is kept by every turn holds in the end. -/
theorem induction {P : NodeStore → Prop}
    (hfirst : ∀ s₁ changed, Turn (s.setLink l { link with linkCost }) link.child s₁ changed → P s₁)
    (hturn : ∀ a b, P a → MarkedTurn a b → P b) : P s' := by
  obtain ⟨s₁, modified, hone, ⟨_, rfl⟩ | ⟨_, hturns, -⟩⟩ := h.turns
  · exact hfirst s' modified hone
  · have hP := hfirst s₁ modified hone
    clear h
    induction hturns with
    | refl => exact hP
    | tail _ hmarked ih => exact hturn _ _ ih hmarked

theorem sameWiring : SameWiring s s' := by
  have hset : SameWiring s (s.setLink l { link with linkCost }) := SameWiring.setLink h.live.1 rfl
  refine h.induction (fun s₁ changed hturn => hset.trans hturn.sameWiring) fun a b ha hmarked => ?_
  obtain ⟨_, _, _, _, _, _, hturn⟩ := hmarked
  exact ha.trans hturn.sameWiring

theorem bestEnds (hs : BestEnds s) : BestEnds s' := by
  refine h.induction (fun s₁ changed hturn => hturn.bestEnds (hs.setLink h.live.1 rfl)) fun a b ha hmarked => ?_
  obtain ⟨_, _, _, _, _, _, hturn⟩ := hmarked
  exact hturn.bestEnds ha

theorem links : s'.links = s.links.set l { link with linkCost } := by
  refine h.induction (fun s₁ changed hturn => hturn.links) fun a b ha hmarked => ?_
  obtain ⟨_, _, _, _, _, _, hturn⟩ := hmarked
  exact hturn.links.trans ha

theorem live_after : s'.Live l { link with linkCost } := by
  refine ⟨?_, h.live.2⟩
  rw [h.links]
  exact Heap.get?_set_self h.live.1

end News

end NodeStore

end Hyperboria
