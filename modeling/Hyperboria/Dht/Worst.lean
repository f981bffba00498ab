/-
Which node the loop of `discoverNode` drops when the store is too full. It is neither our own node nor a peer
if and only if there is somebody to spare (`evictsSafely_iff`): a node that cannot be reached, a node further away
that nobody protects, or, if everyone is protected, any node further away. Otherwise a peer or we ourselves are
the victim.
-/
import Hyperboria.Dht.RoutingTree

namespace Hyperboria

open Er List

namespace NodeStore

/-! ## Between the steps of an operation -/

/-- The version each node tells. -/
def versionOf (s : NodeStore) (n : NodeId) : Option Nat := (s.nodes.get? n).map (·.address.protocolVersion)

section
variable {s s' : NodeStore}

theorem Turn.versionOf {n} {changed} (h : Turn s n s' changed) (m : NodeId) :
    s'.versionOf m = s.versionOf m := by
  have hunmark : ∀ node, s.nodes.get? n = some node →
      (s.setNode n { node with marked := false }).versionOf m = s.versionOf m := by
    intro node hn
    unfold NodeStore.versionOf
    dsimp [NodeStore.setNode]
    rw [Heap.get?_set hn]
    split
    next hm =>
      rw [hm, hn]
      rfl
    · rfl
  cases h with
  | self node hn => exact hunmark node hn
  | keep node best hn => exact hunmark node hn
  | change node best nodes marks hn _ _ _ _ hnode =>
    show (nodes.get? m).map _ = (s.nodes.get? m).map _
    rw [hnode, Option.map_map]
    refine Option.map_congr fun other _ => ?_
    split
    · rfl
    · rfl

theorem News.versionOf {l} {link} {linkCost} (h : News s l link linkCost s') (m : NodeId) :
    s'.versionOf m = s.versionOf m := by
  refine h.induction (fun s₁ changed hturn => hturn.versionOf m) fun a b ha hmarked => ?_
  obtain ⟨_, _, _, _, _, _, hturn⟩ := hmarked
  exact (hturn.versionOf m).trans ha

theorem Move.versionOf_self (h : Move s s') (hs : Wired s) :
    s'.versionOf s.selfNode = s.versionOf s.selfNode := by
  obtain ⟨self, hself, _⟩ := hs.listed.node _ hs.selfTree
  cases h with
  | quiet => rfl
  | news hnews => exact hnews.versionOf _
  | unlink _ _ hnews hdetach =>
    refine Eq.trans ?_ (hnews.versionOf _)
    obtain ⟨self₁, hself₁, _⟩ := hnews.sameWiring.node_after hself
    unfold NodeStore.versionOf
    rw [hdetach.node_after hself₁, hself₁]
    rfl
  | link _ _ _ _ _ hattach hnews =>
    refine (hnews.versionOf _).trans ?_
    unfold NodeStore.versionOf
    rw [hattach.node_after hself, hself]
    rfl
  | alloc node _ =>
    have hget : (s.nodes.alloc node).get? s.selfNode = s.nodes.get? s.selfNode :=
      Heap.get?_alloc.trans (if_neg (Heap.lt_next hself).ne)
    exact congrArg _ hget
  | @drop n hn =>
    have hget : (s.nodes.free n).get? s.selfNode = s.nodes.get? s.selfNode :=
      Heap.get?_free.trans (if_neg fun heq : s.selfNode = n => hn (heq ▸ hs.selfTree))
    exact congrArg _ hget
  | remove _ hne =>
    have hget : (s.nodes.free _).get? s.selfNode = s.nodes.get? s.selfNode := Heap.get?_free.trans (if_neg (Ne.symm hne))
    exact congrArg _ hget
  | freePending => rfl
  | marks hnode =>
    unfold NodeStore.versionOf
    rw [hnode, hself]
    rfl
  | version _ hne => exact congrArg _ (Heap.get?_set_of_ne (Ne.symm hne))

end

/-- A store that steps of an operation lead to: the stores that are there before, after and during the calls. -/
def Underway (C : Crypto) (paranoia : Bool) (s : NodeStore) : Prop :=
  ∃ s₀, Reachable C paranoia s₀ ∧ Moves s₀ s

structure Steady (s : NodeStore) : Prop where
  sound : Sound s
  routed : Routed s
  current : s.versionOf s.selfNode = some Version.CURRENT_PROTOCOL

variable {s : NodeStore}

theorem Steady.wired (hs : Steady s) : Wired s := hs.sound.wired

theorem Move.steady {s'} (h : Move s s') (hs : Steady s) : Steady s' :=
  ⟨h.sound hs.sound, h.routed hs.routed hs.wired, by rw [h.self.1, h.versionOf_self hs.wired, hs.current]⟩

theorem Moves.steady {s'} (h : Moves s s') (hs : Steady s) : Steady s' := by
  induction h with
  | refl => exact hs
  | tail _ hmove ih => exact hmove.steady ih

theorem Reachable.steady {C} {paranoia} (h : Reachable C paranoia s) : Steady s := by
  induction h with
  | new hlength hstart nodeCapacity linkCapacity =>
    obtain ⟨linkCost, hleast, rfl⟩ := new_cases hstart
    exact ⟨started_sound _ linkCost nodeCapacity linkCapacity hlength, started_routed _ nodeCapacity linkCapacity hleast, rfl⟩
  | step _ op hvalid hrun ih => exact (Operation.moves hrun hvalid ih.sound).steady ih

theorem Underway.steady {C} {paranoia} (h : Underway C paranoia s) : Steady s := by
  obtain ⟨s₀, hs₀, hmoves⟩ := h
  exact hmoves.steady hs₀.steady

/-! ## Who is worse -/

/-- The pure part of `whichIsWorse`. -/
def worseOf (self : Node) (one two : NodeId) (peerOne peerTwo : Bool) (nodeOne nodeTwo : Node) : NodeId :=
  let farOne := nodeOne.address.path = UINT64_MAX
  let farTwo := nodeTwo.address.path = UINT64_MAX
  let oldOne := nodeOne.address.protocolVersion < Version.CURRENT_PROTOCOL
  let oldTwo := nodeTwo.address.protocolVersion < Version.CURRENT_PROTOCOL
  let dist (node : Node) : BitVec 64 := (prefixOf node.address ^^^ prefixOf self.address).setWidth 64 + node.cost
  if peerOne && !peerTwo then two
  else if peerTwo && !peerOne then one
  else if farOne ∧ ¬ farTwo then one
  else if farTwo ∧ ¬ farOne then two
  else if oldOne ∧ ¬ oldTwo then one
  else if oldTwo ∧ ¬ oldOne then two
  else if dist nodeOne < dist nodeTwo then two else one

section
variable {s s' s₁ s₂ : NodeStore} {n one two : NodeId} {node : Node}

theorem Remarked.node_eq (h : Remarked s s') (n : NodeId) :
    s'.node n = s.node n >>= fun node => .ret { node with marked := s'.markOf n } := by
  have hget := h.get?_eq n
  unfold NodeStore.node
  rw [hget]
  cases s.nodes.get? n with
  | none => rfl
  | some node => rfl

theorem Remarked.isOneHopLink (h : Remarked s s') (link : Link) : isOneHopLink s' link = isOneHopLink s link := by
  unfold NodeStore.isOneHopLink
  rw [h.node_eq]
  cases s.node link.parent with
  | ret parent => rfl
  | abort message => rfl
  | spin => rfl

theorem Remarked.isPeer (h : Remarked s s') (n : NodeId) : isPeer s' n = isPeer s n := by
  have hself : s'.selfNode = s.selfNode := by rw [h.rest]
  have hlink : ∀ l, s'.link l = s.link l := fun l => by
    unfold NodeStore.link
    rw [h.links]
  unfold NodeStore.isPeer
  rw [h.node_eq]
  cases s.node n with
  | ret node =>
    simp [hlink, hself, h.isOneHopLink]
  | abort message => rfl
  | spin => rfl

theorem Steady.get? (hs : Steady s) (hn : n ∈ s.nodeTree) : ∃ node, s.nodes.get? n = some node := by
  obtain ⟨node, hnode, _⟩ := hs.wired.listed.node n hn
  exact ⟨node, hnode⟩

/-- Our own node is not a peer, and neither are nodes that cannot be reached. -/
theorem Steady.isPeer_ret (hs : Steady s) (hn : s.nodes.get? n = some node) :
    ∃ peer, isPeer s n = .ret peer ∧ (peer = true → n ≠ s.selfNode ∧ node.bestParent ≠ none) := by
  unfold NodeStore.isPeer
  rw [node_eq_ret.mpr hn, ret_bind]
  cases hbest : node.bestParent with
  | none => exact ⟨false, rfl, fun h => nomatch h⟩
  | some l =>
    obtain ⟨link, hlive, _⟩ := hs.routed.ends n node l hn hbest
    dsimp only
    rw [link_eq_ret.mpr hlive, ret_bind, isOneHopLink_eq hs.wired hlive]
    split
    · refine ⟨_, rfl, fun hother => ⟨?_, Option.some_ne_none l⟩⟩
      rintro rfl
      obtain ⟨self, hself, hroot, _⟩ := hs.routed.self
      cases hself.symm.trans hn
      exact of_decide_eq_true hother (hbest.symm.trans hroot)
    · exact ⟨false, rfl, fun h => nomatch h⟩

theorem whichIsWorse_eq {self nodeOne nodeTwo} {peerOne peerTwo}
    (hself : s.nodes.get? s.selfNode = some self) (hone : s.nodes.get? one = some nodeOne)
    (htwo : s.nodes.get? two = some nodeTwo) (hpeerOne : isPeer s one = .ret peerOne)
    (hpeerTwo : isPeer s two = .ret peerTwo) :
    whichIsWorse s one two = .ret (worseOf self one two peerOne peerTwo nodeOne nodeTwo) := by
  unfold whichIsWorse worseOf
  rw [hpeerOne, ret_bind, hpeerTwo, ret_bind, node_eq_ret.mpr hone, ret_bind, node_eq_ret.mpr htwo, ret_bind,
    node_eq_ret.mpr hself, ret_bind]
  simp only [Nat.not_lt]
  split_ifs <;> rfl

/-- Who is worse does not depend on marks. -/
theorem Steady.whichIsWorse_ret (hs : Steady s) (hone : one ∈ s.nodeTree) (htwo : two ∈ s.nodeTree) :
    ∃ worse, ∀ s', Remarked s s' → whichIsWorse s' one two = .ret worse := by
  obtain ⟨self, hself⟩ := hs.get? hs.wired.selfTree
  obtain ⟨nodeOne, hnodeOne⟩ := hs.get? hone
  obtain ⟨nodeTwo, hnodeTwo⟩ := hs.get? htwo
  obtain ⟨peerOne, hpeerOne, _⟩ := hs.isPeer_ret hnodeOne
  obtain ⟨peerTwo, hpeerTwo, _⟩ := hs.isPeer_ret hnodeTwo
  refine ⟨worseOf self one two peerOne peerTwo nodeOne nodeTwo, fun s' h => ?_⟩
  obtain ⟨_, hself'⟩ := h.node_after hself
  obtain ⟨_, hnodeOne'⟩ := h.node_after hnodeOne
  obtain ⟨_, hnodeTwo'⟩ := h.node_after hnodeTwo
  have hown : s'.selfNode = s.selfNode := by rw [h.rest]
  rw [whichIsWorse_eq (hown ▸ hself') hnodeOne' hnodeTwo' ((h.isPeer one).trans hpeerOne)
    ((h.isPeer two).trans hpeerTwo)]
  rfl

/-- A node of this kind is worse than any other. -/
def Prefers (s : NodeStore) (kind : NodeId → Prop) : Prop :=
  ∀ one ∈ s.nodeTree, ∀ two ∈ s.nodeTree, kind one → ¬ kind two →
    whichIsWorse s one two = .ret one ∧ whichIsWorse s two one = .ret one

theorem prefers_true (s : NodeStore) : Prefers s fun _ => True := fun _ _ _ _ _ hnot => absurd trivial hnot

theorem Steady.prefers_distant (hs : Steady s) : Prefers s fun n => isPeer s n = .ret false := by
  intro one hone two htwo hkind hnot
  obtain ⟨self, hself⟩ := hs.get? hs.wired.selfTree
  obtain ⟨nodeOne, hnodeOne⟩ := hs.get? hone
  obtain ⟨nodeTwo, hnodeTwo⟩ := hs.get? htwo
  obtain ⟨peerTwo, hpeerTwo, _⟩ := hs.isPeer_ret hnodeTwo
  cases peerTwo with
  | false => exact absurd hpeerTwo hnot
  | true =>
    rw [whichIsWorse_eq hself hnodeOne hnodeTwo hkind hpeerTwo, whichIsWorse_eq hself hnodeTwo hnodeOne hpeerTwo hkind]
    exact ⟨rfl, rfl⟩

theorem Steady.dist_pos (hs : Steady s) {l} (hn : s.nodes.get? n = some node) (hl : node.bestParent = some l)
    (hself : n ≠ s.selfNode) (key : BitVec 32) : 0#64 < key.setWidth 64 + node.cost := by
  have hle := hs.routed.cost_le hs.wired hn hl
  obtain ⟨⟨link, parent, _, _, hlive, _, _, _, _, hcost, _⟩, _⟩ := hs.routed.fits hn hl hself
  have hpriced := hs.routed.priced l link hlive
  have hlog : node.address.path.toNat.log2 < 64 := by
    by_cases hzero : node.address.path.toNat = 0
    · rw [hzero]
      decide
    · exact (Nat.log2_lt hzero).mpr node.address.path.isLt
  rw [BitVec.lt_def, BitVec.toNat_add, BitVec.toNat_setWidth]
  simp only [BitVec.toNat_ofNat]
  omega

/-- If everyone can be reached, all nodes that are not peers are worse than our own. -/
theorem Steady.prefers_other (hs : Steady s)
    (hreached : ∀ n ∈ s.nodeTree, ∀ node, s.nodes.get? n = some node → node.bestParent ≠ none) :
    Prefers s fun n => n ≠ s.selfNode ∧ isPeer s n = .ret false := by
  intro one hone two htwo hkind hnot
  by_cases hown : two = s.selfNode
  · subst hown
    obtain ⟨nodeOne, hnodeOne⟩ := hs.get? hone
    obtain ⟨self, hself, hroot, hcost, hpath⟩ := hs.routed.self
    obtain ⟨peerTwo, hpeerTwo, hpeer⟩ := hs.isPeer_ret hself
    have hpeerTwo : isPeer s s.selfNode = .ret false := by
      cases peerTwo with
      | false => exact hpeerTwo
      | true => exact absurd rfl (hpeer rfl).1
    obtain ⟨l, hl⟩ := Option.ne_none_iff_exists'.mp (hreached one hone nodeOne hnodeOne)
    have hnear := (hs.routed.fits hnodeOne hl hkind.1).short
    have hfar := hs.dist_pos hnodeOne hl hkind.1 (prefixOf nodeOne.address ^^^ prefixOf self.address)
    have hcurrent : self.address.protocolVersion = Version.CURRENT_PROTOCOL := by
      have := hs.current
      unfold versionOf at this
      rw [hself] at this
      exact Option.some.inj this
    rw [whichIsWorse_eq hself hnodeOne hself hkind.2 hpeerTwo, whichIsWorse_eq hself hself hnodeOne hpeerTwo hkind.2]
    have hclose : self.address.path ≠ UINT64_MAX := by
      rw [hpath]
      decide
    have hzero : (prefixOf self.address ^^^ prefixOf self.address).setWidth 64 + self.cost = 0#64 := by
      rw [BitVec.xor_self, hcost]
      rfl
    unfold worseOf
    simp only [hclose, hnear, hcurrent, hzero, hfar, BitVec.not_lt_zero, Nat.lt_irrefl, Bool.not_false, Bool.and_true,
      Bool.false_eq_true, not_false_eq_true, and_true, false_and, if_false, if_true]
    split
    · exact ⟨rfl, rfl⟩
    · exact ⟨rfl, rfl⟩
  · exact hs.prefers_distant one hone two htwo hkind.2 fun hdistant => hnot ⟨hown, hdistant⟩

/-! ## The worst of some nodes -/

/-- The worst of the candidates so far: one of them, if there is any, and one of this kind, if there is any. -/
structure Picked (kind cands : NodeId → Prop) (worst : Option NodeId) : Prop where
  mem : ∀ w, worst = some w → cands w
  empty : worst = none → ∀ n, ¬ cands n
  prefers : ∀ n, cands n → kind n → ∃ w, worst = some w ∧ kind w

variable {kind : NodeId → Prop}

theorem Picked.nil : Picked kind (fun _ => False) none :=
  ⟨fun _ h => (nomatch h), fun _ _ h => h, fun _ h => h.elim⟩

variable {cands : NodeId → Prop} {worst : Option NodeId}

theorem Picked.congr {cands'} (h : Picked kind cands worst) (hiff : ∀ n, cands' n ↔ cands n) :
    Picked kind cands' worst := by
  have heq : cands' = cands := funext fun n => propext (hiff n)
  rw [heq]
  exact h

theorem Picked.worseThan (h : Picked kind cands worst) (hs : Steady s) (hr : Remarked s s') (hkind : Prefers s kind)
    (hcands : ∀ m, cands m → m ∈ s.nodeTree) (hn : n ∈ s.nodeTree) :
    ∃ worst', worseThan s' n worst = .ret worst' ∧ Picked kind (fun m => cands m ∨ m = n) worst' := by
  unfold NodeStore.worseThan
  cases worst with
  | none =>
    refine ⟨some n, rfl, fun w hw => .inr (Option.some.inj hw).symm, fun hnone => (nomatch hnone), fun m hm hkindm => ?_⟩
    rcases hm with hm | rfl
    · exact absurd hm (h.empty rfl m)
    · exact ⟨m, rfl, hkindm⟩
  | some w =>
    have hw := hcands w (h.mem w rfl)
    obtain ⟨worse, hworse⟩ := hs.whichIsWorse_ret hn hw
    have hbefore := (hworse s (.refl s)).symm
    dsimp only
    rw [hworse s' hr]
    refine ⟨_, rfl, fun x hx => ?_, fun hnone => (nomatch hnone), fun m hm hkindm => ⟨_, rfl, ?_⟩⟩
    · have hx := Option.some.inj hx
      split at hx
      · exact .inr hx.symm
      · exact .inl (h.mem x (congrArg some hx))
    · have hsome : kind n ∨ kind w := by
        rcases hm with hm | rfl
        · obtain ⟨w', hw', hkindw⟩ := h.prefers m hm hkindm
          exact .inr (Option.some.inj hw' ▸ hkindw)
        · exact .inl hkindm
      by_cases hkindn : kind n
      · by_cases hkindw : kind w
        · split
          · exact hkindn
          · exact hkindw
        · have heq := ret.inj (hbefore.trans (hkind n hn w hw hkindn hkindw).1)
          rw [if_pos heq]
          exact hkindn
      · have hkindw := hsome.resolve_left hkindn
        have heq := ret.inj (hbefore.trans (hkind w hw n hn hkindw hkindn).2)
        rw [heq]
        split
        next hwn => exact hwn ▸ hkindw
        · exact hkindw

variable {ns : List NodeId}

/-- The third loop of `getWorstNode`. -/
theorem Picked.worstOfAll (h : Picked kind cands worst) (hs : Steady s) (hr : Remarked s s') (hkind : Prefers s kind)
    (hcands : ∀ m, cands m → m ∈ s.nodeTree) (hns : ∀ m ∈ ns, m ∈ s.nodeTree) :
    ∃ worst', worstOfAll s' worst ns = .ret worst' ∧ Picked kind (fun m => cands m ∨ m ∈ ns) worst' := by
  induction ns generalizing cands worst with
  | nil => exact ⟨worst, rfl, h.congr fun m => or_iff_left (not_mem_nil)⟩
  | cons n ns ih =>
    have hn := hns n mem_cons_self
    obtain ⟨worse, hworse, hpicked⟩ := h.worseThan hs hr hkind hcands hn
    obtain ⟨worst', hworst', hpicked'⟩ := ih hpicked (fun m hm => hm.elim (hcands m) fun heq => heq ▸ hn)
      fun m hm => hns m (mem_cons_of_mem _ hm)
    unfold NodeStore.worstOfAll
    rw [hworse]
    refine ⟨worst', hworst', hpicked'.congr fun m => ?_⟩
    rw [mem_cons, or_assoc]

theorem markOf_setNode (hn : s.nodes.get? n = some node) (marked : Bool) (m : NodeId) :
    (s.setNode n { node with marked }).markOf m = if m = n then marked else s.markOf m := by
  unfold markOf
  dsimp [NodeStore.setNode]
  rw [Heap.get?_set hn]
  split
  · rfl
  · rfl

theorem markOf_eq (hn : s.nodes.get? n = some node) : s.markOf n = node.marked := by
  unfold markOf
  rw [hn]
  rfl

theorem Remarked.get?_of_mem (h : Remarked s s') (hs : Steady s) (hn : n ∈ s.nodeTree) :
    ∃ node, s'.nodes.get? n = some node := by
  obtain ⟨node, hnode⟩ := hs.get? hn
  obtain ⟨marked, hnode'⟩ := h.node_after hnode
  exact ⟨_, hnode'⟩

/-- The second loop of `getWorstNode`. -/
theorem Picked.worstUnmarked (h : Picked kind cands worst) (hs : Steady s) (hr : Remarked s s')
    (hkind : Prefers s kind) (hcands : ∀ m, cands m → m ∈ s.nodeTree) (hns : ∀ m ∈ ns, m ∈ s.nodeTree)
    (hnodup : ns.Nodup) :
    ∃ s'' worst', worstUnmarked s' worst ns = .ret (s'', worst') ∧
      Picked kind (fun m => cands m ∨ m ∈ ns ∧ s'.markOf m = false) worst' := by
  induction ns generalizing s' cands worst with
  | nil => exact ⟨s', worst, rfl, h.congr fun m => or_iff_left fun hm => not_mem_nil hm.1⟩
  | cons n ns ih =>
    have hn := hns n mem_cons_self
    have hrest : ∀ m ∈ ns, m ∈ s.nodeTree := fun m hm => hns m (mem_cons_of_mem _ hm)
    obtain ⟨hnot, hnodup⟩ := nodup_cons.mp hnodup
    obtain ⟨nn, hnn⟩ := hr.get?_of_mem hs hn
    have hmark := markOf_eq hnn
    unfold NodeStore.worstUnmarked
    rw [node_eq_ret.mpr hnn, ret_bind]
    split
    next hmarked =>
      obtain ⟨s'', worst', hworst', hpicked⟩ := ih h (hr.trans (Remarked.setNode hnn false)) hcands hrest hnodup
      refine ⟨s'', worst', hworst', hpicked.congr fun m => or_congr_right ?_⟩
      rw [markOf_setNode hnn, mem_cons]
      by_cases hmn : m = n
      · subst hmn
        rw [hmark, hmarked]
        exact ⟨fun hm => (nomatch hm.2), fun hm => absurd hm.1 hnot⟩
      · rw [if_neg hmn, or_iff_right hmn]
    next hmarked =>
      obtain ⟨worse, hworse, hpicked⟩ := h.worseThan hs hr hkind hcands hn
      obtain ⟨s'', worst', hworst', hpicked'⟩ := ih hpicked hr (fun m hm => hm.elim (hcands m) fun heq => heq ▸ hn)
        hrest hnodup
      rw [hworse]
      refine ⟨s'', worst', hworst', hpicked'.congr fun m => ?_⟩
      rw [mem_cons, or_assoc, or_and_right, or_congr_right (or_congr_left ?_)]
      refine and_iff_left_of_imp fun hmn => ?_
      rw [hmn, hmark]
      exact Bool.not_eq_true _ ▸ hmarked

/-! ## Who is protected -/

/-- The best parent of a node begins at this one. -/
def ParentOf (s : NodeStore) (n parent : NodeId) : Prop :=
  ∃ node l link, s.nodes.get? n = some node ∧ node.bestParent = some l ∧ s.Live l link ∧ link.parent = parent

def Unreachable (s : NodeStore) (n : NodeId) : Prop := ∃ node, s.nodes.get? n = some node ∧ node.bestParent = none

/-- The first loop of `getWorstNode`. -/
theorem Picked.worstUnreachable (h : Picked (fun _ => True) cands worst) (hs : Steady s) (hr : Remarked s s')
    (hcands : ∀ m, cands m → m ∈ s.nodeTree) (hns : ∀ m ∈ ns, m ∈ s.nodeTree) :
    ∃ s'' worst', worstUnreachable s' worst ns = .ret (s'', worst') ∧
      Picked (fun _ => True) (fun m => cands m ∨ m ∈ ns ∧ Unreachable s m) worst' ∧
      ∀ m, s''.markOf m = true ↔ s'.markOf m = true ∨ ∃ n ∈ ns, ParentOf s n m := by
  induction ns generalizing s' cands worst with
  | nil =>
    refine ⟨s', worst, rfl, h.congr fun m => or_iff_left fun hm => not_mem_nil hm.1, fun m => ?_⟩
    exact (or_iff_left fun ⟨_, hm, _⟩ => not_mem_nil hm).symm
  | cons n ns ih =>
    have hn := hns n mem_cons_self
    have hrest : ∀ m ∈ ns, m ∈ s.nodeTree := fun m hm => hns m (mem_cons_of_mem _ hm)
    obtain ⟨node, hnode⟩ := hs.get? hn
    obtain ⟨marked, hnode'⟩ := hr.node_after hnode
    unfold NodeStore.worstUnreachable
    rw [node_eq_ret.mpr hnode', ret_bind]
    cases hbest : node.bestParent with
    | some l =>
      obtain ⟨link, hlive, _⟩ := hs.routed.ends n node l hnode hbest
      obtain ⟨hparent, _⟩ := hs.wired.parent l link hlive
      obtain ⟨parent, hget⟩ := hr.get?_of_mem hs hparent
      obtain ⟨s'', worst', hworst', hpicked, hmarks⟩ := ih h (hr.trans (Remarked.setNode hget true)) hcands hrest
      have hlive' : s'.Live l link := by
        unfold Live
        rw [hr.links]
        exact hlive
      dsimp only
      rw [link_eq_ret.mpr hlive', ret_bind, node_eq_ret.mpr hget]
      refine ⟨s'', worst', hworst', hpicked.congr fun m => or_congr_right (and_congr_left fun hfar => ?_), fun m => ?_⟩
      · refine mem_cons.trans (or_iff_right fun hmn => ?_)
        obtain ⟨other, hother, hnone⟩ := hfar
        rw [hmn, hnode] at hother
        rw [← Option.some.inj hother, hbest] at hnone
        cases hnone
      · have hmark : (s'.setNode link.parent { parent with marked := true }).markOf m = true ↔
            m = link.parent ∨ s'.markOf m = true := by
          rw [markOf_setNode hget]
          by_cases hmp : m = link.parent
          · rw [if_pos hmp]
            exact ⟨fun _ => .inl hmp, fun _ => rfl⟩
          · rw [if_neg hmp, or_iff_right hmp]
        have hof : ParentOf s n m ↔ m = link.parent := by
          constructor
          · rintro ⟨node', l', link', hnode', hl', hlive', rfl⟩
            cases hnode.symm.trans hnode'
            cases hbest.symm.trans hl'
            rw [hlive.unique hlive']
          · rintro rfl
            exact ⟨node, l, link, hnode, hbest, hlive, rfl⟩
        rw [hmarks, hmark, exists_mem_cons_iff, hof, or_assoc, or_left_comm]
    | none =>
      have hfar : Unreachable s n := ⟨node, hnode, hbest⟩
      obtain ⟨worse, hworse, hpicked⟩ := h.worseThan hs hr (prefers_true s) hcands hn
      obtain ⟨s'', worst', hworst', hpicked', hmarks⟩ := ih hpicked hr (fun m hm => hm.elim (hcands m) fun heq => heq ▸ hn)
        hrest
      rw [hworse]
      refine ⟨s'', worst', hworst', hpicked'.congr fun m => ?_, fun m => (hmarks m).trans (or_congr_right ?_)⟩
      · rw [mem_cons, or_assoc, or_and_right, or_congr_right (or_congr_left ?_)]
        exact and_iff_left_of_imp fun hmn => hmn ▸ hfar
      · rw [exists_mem_cons_iff]
        refine (or_iff_right ?_).symm
        rintro ⟨node', l', _, hnode', hl', _⟩
        cases hnode.symm.trans hnode'
        cases hbest.symm.trans hl'

/-- The bucket a node falls into. -/
def bucketOf (s : NodeStore) (n : NodeId) : Nat :=
  match s.nodes.get? s.selfNode, s.nodes.get? n with
  | some self, some node => bucketForAddr self.address node.address
  | _, _ => bucketNumber

/-- A node is in the list that `NodeStore_getNodesForBucket` makes of its bucket. -/
def Shortlisted (s : NodeStore) (n : NodeId) : Prop :=
  ∃ nodes, getNodesForBucket s (bucketOf s n) bucketSize = .ret nodes ∧ n ∈ nodes

/-- Just the best parents are marked. -/
structure MarksParents (s s' : NodeStore) : Prop where
  remarked : Remarked s s'
  mark : ∀ m ∈ s.nodeTree, s'.markOf m = true ↔ ∃ n ∈ s.nodeTree, ParentOf s n m

/-- A node is protected if it is the best parent of somebody, or one of the best of its bucket once the best parents
are marked. -/
def Guarded (s : NodeStore) (n : NodeId) : Prop :=
  ∃ s', MarksParents s s' ∧ ((∃ m ∈ s.nodeTree, ParentOf s m n) ∨ Shortlisted s' n)

/-- A node goes before another one that is worse, or that is not marked if it is marked itself. -/
theorem insertBucket_cons {count} {old worse} {nodes} (hs : Steady s) (hr : Remarked s s')
    (hn : n ∈ s.nodeTree) (hold : old ∈ s.nodeTree) (hworse : ∀ s', Remarked s s' → whichIsWorse s' old n = .ret worse) :
    insertBucket s' (count + 1) n (old :: nodes) =
      if (s'.markOf n && !s'.markOf old) = true ∨ worse = old then
        insertBucket s' count old nodes >>= fun nodes => .ret (n :: nodes)
      else insertBucket s' count n nodes >>= fun nodes => .ret (old :: nodes) := by
  obtain ⟨newNode, hnew⟩ := hr.get?_of_mem hs hn
  obtain ⟨oldNode, hget⟩ := hr.get?_of_mem hs hold
  rw [insertBucket, node_eq_ret.mpr hnew, ret_bind, node_eq_ret.mpr hget, ret_bind, hworse s' hr,
    markOf_eq hnew, markOf_eq hget]
  dsimp only [ret_bind]
  by_cases hmark : (newNode.marked && !oldNode.marked) = true
  · rw [if_pos hmark, if_pos rfl, if_pos (Or.inl hmark)]
  · rw [if_neg hmark]
    by_cases heq : worse = old
    · rw [if_pos (decide_eq_true heq), if_pos (Or.inr heq)]
    · rw [if_neg (mt of_decide_eq_true heq), if_neg (not_or_intro hmark heq)]

/-- The list depends on no other marks than those of its nodes. -/
theorem insertBucket_ret {count} {nodes} (hs : Steady s) (h₁ : Remarked s s₁) (h₂ : Remarked s s₂)
    (htree : ∀ m ∈ n :: nodes, m ∈ s.nodeTree) (hmark : ∀ m ∈ n :: nodes, s₁.markOf m = s₂.markOf m) :
    ∃ nodes', insertBucket s₁ count n nodes = .ret nodes' ∧ insertBucket s₂ count n nodes = .ret nodes' ∧
      ∀ m ∈ nodes', m ∈ n :: nodes := by
  induction count generalizing n nodes with
  | zero => exact ⟨nodes, rfl, rfl, fun m hm => mem_cons_of_mem _ hm⟩
  | succ count ih =>
    cases nodes with
    | nil => exact ⟨[n], rfl, rfl, fun m hm => hm⟩
    | cons old nodes =>
      have hn := htree n mem_cons_self
      have hold := htree old (mem_cons_of_mem _ mem_cons_self)
      obtain ⟨worse, hworse⟩ := hs.whichIsWorse_ret hold hn
      have hlast : ∀ m ∈ old :: nodes, m ∈ n :: old :: nodes := fun m hm => mem_cons_of_mem _ hm
      have hfirst : ∀ m ∈ n :: nodes, m ∈ n :: old :: nodes := cons_subset_cons n (subset_cons_self old nodes)
      rw [insertBucket_cons hs h₁ hn hold hworse, insertBucket_cons hs h₂ hn hold hworse,
        hmark n mem_cons_self, hmark old (mem_cons_of_mem _ mem_cons_self)]
      split
      · obtain ⟨nodes', hnodes₁, hnodes₂, hmem⟩ := ih (fun m hm => htree m (hlast m hm)) fun m hm => hmark m (hlast m hm)
        rw [hnodes₁, hnodes₂]
        exact ⟨n :: nodes', rfl, rfl, fun m hm => (mem_cons.mp hm).elim (fun heq => heq ▸ mem_cons_self)
          fun hm => hlast m (hmem m hm)⟩
      · obtain ⟨nodes', hnodes₁, hnodes₂, hmem⟩ := ih (fun m hm => htree m (hfirst m hm)) fun m hm => hmark m (hfirst m hm)
        rw [hnodes₁, hnodes₂]
        exact ⟨old :: nodes', rfl, rfl, fun m hm => (mem_cons.mp hm).elim
          (fun heq => heq ▸ mem_cons_of_mem _ mem_cons_self) fun hm => hfirst m (hmem m hm)⟩

theorem Remarked.bucketOf (h : Remarked s s') (n : NodeId) : s'.bucketOf n = s.bucketOf n := by
  have hself : s'.selfNode = s.selfNode := by rw [h.rest]
  unfold NodeStore.bucketOf
  rw [hself, h.get?_eq, h.get?_eq]
  cases s.nodes.get? s.selfNode with
  | none => rfl
  | some self =>
    cases s.nodes.get? n with
    | none => rfl
    | some node => rfl

theorem nodesForBucketFrom_ret {self} {bucket count} {nodes ns} (hs : Steady s)
    (hself : s.nodes.get? s.selfNode = some self) (h₁ : Remarked s s₁) (h₂ : Remarked s s₂)
    (hmark : ∀ m ∈ s.nodeTree, s.bucketOf m = bucket → s₁.markOf m = s₂.markOf m) (hns : ∀ m ∈ ns, m ∈ s.nodeTree)
    (hnodes : ∀ m ∈ nodes, m ∈ s.nodeTree ∧ s.bucketOf m = bucket) :
    ∃ nodes', nodesForBucketFrom s₁ self.address bucket count nodes ns = .ret nodes' ∧
      nodesForBucketFrom s₂ self.address bucket count nodes ns = .ret nodes' ∧
      ∀ m ∈ nodes', m ∈ s.nodeTree ∧ s.bucketOf m = bucket := by
  induction ns generalizing nodes with
  | nil => exact ⟨nodes, rfl, rfl, hnodes⟩
  | cons n ns ih =>
    have hn := hns n mem_cons_self
    have hrest : ∀ m ∈ ns, m ∈ s.nodeTree := fun m hm => hns m (mem_cons_of_mem _ hm)
    obtain ⟨node, hnode⟩ := hs.get? hn
    obtain ⟨_, hnode₁⟩ := h₁.node_after hnode
    obtain ⟨_, hnode₂⟩ := h₂.node_after hnode
    have hbucketOf : s.bucketOf n = bucketForAddr self.address node.address := by
      unfold NodeStore.bucketOf
      rw [hself, hnode]
    unfold nodesForBucketFrom
    rw [node_eq_ret.mpr hnode₁, ret_bind, node_eq_ret.mpr hnode₂, ret_bind]
    split
    · exact ih hrest hnodes
    split
    next hbucket =>
      have hmem : ∀ m ∈ n :: nodes, m ∈ s.nodeTree ∧ s.bucketOf m = bucket := fun m hm =>
        (mem_cons.mp hm).elim (fun heq => heq ▸ ⟨hn, hbucketOf.trans hbucket⟩) (hnodes m)
      obtain ⟨nodes', hnodes₁, hnodes₂, hmem'⟩ := @insertBucket_ret s s₁ s₂ n count nodes hs h₁ h₂
        (fun m hm => (hmem m hm).1) fun m hm => hmark m (hmem m hm).1 (hmem m hm).2
      rw [hnodes₁, hnodes₂]
      exact ih hrest fun m hm => hmem m (hmem' m hm)
    · exact ih hrest hnodes

theorem getNodesForBucket_ret {bucket count} (hs : Steady s) (h₁ : Remarked s s₁) (h₂ : Remarked s s₂)
    (hmark : ∀ m ∈ s.nodeTree, s.bucketOf m = bucket → s₁.markOf m = s₂.markOf m) :
    ∃ nodes, getNodesForBucket s₁ bucket count = .ret nodes ∧ getNodesForBucket s₂ bucket count = .ret nodes ∧
      ∀ m ∈ nodes, m ∈ s.nodeTree ∧ s.bucketOf m = bucket := by
  obtain ⟨self, hself⟩ := hs.get? hs.wired.selfTree
  obtain ⟨_, hself₁⟩ := h₁.node_after hself
  obtain ⟨_, hself₂⟩ := h₂.node_after hself
  have hown₁ : s₁.selfNode = s.selfNode := by rw [h₁.rest]
  have hown₂ : s₂.selfNode = s.selfNode := by rw [h₂.rest]
  unfold getNodesForBucket
  rw [hown₁, hown₂, node_eq_ret.mpr hself₁, node_eq_ret.mpr hself₂, h₁.nodeTree, h₂.nodeTree]
  exact @nodesForBucketFrom_ret s s₁ s₂ self bucket count [] s.nodeTree hs hself h₁ h₂ hmark (fun m hm => hm)
    fun m hm => (nomatch hm)

theorem markAll_ret {marked} {ns} (hs : Steady s) (hr : Remarked s s')
    (hns : ∀ m ∈ ns, m ∈ s.nodeTree) : ∃ s'', markAll s' marked ns = .ret s'' ∧
      ∀ m, s''.markOf m = if m ∈ ns then marked else s'.markOf m := by
  induction ns generalizing s' with
  | nil => exact ⟨s', rfl, fun m => rfl⟩
  | cons n ns ih =>
    obtain ⟨node, hnode⟩ := hr.get?_of_mem hs (hns n mem_cons_self)
    obtain ⟨s'', hmark, hmarks⟩ := ih (hr.trans (Remarked.setNode hnode marked)) fun m hm => hns m (mem_cons_of_mem _ hm)
    unfold markAll
    rw [node_eq_ret.mpr hnode]
    refine ⟨s'', hmark, fun m => ?_⟩
    rw [hmarks, markOf_setNode hnode]
    by_cases hin : m ∈ ns
    · rw [if_pos hin, if_pos (mem_cons_of_mem _ hin)]
    · rw [if_neg hin]
      refine if_congr ?_ rfl rfl
      rw [mem_cons, or_iff_left hin]

/-- The buckets are told apart, so what is marked in one of them does not matter in the others. -/
theorem markBuckets_ret {buckets} (hs : Steady s) (h₁ : Remarked s s₁) (hr : Remarked s s')
    (hnodup : buckets.Nodup) (hsame : ∀ m ∈ s.nodeTree, s.bucketOf m ∈ buckets → s'.markOf m = s₁.markOf m) :
    ∃ s'', markBuckets s' buckets = .ret s'' ∧ ∀ m ∈ s.nodeTree, s''.markOf m = true ↔
      s'.markOf m = true ∨ s.bucketOf m ∈ buckets ∧ Shortlisted s₁ m := by
  induction buckets generalizing s' with
  | nil => exact ⟨s', rfl, fun m _ => (or_iff_left fun hm => not_mem_nil hm.1).symm⟩
  | cons bucket buckets ih =>
    obtain ⟨hnot, hnodup⟩ := nodup_cons.mp hnodup
    obtain ⟨nodes, hnodes, hnodes₁, hmem⟩ := @getNodesForBucket_ret s s' s₁ bucket bucketSize hs hr h₁ fun m hm hbucket =>
      hsame m hm (hbucket ▸ mem_cons_self)
    obtain ⟨s₂, hmark, hmarks⟩ := @markAll_ret s s' true nodes hs hr fun m hm => (hmem m hm).1
    have hr₂ := hr.trans (markAll_remarked hmark).1
    obtain ⟨s'', hrest, hiff⟩ := ih hr₂ hnodup fun m hm hbucket => by
      rw [hmarks, if_neg fun hin => hnot ((hmem m hin).2 ▸ hbucket)]
      exact hsame m hm (mem_cons_of_mem _ hbucket)
    unfold markBuckets markNodesForBucket
    rw [hnodes, ret_bind, hmark]
    refine ⟨s'', hrest, fun m hm => (hiff m hm).trans ?_⟩
    have hlisted : s.bucketOf m = bucket ∧ Shortlisted s₁ m ↔ m ∈ nodes := by
      unfold Shortlisted
      rw [h₁.bucketOf]
      constructor
      · rintro ⟨rfl, nodes', hnodes', hin⟩
        exact ret.inj (hnodes₁.symm.trans hnodes') ▸ hin
      · intro hin
        obtain ⟨_, rfl⟩ := hmem m hin
        exact ⟨rfl, nodes, hnodes₁, hin⟩
    rw [hmarks, mem_cons, or_and_right, hlisted]
    by_cases hin : m ∈ nodes
    · rw [if_pos hin]
      exact ⟨fun _ => .inr (.inl hin), fun _ => .inl rfl⟩
    · rw [if_neg hin, or_iff_right hin]

theorem bucketOf_lt (hs : Steady s) (hn : n ∈ s.nodeTree) : s.bucketOf n < bucketNumber := by
  obtain ⟨self, hself⟩ := hs.get? hs.wired.selfTree
  obtain ⟨node, hnode⟩ := hs.get? hn
  unfold bucketOf bucketNumber bucketForAddr
  rw [hself, hnode]
  dsimp only
  split <;> omega

theorem MarksParents.kept_iff (h : MarksParents s s₁) (hs : Steady s) (hn : n ∈ s.nodeTree) :
    Guarded s n ↔ s₁.markOf n = true ∨ Shortlisted s₁ n := by
  rw [h.mark n hn]
  constructor
  · rintro ⟨s₂, h₂, hguarded⟩
    refine hguarded.imp_right fun ⟨nodes, hnodes, hin⟩ => ?_
    obtain ⟨nodes', hnodes₁, hnodes₂, _⟩ := @getNodesForBucket_ret s s₁ s₂ (s.bucketOf n) bucketSize hs h.remarked h₂.remarked
      fun m hm _ => Bool.eq_iff_iff.mpr ((h.mark m hm).trans (h₂.mark m hm).symm)
    unfold Shortlisted
    rw [h.remarked.bucketOf]
    rw [h₂.remarked.bucketOf] at hnodes
    exact ⟨nodes', hnodes₁, ret.inj (hnodes.symm.trans hnodes₂) ▸ hin⟩
  · exact fun hguarded => ⟨s₁, h, hguarded⟩

/-- There is somebody to spare: neither our own node nor a peer, and unreachable, or not protected although that helps
others, or protected like everyone. -/
def Spare (s : NodeStore) : Prop :=
  ∃ n ∈ s.nodeTree, n ≠ s.selfNode ∧ isPeer s n = .ret false ∧
    (Unreachable s n ∨ ¬ Guarded s n ∨ ∀ m ∈ s.nodeTree, Guarded s m)

theorem Steady.parentOf_self (hs : Steady s) : ParentOf s s.selfNode s.selfNode := by
  obtain ⟨self, hself, hroot, _⟩ := hs.routed.self
  obtain ⟨l, link, hl, hlive, hparent, _⟩ := hs.wired.selfLink
  exact ⟨self, l, link, hself, hroot.trans hl, hlive, hparent⟩

theorem Steady.unreachable_spare (hs : Steady s) (hfar : Unreachable s n) :
    n ≠ s.selfNode ∧ isPeer s n = .ret false := by
  obtain ⟨node, hnode, hbest⟩ := hfar
  obtain ⟨peer, hpeer, hreached⟩ := hs.isPeer_ret hnode
  refine ⟨fun heq => ?_, ?_⟩
  · obtain ⟨self, l, _, hself, hl, _⟩ := hs.parentOf_self
    rw [heq, hself] at hnode
    rw [← Option.some.inj hnode, hl] at hbest
    cases hbest
  · cases peer with
    | false => exact hpeer
    | true => exact absurd hbest (hreached rfl).2

/-- After the first loop and the marks for the buckets, those who are protected are marked. -/
theorem MarksParents.markKeyspaceNodes (h : MarksParents s s₁) (hs : Steady s) :
    ∃ s₂, markKeyspaceNodes s₁ = .ret s₂ ∧ Remarked s s₂ ∧ ∀ m ∈ s.nodeTree, s₂.markOf m = true ↔ Guarded s m := by
  obtain ⟨s₂, hmark, hmarks⟩ := markBuckets_ret hs h.remarked h.remarked (nodup_range (n := bucketNumber))
    fun m _ _ => rfl
  refine ⟨s₂, hmark, h.remarked.trans (markBuckets_remarked hmark), fun m hm => ?_⟩
  rw [hmarks m hm, h.kept_iff hs hm]
  exact or_congr_right (and_iff_right (mem_range.mpr (bucketOf_lt hs hm)))

/-- The victim is neither our own node nor a peer if and only if there is somebody to spare. -/
theorem getWorstNode_ret (hs : Steady s) : ∃ s' worst, getWorstNode s = .ret (s', worst) ∧
    (worst ≠ s.selfNode ∧ isPeer s worst = .ret false ↔ Spare s) := by
  have hall : ∀ m ∈ s.nodeTree, m ∈ s.nodeTree := fun m hm => hm
  have hno : ∀ m, False → m ∈ s.nodeTree := fun m hm => hm.elim
  obtain ⟨s₁, worst₁, hfirst, hpicked₁, hmarks₁⟩ := Picked.nil.worstUnreachable hs (.refl s) hno hall
  have hr₁ := (worstUnreachable_remarked hfirst).1
  have hparents : MarksParents s s₁ := by
    refine ⟨hr₁, fun m hm => (hmarks₁ m).trans (or_iff_right ?_)⟩
    obtain ⟨node, hnode⟩ := hs.get? hm
    rw [markOf_eq hnode, hs.routed.unmarked m hm node hnode]
    exact Bool.false_ne_true
  unfold getWorstNode
  rw [hfirst, ret_bind]
  cases worst₁ with
  | some w =>
    obtain ⟨hw, hfar⟩ := (hpicked₁.mem w rfl).resolve_left id
    obtain ⟨s₂, hmark, _⟩ := @markAll_ret s s₁ false s.nodeTree hs hr₁ hall
    dsimp only
    rw [hr₁.nodeTree, hmark]
    have hspare := hs.unreachable_spare hfar
    exact ⟨s₂, w, rfl, fun _ => ⟨w, hw, hspare.1, hspare.2, .inl hfar⟩, fun _ => hspare⟩
  | none =>
    have hreached : ∀ n ∈ s.nodeTree, ¬ Unreachable s n := fun n hn hfar => hpicked₁.empty rfl n (.inr ⟨hn, hfar⟩)
    obtain ⟨s₂, hmark, hr₂, hguarded⟩ := hparents.markKeyspaceNodes hs
    obtain ⟨s₃, worst₃, hthird, hpicked₃⟩ := Picked.nil.worstUnmarked hs hr₂ hs.prefers_distant hno hall hs.wired.listed.nodup
    have hr₃ := hr₂.trans (worstUnmarked_remarked hthird).1
    dsimp only
    rw [hmark, ret_bind, hr₂.nodeTree, hthird, ret_bind]
    cases worst₃ with
    | some w =>
      obtain ⟨hw, hunmarked⟩ := (hpicked₃.mem w rfl).resolve_left id
      have hnot : ¬ Guarded s w := fun hw' => by
        rw [(hguarded w hw).mpr hw'] at hunmarked
        cases hunmarked
      have hself : w ≠ s.selfNode := by
        rintro rfl
        exact hnot ⟨s₁, hparents, .inl ⟨_, hs.wired.selfTree, hs.parentOf_self⟩⟩
      refine ⟨s₃, w, rfl, fun hsafe => ⟨w, hw, hsafe.1, hsafe.2, .inr (.inl hnot)⟩, fun ⟨n, hn, _, hpeer, hcases⟩ => ⟨hself, ?_⟩⟩
      have hfree : ¬ Guarded s n := (hcases.resolve_left (hreached n hn)).resolve_right fun hevery => hnot (hevery w hw)
      have hclear : s₂.markOf n = false := Bool.not_eq_true _ ▸ mt (hguarded n hn).mp hfree
      obtain ⟨w', hw', hdistant⟩ := hpicked₃.prefers n (.inr ⟨hn, hclear⟩) hpeer
      exact Option.some.inj hw' ▸ hdistant
    | none =>
      have hevery : ∀ m ∈ s.nodeTree, Guarded s m := fun m hm => (hguarded m hm).mp <| by
        have hmarked := hpicked₃.empty rfl m
        simpa [hm] using hmarked
      have hkind := hs.prefers_other fun n hn node hnode hbest => hreached n hn ⟨node, hnode, hbest⟩
      obtain ⟨worst₄, hfourth, hpicked₄⟩ := Picked.nil.worstOfAll hs hr₃ hkind hno hall
      rw [hr₃.nodeTree, hfourth]
      cases worst₄ with
      | none => exact absurd (.inr hs.wired.selfTree) (hpicked₄.empty rfl s.selfNode)
      | some w =>
        have hw := (hpicked₄.mem w rfl).resolve_left id
        refine ⟨s₃, w, rfl, fun hsafe => ⟨w, hw, hsafe.1, hsafe.2, .inr (.inr hevery)⟩, fun ⟨n, hn, hself, hpeer, _⟩ => ?_⟩
        obtain ⟨w', hw', hsafe⟩ := hpicked₄.prefers n (.inr hn) ⟨hself, hpeer⟩
        exact Option.some.inj hw' ▸ hsafe

end

/-! ## The loop -/

/-- A round of the loop that drops nodes. -/
def Round (paranoia : Bool) (s s' : NodeStore) : Prop :=
  s.Crowded ∧ ∃ s₁ worst s₂, getWorstNode s = .ret (s₁, worst) ∧ isPeer s₁ worst = .ret false ∧
    destroyNode paranoia s₁ worst = .ret s₂ ∧ s' = freePendingLinks s₂

/-- The loop ends when the store is no longer too full. Until then each victim is neither our own node nor a peer, and
once it has been dropped there are fewer nodes. -/
inductive EvictsSafely (paranoia : Bool) : NodeStore → Prop
  | done {s : NodeStore} (hroomy : ¬ s.Crowded) : EvictsSafely paranoia s
  | round {s s₁ : NodeStore} {worst : NodeId} (hworst : getWorstNode s = .ret (s₁, worst)) (hself : worst ≠ s.selfNode)
    (hpeer : isPeer s₁ worst = .ret false)
    (hfewer : ∀ s₂, destroyNode paranoia s₁ worst = .ret s₂ → (freePendingLinks s₂).nodeCount < s.nodeCount)
    (hrest : ∀ s₂, destroyNode paranoia s₁ worst = .ret s₂ → EvictsSafely paranoia (freePendingLinks s₂)) :
    EvictsSafely paranoia s

section
variable {C : Crypto} {paranoia : Bool} {s s' s₁ s₂ : NodeStore} {worst : NodeId}

theorem Steady.dropWorst (hs : Steady s) (hworst : getWorstNode s = .ret (s₁, worst))
    (hdestroy : destroyNode paranoia s₁ worst = .ret s₂) :
    Moves s (freePendingLinks s₂) ∧ (freePendingLinks s₂).nodeCount = s.nodeCount - 1 ∧
      (freePendingLinks s₂).nodeTree.length < s.nodeTree.length := by
  obtain ⟨hremarked, hclear, hin⟩ := getWorstNode_remarked hworst
  have hmove : Move s s₁ := hremarked.move hclear
  have htree := hremarked.nodeTree
  have hcount : s₁.nodeCount = s.nodeCount := by rw [hremarked.rest]
  have hdestroyed := destroyNode_destroyed hdestroy (hmove.sound hs.sound) (htree ▸ hin)
  refine ⟨(Relation.ReflTransGen.head hmove hdestroyed.moves).tail .freePending, hdestroyed.count.trans (by rw [hcount]), ?_⟩
  show s₂.nodeTree.length < s.nodeTree.length
  have hpos := length_pos_of_mem hin
  rw [hdestroyed.tree, htree, length_erase_of_mem hin]
  omega

theorem Round.steady (h : Round paranoia s s') (hs : Steady s) : Steady s' := by
  obtain ⟨_, s₁, worst, s₂, hworst, _, hdestroy, rfl⟩ := h
  exact (hs.dropWorst hworst hdestroy).1.steady hs

/-- In the loop of `discoverNode`, started from any store that can come about, the victims are never our own node nor a
peer, and the loop ends within the limits, if and only if there is somebody to spare whenever the store is too full. -/
theorem evictsSafely_iff (hs : Underway C paranoia s) :
    EvictsSafely paranoia s ↔ ∀ s', Relation.ReflTransGen (Round paranoia) s s' → s'.Crowded → s'.Spare := by
  replace hs := hs.steady
  constructor
  · intro h
    induction h with
    | @done s hroomy =>
      intro s' hrounds hcrowded
      rcases Relation.ReflTransGen.cases_head hrounds with rfl | ⟨_, hround, _⟩
      · exact absurd hcrowded hroomy
      · exact absurd hround.1 hroomy
    | @round s s₁ worst hworst hself hpeer _ _ ih =>
      intro s' hrounds hcrowded
      rcases Relation.ReflTransGen.cases_head hrounds with rfl | ⟨t, hround, hrounds⟩
      · obtain ⟨s₁', worst', hworst', hiff⟩ := getWorstNode_ret hs
        cases hworst.symm.trans hworst'
        exact hiff.mp ⟨hself, ((getWorstNode_remarked hworst).1.isPeer worst).symm.trans hpeer⟩
      · have hsteady := hround.steady hs
        obtain ⟨_, s₁', worst', s₂, hworst', _, hdestroy, rfl⟩ := hround
        cases hworst.symm.trans hworst'
        exact ih s₂ hdestroy hsteady s' hrounds hcrowded
  · intro hspare
    induction hlength : s.nodeTree.length using Nat.strong_induction_on generalizing s with
    | _ length ih =>
      by_cases hcrowded : s.Crowded
      · obtain ⟨s₁, worst, hworst, hiff⟩ := getWorstNode_ret hs
        obtain ⟨hself, hdistant⟩ := hiff.mpr (hspare s .refl hcrowded)
        have hpeer : isPeer s₁ worst = .ret false := ((getWorstNode_remarked hworst).1.isPeer worst).trans hdistant
        refine .round hworst hself hpeer (fun s₂ hdestroy => ?_) fun s₂ hdestroy => ?_
        · obtain ⟨_, hcount, _⟩ := hs.dropWorst hworst hdestroy
          omega
        · obtain ⟨hmoves, _, hshorter⟩ := hs.dropWorst hworst hdestroy
          have hround : Round paranoia s (freePendingLinks s₂) := ⟨hcrowded, s₁, worst, s₂, hworst, hpeer, hdestroy, rfl⟩
          exact ih _ (hlength ▸ hshorter) (hmoves.steady hs) (fun s' hrounds => hspare s' (.head hround hrounds)) rfl
      · exact .done hcrowded

/-- A peer is gone, and its node is dropped. -/
theorem evictsSafely_lost_peer : ∃ s, Underway Symbolic.crypto true s ∧ s.Crowded ∧ EvictsSafely true s := by
  have hrun : (history true 1 4096 [.discoverNode (host 1 0x13) .v358 0, .discoverNode (host 2 0x15) .v358 0,
      .disconnectedPeer 0x15]).Returns := ⟨_, rfl⟩
  obtain ⟨s, hrun⟩ := hrun
  have hs : Reachable Symbolic.crypto true s := Reachable.of_history (by decide) (by decide) hrun
  refine ⟨s, ⟨s, hs, .refl⟩, ?_, (evictsSafely_iff ⟨s, hs, .refl⟩).mpr fun s' hrounds hcrowded => ?_⟩
  · cases hrun
    decide
  · cases hrun
    rcases Relation.ReflTransGen.cases_head hrounds with rfl | ⟨t, ⟨_, s₁, worst, s₂, hworst, _, hdestroy, rfl⟩, hrounds⟩
    · exact ⟨2, by decide, by decide, rfl, .inl ⟨_, rfl, rfl⟩⟩
    · cases hworst
      cases hdestroy
      rcases Relation.ReflTransGen.cases_head hrounds with rfl | ⟨_, hround, _⟩
      · exact absurd hcrowded (by decide)
      · exact absurd hround.1 (by decide)

/-- With six peers in one bucket one of them is not protected. A node behind a peer is, so the peer has to go. -/
theorem getWorstNode_peer : ∃ s, Reachable Symbolic.crypto true s ∧
    NodeStore_discoverNode Symbolic.crypto true s (host 1 0x133) .v358 0 = .abort "!isPeer(worst, store)" := by
  have hrun : (history true 1 4096 [.discoverNode (host 8 0x13) .v358 0, .discoverNode (host 9 0x15) .v358 0,
      .discoverNode (host 10 0x17) .v358 0, .discoverNode (host 11 0x19) .v358 0, .discoverNode (host 12 0x1b) .v358 0,
      .discoverNode (host 13 0x1d) .v358 0]).Returns := ⟨_, rfl⟩
  obtain ⟨s, hrun⟩ := hrun
  refine ⟨s, Reachable.of_history (by decide) (by decide) hrun, ?_⟩
  cases hrun
  rfl

end

end NodeStore

end Hyperboria
