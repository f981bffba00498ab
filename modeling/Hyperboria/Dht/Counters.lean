/-
The counters of the store. They are changed in many places, here and there by one, and each of them is the
number it stands for after every run (`counters_right`). That is not because the checks would stop a run in
which one is wrong: no step of an operation makes one wrong (`Move.counted`).
-/
import Hyperboria.Dht.RoutingTree

namespace Hyperboria

open List Option

theorem countP_update {α : Type} {f g : α → Bool} {l : List α} {n} (hnodup : l.Nodup) (hn : n ∈ l)
    (hother : ∀ m ∈ l, m ≠ n → g m = f m) :
    l.countP g + (if f n then 1 else 0) = l.countP f + (if g n then 1 else 0) := by
  induction l with
  | nil => cases hn
  | cons a l ih =>
    obtain ⟨hnot, hnodup⟩ := nodup_cons.mp hnodup
    rw [countP_cons, countP_cons]
    by_cases han : a = n
    · subst han
      have hrest : l.countP g = l.countP f := countP_congr fun m hm => by
        rw [hother m (mem_cons_of_mem _ hm) fun heq => hnot (heq ▸ hm)]
      omega
    · have hmem := (mem_cons.mp hn).resolve_left fun heq => han heq.symm
      have hrest := ih hnodup hmem fun m hm => hother m (mem_cons_of_mem _ hm)
      rw [hother a mem_cons_self han]
      omega

namespace NodeStore

/-- The node has a best parent. -/
def reached (s : NodeStore) (n : NodeId) : Bool := ((s.nodes.get? n).bind (·.bestParent)).isSome

/-- The link is there and has not been taken out. -/
def alive (s : NodeStore) (l : LinkId) : Bool := (s.links.get? l).any (!·.unlinked)

def liveLinks (s : NodeStore) : Nat := (List.range s.links.next).countP s.alive

/-- Every counter is the number it stands for. -/
structure Counted (s : NodeStore) : Prop where
  nodes : s.nodeCount = s.nodeTree.length
  linked : s.linkedNodes = s.nodeTree.countP s.reached
  links : s.linkCount = s.liveLinks + s.linksToFree.length

section
variable {s s' : NodeStore} {n : NodeId} {l : LinkId} {node : Node} {link : Link}

theorem alive_iff : s.alive l = true ↔ ∃ link, s.Live l link := by
  unfold alive Live
  cases s.links.get? l with
  | none => simp
  | some link => simp

theorem reached_eq (hn : s.nodes.get? n = some node) : s.reached n = node.bestParent.isSome := by
  unfold reached
  rw [hn]
  rfl

theorem reached_congr (h : s'.nodes.get? n = s.nodes.get? n) : s'.reached n = s.reached n := by
  unfold reached
  rw [h]

theorem liveLinks_congr (hnext : s'.links.next = s.links.next)
    (hlive : ∀ l, (∃ link, s'.Live l link) ↔ ∃ link, s.Live l link) : s'.liveLinks = s.liveLinks := by
  unfold liveLinks
  rw [hnext]
  refine countP_congr fun l _ => ?_
  rw [alive_iff, alive_iff, hlive]

theorem Counted.congr (hs : Counted s) (hnodeCount : s'.nodeCount = s.nodeCount) (hlinked : s'.linkedNodes = s.linkedNodes)
    (hlinkCount : s'.linkCount = s.linkCount) (htree : s'.nodeTree = s.nodeTree)
    (hfree : s'.linksToFree = s.linksToFree) (hlive : s'.liveLinks = s.liveLinks)
    (hreached : ∀ m ∈ s.nodeTree, s'.reached m = s.reached m) : Counted s' := by
  refine ⟨?_, ?_, ?_⟩
  · rw [hnodeCount, htree, hs.nodes]
  · rw [hlinked, htree, hs.linked]
    exact congrArg _ (countP_congr fun m hm => by rw [hreached m hm]).symm
  · rw [hlinkCount, hlive, hfree, hs.links]

/-! ## A turn -/

theorem Counted.update (hs : Counted s) (hw : Wired s) (hn : n ∈ s.nodeTree) (hnodeCount : s'.nodeCount = s.nodeCount)
    (hlinked : s'.linkedNodes = s.linkedNodes + (if s'.reached n then 1 else 0) - (if s.reached n then 1 else 0))
    (hlinkCount : s'.linkCount = s.linkCount) (htree : s'.nodeTree = s.nodeTree)
    (hfree : s'.linksToFree = s.linksToFree) (hlive : s'.liveLinks = s.liveLinks)
    (hother : ∀ m, m ≠ n → s'.reached m = s.reached m) : Counted s' := by
  have hcount := countP_update hw.listed.nodup hn fun m _ => hother m
  refine ⟨?_, ?_, ?_⟩
  · rw [hnodeCount, htree, hs.nodes]
  · rw [hlinked, htree, hs.linked]
    split_ifs at hcount ⊢ <;> omega
  · rw [hlinkCount, hlive, hfree, hs.links]

theorem countChanged_eq (linkedNodes : Int) (old new : Option LinkId) :
    countChanged linkedNodes old new = linkedNodes + (if new.isSome then 1 else 0) - (if old.isSome then 1 else 0) := by
  unfold countChanged
  cases new <;> cases old <;> simp

theorem Turn.counted {changed} (h : Turn s n s' changed) (hs : Counted s) (hw : Wired s) (hn : n ∈ s.nodeTree) :
    Counted s' := by
  have hlive : s'.liveLinks = s.liveLinks := liveLinks_congr h.sameWiring.nextLink fun l => by
    simp [live_of_links h.links]
  have hunmark : ∀ node, s.nodes.get? n = some node → ∀ m,
      (s.setNode n { node with marked := false }).reached m = s.reached m := by
    intro node hn m
    unfold reached
    dsimp [NodeStore.setNode]
    rw [Heap.get?_set hn]
    split
    next hm =>
      rw [hm, hn]
      rfl
    · rfl
  cases h with
  | self node hget | keep node best hget => exact hs.congr rfl rfl rfl rfl rfl hlive fun m _ => hunmark node hget m
  | change node best nodes marks hget _ _ _ _ hnode =>
    have hget' : nodes.get? n = some { node with
        bestParent := best.link, cost := best.cost, address := { node.address with path := best.path }
        marked := marks n } := by
      rw [hnode, hget]
      dsimp [map_some]
      rw [if_pos rfl]
    refine hs.update hw hn rfl ?_ rfl rfl rfl hlive fun m hm => ?_
    · rw [reached_eq hget', reached_eq hget]
      exact countChanged_eq _ _ _
    · unfold reached
      rw [hnode]
      cases s.nodes.get? m with
      | none => rfl
      | some other =>
        dsimp only [map_some]
        rw [if_neg hm]
        rfl

theorem News.counted {linkCost} (h : News s l link linkCost s') (hs : Counted s) (hw : Wired s) : Counted s' := by
  have hset : SameWiring s (s.setLink l { link with linkCost }) := SameWiring.setLink h.live.1 rfl
  have hlive : ∀ k, (∃ other, (s.setLink l { link with linkCost }).Live k other) ↔ ∃ other, s.Live k other := fun k => by
    constructor
    · rintro ⟨other, hother⟩
      obtain ⟨old, hold, _⟩ := hset.live_before hother
      exact ⟨old, hold⟩
    · rintro ⟨other, hother⟩
      obtain ⟨new, hnew, _⟩ := hset.live_after hother
      exact ⟨new, hnew⟩
  have hcounted : Counted (s.setLink l { link with linkCost }) :=
    hs.congr rfl rfl rfl rfl rfl (liveLinks_congr hset.nextLink hlive) fun _ _ => rfl
  have hboth := h.induction (P := fun t => Counted t ∧ Wired t)
    (fun s₁ changed hturn => ⟨hturn.counted hcounted (hset.wired hw) (hw.child l link h.live).1,
      hturn.sameWiring.wired (hset.wired hw)⟩)
    fun a b ha ⟨_, _, _, hn, _, _, hturn⟩ => ⟨hturn.counted ha.1 ha.2 hn, hturn.sameWiring.wired ha.2⟩
  exact hboth.1

/-! ## Links come and go -/

theorem Detached.counted (h : Detached s l link s') (hs : Counted s) (hlive : s.Live l link) : Counted s' := by
  have hlt : l < s.links.next := Heap.lt_next hlive.1
  have hfewer : s'.liveLinks + 1 = s.liveLinks := by
    have hcount := countP_update (f := s.alive) (g := s'.alive) nodup_range (mem_range.mpr hlt) fun k _ hk => by
      rw [Bool.eq_iff_iff, alive_iff, alive_iff]
      simp [h.live_iff, hk]
    have hold : s.alive l = true := alive_iff.mpr ⟨link, hlive⟩
    have hnew : s'.alive l = false := by
      rw [Bool.eq_false_iff]
      exact fun hthere => by
        obtain ⟨other, hother⟩ := alive_iff.mp hthere
        exact (h.live_iff.mp hother).1 rfl
    rw [hold, hnew] at hcount
    unfold liveLinks
    rw [h.nextLink]
    simpa using hcount
  have hreached : ∀ m, s'.reached m = s.reached m := fun m => by
    unfold reached
    rw [h.node]
    cases s.nodes.get? m with
    | none => rfl
    | some node => rfl
  have hlinks := hs.links
  obtain ⟨nodes, links, hrest⟩ := h.rest
  have hnodeCount : s'.nodeCount = s.nodeCount := by rw [hrest]
  have hlinked : s'.linkedNodes = s.linkedNodes := by rw [hrest]
  have hlinkCount : s'.linkCount = s.linkCount := by rw [hrest]
  refine ⟨?_, ?_, ?_⟩
  · rw [hnodeCount, h.nodeTree, hs.nodes]
  · rw [hlinked, h.nodeTree, hs.linked]
    exact congrArg _ (countP_congr fun m _ => by rw [hreached m]).symm
  · rw [h.linksToFree, length_cons]
    omega

theorem Attached.counted (h : Attached s link s') (hs : Counted s) (hw : Wired s) (hr : Routed s)
    (hlinked : link.unlinked = false) (hjoins : s.Joins link.child) : Counted s' := by
  have hmore : s'.liveLinks = s.liveLinks + 1 := by
    have hnew : s'.alive s.links.next = true := alive_iff.mpr ⟨link, (h.live_iff hlinked).mpr (.inl ⟨rfl, rfl⟩)⟩
    unfold liveLinks
    rw [h.links, Heap.next_alloc, range_succ, countP_append, countP_singleton, hnew, if_pos rfl]
    refine congrArg (· + 1) (countP_congr fun k hk => ?_)
    have hne : k ≠ s.links.next := (mem_range.mp hk).ne
    rw [alive_iff, alive_iff]
    simp only [h.live_iff hlinked, hne, false_and, false_or]
  have hreached : ∀ m, s'.reached m = s.reached m := fun m => by
    unfold reached
    rw [h.node]
    cases s.nodes.get? m with
    | none => rfl
    | some node => rfl
  have hcongr : ∀ tree : List NodeId, tree.countP s'.reached = tree.countP s.reached := fun tree =>
    countP_congr fun m _ => by rw [hreached m]
  have hlinks := hs.links
  obtain ⟨nodes, nodeTree, nodeCount, hrest⟩ := h.rest
  have hlinkedNodes : s'.linkedNodes = s.linkedNodes := by rw [hrest]
  have hlinkCount : s'.linkCount = s.linkCount + 1 := by rw [hrest]
  have hend : s'.linkCount = s'.liveLinks + s'.linksToFree.length := by
    rw [hlinkCount, h.linksToFree, hmore]
    omega
  obtain ⟨child, hchild, ⟨_, htree, hcount⟩ | ⟨hnone, hcount, htree⟩⟩ := h.tree
  · refine ⟨?_, ?_, hend⟩
    · rw [hcount, htree, hs.nodes]
    · rw [hlinkedNodes, htree, hs.linked, hcongr]
  · -- the child is not in the tree yet, so nobody has led to it
    have hout : link.child ∉ s.nodeTree := fun hin => nodeForIp_eq_none_iff.mp hnone _ hin child hchild rfl
    have hfresh : s.reached link.child = false := by
      rw [reached_eq hchild, (hr.outside _ child hchild hout).1]
      rfl
    have hperm : s'.nodeTree.Perm (link.child :: s.nodeTree) := by
      refine (perm_ext_iff_of_nodup (h.listed hw hjoins).nodup (nodup_cons.mpr ⟨hout, hw.listed.nodup⟩)).mpr
        fun m => ?_
      rw [h.mem_nodeTree hw hjoins, mem_cons]
    refine ⟨?_, ?_, hend⟩
    · rw [hcount, hperm.length_eq, length_cons, hs.nodes]
      rfl
    · rw [hlinkedNodes, hperm.countP_eq, hcongr, countP_cons, hfresh, hs.linked]
      rfl

/-! ## Every move -/

theorem Move.counted (h : Move s s') (hs : Counted s) (hw : Wired s) (hr : Routed s) : Counted s' := by
  cases h with
  | quiet => exact hs.congr rfl rfl rfl rfl rfl rfl fun _ _ => rfl
  | news hnews => exact hnews.counted hs hw
  | @unlink l link peerCount s₁ _ hself _ hnews hdetach =>
    have hs₀ : Counted { s with peerCount } := hs.congr rfl rfl rfl rfl rfl rfl fun _ _ => rfl
    have hw₀ : Wired { s with peerCount } := hw.same rfl rfl rfl rfl rfl rfl
    have hlive := hnews.live_after
    exact hdetach.counted (hnews.counted hs₀ hw₀) hlive
  | @link link linkCost peerCount s₁ s₂ hlinked hjoins hparent hfresh hlabels hattach hnews =>
    have hw₁ := hattach.wired hw hlinked hjoins hparent hfresh hlabels
    exact (hnews.counted (hattach.counted hs hw hr hlinked hjoins) hw₁).congr rfl rfl rfl rfl rfl rfl fun _ _ => rfl
  | alloc node _ =>
    refine hs.congr rfl rfl rfl rfl rfl rfl fun m hm => ?_
    obtain ⟨old, hold, _⟩ := hw.listed.node m hm
    have hget : (s.nodes.alloc node).get? m = some old := Heap.get?_alloc.trans ((if_neg (Heap.lt_next hold).ne).trans hold)
    rw [reached_eq hold]
    exact reached_eq hget
  | @drop n hn =>
    refine hs.congr rfl rfl rfl rfl rfl rfl fun m hm => ?_
    have hmn : m ≠ n := fun heq => hn (heq ▸ hm)
    exact reached_congr (Heap.get?_free.trans (if_neg hmn))
  | @remove n node hn hself hpeers hreverse hbest htree =>
    have hsame : ∀ m ∈ s.nodeTree.erase n, reached { s with
        nodeTree := s.nodeTree.erase n, nodeCount := s.nodeCount - 1, nodes := s.nodes.free n } m = s.reached m :=
      fun m hm => reached_congr (Heap.get?_free.trans (if_neg (hw.listed.nodup.mem_erase_iff.mp hm).1))
    have hpos := length_pos_of_mem htree
    have hnodes := hs.nodes
    refine ⟨?_, ?_, hs.links⟩
    · show s.nodeCount - 1 = ((s.nodeTree.erase n).length : Int)
      rw [length_erase_of_mem htree]
      omega
    · have hreached : s.reached n = false := by
        rw [reached_eq hn, hbest]
        rfl
      have hlinked := hs.linked
      rw [(perm_cons_erase htree).countP_eq, countP_cons, hreached] at hlinked
      refine hlinked.trans (congrArg _ (countP_congr fun m hm => ?_))
      rw [hsame m hm]
  | freePending =>
    have hlinks := hs.links
    have hlive : (freePendingLinks s).liveLinks = s.liveLinks :=
      liveLinks_congr Heap.next_foldl_free fun l => by simp only [freePendingLinks_live hw]
    refine ⟨hs.nodes, hs.linked, ?_⟩
    rw [hlive]
    show s.linkCount - s.linksToFree.length = (s.liveLinks : Int) + 0
    omega
  | @marks nodes marks hnode hnext hclear =>
    refine hs.congr rfl rfl rfl rfl rfl rfl fun m _ => ?_
    unfold reached
    rw [hnode]
    cases s.nodes.get? m with
    | none => rfl
    | some node => rfl
  | @version n node hn _ v =>
    refine hs.congr rfl rfl rfl rfl rfl rfl fun m _ => ?_
    unfold reached
    dsimp only [NodeStore.setNode]
    rw [Heap.get?_set hn]
    split
    next hm =>
      rw [hm, hn]
      rfl
    · rfl

end

/-! ## Every run -/

section
variable {C : Crypto} {paranoia : Bool} {s : NodeStore}

theorem Reachable.counted (h : Reachable C paranoia s) : Counted s := by
  refine (h.induction (P := fun s => Routed s ∧ Counted s)
    (fun myAddress renumberMill linkCost nodeCapacity linkCapacity _ _ hleast => ?_)
    fun a b ha ⟨hrouted, hcounted⟩ hmove => ?_).2.2
  · exact ⟨started_routed renumberMill nodeCapacity linkCapacity hleast, rfl, rfl, rfl⟩
  · exact ⟨hmove.routed hrouted ha.wired, hmove.counted hcounted ha.wired hrouted⟩

/-- The counters are right, and a link is among those that begin at its parent if and only if it is among those that
end at its child. -/
theorem counters_right (hs : Reachable C paranoia s) :
    s.nodeCount = s.nodeTree.length ∧ s.linkedNodes = s.nodeTree.countP s.reached ∧
      s.linkCount = s.liveLinks + s.linksToFree.length ∧
      ∀ l link parent child, s.links.get? l = some link → s.nodes.get? link.parent = some parent →
        s.nodes.get? link.child = some child → (l ∈ parent.peerTree ↔ l ∈ child.reversePeers) := by
  have hcounted := hs.counted
  have hw := hs.sound.wired
  refine ⟨hcounted.nodes, hcounted.linked, hcounted.links, fun l link parent child hlink hparent hchild => ?_⟩
  constructor
  · intro hmem
    obtain ⟨other, hlive, _⟩ := hw.peer _ parent hparent l hmem
    cases hlink.symm.trans hlive.1
    obtain ⟨_, node, hnode, hin⟩ := hw.child l link hlive
    cases hchild.symm.trans hnode
    exact hin
  · intro hmem
    obtain ⟨other, hlive, _⟩ := hw.reverse _ child hchild l hmem
    cases hlink.symm.trans hlive.1
    obtain ⟨_, node, hnode, hin⟩ := hw.parent l link hlive
    cases hparent.symm.trans hnode
    exact hin

/-- A node that cannot be reached any more has another scheme now: it is dropped, and found again. -/
theorem counters_right_new_scheme : ∃ s, Reachable Symbolic.crypto false s ∧ s.nodeTree.length = 2 ∧ s.nodeCount = 2 ∧
    s.linkedNodes = 2 ∧ s.nodeTree.countP s.reached = 2 := by
  have hrun : (history false 128 4096 [.discoverNode (host 1 0x13) .v358 0, .disconnectedPeer 0x13,
      .discoverNode (host 1 0x13) fixed31 0]).Returns := ⟨_, rfl⟩
  obtain ⟨s, hrun⟩ := hrun
  have hreachable := Reachable.of_history (by decide) (by decide) hrun
  obtain ⟨hnodes, hlinked, _⟩ := counters_right hreachable
  cases hrun
  exact ⟨_, hreachable, rfl, hnodes, hlinked, rfl⟩

end

end NodeStore

end Hyperboria
