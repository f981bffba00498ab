/-
Which node is dropped when the store is too full (`getWorstNode`). The search puts marks on
nodes and takes them off again, and changes nothing else (`Remarked`); so the loop of
`discoverNode` that drops nodes is a sequence of moves (`evict_moves`).
-/
import Hyperboria.Dht.Discovery

namespace Hyperboria

open Er List Option

namespace NodeStore

/-! ## Marks -/

/-- The node without its mark. -/
def unmark (node : Node) : Node := { node with marked := false }

/-- The stores differ in marks only. -/
structure Remarked (s s' : NodeStore) : Prop where
  node : ∀ n, (s'.nodes.get? n).map unmark = (s.nodes.get? n).map unmark
  next : s'.nodes.next = s.nodes.next
  rest : s' = { s with nodes := s'.nodes }

section
variable {s s' s'' : NodeStore} {n : NodeId} {node : Node}

theorem Remarked.refl (s : NodeStore) : Remarked s s := ⟨fun _ => rfl, rfl, rfl⟩

theorem Remarked.trans (h : Remarked s s') (h' : Remarked s' s'') : Remarked s s'' := by
  refine ⟨fun n => (h'.node n).trans (h.node n), h'.next.trans h.next, ?_⟩
  rw [h'.rest, h.rest]

theorem Remarked.setNode (hn : s.nodes.get? n = some node) (marked : Bool) :
    Remarked s (s.setNode n { node with marked }) := by
  refine ⟨fun m => ?_, Heap.next_set, rfl⟩
  show ((s.nodes.set n _).get? m).map unmark = _
  rw [Heap.get?_set hn]
  split
  next hm =>
    rw [hm, hn]
    rfl
  · rfl

theorem Remarked.node_before (h : Remarked s s') (hn : s'.nodes.get? n = some node) :
    ∃ old, s.nodes.get? n = some old ∧ node = { old with marked := node.marked } := by
  have hmap := h.node n
  rw [hn] at hmap
  obtain ⟨old, hold, heq⟩ := map_eq_some_iff.mp hmap.symm
  refine ⟨old, hold, ?_⟩
  have hfields : { unmark old with marked := node.marked } = { unmark node with marked := node.marked } := by rw [heq]
  exact hfields.symm

theorem Remarked.node_after (h : Remarked s s') (hn : s.nodes.get? n = some node) :
    ∃ marked, s'.nodes.get? n = some { node with marked } := by
  have hmap := h.node n
  rw [hn] at hmap
  obtain ⟨new, hnew, heq⟩ := map_eq_some_iff.mp hmap
  refine ⟨new.marked, hnew.trans (congrArg some ?_)⟩
  have hfields : { unmark new with marked := new.marked } = { unmark node with marked := new.marked } := by rw [heq]
  exact hfields

theorem Remarked.links (h : Remarked s s') : s'.links = s.links := by rw [h.rest]

theorem Remarked.nodeTree (h : Remarked s s') : s'.nodeTree = s.nodeTree := by rw [h.rest]

/-- The mark of a node. -/
def markOf (s : NodeStore) (n : NodeId) : Bool := (s.nodes.get? n).elim false (·.marked)

theorem Remarked.get?_eq (h : Remarked s s') (n : NodeId) :
    s'.nodes.get? n = (s.nodes.get? n).map fun node => { node with marked := s'.markOf n } := by
  unfold markOf
  cases hnew : s'.nodes.get? n with
  | none =>
    have hmap := h.node n
    rw [hnew] at hmap
    rw [map_eq_none_iff.mp hmap.symm]
    rfl
  | some node =>
    obtain ⟨old, hold, heq⟩ := h.node_before hnew
    rw [hold]
    exact congrArg some heq

theorem Remarked.move (h : Remarked s s')
    (hclear : ∀ n ∈ s.nodeTree, ∀ node, s'.nodes.get? n = some node → node.marked = false) : Move s s' := by
  have hmark : ∀ m ∈ s.nodeTree, s'.markOf m = false := by
    intro m hm
    unfold markOf
    cases hnew : s'.nodes.get? m with
    | none => rfl
    | some node => exact hclear m hm node hnew
  rw [h.rest]
  exact .marks h.get?_eq h.next hmark

variable {ns : List NodeId}

/-- The marks after one node was marked, and then the others in the list. -/
theorem marks_cons {marked : Bool} {node : Node} (hnode : s.nodes.get? n = some node)
    (hmarked : ∀ m ∈ ns, ∀ other, s'.nodes.get? m = some other → other.marked = marked)
    (hother : ∀ m, m ∉ ns → s'.nodes.get? m = (s.setNode n { node with marked }).nodes.get? m) :
    (∀ m ∈ n :: ns, ∀ other, s'.nodes.get? m = some other → other.marked = marked) ∧
      ∀ m, m ∉ n :: ns → s'.nodes.get? m = s.nodes.get? m := by
  have hset : ∀ m, (s.setNode n { node with marked }).nodes.get? m =
      if m = n then some { node with marked } else s.nodes.get? m := fun m => Heap.get?_set hnode
  refine ⟨fun m hm other hget => ?_, fun m hm => ?_⟩
  · by_cases hin : m ∈ ns
    · exact hmarked m hin other hget
    · rw [hother m hin, hset, if_pos ((mem_cons.mp hm).resolve_right hin)] at hget
      rw [← some.inj hget]
  · obtain ⟨hne, hnot⟩ := not_or.mp (mt mem_cons.mpr hm)
    rw [hother m hnot, hset, if_neg hne]

theorem markAll_remarked {marked : Bool} (h : markAll s marked ns = .ret s') :
    Remarked s s' ∧ (∀ n ∈ ns, ∀ node, s'.nodes.get? n = some node → node.marked = marked) ∧
      ∀ n, n ∉ ns → s'.nodes.get? n = s.nodes.get? n := by
  induction ns generalizing s with
  | nil =>
    obtain rfl := ret.inj h
    exact ⟨.refl s, fun n hn => (nomatch hn), fun n _ => rfl⟩
  | cons n ns ih =>
    obtain ⟨node, hnode, h⟩ := bind_inv h
    have hnode := node_eq_ret.mp hnode
    obtain ⟨hremarked, hmarked, hother⟩ := ih h
    exact ⟨(Remarked.setNode hnode marked).trans hremarked, marks_cons hnode hmarked hother⟩

theorem markBuckets_remarked {buckets} (h : markBuckets s buckets = .ret s') : Remarked s s' := by
  induction buckets generalizing s with
  | nil =>
    obtain rfl := ret.inj h
    exact .refl s
  | cons bucket buckets ih =>
    obtain ⟨s₁, hmark, h⟩ := bind_inv h
    obtain ⟨nodes, _, hmark⟩ := bind_inv hmark
    exact (markAll_remarked hmark).1.trans (ih h)

/-! ## The worst node -/

variable {worst worst' : Option NodeId}

theorem worseThan_mem (h : worseThan s n worst = .ret worst') :
    worst' = some n ∨ worst' = worst := by
  unfold worseThan at h
  split at h
  · exact .inl (ret.inj h).symm
  · obtain ⟨worse, _, h⟩ := bind_inv h
    rw [← ret.inj h]
    split
    · exact .inl rfl
    · exact .inr rfl

theorem mem_of_worseThan {worst worse worst'} (hworse : worseThan s n worst = .ret worse)
    (hmem : ∀ w, worst' = some w → w ∈ ns ∨ worse = some w) : ∀ w, worst' = some w → w ∈ n :: ns ∨ worst = some w := by
  intro w hw
  rcases hmem w hw with hin | hin
  · exact .inl (mem_cons_of_mem _ hin)
  · rcases worseThan_mem hworse with heq | heq
    · rw [heq] at hin
      exact .inl (some.inj hin ▸ mem_cons_self)
    · exact .inr (heq ▸ hin)

theorem worstUnreachable_remarked (h : worstUnreachable s worst ns = .ret (s', worst')) :
    Remarked s s' ∧ ∀ w, worst' = some w → w ∈ ns ∨ worst = some w := by
  induction ns generalizing s worst with
  | nil =>
    obtain ⟨rfl, rfl⟩ := Prod.mk.inj (ret.inj h)
    exact ⟨.refl s, fun w hw => .inr hw⟩
  | cons n ns ih =>
    obtain ⟨nn, _, h⟩ := bind_inv h
    split at h
    · obtain ⟨parentLink, _, parent, hparent, h⟩ := bind_inv2 h
      obtain ⟨hremarked, hmem⟩ := ih h
      exact ⟨(Remarked.setNode (node_eq_ret.mp hparent) true).trans hremarked,
        fun w hw => (hmem w hw).imp_left (mem_cons_of_mem _)⟩
    · obtain ⟨worse, hworse, h⟩ := bind_inv h
      obtain ⟨hremarked, hmem⟩ := ih h
      exact ⟨hremarked, mem_of_worseThan hworse hmem⟩

theorem worstUnmarked_remarked (h : worstUnmarked s worst ns = .ret (s', worst')) :
    Remarked s s' ∧ (∀ n ∈ ns, ∀ node, s'.nodes.get? n = some node → node.marked = false) ∧
      (∀ n, n ∉ ns → s'.nodes.get? n = s.nodes.get? n) ∧ ∀ w, worst' = some w → w ∈ ns ∨ worst = some w := by
  induction ns generalizing s worst with
  | nil =>
    obtain ⟨rfl, rfl⟩ := Prod.mk.inj (ret.inj h)
    exact ⟨.refl s, fun n hn => (nomatch hn), fun n _ => rfl, fun w hw => .inr hw⟩
  | cons n ns ih =>
    obtain ⟨nn, hnn, h⟩ := bind_inv h
    have hnn := node_eq_ret.mp hnn
    split at h
    · obtain ⟨hremarked, hclear, hother, hmem⟩ := ih h
      obtain ⟨hclear, hother⟩ := marks_cons hnn hclear hother
      exact ⟨(Remarked.setNode hnn false).trans hremarked, hclear, hother,
        fun w hw => (hmem w hw).imp_left (mem_cons_of_mem _)⟩
    next hmarked =>
      obtain ⟨worse, hworse, h⟩ := bind_inv h
      obtain ⟨hremarked, hclear, hother, hmem⟩ := ih h
      refine ⟨hremarked, fun m hm node hget => ?_, fun m hm => hother m fun hin => hm (mem_cons_of_mem _ hin),
        mem_of_worseThan hworse hmem⟩
      by_cases hin : m ∈ ns
      · exact hclear m hin node hget
      · rw [hother m hin, (mem_cons.mp hm).resolve_right hin, hnn] at hget
        rw [← some.inj hget]
        exact Bool.not_eq_true _ ▸ hmarked

theorem worstOfAll_mem (h : worstOfAll s worst ns = .ret worst') : ∀ w, worst' = some w → w ∈ ns ∨ worst = some w := by
  induction ns generalizing worst with
  | nil =>
    cases h
    exact fun w hw => .inr hw
  | cons n ns ih =>
    obtain ⟨worse, hworse, h⟩ := bind_inv h
    exact mem_of_worseThan hworse (ih h)

theorem getWorstNode_remarked {worst : NodeId} (h : getWorstNode s = .ret (s', worst)) :
    Remarked s s' ∧ (∀ n ∈ s.nodeTree, ∀ node, s'.nodes.get? n = some node → node.marked = false) ∧
      worst ∈ s.nodeTree := by
  obtain ⟨⟨s₁, worst₁⟩, hworst₁, h⟩ := bind_inv h
  obtain ⟨hfirst, hmem⟩ := worstUnreachable_remarked hworst₁
  dsimp only at h
  split at h
  next w =>
    obtain ⟨s₂, hmark, h⟩ := bind_inv h
    obtain ⟨rfl, rfl⟩ := Prod.mk.inj (ret.inj h)
    obtain ⟨hremarked, hclear, _⟩ := markAll_remarked hmark
    rw [hfirst.nodeTree] at hclear
    exact ⟨hfirst.trans hremarked, hclear, (hmem w rfl).resolve_right (some_ne_none w).symm⟩
  · obtain ⟨s₂, hmark, h⟩ := bind_inv h
    have hsecond := hfirst.trans (markBuckets_remarked hmark)
    obtain ⟨⟨s₃, worst₃⟩, hworst₃, h⟩ := bind_inv h
    obtain ⟨hthird, hclear, _, hmem⟩ := worstUnmarked_remarked hworst₃
    rw [hsecond.nodeTree] at hclear hmem
    dsimp only at h
    split at h
    next w =>
      obtain ⟨rfl, rfl⟩ := Prod.mk.inj (ret.inj h)
      exact ⟨hsecond.trans hthird, hclear, (hmem w rfl).resolve_right (some_ne_none w).symm⟩
    · obtain ⟨worst₄, hlast, h⟩ := bind_inv h
      split at h
      next w =>
        obtain ⟨rfl, rfl⟩ := Prod.mk.inj (ret.inj h)
        have hin := (worstOfAll_mem hlast w rfl).resolve_right (some_ne_none w).symm
        rw [(hsecond.trans hthird).nodeTree] at hin
        exact ⟨hsecond.trans hthird, hclear, hin⟩
      · cases h

/-! ## Dropping nodes -/

/-- The store is too full. -/
def Crowded (s : NodeStore) : Prop := s.nodeCount - s.peerCount > s.nodeCapacity ∨ s.linkCount > s.linkCapacity

instance (s : NodeStore) : Decidable s.Crowded := inferInstanceAs (Decidable (_ ∨ _))

theorem evict_cases {paranoia : Bool} {fuel : Nat} {link out : Option LinkId}
    (h : evict paranoia (fuel + 1) s link = .ret (s', out)) :
    (¬ s.Crowded ∧ s' = s ∧ out = link) ∨
      s.Crowded ∧ ∃ s₁ worst s₂ link₂, getWorstNode s = .ret (s₁, worst) ∧ isPeer s₁ worst = .ret false ∧
        (link₂ = none ∨ link₂ = link) ∧ destroyNode paranoia s₁ worst = .ret s₂ ∧
        evict paranoia fuel (freePendingLinks s₂) link₂ = .ret (s', out) := by
  unfold evict at h
  split at h
  next hcrowded =>
    obtain ⟨⟨s₁, worst⟩, hworst, h⟩ := bind_inv h
    obtain ⟨peer, hpeer, _, hnot, h⟩ := bind_inv2 h
    have hnot := assertTrue_eq_ret.mp hnot
    have hpeer : isPeer s₁ worst = .ret false := by
      cases peer with
      | false => exact hpeer
      | true => cases hnot
    split at h
    · obtain ⟨link₂, hlink₂, s₂, hdestroy, h⟩ := bind_inv2 h
      exact .inr ⟨hcrowded, s₁, worst, s₂, link₂, hworst, hpeer, .inl (ret.inj hlink₂).symm, hdestroy, h⟩
    · obtain ⟨ends, _, link₂, hlink₂, h⟩ := bind_inv2 h
      obtain ⟨s₂, hdestroy, h⟩ := bind_inv h
      refine .inr ⟨hcrowded, s₁, worst, s₂, link₂, hworst, hpeer, ?_, hdestroy, h⟩
      rw [← ret.inj hlink₂]
      split
      · exact .inl rfl
      · exact .inr rfl
  next hroomy =>
    cases h
    exact .inl ⟨hroomy, rfl, rfl⟩

theorem evict_moves {paranoia : Bool} {fuel : Nat} {link out : Option LinkId}
    (h : evict paranoia fuel s link = .ret (s', out)) (hs : Sound s) :
    Moves s s' ∧ ¬ s'.Crowded ∧ (out = none ∨ out = link) := by
  induction fuel generalizing s link with
  | zero => cases h
  | succ fuel ih =>
    rcases evict_cases h with ⟨hroomy, rfl, rfl⟩ | ⟨_, s₁, worst, s₂, link₂, hworst, _, hlink₂, hdestroy, h⟩
    · exact ⟨.refl, hroomy, .inr rfl⟩
    · obtain ⟨hremarked, hclear, hin⟩ := getWorstNode_remarked hworst
      have hmove : Move s s₁ := hremarked.move hclear
      have hs₁ := hmove.sound hs
      have hdestroyed := destroyNode_destroyed hdestroy hs₁ (hremarked.nodeTree ▸ hin)
      have hmoves : Moves s (freePendingLinks s₂) :=
        (Relation.ReflTransGen.head hmove hdestroyed.moves).tail .freePending
      obtain ⟨hrest, hroomy, hout⟩ := ih h (hmoves.sound hs)
      refine ⟨hmoves.trans hrest, hroomy, ?_⟩
      rcases hout with hout | hout
      · exact .inl hout
      · rw [hout]
        exact hlink₂

end

end NodeStore

end Hyperboria
