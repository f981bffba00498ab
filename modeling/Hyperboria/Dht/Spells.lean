/-
What a path says. Read from its low end, a path is a sequence of directors, each of them the code of a
link of the node where the one before has led (`Spells`). `extendRoute` puts one more code at the other end.
In a store that is wired right no two ways have the same path (`Spells.unique`).
-/
import Hyperboria.Dht.Walk

namespace Hyperboria

open EncodingScheme (Scheme)
open LabelSplicer (join join_one one_join join_assoc join_pos le_join)

namespace NodeStore

/-- The link is left for the next one by this director. -/
structure Passes (s : NodeStore) (l next : LinkId) (code : BitVec 64) : Prop where
  passes : ∃ link nextLink node, s.Live l link ∧ s.Live next nextLink ∧ nextLink.parent = link.child ∧
    s.nodes.get? link.child = some node ∧
    node.encodingScheme.Codes link.inverseLinkEncodingFormNumber nextLink.cannonicalLabel code
  other : some next ≠ s.selfLink

/-- The path leads from one link to another. -/
inductive Spells (s : NodeStore) : LinkId → Nat → LinkId → Prop
  | nil (l : LinkId) : Spells s l 1 l
  | cons {l next last : LinkId} {code : BitVec 64} {rest : Nat} (hpasses : Passes s l next code)
    (hrest : Spells s next rest last) : Spells s l (join rest code.toNat) last

section
variable {s : NodeStore} {l next last last' : LinkId} {code code' : BitVec 64} {path : Nat}

theorem Passes.oneHop (h : Passes s l next code) (hs : Wired s) :
    ∃ link node, s.Live l link ∧ s.nodes.get? link.child = some node ∧ node.encodingScheme.OneHop code := by
  obtain ⟨⟨link, nextLink, node, hlive, hnext, hparent, hnode, hcode⟩, hself⟩ := h
  exact ⟨link, node, hlive, hnode, hcode.oneHop (hs.label next nextLink node hnext hself (hparent ▸ hnode)).oneHop⟩

theorem Passes.two_le (h : Passes s l next code) (hs : Wired s) : 2 ≤ code.toNat := by
  obtain ⟨_, _, _, _, hhop⟩ := h.oneHop hs
  exact hhop.two_le

/-- The director tells the link. -/
theorem Passes.unique {next' : LinkId} (h : Passes s l next code) (h' : Passes s l next' code) (hs : Wired s) :
    next = next' := by
  obtain ⟨⟨link, nextLink, node, hlive, hnext, hparent, hnode, hcode⟩, hself⟩ := h
  obtain ⟨⟨link', nextLink', node', hlive', hnext', hparent', hnode', hcode'⟩, hself'⟩ := h'
  obtain rfl := hlive.unique hlive'
  cases hnode.symm.trans hnode'
  have hlabel := hs.label next nextLink node hnext hself (hparent ▸ hnode)
  have hlabel' := hs.label next' nextLink' node hnext' hself' (hparent' ▸ hnode)
  have hcanon : link.inverseLinkEncodingFormNumber ≤ 0 ∨ node.encodingScheme.Canonical nextLink.cannonicalLabel ∧
      node.encodingScheme.Canonical nextLink'.cannonicalLabel := by
    by_cases hown : link.child = s.selfNode
    · exact .inl (hs.ofSelf (hs.toSelf l link hlive hown) hlive).2.2.2.le
    · exact .inr ⟨hlabel.canonical (hparent ▸ hown), hlabel'.canonical (hparent' ▸ hown)⟩
  have heq := Scheme.codes_inj hlabel.oneHop hlabel'.oneHop hcanon hcode hcode'
  obtain ⟨_, owner, howner, hmem⟩ := hs.parent next nextLink hnext
  obtain ⟨_, owner', howner', hmem'⟩ := hs.parent next' nextLink' hnext'
  rw [hparent, hnode] at howner
  rw [hparent', hnode] at howner'
  cases howner
  cases howner'
  refine (hs.ordered _ node hnode).label_inj hmem hmem' ?_
  rw [label_eq hnext.1, label_eq hnext'.1, heq]

theorem Spells.pos (h : Spells s l path last) : 0 < path := by
  induction h with
  | nil => exact Nat.one_pos
  | cons _ _ ih => exact join_pos ih

theorem Spells.snoc (h : Spells s l path last) (hpasses : Passes s last next code) (hpos : 0 < code.toNat) :
    Spells s l (join code.toNat path) next := by
  induction h with
  | nil l =>
    rw [join_one, ← one_join hpos]
    exact .cons hpasses (.nil next)
  | cons hfirst hrest ih =>
    rw [join_assoc hrest.pos]
    exact .cons hfirst (ih hpasses)

theorem Passes.two_le_join (h : Passes s l next code) (hs : Wired s) {rest} (hrest : 0 < rest) :
    2 ≤ join rest code.toNat := by
  have htwo := h.two_le hs
  exact htwo.trans (le_join hrest (by omega))

/-- A path leads to one place only. -/
theorem Spells.unique (h : Spells s l path last) (h' : Spells s l path last') (hs : Wired s) : last = last' := by
  induction h with
  | nil l =>
    generalize hpath : 1 = path at h'
    cases h' with
    | nil => rfl
    | cons hpasses hrest =>
      have htwo := hpasses.two_le_join hs hrest.pos
      omega
  | @cons l next last code rest hpasses hrest ih =>
    generalize hpath : join rest code.toNat = path at h'
    cases h' with
    | nil =>
      have htwo := hpasses.two_le_join hs hrest.pos
      omega
    | cons hpasses' hrest' =>
      obtain ⟨link, node, hlive, hnode, hhop⟩ := hpasses.oneHop hs
      obtain ⟨link', node', hlive', hnode', hhop'⟩ := hpasses'.oneHop hs
      obtain rfl := hlive.unique hlive'
      cases hnode.symm.trans hnode'
      obtain ⟨rfl, rfl⟩ := hhop.join_inj hhop' hpath
      obtain rfl := hpasses.unique hpasses' hs
      exact ih hrest'

end

theorem Spells.mono {s s'} {l last} {path} (h : Spells s l path last)
    (hself : s'.selfLink = s.selfLink)
    (hlink : ∀ l link, s.Live l link → ∃ link', s'.Live l link' ∧ link'.frame = link.frame)
    (hnode : ∀ n node, s.nodes.get? n = some node →
      ∃ node', s'.nodes.get? n = some node' ∧ node'.encodingScheme = node.encodingScheme) : Spells s' l path last := by
  induction h with
  | nil l => exact .nil l
  | cons hpasses _ ih =>
    obtain ⟨⟨link, nextLink, node, hlive, hnext, hparent, hget, hcode⟩, hother⟩ := hpasses
    obtain ⟨link', hlive', hframe⟩ := hlink _ link hlive
    obtain ⟨nextLink', hnext', hframe'⟩ := hlink _ nextLink hnext
    obtain ⟨node', hget', hscheme⟩ := hnode _ node hget
    have hchild := Link.child_of_frame hframe
    refine .cons ⟨⟨link', nextLink', node', hlive', hnext', ?_, hchild ▸ hget', ?_⟩, hself ▸ hother⟩ ih
    · rw [Link.parent_of_frame hframe', hparent, hchild]
    · rw [hscheme, Link.inverse_of_frame hframe, Link.label_of_frame hframe']
      exact hcode

theorem SameWiring.spells {s s'} (h : SameWiring s s') {l last} {path}
    (hspells : Spells s l path last) : Spells s' l path last := by
  refine hspells.mono h.selfLink (fun l link hlive => h.live_after hlive) fun n node hn => ?_
  obtain ⟨node', hn', hframe⟩ := h.node_after hn
  exact ⟨node', hn', Node.scheme_of_frame hframe⟩

/-! ## Extending a route -/

theorem extendRoute_cases {routeToParent} {scheme} {label path} {prev}
    (h : extendRoute routeToParent scheme label prev = .ret path) (hvalid : path ≠ extendRoute_INVALID)
    (hshort : path ≠ UINT64_MAX) (hroute : routeToParent ≠ 0) :
    ∃ code, scheme.Codes prev label code ∧ path.toNat = join code.toNat routeToParent.toNat ∧ path.toNat < 2 ^ 60 := by
  have hjoin : ∀ {go}, LabelSplicer.splice go routeToParent = path →
      path.toNat = join go.toNat routeToParent.toNat ∧ path.toNat < 2 ^ 60 := by
    intro go hgo
    have hlen : Bits.log2x64 go + Bits.log2x64 routeToParent ≤ 59 := by
      by_contra hlong
      unfold LabelSplicer.splice at hgo
      rw [if_pos (Nat.not_le.mp hlong)] at hgo
      exact hshort hgo.symm
    rw [← hgo]
    exact ⟨LabelSplicer.splice_eq_join hroute hlen, LabelSplicer.splice_lt hroute hlen⟩
  obtain ⟨_, _, h⟩ := Er.bind_inv h
  rw [Scheme.getFormNum_eq, Er.ret_bind] at h
  split at h
  · exact absurd (Er.ret.inj h).symm hvalid
  next i hform =>
    split at h
    next hprev =>
      rw [Scheme.convertLabel_eq, Er.ret_bind] at h
      obtain ⟨_, hassert, h⟩ := Er.bind_inv h
      refine ⟨_, ⟨i, hform, ?_⟩, hjoin (Er.ret.inj h)⟩
      rw [if_pos hprev]
      exact ⟨rfl, of_decide_eq_true (Er.assertTrue_eq_ret.mp hassert)⟩
    next hprev =>
      refine ⟨label, ⟨i, hform, ?_⟩, hjoin (Er.ret.inj h)⟩
      rw [if_neg hprev]

end NodeStore

end Hyperboria
