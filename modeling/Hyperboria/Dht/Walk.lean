/-
The walk along a path (`firstHopInPath`, `findClosest`). In a store that is wired right a hop follows
a link of the node the walk has come to, and what is left of the path is a director of that link's
child in its canonical form (`Hop`).

A path goes through no two links of one node. So the label of a new link goes through that of no
other link, and `fixLink` has nothing to split (`fixAll_eq`).
-/
import Hyperboria.Dht.Turns

namespace Hyperboria

open Er List

open EncodingScheme (Scheme)
open LabelSplicer (routesThrough unsplice)

theorem LabelSplicer.routesThrough_self (x : BitVec 64) : routesThrough x x = true := by
  unfold routesThrough
  rw [if_neg (BitVec.lt_irrefl x)]
  split
  · rfl
  · exact decide_eq_true rfl

namespace NodeStore

/-! ## The next link -/

section
variable {s : NodeStore} {l : LinkId} {path : BitVec 64} {peers : List LinkId}

theorem comparePeers_pos {a b} (h : comparePeers a b < 0) : comparePeers b a > 0 := by
  rcases lt_trichotomy (comparePeers b a) 0 with hlt | heq | hgt
  · exact absurd (comparePeers_trans h hlt) comparePeers_irrefl
  · rw [comparePeers_eq_zero_iff] at heq
    rw [heq] at h
    exact absurd h comparePeers_irrefl
  · exact hgt

theorem nextOnPath_spec (h : nextOnPath s path peers = some l) : l ∈ peers ∧ routesThrough path (s.label l) = true := by
  have hroutes := find?_some h
  exact ⟨(dropWhile_sublist _).mem (mem_of_find?_eq_some h), hroutes⟩

theorem nextOnPath_of_mem (hpeers : s.Ordered peers) (hl : l ∈ peers) (hlabel : s.label l = path) :
    nextOnPath s path peers = some l := by
  obtain ⟨before, after, rfl⟩ := append_of_mem hl
  have hdrop : ∀ x ∈ before, decide (comparePeers path (s.label x) > 0) = true := by
    intro x hx
    have hlt := (pairwise_append.mp hpeers).2.2 x hx l mem_cons_self
    rw [hlabel] at hlt
    exact decide_eq_true (comparePeers_pos hlt)
  have hkeep : ¬ comparePeers path (s.label l) > 0 := by
    rw [hlabel, comparePeers_eq_zero_iff.mpr rfl]
    exact lt_irrefl 0
  unfold nextOnPath
  rw [dropWhile_append_of_pos hdrop, dropWhile_cons_of_neg (by simpa using hkeep),
    find?_cons_of_pos (by rw [hlabel]; exact LabelSplicer.routesThrough_self path)]

end

/-! ## A hop -/

variable {s : NodeStore} {link : Link}

theorem removeLinkFromLabel_cases {label r} (h : removeLinkFromLabel s link label = .ret r) :
    r = removeLinkFromLabel_IMPOSSIBLE ∨ r = removeLinkFromLabel_OVERSIZE ∨ ∃ child,
      s.nodes.get? link.child = some child ∧ r ≠ EncodingScheme.INVALID ∧
        child.encodingScheme.convert (unsplice label link.cannonicalLabel) EncodingScheme.CANNONICAL = r := by
  unfold removeLinkFromLabel at h
  dsimp only at h
  obtain ⟨child, hchild, formNum, hform, h⟩ := bind_inv2 h
  split at h
  · exact .inl (ret.inj h).symm
  · obtain ⟨cannonical, hcann, h⟩ := bind_inv h
    rw [EncodingScheme.Scheme.convertLabel_eq] at hcann
    split at h
    · exact .inr (.inl (ret.inj h).symm)
    · obtain ⟨_, hvalid, h⟩ := bind_inv h
      cases h
      exact .inr (.inr ⟨child, node_eq_ret.mp hchild, of_decide_eq_true (assertTrue_eq_ret.mp hvalid),
        ret.inj hcann⟩)

variable {path : BitVec 64} {l : LinkId}

theorem firstHopInPath_cases {path'} {out : Option LinkId}
    (h : firstHopInPath s path l = .ret (path', out)) :
    ∃ link node, s.Live l link ∧ s.nodes.get? link.child = some node ∧
      (path' = firstHopInPath_NO_NEXT_LINK ∧ out = none ∧
        (∀ next, nextOnPath s path node.peerTree = some next → some next = s.selfLink ∨ next = l) ∨
      ∃ next nextLink, out = some next ∧ nextOnPath s path node.peerTree = some next ∧ some next ≠ s.selfLink ∧
        next ≠ l ∧ s.Live next nextLink ∧
        (path = nextLink.cannonicalLabel ∧ path' = 1 ∨ path ≠ nextLink.cannonicalLabel ∧
          ∃ rest, removeLinkFromLabel s nextLink path = .ret rest ∧
            (rest >>> 63 ≠ 0 ∧ path' = firstHopInPath_INVALID ∨ rest >>> 63 = 0 ∧ path' = rest))) := by
  obtain ⟨link, hlink, node, hnode, h⟩ := bind_inv2 h
  refine ⟨link, node, link_eq_ret.mp hlink, node_eq_ret.mp hnode, ?_⟩
  split at h
  next hnext =>
    cases h
    exact .inl ⟨rfl, rfl, fun next hsome => by rw [hnext] at hsome; cases hsome⟩
  next next hnext =>
    split at h
    next hself =>
      cases h
      refine .inl ⟨rfl, rfl, fun next' hsome => .inl ?_⟩
      rw [← Option.some.inj (hnext.symm.trans hsome)]
      exact hself
    next hself =>
      split at h
      next hloop =>
        cases h
        refine .inl ⟨rfl, rfl, fun next' hsome => .inr ?_⟩
        rw [← Option.some.inj (hnext.symm.trans hsome)]
        exact hloop
      next hloop =>
        obtain ⟨nextLink, hnextLink, h⟩ := bind_inv h
        have hlive := link_eq_ret.mp hnextLink
        split at h
        next heq =>
          cases h
          exact .inr ⟨next, nextLink, rfl, hnext, hself, hloop, hlive, .inl ⟨heq, rfl⟩⟩
        next hne =>
          have hroutes := (nextOnPath_spec hnext).2
          rw [label_eq hlive.1] at hroutes
          rw [hroutes] at h
          obtain ⟨rest, hrest, h⟩ := bind_inv h
          split at h
          next htop =>
            cases h
            exact .inr ⟨next, nextLink, rfl, hnext, hself, hloop, hlive, .inr ⟨hne, rest, hrest, .inl ⟨htop, rfl⟩⟩⟩
          next htop =>
            cases h
            exact .inr ⟨next, nextLink, rfl, hnext, hself, hloop, hlive,
              .inr ⟨hne, _, hrest, .inr ⟨of_not_not htop, rfl⟩⟩⟩

/-- From one link, with a path that is left, to the next. -/
def Hop (s : NodeStore) (a b : LinkId × BitVec 64) : Prop :=
  firstHopInPath s a.2 a.1 = .ret (b.2, some b.1) ∧ b.2 ≠ firstHopInPath_INVALID

variable {a b : LinkId × BitVec 64}

theorem Hop.cases (h : Hop s a b) :
    ∃ link node nextLink, s.Live a.1 link ∧ s.nodes.get? link.child = some node ∧
      nextOnPath s a.2 node.peerTree = some b.1 ∧ some b.1 ≠ s.selfLink ∧ s.Live b.1 nextLink ∧
      (a.2 = nextLink.cannonicalLabel ∧ b.2 = 1 ∨ a.2 ≠ nextLink.cannonicalLabel ∧
        removeLinkFromLabel s nextLink a.2 = .ret b.2 ∧ ∃ child, s.nodes.get? nextLink.child = some child ∧
          b.2 ≠ EncodingScheme.INVALID ∧
          child.encodingScheme.convert (unsplice a.2 nextLink.cannonicalLabel) EncodingScheme.CANNONICAL = b.2) := by
  obtain ⟨hfirst, hvalid⟩ := h
  obtain ⟨link, node, hlink, hnode, ⟨_, hnone, _⟩ | ⟨next, nextLink, hout, hnext, hself, _, hlive, hcases⟩⟩ :=
    firstHopInPath_cases hfirst
  · cases hnone
  · cases hout
    refine ⟨link, node, nextLink, hlink, hnode, hnext, hself, hlive, ?_⟩
    rcases hcases with hend | ⟨hne, rest, hrest, ⟨_, hinvalid⟩ | ⟨htop, rfl⟩⟩
    · exact .inl hend
    · exact absurd hinvalid hvalid
    · refine .inr ⟨hne, hrest, ?_⟩
      rcases removeLinkFromLabel_cases hrest with himpossible | hoversize | hchild
      · rw [himpossible] at htop
        exact absurd htop (by decide)
      · rw [hoversize] at htop
        exact absurd htop (by decide)
      · exact hchild

/-- Where the walk ends, and why. -/
theorem closestFrom_cases {fuel} {r} {out}
    (h : closestFrom s fuel path l = .ret (r, out)) :
    ∃ b, Relation.ReflTransGen (Hop s) (l, path) b ∧
      ((∃ o, firstHopInPath s b.2 b.1 = .ret (firstHopInPath_NO_NEXT_LINK, o)) ∧ r = b.2 ∧ out = some b.1 ∨
        (∃ o, firstHopInPath s b.2 b.1 = .ret (firstHopInPath_INVALID, o)) ∧ r = findClosest_INVALID ∧ out = none) := by
  induction fuel generalizing path l with
  | zero => cases h
  | succ fuel ih =>
    obtain ⟨⟨nextPath, nextLink⟩, hfirst, h⟩ := bind_inv h
    dsimp only at h
    split at h
    next hlast =>
      obtain ⟨rfl, rfl⟩ := Prod.mk.inj (ret.inj h)
      exact ⟨(l, path), .refl, .inl ⟨⟨nextLink, hlast ▸ hfirst⟩, rfl, rfl⟩⟩
    split at h
    next hinvalid =>
      cases h
      exact ⟨(l, path), .refl, .inr ⟨⟨nextLink, hinvalid ▸ hfirst⟩, rfl, rfl⟩⟩
    next hvalid =>
      split at h
      · cases h
      next next =>
        obtain ⟨b, hwalk, hend⟩ := ih h
        exact ⟨b, .head ⟨hfirst, Ne.symm hvalid⟩ hwalk, hend⟩

/-- What is left of a path after a hop is nothing, or in its canonical form. -/
def Remainder (s : NodeStore) (b : LinkId × BitVec 64) : Prop :=
  some b.1 ≠ s.selfLink ∧ ∃ link, s.Live b.1 link ∧ (b.2 = 1 ∨ ∃ child x, s.nodes.get? link.child = some child ∧
    b.2 ≠ EncodingScheme.INVALID ∧ child.encodingScheme.convert x EncodingScheme.CANNONICAL = b.2)

theorem Hop.remainder (h : Hop s a b) : Remainder s b := by
  obtain ⟨_, _, nextLink, _, _, _, hself, hlive, ⟨_, hone⟩ | ⟨_, _, child, hchild, hvalid, hconvert⟩⟩ := h.cases
  · exact ⟨hself, nextLink, hlive, .inl hone⟩
  · exact ⟨hself, nextLink, hlive, .inr ⟨child, _, hchild, hvalid, hconvert⟩⟩

theorem remainder_of_walk (h : Relation.ReflTransGen (Hop s) a b) :
    b = a ∨ Remainder s b := by
  rcases Relation.ReflTransGen.cases_tail h with heq | ⟨_, _, hop⟩
  · exact .inl heq
  · exact .inr hop.remainder

/-! ## One hop -/

theorem isOneHopLink_of_oneHop {parent} (hparent : s.nodes.get? link.parent = some parent)
    (hhop : parent.encodingScheme.OneHop link.cannonicalLabel) :
    isOneHopLink s link = .ret true := by
  obtain ⟨form, hform, hreads, hlog⟩ := hhop
  have hfind : ((parent.encodingScheme.formNum link.cannonicalLabel.toNat).bind fun i => parent.encodingScheme.forms[i]?) =
      some form := (Scheme.find_eq_findIdx _ _).trans (Scheme.find_reads hform hreads)
  unfold isOneHopLink
  rw [node_eq_ret.mpr hparent, ret_bind, Scheme.getFormNum_eq, ret_bind, hfind]
  exact congrArg Er.ret (decide_eq_true hlog.symm)

theorem isOneHopLink_selfLink (hs : Wired s) (hself : s.selfLink = some l) (hlive : s.Live l link) :
    isOneHopLink s link = .ret false := by
  obtain ⟨hparent, _, hlabel, _⟩ := hs.ofSelf hself.symm hlive
  obtain ⟨_, node, hnode, _⟩ := hs.parent l link hlive
  have hscheme := hs.selfScheme node (hparent ▸ hnode)
  unfold isOneHopLink
  rw [node_eq_ret.mpr hnode, ret_bind, hscheme, hlabel]
  rfl

theorem isOneHopLink_eq (hs : Wired s) (hlive : s.Live l link) :
    isOneHopLink s link = .ret (decide (some l ≠ s.selfLink)) := by
  by_cases hself : some l = s.selfLink
  · rw [isOneHopLink_selfLink hs hself.symm hlive, decide_eq_false (not_not_intro hself)]
  · obtain ⟨_, node, hnode, _⟩ := hs.parent l link hlive
    rw [isOneHopLink_of_oneHop hnode (hs.label l link node hlive hself hnode).oneHop, decide_eq_true hself]

/-! ## The end of a walk -/

/-- Where a walk from us ends with one director left that is not the self route, that director is the label of no
link there, unless it is that of the link the walk came by. -/
theorem label_of_end {node} {o} (hs : Wired s)
    (hend : firstHopInPath s b.2 b.1 = .ret (firstHopInPath_NO_NEXT_LINK, o)) (hlink : s.Live b.1 link)
    (hnode : s.nodes.get? link.child = some node) (hhop : 2 ≤ b.2.toNat) {x} (hx : x ∈ node.peerTree)
    (hlabel : s.label x = b.2) : x = b.1 := by
  have hnext := nextOnPath_of_mem (hs.ordered _ node hnode) hx hlabel
  obtain ⟨link', node', hlink', hnode', hcases⟩ := firstHopInPath_cases hend
  obtain rfl := hlink.unique hlink'
  cases hnode.symm.trans hnode'
  rcases hcases with ⟨_, _, hstop⟩ | ⟨next, nextLink, _, _, _, _, _, hcases⟩
  · rcases hstop x hnext with hself | hloop
    · -- the label of the self link is not one director long
      obtain ⟨k, selfLink, hk, hlive, _, _, hone, _⟩ := hs.selfLink
      rw [hk] at hself
      rw [Option.some.inj hself, label_eq hlive.1, hone] at hlabel
      rw [← hlabel] at hhop
      exact absurd hhop (by decide)
    · exact hloop
  · rcases hcases with ⟨_, hone⟩ | ⟨_, rest, _, ⟨_, hinvalid⟩ | ⟨htop, hrest⟩⟩
    · cases hone
    · cases hinvalid
    · rw [← hrest] at htop
      exact absurd htop (by decide)

/-- The director at the end of the walk is a label that a link from there may have. -/
theorem labels_of_end {selfLink} {node} (hs : Wired s) (hself : s.selfLink = some selfLink)
    (hwalk : Relation.ReflTransGen (Hop s) (selfLink, path) b) (hlink : s.Live b.1 link)
    (hnode : s.nodes.get? link.child = some node) (hhop : node.encodingScheme.OneHop b.2)
    (hnot : ¬ node.encodingScheme.SelfRoute b.2) : Labels node.encodingScheme (link.child = s.selfNode) b.2 := by
  refine ⟨hhop, hnot, fun hown => ?_⟩
  rcases remainder_of_walk hwalk with rfl | ⟨_, link', hlink', hcases⟩
  · exact absurd (hs.ofSelf hself.symm hlink).2.1 hown
  · obtain rfl := hlink.unique hlink'
    rcases hcases with hone | ⟨child, x, hchild, hvalid, hconvert⟩
    · have htwo := hhop.two_le
      rw [hone] at htwo
      exact absurd htwo (by decide)
    · cases hnode.symm.trans hchild
      exact EncodingScheme.Scheme.canonical_convert hconvert hvalid hnot

/-! ## Nothing to split -/

theorem nextPeer_mem {x} {peers} (h : nextPeer l peers = some x) : x ∈ peers := by
  induction peers with
  | nil => cases h
  | cons y peers ih =>
    unfold nextPeer at h
    split at h
    · exact mem_cons_of_mem _ (mem_of_mem_head? h)
    · exact mem_cons_of_mem _ (ih h)

section
variable {C : Crypto} {paranoia : Bool} {s s' : NodeStore} {l : LinkId} {link : Link} {out out' : Option LinkId}

variable (hs : Wired s) (hlive : s.Live l link) (hself : some l ≠ s.selfLink)
include hs hlive hself

theorem routesThrough_other {parent} (hparent : s.nodes.get? link.parent = some parent) {x} (hx : x ∈ parent.peerTree) (hne : x ≠ l) :
    routesThrough (s.label x) link.cannonicalLabel = false := by
  have hlabel := (hs.label l link parent hlive hself hparent).oneHop
  obtain ⟨other, hother, hends⟩ := hs.peer _ parent hparent x hx
  rw [label_eq hother.1]
  by_contra hroutes
  rw [Bool.not_eq_false] at hroutes
  by_cases hxself : some x = s.selfLink
  · have htwo := hlabel.two_le
    have hle := ((LabelSplicer.routesThrough_iff htwo).mp hroutes).1
    rw [(hs.ofSelf hxself hother).2.2.1] at hle
    exact absurd (htwo.trans hle) (by decide)
  · have hxlabel := (hs.label x other parent hother hxself (hends ▸ hparent)).oneHop
    have hpos := hxlabel.two_le
    have heq := hxlabel.eq_of_routesThrough hlabel (LabelSplicer.one_join (by omega)).symm hroutes
    obtain ⟨_, node, hnode, hl⟩ := hs.parent l link hlive
    cases hparent.symm.trans hnode
    refine hne ((hs.ordered _ parent hparent).label_inj hx hl ?_)
    rw [label_eq hother.1, label_eq hlive.1, heq]

theorem fixLinkFrom_eq {parent} (hparent : s.nodes.get? link.parent = some parent) {fuel} {verifyOrder} {next}
    (hnext : ∀ x, next = some x → x ∈ parent.peerTree)
    (h : fixLinkFrom C paranoia l link.parent link.cannonicalLabel fuel s out verifyOrder next = .ret (s', out')) :
    s' = s ∧ out' = out := by
  induction fuel generalizing verifyOrder next with
  | zero => cases h
  | succ fuel ih =>
    cases next with
    | none =>
      cases h
      exact ⟨rfl, rfl⟩
    | some x =>
      obtain ⟨node, hnode, h⟩ := bind_inv h
      cases hparent.symm.trans (node_eq_ret.mp hnode)
      split at h
      · exact ih (fun y hy => nextPeer_mem hy) h
      next hne =>
        rw [routesThrough_other hs hlive hself hparent (hnext x rfl) hne] at h
        exact ih (fun y hy => nextPeer_mem hy) h

theorem fixLink_eq (h : fixLink C paranoia s l out = .ret (s', out')) : s' = s ∧ out' = out := by
  obtain ⟨link', hlink', h⟩ := bind_inv h
  obtain rfl := hlive.unique (link_eq_ret.mp hlink')
  obtain ⟨parent, hparent, h⟩ := bind_inv h
  exact fixLinkFrom_eq hs hlive hself (node_eq_ret.mp hparent) (fun x hx => mem_of_mem_head? hx) h

/-- A link that has just been made splits no other one. -/
theorem fixAll_eq {fuel} (hlist : link.nextInSplitList = none)
    (h : fixAll C paranoia fuel s (some l) = .ret s') : s' = s := by
  have hsame : s.setLink l { link with nextInSplitList := none } = s := by
    rw [← hlist]
    exact congrArg (fun links => { s with links }) (Heap.set_get? hlive.1)
  obtain ⟨turns, hturns⟩ := rounds_eq
  cases fuel with
  | zero => cases h
  | succ fuel =>
    obtain ⟨⟨s₁, out⟩, hfix, h⟩ := bind_inv h
    rw [hturns, fixLinks] at hfix
    simp only [hlive.1] at hfix
    rw [hsame, if_neg (by rw [hlive.2]; exact Bool.false_ne_true)] at hfix
    obtain ⟨⟨s₂, out₂⟩, hone, hfix⟩ := bind_inv hfix
    obtain ⟨rfl, rfl⟩ := fixLink_eq hs hlive hself hone
    rw [hlist] at hfix
    cases turns with
    | zero => cases hfix
    | succ turns =>
      cases hfix
      cases fuel with
      | zero => cases h
      | succ fuel =>
        exact (ret.inj h).symm

end

end NodeStore

end Hyperboria
