/-
`NodeStore_getPeers`: the direct peers whose labels are the next ones from a given label on. The links
of the self node are gone through in the order of its tree, which is not that of the labels, and each is
put into its place in an array that is filled from the end.

`getPeers_iff`: the answer is the one meant (`Least`) if `max` is a positive number also when it is taken
for an `int`.
-/
import Hyperboria.Dht.Checks
import Hyperboria.Least

namespace Hyperboria

open Er List Nat

open EncodingScheme (Scheme)

namespace NodeStore

/-! ## The source -/

/-- The label up to the end of the part that this node uses, and the mark after it. -/
def truncateLabel (label : BitVec 64) : Er (BitVec 64) :=
  if label > 1 then do
    let bitsUsed := NumberCompress.bitsUsedForLabel label
    let mask ← Bits.maxBits64 bitsUsed
    .ret ((label &&& mask) ||| (1#64 <<< bitsUsed))
  else .ret label

/-- The loop of `NodeStore_getPeers` over the places of the array: where it stops. -/
def slotFor (s : NodeStore) (label p : BitVec 64) : List (Option NodeId) → Er Nat
  | [] => .ret 0
  | none :: nodes => do
    let j ← slotFor s label p nodes
    .ret (j + 1)
  | some n :: nodes => do
    let node ← s.node n
    if node.address.path - label > p - label then do
      let j ← slotFor s label p nodes
      .ret (j + 1)
    else .ret 0

/-- The `switch` of `NodeStore_getPeers`: the places before are moved up by one, and the first is lost. -/
def placeAt (nodes : List (Option NodeId)) (child : NodeId) : Nat → List (Option NodeId)
  | 0 => nodes
  | j + 1 => nodes.tail.take j ++ some child :: nodes.drop (j + 1)

/-- The first loop of `NodeStore_getPeers`. -/
def peersFrom (s : NodeStore) (label : BitVec 64) (max : BitVec 32) (nodes : List (Option NodeId)) :
    List LinkId → Er (List (Option NodeId))
  | [] => .ret nodes
  | l :: ls => do
    let next ← s.link l
    let p := next.cannonicalLabel
    let oneHop ← isOneHopLink s next
    if !oneHop && p ≠ 1 then peersFrom s label max nodes ls
    else if p = UINT64_MAX then peersFrom s label max nodes ls
    else if p < label then peersFrom s label max nodes ls
    else do
      let child ← s.node next.child
      if child.address.path ≠ p then peersFrom s label max nodes ls
      else do
        let j ← slotFor s label p (nodes.take max.toInt.toNat)
        peersFrom s label max (placeAt nodes next.child j) ls

/-- `checkNode`, where it is called by itself. -/
def checkNodeIfArmed (s : NodeStore) (n : NodeId) : Er Unit :=
  if s.disarmCheck ≠ 0 then .ret () else checkNode s n

/-- The last loop of `NodeStore_getPeers`: each node is looked at once more, and copied. -/
def clonePeers (s : NodeStore) : List (Option NodeId) → Er (List NodeId)
  | [] => .ret []
  | none :: _ => .abort "Identity_check(out->nodes[i])"
  | some n :: nodes => do
    checkNodeIfArmed s n
    let node ← s.node n
    .assertTrue (node.address.path ≠ 0) "out->nodes[i]->address.path"
    .assertTrue (node.address.path < 1#64 <<< 63) "out->nodes[i]->address.path < (((uint64_t)1)<<63)"
    let out ← clonePeers s nodes
    .ret (n :: out)

def getPeers (s : NodeStore) (label : BitVec 64) (max : BitVec 32) : Er (List NodeId) := do
  let label ← truncateLabel label
  let self ← s.node s.selfNode
  let nodes ← peersFrom s label max (List.replicate max.toNat none) self.peerTree
  clonePeers s ((nodes.take max.toInt.toNat).dropWhile (·.isNone))

/-! ## What is meant -/

/-- The label cut to its first director and the mark after it. -/
def firstDirector (label : BitVec 64) : BitVec 64 :=
  let bitsUsed := NumberCompress.bitsUsedForLabel label
  if label > 1 then BitVec.ofNat 64 (label.toNat % 2 ^ bitsUsed + 2 ^ bitsUsed) else label

/-- `link->child`. -/
def childOf (s : NodeStore) (l : LinkId) : NodeId := (s.links.get? l).elim 0 (·.child)

/-- A link of the self node that leads to a peer, or to us, by a label from this one on, which is the best path there. -/
structure Eligible (s : NodeStore) (label : BitVec 64) (l : LinkId) : Prop where
  peer : ∃ self, s.nodes.get? s.selfNode = some self ∧ l ∈ self.peerTree
  oneHop : (∃ link, s.Live l link ∧ isOneHopLink s link = .ret true) ∨ some l = s.selfLink
  from_le : label ≤ s.label l
  best : ∃ child, s.nodes.get? (s.childOf l) = some child ∧ child.address.path = s.label l

/-- The answer that is meant: the children of the links with the least labels, at most `max` of them. -/
def PeersFrom (s : NodeStore) (label : BitVec 64) (max : Nat) (nodes : List NodeId) : Prop :=
  nodes.Nodup ∧
    ∃ links, nodes = links.map s.childOf ∧ Least (fun l => (s.label l).toNat) max (s.Eligible label) links

/-! ## The label -/

theorem truncateLabel_eq (label : BitVec 64) : truncateLabel label = .ret (firstDirector label) := by
  unfold truncateLabel firstDirector
  split
  next hlabel =>
    generalize hbits : NumberCompress.bitsUsedForLabel label = bits
    have hlt : bits < 64 := by
      have hwidth := hbits ▸ NumberCompress.bitsUsedForLabel_width label
      unfold NumberCompress.Width at hwidth
      omega
    have hpow : 2 ^ (bits + 1) ≤ 2 ^ 64 := Nat.pow_le_pow_right (by decide) hlt
    have hmod := Nat.mod_lt label.toNat (Nat.two_pow_pos bits)
    dsimp only
    rw [EncodingScheme.maxBits64_eq hlt]
    refine congrArg Er.ret (BitVec.eq_of_toNat_eq ?_)
    have hmark : (1#64 <<< bits).toNat = 2 ^ bits := by
      rw [BitVec.toNat_shiftLeft, Nat.shiftLeft_eq, BitVec.toNat_ofNat, Nat.one_mul]
      exact mod_eq_of_lt (by omega)
    have hor := two_pow_add_eq_or_of_lt hmod 1
    rw [mul_one] at hor
    have hsum : label.toNat % 2 ^ bits + 2 ^ bits < 2 ^ 64 := by omega
    rw [BitVec.toNat_or, BitVec.toNat_and, BitVec.toNat_ofNat, mod_eq_of_lt (by omega : 2 ^ bits - 1 < 2 ^ 64),
      hmark, Nat.and_two_pow_sub_one_eq_mod, Nat.or_comm, ← hor, Nat.add_comm, BitVec.toNat_ofNat, Nat.mod_eq_of_lt hsum]
  · rfl

/-! ## The links that are considered -/

section
variable {s : NodeStore} {label : BitVec 64} {max : BitVec 32} {self : Node} {l : LinkId} {ls : List LinkId}
  {nodes : List (Option NodeId)}

theorem childOf_eq {link} (h : s.links.get? l = some link) : s.childOf l = link.child := by
  unfold childOf
  rw [h]
  rfl

theorem label_range (hs : Wired s) {link} (hlive : s.Live l link) :
    1 ≤ link.cannonicalLabel.toNat ∧ link.cannonicalLabel.toNat < 2 ^ 60 := by
  by_cases hself : some l = s.selfLink
  · rw [(hs.ofSelf hself hlive).2.2.1]
    decide
  · obtain ⟨_, node, hnode, _⟩ := hs.parent l link hlive
    have hhop := (hs.label l link node hlive hself hnode).oneHop
    have htwo := hhop.two_le
    obtain ⟨form, hform, _, hlog⟩ := hhop
    have hsize := (Scheme.bounds hform).size_le
    exact ⟨by omega, Bits.log2_le_iff.mp (by omega)⟩

theorem peersFrom_cons (hs : Wired s) {link} {child} (hlive : s.Live l link)
    (hchild : s.nodes.get? link.child = some child) :
    peersFrom s label max nodes (l :: ls) =
      if link.cannonicalLabel < label then peersFrom s label max nodes ls
      else if child.address.path ≠ link.cannonicalLabel then peersFrom s label max nodes ls
      else (do
        let j ← slotFor s label link.cannonicalLabel (nodes.take max.toInt.toNat)
        peersFrom s label max (placeAt nodes link.child j) ls) := by
  have hrange := label_range hs hlive
  have hmax : link.cannonicalLabel ≠ UINT64_MAX := fun heq => by
    rw [heq] at hrange
    exact absurd hrange.2 (by decide)
  have hhop : (!decide (some l ≠ s.selfLink) && decide (link.cannonicalLabel ≠ 1)) = false := by
    by_cases hself : some l = s.selfLink
    · rw [decide_eq_false (not_not_intro (hs.ofSelf hself hlive).2.2.1), Bool.and_false]
    · rw [decide_eq_true hself]
      rfl
  rw [peersFrom, link_eq_ret.mpr hlive, ret_bind]
  rw [isOneHopLink_eq hs hlive, ret_bind, hhop, if_neg Bool.false_ne_true, if_neg hmax, node_eq_ret.mpr hchild,
    ret_bind]

theorem eligible_iff (hs : Wired s) (hself : s.nodes.get? s.selfNode = some self) (hl : l ∈ self.peerTree) {link}
    {child} (hlive : s.Live l link) (hchild : s.nodes.get? link.child = some child) :
    s.Eligible label l ↔ ¬ link.cannonicalLabel < label ∧ child.address.path = link.cannonicalLabel := by
  have hlabel := label_eq hlive.1
  have hchildOf := childOf_eq hlive.1
  constructor
  · intro h
    obtain ⟨other, hother, hpath⟩ := h.best
    rw [hchildOf, hchild] at hother
    cases hother
    exact ⟨BitVec.not_lt.mpr (hlabel ▸ h.from_le), hpath.trans hlabel⟩
  · rintro ⟨hle, hpath⟩
    refine ⟨⟨self, hself, hl⟩, ?_, hlabel ▸ BitVec.not_lt.mp hle, child, hchildOf ▸ hchild, hpath.trans hlabel.symm⟩
    by_cases hown : some l = s.selfLink
    · exact .inr hown
    · refine .inl ⟨link, hlive, ?_⟩
      rw [isOneHopLink_eq hs hlive, decide_eq_true hown]

theorem peersFrom_take (hs : Wired s) (h : s.Eligible label l) :
    peersFrom s label max nodes (l :: ls) = (do
      let j ← slotFor s label (s.label l) (nodes.take max.toInt.toNat)
      peersFrom s label max (placeAt nodes (s.childOf l) j) ls) := by
  obtain ⟨self, hself, hl⟩ := h.peer
  obtain ⟨link, hlive, _⟩ := hs.peer _ self hself l hl
  obtain ⟨_, child, hchild, _⟩ := hs.child l link hlive
  obtain ⟨hle, hpath⟩ := (eligible_iff hs hself hl hlive hchild).mp h
  rw [peersFrom_cons hs hlive hchild, if_neg hle, if_neg (not_not_intro hpath), label_eq hlive.1, childOf_eq hlive.1]

theorem peersFrom_skip (hs : Wired s) (hself : s.nodes.get? s.selfNode = some self) (hl : l ∈ self.peerTree)
    (h : ¬ s.Eligible label l) : peersFrom s label max nodes (l :: ls) = peersFrom s label max nodes ls := by
  obtain ⟨link, hlive, _⟩ := hs.peer _ self hself l hl
  obtain ⟨_, child, hchild, _⟩ := hs.child l link hlive
  rw [eligible_iff hs hself hl hlive hchild] at h
  rw [peersFrom_cons hs hlive hchild]
  split
  · rfl
  next hle => rw [if_pos fun hpath => h ⟨hle, hpath⟩]

/-! ## The array -/

theorem sub_lt_sub_iff {a b} (ha : label ≤ a) (hb : label ≤ b) : b - label < a - label ↔ b < a := by
  bv_omega

/-- Where the loop over the places stops. -/
theorem slotFor_eq {k} {before after : List LinkId} (hbefore : ∀ x ∈ before, s.Eligible label x ∧ s.label l < s.label x)
    (hafter : ∀ x ∈ after, s.Eligible label x ∧ s.label x < s.label l) (hle : label ≤ s.label l) :
    slotFor s label (s.label l) (List.replicate k none ++ ((before ++ after).map s.childOf).map some) =
      .ret (k + before.length) := by
  induction k with
  | succ k ih =>
    rw [replicate_succ, cons_append, slotFor, ih, ret_bind, succ_add]
  | zero =>
    rw [replicate_zero, nil_append]
    induction before with
    | nil =>
      cases after with
      | nil => rfl
      | cons x after =>
        obtain ⟨helig, hlt⟩ := hafter x mem_cons_self
        obtain ⟨child, hchild, hpath⟩ := helig.best
        rw [nil_append, map_cons, map_cons, slotFor, node_eq_ret.mpr hchild, ret_bind, hpath,
          if_neg fun hgt => absurd ((sub_lt_sub_iff helig.from_le hle).mp hgt) (BitVec.not_lt.mpr (BitVec.le_of_lt hlt))]
        rfl
    | cons x before ih =>
      obtain ⟨helig, hlt⟩ := hbefore x mem_cons_self
      obtain ⟨child, hchild, hpath⟩ := helig.best
      rw [cons_append, map_cons, map_cons, slotFor, node_eq_ret.mpr hchild, ret_bind, hpath,
        if_pos ((sub_lt_sub_iff helig.from_le hle).mpr hlt), ih fun y hy => hbefore y (mem_cons_of_mem _ hy)]
      rfl

theorem placeAt_room {k} {c} {before after} :
    placeAt (List.replicate (k + 1) none ++ (before ++ after).map some) c (k + 1 + before.length) =
      List.replicate k none ++ (before ++ c :: after).map some := by
  have hnodes : List.replicate (k + 1) none ++ (before ++ after).map some =
      none :: (List.replicate k none ++ before.map some ++ after.map some) := by
    rw [replicate_succ, cons_append, map_append, append_assoc]
  have hlength : (List.replicate k none ++ before.map some).length = k + before.length := by
    rw [length_append, length_replicate, length_map]
  rw [hnodes, add_right_comm, placeAt, tail_cons, take_left' hlength, drop_succ_cons,
    drop_left' hlength, map_append, map_cons, append_assoc]

theorem placeAt_full {c} {before after} :
    placeAt ((before ++ after).map some) c before.length = (before ++ c :: after).tail.map some := by
  cases before with
  | nil => rfl
  | cons b before =>
    have hlength : (before.map some).length = before.length := length_map _
    rw [length_cons, placeAt, cons_append, map_cons, tail_cons, map_append,
      take_left' hlength, drop_succ_cons, drop_left' hlength, cons_append, tail_cons,
      map_append, map_cons]

/-- The array: the places that are still empty, then the children of the links that were kept. -/
def slots (s : NodeStore) (max : Nat) (kept : List LinkId) : List (Option NodeId) :=
  List.replicate (max - kept.length) none ++ (kept.map s.childOf).map some

theorem slots_length {max} {kept} (h : kept.length ≤ max) : (slots s max kept).length = max := by
  rw [slots, length_append, length_replicate, length_map, length_map]
  omega

theorem peersFrom_step (hs : Wired s) {seen} {kept}
    (hkept : Least (fun x => (s.label x).toNat) max.toNat seen kept) (hseen : ∀ x, seen x → s.Eligible label x)
    (hint : max.toInt.toNat = max.toNat) (h : s.Eligible label l) (hnew : ∀ x, seen x → s.label x ≠ s.label l) :
    ∃ kept', Least (fun x => (s.label x).toNat) max.toNat (fun x => x = l ∨ seen x) kept' ∧
      peersFrom s label max (slots s max.toNat kept) (l :: ls) = peersFrom s label max (slots s max.toNat kept') ls := by
  have hne : ∀ x ∈ kept, (s.label x).toNat ≠ (s.label l).toNat := fun x hx heq =>
    hnew x (hkept.mem x hx) (BitVec.eq_of_toNat_eq heq)
  obtain ⟨before, after, rfl, hbefore, hafter⟩ := hkept.split hne
  have hlength := hkept.length
  have hslot := @slotFor_eq s label l (max.toNat - (before ++ after).length) before after
    (fun x hx => ⟨hseen x (hkept.mem x (mem_append_left _ hx)), BitVec.lt_def.mpr (hbefore x hx)⟩)
    (fun x hx => ⟨hseen x (hkept.mem x (mem_append_right _ hx)), BitVec.lt_def.mpr (hafter x hx)⟩) h.from_le
  rw [peersFrom_take hs h, hint, take_of_length_le (slots_length hlength).le, slots, hslot, ret_bind]
  rcases lt_or_eq_of_le hlength with hroom | hfull
  · refine ⟨_, hkept.insert hbefore hafter hroom, ?_⟩
    obtain ⟨k, hk⟩ : ∃ k, max.toNat - (before ++ after).length = k + 1 := ⟨_, (succ_pred (by omega)).symm⟩
    have hleft : max.toNat - (before ++ l :: after).length = k := by
      rw [length_append, length_cons]
      rw [length_append] at hk
      omega
    have hplace := @placeAt_room k (s.childOf l) (before.map s.childOf) (after.map s.childOf)
    rw [length_map, ← map_append, ← map_cons, ← map_append] at hplace
    rw [hk, hplace, slots, hleft]
  · refine ⟨_, hkept.replace hbefore hafter hfull, ?_⟩
    have hleft : (before ++ l :: after).tail.length = max.toNat := by
      rw [length_tail, length_append, ← hfull, length_append]
      rfl
    have hplace := @placeAt_full (s.childOf l) (before.map s.childOf) (after.map s.childOf)
    rw [length_map, ← map_append, ← map_cons, ← map_append, ← map_tail] at hplace
    rw [hfull, Nat.sub_self, replicate_zero, nil_append, Nat.zero_add, hplace, slots, hleft, Nat.sub_self,
      replicate_zero, nil_append]

theorem peersFrom_run (hs : Wired s) (hself : s.nodes.get? s.selfNode = some self) (hint : max.toInt.toNat = max.toNat)
    {seen} {kept} (hkept : Least (fun x => (s.label x).toNat) max.toNat seen kept)
    (hseen : ∀ x, seen x → s.Eligible label x) (hls : ∀ x ∈ ls, x ∈ self.peerTree) (hnodup : ls.Nodup)
    (hnew : ∀ x ∈ ls, ¬ seen x) :
    ∃ kept', Least (fun x => (s.label x).toNat) max.toNat (fun x => seen x ∨ x ∈ ls ∧ s.Eligible label x) kept' ∧
      peersFrom s label max (slots s max.toNat kept) ls = .ret (slots s max.toNat kept') := by
  induction ls generalizing seen kept with
  | nil => exact ⟨kept, hkept.congr fun x => by simp, rfl⟩
  | cons l ls ih =>
    have hl := hls l mem_cons_self
    obtain ⟨hnot, hnodup⟩ := nodup_cons.mp hnodup
    have hrest := fun x hx => hls x (mem_cons_of_mem _ hx)
    by_cases h : s.Eligible label l
    · have hdistinct : ∀ x, seen x → s.label x ≠ s.label l := by
        intro x hx heq
        obtain ⟨self', hself', hmem⟩ := (hseen x hx).peer
        cases hself.symm.trans hself'
        exact hnew l mem_cons_self ((hs.ordered _ self hself).label_inj hmem hl heq ▸ hx)
      obtain ⟨kept₁, hkept₁, hstep⟩ := peersFrom_step hs hkept hseen hint h hdistinct
      obtain ⟨kept', hkept', hrun⟩ := ih hkept₁ (fun x hx => hx.elim (fun heq => heq ▸ h) (hseen x)) hrest hnodup
        fun x hx hbad => hbad.elim (fun heq => hnot (heq ▸ hx)) (hnew x (mem_cons_of_mem _ hx))
      refine ⟨kept', hkept'.congr fun x => ?_, hstep.trans hrun⟩
      rw [mem_cons]
      constructor
      · rintro (hx | ⟨rfl | hx, helig⟩)
        · exact .inl (.inr hx)
        · exact .inl (.inl rfl)
        · exact .inr ⟨hx, helig⟩
      · rintro ((rfl | hx) | ⟨hx, helig⟩)
        · exact .inr ⟨.inl rfl, h⟩
        · exact .inl hx
        · exact .inr ⟨.inr hx, helig⟩
    · obtain ⟨kept', hkept', hrun⟩ := ih hkept hseen hrest hnodup fun x hx => hnew x (mem_cons_of_mem _ hx)
      refine ⟨kept', hkept'.congr fun x => ?_, (peersFrom_skip hs hself hl h).trans hrun⟩
      rw [mem_cons]
      constructor
      · rintro (hx | ⟨rfl | hx, helig⟩)
        · exact .inl hx
        · exact absurd helig h
        · exact .inr ⟨hx, helig⟩
      · rintro (hx | ⟨hx, helig⟩)
        · exact .inl hx
        · exact .inr ⟨.inr hx, helig⟩

theorem peersFrom_negative (hs : Wired s) (hself : s.nodes.get? s.selfNode = some self) (hint : max.toInt.toNat = 0)
    (hls : ∀ x ∈ ls, x ∈ self.peerTree) : peersFrom s label max nodes ls = .ret nodes := by
  induction ls with
  | nil => rfl
  | cons l ls ih =>
    have ih := ih fun x hx => hls x (mem_cons_of_mem _ hx)
    by_cases h : s.Eligible label l
    · rw [peersFrom_take hs h, hint, take_zero, slotFor, ret_bind, placeAt, ih]
    · rw [peersFrom_skip hs hself (hls l mem_cons_self) h, ih]

end

/-! ## The copies -/

theorem clonePeers_eq {C} {paranoia} {s} {label} {links : List LinkId}
    (hs : Reachable C paranoia s) (h : ∀ l ∈ links, s.Eligible label l) :
    clonePeers s ((links.map s.childOf).map some) = .ret (links.map s.childOf) := by
  have hwired := hs.sound.wired
  induction links with
  | nil => rfl
  | cons l links ih =>
    obtain ⟨⟨self, hself, hl⟩, _, _, child, hchild, hpath⟩ := h l mem_cons_self
    obtain ⟨link, hlive, _⟩ := hwired.peer _ self hself l hl
    have hrange := label_range hwired hlive
    rw [← label_eq hlive.1] at hrange
    have htree : s.childOf l ∈ s.nodeTree := childOf_eq hlive.1 ▸ (hwired.child l link hlive).1
    have hcheck : checkNodeIfArmed s (s.childOf l) = .ret () := by
      unfold checkNodeIfArmed
      split
      · rfl
      next harmed =>
        exact hs.checkNode htree (not_not.mp harmed)
    have hne : s.label l ≠ 0 := fun heq => by
      rw [heq] at hrange
      exact absurd hrange.1 (by decide)
    have hlt : s.label l < 1#64 <<< 63 := BitVec.lt_def.mpr (hrange.2.trans (by decide))
    rw [map_cons, map_cons, clonePeers, hcheck, ret_bind, node_eq_ret.mpr hchild, ret_bind, hpath,
      assertTrue_bind (decide_eq_true hne), assertTrue_bind (decide_eq_true hlt),
      ih fun x hx => h x (mem_cons_of_mem _ hx)]
    rfl

/-! ## The answer -/

section
variable {C : Crypto} {paranoia : Bool} {s : NodeStore}

theorem children_nodup {label} {max} {links}
    (h : Least (fun l => (s.label l).toNat) max (s.Eligible label) links) : (links.map s.childOf).Nodup := by
  refine pairwise_map.mpr (h.order.imp_of_mem fun {a b} ha hb hlt heq => ?_)
  obtain ⟨child, hchild, hpath⟩ := (h.mem a ha).best
  obtain ⟨child', hchild', hpath'⟩ := (h.mem b hb).best
  rw [heq, hchild'] at hchild
  cases hchild
  rw [← hpath, ← hpath'] at hlt
  exact absurd hlt (lt_irrefl _)

theorem getPeers_negative (hs : Wired s) (label : BitVec 64) {max} (hmax : 2 ^ 31 ≤ max.toNat) :
    getPeers s label max = .ret [] := by
  obtain ⟨self, hself, _⟩ := hs.listed.node s.selfNode hs.selfTree
  have hint : max.toInt.toNat = 0 := by
    rw [BitVec.toInt_eq_toNat_cond]
    omega
  unfold getPeers
  rw [truncateLabel_eq, ret_bind, node_eq_ret.mpr hself, ret_bind,
    peersFrom_negative hs hself hint fun x hx => hx, ret_bind, hint, take_zero]
  rfl

/-- The answer is the one meant exactly if `max` is no negative `int`, or if there is nothing to be found. -/
theorem getPeers_iff (hs : Reachable C paranoia s) (label : BitVec 64) (max : BitVec 32) :
    (∃ nodes, getPeers s label max = .ret nodes ∧ PeersFrom s (firstDirector label) max.toNat nodes) ↔
      max.toNat < 2 ^ 31 ∨ ∀ l, ¬ s.Eligible (firstDirector label) l := by
  have hwired := hs.sound.wired
  obtain ⟨self, hself, _⟩ := hwired.listed.node s.selfNode hwired.selfTree
  by_cases hmax : max.toNat < 2 ^ 31
  · refine iff_of_true ?_ (.inl hmax)
    have hint : max.toInt.toNat = max.toNat := by
      rw [BitVec.toInt_eq_toNat_of_lt (by omega)]
      rfl
    obtain ⟨links, hlinks, hrun⟩ := @peersFrom_run s (firstDirector label) max self self.peerTree hwired hself hint _ _
      Least.nil (fun x hx => hx.elim) (fun x hx => hx) (hwired.ordered _ self hself).nodup fun x _ hx => hx
    have hlinks : Least (fun l => (s.label l).toNat) max.toNat (s.Eligible (firstDirector label)) links := by
      refine hlinks.congr fun l => ⟨fun h => .inr ⟨?_, h⟩, fun h => h.elim False.elim And.right⟩
      obtain ⟨self', hself', hl⟩ := h.peer
      exact Option.some.inj (hself'.symm.trans hself) ▸ hl
    have hempty : slots s max.toNat [] = List.replicate max.toNat none := by
      rw [slots, map_nil, map_nil, append_nil]
      rfl
    have hfilled : (slots s max.toNat links).dropWhile (·.isNone) = (links.map s.childOf).map some := by
      rw [slots, dropWhile_append_of_pos fun a ha => by rw [eq_of_mem_replicate ha]; rfl]
      cases links with
      | nil => rfl
      | cons l links => rfl
    rw [hempty] at hrun
    refine ⟨links.map s.childOf, ?_, children_nodup hlinks, links, rfl, hlinks⟩
    unfold getPeers
    rw [truncateLabel_eq, ret_bind, node_eq_ret.mpr hself, ret_bind, hrun, ret_bind, hint,
      take_of_length_le (slots_length hlinks.length).le, hfilled,
      clonePeers_eq hs hlinks.mem]
  · rw [getPeers_negative hwired label (not_lt.mp hmax)]
    constructor
    · rintro ⟨nodes, hnodes, _, links, hlinks, hleast⟩
      refine .inr fun l hl => ?_
      cases hnodes
      obtain rfl := map_eq_nil_iff.mp hlinks.symm
      have hfull := (hleast.rest l hl not_mem_nil).1
      rw [length_nil] at hfull
      omega
    · intro hnone
      have hnone := hnone.resolve_left hmax
      exact ⟨[], rfl, .nil, [], rfl, fun _ h => (nomatch h), .nil, zero_le _, fun l hl => absurd hl (hnone l)⟩

end

theorem getPeers_iff_one_peer : ∃ s, Reachable Symbolic.crypto true s ∧
    ∃ nodes, getPeers s 0 8 = .ret nodes ∧ PeersFrom s (firstDirector 0) 8 nodes := by
  obtain ⟨s, hs⟩ : (history true 128 4096 [.discoverNode (host 1 0x13) .v358 0]).Returns := ⟨_, rfl⟩
  have hreachable := Reachable.of_history (by decide) (by decide) hs
  exact ⟨s, hreachable, (getPeers_iff hreachable 0 8).mpr (.inl (by decide))⟩

/-- A new store names no node, not even ours, if it is asked for so many. -/
theorem getPeers_too_many : ∃ s, Reachable Symbolic.crypto true s ∧
    ¬ ∃ nodes, getPeers s 0 0x80000000 = .ret nodes ∧ PeersFrom s (firstDirector 0) (2 ^ 31) nodes := by
  obtain ⟨s, hs⟩ : (new true (host 0 0) { selfAddr := host 0 1, capacity := 8, addresses := [] }).Returns := ⟨_, rfl⟩
  have hreachable : Reachable Symbolic.crypto true { s with nodeCapacity := 128, linkCapacity := 4096 } :=
    .new rfl hs 128 4096 (by decide)
  refine ⟨_, hreachable, fun ⟨nodes, hnodes, _, links, hlinks, hleast⟩ => ?_⟩
  rw [getPeers_negative hreachable.sound.wired 0 (by decide)] at hnodes
  cases hnodes
  obtain rfl := map_eq_nil_iff.mp hlinks.symm
  obtain ⟨linkCost, _, rfl⟩ := new_cases hs
  have hself : Eligible { started { host 0 0 with protocolVersion := Version.CURRENT_PROTOCOL }
      { selfAddr := host 0 1, capacity := 8, addresses := [] } linkCost with nodeCapacity := 128, linkCapacity := 4096 }
      (firstDirector 0) 0 :=
    ⟨⟨_, rfl, mem_cons_self⟩, .inr rfl, show firstDirector 0 ≤ 1#64 by decide, _, rfl, rfl⟩
  exact absurd (hleast.rest 0 hself not_mem_nil).1 (by decide)

end NodeStore

end Hyperboria
