/-
`NodeStore_getClosestNodes`: from the place of the target in the tree of nodes one looks up and down at
once, each time takes the closer of the two nodes at hand, and stops when there are enough. The tree is
in the order of the addresses as numbers, and along it the XOR distance goes up and down. So what is
taken first is not what is closest: it is what can be got at without passing a node that is farther away.

`getClosestNodes_iff`: the answer is the one meant (`Least`) if `count` can be counted down from by an
`int`, and if a node that is got at before a closer one has enough others before itself.
-/
import Hyperboria.Dht.RoutingTree
import Hyperboria.Merging

namespace Hyperboria

open Er List

open EncodingScheme (Scheme)

/-! ## Distance -/

namespace Address

/-- One of the four words of the XOR of two addresses. -/
def xorAt (a b : List UInt8) (i : Nat) : Nat := (intAt a i ^^^ intAt b i).toNat

/-- The XOR of two addresses, with the words in the order `Address_closest` looks at them. -/
def distance (a b : List UInt8) : Nat :=
  ((xorAt a b 8 * 2 ^ 32 + xorAt a b 12) * 2 ^ 32 + xorAt a b 0) * 2 ^ 32 + xorAt a b 4

theorem xorcmp_sign (target a b : BitVec 32) :
    (xorcmp target a b = 0 ↔ (target ^^^ a).toNat = (target ^^^ b).toNat) ∧
    (0 < xorcmp target a b ↔ (target ^^^ b).toNat < (target ^^^ a).toNat) ∧
    (xorcmp target a b < 0 ↔ (target ^^^ a).toNat < (target ^^^ b).toNat) := by
  have heq : a = b ↔ (target ^^^ a).toNat = (target ^^^ b).toNat := by rw [BitVec.toNat_inj, BitVec.xor_right_inj]
  unfold xorcmp
  rw [BitVec.xor_comm a, BitVec.xor_comm b]
  split
  next h =>
    have hword := heq.mp h
    omega
  next h =>
    have hword := mt heq.mpr h
    split
    next hlt =>
      have hnat := BitVec.lt_def.mp hlt
      omega
    next hlt =>
      have hnat := mt BitVec.lt_def.mpr hlt
      omega

/-- The sign of `Address_closest` compares the distances. -/
theorem closest_sign (C : Crypto) (target a b : Address) :
    (0 < closest C target a b ↔
      distance (target.getPrefix C).ip6 (b.getPrefix C).ip6 < distance (target.getPrefix C).ip6 (a.getPrefix C).ip6) ∧
    (closest C target a b < 0 ↔
      distance (target.getPrefix C).ip6 (a.getPrefix C).ip6 < distance (target.getPrefix C).ip6 (b.getPrefix C).ip6) := by
  have hword := fun i => xorcmp_sign (intAt (target.getPrefix C).ip6 i) (intAt (a.getPrefix C).ip6 i)
    (intAt (b.getPrefix C).ip6 i)
  have h8 := hword 8
  have h12 := hword 12
  have h0 := hword 0
  have h4 := hword 4
  unfold closest distance xorAt
  dsimp only
  split_ifs <;> omega

theorem bytes_inj {a b : List UInt8} (ha : a.length = 4) (hb : b.length = 4)
    (h : BitVec.ofNat 32 (a.foldl (fun n b => n * 256 + b.toNat) 0) = BitVec.ofNat 32 (b.foldl (fun n b => n * 256 + b.toNat) 0)) :
    a = b := by
  obtain ⟨a₀, a₁, a₂, a₃, rfl⟩ := length_eq_four.mp ha
  obtain ⟨b₀, b₁, b₂, b₃, rfl⟩ := length_eq_four.mp hb
  have hlt := UInt8.toNat_lt
  have ha₀ := hlt a₀
  have ha₁ := hlt a₁
  have ha₂ := hlt a₂
  have ha₃ := hlt a₃
  have hb₀ := hlt b₀
  have hb₁ := hlt b₁
  have hb₂ := hlt b₂
  have hb₃ := hlt b₃
  simp only [foldl_cons, foldl_nil] at h
  have hnat := congrArg BitVec.toNat h
  rw [BitVec.toNat_ofNat, BitVec.toNat_ofNat] at hnat
  have h₀ : a₀.toNat = b₀.toNat := by omega
  have h₁ : a₁.toNat = b₁.toNat := by omega
  have h₂ : a₂.toNat = b₂.toNat := by omega
  have h₃ : a₃.toNat = b₃.toNat := by omega
  rw [UInt8.toNat_inj.mp h₀, UInt8.toNat_inj.mp h₁, UInt8.toNat_inj.mp h₂, UInt8.toNat_inj.mp h₃]

theorem distance_inj {target a b} (ha : a.length = 16) (hb : b.length = 16)
    (h : distance target a = distance target b) : a = b := by
  have hword : ∀ i, xorAt target a i = xorAt target b i → i + 4 ≤ 16 → a.drop (i + 4) = b.drop (i + 4) → a.drop i = b.drop i := by
    intro i hxor hi hrest
    have hint := (BitVec.xor_right_inj _).mp (BitVec.toNat_inj.mp hxor)
    have htake := bytes_inj (by rw [length_take, length_drop]; omega)
      (by rw [length_take, length_drop]; omega) hint
    rw [← take_append_drop 4 (a.drop i), ← take_append_drop 4 (b.drop i), drop_drop, drop_drop, htake, hrest]
  have hall : xorAt target a 8 = xorAt target b 8 ∧ xorAt target a 12 = xorAt target b 12 ∧
      xorAt target a 0 = xorAt target b 0 ∧ xorAt target a 4 = xorAt target b 4 := by
    unfold distance xorAt at h
    unfold xorAt
    omega
  obtain ⟨h8, h12, h0, h4⟩ := hall
  have hend : a.drop 16 = b.drop 16 := by rw [drop_of_length_le ha.le, drop_of_length_le hb.le]
  exact hword 0 h0 (by omega) (hword 4 h4 (by omega) (hword 8 h8 (by omega) (hword 12 h12 (by omega) hend)))

end Address

namespace NodeStore

/-! ## The source -/

def isOkAnswer (s : NodeStore) (compatVer : Nat) (n : NodeId) : Er Bool := do
  let node ← s.node n
  if node.address.path = UINT64_MAX then .ret false
  else if !Version.isCompatible compatVer node.address.protocolVersion then .ret false
  else if n = s.selfNode then .ret false
  else .ret true

/-- `if (isOkAnswer(..)) { out->nodes[idx--] = ..; }`, where `nodes` is what stands behind `idx`. -/
def answer (s : NodeStore) (compatVer : Nat) (n : NodeId) (idx : Int) (nodes : List NodeId) : Er (Int × List NodeId) := do
  let ok ← isOkAnswer s compatVer n
  if ok then .ret (idx - 1, n :: nodes) else .ret (idx, nodes)

/-- The loop of `NodeStore_getClosestNodes`. `next` and `prev` come with the nodes one gets to from them by `RB_NEXT`
and `RB_PREV`. -/
def answersFrom (C : Crypto) (s : NodeStore) (target : Address) (compatVer : Nat) :
    Nat → Int → List NodeId → List NodeId → List NodeId → Er (List NodeId)
  | 0, _, _, _, _ => .spin
  | fuel + 1, idx, nexts, prevs, nodes =>
    if idx > -1 then
      match nexts, prevs with
      | [], [] => .ret nodes
      | [], prev :: prevs => do
        let (idx, nodes) ← answer s compatVer prev idx nodes
        answersFrom C s target compatVer fuel idx [] prevs nodes
      | next :: nexts, [] => do
        let (idx, nodes) ← answer s compatVer next idx nodes
        answersFrom C s target compatVer fuel idx nexts [] nodes
      | next :: nexts, prev :: prevs => do
        let nextNode ← s.node next
        let prevNode ← s.node prev
        let closest := Address.closest C target nextNode.address prevNode.address
        if closest > 0 then do
          let (idx, nodes) ← answer s compatVer prev idx nodes
          answersFrom C s target compatVer fuel idx (next :: nexts) prevs nodes
        else if closest < 0 then do
          let (idx, nodes) ← answer s compatVer next idx nodes
          answersFrom C s target compatVer fuel idx nexts (prev :: prevs) nodes
        else .ret nodes
    else .ret nodes

/-- The nodes from `RB_NFIND` of the target on, or the last one, and those before from there on. -/
def sides (s : NodeStore) (target : Address) : List NodeId × List NodeId :=
  let before := s.nodeTree.takeWhile fun n => s.keyOf n < sortKey target
  match s.nodeTree.dropWhile fun n => s.keyOf n < sortKey target with
  | [] => (before.getLast?.toList, before.dropLast.reverse)
  | nexts => (nexts, before.reverse)

/-- The last loop of `NodeStore_getClosestNodes`. -/
def cloneAnswers (s : NodeStore) : List NodeId → Er (List NodeId)
  | [] => .ret []
  | n :: nodes => do
    let node ← s.node n
    .assertTrue (node.address.path ≠ 0) "out->nodes[i]->address.path"
    .assertTrue (node.address.path < 1#64 <<< 63) "out->nodes[i]->address.path < (((uint64_t)1)<<63)"
    let out ← cloneAnswers s nodes
    .ret (n :: out)

def getClosestNodes (C : Crypto) (s : NodeStore) (target : Address) (count : BitVec 32) (compatVer : Nat) :
    Er (List NodeId) := do
  let (nexts, prevs) := sides s target
  let nodes ← answersFrom C s target compatVer (s.nodeTree.length + 1) (count - 1).toInt nexts prevs []
  cloneAnswers s nodes

/-! ## What is meant -/

/-- The nodes accepted by `isOkAnswer`. -/
def Acceptable (s : NodeStore) (compatVer : Nat) (n : NodeId) : Prop :=
  n ∈ s.nodeTree ∧ isOkAnswer s compatVer n = .ret true

/-- An IPv6 address of zeros is one that has not been worked out. There is none. -/
def WorkedOut (s : NodeStore) : Prop :=
  ∀ n ∈ s.nodeTree, ∀ node, s.nodes.get? n = some node → node.address.ip6 ≠ List.replicate 16 0

instance (s : NodeStore) : Decidable s.WorkedOut :=
  decidable_of_iff (∀ n ∈ s.nodeTree, ∀ node ∈ s.nodes.get? n, node.address.ip6 ≠ List.replicate 16 0) Iff.rfl

/-- How far the node is from the target. -/
def distanceTo (C : Crypto) (s : NodeStore) (target : Address) (n : NodeId) : Nat :=
  (s.nodes.get? n).elim 0 fun node => Address.distance (target.getPrefix C).ip6 (node.address.getPrefix C).ip6

/-- The node is looked at on the way up: it is not before the target, or it is the last of all. -/
def Above (s : NodeStore) (target : Address) (n : NodeId) : Prop :=
  sortKey target ≤ s.keyOf n ∨ ∀ m ∈ s.nodeTree, s.keyOf m ≤ s.keyOf n

/-- On the way up or down to `n` one comes by `m`. -/
def OnWay (s : NodeStore) (target : Address) (n m : NodeId) : Prop :=
  m ∈ s.nodeTree ∧ (s.Above target n ∧ s.Above target m ∧ s.keyOf m ≤ s.keyOf n ∨
    ¬ s.Above target n ∧ ¬ s.Above target m ∧ s.keyOf n ≤ s.keyOf m)

/-- One gets at `u` before `v`: it is on the way there, or on the way to `v`, on the other side, there is a node that is
farther away than all on the way to `u`. -/
def GotFirst (C : Crypto) (s : NodeStore) (target : Address) (u v : NodeId) : Prop :=
  u ≠ v ∧ s.OnWay target v u ∨
    (s.Above target u ↔ ¬ s.Above target v) ∧
      ∃ w, s.OnWay target v w ∧ ∀ x, s.OnWay target u x → distanceTo C s target x < distanceTo C s target w

/-! ## The loop -/

section
variable {C : Crypto} {s : NodeStore} {target : Address} {compatVer : Nat}

variable {n : NodeId}

theorem distanceTo_eq {node} (h : s.nodes.get? n = some node) : distanceTo C s target n =
    Address.distance (target.getPrefix C).ip6 (node.address.getPrefix C).ip6 := by
  unfold distanceTo
  rw [h]
  rfl

def accepts (s : NodeStore) (compatVer : Nat) (n : NodeId) : Bool :=
  match isOkAnswer s compatVer n with
  | .ret ok => ok
  | _ => false

theorem isOkAnswer_eq (hs : Wired s) (hn : n ∈ s.nodeTree) :
    isOkAnswer s compatVer n = .ret (accepts s compatVer n) := by
  obtain ⟨node, hget, _⟩ := hs.listed.node n hn
  have hret : (isOkAnswer s compatVer n).Returns := by
    unfold isOkAnswer
    rw [node_eq_ret.mpr hget, ret_bind]
    split_ifs <;> exact ⟨_, rfl⟩
  obtain ⟨ok, hok⟩ := hret
  unfold accepts
  rw [hok]

theorem acceptable_iff (hs : Wired s) :
    s.Acceptable compatVer n ↔ n ∈ s.nodeTree ∧ accepts s compatVer n = true := by
  refine and_congr_right fun hn => ?_
  rw [isOkAnswer_eq hs hn, Er.ret.injEq]

/-- What stands in the array after these nodes have been gone through. -/
def filled (s : NodeStore) (compatVer : Nat) (idx : Int) (ns nodes : List NodeId) : List NodeId :=
  ((ns.filter (accepts s compatVer)).take (idx + 1).toNat).reverse ++ nodes

theorem answer_bind (hs : Wired s) (hn : n ∈ s.nodeTree) {idx} (hidx : idx > -1) {ns nodes}
    (rest : Int → List NodeId → Er (List NodeId))
    (h : ∀ idx nodes, rest idx nodes = .ret (filled s compatVer idx ns nodes)) :
    (answer s compatVer n idx nodes >>= fun x => rest x.1 x.2) = .ret (filled s compatVer idx (n :: ns) nodes) := by
  unfold answer
  rw [isOkAnswer_eq hs hn, ret_bind]
  unfold filled
  split
  next hok =>
    rw [ret_bind, h, filter_cons_of_pos hok, filled, show (idx + 1).toNat = (idx - 1 + 1).toNat + 1 by omega,
      take_succ_cons, reverse_cons, append_assoc]
    rfl
  next hno =>
    rw [ret_bind, h, filter_cons_of_neg hno, filled]

theorem answersFrom_eq (hs : Wired s) {fuel} {idx} {nexts prevs nodes}
    (hfuel : nexts.length + prevs.length < fuel) (hnexts : ∀ n ∈ nexts, n ∈ s.nodeTree) (hprevs : ∀ n ∈ prevs, n ∈ s.nodeTree)
    (hne : ∀ a ∈ nexts, ∀ b ∈ prevs, distanceTo C s target a ≠ distanceTo C s target b) :
    answersFrom C s target compatVer fuel idx nexts prevs nodes =
      .ret (filled s compatVer idx (merged (distanceTo C s target) nexts prevs) nodes) := by
  induction fuel generalizing idx nexts prevs nodes with
  | zero => omega
  | succ fuel ih =>
    unfold answersFrom
    split
    next hidx =>
      cases nexts with
      | nil =>
        cases prevs with
        | nil =>
          rw [nil_merged]
          unfold filled
          rw [filter_nil, take_nil]
          rfl
        | cons prev prevs =>
          obtain ⟨hprev, hprevs⟩ := forall_mem_cons.mp hprevs
          rw [nil_merged]
          refine answer_bind hs hprev hidx (fun idx nodes => answersFrom C s target compatVer fuel idx [] prevs nodes)
            fun idx nodes => ?_
          rw [ih (by simp at hfuel ⊢; omega) hnexts hprevs fun a ha => (nomatch ha), nil_merged]
      | cons next nexts =>
        obtain ⟨hnext, hnexts'⟩ := forall_mem_cons.mp hnexts
        cases prevs with
        | nil =>
          rw [merged_nil]
          refine answer_bind hs hnext hidx (fun idx nodes => answersFrom C s target compatVer fuel idx nexts [] nodes)
            fun idx nodes => ?_
          rw [ih (by simp at hfuel ⊢; omega) hnexts' hprevs fun _ _ b hb => (nomatch hb), merged_nil]
        | cons prev prevs =>
          obtain ⟨hprev, hprevs'⟩ := forall_mem_cons.mp hprevs
          obtain ⟨nextNode, hnextNode, _⟩ := hs.listed.node next hnext
          obtain ⟨prevNode, hprevNode, _⟩ := hs.listed.node prev hprev
          have hsign := Address.closest_sign C target nextNode.address prevNode.address
          rw [← distanceTo_eq hnextNode, ← distanceTo_eq hprevNode] at hsign
          have hheads := hne next mem_cons_self prev mem_cons_self
          simp only [node_eq_ret.mpr hnextNode, node_eq_ret.mpr hprevNode, ret_bind]
          rw [merged_cons]
          by_cases hlt : distanceTo C s target next < distanceTo C s target prev
          · rw [if_pos hlt, if_neg (by omega), if_pos (hsign.2.mpr hlt)]
            exact answer_bind hs hnext hidx (fun idx nodes => answersFrom C s target compatVer fuel idx nexts (prev :: prevs) nodes)
              fun idx nodes => ih (by simp at hfuel ⊢; omega) hnexts' hprevs fun a ha => hne a (mem_cons_of_mem _ ha)
          · rw [if_neg hlt, if_pos (hsign.1.mpr (by omega))]
            exact answer_bind hs hprev hidx (fun idx nodes => answersFrom C s target compatVer fuel idx (next :: nexts) prevs nodes)
              fun idx nodes => ih (by simp at hfuel ⊢; omega) hnexts hprevs' fun a ha b hb =>
                hne a ha b (mem_cons_of_mem _ hb)
    next hidx =>
      unfold filled
      rw [show (idx + 1).toNat = 0 by omega]
      rfl

/-! ## The two sides -/

variable {m : NodeId}

theorem keyOf_lt_or (hs : Wired s) (hn : n ∈ s.nodeTree) (hm : m ∈ s.nodeTree) (hne : n ≠ m) :
    s.keyOf n < s.keyOf m ∨ s.keyOf m < s.keyOf n := by
  have hbefore : ∀ {a b}, Before s.nodeTree a b → s.keyOf a < s.keyOf b := fun h =>
    pairwise_iff_forall_sublist.mp hs.listed.order h
  exact (before_or hn hm hne).imp hbefore hbefore

/-- What comes behind a node that is not before the target is not before it either. -/
theorem above_of_order {ns} (horder : (n :: ns).Pairwise fun a b => s.keyOf a < s.keyOf b)
    (hn : sortKey target ≤ s.keyOf n) : ∀ m ∈ n :: ns, s.Above target m := by
  intro m hm
  rcases mem_cons.mp hm with rfl | hm
  · exact .inl hn
  · exact .inl fun hlt => hn (List.lt_trans ((pairwise_cons.mp horder).1 m hm) hlt)

variable (hs : Wired s)
include hs

theorem sides_split : s.nodeTree = (sides s target).2.reverse ++ (sides s target).1 ∧
    (∀ n ∈ (sides s target).2, s.keyOf n < sortKey target ∧ (sides s target).1 ≠ []) ∧
    ∀ n ∈ (sides s target).1, s.Above target n := by
  have horder := hs.listed.order
  have happend := takeWhile_append_dropWhile (p := fun n => decide (s.keyOf n < sortKey target)) (l := s.nodeTree)
  have hbefore : ∀ n ∈ s.nodeTree.takeWhile (fun n => s.keyOf n < sortKey target), s.keyOf n < sortKey target := by
    intro n hn
    have hlt := mem_takeWhile_imp hn
    exact of_decide_eq_true hlt
  have hhead := head?_dropWhile_not (fun n => decide (s.keyOf n < sortKey target)) s.nodeTree
  unfold sides
  dsimp only
  generalize s.nodeTree.takeWhile _ = before at happend hbefore ⊢
  generalize s.nodeTree.dropWhile _ = after at happend hhead ⊢
  cases after with
  | nil =>
    rw [append_nil] at happend
    rw [← happend] at horder ⊢
    cases hlast : before.getLast? with
    | none =>
      obtain rfl := getLast?_eq_none_iff.mp hlast
      exact ⟨rfl, fun _ h => (nomatch h), fun _ h => (nomatch h)⟩
    | some last =>
      have hconcat := dropLast_append_getLast? last hlast
      refine ⟨by rw [reverse_reverse]; exact hconcat.symm, fun n hn => ?_, fun n hn => ?_⟩
      · exact ⟨hbefore n (mem_of_mem_dropLast (mem_reverse.mp hn)), cons_ne_nil _ _⟩
      · obtain rfl := mem_singleton.mp hn
        refine .inr fun m hm => ?_
        rw [← happend, ← hconcat] at hm
        rw [← hconcat] at horder
        rcases mem_append.mp hm with hm | hm
        · exact List.le_of_lt ((pairwise_append.mp horder).2.2 m hm n hn)
        · obtain rfl := mem_singleton.mp hm
          exact List.le_refl _
  | cons next nexts =>
    refine ⟨by rw [reverse_reverse]; exact happend.symm, fun n hn => ?_, ?_⟩
    · exact ⟨hbefore n (mem_reverse.mp hn), cons_ne_nil _ _⟩
    · rw [← happend] at horder
      exact above_of_order (pairwise_append.mp horder).2.1 (of_decide_eq_false hhead)

theorem not_above_of_mem (hn : n ∈ (sides s target).2) : ¬ s.Above target n := by
  have horder := hs.listed.order
  obtain ⟨hsplit, hprevs, _⟩ := @sides_split s target hs
  obtain ⟨hlt, hne⟩ := hprevs n hn
  obtain ⟨m, hm⟩ := exists_mem_of_ne_nil _ hne
  rw [hsplit] at horder
  rintro (hge | hlast)
  · exact hge hlt
  · exact hlast m (hsplit ▸ mem_append_right _ hm)
      ((pairwise_append.mp horder).2.2 n (mem_reverse.mpr hn) m hm)

theorem mem_nodeTree_iff : n ∈ s.nodeTree ↔ n ∈ (sides s target).1 ∨ n ∈ (sides s target).2 := by
  rw [(@sides_split s target hs).1, mem_append, mem_reverse, or_comm]

theorem mem_nexts : n ∈ (sides s target).1 ↔ n ∈ s.nodeTree ∧ s.Above target n := by
  rw [mem_nodeTree_iff hs]
  exact ⟨fun h => ⟨.inl h, (sides_split hs).2.2 n h⟩, fun ⟨h, hn⟩ => h.resolve_right fun h => not_above_of_mem hs h hn⟩

theorem mem_prevs : n ∈ (sides s target).2 ↔ n ∈ s.nodeTree ∧ ¬ s.Above target n := by
  rw [mem_nodeTree_iff hs]
  exact ⟨fun h => ⟨.inr h, not_above_of_mem hs h⟩, fun ⟨h, hn⟩ => h.resolve_left fun h => hn ((sides_split hs).2.2 n h)⟩

theorem sides_order : ((sides s target).1.Pairwise fun a b => s.keyOf a < s.keyOf b) ∧
    (sides s target).2.Pairwise fun a b => s.keyOf b < s.keyOf a := by
  have horder := hs.listed.order
  rw [(sides_split hs).1] at horder
  obtain ⟨hprevs, hnexts, _⟩ := pairwise_append.mp horder
  exact ⟨hnexts, pairwise_reverse.mp hprevs⟩

omit hs

variable {u v : NodeId}

theorem before_nexts (hs : Wired s) : Before (sides s target).1 u v ↔
    u ∈ (sides s target).1 ∧ v ∈ (sides s target).1 ∧ s.keyOf u < s.keyOf v :=
  before_iff (sides_order hs).1 fun _ _ => List.lt_asymm

theorem before_prevs (hs : Wired s) : Before (sides s target).2 u v ↔
    u ∈ (sides s target).2 ∧ v ∈ (sides s target).2 ∧ s.keyOf v < s.keyOf u :=
  before_iff (sides_order hs).2 fun _ _ => List.lt_asymm

theorem keyOf_le_iff (hs : Wired s) (hn : n ∈ s.nodeTree) (hm : m ∈ s.nodeTree) :
    s.keyOf n ≤ s.keyOf m ↔ n = m ∨ s.keyOf n < s.keyOf m := by
  constructor
  · intro hle
    by_cases heq : n = m
    · exact .inl heq
    · exact .inr ((keyOf_lt_or hs hn hm heq).resolve_right hle)
  · rintro (rfl | hlt)
    · exact List.le_refl _
    · exact List.le_of_lt hlt

theorem onWay_up (hs : Wired s) (hn : n ∈ (sides s target).1) :
    s.OnWay target n m ↔ m = n ∨ Before (sides s target).1 m n := by
  obtain ⟨htree, habove⟩ := (mem_nexts hs).mp hn
  rw [before_nexts hs]
  constructor
  · rintro ⟨hm, ⟨_, hup, hle⟩ | ⟨hnot, _⟩⟩
    · exact ((keyOf_le_iff hs hm htree).mp hle).imp_right fun hlt => ⟨(mem_nexts hs).mpr ⟨hm, hup⟩, hn, hlt⟩
    · exact absurd habove hnot
  · rintro (rfl | ⟨hm, _, hlt⟩)
    · exact ⟨htree, .inl ⟨habove, habove, List.le_refl _⟩⟩
    · obtain ⟨hmtree, hup⟩ := (mem_nexts hs).mp hm
      exact ⟨hmtree, .inl ⟨habove, hup, List.le_of_lt hlt⟩⟩

theorem onWay_down (hs : Wired s) (hn : n ∈ (sides s target).2) :
    s.OnWay target n m ↔ m = n ∨ Before (sides s target).2 m n := by
  obtain ⟨htree, hbelow⟩ := (mem_prevs hs).mp hn
  rw [before_prevs hs]
  constructor
  · rintro ⟨hm, ⟨habove, _⟩ | ⟨_, hdown, hle⟩⟩
    · exact absurd habove hbelow
    · exact ((keyOf_le_iff hs htree hm).mp hle).imp Eq.symm fun hlt => ⟨(mem_prevs hs).mpr ⟨hm, hdown⟩, hn, hlt⟩
  · rintro (rfl | ⟨hm, _, hlt⟩)
    · exact ⟨htree, .inr ⟨hbelow, hbelow, List.le_refl _⟩⟩
    · obtain ⟨hmtree, hdown⟩ := (mem_prevs hs).mp hm
      exact ⟨hmtree, .inr ⟨hbelow, hdown, List.le_of_lt hlt⟩⟩

theorem gotFirst_same (h : s.Above target u ↔ s.Above target v) :
    GotFirst C s target u v ↔ u ≠ v ∧ s.OnWay target v u :=
  or_iff_left fun hother => iff_not_self (h.symm.trans hother.1)

theorem gotFirst_other (h : s.Above target u ↔ ¬ s.Above target v) : GotFirst C s target u v ↔
    ∃ w, s.OnWay target v w ∧ ∀ x, s.OnWay target u x → distanceTo C s target x < distanceTo C s target w := by
  unfold GotFirst
  rw [or_iff_right, and_iff_right h]
  rintro ⟨_, _, ⟨hv, hu, _⟩ | ⟨hv, hu, _⟩⟩
  · exact h.mp hu hv
  · exact hu (h.mpr hv)

theorem passed_iff (hs : Wired s) (hu : u ∈ s.nodeTree) (hv : v ∈ s.nodeTree) :
    Passed (distanceTo C s target) (sides s target).1 (sides s target).2 u v ↔ GotFirst C s target u v := by
  have hnodup := hs.listed.nodup
  rw [(@sides_split s target hs).1] at hnodup
  obtain ⟨hprevs, hnexts, _⟩ := nodup_append.mp hnodup
  rw [nodup_reverse] at hprevs
  have hup : ∀ x ∈ (sides s target).1, x ∉ (sides s target).2 := fun x hx hx' =>
    not_above_of_mem hs hx' ((mem_nexts hs).mp hx).2
  have hdown : ∀ x ∈ (sides s target).2, x ∉ (sides s target).1 := fun x hx hx' => hup x hx' hx
  have hstrict : ∀ {l}, l.Nodup → (Before l u v ↔ u ≠ v ∧ (u = v ∨ Before l u v)) := fun hl =>
    ⟨fun h => ⟨h.ne hl, .inr h⟩, fun h => h.2.resolve_left h.1⟩
  by_cases hau : s.Above target u
  · have hun := (mem_nexts hs).mpr ⟨hu, hau⟩
    by_cases hav : s.Above target v
    · have hvn := (mem_nexts hs).mpr ⟨hv, hav⟩
      rw [gotFirst_same (iff_of_true hau hav), passed_same hup hun hvn, onWay_up hs hvn, ← hstrict hnexts]
    · have hvp := (mem_prevs hs).mpr ⟨hv, hav⟩
      rw [gotFirst_other (iff_of_true hau hav), passed_other hup hun hvp]
      simp [Outreached, onWay_up hs hun, onWay_down hs hvp, hun, hvp]
  · have hup' := (mem_prevs hs).mpr ⟨hu, hau⟩
    rw [passed_comm]
    by_cases hav : s.Above target v
    · have hvn := (mem_nexts hs).mpr ⟨hv, hav⟩
      rw [gotFirst_other (iff_of_false hau (not_not.mpr hav)), passed_other hdown hup' hvn]
      simp [Outreached, onWay_down hs hup', onWay_up hs hvn, hup', hvn]
    · have hvp := (mem_prevs hs).mpr ⟨hv, hav⟩
      rw [gotFirst_same (iff_of_false hau hav), passed_same hdown hup' hvp, onWay_down hs hvp, ← hstrict hprevs]

/-! ## The answer -/

theorem distanceTo_inj (hs : Wired s) (hip6 : s.WorkedOut) (hn : n ∈ s.nodeTree) (hm : m ∈ s.nodeTree)
    (h : distanceTo C s target n = distanceTo C s target m) : n = m := by
  obtain ⟨node, hget, hlength⟩ := hs.listed.node n hn
  obtain ⟨node', hget', hlength'⟩ := hs.listed.node m hm
  have hprefix : node.address.getPrefix C = node.address := if_neg (hip6 n hn node hget)
  have hprefix' : node'.address.getPrefix C = node'.address := if_neg (hip6 m hm node' hget')
  rw [distanceTo_eq hget, distanceTo_eq hget', hprefix, hprefix'] at h
  exact hs.listed.ip6_inj hn hm hget hget' (Address.distance_inj hlength hlength' h)

theorem Acceptable.cases (h : s.Acceptable compatVer n) :
    n ≠ s.selfNode ∧ ∃ node, s.nodes.get? n = some node ∧ node.address.path ≠ UINT64_MAX := by
  obtain ⟨_, h⟩ := h
  obtain ⟨node, hnode, h⟩ := bind_inv h
  split at h
  · cases h
  next hpath =>
    split at h
    · cases h
    · split at h
      · cases h
      next hself => exact ⟨hself, node, node_eq_ret.mp hnode, hpath⟩

theorem cloneAnswers_eq (hs : Wired s) (hrouted : Routed s) {nodes} (h : ∀ n ∈ nodes, s.Acceptable compatVer n) :
    cloneAnswers s nodes = .ret nodes := by
  induction nodes with
  | nil => rfl
  | cons n nodes ih =>
    obtain ⟨hn, hnodes⟩ := forall_mem_cons.mp h
    obtain ⟨hself, node, hget, hpath⟩ := hn.cases
    have hagrees := hrouted.agrees n hn.1 hself node hget
    obtain ⟨l, hl⟩ : ∃ l, node.bestParent = some l := by
      cases hbest : node.bestParent with
      | none =>
        rw [Agrees, hbest] at hagrees
        exact absurd hagrees.2 hpath
      | some l => exact ⟨l, rfl⟩
    obtain ⟨k, _, hk, _⟩ := hs.selfLink
    have hpos := (hrouted.spells hs hk hget hl).2.pos
    have hne : node.address.path ≠ 0 := fun heq => by
      rw [heq] at hpos
      exact absurd hpos (Nat.lt_irrefl 0)
    have hlt : node.address.path < 1#64 <<< 63 :=
      BitVec.lt_def.mpr ((hrouted.path_lt hs hget hl hself).trans (by decide))
    rw [cloneAnswers, node_eq_ret.mpr hget, ret_bind, assertTrue_bind (decide_eq_true hne),
      assertTrue_bind (decide_eq_true hlt), ih hnodes]
    rfl

/-- The nodes that may be answered with, in the order one gets at them. -/
def candidates (C : Crypto) (s : NodeStore) (target : Address) (compatVer : Nat) : List NodeId :=
  (merged (distanceTo C s target) (sides s target).1 (sides s target).2).filter (accepts s compatVer)

theorem sides_nodup (hs : Wired s) : ((sides s target).1 ++ (sides s target).2).Nodup := by
  have hnodup := hs.listed.nodup
  rw [(@sides_split s target hs).1] at hnodup
  exact nodup_append_comm.mp (hnodup.perm ((reverse_perm _).append_right _))

theorem mem_candidates (hs : Wired s) : n ∈ candidates C s target compatVer ↔ s.Acceptable compatVer n := by
  unfold candidates
  rw [mem_filter, mem_merged, ← mem_nodeTree_iff hs, acceptable_iff hs]

theorem sides_distance (hs : Wired s) (hip6 : s.WorkedOut) :
    ∀ a ∈ (sides s target).1, ∀ b ∈ (sides s target).2, distanceTo C s target a ≠ distanceTo C s target b := by
  intro a ha b hb heq
  have hab := distanceTo_inj hs hip6 ((mem_nexts hs).mp ha).1 ((mem_prevs hs).mp hb).1 heq
  exact not_above_of_mem hs hb (hab ▸ ((mem_nexts hs).mp ha).2)

theorem before_candidates (hs : Wired s) (hip6 : s.WorkedOut) : Before (candidates C s target compatVer) u v ↔
    s.Acceptable compatVer u ∧ s.Acceptable compatVer v ∧ GotFirst C s target u v := by
  have hbefore : Before (candidates C s target compatVer) u v ↔ accepts s compatVer u ∧ accepts s compatVer v ∧
      Passed (distanceTo C s target) (sides s target).1 (sides s target).2 u v := by
    rw [candidates, before_filter, before_merged_iff (sides_nodup hs) (sides_distance hs hip6)]
  constructor
  · intro h
    have hu := (mem_candidates hs).mp h.mem.1
    have hv := (mem_candidates hs).mp h.mem.2
    exact ⟨hu, hv, (passed_iff hs hu.1 hv.1).mp (hbefore.mp h).2.2⟩
  · rintro ⟨hu, hv, h⟩
    exact hbefore.mpr ⟨((acceptable_iff hs).mp hu).2, ((acceptable_iff hs).mp hv).2, (passed_iff hs hu.1 hv.1).mpr h⟩

theorem getClosestNodes_eq (hs : Wired s) (hrouted : Routed s) (hip6 : s.WorkedOut) (count : BitVec 32) :
    getClosestNodes C s target count compatVer =
      .ret ((candidates C s target compatVer).take ((count - 1).toInt + 1).toNat).reverse := by
  have hlength : (sides s target).1.length + (sides s target).2.length = s.nodeTree.length := by
    rw [(@sides_split s target hs).1, length_append, length_reverse, Nat.add_comm]
  have hrun : answersFrom C s target compatVer (s.nodeTree.length + 1) (count - 1).toInt (sides s target).1
      (sides s target).2 [] = .ret ((candidates C s target compatVer).take ((count - 1).toInt + 1).toNat).reverse := by
    rw [answersFrom_eq hs (by omega) (fun n hn => ((mem_nexts hs).mp hn).1) (fun n hn => ((mem_prevs hs).mp hn).1)
      (sides_distance hs hip6), filled, append_nil]
    rfl
  unfold getClosestNodes
  dsimp only
  rw [hrun]
  exact cloneAnswers_eq hs hrouted fun n hn => (mem_candidates hs).mp (mem_of_mem_take (mem_reverse.mp hn))

end

section
variable {C : Crypto} {paranoia : Bool} {s : NodeStore}

theorem slots_eq (count : BitVec 32) :
    ((count - 1).toInt + 1).toNat = if count.toNat ≤ 2 ^ 31 then count.toNat else 0 := by
  have hsub : (count - 1).toNat = (2 ^ 32 - 1 + count.toNat) % 2 ^ 32 := BitVec.toNat_sub ..
  rw [BitVec.toInt_eq_toNat_cond]
  split_ifs <;> omega

/-- The answer is the one meant exactly if one can count down from `count`, or there is nothing to be found, and if a
node that one gets at before a closer one comes after `count` others. -/
theorem getClosestNodes_iff (hs : Reachable C paranoia s) (hip6 : s.WorkedOut) (target : Address) (count : BitVec 32)
    (compatVer : Nat) :
    (∃ nodes, getClosestNodes C s target count compatVer = .ret nodes ∧
      Least (distanceTo C s target) count.toNat (s.Acceptable compatVer) nodes) ↔
    (count.toNat ≤ 2 ^ 31 ∨ ∀ n, ¬ s.Acceptable compatVer n) ∧
      ∀ u v, s.Acceptable compatVer u → s.Acceptable compatVer v → GotFirst C s target u v →
        distanceTo C s target v < distanceTo C s target u →
        ∃ ws : List NodeId, ws.Nodup ∧ ws.length = count.toNat ∧ ∀ w ∈ ws, s.Acceptable compatVer w ∧ GotFirst C s target w u := by
  have hw := hs.sound.wired
  have hnodup : (candidates C s target compatVer).Nodup := (nodup_merged (sides_nodup hw)).filter _
  have hmem : ∀ n, n ∈ candidates C s target compatVer ↔ s.Acceptable compatVer n := fun n => mem_candidates hw
  have hinj : ∀ u ∈ candidates C s target compatVer, ∀ v ∈ candidates C s target compatVer,
      distanceTo C s target u = distanceTo C s target v → u = v := fun u hu v hv =>
    distanceTo_inj hw hip6 ((hmem u).mp hu).1 ((hmem v).mp hv).1
  rw [getClosestNodes_eq hw hs.routed hip6, slots_eq]
  simp only [Er.ret.injEq, exists_eq_left']
  split
  next hcount =>
    rw [and_iff_right (.inl hcount)]
    constructor
    · intro h u v hu hv hfirst hlt
      obtain ⟨ws, hws, hlength, hall⟩ := (least_take_iff hnodup hinj).mp (h.congr hmem) u v
        ((before_candidates hw hip6).mpr ⟨hu, hv, hfirst⟩) hlt
      refine ⟨ws, hws, hlength, fun w hin => ?_⟩
      obtain ⟨hacc, _, hgot⟩ := (before_candidates hw hip6).mp (hall w hin)
      exact ⟨hacc, hgot⟩
    · intro h
      refine Least.congr ((least_take_iff hnodup hinj).mpr fun u v hbefore hlt => ?_) fun n => (hmem n).symm
      obtain ⟨hu, hv, hfirst⟩ := (before_candidates hw hip6).mp hbefore
      obtain ⟨ws, hws, hlength, hall⟩ := h u v hu hv hfirst hlt
      exact ⟨ws, hws, hlength, fun w hin => (before_candidates hw hip6).mpr ⟨(hall w hin).1, hu, (hall w hin).2⟩⟩
  next hcount =>
    rw [take_zero, reverse_nil]
    constructor
    · intro h
      have hnone : ∀ n, ¬ s.Acceptable compatVer n := fun n hn => by
        have hlength := (h.rest n hn not_mem_nil).1
        rw [length_nil] at hlength
        omega
      exact ⟨.inr hnone, fun u _ hu => absurd hu (hnone u)⟩
    · rintro ⟨hnone, _⟩
      exact Least.congr .nil fun n => iff_of_false (hnone.resolve_left hcount n) id

/-- Of hosts 4, 8 and 16 the two closest to host 3 are found, the farther one first. -/
theorem getClosestNodes_iff_three_peers : ∃ s, Reachable Symbolic.crypto true s ∧ s.WorkedOut ∧ s.Acceptable 20 3 ∧
    getClosestNodes Symbolic.crypto s (host 3 0) 2 20 = .ret [2, 1] ∧
    Least (distanceTo Symbolic.crypto s (host 3 0)) 2 (s.Acceptable 20) [2, 1] := by
  obtain ⟨s, hs⟩ : (history true 128 4096 [.discoverNode (host 4 0x13) .v358 0, .discoverNode (host 8 0x15) .v358 0,
    .discoverNode (host 16 0x17) .v358 0]).Returns := ⟨_, rfl⟩
  have hreachable := Reachable.of_history (by decide) (by decide) hs
  obtain ⟨hip6, hpeer, hanswer, htree, hself, habove, hrises⟩ : s.WorkedOut ∧ s.Acceptable 20 3 ∧
      getClosestNodes Symbolic.crypto s (host 3 0) 2 20 = .ret [2, 1] ∧ s.nodeTree = [0, 1, 2, 3] ∧ s.selfNode = 0 ∧
      (∀ n ∈ [1, 2, 3], sortKey (host 3 0) ≤ s.keyOf n) ∧ ∀ u ∈ [1, 2, 3], ∀ v ∈ [1, 2, 3],
        distanceTo Symbolic.crypto s (host 3 0) v < distanceTo Symbolic.crypto s (host 3 0) u →
        ¬ s.keyOf u ≤ s.keyOf v := by
    cases hs
    exact ⟨by decide, ⟨by decide, rfl⟩, rfl, rfl, rfl, by decide, by decide⟩
  have hpeers : ∀ n, s.Acceptable 20 n → n ∈ [1, 2, 3] := fun n hn => by
    have hmem := hn.1
    have hne := hn.cases.1
    rw [htree] at hmem
    rw [hself] at hne
    exact (mem_cons.mp hmem).resolve_left hne
  obtain ⟨nodes, hrun, hleast⟩ := (getClosestNodes_iff hreachable hip6 (host 3 0) 2 20).mpr
    ⟨.inl (by decide), fun u v hu hv hfirst hlt => by
      -- all are on the way up, the closer ones first
      have hup : s.Above (host 3 0) v := .inl (habove v (hpeers v hv))
      rcases hfirst with ⟨-, -, ⟨-, -, hle⟩ | ⟨hdown, -⟩⟩ | ⟨hsides, -⟩
      · exact absurd hle (hrises u (hpeers u hu) v (hpeers v hv) hlt)
      · exact absurd hup hdown
      · exact absurd hup (hsides.mp (.inl (habove u (hpeers u hu))))⟩
  cases hanswer.symm.trans hrun
  exact ⟨s, hreachable, hip6, hpeer, hanswer, hleast⟩

/-- From the place of host 3 one gets at host 4 first, but host 5 is closer to it. -/
theorem getClosestNodes_farther : ∃ s, Reachable Symbolic.crypto true s ∧ s.WorkedOut ∧
    getClosestNodes Symbolic.crypto s (host 3 0) 1 20 = .ret [1] ∧ s.Acceptable 20 1 ∧ s.Acceptable 20 2 ∧
    distanceTo Symbolic.crypto s (host 3 0) 2 < distanceTo Symbolic.crypto s (host 3 0) 1 := by
  obtain ⟨s, hs⟩ : (history true 128 4096 [.discoverNode (host 4 0x13) .v358 0, .discoverNode (host 5 0x15) .v358 0]).Returns :=
    ⟨_, rfl⟩
  have hreachable := Reachable.of_history (by decide) (by decide) hs
  cases hs
  exact ⟨_, hreachable, by decide, rfl, ⟨by decide, rfl⟩, ⟨by decide, rfl⟩, by decide⟩

end

end NodeStore

end Hyperboria
