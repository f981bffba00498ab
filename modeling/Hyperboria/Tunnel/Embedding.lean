/-
IPv4 prefixes as the top 32 bits of IPv6 prefixes. The functions on single prefixes of the two
families agree along that map, and so do the functions on lists, which are written over a `Family`.
-/
import Hyperboria.Tunnel.RouteGen

namespace Hyperboria.RouteGen

open BitVec List Function

/-- The functions of two families agree along a map. -/
structure Family.Agrees {α β : Type} (F : Family α) (G : Family β) (f : α → β) : Prop where
  prefixLen_eq : ∀ a, G.prefixLen (f a) = F.prefixLen a
  compare_eq : ∀ a b, G.compare (f a) (f b) = F.compare a b
  invert_eq : ∀ a, G.invert (f a) = (F.invert a).map f
  isSubsetOf_eq : ∀ a b, G.isSubsetOf (f a) (f b) = F.isSubsetOf a b
  target_eq : ∀ a, G.target (f a) = f (F.target a)

/-! ## Lists of prefixes -/

namespace Family.Agrees

variable {α β : Type} {F : Family α} {G : Family β} {f : α → β} (h : F.Agrees G f) (prefixes list : List α)

include h

theorem sort_map : sort G (list.map f) = (sort F list).map f :=
  (map_insertionSort _ _ f list fun a _ b _ => by rw [h.compare_eq]).symm

theorem highestPrefix_map : highestPrefix G (list.map f) = (highestPrefix F list).map f := by
  suffices hfold : ∀ highest : Option α, (list.map f).foldl _ (highest.map f) = (list.foldl _ highest).map f from hfold none
  induction list with
  | nil => exact fun _ => rfl
  | cons a list ih =>
    intro highest
    rw [map_cons, foldl_cons, foldl_cons, ← ih]
    cases highest with
    | none => rfl
    | some b =>
      dsimp [Option.map_some]
      rw [h.prefixLen_eq, h.prefixLen_eq, apply_ite (Option.map f)]
      rfl

theorem addPrefixes_map : addPrefixes G (prefixes.map f) (list.map f) = (addPrefixes F prefixes list).map f := by
  unfold addPrefixes
  induction prefixes generalizing list with
  | nil => rfl
  | cons a prefixes ih =>
    rw [map_cons, foldl_cons, foldl_cons, ← ih]
    simp only [includeUnless, any_map, comp_def, h.isSubsetOf_eq]
    split
    · rfl
    · rw [map_append]
      rfl

theorem subsetsOf_map : subsetsOf G (prefixes.map f) (list.map f) = (subsetsOf F prefixes list).map f := by
  simp [subsetsOf, filter_map, comp_def, h.isSubsetOf_eq]

theorem effectiveLocalPrefixes_map :
    effectiveLocalPrefixes G (prefixes.map f) (list.map f) = (effectiveLocalPrefixes F prefixes list).map f := by
  simp [effectiveLocalPrefixes, filter_map, comp_def, h.isSubsetOf_eq]

theorem mergePrefixSets_map : mergePrefixSets G (list.map f) (prefixes.map f) =
    mergePrefixSets F list prefixes >>= fun out => .ret (out.map f) := by
  unfold mergePrefixSets
  rw [h.highestPrefix_map]
  cases highestPrefix F prefixes with
  | none => rfl
  | some highest =>
    simp only [Option.map_some, filter_map, comp_def, h.target_eq, h.isSubsetOf_eq]
    exact congrArg Er.ret (h.addPrefixes_map prefixes _)

theorem mergeExceptions_map (exceptions : List α) :
    mergeExceptions G (mergePrefixSets G) (prefixes.map f) (list.map f) (exceptions.map f) =
      mergeExceptions F (mergePrefixSets F) prefixes list exceptions >>= fun out => .ret (out.map f) := by
  induction exceptions generalizing list with
  | nil => rfl
  | cons e exceptions ih =>
    simp only [map_cons, mergeExceptions, any_map, comp_def, h.isSubsetOf_eq, h.invert_eq,
      h.mergePrefixSets_map]
    split
    · exact ih list
    · cases mergePrefixSets F list (F.invert e) with
      | ret out => exact ih out
      | abort message => rfl
      | spin => rfl

end Family.Agrees

/-! ## The embedding -/

/-- The word as the top half of another. -/
def high (x : BitVec 32) : BitVec 64 := x.setWidth 64 <<< 32

def embed (p : Prefix4) : Prefix6 := ⟨high p.bits, 0, p.prefixLen, p.prefixLen_le.trans (by decide)⟩

variable {x y : BitVec 32} {i n : Nat}

theorem toNat_high : (high x).toNat = x.toNat * 2 ^ 32 := by
  simp only [high, toNat_shiftLeft, toNat_setWidth]
  omega

theorem high_inj : high x = high y ↔ x = y := by
  rw [← toNat_inj, ← toNat_inj, toNat_high, toNat_high]
  omega

theorem high_lt : high x < high y ↔ x < y := by
  rw [lt_def, lt_def, toNat_high, toNat_high]
  omega

theorem high_ushiftRight (hn : n ≤ 32) : high x >>> (64 - n) = high y >>> (64 - n) ↔ x >>> (32 - n) = y >>> (32 - n) := by
  have hshift : ∀ z : BitVec 32, (high z >>> (64 - n)).toNat = (z >>> (32 - n)).toNat := by
    intro z
    rw [toNat_ushiftRight, toNat_high, ← Nat.shiftLeft_eq, show 64 - n = 32 + (32 - n) by omega,
      Nat.shiftRight_add, Nat.shiftLeft_shiftRight, toNat_ushiftRight]
  rw [← toNat_inj, ← toNat_inj, hshift, hshift]

theorem high_turn : high (x ^^^ (1#32 <<< i)) = high x ^^^ (1#64 <<< (32 + i)) := by
  apply eq_of_getLsbD_eq
  intro k hk
  simp only [high, getLsbD_xor, getLsbD_shiftLeft, getLsbD_one]
  grind

theorem high_mask : high (x &&& (BitVec.allOnes 32 <<< i)) = high x &&& (BitVec.allOnes 64 <<< (32 + i)) := by
  apply eq_of_getLsbD_eq
  intro k hk
  simp only [high, getLsbD_and, getLsbD_shiftLeft, getLsbD_setWidth, getLsbD_allOnes]
  grind

theorem invertPrefix6_embed (p : Prefix4) : invertPrefix6 (embed p) = (invertPrefix4 p).map embed := by
  have hlen := p.prefixLen_le
  have hrange : range' (128 - p.prefixLen) p.prefixLen =
      (range' (32 - p.prefixLen) p.prefixLen).map (96 + ·) := by
    rw [map_add_range', show 128 - p.prefixLen = 96 + (32 - p.prefixLen) by omega]
  unfold invertPrefix6 invertPrefix4
  rw [show (embed p).prefixLen = p.prefixLen from rfl, hrange, map_map, map_map]
  refine map_congr_left fun i hi => ?_
  dsimp only [comp_apply, embed]
  rw [if_pos (by omega), Prefix6.mk.injEq, high_turn, high_mask, show 96 + i - 64 = 32 + i by omega]
  exact ⟨rfl, rfl, by omega⟩

theorem isSubsetOf6_embed (a b : Prefix4) : isSubsetOf6 (embed a) (embed b) = isSubsetOf4 a b := by
  have hlen := b.prefixLen_le
  simp only [isSubsetOf4, isSubsetOf6, embed, high_ushiftRight hlen]
  rw [if_neg (show ¬ b.prefixLen > 64 by omega)]
  split_ifs <;> simp_all

theorem target6_embed (p : Prefix4) : target6 (embed p) = embed (target4 p) := by
  have hlen := p.prefixLen_le
  unfold target4 target6 embed
  dsimp only
  rw [if_neg (by omega)]
  split
  · rw [Prefix6.mk.injEq, high_turn, show 32 + (32 - p.prefixLen) = 64 - p.prefixLen by omega]
    exact ⟨rfl, rfl, rfl⟩
  · rw [Prefix6.mk.injEq]
    exact ⟨congrArg high xor_zero.symm, rfl, rfl⟩

theorem agrees_embed : family4.Agrees family6 embed where
  prefixLen_eq _ := rfl
  compare_eq a b := by
    simp only [family6, comparePrefixes6, embed, ne_eq, high_inj, high_lt]
    rfl
  invert_eq := invertPrefix6_embed
  isSubsetOf_eq := isSubsetOf6_embed
  target_eq := target6_embed

end Hyperboria.RouteGen
