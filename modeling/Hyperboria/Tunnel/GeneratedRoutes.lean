/-
What the generated routes lead to. A prefix is the bits it fixes, read from the top
(`bitsOf`), so that the routines of both families are the operations of `Prefixes` on
bit strings: merging an inverted exception is cutting it out, adding a prefix is
placing it.

`generated_iff` says for which configurations the routes are what the configuration
says: the prefixes without the exceptions that count.
-/
import Hyperboria.Prefixes
import Hyperboria.Tunnel.Embedding

namespace Hyperboria.RouteGen

open Prefixes List Nat

/-! ## Prefixes as bit strings -/

/-- The first `n` bits of a word, from the top. -/
def bitsOf {w : Nat} (x : BitVec w) (n : Nat) : List Bool := (List.range n).map x.getMsbD

section
variable {w : Nat} {x y : BitVec w} {n m : Nat}

@[simp] theorem length_bitsOf : (bitsOf x n).length = n := by simp [bitsOf]

theorem bitsOf_succ : bitsOf x (n + 1) = bitsOf x n ++ [x.getMsbD n] := by simp [bitsOf, range_succ]

theorem bitsOf_eq_iff : bitsOf x n = bitsOf y n ↔ ∀ k < n, x.getMsbD k = y.getMsbD k := by
  simp [bitsOf]

theorem bitsOf_prefix_iff : bitsOf x n <+: bitsOf y m ↔ n ≤ m ∧ ∀ k < n, x.getMsbD k = y.getMsbD k := by
  rw [← bitsOf_eq_iff]
  constructor
  · intro h
    have hle : n ≤ m := by simpa using h.length_le
    have htake := prefix_iff_eq_take.mp h
    refine ⟨hle, htake.trans ?_⟩
    simp [bitsOf, ← map_take, min_eq_left hle]
  · intro h
    obtain ⟨hle, heq⟩ := h
    rw [heq, prefix_iff_eq_take]
    simp [bitsOf, ← map_take, min_eq_left hle]

theorem sibling_bitsOf (hsame : ∀ k < n, y.getMsbD k = x.getMsbD k) (hlast : y.getMsbD n = !x.getMsbD n) :
    bitsOf y (n + 1) = sibling (bitsOf x (n + 1)) := by
  rw [bitsOf_succ, bitsOf_succ, sibling_concat, hlast, bitsOf_eq_iff.mpr hsame]

theorem ushiftRight_eq_iff (hn : n ≤ w) :
    x >>> (w - n) = y >>> (w - n) ↔ ∀ k < n, x.getMsbD k = y.getMsbD k := by
  constructor
  · intro h k hk
    have hbit := congrArg (fun z => z.getLsbD (n - 1 - k)) h
    simp only [BitVec.getLsbD_ushiftRight] at hbit
    rw [BitVec.getMsbD_eq_getLsbD, BitVec.getMsbD_eq_getLsbD]
    rw [show w - n + (n - 1 - k) = w - 1 - k by omega] at hbit
    rw [hbit]
  · intro h
    apply BitVec.eq_of_getLsbD_eq
    intro i hi
    rw [BitVec.getLsbD_ushiftRight, BitVec.getLsbD_ushiftRight]
    by_cases hin : i < n
    · have hbit := h (n - 1 - i) (by omega)
      rw [BitVec.getMsbD_eq_getLsbD, BitVec.getMsbD_eq_getLsbD] at hbit
      rw [show w - 1 - (n - 1 - i) = w - n + i by omega] at hbit
      simpa [show n - 1 - i < w by omega] using hbit
    · rw [BitVec.getLsbD_of_ge _ _ (by omega), BitVec.getLsbD_of_ge _ _ (by omega)]

theorem exists_bitsOf {bits} (h : bits.length = w) : ∃ addr : BitVec w, bitsOf addr w = bits := by
  subst h
  refine ⟨BitVec.ofBoolListBE bits, ext_getElem (by simp) ?_⟩
  intro i hi hi'
  simp [bitsOf, getElem?_eq_getElem hi']

end

section
variable {w : Nat} {x : BitVec w} {i k : Nat}

theorem getMsbD_one_shiftLeft (hi : i < w) (hk : k < w) : (1#w <<< i).getMsbD k = decide (k + i + 1 = w) := by
  rw [Bool.eq_iff_iff]
  simp
  omega

theorem getMsbD_turn (hi : i < w) (hk : k < w) :
    (x ^^^ (1#w <<< i)).getMsbD k = (x.getMsbD k ^^ decide (k + i + 1 = w)) := by
  rw [BitVec.getMsbD_xor, getMsbD_one_shiftLeft hi hk]

theorem getMsbD_invert (hk : k + i < w) :
    ((x &&& (BitVec.allOnes w <<< i)) ^^^ (1#w <<< i)).getMsbD k = (x.getMsbD k ^^ decide (k + i + 1 = w)) := by
  rw [getMsbD_turn (by omega) (by omega), BitVec.getMsbD_and]
  have hmask : (BitVec.allOnes w <<< i).getMsbD k = true := by
    simp
    omega
  rw [hmask, Bool.and_true]

/-- Words that have the bit `i` turned and those above it kept, for each `i`, are the siblings of a prefix. -/
theorem map_bitsOf_siblings {p} (hp : p ≤ w) {inverted : Nat → BitVec w}
    (h : ∀ i k, k + i < w → (inverted i).getMsbD k = (x.getMsbD k ^^ decide (k + i + 1 = w))) :
    ((List.range' (w - p) p).map fun i => bitsOf (inverted i) (w - i)) = siblings (bitsOf x p) := by
  apply ext_getElem
  · simp [siblings]
  · intro j hj hj'
    have hjp : j < p := by simpa using hj
    have hlen : w - (w - p + j) = p - 1 - j + 1 := by omega
    have htake : (bitsOf x p).take (p - 1 - j + 1) = bitsOf x (p - 1 - j + 1) := by
      simp only [bitsOf, ← map_take, take_range]
      rw [Nat.min_eq_left (by omega)]
    simp only [siblings, getElem_map, getElem_range', getElem_reverse, getElem_range, Nat.one_mul,
      length_range, length_bitsOf]
    rw [hlen, htake]
    apply sibling_bitsOf
    · intro k hk
      rw [h _ _ (by omega), decide_eq_false (by omega), Bool.xor_false]
    · rw [h _ _ (by omega), decide_eq_true (by omega), Bool.xor_true]

end

/-! ## The two families -/

/-- The functions of a family do on bit strings what their names say. -/
structure Family.Lawful {α : Type} (F : Family α) (path : α → List Bool) : Prop where
  prefixLen_eq : ∀ a, F.prefixLen a = (path a).length
  isSubsetOf_iff : ∀ a b, F.isSubsetOf a b = true ↔ path b <+: path a
  invert_eq : ∀ e, (F.invert e).map path = siblings (path e)
  target_eq : ∀ s, path s ≠ [] → path (F.target s) = sibling (path s)

def Prefix4.path (p : Prefix4) : List Bool := bitsOf p.bits p.prefixLen

/-- The two words of a prefix as one. -/
def Prefix6.bits (p : Prefix6) : BitVec 128 := p.highBits ++ p.lowBits

def Prefix6.path (p : Prefix6) : List Bool := bitsOf p.bits p.prefixLen

theorem getMsbD_bits (p : Prefix6) (k : Nat) :
    p.bits.getMsbD k = if k < 64 then p.highBits.getMsbD k else p.lowBits.getMsbD (k - 64) := by
  unfold Prefix6.bits
  rw [BitVec.getMsbD_append]
  by_cases h : k < 64
  · simp [not_le.mpr h]
  · simp [not_lt.mp h]

/-- The bits below the middle are those of the high word, the others those of the low one. -/
theorem forall_getMsbD_bits {a b : Prefix6} {n} :
    (∀ k < n, b.bits.getMsbD k = a.bits.getMsbD k) ↔
      (∀ k < min n 64, b.highBits.getMsbD k = a.highBits.getMsbD k) ∧
        ∀ k < n - 64, b.lowBits.getMsbD k = a.lowBits.getMsbD k := by
  simp only [getMsbD_bits]
  constructor
  · intro h
    refine ⟨fun k hk => ?_, fun k hk => ?_⟩
    · have hbit := h k (by omega)
      rwa [if_pos (by omega), if_pos (by omega)] at hbit
    · have hbit := h (k + 64) (by omega)
      rwa [if_neg (by omega), if_neg (by omega), Nat.add_sub_cancel] at hbit
  · intro h k hk
    split
    next hhigh => exact h.1 k (by omega)
    next hlow => exact h.2 (k - 64) (by omega)

theorem isSubsetOf6_iff (a b : Prefix6) : isSubsetOf6 a b = true ↔ b.path <+: a.path := by
  have hlen := b.prefixLen_le
  unfold Prefix6.path
  rw [bitsOf_prefix_iff, forall_getMsbD_bits]
  unfold isSubsetOf6
  split
  next hlt => simp [not_le.mpr hlt]
  next hle =>
  have hle := not_lt.mp hle
  rw [and_iff_right hle]
  split
  next h64 =>
    have hhigh : b.highBits = a.highBits ↔ ∀ k < 64, b.highBits.getMsbD k = a.highBits.getMsbD k := by
      rw [← ushiftRight_eq_iff (le_refl 64)]
      simp
    have hlow := @ushiftRight_eq_iff 64 b.lowBits a.lowBits (b.prefixLen - 64) (by omega)
    rw [show 64 - (b.prefixLen - 64) = 128 - b.prefixLen by omega] at hlow
    rw [min_eq_right (by omega), ← hhigh, ← hlow]
    simp
  next h64 =>
    have hsmall : b.prefixLen - 64 = 0 := by omega
    have hhigh := @ushiftRight_eq_iff 64 b.highBits a.highBits b.prefixLen (by omega)
    rw [min_eq_left (by omega), hsmall]
    split
    next h0 => simp [← hhigh]
    next h0 => simp [show b.prefixLen = 0 by omega]

theorem lawful6 : family6.Lawful Prefix6.path where
  prefixLen_eq a := length_bitsOf.symm
  isSubsetOf_iff := isSubsetOf6_iff
  invert_eq e := by
    rw [show family6.invert = invertPrefix6 from rfl, invertPrefix6, map_map]
    -- one word for each of the two branches
    let inverted : Nat → BitVec 128 := fun i =>
      if i ≥ 64 then ((e.highBits &&& (BitVec.allOnes 64 <<< (i - 64))) ^^^ (1#64 <<< (i - 64))) ++ 0#64
      else e.highBits ++ ((e.lowBits &&& (BitVec.allOnes 64 <<< i)) ^^^ (1#64 <<< i))
    have hbits : ∀ i k, k + i < 128 → (inverted i).getMsbD k = (e.bits.getMsbD k ^^ decide (k + i + 1 = 128)) := by
      intro i k hk
      rw [getMsbD_bits]
      dsimp only [inverted]
      split
      next hi =>
        have hhigh : k < 64 := by omega
        rw [BitVec.getMsbD_append, if_neg (by omega), if_pos hhigh, getMsbD_invert (by omega)]
        simp
        omega
      next hi =>
        rw [BitVec.getMsbD_append]
        by_cases hhigh : k < 64
        · rw [if_neg (by omega), if_pos hhigh, decide_eq_false (by omega), Bool.xor_false]
        · rw [if_pos (by omega), if_neg hhigh, getMsbD_invert (by omega)]
          simp
          omega
    rw [Prefix6.path, ← map_bitsOf_siblings e.prefixLen_le hbits]
    apply map_congr_left
    intro i _
    dsimp [inverted]
    split
    · rfl
    · rfl
  target_eq s hs := by
    have hlen := s.prefixLen_le
    obtain ⟨n, hn⟩ : ∃ n, s.prefixLen = n + 1 := by
      refine exists_eq_succ_of_ne_zero fun h0 => hs ?_
      rw [Prefix6.path, h0]
      rfl
    have hturn : ∀ k < n + 1, (target6 s).bits.getMsbD k = (s.bits.getMsbD k ^^ decide (k = n)) := by
      intro k hk
      by_cases h64 : s.prefixLen > 64
      · rw [target6, if_pos h64, getMsbD_bits, getMsbD_bits]
        by_cases hhigh : k < 64
        · rw [if_pos hhigh, if_pos hhigh, decide_eq_false (by omega), Bool.xor_false]
        · rw [if_neg hhigh, if_neg hhigh]
          rw [getMsbD_turn (by omega) (by omega)]
          simp
          omega
      · rw [target6, if_neg h64, if_pos (show s.prefixLen ≠ 0 by omega), getMsbD_bits, getMsbD_bits,
          if_pos (by omega), if_pos (by omega)]
        rw [getMsbD_turn (by omega) (by omega)]
        simp
        omega
    have htarget : (target6 s).prefixLen = n + 1 := by
      unfold target6
      split
      · exact hn
      · split
        · exact hn
        · exact hn
    rw [show family6.target = target6 from rfl]
    unfold Prefix6.path
    rw [htarget, hn]
    apply sibling_bitsOf
    · intro k hk
      rw [hturn k (by omega), decide_eq_false (by omega), Bool.xor_false]
    · rw [hturn n (by omega), decide_eq_true rfl, Bool.xor_true]

theorem path_embed (p : Prefix4) : (embed p).path = p.path := by
  refine map_congr_left fun k hk => ?_
  rw [getMsbD_bits, BitVec.getMsbD_eq_getLsbD]
  simp only [embed, high]
  grind

theorem lawful4 : family4.Lawful Prefix4.path where
  prefixLen_eq a := length_bitsOf.symm
  isSubsetOf_iff a b := by rw [← agrees_embed.isSubsetOf_eq, lawful6.isSubsetOf_iff, path_embed, path_embed]
  invert_eq e := by
    rw [← path_embed, ← lawful6.invert_eq, agrees_embed.invert_eq, map_map]
    exact map_congr_left fun a _ => (path_embed a).symm
  target_eq s hs := by
    rw [← path_embed] at hs
    rw [← path_embed, ← agrees_embed.target_eq, lawful6.target_eq _ hs, path_embed]

/-! ## Lists of prefixes -/

section
variable {α : Type} {F : Family α} {path : α → List Bool} (hF : F.Lawful path)

/-- The bit strings of the prefixes in a list. -/
def paths (path : α → List Bool) (list : List α) : Set (List Bool) := {x | ∃ a ∈ list, path a = x}

theorem paths_nil : paths path [] = ∅ := by
  simp [paths]

variable {list : List α}

theorem mem_paths {a} (h : a ∈ list) : path a ∈ paths path list := ⟨a, h, rfl⟩

/-- None is part of one behind it. -/
def Fresh (F : Family α) (list : List α) : Prop := list.Pairwise fun a b => F.isSubsetOf a b = false

include hF

theorem paths_includeUnless (list : List α) (a : α) :
    paths path (includeUnless F list a) = place (paths path list) (path a) := by
  ext x
  by_cases hany : ∃ test ∈ list, path a <+: path test
  · have hcode : (list.any fun test => F.isSubsetOf test a) = true := by
      simpa [hF.isSubsetOf_iff] using hany
    obtain ⟨test, htest, hpre⟩ := hany
    unfold includeUnless
    rw [if_pos hcode]
    refine ⟨.inl, fun h => h.resolve_right fun hnew => ?_⟩
    exact hnew.2 _ (mem_paths htest) hpre
  · have hcode : ¬ (list.any fun test => F.isSubsetOf test a) = true := by
      simpa [hF.isSubsetOf_iff] using hany
    unfold includeUnless
    rw [if_neg hcode]
    constructor
    · intro h
      obtain ⟨b, hb, rfl⟩ := h
      cases mem_append.mp hb with
      | inl hb => exact .inl (mem_paths hb)
      | inr hb =>
        obtain rfl := mem_singleton.mp hb
        refine .inr ⟨rfl, fun t ht hpre => ?_⟩
        obtain ⟨test, htest, rfl⟩ := ht
        exact hany ⟨test, htest, hpre⟩
    · intro h
      cases h with
      | inl h =>
        obtain ⟨b, hb, rfl⟩ := h
        exact mem_paths (mem_append_left _ hb)
      | inr h =>
        rw [h.1]
        exact mem_paths (mem_append_right _ mem_cons_self)

theorem paths_foldl_includeUnless (prefixes list : List α) :
    paths path (prefixes.foldl (includeUnless F) list) = placeAll (paths path list) (prefixes.map path) := by
  induction prefixes generalizing list with
  | nil => rfl
  | cons a prefixes ih =>
    rw [foldl_cons, ih, paths_includeUnless hF]
    rfl

theorem highestPrefix_invert {e} (he : path e ≠ []) :
    ∃ s, highestPrefix F (F.invert e) = some s ∧ path s = sibling (path e) := by
  have hinvert := hF.invert_eq e
  obtain ⟨y, b, hy⟩ := eq_concat he
  cases hlist : F.invert e with
  | nil =>
    rw [hlist, hy, siblings_concat] at hinvert
    cases hinvert
  | cons s rest =>
    have hfirst : path s = sibling (path e) := by
      rw [hlist, hy, siblings_concat] at hinvert
      rw [hy, sibling_concat]
      exact (List.cons.inj hinvert).1
    have hle : ∀ r ∈ rest, F.prefixLen r ≤ F.prefixLen s := by
      intro r hr
      have hmem : path r ∈ siblings (path e) := by
        rw [← hinvert, hlist]
        exact mem_map_of_mem (mem_cons_of_mem _ hr)
      have hlen := (mem_siblings.mp hmem).2.length_le
      rw [hF.prefixLen_eq, hF.prefixLen_eq, hfirst, length_sibling]
      rwa [length_sibling] at hlen
    refine ⟨s, ?_, hfirst⟩
    have hkeep : ∀ rest : List α, (∀ r ∈ rest, F.prefixLen r ≤ F.prefixLen s) →
        highestPrefix F (s :: rest) = some s := by
      intro rest
      induction rest with
      | nil => intro _; rfl
      | cons r rest ih =>
        intro hle
        rw [← ih fun r' hr' => hle r' (mem_cons_of_mem _ hr')]
        simp only [highestPrefix, foldl_cons, if_neg (not_lt.mpr (hle r mem_cons_self))]
    exact hkeep rest hle

omit hF in
theorem fresh_foldl {prefixes : List α} (h : Fresh F list) : Fresh F (prefixes.foldl (includeUnless F) list) := by
  induction prefixes generalizing list with
  | nil => exact h
  | cons a prefixes ih =>
    refine ih ?_
    unfold includeUnless
    split
    · exact h
    · next hnone =>
      refine pairwise_append.mpr ⟨h, pairwise_singleton _ a, fun b hb c hc => ?_⟩
      rw [mem_singleton.mp hc]
      exact Bool.eq_false_iff.mpr fun hsub => hnone (any_eq_true.mpr ⟨b, hb, hsub⟩)

/-- Merging an inverted exception cuts it out. -/
theorem mergePrefixSets_invert {e} (hfresh : Fresh F list) (he : path e ≠ []) :
    ∃ out, mergePrefixSets F list (F.invert e) = .ret out ∧ Fresh F out ∧
      paths path out = exclude (paths path list) (path e) := by
  obtain ⟨s, hhighest, hs⟩ := highestPrefix_invert hF he
  have hs' : path s ≠ [] := fun h => he (length_eq_zero_iff.mp (by rw [← length_sibling, ← hs, h]; rfl))
  have htarget : path (F.target s) = path e := by rw [hF.target_eq s hs', hs, sibling_sibling]
  unfold mergePrefixSets
  rw [hhighest]
  refine ⟨_, rfl, fresh_foldl (hfresh.filter _), ?_⟩
  rw [paths_foldl_includeUnless hF, hF.invert_eq]
  congr 1
  ext x
  constructor
  · intro h
    obtain ⟨a, ha, rfl⟩ := h
    rw [mem_filter, Bool.not_eq_true', ← Bool.not_eq_true, hF.isSubsetOf_iff, htarget] at ha
    exact ⟨mem_paths ha.1, ha.2⟩
  · intro h
    obtain ⟨⟨a, ha, rfl⟩, hpre⟩ := h
    refine ⟨a, ?_, rfl⟩
    rw [mem_filter, Bool.not_eq_true', ← Bool.not_eq_true, hF.isSubsetOf_iff, htarget]
    exact ⟨ha, hpre⟩

theorem mergePrefixSets_invert_nil {e} (he : path e = []) :
    mergePrefixSets F list (F.invert e) = .abort "segmentation fault" := by
  have hinvert := hF.invert_eq e
  rw [he] at hinvert
  have hnil : F.invert e = [] := map_eq_nil_iff.mp hinvert
  rw [hnil]
  rfl

/-- The exceptions that are not in an effective local prefix are cut out one after the other; a prefix of no bits
among them ends the process. -/
theorem mergeExceptions_eq (localPrefixes exceptions : List α) (hfresh : Fresh F list) :
    let counting := exceptions.filter fun e => !localPrefixes.any fun l => F.isSubsetOf e l
    ((∀ e ∈ counting, path e ≠ []) → ∃ out, mergeExceptions F (mergePrefixSets F) localPrefixes list exceptions = .ret out ∧
      Fresh F out ∧ paths path out = (counting.map path).foldl exclude (paths path list)) ∧
    ((∃ e ∈ counting, path e = []) → ¬ (mergeExceptions F (mergePrefixSets F) localPrefixes list exceptions).Returns) := by
  induction exceptions generalizing list with
  | nil => exact ⟨fun _ => ⟨list, rfl, hfresh, rfl⟩, fun h => by simp at h⟩
  | cons e exceptions ih =>
    unfold mergeExceptions
    cases hlocal : localPrefixes.any fun l => F.isSubsetOf e l with
    | true =>
      simp only [filter_cons, hlocal]
      exact ih hfresh
    | false =>
      simp only [filter_cons, hlocal, Bool.not_false, Bool.false_eq_true, if_false, if_true, map_cons,
        foldl_cons, forall_mem_cons, exists_mem_cons_iff]
      by_cases he : path e = []
      · rw [mergePrefixSets_invert_nil hF he]
        refine ⟨fun h => absurd he h.1, fun _ => ?_⟩
        simp
      · obtain ⟨merged, hmerged, hfresh, hpaths⟩ := mergePrefixSets_invert hF hfresh he
        rw [hmerged, ← hpaths]
        exact ⟨fun h => (ih hfresh).1 h.2, fun h => (ih hfresh).2 (h.resolve_left he)⟩

theorem incomparable {es} (hfresh : Fresh F list) (hlist : paths path list = excludeAll es) :
    list.Pairwise fun a b => F.isSubsetOf a b = false ∧ F.isSubsetOf b a = false := by
  refine hfresh.imp_of_mem fun {a b} ha hb hab => ⟨hab, Bool.eq_false_iff.mpr fun hba => ?_⟩
  have hpre := (hF.isSubsetOf_iff b a).mp hba
  have heq := eq_of_mem_excludeAll (hlist ▸ mem_paths ha) (hlist ▸ mem_paths hb) hpre
  refine Bool.eq_false_iff.mp hab ((hF.isSubsetOf_iff a b).mpr ?_)
  rw [heq]

omit hF in
/-- Where none is part of another, the loop that looks for duplicates takes nothing away. -/
theorem removeSubsets_eq_self (h : list.Pairwise fun a b => F.isSubsetOf a b = false ∧ F.isSubsetOf b a = false) :
    removeSubsets F list = list := by
  induction list with
  | nil => rfl
  | cons a rest ih =>
    obtain ⟨ha, hrest⟩ := pairwise_cons.mp h
    rw [removeSubsets, ih hrest]
    cases rest with
    | nil => rfl
    | cons b rest => rw [dropSubsets, if_neg (Bool.eq_false_iff.mp (ha b mem_cons_self).2)]

omit hF in
theorem paths_perm {list' : List α} (h : list ~ list') : paths path list = paths path list' := by
  ext x
  simp only [paths, Set.mem_ofPred_eq, h.mem_iff]

theorem paths_subsetsOf (prefixes list : List α) :
    paths path (subsetsOf F prefixes list) = {t ∈ paths path list | ∃ p ∈ prefixes.map path, p <+: t} := by
  ext x
  simp only [paths, subsetsOf, mem_filter, any_eq_true, hF.isSubsetOf_iff, mem_map]
  constructor
  · intro h
    obtain ⟨a, ⟨ha, p, hp, hpre⟩, rfl⟩ := h
    exact ⟨⟨a, ha, rfl⟩, path p, ⟨p, hp, rfl⟩, hpre⟩
  · intro h
    obtain ⟨⟨a, ha, rfl⟩, _, ⟨p, hp, rfl⟩, hpre⟩ := h
    exact ⟨a, ⟨ha, p, hp, hpre⟩, rfl⟩

theorem paths_rest {prefixes list'} {es} (hfresh : Fresh F list)
    (hlist : paths path list = excludeAll es) (hperm : list' ~ list) :
    paths path (subsetsOf F prefixes (sort F (addPrefixes F prefixes (removeSubsets F list')))) =
      routes (prefixes.map path) es := by
  have hinc := (hperm.pairwise_iff fun h => h.symm).mpr (incomparable hF hfresh hlist)
  unfold addPrefixes
  rw [removeSubsets_eq_self hinc, paths_subsetsOf hF, sort, paths_perm (perm_insertionSort _ _),
    paths_foldl_includeUnless hF, paths_perm hperm, hlist]
  rfl

end

/-! ## What a configuration says -/

/-- The address is one of the prefix. -/
def Prefix4.Covers (p : Prefix4) (addr : BitVec 32) : Prop :=
  addr >>> (32 - p.prefixLen) = p.bits >>> (32 - p.prefixLen)

/-- The address is one of the prefix. -/
def Prefix6.Covers (p : Prefix6) (addr : BitVec 128) : Prop :=
  addr >>> (128 - p.prefixLen) = p.bits >>> (128 - p.prefixLen)

section
variable {α : Type} {w : Nat} (covers : α → BitVec w → Prop)

/-- Every address of the one prefix is one of the other. -/
def Within (a b : α) : Prop := ∀ addr, covers a addr → covers b addr

/-- The exception does not count: it lies in a local prefix that contains none of the prefixes. -/
def Config.Ignored (config : Config α) (e : α) : Prop :=
  ∃ l ∈ config.localPrefixes, Within covers e l ∧ ¬ ∃ p ∈ config.prefixes, Within covers p l

/-- The address shall be routed: it is in a prefix, and in no exception that counts. -/
def Config.Meant (config : Config α) (addr : BitVec w) : Prop :=
  (∃ p ∈ config.prefixes, covers p addr) ∧ ¬ ∃ e ∈ config.exceptions, ¬ config.Ignored covers e ∧ covers e addr

end

/-- The exceptions that count, in their order. -/
def counting {α : Type} (F : Family α) (config : Config α) : List α :=
  config.exceptions.filter fun e =>
    !(effectiveLocalPrefixes F config.prefixes config.localPrefixes).any fun l => F.isSubsetOf e l

theorem covers4_iff (p : Prefix4) (addr : BitVec 32) : p.Covers addr ↔ p.path <+: bitsOf addr 32 := by
  unfold Prefix4.Covers Prefix4.path
  rw [bitsOf_prefix_iff, and_iff_right p.prefixLen_le, ← ushiftRight_eq_iff p.prefixLen_le]
  exact eq_comm

theorem covers6_iff (p : Prefix6) (addr : BitVec 128) : p.Covers addr ↔ p.path <+: bitsOf addr 128 := by
  unfold Prefix6.Covers Prefix6.path
  rw [bitsOf_prefix_iff, and_iff_right p.prefixLen_le, ← ushiftRight_eq_iff p.prefixLen_le]
  exact eq_comm

section
variable {α : Type} {w : Nat} {F : Family α} {path : α → List Bool} {covers : α → BitVec w → Prop}
  (hF : F.Lawful path) (hpath : ∀ a, (path a).length ≤ w) (hcovers : ∀ a addr, covers a addr ↔ path a <+: bitsOf addr w)

include hpath hcovers

theorem within_iff (a b : α) : Within covers a b ↔ path b <+: path a := by
  unfold Within
  simp only [hcovers]
  constructor
  · intro h
    -- two addresses of `a` that differ in the bit after its string
    have hextend : ∀ bit, path b <+: path a ++ List.replicate (w - (path a).length) bit := by
      intro bit
      have hlen : (path a ++ List.replicate (w - (path a).length) bit).length = w := by
        have := hpath a
        simp only [length_append, length_replicate]
        omega
      obtain ⟨addr, haddr⟩ := exists_bitsOf hlen
      rw [← haddr]
      apply h
      rw [haddr]
      exact prefix_append _ _
    by_cases hle : (path b).length ≤ (path a).length
    · exact prefix_of_prefix_length_le (hextend false) (prefix_append _ _) hle
    · have hb := hpath b
      have hpos : 0 < w - (path a).length := by omega
      have hbit : ∀ bit, (path b)[(path a).length]? = some bit := by
        intro bit
        have hlt : (path a).length < (path b).length := by omega
        rw [getElem?_eq_getElem hlt, ← prefix_iff_getElem?.mp (hextend bit) _ hlt]
        simp [hpos]
      exact absurd ((hbit false).symm.trans (hbit true)) (by simp)
  · intro h addr ha
    exact h.trans ha

include hF

theorem invert_covers (e : α) :
    (F.invert e).Pairwise (fun a b => ∀ addr, covers a addr → ¬ covers b addr) ∧
      ∀ addr, (∃ a ∈ F.invert e, covers a addr) ↔ ¬ covers e addr := by
  have hapart := pairwise_siblings (path e)
  rw [← hF.invert_eq, pairwise_map] at hapart
  refine ⟨hapart.imp fun h addr => ?_, fun addr => ?_⟩
  · simpa only [hcovers] using h _
  · rw [hcovers, ← exists_sibling_iff (by simpa [length_bitsOf] using hpath e), ← hF.invert_eq]
    simp [hcovers]

theorem isSubsetOf_iff_within (a b : α) : F.isSubsetOf a b = true ↔ Within covers a b := by
  rw [hF.isSubsetOf_iff, within_iff hpath hcovers]

theorem mem_counting {config} {e} :
    e ∈ counting F config ↔ e ∈ config.exceptions ∧ ¬ config.Ignored covers e := by
  have hlocal : ∀ l, l ∈ effectiveLocalPrefixes F config.prefixes config.localPrefixes ↔
      l ∈ config.localPrefixes ∧ ¬ ∃ p ∈ config.prefixes, Within covers p l := by
    intro l
    simp [effectiveLocalPrefixes, within_iff hpath hcovers, ← hF.isSubsetOf_iff]
  unfold counting Config.Ignored
  rw [mem_filter, Bool.not_eq_true', ← Bool.not_eq_true, any_eq_true]
  refine and_congr_right fun _ => not_congr (exists_congr fun l => ?_)
  rw [hlocal, hF.isSubsetOf_iff, ← within_iff hpath hcovers, and_assoc]
  exact and_congr_right fun _ => and_comm

/-- One half of the generator does what the configuration of its family says if and only if the prefixes and the
exceptions that count do not get into each other's way. -/
theorem generate_iff {genPrefixes} {mkPseudoDefault}
    {config} {arrange : List α → List α} (hperm : ∀ l, arrange l ~ l)
    (hgen : genPrefixes config.prefixes config.exceptions config.localPrefixes =
      mergeExceptions F (mergePrefixSets F) (effectiveLocalPrefixes F config.prefixes config.localPrefixes) [] config.exceptions
        >>= fun all => .ret (subsetsOf F config.prefixes (sort F
          (addPrefixes F config.prefixes (removeSubsets F (arrange all))))))
    (hdefault : ∀ addr, ∃ r ∈ mkPseudoDefault, covers r addr) :
    (∃ out, generate genPrefixes (isDefaultRoute F) mkPseudoDefault config = .ret out ∧
      ∀ addr, (∃ r ∈ out, covers r addr) ↔ config.Meant covers addr) ↔
    Clear w (config.prefixes.map path) ((counting F config).map path) := by
  obtain ⟨hret, hfault⟩ := mergeExceptions_eq hF
    (effectiveLocalPrefixes F config.prefixes config.localPrefixes) config.exceptions .nil
  unfold generate
  by_cases hprefixes : config.prefixes = []
  · refine iff_of_true ⟨[], by simp [hprefixes], fun addr => ?_⟩ ?_
    · simp [Config.Meant, hprefixes]
    · constructor
      · simp [hprefixes]
      · simp [hprefixes]
      · simp [hprefixes]
  rw [if_pos (length_pos_iff.mpr hprefixes)]
  by_cases hnil : ∃ e ∈ counting F config, path e = []
  · -- the process ends, and every prefix lies in the exception
    refine iff_of_false ?_ fun hclear => ?_
    · intro h
      obtain ⟨out, hout, -⟩ := h
      rw [hgen] at hout
      obtain ⟨_, hout, -⟩ := Er.bind_inv hout
      obtain ⟨all, hall, -⟩ := Er.bind_inv hout
      exact hfault hnil ⟨all, hall⟩
    · obtain ⟨e, he, hempty⟩ := hnil
      obtain ⟨p, hp⟩ := exists_mem_of_ne_nil _ hprefixes
      refine hclear.outside _ (mem_map_of_mem hp) _ (mem_map_of_mem he) ?_
      rw [hempty]
      exact nil_prefix
  obtain ⟨all, hall, hfresh, hcut⟩ := hret fun e he hempty => hnil ⟨e, he, hempty⟩
  rw [paths_nil] at hcut
  rw [hgen, hall, Er.ret_bind]
  generalize hout : subsetsOf F config.prefixes _ = out
  have hpaths : paths path out = routes (config.prefixes.map path) ((counting F config).map path) :=
    hout ▸ paths_rest hF hfresh hcut (hperm all)
  -- the routes that come out lead where the strings say
  have hout : ∀ addr, (∃ r ∈ if isDefaultRoute F out then mkPseudoDefault else out, covers r addr) ↔
      ∃ t ∈ routes (config.prefixes.map path) ((counting F config).map path), t <+: bitsOf addr w := by
    intro addr
    have hlist : (∃ r ∈ out, covers r addr) ↔
        ∃ t ∈ routes (config.prefixes.map path) ((counting F config).map path), t <+: bitsOf addr w := by
      rw [← hpaths]
      simp [paths, hcovers]
    split
    next hroute =>
      refine iff_of_true (hdefault addr) (hlist.mp ?_)
      unfold isDefaultRoute at hroute
      split at hroute
      next pfx =>
        refine ⟨pfx, mem_cons_self, (hcovers pfx addr).mpr ?_⟩
        rw [decide_eq_true_eq, hF.prefixLen_eq, length_eq_zero_iff] at hroute
        rw [hroute]
        exact nil_prefix
      next => cases hroute
    next => exact hlist
  have hmeant : ∀ addr, config.Meant covers addr ↔ (∃ p ∈ config.prefixes.map path, p <+: bitsOf addr w) ∧
      ¬ ∃ e ∈ (counting F config).map path, e <+: bitsOf addr w := by
    intro addr
    unfold Config.Meant
    simp only [mem_map, exists_exists_and_eq_and, ← hcovers]
    simp [mem_counting hF hpath hcovers]
  rw [← routes_iff (by simpa using fun a _ => hpath a) (by simpa using fun a _ => hpath a)]
  constructor
  · intro h bits hbits
    obtain ⟨out', hret', hroutes⟩ := h
    cases hret'
    obtain ⟨addr, rfl⟩ := exists_bitsOf hbits
    rw [← hout, hroutes, hmeant]
  · intro h
    refine ⟨_, rfl, fun addr => ?_⟩
    rw [hout, h _ length_bitsOf, hmeant]

end

/-! ## Both families -/

theorem length_path4 (p : Prefix4) : p.path.length ≤ 32 := length_bitsOf.trans_le p.prefixLen_le

theorem length_path6 (p : Prefix6) : p.path.length ≤ 128 := length_bitsOf.trans_le p.prefixLen_le

/-- The inverted prefixes are the rest of the addresses, each in one of them, and a subset is one. -/
theorem prefix_complement :
    (∀ p : Prefix4, (invertPrefix4 p).Pairwise (fun a b => ∀ addr, a.Covers addr → ¬ b.Covers addr) ∧
      ∀ addr, (∃ a ∈ invertPrefix4 p, a.Covers addr) ↔ ¬ p.Covers addr) ∧
    (∀ p : Prefix6, (invertPrefix6 p).Pairwise (fun a b => ∀ addr, a.Covers addr → ¬ b.Covers addr) ∧
      ∀ addr, (∃ a ∈ invertPrefix6 p, a.Covers addr) ↔ ¬ p.Covers addr) ∧
    (∀ a b : Prefix4, isSubsetOf4 a b = true ↔ ∀ addr, a.Covers addr → b.Covers addr) ∧
    ∀ a b : Prefix6, isSubsetOf6 a b = true ↔ ∀ addr, a.Covers addr → b.Covers addr :=
  ⟨invert_covers lawful4 length_path4 covers4_iff, invert_covers lawful6 length_path6 covers6_iff,
    isSubsetOf_iff_within lawful4 length_path4 covers4_iff, isSubsetOf_iff_within lawful6 length_path6 covers6_iff⟩

/-- The two halves cover everything: their strings are the two of one bit. -/
theorem mkPseudoDefault4_covers (addr : BitVec 32) : ∃ r ∈ mkPseudoDefault4, r.Covers addr := by
  simp only [covers4_iff, Prefix4.path, bitsOf_prefix_iff, mkPseudoDefault4, mem_cons, not_mem_nil, or_false,
    exists_eq_or_imp, exists_eq_left, lt_one_iff, forall_eq]
  cases addr.getMsbD 0 with
  | false => exact .inl ⟨by decide, by decide⟩
  | true => exact .inr ⟨by decide, by decide⟩

theorem mkPseudoDefault6_covers (addr : BitVec 128) : ∃ r ∈ mkPseudoDefault6, r.Covers addr := by
  simp only [covers6_iff, Prefix6.path, bitsOf_prefix_iff, mkPseudoDefault6, mem_cons, not_mem_nil, or_false,
    exists_eq_or_imp, exists_eq_left, lt_one_iff, forall_eq]
  cases addr.getMsbD 0 with
  | false => exact .inl ⟨by decide, by decide⟩
  | true => exact .inr ⟨by decide, by decide⟩

/-- The routes are generated, and lead to the addresses the configuration says, if and only if in both families the
prefixes and the exceptions that count do not get into each other's way. -/
theorem generated_iff (rp : RouteGen) :
    (∃ out, getGeneratedRoutes rp = .ret out ∧
      (∀ addr, (∃ r ∈ out.prefix4, r.Covers addr) ↔ rp.config4.Meant Prefix4.Covers addr) ∧
      ∀ addr, (∃ r ∈ out.prefix6, r.Covers addr) ↔ rp.config6.Meant Prefix6.Covers addr) ↔
    Clear 32 (rp.config4.prefixes.map Prefix4.path) ((counting family4 rp.config4).map Prefix4.path) ∧
      Clear 128 (rp.config6.prefixes.map Prefix6.path) ((counting family6 rp.config6).map Prefix6.path) := by
  -- sorting once more makes no difference
  rw [← generate_iff lawful4 length_path4 covers4_iff .refl (show genPrefixes4 _ _ _ = _ from rfl) mkPseudoDefault4_covers,
    ← generate_iff lawful6 length_path6 covers6_iff (perm_insertionSort _) (show genPrefixes6 _ _ _ = _ from rfl)
      mkPseudoDefault6_covers]
  unfold getGeneratedRoutes
  constructor
  · intro h
    obtain ⟨out, hret, h4, h6⟩ := h
    obtain ⟨prefix4, hret4, prefix6, hret6, hret⟩ := Er.bind_inv2 hret
    cases hret
    exact ⟨⟨prefix4, hret4, h4⟩, ⟨prefix6, hret6, h6⟩⟩
  · intro h
    obtain ⟨⟨prefix4, hret4, h4⟩, prefix6, hret6, h6⟩ := h
    refine ⟨⟨prefix4, prefix6⟩, ?_, h4, h6⟩
    unfold isDefaultRoute4 isDefaultRoute6
    rw [hret4, Er.ret_bind, hret6, Er.ret_bind]

/-- A prefix of IPv4 and nothing in IPv6. -/
def only4 (prefixes exceptions : List Prefix4) : RouteGen :=
  { config4 := { prefixes, localPrefixes := [], exceptions }
    config6 := { prefixes := [], localPrefixes := [], exceptions := [] } }

def block (bits : BitVec 32) (prefixLen : Nat) (h : prefixLen ≤ 32) : Prefix4 := ⟨bits, prefixLen, h⟩

/-- Of two exceptions that are the halves of one block the first comes back. -/
theorem exception_comes_back :
    getGeneratedRoutes (only4 [block 0 1 (by decide)] [block 0 2 (by decide), block 0x40000000 2 (by decide)]) =
      .ret ⟨[block 0 2 (by decide)], []⟩ ∧
    (block 0 2 (by decide)).Covers 0 ∧
    ¬ (only4 [block 0 1 (by decide)] [block 0 2 (by decide), block 0x40000000 2 (by decide)]).config4.Meant
      Prefix4.Covers 0 := by
  refine ⟨rfl, rfl, fun h => h.2 ⟨block 0 2 (by decide), mem_cons_self, ?_, rfl⟩⟩
  intro hignored
  obtain ⟨l, hl, -⟩ := hignored
  cases hl

/-! ## One generator for both -/

theorem addPrefixes_perm {α} {F} {prefixes list list' : List α} (h : list ~ list') :
    addPrefixes F prefixes list ~ addPrefixes F prefixes list' := by
  induction prefixes generalizing list list' with
  | nil => exact h
  | cons a prefixes ih =>
    refine ih ?_
    unfold includeUnless
    rw [h.any_eq]
    split
    · exact h
    · exact h.append_right [a]

theorem comparePrefixes4_le_iff {a b} : comparePrefixes4 a b ≤ 0 ↔
    a.prefixLen < b.prefixLen ∨ a.prefixLen = b.prefixLen ∧ b.bits.toNat ≤ a.bits.toNat := by
  simp only [comparePrefixes4, BitVec.lt_def, ne_eq, ← BitVec.toNat_inj]
  split_ifs <;> omega

/-- The order is total, so it does not matter how the list was arranged. -/
theorem sort_eq_of_perm {list list'} (h : list ~ list') : sort family4 list = sort family4 list' := by
  have : Std.Total fun a b : Prefix4 => family4.compare a b ≤ 0 := ⟨fun a b => by
    simp only [family4, comparePrefixes4_le_iff]
    omega⟩
  have : IsTrans Prefix4 fun a b => family4.compare a b ≤ 0 := ⟨fun a b c => by
    simp only [family4, comparePrefixes4_le_iff]
    omega⟩
  refine (((perm_insertionSort _ _).trans h).trans (perm_insertionSort _ _).symm).eq_of_pairwise ?_
    (pairwise_insertionSort _ _) (pairwise_insertionSort _ _)
  intro a b _ _ hab hba
  have hab := comparePrefixes4_le_iff.mp hab
  have hba := comparePrefixes4_le_iff.mp hba
  rw [Prefix4.mk.injEq, ← BitVec.toNat_inj]
  omega

/-- For exceptions that are not of length 0 the generator of IPv6 gives for embedded lists what the other gives,
embedded. -/
theorem genPrefixes6_embed (prefixes exceptions localPrefixes : List Prefix4) (h : ∀ e ∈ exceptions, e.prefixLen ≠ 0) :
    ∃ out, genPrefixes4 prefixes exceptions localPrefixes = .ret out ∧
      genPrefixes6 (prefixes.map embed) (exceptions.map embed) (localPrefixes.map embed) = .ret (out.map embed) := by
  obtain ⟨hret, -⟩ := mergeExceptions_eq lawful4 (effectiveLocalPrefixes family4 prefixes localPrefixes) exceptions .nil
  obtain ⟨all, hall, hfresh, hcut⟩ := hret fun e he hnil =>
    h e (mem_of_mem_filter he) (length_bitsOf.symm.trans (congrArg length hnil))
  rw [paths_nil] at hcut
  have hinc := incomparable lawful4 hfresh hcut
  have hperm : sort family4 all ~ all := perm_insertionSort _ all
  have hsorted := (hperm.pairwise_iff fun h => h.symm).mpr hinc
  have hembed : removeSubsets family6 ((sort family4 all).map embed) = (sort family4 all).map embed :=
    removeSubsets_eq_self (pairwise_map.mpr (by simpa only [agrees_embed.isSubsetOf_eq] using hsorted))
  refine ⟨_, by rw [genPrefixes4, mergePrefixSets4, hall, Er.ret_bind, removeSubsets_eq_self hinc], ?_⟩
  have hmerge := agrees_embed.mergeExceptions_map (effectiveLocalPrefixes family4 prefixes localPrefixes) [] exceptions
  rw [hall, Er.ret_bind, map_nil, ← agrees_embed.effectiveLocalPrefixes_map] at hmerge
  rw [genPrefixes6, mergePrefixSets6, hmerge, Er.ret_bind]
  dsimp only
  rw [agrees_embed.sort_map, hembed, agrees_embed.addPrefixes_map, agrees_embed.sort_map, agrees_embed.subsetsOf_map,
    sort_eq_of_perm (addPrefixes_perm hperm)]

theorem genPrefixes6_embed_ten : (∀ e ∈ [block 0x0a000000 8 (by decide)], e.prefixLen ≠ 0) ∧
    ∃ out, genPrefixes4 [block 0 0 (by decide)] [block 0x0a000000 8 (by decide)] [] = .ret out ∧
      genPrefixes6 ([block 0 0 (by decide)].map embed) ([block 0x0a000000 8 (by decide)].map embed) ([].map embed) =
        .ret (out.map embed) :=
  ⟨by decide, genPrefixes6_embed _ _ [] (by decide)⟩

end Hyperboria.RouteGen
