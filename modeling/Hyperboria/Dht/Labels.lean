/-
The laws of labels that the store leans on. A label is a word from 1 up to 2^60. Where
there is room, `LabelSplicer_splice` is the product of a monoid and `LabelSplicer_unsplice`
divides by it; `LabelSplicer_routesThrough` asks for a factor, and so it is an order. A
label is longer than every other one it goes through, and `comparePeers` has the longer
ones first: this is why `firstHopInPath` looks for a hop from the label on.
-/
import Hyperboria.Dht.Wired

namespace Hyperboria

open BitVec

open Bits (log2x64)

/-- A path and the mark at its end. -/
structure Label where
  word : BitVec 64
  pos : 0 < word.toNat
  lt : word.toNat < 2 ^ 60

namespace Label

open LabelSplicer
open NodeStore (comparePeers comparePeers_neg_iff)

variable {a b c d m x : Label}

@[ext] theorem ext (h : a.word = b.word) : a = b := by
  cases a
  cases b
  cases h
  rfl

/-- The number of bits in front of the mark. -/
def length (a : Label) : Nat := log2x64 a.word

theorem length_le (a : Label) : a.length ≤ 59 := Bits.log2_le_iff.mpr a.lt

theorem word_ne_zero (a : Label) : a.word ≠ 0 := fun h => absurd a.pos (by rw [h]; decide)

/-! ## The product -/

/-- One label behind another. -/
def after (b a : Label) (h : b.length + a.length ≤ 59) : Label where
  word := splice b.word a.word
  pos := by
    rw [splice_eq_join a.word_ne_zero h]
    exact join_pos b.pos
  lt := splice_lt a.word_ne_zero h

theorem after_toNat (h : b.length + a.length ≤ 59) :
    (after b a h).word.toNat = join b.word.toNat a.word.toNat := splice_eq_join a.word_ne_zero h

theorem length_after (h : b.length + a.length ≤ 59) : (after b a h).length = b.length + a.length := by
  have hlog := @log2_join _ a.word.toNat b.pos
  rw [← after_toNat h] at hlog
  exact hlog

/-- The splicer answers with a label where there is room for it, and with no label where there is not. -/
theorem splice_label_iff : (∃ ab : Label, splice b.word a.word = ab.word) ↔ b.length + a.length ≤ 59 := by
  constructor
  · rintro ⟨ab, hab⟩
    by_contra hlong
    have hones : splice b.word a.word = BitVec.allOnes 64 :=
      (splice_eq_allOnes_iff a.word_ne_zero).mpr (Nat.lt_of_not_le hlong)
    have hlt := ab.lt
    rw [← hab, hones] at hlt
    exact absurd hlt (by decide)
  · exact fun h => ⟨after b a h, rfl⟩

/-- The path that ends where it begins. -/
def one : Label := ⟨1, by decide, by decide⟩

theorem length_one : one.length = 0 := rfl

theorem splice_one (a : Label) : splice a.word one.word = a.word := by
  have hroom : a.length + one.length ≤ 59 := by
    exact a.length_le
  apply eq_of_toNat_eq
  rw [splice_eq_join one.word_ne_zero hroom]
  exact join_one

theorem one_splice (a : Label) : splice one.word a.word = a.word := by
  have hroom : one.length + a.length ≤ 59 := by
    rw [length_one, Nat.zero_add]
    exact a.length_le
  apply eq_of_toNat_eq
  rw [splice_eq_join a.word_ne_zero hroom]
  exact one_join a.pos

theorem splice_assoc (h : a.length + b.length + c.length ≤ 59) :
    splice c.word (splice b.word a.word) = splice (splice c.word b.word) a.word := by
  have hba : b.length + a.length ≤ 59 := by omega
  have hcb : c.length + b.length ≤ 59 := by omega
  have hleft : c.length + (after b a hba).length ≤ 59 := by
    rw [length_after]
    omega
  have hright : (after c b hcb).length + a.length ≤ 59 := by
    rw [length_after]
    omega
  apply eq_of_toNat_eq
  calc (splice c.word (after b a hba).word).toNat
      = join c.word.toNat (join b.word.toNat a.word.toNat) := by rw [← after_toNat hba]; exact after_toNat hleft
    _ = join (join c.word.toNat b.word.toNat) a.word.toNat := join_assoc b.pos
    _ = (splice (after c b hcb).word a.word).toNat := by rw [← after_toNat hcb]; exact (after_toNat hright).symm

theorem unsplice_splice (h : b.length + a.length ≤ 59) : unsplice (splice b.word a.word) a.word = b.word := by
  apply eq_of_toNat_eq
  rw [unsplice_toNat, splice_eq_join a.word_ne_zero h, join_div]

/-! ## The order -/

/-- A label goes through another one if it is a product with it. -/
theorem routesThrough_iff_join :
    routesThrough d.word m.word = true ↔ ∃ n, 0 < n ∧ d.word.toNat = join n m.word.toNat := by
  by_cases hmid : 2 ≤ m.word.toNat
  · rw [routesThrough_iff hmid]
    constructor
    · intro h
      refine ⟨d.word.toNat / 2 ^ m.word.toNat.log2, Nat.div_pos ?_ (Nat.two_pow_pos _), ?_⟩
      · exact (Nat.log2_self_le m.pos.ne').trans h.1
      · rw [join, ← h.2, Nat.div_add_mod]
    · rintro ⟨n, hn, heq⟩
      rw [heq]
      exact ⟨le_join hn m.pos, join_mod⟩
  · have hone : m.word.toNat = 1 := by
      have := m.pos
      omega
    have hword : m.word = 1 := eq_of_toNat_eq hone
    have hle : ¬ d.word < 1 := fun h => absurd (lt_def.mp h) (Nat.not_lt.mpr d.pos)
    refine iff_of_true ?_ ⟨d.word.toNat, d.pos, ?_⟩
    · rw [routesThrough, hword, if_neg hle, if_pos (by decide)]
    · rw [hone, join_one]

theorem routesThrough_iff_splice :
    routesThrough d.word m.word = true ↔ ∃ x : Label, splice x.word m.word = d.word := by
  rw [routesThrough_iff_join]
  constructor
  · rintro ⟨n, hn, heq⟩
    have hlt : n < 2 ^ 60 := by
      have hdiv : n = d.word.toNat / 2 ^ m.word.toNat.log2 := by rw [heq, join_div]
      have hle := Nat.div_le_self d.word.toNat (2 ^ m.word.toNat.log2)
      have := d.lt
      omega
    have hnat : (BitVec.ofNat 64 n).toNat = n := Nat.mod_eq_of_lt (hlt.trans (by decide))
    let x : Label := ⟨BitVec.ofNat 64 n, by rw [hnat]; exact hn, by rw [hnat]; exact hlt⟩
    have hroom : x.length + m.length ≤ 59 := by
      have hlog := @log2_join _ m.word.toNat hn
      rw [← heq] at hlog
      have hd := d.length_le
      unfold length log2x64 at hd ⊢
      rw [hnat]
      omega
    refine ⟨x, eq_of_toNat_eq ?_⟩
    rw [splice_eq_join m.word_ne_zero hroom, heq, hnat]
  · rintro ⟨x, hx⟩
    have hroom := splice_label_iff.mp ⟨d, hx⟩
    refine ⟨x.word.toNat, x.pos, ?_⟩
    rw [← hx, splice_eq_join m.word_ne_zero hroom]

theorem eq_unsplice (h : splice x.word m.word = d.word) : x.word = unsplice d.word m.word := by
  rw [← h, unsplice_splice (splice_label_iff.mp ⟨d, h⟩)]

theorem routesThrough_length (h : routesThrough d.word m.word = true) (hne : d ≠ m) : m.length < d.length := by
  obtain ⟨x, hx⟩ := routesThrough_iff_splice.mp h
  have hroom := splice_label_iff.mp ⟨d, hx⟩
  have hd : d = after x m hroom := ext hx.symm
  rw [hd, length_after]
  by_contra hle
  have hzero : x.word.toNat.log2 = 0 := by
    have : x.length = 0 := by omega
    exact this
  have hone : x = one := by
    have hpos := x.pos
    have htwo := Bits.log2_le_iff.mp hzero.le
    exact ext (eq_of_toNat_eq (show x.word.toNat = 1 by omega))
  exact hne (ext (by rw [← hx, hone, one_splice]))

theorem routesThrough_partialOrder : IsPartialOrder Label fun d m => routesThrough d.word m.word = true where
  refl d := routesThrough_iff_splice.mpr ⟨one, one_splice d⟩
  trans a b c hab hbc := by
    obtain ⟨p, hp, ha⟩ := routesThrough_iff_join.mp hab
    obtain ⟨q, hq, hb⟩ := routesThrough_iff_join.mp hbc
    exact routesThrough_iff_join.mpr ⟨join p q, join_pos hp, by rw [ha, hb, join_assoc hq]⟩
  antisymm a b hab hba := by
    by_contra hne
    exact absurd (routesThrough_length hab hne) (Nat.not_lt.mpr (routesThrough_length hba (Ne.symm hne)).le)

/-- The algebra of labels. -/
theorem label_algebra :
    -- a monoid, where there is room
    (∀ a : Label, splice 1 a.word = a.word ∧ splice a.word 1 = a.word) ∧
    (∀ a b : Label, (∃ ab : Label, splice b.word a.word = ab.word) ↔ b.length + a.length ≤ 59) ∧
    (∀ a b c : Label, a.length + b.length + c.length ≤ 59 →
      splice c.word (splice b.word a.word) = splice (splice c.word b.word) a.word) ∧
    (∀ a b : Label, b.length + a.length ≤ 59 → unsplice (splice b.word a.word) a.word = b.word) ∧
    -- to go through a label is to be a product with it
    (∀ d m : Label, routesThrough d.word m.word = true ↔ ∃ x : Label, splice x.word m.word = d.word) ∧
    (∀ d m x : Label, splice x.word m.word = d.word → x.word = unsplice d.word m.word) ∧
    (IsPartialOrder Label fun d m => routesThrough d.word m.word = true) ∧
    ∀ d m : Label, routesThrough d.word m.word = true → d ≠ m → comparePeers d.word m.word < 0 :=
  ⟨fun a => ⟨one_splice a, splice_one a⟩, fun _ _ => splice_label_iff, fun _ _ _ => splice_assoc,
    fun _ _ => unsplice_splice, fun _ _ => routesThrough_iff_splice, fun _ _ _ => eq_unsplice,
    routesThrough_partialOrder,
    fun _ _ h hne => comparePeers_neg_iff.mpr (.inl (routesThrough_length h hne))⟩

end Label

end Hyperboria
