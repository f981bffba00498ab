/-
Ways up along pointers: a relation that leads from each vertex to the one above it. `Ascends` says that
every way up ends. Pointing one vertex to another place keeps that, unless the new place is below it.
-/
import Mathlib

namespace Ways

variable {α : Type} {up up' : α → α → Prop} {n a : α}

/-- Every way up ends. -/
def Ascends (up : α → α → Prop) : Prop := ∀ a, Acc (flip up) a

theorem Ascends.mono (h : Ascends up) (hle : ∀ a b, up' a b → up a b) : Ascends up' := by
  intro a
  induction h a with
  | intro a _ ih => exact .intro a fun b hb => ih b (hle a b hb)

theorem acc_of_apart (h : Acc (flip up) a) (hsame : ∀ m p, m ≠ n → up' m p → up m p)
    (hapart : ¬ Relation.ReflTransGen up a n) : Acc (flip up') a := by
  induction h with
  | intro a _ ih =>
    refine .intro a fun b hb => ?_
    have hup : up a b := hsame a b (fun heq => hapart (heq ▸ .refl)) hb
    exact ih b hup fun hbn => hapart (.head hup hbn)

theorem Ascends.repoint (h : Ascends up) (hsame : ∀ m p, m ≠ n → up' m p → up m p)
    (hnew : ∀ p, up' n p → ¬ Relation.ReflTransGen up p n) : Ascends up' := by
  have hn : Acc (flip up') n := .intro n fun p hp => acc_of_apart (h p) hsame (hnew p hp)
  intro a
  induction h a with
  | intro a _ ih =>
    by_cases han : a = n
    · exact han ▸ hn
    · exact .intro a fun b hb => ih b (hsame a b han hb)

theorem Ascends.acyclic (h : Ascends up) (a : α) : ¬ Relation.TransGen up a a := by
  have hwf : WellFounded (flip up) := ⟨h⟩
  intro hloop
  have hloop : Relation.TransGen (flip up) a a := Relation.transGen_swap.mpr hloop
  exact hwf.transGen.asymmetric a a hloop hloop

end Ways
