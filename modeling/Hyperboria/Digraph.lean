/-
Finite directed graphs with a distinguished source, given as the list of their edges: an edge
`(some a, b)` goes from `a` to `b`, an edge `(none, b)` comes from the source. An edge may be there
more than once.
-/
import Mathlib

namespace Digraph

variable {ν : Type}

/-- There is an edge from `a` to `b`. -/
def Edge (E : List (Option ν × ν)) (a b : ν) : Prop := (some a, b) ∈ E

/-- One can go from `a` to `b`, perhaps without a step. -/
def Path (E : List (Option ν × ν)) : ν → ν → Prop := Relation.ReflTransGen (Edge E)

/-- One can go from the source to a vertex. -/
inductive Reach (E : List (Option ν × ν)) : ν → Prop where
  | source {b : ν} : (none, b) ∈ E → Reach E b
  | step {a b : ν} : Reach E a → Edge E a b → Reach E b

/-- No way leads from a vertex back to it. -/
def Acyclic (E : List (Option ν × ν)) : Prop := ∀ a, ¬ Relation.TransGen (Edge E) a a

variable {E E' : List (Option ν × ν)} {a b : ν}

theorem edge_mono (hsub : E ⊆ E') : Edge E ≤ Edge E' := fun _ _ he => hsub he

theorem Reach.mono (hsub : E ⊆ E') (h : Reach E a) : Reach E' a := by
  induction h with
  | source h => exact .source (hsub h)
  | step _ h ih => exact .step ih (hsub h)

theorem Reach.path (h : Reach E a) (hpath : Path E a b) : Reach E b := by
  induction hpath with
  | refl => exact h
  | tail _ he ih => exact ih.step he

theorem Acyclic.mono (hsub : E ⊆ E') (h : Acyclic E') : Acyclic E :=
  fun a ha => h a (Relation.TransGen.mono (edge_mono hsub) _ _ ha)

theorem Acyclic.not_path (h : Acyclic E) (he : Edge E a b) : ¬ Path E b a :=
  fun hpath => h a (Relation.TransGen.head' he hpath)

theorem Acyclic.ne (h : Acyclic E) (he : Edge E a b) : a ≠ b := by
  intro hab
  subst hab
  exact h a (.single he)

theorem trans_cons {x y} (h : Relation.TransGen (Edge ((some a, b) :: E)) x y) :
    Relation.TransGen (Edge E) x y ∨ Path E x a ∧ Path E b y := by
  have hone : ∀ {u v}, Edge ((some a, b) :: E) u v → Edge E u v ∨ u = a ∧ v = b := by
    intro u v he
    rcases List.mem_cons.mp he with heq | he
    · simp only [Prod.mk.injEq, Option.some.injEq] at heq
      exact .inr heq
    · exact .inl he
  induction h with
  | single he =>
    rcases hone he with he | ⟨hu, hv⟩
    · exact .inl (.single he)
    · subst hu hv
      exact .inr ⟨.refl, .refl⟩
  | tail _ he ih =>
    rcases hone he with he | ⟨hu, hv⟩
    · rcases ih with ih | ⟨hx, hy⟩
      · exact .inl (ih.tail he)
      · exact .inr ⟨hx, hy.tail he⟩
    · subst hu hv
      rcases ih with ih | ⟨hx, _⟩
      · exact .inr ⟨ih.to_reflTransGen, .refl⟩
      · exact .inr ⟨hx, .refl⟩

theorem Acyclic.cons (h : Acyclic E) (hpath : ¬ Path E b a) : Acyclic ((some a, b) :: E) := by
  intro x hx
  rcases trans_cons hx with hx | ⟨hxa, hbx⟩
  · exact h x hx
  · exact hpath (hbx.trans hxa)

theorem acyclic_source : Acyclic [((none : Option ν), b)] := by
  intro a ha
  obtain ⟨c, he, _⟩ := Relation.TransGen.head'_iff.mp ha
  cases List.mem_singleton.mp he

/-- Going against the edges comes to an end, as there are finitely many. -/
theorem Acyclic.wellFounded (h : Acyclic E) : WellFounded (Edge E) := by
  let targets : Set ν := {b | b ∈ E.map Prod.snd}
  have hfinite : targets.Finite := List.finite_toSet _
  have hstrict : IsStrictOrder ν (Relation.TransGen (Edge E)) :=
    { irrefl := h, trans := fun _ _ _ => Relation.TransGen.trans }
  have hon : targets.WellFoundedOn (Relation.TransGen (Edge E)) := hfinite.wellFoundedOn
  have htarget : ∀ {a b}, Edge E a b → b ∈ targets := fun he => List.mem_map.mpr ⟨_, he, rfl⟩
  have hacc : ∀ b ∈ targets, Acc (Edge E) b := by
    intro b hb
    refine hon.induction hb fun c _ ih => ⟨c, fun a he => ?_⟩
    by_cases ha : a ∈ targets
    · exact ih a ha (.single he)
    · exact ⟨a, fun a' he' => absurd (htarget he') ha⟩
  refine ⟨fun b => ⟨b, fun a he => ?_⟩⟩
  exact (hacc b (htarget he)).inv he

end Digraph
