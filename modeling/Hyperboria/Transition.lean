/-
Transition systems with labelled steps, and the one induction every safety
argument over them needs: what holds at the start and is kept by each step holds
in every state a run comes to. A run keeps the states it has left behind, so that
a property of a state can speak of earlier ones.
-/
import Mathlib

namespace Transition

/-- A transition system over states `σ`, with steps labelled by `ε`. -/
structure System (σ ε : Type) where
  init : σ → Prop
  step : σ → ε → σ → Prop

variable {σ ε : Type}

/-- A run has come to `w`; `past` are the states before it, the latest first. -/
inductive Run (T : System σ ε) : σ → List σ → Prop where
  | start {w : σ} : T.init w → Run T w []
  | step {w w' : σ} {e : ε} {past : List σ} : Run T w past → T.step w e w' → Run T w' (w :: past)

/-- The system without the steps that do not meet a condition on the state before them. -/
def System.restrict (T : System σ ε) (ok : σ → ε → Prop) : System σ ε where
  init := T.init
  step w e w' := ok w e ∧ T.step w e w'

namespace Run

variable {T : System σ ε} {w : σ} {past : List σ}

/-- The invariant rule. The step may use that the state before it is one a run comes to. -/
theorem invariant {I : σ → Prop} (hinit : ∀ w, T.init w → I w)
    (hstep : ∀ w past e w', Run T w past → I w → T.step w e w' → I w') (h : Run T w past) : I w := by
  induction h with
  | start h => exact hinit _ h
  | step h hs ih => exact hstep _ _ _ _ h ih hs

theorem invariant_past {I : σ → List σ → Prop} (hinit : ∀ w, T.init w → I w [])
    (hstep : ∀ w past e w', Run T w past → I w past → T.step w e w' → I w' (w :: past)) (h : Run T w past) :
    I w past := by
  induction h with
  | start h => exact hinit _ h
  | step h hs ih => exact hstep _ _ _ _ h ih hs

theorem of_restrict {ok} (h : Run (T.restrict ok) w past) : Run T w past := by
  induction h with
  | start h => exact .start h
  | step _ hs ih => exact .step ih hs.2

end Run

end Transition
