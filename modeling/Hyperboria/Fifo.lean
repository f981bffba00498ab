/-
Two queues between two ends, as a specification: what one end sends the other takes
out, in the order it was put in. Nothing here knows what the messages are.

`run_conserves` is the whole of it: what was sent is what was taken out, followed by
what is still in the queue.
-/
import Mathlib

namespace Fifo

/-- What the ends do. -/
inductive Move (α : Type) where
  | send (x : Bool) (a : α)
  | take (y : Bool)

/-- `queue x` is what the end `x` has sent and the other not yet taken out, `out y` what `y` has taken out. -/
structure Queues (α : Type) where
  queue : Bool → List α
  out : Bool → List α

variable {α : Type}

namespace Queues

/-- One move. There is nothing to take from an empty queue. -/
def step (q : Queues α) : Move α → Queues α
  | .send x a => { q with queue := Function.update q.queue x (q.queue x ++ [a]) }
  | .take y =>
    match q.queue (!y) with
    | [] => q
    | a :: rest => { queue := Function.update q.queue (!y) rest, out := Function.update q.out y (q.out y ++ [a]) }

/-- One move after the other. -/
def run (q : Queues α) : List (Move α) → Queues α
  | [] => q
  | move :: moves => (q.step move).run moves

end Queues

/-- What the end `x` sends. -/
def sentBy (x : Bool) : List (Move α) → List α
  | [] => []
  | .send y a :: moves => if y = x then a :: sentBy x moves else sentBy x moves
  | .take _ :: moves => sentBy x moves

theorem sentBy_cons (x : Bool) (move : Move α) (moves : List (Move α)) :
    sentBy x (move :: moves) = sentBy x [move] ++ sentBy x moves := by
  cases move with
  | send y a =>
    simp only [sentBy]
    split
    · rfl
    · rfl
  | take y => rfl

theorem step_conserves (q : Queues α) (move : Move α) (x : Bool) :
    (q.step move).out (!x) ++ (q.step move).queue x = q.out (!x) ++ q.queue x ++ sentBy x [move] := by
  cases move with
  | send y a =>
    by_cases hy : y = x
    · subst hy
      simp [Queues.step, sentBy]
    · simp [Queues.step, sentBy, hy, Function.update_of_ne (Ne.symm hy)]
  | take y =>
    simp only [Queues.step]
    split
    · simp [sentBy]
    next a rest hqueue =>
      by_cases hy : y = !x
      · subst hy
        rw [Bool.not_not] at hqueue
        simp [sentBy, hqueue]
      · have hxy : x ≠ !y := fun h => hy (by rw [h, Bool.not_not])
        simp [sentBy, Function.update_of_ne hxy, Function.update_of_ne (Ne.symm hy)]

theorem run_conserves (q : Queues α) (moves : List (Move α)) (x : Bool) :
    (q.run moves).out (!x) ++ (q.run moves).queue x = q.out (!x) ++ q.queue x ++ sentBy x moves := by
  induction moves generalizing q with
  | nil => simp [Queues.run, sentBy]
  | cons move moves ih => rw [Queues.run, ih, step_conserves, List.append_assoc, ← sentBy_cons]

end Fifo
