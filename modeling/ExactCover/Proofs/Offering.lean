import ExactCover.Puzzle

/-!
# Moves that are offered

Whoever plays may offer any move at any time. The rules accept it or refuse it, and a refused move
leaves the state as it was. So the state after some moves were offered is the state after those
among them that were accepted, and a game with refusals has no other positions than one without.

* **`Puzzle.offer`**: the state after some moves were offered, whether accepted or not.
* **`Puzzle.accepted`**: those that were accepted.
* **`Puzzle.replay?_accepted`**: the accepted moves lead to the same state, with none refused.
-/

namespace ExactCover

namespace Puzzle

variable {σ μ : Type} [Puzzle σ μ]

/-- The state after some moves were offered one after the other. -/
def offer (p : σ) (moves : List μ) : σ := moves.foldl playOrSkip p

/-- Those of the moves that are accepted when they are offered one after the other. -/
def accepted (p : σ) : List μ → List μ
  | [] => []
  | move :: moves =>
    match play? p move with
    | none => accepted p moves
    | some p' => move :: accepted p' moves

variable {p p' : σ} {move : μ} {moves : List μ}

theorem playOrSkip_of_some (h : play? p move = some p') : playOrSkip p move = p' := by
  unfold playOrSkip
  rw [h]
  rfl

theorem playOrSkip_of_none (h : play? p move = none) : playOrSkip p move = p := by
  unfold playOrSkip
  rw [h]
  rfl

theorem accepted_cons_of_some (h : play? p move = some p') :
    accepted p (move :: moves) = move :: accepted p' moves := by
  rw [accepted, h]

theorem accepted_cons_of_none (h : play? p move = none) :
    accepted p (move :: moves) = accepted p moves := by
  rw [accepted, h]

/-- **The accepted moves lead to the same state, with none refused.** Induction on the moves that
are offered. -/
theorem replay?_accepted (p : σ) (moves : List μ) :
    replay? p (accepted p moves) = some (offer p moves) := by
  induction moves generalizing p with
  | nil => rfl
  | cons move moves ih =>
    show _ = some (offer (playOrSkip p move) moves)
    cases hplay : play? p move with
    | none =>
      rw [accepted_cons_of_none hplay, playOrSkip_of_none hplay]
      exact ih p
    | some p' =>
      rw [accepted_cons_of_some hplay, playOrSkip_of_some hplay]
      show (play? p move).bind (replay? · (accepted p' moves)) = _
      rw [hplay]
      exact ih p'

end Puzzle

end ExactCover
