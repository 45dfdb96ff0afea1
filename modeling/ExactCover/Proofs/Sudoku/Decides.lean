import ExactCover.Proofs.Sudoku.Encoding

/-!
# Solving decides a board

What a search answers about a board is true of the board itself. If it reports a solution, the
moves fill every empty cell once and lead to a completion. If it reports none, and did not run out
of its budget, there is no completion: one would be an exact cover, which the search cannot miss.
Givens that contradict each other are no exception. Their keys are skipped when they repeat, and
then it is the replay of the moves that refuses every solution.

* **`Sudoku.solve_report`**: the answer of a search, as a report of Algorithm X.
* **`Sudoku.solve_decides`**: the result.
-/

namespace ExactCover

namespace Sudoku

variable {s t : Sudoku}

/-- What Algorithm X reports on the table of a board, where the givens are covered. -/
def report (s : Sudoku) (o : Search.Options) : AlgorithmX.Report Placement :=
  AlgorithmX.descend (Puzzle.table s) s o s.covered [] 0

/-- A search on a board succeeds, and answers what Algorithm X reports. -/
theorem solve_report (s : Sudoku) (o : Search.Options) :
    ∃ out, Search.solve s o = .ok out ∧ out.moves = (s.report o).found.getD [] ∧
      out.tally.solved = (s.report o).found.isSome ∧ out.tally.aborted = (s.report o).aborted :=
  Puzzle.solve_report s o

/-- A solved board has as many numbers as cells. -/
theorem givens_of_isSolved (h : s.isSolved = true) : s.givens = s.size.cells :=
  isFull_iff.mp (Bool.and_eq_true _ _ ▸ h).1

/-- **Solving decides a board.** On every board that a grid shows, for either rule of branching
and every budget, the search gives an answer. A solution has one move for each empty cell, and
playing the moves is accepted and ends in a completion. Without a solution, and without having
been aborted, there is no completion. A search without a budget is not aborted. -/
theorem solve_decides {g : Grid} {s : Sudoku} (h : ofGrid g = .ok s) (o : Search.Options) :
    ∃ out, Search.solve s o = .ok out ∧
      (out.tally.solved = true →
        out.moves.length + s.givens = s.size.side * s.size.side ∧
        (out.moves.map Placement.position).Nodup ∧
        (∀ move ∈ out.moves, move.size = s.size ∧ move.position < s.size.cells ∧
          s.valueAt move.position = 0) ∧
        ∃ t, Puzzle.replay? s out.moves = some t ∧ Completion s t) ∧
      (out.tally.solved = false → out.tally.aborted = false → ¬ ∃ t, Completion s t) ∧
      (o.budget = none → out.tally.aborted = false) := by
  obtain ⟨out, hsolve, hmoves, hsolved, haborted⟩ := solve_report s o
  refine ⟨out, hsolve, fun hyes => ?_, fun hno hfinished => ?_, fun hbudget => ?_⟩
  · obtain ⟨moves, hfound⟩ := Option.isSome_iff_exists.mp (hsolved ▸ hyes)
    rw [hfound, Option.getD_some] at hmoves
    subst hmoves
    -- what is found was played through to a solved board
    obtain ⟨t, hreplay, hdone⟩ := (Option.any_eq_true _ _).mp (AlgorithmX.descend_found hfound)
    have hplayed := played_of_replay hreplay
    have hgivens := hplayed.givens
    rw [givens_of_isSolved hdone, hplayed.size] at hgivens
    refine ⟨?_, hplayed.nodup, hplayed.fills, t, hreplay,
      completion_of_solved hplayed (valueAt_le_of_ofGrid h) hdone⟩
    have hcells : s.size.cells = s.size.side * s.size.side := rfl
    omega
  · -- what a completion adds is an exact cover that reads and plays in any order
    rintro ⟨t, ht⟩
    have hended : (s.report o).Ended := by
      refine AlgorithmX.descend_complete ht.isExactCover (fun p hp c hc => ?_)
        (fun played hplayed => ?_) 0
      · obtain ⟨hposition, -, hvalue, hsize⟩ := mem_fills.mp hp
        have hvalid : p.isValid = true := by
          rw [Placement.valid_iff, hsize, hvalue]
          exact ⟨hposition, ht.value_range hposition⟩
        exact ofKeys?_row hvalid hsize hc
      · exact ht.replay (by simpa using hplayed)
    rcases hended with hgiven | hfound
    · rw [← haborted, hfinished] at hgiven
      cases hgiven
    · rw [← hsolved, hno] at hfound
      cases hfound
  · rw [haborted]
    exact AlgorithmX.descend_unlimited hbudget

/-- A board with five givens: without a budget, either it is solved or it cannot be completed. -/
theorem solve_decides_four :
    ∃ s, ofGrid ⟨[[1, 0, 0, 4], [0, 0, 1, 0], [0, 1, 0, 0], [4, 0, 0, 0]]⟩ = .ok s ∧
      ∃ out, Search.solve s {} = .ok out ∧ (out.tally.solved = true ∨ ¬ ∃ t, Completion s t) := by
  obtain ⟨s, hs⟩ : ∃ s, ofGrid ⟨[[1, 0, 0, 4], [0, 0, 1, 0], [0, 1, 0, 0], [4, 0, 0, 0]]⟩ = .ok s :=
    ⟨_, rfl⟩
  obtain ⟨out, hsolve, -, hnone, hfinished⟩ := solve_decides hs {}
  refine ⟨s, hs, out, hsolve, ?_⟩
  cases hsolved : out.tally.solved with
  | true => exact Or.inl rfl
  | false => exact Or.inr (hnone hsolved (hfinished rfl))

end Sudoku

end ExactCover
