import ExactCover.Family.Basic
import ExactCover.Proofs.Matrix.Remains
import ExactCover.Proofs.Search.Exhaustive
import ExactCover.Proofs.Search.Refinement

/-!
# What a search comes to

A search ends in one of three ways: with a solution, with the certainty that there is none, or with
its budget used up. In all of them it hands the matrix back as it came, whatever the puzzle makes of
the rows and of the moves, and also if some columns were covered before it began.

A puzzle describes itself twice, by its rows and by its rules. The search knows a solution by both:
it is read from an exact cover of what the initial moves leave, and the rules accept it. Conversely
it only finds exact covers that the rules accept in whatever order it comes by their moves.

* **`Puzzle.Covering`**: moves that a search must not miss.
* **`Puzzle.solve_spec`**: what an outcome says about the puzzle.
* **`solveWith_restores`**: the matrix after a search.
-/

namespace ExactCover

variable {σ μ : Type} [Puzzle σ μ]

/-! ## What an outcome says -/

open AlgorithmX (ReadsAs)

theorem Puzzle.row_subset {p : σ} {r : List ColumnId} (hr : r ∈ (table p).rows) :
    ∀ c ∈ r, c ∈ (table p).columns := by
  obtain ⟨-, keys, -, rfl⟩ := Table.mem_rows_ofRows.mp hr
  exact fun c hc => Table.meets_sublist.subset hc

variable [Move μ]

/-- Moves whose rows are an exact cover of what the initial moves leave, each of which is read back
from its row, and which the rules accept in any order. -/
structure Puzzle.Covering (p : σ) (row : μ → List ColumnId) (moves : List μ) : Prop where
  cover : (table p).IsExactCover (precovered p) (moves.map row)
  reads : ∀ move ∈ moves, ∀ c ∈ row move,
    ofKeys? p ((c :: roundFrom (· == c) (row move)).map (table p).key) = some move
  accepted : ∀ played, played.Perm moves → isSolvedBy p played = true

/-- **What an outcome says about the puzzle.** A solution is accepted by the rules, and it was read
from an exact cover. Without a solution, and without having been aborted, there are no covering
moves. A search without a budget is not aborted. -/
theorem Puzzle.solve_spec (p : σ) (o : Search.Options) :
    ∃ out, Search.solve p o = .ok out ∧
      (out.tally.solved = true → isSolvedBy p out.moves = true ∧
        ∃ rows, (table p).IsExactCover (precovered p) rows ∧
          List.Forall₂ (ReadsAs (table p) p) rows out.moves) ∧
      (out.tally.solved = false → out.tally.aborted = false →
        ∀ row moves, ¬ Covering p row moves) ∧
      (o.budget = none → out.tally.aborted = false) := by
  obtain ⟨out, hsolve, hmoves, hsolved, haborted⟩ := solve_report p o
  refine ⟨out, hsolve, fun hyes => ?_, fun hno hfinished row moves hcovering => ?_,
    fun hbudget => ?_⟩
  · obtain ⟨found, hfound⟩ := Option.isSome_iff_exists.mp (hsolved ▸ hyes)
    rw [hfound, Option.getD_some] at hmoves
    obtain ⟨rows, rest, rfl, hcover, hreads⟩ :=
      AlgorithmX.descend_exactCover (fun r hr => row_subset hr) hfound
    rw [hmoves]
    exact ⟨AlgorithmX.descend_found hfound, rows, hcover, hreads⟩
  · have hended : (report p o).Ended :=
      AlgorithmX.descend_complete hcovering.cover hcovering.reads
        (fun played hplayed => hcovering.accepted played (by simpa using hplayed)) 0
    rcases hended with hgiven | hfound
    · rw [← haborted, hfinished] at hgiven
      cases hgiven
    · rw [← hsolved, hno] at hfound
      cases hfound
  · rw [haborted]
    exact AlgorithmX.descend_unlimited hbudget

/-! ## The matrix afterwards -/

/-- **A search hands the matrix back as it came,** to every link and every size. This is so for
every matrix that can be built, after any columns were covered that were live when their turn came,
for every puzzle, either rule of branching and every budget. -/
theorem solveWith_restores (additions : List Addition) (p : σ) (o : Search.Options) :
    ∃ m, Matrix.build additions = .ok m ∧ ∀ columns, m.Coverable columns →
      ∃ m' out, m.coverAll columns = .ok m' ∧ Search.solveWith p o m' = .ok out ∧
        out.matrix = m' := by
  obtain ⟨L, m, hbuild, hm, -⟩ := Represents.build additions
  refine ⟨m, hbuild, fun columns hcolumns => ?_⟩
  obtain ⟨m', hcover, hm'⟩ := hm.coverAll hcolumns
  exact ⟨m', _, hcover, solveWith_eq hm' p o, rfl⟩

/-- The column of the second key was covered before, and it is the only initial key. -/
theorem solveWith_restores_covered :
    ∃ m m' out, Matrix.build [.column "a", .column "b", .row ["a"], .row ["a", "b"]] = .ok m ∧
      m.coverAll [2] = .ok m' ∧ Search.solveWith
        (⟨[("a", false), ("b", true)], [⟨"a", ["a"]⟩], [⟨"b", ["b"]⟩]⟩ : Family) {} m' = .ok out ∧
      out.matrix = m' := by
  obtain ⟨m, hbuild, hrestores⟩ := solveWith_restores
    [.column "a", .column "b", .row ["a"], .row ["a", "b"]]
    (⟨[("a", false), ("b", true)], [⟨"a", ["a"]⟩], [⟨"b", ["b"]⟩]⟩ : Family) {}
  have hcoverable : m.Coverable [2] := by
    cases hbuild
    decide +kernel
  obtain ⟨m', out, hcover, hsolve, hmatrix⟩ := hrestores [2] hcoverable
  exact ⟨m, m', out, hbuild, hcover, hsolve, hmatrix⟩

end ExactCover
